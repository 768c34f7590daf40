import Dialogue.Speech.Playback
/-!
Interrupted playbacks. Each playback leaves a record of what was written and of how often it was
asked to stop. Main statement: it stops at the first chunk boundary after it was asked in time, and
what is asked while nothing plays, or too late, is without effect.
-/
namespace Dialogue.Playback

variable {ω : Type}

def Handle.interrupts (h : Handle) : Nat → Handle
  | 0 => h
  | k + 1 => h.interrupt.interrupts k

/-- A sink among those who may stop a playback: how often they ask while the next chunk is awaited
and while one is written. -/
structure Venue (ω : Type) where
  await : Handle → ω → Nat × ω
  write : List UInt8 → Handle → ω → Except String Unit × Nat × ω
  clear : ω → Except String Unit × ω

inductive Moment where
  | awaited (asked : Nat)
  | wrote (chunk : List UInt8) (asked : Nat)
  | failed (chunk : List UInt8) (error : String) (asked : Nat)
  | cleared (answer : Except String Unit)

namespace Moment

def asked : Moment → Nat
  | awaited asked | wrote _ asked | failed _ _ asked => asked
  | cleared _ => 0

def isFailure : Moment → Bool
  | failed .. => true
  | _ => false

def chunk? : Moment → Option (List UInt8)
  | wrote chunk _ => some chunk
  | _ => none

def offered? : Moment → Option (List UInt8)
  | wrote chunk _ | failed chunk _ _ => some chunk
  | _ => none

def answer? : Moment → Option (Except String Unit)
  | cleared answer => some answer
  | _ => none

end Moment

def written (log : List Moment) : List (List UInt8) := log.filterMap Moment.chunk?

namespace Venue

def sink (v : Venue ω) : Sink ω where
  await h w :=
    let (asked, w) := v.await h w
    (h.interrupts asked, w)
  write chunk h w :=
    let (result, asked, w) := v.write chunk h w
    (result, h.interrupts asked, w)
  clear := v.clear

def recorded (v : Venue ω) : Venue (ω × List Moment) where
  await h w :=
    let (asked, u) := v.await h w.1
    (asked, u, w.2 ++ [.awaited asked])
  write chunk h w :=
    let (result, asked, u) := v.write chunk h w.1
    match result with
    | .ok _ => (result, asked, u, w.2 ++ [.wrote chunk asked])
    | .error e => (result, asked, u, w.2 ++ [.failed chunk e asked])
  clear w :=
    let (answer, u) := v.clear w.1
    (answer, u, w.2 ++ [.cleared answer])

end Venue

/-- How a playback goes on when so many chunks are written, others are to come, and it was asked to
stop or not: what happens from there, how it ends, and whether it is cut short. -/
inductive Plays : Nat → List (List UInt8) → Bool → List Moment → Except String Outcome → Bool → Prop
  where
  | ends (n : Nat) (before : Bool) (asked : Nat) :
    Plays n [] before [.awaited asked] (.ok (.completed n)) false
  | stops (n : Nat) (chunk : List UInt8) (rest : List (List UInt8)) (before : Bool) (asked : Nat)
      (heard : before = true ∨ 0 < asked) (answer : Except String Unit) :
    Plays n (chunk :: rest) before [.awaited asked, .cleared answer]
      (answer.map fun _ => .interrupted n) true
  | fails (n : Nat) (chunk : List UInt8) (rest : List (List UInt8)) (e : String) (asked : Nat) :
    Plays n (chunk :: rest) false [.awaited 0, .failed chunk e asked] (.error e) false
  | writes {n : Nat} {chunk : List UInt8} {rest : List (List UInt8)} {asked : Nat}
      {log : List Moment} {result : Except String Outcome} {cut : Bool}
      (further : Plays (n + 1) rest (decide (0 < asked)) log result cut) :
    Plays n (chunk :: rest) false (.awaited 0 :: .wrote chunk asked :: log) result cut

theorem Handle.interrupts_playing (before : Bool) (k : Nat) :
    Handle.interrupts ⟨true, before⟩ k = ⟨true, before || decide (0 < k)⟩ := by
  induction k generalizing before with
  | zero => simp [interrupts]
  | succ k ih =>
    have hone : Handle.interrupt ⟨true, before⟩ = ⟨true, true⟩ := rfl
    rw [interrupts, hone, ih]
    simp

/-- A playback goes on as told, and a record of it changes nothing. -/
theorem goOn_plays (v : Venue ω) (n : Nat) (chunks : List (List UInt8)) (before : Bool) (w : ω)
    (log : List Moment) :
    ∃ more result cut u, Plays n chunks before more result cut ∧
      goOn v.sink n chunks ⟨true, before⟩ w = (result, .finished cut, u) ∧
      goOn v.recorded.sink n chunks ⟨true, before⟩ (w, log) =
        (result, .finished cut, u, log ++ more) := by
  induction chunks generalizing n before w log with
  | nil => exact ⟨_, _, _, (v.await ⟨true, before⟩ w).2, .ends n before _, rfl, rfl⟩
  | cons chunk rest ih =>
    rcases hawait : v.await ⟨true, before⟩ w with ⟨asked, u⟩
    by_cases heard : (before || decide (0 < asked)) = true
    · rcases hclear : v.clear u with ⟨answer, u'⟩
      have hasked : before = true ∨ 0 < asked := by simpa using heard
      refine ⟨_, _, _, u', .stops n chunk rest before asked hasked answer, ?_, ?_⟩
      · simp only [goOn, Venue.sink, hawait, Handle.interrupts_playing, heard, hclear, if_true]
      · simp [goOn, Venue.sink, Venue.recorded, hawait, Handle.interrupts_playing, heard, hclear]
    · have hnone : before = false ∧ asked = 0 := by simpa using heard
      obtain ⟨rfl, rfl⟩ := hnone
      rcases hwrite : v.write chunk ⟨true, false⟩ u with ⟨written, asked, u'⟩
      cases written with
      | error e =>
        refine ⟨_, _, _, u', .fails n chunk rest e asked, ?_, ?_⟩
        · simp [goOn, Venue.sink, hawait, Handle.interrupts_playing, hwrite]
        · simp [goOn, Venue.sink, Venue.recorded, hawait, Handle.interrupts_playing, hwrite]
      | ok =>
        obtain ⟨more, result, cut, u'', hplays, hgo, hrecorded⟩ :=
          ih (n + 1) (decide (0 < asked)) u' (log ++ [.awaited 0, .wrote chunk asked])
        refine ⟨_, result, cut, u'', .writes hplays, ?_, ?_⟩
        · rw [← hgo]
          simp [goOn, Venue.sink, hawait, Handle.interrupts_playing, hwrite]
        · simp only [List.append_assoc, List.cons_append, List.nil_append] at hrecorded
          rw [← hrecorded]
          simp [goOn, Venue.sink, Venue.recorded, hawait, Handle.interrupts_playing, hwrite]

/-- At this moment of a record a playback of so many chunks is asked to stop in time: a write in
progress succeeds, and another chunk is still to come. -/
structure AskedAt (count : Nat) (log before : List Moment) (m : Moment) (after : List Moment) :
    Prop where
  split : log = before ++ m :: after
  asked : 0 < m.asked
  succeeds : m.isFailure = false
  further : (written (before ++ [m])).length < count

namespace AskedAt
variable {count : Nat} {log before after : List Moment} {m x : Moment}

/-- It is the first moment, or a later one with as many chunks fewer as the first one wrote. -/
theorem uncons (h : AskedAt count (x :: log) before m after) :
    (before = [] ∧ m = x ∧ after = log) ∨
      ∃ before', before = x :: before' ∧
        AskedAt (count - (written [x]).length) log before' m after := by
  cases before with
  | nil =>
    have hsplit := List.cons.inj h.split
    exact .inl ⟨rfl, hsplit.1.symm, hsplit.2.symm⟩
  | cons y before =>
    obtain ⟨rfl, hlog⟩ := List.cons.inj h.split
    refine .inr ⟨before, rfl, hlog, h.asked, h.succeeds, ?_⟩
    have hcount := h.further
    rw [written, List.cons_append, ← List.singleton_append, List.filterMap_append,
      List.length_append] at hcount
    rw [written, written]
    omega

theorem cons (x : Moment) (h : AskedAt count log before m after) :
    AskedAt (count + (written [x]).length) (x :: log) (x :: before) m after := by
  refine ⟨by rw [h.split, List.cons_append], h.asked, h.succeeds, ?_⟩
  have hcount := h.further
  rw [written] at hcount
  rw [written, List.cons_append, ← List.singleton_append, List.filterMap_append,
    List.length_append, written]
  omega

end AskedAt

namespace Plays
variable {n : Nat} {chunks : List (List UInt8)} {early cut : Bool} {log : List Moment}
  {result : Except String Outcome}

theorem prefix_chunks (h : Plays n chunks early log result cut) : written log <+: chunks := by
  induction h with
  | ends | stops | fails => exact List.nil_prefix
  | writes _ ih => exact (List.prefix_cons_inj _).mpr ih

theorem completed (h : Plays n chunks early log result cut) {k : Nat}
    (all : result = .ok (.completed k)) : k = n + chunks.length ∧ written log = chunks := by
  induction h with
  | ends =>
    cases all
    exact ⟨rfl, rfl⟩
  | stops n chunk rest before asked heard answer => cases answer <;> cases all
  | fails => cases all
  | @writes n chunk rest _ _ _ _ _ ih =>
    obtain ⟨hk, hwritten⟩ := ih all
    refine ⟨?_, congrArg (chunk :: ·) hwritten⟩
    rw [List.length_cons]
    omega

theorem failed (h : Plays n chunks early log result cut) {chunk : List UInt8} {e : String}
    {asked : Nat} (failure : .failed chunk e asked ∈ log) :
    result = .error e ∧ cut = false ∧ log.getLast? = some (.failed chunk e asked) ∧
      written log ++ [chunk] <+: chunks := by
  induction h with
  | ends => simp at failure
  | stops => simp at failure
  | fails n chunk' rest e' asked' =>
    have same : chunk = chunk' ∧ e = e' ∧ asked = asked' := by simpa using failure
    obtain ⟨rfl, rfl, rfl⟩ := same
    exact ⟨rfl, rfl, rfl, ⟨rest, rfl⟩⟩
  | @writes n chunk' rest asked' log result cut further ih =>
    have later : Moment.failed chunk e asked ∈ log := by simpa using failure
    obtain ⟨hresult, hcut, hlast, hchunks⟩ := ih later
    refine ⟨hresult, hcut, ?_, (List.prefix_cons_inj chunk').mpr hchunks⟩
    rw [List.getLast?_cons, List.getLast?_cons, hlast]
    rfl

theorem unasked (h : Plays n chunks early log result cut) (quiet : cut = false)
    (fine : ∀ m ∈ log, m.isFailure = false) : result = .ok (.completed (n + chunks.length)) := by
  induction h with
  | ends => rfl
  | stops => cases quiet
  | fails n chunk rest e asked =>
    have hfine := fine (.failed chunk e asked) (by simp)
    cases hfine
  | @writes n chunk rest asked log result cut further ih =>
    have hrest := ih quiet fun m hm => fine m (by simp [hm])
    rw [hrest, List.length_cons]
    congr 2
    omega

/-- The record of a playback that goes on after it was asked. -/
theorem stops_next (h : Plays n chunks true log result cut) (further : chunks ≠ []) :
    cut = true ∧ ∃ asked answer, log = [.awaited asked, .cleared answer] ∧
      result = answer.map fun _ => .interrupted n := by
  cases h with
  | ends => exact absurd rfl further
  | stops n chunk rest before asked heard answer => exact ⟨rfl, asked, answer, rfl, rfl⟩

theorem heeded (h : Plays n chunks early log result cut) {before after : List Moment} {m : Moment}
    (asked : AskedAt chunks.length log before m after) :
    cut = true ∧ after.filterMap Moment.offered? = [] ∧
      ∃ answer, log.filterMap Moment.answer? = [answer] ∧
        result = answer.map fun _ => .interrupted (n + (written log).length) := by
  induction h generalizing before with
  | ends => exact absurd asked.further (Nat.not_lt_zero _)
  | stops n chunk rest early k heard answer =>
    obtain ⟨-, -, rfl⟩ | ⟨before', -, later⟩ := asked.uncons
    · exact ⟨rfl, rfl, answer, rfl, rfl⟩
    · obtain ⟨-, rfl, -⟩ | ⟨before'', -, last⟩ := later.uncons
      · exact absurd later.asked (Nat.lt_irrefl 0)
      · exact absurd last.split (by simp)
  | fails n chunk rest e k =>
    obtain ⟨-, rfl, -⟩ | ⟨before', -, later⟩ := asked.uncons
    · exact absurd asked.asked (Nat.lt_irrefl 0)
    · obtain ⟨-, rfl, -⟩ | ⟨before'', -, last⟩ := later.uncons
      · cases later.succeeds
      · exact absurd last.split (by simp)
  | @writes n chunk rest k log result cut further ih =>
    obtain ⟨-, rfl, -⟩ | ⟨before', -, later⟩ := asked.uncons
    · exact absurd asked.asked (Nat.lt_irrefl 0)
    · obtain ⟨rfl, rfl, rfl⟩ | ⟨before'', -, last⟩ := later.uncons
      · have hasked : 0 < k := later.asked
        have hrest : rest ≠ [] := by
          intro hnil
          subst hnil
          exact absurd later.further (Nat.lt_irrefl 1)
        rw [decide_eq_true hasked] at further
        obtain ⟨hcut, asked', answer, rfl, hresult⟩ := further.stops_next hrest
        exact ⟨hcut, rfl, answer, rfl, hresult⟩
      · obtain ⟨hcut, hafter, answer, hanswer, hresult⟩ := ih last
        refine ⟨hcut, hafter, answer, hanswer, ?_⟩
        have hlength : n + (written (.awaited 0 :: .wrote chunk k :: log)).length =
            n + 1 + (written log).length := Nat.add_right_comm n _ 1
        rw [hresult, hlength]

/-- A playback is cut short only because it was asked to stop, before this part of it or in time. -/
theorem cut_asked (h : Plays n chunks early log result cut) (short : cut = true) :
    (early = true ∧ chunks ≠ []) ∨ ∃ before m after, AskedAt chunks.length log before m after := by
  induction h with
  | ends | fails => cases short
  | stops n chunk rest early k heard answer =>
    cases heard with
    | inl heard => exact .inl ⟨heard, List.cons_ne_nil chunk rest⟩
    | inr heard => exact .inr ⟨[], _, _, rfl, heard, rfl, Nat.zero_lt_succ _⟩
  | @writes n chunk rest k log result cut further ih =>
    refine .inr ?_
    obtain ⟨asked, further⟩ | ⟨before, m, after, later⟩ := ih short
    · have hrest : 1 < (chunk :: rest).length := Nat.succ_lt_succ (List.length_pos_iff.mpr further)
      exact ⟨[.awaited 0], _, _, rfl, of_decide_eq_true asked, rfl, hrest⟩
    · exact ⟨_, m, after, (later.cons (.wrote chunk k)).cons (.awaited 0)⟩

theorem cleared_cut (h : Plays n chunks early log result cut) {answer : Except String Unit}
    (cleared : .cleared answer ∈ log) : cut = true := by
  induction h with
  | ends | fails => simp at cleared
  | stops => rfl
  | writes _ ih => exact ih (by simpa using cleared)

end Plays

structure Report where
  chunks : List (List UInt8)
  log : List Moment
  result : Except String Outcome
  handle : Handle

namespace Report

abbrev StopsAt (r : Report) (before : List Moment) (m : Moment) (after : List Moment) : Prop :=
  AskedAt r.chunks.length r.log before m after

structure Sound (r : Report) : Prop where
  prefix_chunks : written r.log <+: r.chunks
  completed : ∀ n, r.result = .ok (.completed n) → n = r.chunks.length ∧ written r.log = r.chunks
  /-- Once asked in time, it offers no further chunk and clears downstream once. -/
  heeded : ∀ before m after, r.StopsAt before m after →
    after.filterMap Moment.offered? = [] ∧
      ∃ answer, r.log.filterMap Moment.answer? = [answer] ∧
        r.result = answer.map fun _ => .interrupted (written r.log).length
  cleared : ∀ answer, .cleared answer ∈ r.log → ∃ before m after, r.StopsAt before m after
  failed : ∀ chunk e asked, .failed chunk e asked ∈ r.log →
    r.result = .error e ∧ r.log.getLast? = some (.failed chunk e asked) ∧
      written r.log ++ [chunk] <+: r.chunks
  undisturbed : (¬ ∃ before m after, r.StopsAt before m after) →
    (∀ m ∈ r.log, m.isFailure = false) → r.result = .ok (.completed r.chunks.length)
  stopped : r.handle.playing = false
  interrupted : r.handle.interrupted = true ↔ ∃ before m after, r.StopsAt before m after

end Report

theorem Plays.sound {chunks : List (List UInt8)} {log : List Moment}
    {result : Except String Outcome} {cut : Bool} (h : Plays 0 chunks false log result cut) :
    Report.Sound ⟨chunks, log, result, .finished cut⟩ := by
  have hcut : cut = true ↔ ∃ before m after, AskedAt chunks.length log before m after := by
    constructor
    · intro short
      obtain ⟨asked, -⟩ | asked := h.cut_asked short
      · cases asked
      · exact asked
    · intro given
      obtain ⟨before, m, after, asked⟩ := given
      exact (h.heeded asked).1
  refine ⟨h.prefix_chunks, ?_, ?_, ?_, ?_, ?_, rfl, hcut⟩
  · intro n all
    have hall := h.completed all
    rwa [Nat.zero_add] at hall
  · intro before m after asked
    have hasked := (h.heeded asked).2
    simp only [Nat.zero_add] at hasked
    exact hasked
  · intro answer cleared
    exact hcut.mp (h.cleared_cut cleared)
  · intro chunk e asked failure
    obtain ⟨hresult, -, hlast, hchunks⟩ := h.failed failure
    exact ⟨hresult, hlast, hchunks⟩
  · intro unasked fine
    have quiet : cut = false := Bool.eq_false_iff.mpr fun short => unasked (hcut.mp short)
    have hall := h.unasked quiet fine
    rwa [Nat.zero_add] at hall

inductive Act (ω : Type) where
  | interrupt
  | play (venue : Venue ω) (chunks : List (List UInt8))

def Act.isPlay : Act ω → Bool
  | interrupt => false
  | play .. => true

def perform : List (Act ω) → Handle → ω → List Report × Handle × ω
  | [], h, w => ([], h, w)
  | .interrupt :: rest, h, w => perform rest h.interrupt w
  | .play v chunks :: rest, _, w =>
    let (result, h, u) := play v.sink chunks w
    let (_, _, _, log) := play v.recorded.sink chunks (w, [])
    let (reports, h', u) := perform rest h u
    (⟨chunks, log, result, h⟩ :: reports, h', u)

theorem interrupt_idle {h : Handle} (idle : h.playing = false) : h.interrupt = h := by
  rw [Handle.interrupt, idle]
  rfl

theorem play_plays (v : Venue ω) (chunks : List (List UInt8)) (w : ω) :
    ∃ log result cut u, Plays 0 chunks false log result cut ∧
      play v.sink chunks w = (result, .finished cut, u) ∧
      play v.recorded.sink chunks (w, []) = (result, .finished cut, u, log) :=
  goOn_plays v 0 chunks false w []

/-- A playback makes nothing of the handle as it finds it. -/
theorem perform_play (v : Venue ω) (chunks : List (List UInt8)) (w : ω) :
    ∃ r u, r.Sound ∧ ∀ rest h, perform (.play v chunks :: rest) h w =
      (r :: (perform rest r.handle u).1, (perform rest r.handle u).2) := by
  obtain ⟨log, result, cut, u, plays, hplay, hrecorded⟩ := play_plays v chunks w
  refine ⟨_, u, plays.sound, fun rest h => ?_⟩
  rw [perform, hplay, hrecorded]

theorem perform_sound (acts : List (Act ω)) (h : Handle) (w : ω) :
    ∀ r ∈ (perform acts h w).1, r.Sound := by
  induction acts generalizing h w with
  | nil => nofun
  | cons act rest ih =>
    cases act with
    | interrupt => exact ih h.interrupt w
    | play v chunks =>
      obtain ⟨r, u, sound, hperform⟩ := perform_play v chunks w
      rw [hperform]
      exact List.forall_mem_cons.mpr ⟨sound, ih r.handle u⟩

theorem perform_stopped (acts : List (Act ω)) {h : Handle} (idle : h.playing = false) (w : ω) :
    (perform acts h w).2.1.playing = false := by
  induction acts generalizing h w with
  | nil => exact idle
  | cons act rest ih =>
    cases act with
    | interrupt =>
      rw [perform, interrupt_idle idle]
      exact ih idle w
    | play v chunks =>
      obtain ⟨r, u, sound, hperform⟩ := perform_play v chunks w
      rw [hperform]
      exact ih sound.stopped u

/-- Between playbacks, to ask for a stop comes to nothing. -/
theorem perform_filter (acts : List (Act ω)) {h : Handle} (idle : h.playing = false) (w : ω) :
    perform (acts.filter Act.isPlay) h w = perform acts h w := by
  induction acts generalizing h w with
  | nil => rfl
  | cons act rest ih =>
    cases act with
    | interrupt =>
      rw [perform, interrupt_idle idle]
      exact ih idle w
    | play v chunks =>
      obtain ⟨r, u, sound, hperform⟩ := perform_play v chunks w
      have hplay : (Act.play v chunks :: rest).filter Act.isPlay =
          .play v chunks :: rest.filter Act.isPlay := rfl
      rw [hplay, hperform, hperform, ih sound.stopped u]

/-- However playbacks and requests to stop follow one another on a handle, each playback keeps to
its rules, and requests while nothing plays change nothing at all. -/
theorem playbacks_sound (acts : List (Act ω)) (w : ω) :
    (∀ r ∈ (perform acts .idle w).1, r.Sound) ∧
      (perform acts .idle w).2.1.playing = false ∧
      perform (acts.filter Act.isPlay) .idle w = perform acts .idle w := by
  have idle : Handle.idle.playing = false := rfl
  exact ⟨perform_sound acts .idle w, perform_stopped acts idle w, perform_filter acts idle w⟩

end Dialogue.Playback
