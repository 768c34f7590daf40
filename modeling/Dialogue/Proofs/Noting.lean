import Dialogue.Proofs.Airing
/-!
What is noted of a session on the air. Main statement: whatever moves are made, each note is lawful
after those before it.
-/
namespace Dialogue

open Playback (Handle Outcome)

variable {σ μ : Type}

namespace Airing

namespace Note

def bargesIn : Note → Bool
  | heard _ interruptions => !interruptions.isEmpty
  | _ => false

def chunk? : Note → Option (List UInt8)
  | wrote chunk => some chunk
  | _ => none

def stops : Note → Bool
  | cut | refused .. => true
  | _ => false

def isAside : Note → Bool
  | heard .. | nothing => true
  | _ => false

def interruptions : Note → List Event
  | heard _ interruptions => interruptions
  | _ => []

def outcome? : Note → Option (Option Speech.Outcome)
  | heard outcome _ => some outcome
  | _ => none

/-- The playback in progress after a note: its chunks, and the notes since it began. -/
def extend (now : Option (List (List UInt8) × List Note)) :
    Note → Option (List (List UInt8) × List Note)
  | began chunks => some (chunks, [])
  | ended _ => none
  | note => now.map fun (chunks, since) => (chunks, since ++ [note])

end Note

def current (notes : List Note) : Option (List (List UInt8) × List Note) :=
  notes.foldl Note.extend none

def written (notes : List Note) : List (List UInt8) := notes.filterMap Note.chunk?

inductive Ends (chunks : List (List UInt8)) (since : List Note) : Except String Outcome → Prop where
  | completed (all : written since = chunks) (fine : since.any Note.stops = false) :
    Ends chunks since (.ok (.completed chunks.length))
  | cutShort (short : .cut ∈ since) (answer : Except String Unit) :
    Ends chunks since (answer.map fun _ => .interrupted (written since).length)
  | failed {chunk : List UInt8} {error : String} (refused : .refused chunk error ∈ since) :
    Ends chunks since (.error error)

def Note.Lawful (f : Flow) (session : String) (past : List Note) : Note → Prop
  -- an interruption is told of when speech sets in while something is played, and only then
  | heard outcome told =>
    told = if outcome.any Speech.Outcome.started && f.settings.interruptible &&
      (current past).isSome then [.interrupted session] else []
  | began _ => current past = none
  -- no chunk is given to the sink once speech has set in
  | wrote chunk | refused chunk _ => ∃ chunks since, current past = some (chunks, since) ∧
    written since ++ [chunk] <+: chunks ∧ since.any bargesIn = false ∧ since.any stops = false
  -- a playback is cut short only if speech has set in since it began
  | cut => ∃ chunks since, current past = some (chunks, since) ∧ since.any bargesIn = true
  | ended result => ∃ chunks since, current past = some (chunks, since) ∧ Ends chunks since result
  | nothing => True

inductive Stands (past : List Note) : Player → Handle → Prop where
  | off {h : Handle} (idle : h.playing = false) (silent : current past = none) : Stands past .off h
  | on {chunks rest : List (List UInt8)} {since : List Note}
    (now : current past = some (chunks, since)) (split : chunks = written since ++ rest)
    (fine : since.any Note.stops = false) :
    Stands past (.on (written since).length rest) ⟨true, since.any Note.bargesIn⟩
  | cut {chunks : List (List UInt8)} {since : List Note}
    (now : current past = some (chunks, since)) (short : .cut ∈ since) :
    Stands past (.cut (written since).length) ⟨true, true⟩
  | broken {chunks : List (List UInt8)} {since : List Note} {chunk : List UInt8} {error : String}
    (now : current past = some (chunks, since)) (refused : .refused chunk error ∈ since)
    (asked : Bool) : Stands past (.broken error) ⟨true, asked⟩

theorem current_concat (notes : List Note) (note : Note) :
    current (notes ++ [note]) = note.extend (current notes) := by
  rw [current, List.foldl_append]
  rfl

/-- The notes since the playback in progress began are the last ones. -/
theorem current_split {notes since : List Note} {chunks : List (List UInt8)}
    (now : current notes = some (chunks, since)) :
    ∃ earlier, notes = earlier ++ .began chunks :: since := by
  suffices h : ∀ start, notes.foldl Note.extend start = some (chunks, since) →
      (∃ before, start = some (chunks, before) ∧ since = before ++ notes) ∨
        ∃ earlier, notes = earlier ++ .began chunks :: since by
    obtain ⟨before, off, -⟩ | began := h none now
    · cases off
    · exact began
  clear now
  induction notes with
  | nil => exact fun start now => .inl ⟨since, now, (List.append_nil since).symm⟩
  | cons note rest ih =>
    intro start now
    obtain ⟨before, here, rfl⟩ | ⟨earlier, rfl⟩ := ih _ now
    · cases note with
      | began chunks' =>
        cases here
        exact .inr ⟨[], rfl⟩
      | ended result => cases here
      | heard | wrote | refused | cut | nothing =>
        obtain ⟨⟨_, before⟩, rfl, same⟩ := Option.map_eq_some_iff.mp here
        cases same
        exact .inl ⟨before, rfl, by rw [List.append_assoc]; rfl⟩
    · exact .inr ⟨note :: earlier, rfl⟩

theorem mem_of_current {notes since : List Note} {chunks : List (List UInt8)} {note : Note}
    (now : current notes = some (chunks, since)) (listed : note ∈ since) : note ∈ notes := by
  obtain ⟨earlier, rfl⟩ := current_split now
  exact List.mem_append_right earlier (List.mem_cons_of_mem _ listed)

theorem written_concat (notes : List Note) (note : Note) :
    written (notes ++ [note]) = written notes ++ note.chunk?.toList := by
  rw [written, List.filterMap_append]
  cases note <;> rfl

namespace Stands
variable {past : List Note} {player : Player} {h : Handle}

theorem playing (stands : Stands past player h) : h.playing = (current past).isSome := by
  cases stands with
  | off idle silent => rw [idle, silent]; rfl
  | on now | cut now | broken now => rw [now]; rfl

/-- A note that is not the player's own changes nothing, but that the playback may be asked to
stop. -/
theorem aside (stands : Stands past player h) {note : Note} (aside : note.isAside = true)
    (only : note.bargesIn = true → h.playing = true) :
    Stands (past ++ [note]) player (if note.bargesIn then h.interrupt else h) := by
  have unwritten : note.chunk? = none := by cases note <;> first | rfl | cases aside
  have goesOn : note.stops = false := by cases note <;> first | rfl | cases aside
  have next : current (past ++ [note]) =
      (current past).map fun (chunks, since) => (chunks, since ++ [note]) := by
    rw [current_concat]
    cases note <;> first | rfl | cases aside
  have kept (since : List Note) : written (since ++ [note]) = written since := by
    rw [written_concat, unwritten]
    exact List.append_nil _
  cases stands with
  | off idle silent =>
    have quiet : note.bargesIn = false := Bool.eq_false_iff.mpr fun asks => by
      rw [only asks] at idle
      cases idle
    rw [quiet]
    exact .off idle (by rw [next, silent]; rfl)
  | @on chunks rest since now split fine =>
    have on : Stands (past ++ [note]) (.on (written (since ++ [note])).length rest)
        ⟨true, (since ++ [note]).any Note.bargesIn⟩ :=
      .on (next.trans (congrArg _ now)) (by rw [kept]; exact split)
        (by rw [List.any_append, fine, List.any_cons, goesOn]; rfl)
    rw [kept, List.any_append, List.any_cons] at on
    cases asks : note.bargesIn <;> simpa [asks, Handle.interrupt] using on
  | @cut chunks since now short =>
    have cut := Stands.cut (next.trans (congrArg _ now)) (List.mem_append_left _ short)
    rw [kept] at cut
    cases note.bargesIn <;> exact cut
  | broken now refused asked =>
    cases note.bargesIn <;>
      exact .broken (next.trans (congrArg _ now)) (List.mem_append_left _ refused) _

section
variable {n : Nat} {chunk : List UInt8} {rest : List (List UInt8)} (f : Flow) (session : String)

/-- At a boundary a playback that was asked to stop is cut short. -/
theorem cuts (stands : Stands past (.on n (chunk :: rest)) h) (asked : h.interrupted = true) :
    Note.cut.Lawful f session past ∧ Stands (past ++ [.cut]) (.cut n) h := by
  cases stands with
  | @on chunks _ since now split fine =>
    have asked : since.any Note.bargesIn = true := asked
    have next : current (past ++ [.cut]) = some (chunks, since ++ [.cut]) := by
      rw [current_concat, now]
      rfl
    have kept : written (since ++ [.cut]) = written since := by
      rw [written_concat]
      exact List.append_nil _
    have cut := Stands.cut next (List.mem_append_right since (List.mem_singleton_self _))
    rw [kept] at cut
    rw [asked]
    exact ⟨⟨chunks, since, now, asked⟩, cut⟩

/-- A playback that was not asked to stop gives the next chunk to the sink. -/
theorem offers (stands : Stands past (.on n (chunk :: rest)) h) (unasked : h.interrupted = false) :
    ∃ chunks since, current past = some (chunks, since) ∧ written since ++ [chunk] <+: chunks ∧
      since.any Note.bargesIn = false ∧ since.any Note.stops = false := by
  cases stands with
  | @on chunks _ since now split fine =>
    exact ⟨chunks, since, now, ⟨rest, by rw [split, List.append_assoc]; rfl⟩, unasked, fine⟩

theorem writes (stands : Stands past (.on n (chunk :: rest)) h) :
    Stands (past ++ [.wrote chunk]) (.on (n + 1) rest) h := by
  cases stands with
  | @on chunks _ since now split fine =>
    have next : current (past ++ [.wrote chunk]) = some (chunks, since ++ [.wrote chunk]) := by
      rw [current_concat, now]
      rfl
    have more : written (since ++ [.wrote chunk]) = written since ++ [chunk] :=
      written_concat since _
    have on : Stands (past ++ [.wrote chunk]) (.on (written (since ++ [.wrote chunk])).length rest)
        ⟨true, (since ++ [Note.wrote chunk]).any Note.bargesIn⟩ :=
      .on next (by rw [more, split]; exact List.append_cons _ _ _)
        (by rw [List.any_append, fine]; rfl)
    rw [more, List.length_append, List.any_append] at on
    rw [← Bool.or_false (since.any _)]
    exact on

theorem refuses (stands : Stands past (.on n (chunk :: rest)) h) (error : String) :
    Stands (past ++ [.refused chunk error]) (.broken error) h := by
  cases stands with
  | @on chunks _ since now split fine =>
    have next : current (past ++ [.refused chunk error]) =
        some (chunks, since ++ [.refused chunk error]) := by
      rw [current_concat, now]
      rfl
    exact .broken next (List.mem_append_right since (List.mem_singleton_self _)) _

theorem ends {result : Except String Outcome} (past : List Note) (cutShort : Bool) :
    Stands (past ++ [.ended result]) .off (.finished cutShort) :=
  .off rfl (current_concat past _)

theorem completes (stands : Stands past (.on n []) h) :
    (Note.ended (.ok (.completed n))).Lawful f session past := by
  cases stands with
  | @on chunks _ since now split fine =>
    have all : written since = chunks := by rw [split, List.append_nil]
    refine ⟨chunks, since, now, ?_⟩
    rw [all]
    exact .completed all fine

theorem ends_cut (stands : Stands past (.cut n) h) (cleared : Except String Unit) :
    (Note.ended (cleared.map fun _ => .interrupted n)).Lawful f session past := by
  cases stands with
  | @cut chunks since now short => exact ⟨chunks, since, now, .cutShort short cleared⟩

theorem ends_broken {error : String} (stands : Stands past (.broken error) h) :
    (Note.ended (.error error)).Lawful f session past := by
  cases stands with
  | @broken chunks since _ _ now refused asked => exact ⟨chunks, since, now, .failed refused⟩

end

end Stands

structure Steady (e : Engine σ) (f : Flow) (session : String) (past : List Note)
    (air : Airing σ μ) : Prop where
  loaded : e.flow? air.session.flow = some f
  hears : air.session.segmenter.isSome = true
  id : air.session.id = session
  stands : Stands past air.player air.session.playback

structure GoesOn (e : Engine σ) (f : Flow) (session : String) (past : List Note)
    (x : Note × Airing σ μ) : Prop where
  lawful : x.1.Lawful f session past
  steady : Steady e f session (past ++ [x.1]) x.2

section
variable {e : Engine σ} {f : Flow} {session : String} {past : List Note} {air : Airing σ μ}
  (steady : Steady e f session past air)
include steady

/-- Where the session is as it was, but for the handle. -/
theorem Steady.hold {note : Note} {player : Player} {h : Handle}
    (lawful : note.Lawful f session past) (stands : Stands (past ++ [note]) player h) :
    GoesOn e f session past (note, air.hold player h) :=
  ⟨lawful, steady.loaded, steady.hears, steady.id, stands⟩

/-- Where the handle is as it was, too. -/
theorem Steady.onward {note : Note} {player : Player} (lawful : note.Lawful f session past)
    (stands : Stands (past ++ [note]) player air.session.playback) :
    GoesOn e f session past (note, { air with player }) :=
  ⟨lawful, steady.loaded, steady.hears, steady.id, stands⟩

theorem Steady.nothing : GoesOn e f session past (.nothing, air) :=
  steady.onward trivial (steady.stands.aside rfl nofun)

theorem step_frame (listens : f.settings.listens = true) (bytes : List UInt8) :
    GoesOn e f session past (step e air (.frame bytes)) := by
  have hears := e.takeFrame_hears f air.session air.world steady.loaded listens steady.hears bytes
  dsimp only [step]
  generalize e.takeFrame air.session bytes air.world = x at hears ⊢
  obtain ⟨answer, s', w'⟩ := x
  have told : air.world.interruptions w' =
      if air.session.bargesIn f bytes then [.interrupted session] else [] := by
    obtain ⟨events, journal, interruptions⟩ := hears.told
    rw [World.interruptions, journal, List.drop_left, interruptions, steady.id]
  have asks : (Note.heard (air.session.outcome? bytes) (air.world.interruptions w')).bargesIn =
      air.session.bargesIn f bytes := by
    rw [Note.bargesIn, told]
    cases air.session.bargesIn f bytes <;> rfl
  refine ⟨?_, ?_, ?_, hears.id.trans steady.id, ?_⟩
  · rw [Note.Lawful, told, Session.bargesIn, steady.stands.playing]
  · rw [hears.flow, steady.loaded]
  · rw [hears.segmenter]
    split
    · exact steady.hears
    · rw [Option.isSome_map, steady.hears]
  · have only : air.session.bargesIn f bytes = true → air.session.playback.playing = true :=
      fun h => (Bool.and_eq_true_iff.mp h).2
    have aside : (Note.heard (air.session.outcome? bytes)
        (air.world.interruptions w')).isAside = true := rfl
    have after := steady.stands.aside aside (fun h => only (asks ▸ h))
    rw [asks, ← hears.playback] at after
    exact after

theorem step_begins (chunks : List (List UInt8)) :
    GoesOn e f session past (step e air (.begins chunks)) := by
  have stands := steady.stands
  unfold step
  dsimp only
  split
  · next off =>
    rw [off] at stands
    cases stands with
    | off idle silent =>
      have now : current (past ++ [.began chunks]) = some (chunks, []) := current_concat past _
      exact steady.hold silent (.on now rfl rfl)
  · exact steady.nothing

theorem step_boundary (answer : Except String Unit) :
    GoesOn e f session past (step e air (.boundary answer)) := by
  have stands := steady.stands
  unfold step
  dsimp only
  split
  · next n chunk rest on =>
    rw [on] at stands
    split
    · next asked =>
      obtain ⟨lawful, after⟩ := stands.cuts f session asked
      exact steady.onward lawful after
    · next unasked =>
      have offered := stands.offers (Bool.not_eq_true _ ▸ unasked)
      cases answer with
      | ok => exact steady.onward offered stands.writes
      | error message => exact steady.onward offered (stands.refuses message)
  · exact steady.nothing

theorem step_finish (cleared : Except String Unit) :
    GoesOn e f session past (step e air (.finish cleared)) := by
  have stands := steady.stands
  unfold step
  dsimp only
  split
  · next n on =>
    rw [on] at stands
    exact steady.hold (stands.completes f session) (.ends past false)
  · next n cut =>
    rw [cut] at stands
    exact steady.hold (stands.ends_cut f session cleared) (.ends past true)
  · next error broken =>
    rw [broken] at stands
    exact steady.hold (stands.ends_broken f session) (.ends past false)
  · exact steady.nothing

theorem step_goesOn (listens : f.settings.listens = true) (move : Move) :
    GoesOn e f session past (step e air move) := by
  cases move with
  | frame bytes => exact step_frame steady listens bytes
  | begins chunks => exact step_begins steady chunks
  | boundary answer => exact step_boundary steady answer
  | finish cleared => exact step_finish steady cleared

/-- However long it goes on, every note is lawful after those before it. -/
theorem run_lawful (listens : f.settings.listens = true) (moves : List Move) :
    (∀ before note after, (run e air moves).1 = before ++ note :: after →
      note.Lawful f session (past ++ before)) ∧
    Steady e f session (past ++ (run e air moves).1) (run e air moves).2 := by
  induction moves generalizing past air with
  | nil =>
    refine ⟨fun before note after none => ?_, ?_⟩
    · cases before <;> cases none
    · rw [run, List.append_nil]
      exact steady
  | cons move rest ih =>
    obtain ⟨lawful, steady⟩ := step_goesOn steady listens move
    obtain ⟨later, last⟩ := ih steady
    rw [List.append_assoc] at last
    refine ⟨fun before note after split => ?_, last⟩
    cases before with
    | nil =>
      obtain ⟨rfl, -⟩ := List.cons.inj split
      rw [List.append_nil]
      exact lawful
    | cons first before =>
      obtain ⟨same, later'⟩ := List.cons.inj split
      rw [← same, List.append_cons]
      exact later before note after later'

end

end Airing
end Dialogue
