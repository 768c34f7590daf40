import Dialogue.Proofs.Mishearing
import Dialogue.Proofs.Noting
import Dialogue.Proofs.Segmentation
import Dialogue.Proofs.Unswayed
/-!
The user and the agent speak at once. Main statement: in whatever order frames come in and playbacks
begin, come to boundaries and end, speech interrupts a playback exactly when it sets in while it is
played and may be interrupted, and what is heard does not depend on what is played.
-/
namespace Dialogue

open Playback (Handle Outcome)

variable {σ μ : Type}

namespace Airing

/-- A move that is no frame concerns the handle and nothing else of the session. -/
theorem step_quiet (e : Engine σ) (air : Airing σ μ) {move : Move} (quiet : move.bytes? = none) :
    (step e air move).2.world = air.world ∧
      (step e air move).2.session =
        { air.session with playback := (step e air move).2.session.playback } ∧
      (step e air move).1.outcome? = none := by
  cases move with
  | frame bytes => cases quiet
  | begins chunks | finish cleared =>
    unfold step
    dsimp only
    split <;> exact ⟨rfl, rfl, rfl⟩
  | boundary answer =>
    unfold step
    dsimp only
    split
    · split
      · exact ⟨rfl, rfl, rfl⟩
      · cases answer <;> exact ⟨rfl, rfl, rfl⟩
    · exact ⟨rfl, rfl, rfl⟩

section
variable {e : Engine σ} {f : Flow} {session : String} {past : List Note} {air : Airing σ μ}
  (steady : Steady e f session past air)
include steady

theorem step_told (listens : f.settings.listens = true) (move : Move) :
    ∃ events, Journal.events (step e air move).2.world.journal =
        Journal.events air.world.journal ++ events ∧
      events.filter Event.isInterruption = (step e air move).1.interruptions := by
  cases frame : move.bytes? with
  | none =>
    obtain ⟨world, -, note⟩ := step_quiet e air frame
    rw [world]
    refine ⟨[], (List.append_nil _).symm, ?_⟩
    cases noted : (step e air move).1 <;> first | rfl | (rw [noted] at note; cases note)
  | some bytes =>
    cases move <;> cases frame
    obtain ⟨events, journal, -⟩ := (e.takeFrame_hears f air.session air.world steady.loaded listens
      steady.hears bytes).told
    refine ⟨events, journal, ?_⟩
    dsimp only [step, Note.interruptions, World.interruptions]
    rw [journal, List.drop_left]

/-- The observers are told of the interruptions that are noted, and of no other. -/
theorem run_told (listens : f.settings.listens = true) (moves : List Move) :
    ∃ events, Journal.events (run e air moves).2.world.journal =
        Journal.events air.world.journal ++ events ∧
      events.filter Event.isInterruption = (run e air moves).1.flatMap Note.interruptions := by
  induction moves generalizing past air with
  | nil => exact ⟨[], (List.append_nil _).symm, rfl⟩
  | cons move rest ih =>
    obtain ⟨later, journal, told⟩ := ih (step_goesOn steady listens move).steady
    obtain ⟨now, journal', told'⟩ := step_told steady listens move
    refine ⟨now ++ later, ?_, ?_⟩
    · rw [run, journal, journal', List.append_assoc]
    · rw [List.filter_append, told', told]
      rfl

end

def Sound (f : Flow) (session : String) (notes : List Note) : Prop :=
  ∀ before note after, notes = before ++ note :: after → note.Lawful f session before

namespace Sound
variable {f : Flow} {session : String} {notes : List Note}

/-- Where the flow allows no interruption, no playback is cut short. -/
theorem uncut (sound : Sound f session notes) (fixed : f.settings.interruptible = false) :
    .cut ∉ notes := by
  intro short
  obtain ⟨before, after, split⟩ := List.append_of_mem short
  obtain ⟨chunks, since, now, asked⟩ := sound before .cut after split
  -- A frame was noted that asks for it, and that note itself is lawful after those before it.
  obtain ⟨note, listed, asks⟩ := List.any_eq_true.mp asked
  obtain ⟨earlier, later, split'⟩ := List.append_of_mem (mem_of_current now listed)
  cases note with
  | heard outcome told =>
    have lawful := sound earlier (.heard outcome told) (later ++ .cut :: after) (by
      rw [split, split', List.append_assoc]
      rfl)
    rw [Note.Lawful, fixed, Bool.and_false, Bool.false_and, if_neg Bool.false_ne_true] at lawful
    rw [Note.bargesIn, lawful] at asks
    cases asks
  | began | wrote | refused | cut | ended | nothing => cases asks

/-- There, a playback that the sink has not failed is complete when it ends. -/
theorem completes (sound : Sound f session notes) (fixed : f.settings.interruptible = false)
    {before after : List Note} {result : Except String Outcome}
    (split : notes = before ++ .ended result :: after) :
    ∃ chunks since, current before = some (chunks, since) ∧
      ((∀ chunk error, .refused chunk error ∉ since) →
        result = .ok (.completed chunks.length) ∧ written since = chunks) := by
  obtain ⟨chunks, since, now, ends⟩ := sound before (.ended result) after split
  refine ⟨chunks, since, now, fun working => ?_⟩
  cases ends with
  | completed all fine => exact ⟨rfl, all⟩
  | cutShort short answer =>
    have noted : .cut ∈ notes := split ▸ List.mem_append_left _ (mem_of_current now short)
    exact absurd noted (sound.uncut fixed)
  | failed refused => exact absurd refused (working _ _)

end Sound

section
variable {e : Engine σ} {f : Flow} {session : String} {past : List Note} {air : Airing σ μ}
  (steady : Steady e f session past air) (listens : f.settings.listens = true)
include steady listens

/-- Where the flow allows no interruption, chunk after chunk is written at the boundaries. -/
theorem run_writes (fixed : f.settings.interruptible = false) (during : List Move)
    (each : ∀ m ∈ during, m.isFrame = true ∨ m.isWriting = true) {n : Nat}
    {rest : List (List UInt8)} (on : air.player = .on n rest)
    (unasked : air.session.playback.interrupted = false) :
    (run e air during).2.player = .on (n + min (during.countP Move.isWriting) rest.length)
      (rest.drop (during.countP Move.isWriting)) := by
  induction during generalizing past air n rest with
  | nil => exact on
  | cons move moves ih =>
    obtain ⟨now, later⟩ := List.forall_mem_cons.mp each
    have goesOn := (step_goesOn steady listens move).steady
    have next : (run e air (move :: moves)).2 = (run e (step e air move).2 moves).2 := rfl
    rw [next]
    cases move with
    | begins | finish => simp [Move.isFrame, Move.isWriting, Move.bytes?] at now
    | frame bytes =>
      have silent : air.session.bargesIn f bytes = false := by
        rw [Session.bargesIn, fixed, Bool.and_false, Bool.false_and]
      have kept := (e.takeFrame_hears f air.session air.world steady.loaded listens steady.hears
        bytes).playback
      rw [silent, if_neg Bool.false_ne_true] at kept
      exact ih goesOn later on ((congrArg Handle.interrupted kept).trans unasked)
    | boundary answer =>
      cases answer with
      | error message => simp [Move.isFrame, Move.isWriting, Move.bytes?] at now
      | ok =>
        rw [List.countP_cons_of_pos rfl]
        -- Where nothing is left to write, further boundaries leave all as it is.
        cases rest with
        | nil =>
          have waits : (step e air (.boundary (.ok ()))).2 = air := by
            simp only [step, on]
          rw [waits] at goesOn ⊢
          have done := ih goesOn later on unasked
          rw [List.drop_nil, List.length_nil, Nat.min_zero] at done ⊢
          exact done
        | cons chunk rest =>
          have writes : (step e air (.boundary (.ok ()))).2 =
              { air with player := .on (n + 1) rest } := by
            simp only [step, on, unasked, Bool.false_eq_true, if_false]
          rw [writes] at goesOn ⊢
          have done := ih goesOn later rfl unasked
          rw [done, List.drop_succ_cons, List.length_cons, Nat.succ_min_succ]
          congr 1
          omega

/-- There, a playback that comes to a boundary for each chunk is complete when it ends. -/
theorem run_completes (fixed : f.settings.interruptible = false) (off : air.player = .off)
    (chunks : List (List UInt8)) (during : List Move)
    (each : ∀ m ∈ during, m.isFrame = true ∨ m.isWriting = true)
    (enough : chunks.length ≤ during.countP Move.isWriting) (cleared : Except String Unit) :
    (run e air (.begins chunks :: during ++ [.finish cleared])).1.getLast? =
      some (.ended (.ok (.completed chunks.length))) := by
  have begun : step e air (.begins chunks) = (.began chunks, air.hold (.on 0 chunks) .begun) := by
    simp only [step, off]
  have goesOn := (step_goesOn steady listens (.begins chunks)).steady
  rw [begun] at goesOn
  have played := run_writes goesOn listens fixed during each rfl rfl
  rw [Nat.min_eq_right enough, List.drop_of_length_le enough, Nat.zero_add] at played
  have reached : (run e air (.begins chunks :: during)).2 =
      (run e (air.hold (.on 0 chunks) .begun) during).2 := by rw [run, begun]
  rw [run_append, reached, List.getLast?_append]
  simp only [run, step, played]
  rfl

end

def outcomes (notes : List Note) : List (Option Speech.Outcome) := notes.filterMap Note.outcome?

def signals (moves : List Move) : List Speech.Signal := (moves.filterMap Move.bytes?).map .frame

theorem outcomes_quiet (e : Engine σ) (air : Airing σ μ) {move : Move} (quiet : move.bytes? = none)
    (rest : List Move) :
    outcomes (run e air (move :: rest)).1 = outcomes (run e (step e air move).2 rest).1 ∧
      signals (move :: rest) = signals rest := by
  obtain ⟨-, -, note⟩ := step_quiet e air quiet
  refine ⟨List.filterMap_cons_none note, ?_⟩
  rw [signals, List.filterMap_cons_none quiet]
  rfl

theorem outcomes_frame (e : Engine σ) (air : Airing σ μ) (bytes : List UInt8) (rest : List Move) :
    outcomes (run e air (.frame bytes :: rest)).1 =
        air.session.outcome? bytes :: outcomes (run e (step e air (.frame bytes)).2 rest).1 ∧
      signals (.frame bytes :: rest) = .frame bytes :: signals rest := ⟨rfl, rfl⟩

/-- Once the conversation is over, nothing is made of any frame. -/
theorem run_over (e : Engine σ) {air : Airing σ μ} (done : air.session.talk.complete = true)
    (moves : List Move) :
    outcomes (run e air moves).1 = List.replicate (signals moves).length none := by
  induction moves generalizing air with
  | nil => rfl
  | cons move rest ih =>
    cases frame : move.bytes? with
    | none =>
      obtain ⟨made, same⟩ := outcomes_quiet e air frame rest
      obtain ⟨-, session, -⟩ := step_quiet e air frame
      have done' : (step e air move).2.session.talk.complete = true := by
        rw [session]
        exact done
      rw [made, same]
      exact ih done'
    | some bytes =>
      cases move <;> cases frame
      have taken : e.takeFrame air.session bytes air.world = (none, air.session, air.world) := by
        rw [Engine.takeFrame, done]
        rfl
      have none : air.session.outcome? bytes = none := by
        rw [Session.outcome?, done]
        rfl
      have done' : (step e air (.frame bytes)).2.session.talk.complete = true := by
        simp only [step, taken]
        exact done
      obtain ⟨made, more⟩ := outcomes_frame e air bytes rest
      rw [made, more, ih done', none, List.length_cons, List.replicate_succ]

/-- The outcomes are those of the segmenter alone, up to the end of the conversation. -/
theorem run_outcomes {e : Engine σ} {f : Flow} {session : String} {past : List Note}
    {air : Airing σ μ} (steady : Steady e f session past air) (listens : f.settings.listens = true)
    {seg : Speech.Segmenter μ Unit} (segmenter : air.session.segmenter = some seg)
    (moves : List Move) :
    ∃ k, outcomes (run e air moves).1 = (seg.outcomes (signals moves)).take k ++
      List.replicate ((signals moves).length - k) none := by
  induction moves generalizing past air seg with
  | nil => exact ⟨0, rfl⟩
  | cons move rest ih =>
    have goesOn := (step_goesOn steady listens move).steady
    cases frame : move.bytes? with
    | none =>
      obtain ⟨made, same⟩ := outcomes_quiet e air frame rest
      obtain ⟨-, session, -⟩ := step_quiet e air frame
      rw [made, same]
      exact ih goesOn (by rw [session]; exact segmenter)
    | some bytes =>
      -- From the frame on that the conversation is over, the segmenter is not asked any more.
      cases done : air.session.talk.complete with
      | true => exact ⟨0, run_over e done _⟩
      | false =>
        cases move <;> cases frame
        have hears := (e.takeFrame_hears f air.session air.world steady.loaded listens steady.hears
          bytes).segmenter
        rw [done, if_neg Bool.false_ne_true, segmenter] at hears
        obtain ⟨k, later⟩ := ih goesOn hears
        have first : air.session.outcome? bytes = some (seg.process bytes).1 := by
          rw [Session.outcome?, done, segmenter]
          rfl
        obtain ⟨made, more⟩ := outcomes_frame e air bytes rest
        refine ⟨k + 1, ?_⟩
        rw [made, more, later, first, List.length_cons, Nat.add_sub_add_right]
        rfl

/-- Whatever is played, a frame that is taken while the conversation goes on brings what the
segmenter makes of it by itself. -/
theorem outcome_alone {e : Engine σ} {f : Flow} {session : String} {past : List Note}
    {air : Airing σ μ} (steady : Steady e f session past air) (listens : f.settings.listens = true)
    {seg : Speech.Segmenter μ Unit} (segmenter : air.session.segmenter = some seg)
    {moves : List Move} {i : Nat} {o : Speech.Outcome}
    (brought : (outcomes (run e air moves).1)[i]? = some (some o)) :
    (seg.outcomes (signals moves))[i]? = some (some o) := by
  obtain ⟨k, made⟩ := run_outcomes steady listens segmenter moves
  rw [made, List.getElem?_append] at brought
  split at brought
  · rw [List.getElem?_take] at brought
    split at brought
    · exact brought
    · cases brought
  · cases List.eq_of_mem_replicate (List.mem_of_getElem? brought)

theorem signals_frames (moves : List Move) :
    signals (moves.filter Move.isFrame) = signals moves := by
  rw [signals, List.filterMap_filter, signals]
  congr 2
  funext move
  cases move <;> rfl

/-- Where observers sway no other service, playbacks are nothing to the segmenter. -/
theorem outcomes_unswayed {α : Type} {mind : σ → α} {e : Engine σ} {f : Flow} {session : String}
    {past : List Note} {air air' : Airing σ μ} (unswayed : e.services.Unswayed mind)
    (steady : Steady e f session past air) (listens : f.settings.listens = true)
    (h : Abreast f mind air.session air.world air'.session air'.world) (moves : List Move) :
    outcomes (run e air moves).1 = outcomes (run e air' (moves.filter Move.isFrame)).1 := by
  induction moves generalizing past air air' with
  | nil => rfl
  | cons move rest ih =>
    have goesOn := (step_goesOn steady listens move).steady
    cases frame : move.bytes? with
    | none =>
      obtain ⟨made, -⟩ := outcomes_quiet e air frame rest
      obtain ⟨world, session, -⟩ := step_quiet e air frame
      have dropped : (move :: rest).filter Move.isFrame = rest.filter Move.isFrame := by
        rw [List.filter_cons_of_neg (by rw [Move.isFrame, frame]; exact Bool.false_ne_true)]
      rw [made, dropped]
      refine ih goesOn ?_
      rw [world, session]
      exact ⟨h.flow, h.id, h.segmenter, h.talk, h.mind⟩
    | some bytes =>
      cases move <;> cases frame
      have same : air.session.outcome? bytes = air'.session.outcome? bytes := by
        rw [Session.outcome?, Session.outcome?, h.talk.complete, h.segmenter]
      have taken := Engine.takeFrame_abreast unswayed h steady.loaded bytes
      have later : outcomes (run e (step e air (.frame bytes)).2 rest).1 =
          outcomes (run e (step e air' (.frame bytes)).2 (rest.filter Move.isFrame)).1 :=
        ih goesOn taken
      rw [List.filter_cons_of_pos rfl, (outcomes_frame e air bytes rest).1,
        (outcomes_frame e air' bytes _).1, same, later]

def interjection : List Move :=
  [.begins [[1], [2]], .boundary (.ok ()), .frame [1, 0], .frame [0, 0], .frame [1, 0],
    .boundary (.ok ()), .finish (.ok ()), .frame [0, 0], .frame [1, 0]]

end Airing
end Dialogue
