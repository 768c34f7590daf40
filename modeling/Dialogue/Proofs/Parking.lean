import Dialogue.Proofs.Mishearing
import Dialogue.Proofs.Segmentation
/-!
Utterances that nobody transcribes. One of them is parked at a time. Main statement: each time the
host fetches, it is given the last one that came to an end since it fetched before.
-/
namespace Dialogue

open Speech (Segmenter Signal Utterance)

variable {σ μ η : Type}

inductive Errand where
  | frame (bytes : List UInt8)
  | fetch

def Errand.signal? : Errand → Option Signal
  | frame bytes => some (.frame bytes)
  | fetch => none

def Engine.runErrands (e : Engine σ) (s : Session μ) (w : World σ) :
    List Errand → List (Option Utterance) × Session μ × World σ
  | [] => ([], s, w)
  | .frame bytes :: rest =>
    let (_, s, w) := e.takeFrame s bytes w
    runErrands e s w rest
  | .fetch :: rest =>
    let (fetched, s) := s.takeUtterance
    let (later, s, w) := runErrands e s w rest
    (fetched :: later, s, w)

def completed (seg : Segmenter μ η) (errands : List Errand) : List Utterance :=
  (seg.outcomes (errands.filterMap Errand.signal?)).filterMap fun o =>
    o.bind Speech.Outcome.utterance

/-- What comes to an end, cut wherever the host fetches; some may have done so before. -/
def batches (seg : Segmenter μ η) (before : List Utterance) : List Errand → List (List Utterance)
  | [] => [before]
  | .frame bytes :: rest =>
    batches (seg.process bytes).2 (before ++ (seg.process bytes).1.utterance.toList) rest
  | .fetch :: rest => before :: batches seg [] rest

theorem batches_flatten (seg : Segmenter μ η) (before : List Utterance) (errands : List Errand) :
    (batches seg before errands).flatten = before ++ completed seg errands := by
  induction errands generalizing seg before with
  | nil => simp [batches, completed, Segmenter.outcomes]
  | cons errand rest ih =>
    cases errand with
    | frame bytes =>
      have hcompleted : completed seg (.frame bytes :: rest) =
          (seg.process bytes).1.utterance.toList ++ completed (seg.process bytes).2 rest := by
        rw [completed, List.filterMap_cons]
        simp only [Errand.signal?, Segmenter.outcomes, Segmenter.take, List.filterMap_cons,
          Option.bind_some]
        cases (seg.process bytes).1.utterance <;> rfl
      rw [batches, ih, hcompleted, List.append_assoc]
    | fetch =>
      rw [batches, List.flatten_cons, ih, List.nil_append]
      rfl

section
variable {α : Type}

theorem lasts_sublist (batches : List (List α)) :
    (batches.filterMap List.getLast?).Sublist batches.flatten := by
  induction batches with
  | nil => exact .slnil
  | cons batch rest ih =>
    rw [List.filterMap_cons, List.flatten_cons]
    cases h : batch.getLast? with
    | none => exact ih.trans (List.sublist_append_right batch _)
    | some last =>
      have hlast : [last].Sublist batch :=
        List.singleton_sublist.mpr (List.mem_of_getLast? h)
      exact hlast.append ih

/-- Nothing is left out exactly if no more than one falls between two cuts. -/
theorem lasts_eq_iff (batches : List (List α)) :
    batches.filterMap List.getLast? = batches.flatten ↔ ∀ batch ∈ batches, batch.length ≤ 1 := by
  induction batches with
  | nil => simp
  | cons batch rest ih =>
    have hrest := (lasts_sublist rest).length_le
    rw [List.forall_mem_cons, ← ih, List.filterMap_cons, List.flatten_cons]
    match batch with
    | [] => simp
    | [only] => simp
    | first :: second :: more =>
      refine ⟨fun same => ?_, fun h => ?_⟩
      · have hlength := congrArg List.length same
        rw [List.getLast?_cons_cons, List.getLast?_cons] at hlength
        simp only [List.length_cons, List.length_append] at hlength
        omega
      · have hone := h.1
        simp only [List.length_cons] at hone
        omega

end

structure Listens (e : Engine σ) (f : Flow) (seg : Segmenter μ Unit) (s : Session μ) : Prop where
  loaded : e.flow? s.flow = some f
  listens : f.settings.listens = true
  segmenter : s.segmenter = some seg
  live : s.talk.complete = false

namespace Engine
variable {e : Engine σ} {f : Flow} {seg : Segmenter μ Unit} {s : Session μ}

theorem bargeIn_keeps (e : Engine σ) (f : Flow) (s : Session μ) (started : Bool) (w : World σ) :
    (e.bargeIn f s started w).1.segmenter = s.segmenter ∧
      (e.bargeIn f s started w).1.parked = s.parked := by
  unfold bargeIn
  split <;> exact ⟨rfl, rfl⟩

/-- What the segmenter makes of a frame depends on nothing else that belongs to the session. -/
theorem perceive_listens (h : Listens e f seg s) (bytes : List UInt8) (w : World σ) :
    Listens e f (seg.process bytes).2 (e.perceive f s w bytes).2.1 ∧
      (e.perceive f s w bytes).2.1.parked = s.parked := by
  have attends := e.perceive_attends f s w bytes
  have hkeeps := e.bargeIn_keeps f { s with segmenter := some (seg.process bytes).2 }
    (seg.process bytes).1.started w
  have hperceive : (e.perceive f s w bytes).2.1 =
      (e.bargeIn f { s with segmenter := some (seg.process bytes).2 }
        (seg.process bytes).1.started w).1 := by
    unfold perceive
    rw [h.segmenter, h.listens]
    dsimp only
    split <;> rfl
  rw [← hperceive] at hkeeps
  refine ⟨⟨?_, h.listens, hkeeps.1, ?_⟩, hkeeps.2⟩
  · rw [attends.flow, h.loaded]
  · rw [attends.talk, h.live]

theorem perceive_parked (h : Listens e f seg s) (deaf : e.services.transcriber = none)
    (bytes : List UInt8) (w : World σ) :
    (e.perceive f s w bytes).1 =
      ((seg.process bytes).1.utterance.map Perception.parked).getD .nothing := by
  unfold perceive understand
  rw [h.segmenter, h.listens, deaf]
  dsimp only
  split
  · next none => rw [none]; rfl
  · next some => rw [some]; rfl

/-- A frame that nobody transcribes leaves all as it was, but for what comes to an end with it. -/
theorem takeFrame_parks (h : Listens e f seg s) (deaf : e.services.transcriber = none)
    (bytes : List UInt8) (w : World σ) :
    Listens e f (seg.process bytes).2 (e.takeFrame s bytes w).2.1 ∧
      (e.takeFrame s bytes w).2.1.parked = (seg.process bytes).1.utterance.or s.parked := by
  obtain ⟨hlistens, hparked⟩ := perceive_listens h bytes w
  rw [e.takeFrame_eq f s w h.loaded h.live]
  dsimp only
  rw [perceive_parked h deaf]
  cases (seg.process bytes).1.utterance with
  | none => exact ⟨hlistens, hparked⟩
  | some u => exact ⟨⟨hlistens.loaded, hlistens.listens, hlistens.segmenter, hlistens.live⟩, rfl⟩

/-- Along the errands what is parked is the last that came to an end since it was fetched. -/
theorem runErrands_lasts (h : Listens e f seg s) (deaf : e.services.transcriber = none)
    (w : World σ) (before : List Utterance) (parked : s.parked = before.getLast?)
    (errands : List Errand) :
    (e.runErrands s w errands).1 ++ [(e.runErrands s w errands).2.1.parked] =
      (batches seg before errands).map List.getLast? := by
  induction errands generalizing s seg w before with
  | nil => simp [runErrands, batches, parked]
  | cons errand rest ih =>
    cases errand with
    | frame bytes =>
      obtain ⟨hlistens, hparked⟩ := takeFrame_parks h deaf bytes w
      refine ih hlistens (e.takeFrame s bytes w).2.2 _ ?_
      rw [hparked, parked, List.getLast?_append]
      cases (seg.process bytes).1.utterance <;> rfl
    | fetch =>
      have hlistens : Listens e f seg s.takeUtterance.2 :=
        ⟨h.loaded, h.listens, h.segmenter, h.live⟩
      rw [batches, List.map_cons, ← ih hlistens w [] rfl, ← parked]
      rfl

end Engine

/-- Each time the host fetches, it is given the last utterance that has come to an end since it
fetched before, and what is parked is the last one since then. Nothing is given twice or out of
order, and nothing is lost exactly if no more than one comes to an end between two times. -/
theorem parked_since_fetch (e : Engine σ) (f : Flow) (seg : Segmenter μ Unit) (s : Session μ)
    (w : World σ) (errands : List Errand) (h : Listens e f seg s)
    (deaf : e.services.transcriber = none) :
    let (fetched, s', _) := e.runErrands s w errands
    let given := fetched ++ [s'.parked]
    let batches := batches seg s.parked.toList errands
    given = batches.map List.getLast? ∧
      batches.flatten = s.parked.toList ++ completed seg errands ∧
      (given.filterMap id).Sublist (s.parked.toList ++ completed seg errands) ∧
      (given.filterMap id = s.parked.toList ++ completed seg errands ↔
        ∀ batch ∈ batches, batch.length ≤ 1) := by
  have hparked : s.parked = s.parked.toList.getLast? := by cases s.parked <;> rfl
  have hlasts := Engine.runErrands_lasts h deaf w s.parked.toList hparked errands
  have hflatten := batches_flatten seg s.parked.toList errands
  have hgiven : ((batches seg s.parked.toList errands).map List.getLast?).filterMap id =
      (batches seg s.parked.toList errands).filterMap List.getLast? := by
    rw [List.filterMap_map]
    rfl
  refine ⟨hlasts, hflatten, ?_, ?_⟩
  · rw [hlasts, hgiven, ← hflatten]
    exact lasts_sublist _
  · rw [hlasts, hgiven, ← hflatten]
    exact lasts_eq_iff _

def muteBooth : Engine Unit :=
  { boothEngine with services := { boothEngine.services with transcriber := none } }

def lateErrands : List Errand :=
  [.frame [1, 0], .frame [0, 0], .frame [2, 0], .frame [0, 0], .fetch, .fetch]

theorem muteBooth_gives_last :
    let (fetched, s', _) := muteBooth.runErrands boothSession ⟨(), []⟩ lateErrands
    (fetched ++ [s'.parked]).map (Option.map Utterance.samples) =
      [some [2, 0], none, none] := by
  have hlistens : Listens muteBooth booth _ boothSession := ⟨rfl, rfl, rfl, rfl⟩
  obtain ⟨hgiven, -⟩ :=
    parked_since_fetch muteBooth booth _ boothSession ⟨(), []⟩ lateErrands hlistens rfl
  refine (congrArg (List.map (Option.map Utterance.samples)) hgiven).trans ?_
  decide +kernel

/-- What was parked is lost, once the next utterance comes to an end. -/
theorem muteBooth_loses :
    let (fetched, s', _) := muteBooth.runErrands boothSession ⟨(), []⟩ lateErrands
    (∃ opened : Session Unit, muteBooth.create "booth" "s" [] = .ok opened ∧
      opened.install Speech.nonzero () = .ok boothSession) ∧
    muteBooth.services.transcriber = none ∧ boothSession.parked = none ∧
    ∃ seg, Listens muteBooth booth seg boothSession ∧
      (fetched ++ [s'.parked]).filterMap id ≠ completed seg lateErrands := by
  refine ⟨⟨_, rfl, rfl⟩, rfl, rfl, _, ⟨rfl, rfl, rfl, rfl⟩, ?_⟩
  decide +kernel

end Dialogue
