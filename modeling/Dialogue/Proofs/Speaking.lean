import Dialogue.Cascade
import Dialogue.Proofs.Telling
/-!
The agent's words in a turn. They are kept in three places: the history of the conversation, the
list that becomes the text of the result, and what the observers are told.
-/
namespace Dialogue

variable {σ : Type}

namespace Turn

def ofAgent (node : String) (text : Option String) : List Turn :=
  text.toList.map fun text => ⟨.agent, text, node, []⟩

def event (session : String) (t : Turn) : Event := .said session t.node t.text

end Turn

structure Speaks (st : Stage σ) (said : List Turn) (sc sc' : Scene σ) : Prop where
  turns : sc'.talk.turns = sc.talk.turns ++ said
  agent : ∀ t ∈ said, t.role = .agent
  spoken : sc'.spoken = sc.spoken ++ said.map Turn.text
  told : ∃ events, st.services.Tells events sc.world sc'.world ∧
    events.filter Event.isSaid = said.map (Turn.event st.session)

namespace Speaks
variable {st : Stage σ} {said more : List Turn} {sc sc' sc'' : Scene σ}

/-- Where nothing is said, the observers may still be told of something else. -/
theorem silent {events : List Event} (turns : sc'.talk.turns = sc.talk.turns)
    (spoken : sc'.spoken = sc.spoken) (told : st.services.Tells events sc.world sc'.world)
    (other : ∀ event ∈ events, event.isSaid = false) : Speaks st [] sc sc' where
  turns := by rw [turns, List.append_nil]
  agent := by simp
  spoken := by rw [spoken, List.map_nil, List.append_nil]
  told := ⟨events, told, by simpa using other⟩

theorem refl (st : Stage σ) (sc : Scene σ) : Speaks st [] sc sc :=
  silent rfl rfl (.refl _ _) (by simp)

theorem trans (h : Speaks st said sc sc') (h' : Speaks st more sc' sc'') :
    Speaks st (said ++ more) sc sc'' where
  turns := by rw [h'.turns, h.turns, List.append_assoc]
  agent t ht := (List.mem_append.mp ht).elim (h.agent t) (h'.agent t)
  spoken := by rw [h'.spoken, h.spoken, List.map_append, List.append_assoc]
  told := by
    obtain ⟨events, htold, hsaid⟩ := h.told
    obtain ⟨events', htold', hsaid'⟩ := h'.told
    exact ⟨events ++ events', htold.trans htold', by
      rw [List.filter_append, hsaid, hsaid', List.map_append]⟩

theorem trans_silent (h : Speaks st said sc sc') (h' : Speaks st [] sc' sc'') :
    Speaks st said sc sc'' :=
  List.append_nil said ▸ h.trans h'

theorem spoken_nil (h : Speaks st said sc sc') (hs : sc'.spoken = []) : sc.spoken = [] := by
  rw [h.spoken, List.append_eq_nil_iff] at hs
  exact hs.1

end Speaks

theorem Scene.counted_speaks (st : Stage σ) (sc : Scene σ) : Speaks st [] sc sc.counted :=
  .silent rfl rfl (.refl _ _) (by simp)

theorem Scene.closed_speaks (st : Stage σ) (sc : Scene σ) (reason : String) :
    Speaks st [] sc (sc.closed reason) :=
  .silent rfl rfl (.refl _ _) (by simp)

namespace Result

/-- The text of a result is all that was spoken, with one blank in between; where nothing was, it
is none or blank. -/
def Voices (r : Result) (spoken : List String) : Prop :=
  (spoken = [] → ∀ text, r.text = some text → Text.isBlankText text = true) ∧
    (spoken ≠ [] → r.text = some (String.intercalate " " spoken))

theorem joined_voices (r : Result) (spoken : List String)
    (h : spoken = [] → Text.spoken? r.text = none) : (r.joined spoken).Voices spoken := by
  cases spoken with
  | nil =>
    refine ⟨fun _ text ht => ?_, fun hne => absurd rfl hne⟩
    have hnone := h rfl
    have ht : r.text = some text := ht
    rw [ht, Text.spoken?, Option.filter_eq_none_iff] at hnone
    simpa using hnone text rfl
  | cons text rest => exact ⟨by simp, fun _ => rfl⟩

end Result

namespace Stage
variable (st : Stage σ) (node : String) (sc : Scene σ)

theorem say_speaks (text : Option String) :
    Speaks st (Turn.ofAgent node (Text.spoken? text)) sc (st.say node text sc) := by
  unfold say
  split
  · next h =>
    rw [h]
    exact .refl st sc
  · next text' h =>
    rw [h]
    exact ⟨rfl, by simp [Turn.ofAgent], rfl, _, .tell st.services _ sc.world, rfl⟩

/-- A text that has not gone on record is none or blank. -/
theorem spoken?_of_say {text : Option String} (h : (st.say node text sc).spoken = []) :
    Text.spoken? text = none := by
  have hspoken := (st.say_speaks node sc text).spoken
  rw [h, eq_comm, List.append_eq_nil_iff] at hspoken
  cases htext : Text.spoken? text with
  | none => rfl
  | some text' => simp [htext, Turn.ofAgent] at hspoken

theorem excuse_speaks (r : Result) : ∃ said, Speaks st said sc (st.excuse node r sc) := by
  unfold excuse
  split
  · exact ⟨_, st.say_speaks node sc _⟩
  · exact ⟨_, .refl st sc⟩

theorem move_speaks (target : String) : Speaks st [] sc (st.move target sc) :=
  .silent rfl rfl (.tell st.services _ sc.world) (by simp [Event.isSaid])

theorem handOff_speaks (fault : Fault) (reason : String) :
    ∃ said, Speaks st said sc (st.handOff fault reason sc).2 :=
  ⟨_, (st.say_speaks _ sc _).trans_silent (Scene.closed_speaks st _ reason)⟩

theorem handOff_voices (fault : Fault) (reason : String) :
    (st.handOff fault reason sc).1.Voices (st.handOff fault reason sc).2.spoken :=
  Result.joined_voices _ _ fun _ => rfl

end Stage
end Dialogue
