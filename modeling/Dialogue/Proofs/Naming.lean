import Dialogue.Proofs.Comparing
import Dialogue.Proofs.Filling
import Dialogue.Proofs.Finding
import Dialogue.Proofs.Lexing
/-!
Presence of a variable, asked of an equation, of a template and of the variables themselves. Main
statement: equations always agree with the variables; templates do so for every name without a
closing brace and for no other one.
-/
namespace Dialogue

namespace Condition

theorem names_closed {text name : String} (names : Names text name) :
    Text.FirstAt closingBraces text.toList [] :=
  (Text.breakOn?_eq_some_iff.mp (names_iff.mp names).1).2

theorem lexes_exists : Lexes " exists".toList [.word "exists"] := by
  have word : Lexes ("exists".toList ++ []) [.word "exists"] :=
    @Lexes.word 'e' "xists".toList _ _ (List.all_eq_true.mp (by decide)) rfl lexes_nil
  exact word.blank (c := ' ') rfl

theorem lexes_not_exists : Lexes " not exists".toList [.word "not", .word "exists"] := by
  have word : Lexes ("not".toList ++ " exists".toList) [.word "not", .word "exists"] :=
    @Lexes.word 'n' "ot".toList _ _ (List.all_eq_true.mp (by decide)) rfl lexes_exists
  exact word.blank (c := ' ') rfl

/-- A test of presence is read behind the variable that it is about. -/
theorem reads_presence {text name test : String} {ks : List Kind} {negated : Bool}
    (names : Names text name) (lexes : Lexes test.toList ks) (presence : Presence ks negated []) :
    ofText (Variables.placeholder text ++ test) = .ok (.exists name negated) := by
  have whole := lexes.variable names
  refine Lexes.ofText (show Lexes _ (.variable name :: ks) by
    simpa [Variables.placeholder] using whole) ?_
  exact .inr (.conjunction (.factor (.predicate (.presence presence))))

end Condition

namespace Template

open Json (Value)

variable {lookup : String → Option Value}

/-- Up to a closing brace before the first two in a row nothing is filled in. -/
theorem expand_unpaired {front rest : List Char}
    (unpaired : ∀ other back, front ++ '\x7d' :: rest = other ++ '\x7d' :: '\x7d' :: back →
      front.length < other.length) :
    expand lookup (front ++ '\x7d' :: rest) = front ++ '\x7d' :: expand lookup rest := by
  induction front with
  | nil => exact expand_plain (not_placeholder_of_ne (by decide) rest)
  | cons c front ih =>
    have plain : placeholder? (c :: (front ++ '\x7d' :: rest)) = none := by
      cases hp : placeholder? (c :: (front ++ '\x7d' :: rest)) with
      | none => rfl
      | some found =>
        obtain ⟨name, after⟩ := found
        obtain ⟨⟨-, unclosed⟩, shape⟩ := placeholder?_iff.mp hp
        have whole : c :: front ++ '\x7d' :: rest =
            ('\x7b' :: '\x7b' :: name) ++ '\x7d' :: '\x7d' :: after := by
          rw [List.cons_append, shape, written_append]
          rfl
        -- The brace stands before the end of the name, so it would be part of the name.
        have short := unpaired _ _ whole
        have inside : '\x7d' ∈ '\x7b' :: '\x7b' :: name := by
          have at_brace := congrArg (·[(c :: front).length]?) whole
          simp only [List.getElem?_append_right (Nat.le_refl _), Nat.sub_self,
            List.getElem?_cons_zero, List.getElem?_append_left short] at at_brace
          exact List.mem_of_getElem? at_brace.symm
        simp [unclosed] at inside
    have later :
        expand lookup (front ++ '\x7d' :: rest) = front ++ '\x7d' :: expand lookup rest := by
      refine ih fun other back split => ?_
      have := unpaired (c :: other) back (by simp only [List.cons_append, split])
      simpa using this
    rw [List.cons_append, expand_plain plain, later, List.cons_append]

end Template

namespace Variables

open Condition (Names)
open Json (Value)

/-- Of the placeholder of a name with a closing brace, what stands up to that brace is left. -/
theorem interpolate_unpaired (vars : Variables) {name front back : String}
    (names : Names name name) (split : name = front ++ "\x7d" ++ back) :
    vars.interpolate (placeholder name) =
      "\x7b\x7b" ++ front ++ "\x7d" ++ vars.interpolate (back ++ "\x7d\x7d") := by
  have whole : (placeholder name).toList =
      ('\x7b' :: '\x7b' :: front.toList) ++ '\x7d' :: (back.toList ++ ['\x7d', '\x7d']) := by
    simp [placeholder, split]
  have unpaired : ∀ other behind,
      ('\x7b' :: '\x7b' :: front.toList) ++ '\x7d' :: (back.toList ++ ['\x7d', '\x7d']) =
        other ++ '\x7d' :: '\x7d' :: behind →
      ('\x7b' :: '\x7b' :: front.toList).length < other.length := by
    intro other behind parts
    rcases other with _ | ⟨c, _ | ⟨d, other⟩⟩
    · cases parts
    · cases parts
    · have closes := Condition.names_closed names other behind (by
        simpa [split, Condition.closingBraces] using (List.cons.inj (List.cons.inj parts).2).2)
      simp [split] at closes ⊢
      omega
  apply String.toList_injective
  rw [interpolate_eq, interpolate_eq, String.toList_ofList, whole,
    Template.expand_unpaired unpaired]
  simp

/-- Without a closing brace in the name, the whole is its placeholder. -/
theorem interpolate_placeholder (vars : Variables) {name : String} (names : Names name name)
    (unclosed : '\x7d' ∉ name.toList) :
    vars.interpolate (placeholder name) =
      if vars.isPresent name then (vars.getD name .null).display else placeholder name := by
  obtain ⟨-, nonempty, trimmed⟩ := Condition.names_iff.mp names
  have isName : Template.IsName name.toList := by
    refine ⟨fun empty => nonempty ?_, unclosed⟩
    rw [empty]
    rfl
  have filled : vars.interpolate (placeholder name) = vars.shown name := by
    apply String.toList_injective
    have alone : Template.expand vars.get? (Template.written name.toList ++ []) =
        Template.resolve vars.get? name.toList ++ Template.expand vars.get? [] :=
      Template.expand_written isName []
    simpa [interpolate_eq, toList_placeholder, resolve_eq] using alone
  rw [filled, shown, ← trimmed, isPresent, getD]
  cases vars.get? name with
  | none => rfl
  | some v => cases v <;> rfl

/-- A test of presence in an equation tells what the variables tell. A template shows a variable
exactly if it is present, provided that its name has no closing brace; for a name with one, even
single, this fails of some variables. -/
theorem presence_agrees {name : String} (names : Names name name) :
    (∀ vars : Variables,
      vars.satisfies (placeholder name ++ " exists") = vars.isPresent name ∧
      vars.satisfies (placeholder name ++ " not exists") = !vars.isPresent name) ∧
    ((∀ vars : Variables, vars.interpolate (placeholder name) =
        if vars.isPresent name then (vars.getD name .null).display else placeholder name) ↔
      '\x7d' ∉ name.toList) := by
  have present := Condition.reads_presence names Condition.lexes_exists
    (.present (by decide +kernel) [])
  have absent := Condition.reads_presence names Condition.lexes_not_exists
    (.notPresent (by decide +kernel) (by decide +kernel) [])
  refine ⟨fun vars => ⟨?_, ?_⟩, fun agrees closing => ?_, fun unclosed vars =>
    vars.interpolate_placeholder names unclosed⟩
  · rw [vars.satisfies_eq present]
    exact Bool.xor_false _
  · rw [vars.satisfies_eq absent]
    exact Bool.xor_true _
  · obtain ⟨front, back, split⟩ := List.append_of_mem closing
    have parts : name = String.ofList front ++ "\x7d" ++ String.ofList back := by
      apply String.toList_injective
      simp [split]
    -- The empty text is shown for a present variable, but the braces in front are left.
    have held : (ofInitial [(name, .string "")]).get? name = some (.string "") :=
      List.lookup_cons_self
    have shown := agrees (.ofInitial [(name, .string "")])
    rw [interpolate_unpaired _ names parts, isPresent, getD, held] at shown
    have visible := congrArg String.length shown
    simp [Json.Value.display] at visible

def bramble : String := "it's \x7ba >= (b OR exists"

def shelf : Variables := .ofInitial [("a\x7db", .string "Ann"), (bramble, .string "Sam")]

theorem shelf_agrees :
    Names bramble bramble ∧ shelf.satisfies (placeholder bramble ++ " exists") = true ∧
      shelf.interpolate (placeholder bramble) = "Sam" ∧
      empty.interpolate (placeholder bramble) = placeholder bramble ∧
    Names "a\x7db" "a\x7db" ∧ shelf.satisfies "\x7b\x7ba\x7db\x7d\x7d not exists" = false ∧
      ¬ ∀ vars : Variables, vars.interpolate (placeholder "a\x7db") =
        if vars.isPresent "a\x7db" then (vars.getD "a\x7db" .null).display
        else placeholder "a\x7db" := by
  have names : Names bramble bramble := Condition.names_iff.mpr (by decide +kernel)
  have braced : Names "a\x7db" "a\x7db" := Condition.names_iff.mpr (by decide +kernel)
  obtain ⟨present, agrees⟩ := presence_agrees names
  have shown := agrees.mpr (by decide)
  obtain ⟨tested, differs⟩ := presence_agrees braced
  exact ⟨names, (present shelf).1.trans (by decide +kernel), shown shelf, shown empty, braced,
    (tested shelf).2.trans (by decide +kernel), fun agrees => differs.mp agrees (by decide)⟩

/-- An equation finds the variable of a name with a closing brace, a template does not show it. -/
theorem brace_hides :
    ¬ ∀ (vars : Variables) (name : String), Names name name →
      vars.satisfies (placeholder name ++ " exists") = vars.isPresent name ∧
      vars.satisfies (placeholder name ++ " not exists") = (!vars.isPresent name) ∧
      vars.interpolate (placeholder name) =
        if vars.isPresent name then (vars.getD name .null).display else placeholder name := by
  intro agrees
  have shown := (agrees shelf "a\x7db" (Condition.names_iff.mpr (by decide +kernel))).2.2
  revert shown
  decide +kernel

end Variables
end Dialogue
