import Dialogue.Service.Script
import Mathlib.Data.List.Induction
/-!
A script that is put one prompt after the other. Main statement: each prompt is answered by the first
rule that fits it and has answered fewer prompts than it may, and by the default if there is none.
-/
namespace Dialogue

def Rule.less (r : Rule) (used : Nat) : Rule := { r with limit := r.limit.map (· - used) }

theorem Rule.less_zero (r : Rule) : r.less 0 = r := by
  cases r with
  | mk pattern reply limit => cases limit <;> rfl

theorem Rule.less_less (r : Rule) (m n : Nat) : (r.less m).less n = r.less (m + n) := by
  cases r with
  | mk pattern reply limit =>
    cases limit with
    | none => rfl
    | some limit => simp [less, Nat.sub_sub]

namespace Script

def place? (s : Script) (prompt : String) : Option Nat :=
  s.rules.findIdx? (applies prompt)

def replyAt (s : Script) (place : Option Nat) : Except String String :=
  (place.bind (s.rules[·]?)).elim (.ok s.default) Rule.reply

def answers (s : Script) : List String → List (Option Nat × Except String String) × Script
  | [] => ([], s)
  | prompt :: rest =>
    let (reply, next) := answer prompt s
    let (later, last) := next.answers rest
    ((s.place? prompt, reply) :: later, last)

theorem getElem?_use (prompt : String) (rules : List Rule) (i : Nat) :
    (use prompt rules)[i]? =
      rules[i]?.map (·.less (if rules.findIdx? (applies prompt) = some i then 1 else 0)) := by
  induction rules generalizing i with
  | nil => rfl
  | cons r rest ih =>
    rw [use, List.findIdx?_cons]
    by_cases fits : applies prompt r
    · rw [if_pos fits, if_pos fits]
      cases i with
      | zero => rfl
      | succ i =>
        have other : ¬ some 0 = some (i + 1) := nofun
        simp [other, Rule.less_zero]
    · rw [if_neg fits, if_neg fits]
      cases i with
      | zero => simp [Rule.less_zero]
      | succ i => simp [ih i]

theorem find?_eq (rules : List Rule) (prompt : String) :
    rules.find? (applies prompt) = (rules.findIdx? (applies prompt)).bind (rules[·]?) := by
  induction rules with
  | nil => rfl
  | cons r rest ih =>
    rw [List.find?_cons, List.findIdx?_cons]
    cases applies prompt r with
    | true => rfl
    | false =>
      rw [ih]
      cases rest.findIdx? (applies prompt) <;> rfl

section
variable (s : Script) (prompt : String)

theorem answer_reply : (answer prompt s).1 = s.replyAt (s.place? prompt) := by
  rw [answer, replyAt, place?, ← find?_eq]
  cases s.rules.find? (applies prompt) <;> rfl

theorem answer_rule (i : Nat) :
    (answer prompt s).2.rules[i]? =
      s.rules[i]?.map (·.less (if s.place? prompt = some i then 1 else 0)) :=
  getElem?_use prompt s.rules i

/-- Only the limits of the rules change, which no reply depends on. -/
theorem answer_replyAt (place : Option Nat) :
    (answer prompt s).2.replyAt place = s.replyAt place := by
  cases place with
  | none => rfl
  | some i =>
    rw [replyAt, replyAt, Option.bind_some, Option.bind_some, answer_rule]
    cases s.rules[i]? <;> rfl

end

def used (given : List (Option Nat × Except String String)) (i : Nat) : Nat :=
  given.countP fun answer => answer.1 = some i

/-- A rule is left what its limit allows beyond the prompts that it has answered. -/
theorem answers_rule (s : Script) (prompts : List String) (i : Nat) :
    (s.answers prompts).2.rules[i]? = s.rules[i]?.map (·.less (used (s.answers prompts).1 i)) := by
  induction prompts generalizing s with
  | nil => simp [answers, used, Rule.less_zero]
  | cons prompt rest ih =>
    rw [answers, ih, answer_rule, Option.map_map]
    refine congrArg (Option.map · _) (funext fun r => ?_)
    rw [Function.comp_apply, Rule.less_less, used, used, List.countP_cons, Nat.add_comm]
    simp

theorem answers_append (s : Script) (before after : List String) :
    (s.answers (before ++ after)).1 =
      (s.answers before).1 ++ ((s.answers before).2.answers after).1 := by
  induction before generalizing s with
  | nil => rfl
  | cons prompt rest ih =>
    exact congrArg (List.cons _) (ih (answer prompt s).2)

theorem answers_length (s : Script) (prompts : List String) :
    (s.answers prompts).1.length = prompts.length := by
  induction prompts generalizing s with
  | nil => rfl
  | cons prompt rest ih =>
    rw [answers, List.length_cons, List.length_cons, ih]

theorem answers_replyAt (s : Script) (prompts : List String) (place : Option Nat) :
    (s.answers prompts).2.replyAt place = s.replyAt place := by
  induction prompts generalizing s with
  | nil => rfl
  | cons prompt rest ih => rw [answers, ih, answer_replyAt]

theorem applies_less {r : Rule} {prompt : String} {n : Nat} :
    applies prompt (r.less n) = true ↔
      Text.holds prompt r.pattern = true ∧ ∀ limit, r.limit = some limit → n < limit := by
  obtain ⟨pattern, reply, limit⟩ := r
  cases limit with
  | none => simp [applies, Rule.less]
  | some limit => simp [applies, Rule.less, Nat.sub_eq_zero_iff_le, and_comm]

/-- A prompt that comes after others is answered by the first rule that fits it and has answered
fewer of them than it may, and by the default if there is none. -/
theorem answers_by_first (s : Script) (before after : List String) (prompt : String) :
    let ready (i : Nat) := ∃ r, s.rules[i]? = some r ∧ Text.holds prompt r.pattern = true ∧
      ∀ n, r.limit = some n → used (s.answers before).1 i < n
    ∃ place, (s.answers (before ++ prompt :: after)).1[before.length]? =
        some (place, s.replyAt place) ∧
      match place with
      | some i => ready i ∧ ∀ j < i, ¬ ready j
      | none => ∀ j, ¬ ready j := by
  intro ready
  have rules := s.answers_rule before
  have replies := s.answers_replyAt before
  have here : (s.answers (before ++ prompt :: after)).1[before.length]? =
      some ((s.answers before).2.place? prompt,
        (s.answers before).2.replyAt ((s.answers before).2.place? prompt)) := by
    rw [answers_append, List.getElem?_append_right (Nat.le_of_eq (answers_length s before)),
      answers_length, Nat.sub_self, ← answer_reply]
    rfl
  generalize (s.answers before).2 = last at rules replies here
  have fits (i : Nat) : (∃ r, last.rules[i]? = some r ∧ applies prompt r = true) ↔ ready i := by
    simp only [rules, Option.map_eq_some_iff]
    constructor
    · rintro ⟨_, ⟨r, listed, rfl⟩, fits⟩
      exact ⟨r, listed, applies_less.mp fits⟩
    · rintro ⟨r, listed, fits⟩
      exact ⟨_, ⟨r, listed, rfl⟩, applies_less.mpr fits⟩
  refine ⟨last.place? prompt, by rw [here, replies], ?_⟩
  cases place : last.place? prompt with
  | some i =>
    obtain ⟨bound, first, earlier⟩ := List.findIdx?_eq_some_iff_getElem.mp place
    refine ⟨(fits i).mp ⟨_, List.getElem?_eq_getElem bound, first⟩, fun j before_i unready => ?_⟩
    obtain ⟨r, listed, applied⟩ := (fits j).mpr unready
    obtain ⟨short, rfl⟩ := List.getElem?_eq_some_iff.mp listed
    exact earlier j before_i applied
  | none =>
    intro j unready
    obtain ⟨r, listed, applied⟩ := (fits j).mpr unready
    have none := List.findIdx?_eq_none_iff.mp place r (List.mem_of_getElem? listed)
    rw [none] at applied
    cases applied

/-- A rule with a limit answers no more prompts than that. -/
theorem used_le_limit (s : Script) (prompts : List String) {i n : Nat} {r : Rule}
    (listed : s.rules[i]? = some r) (limit : r.limit = some n) :
    used (s.answers prompts).1 i ≤ n := by
  induction prompts using List.reverseRecOn with
  | nil => exact Nat.zero_le n
  | append_singleton before prompt ih =>
    obtain ⟨place, given, first⟩ := s.answers_by_first before [] prompt
    have last : (s.answers (before ++ [prompt])).1 =
        (s.answers before).1 ++ [(place, s.replyAt place)] := by
      rw [answers_append] at given ⊢
      rw [List.getElem?_append_right (Nat.le_of_eq (answers_length s before)), answers_length,
        Nat.sub_self] at given
      exact congrArg _ (congrArg (· :: []) (Option.some.inj given))
    rw [last, used, List.countP_append, List.countP_singleton]
    split
    · next here =>
      -- The rule was ready for one more prompt.
      have same : place = some i := of_decide_eq_true here
      subst same
      obtain ⟨⟨r', listed', -, few⟩, -⟩ := first
      rw [listed, Option.some.injEq] at listed'
      exact few n (listed' ▸ limit)
    · exact ih

/-- The prompts are kept in the order in which they came, so their number can be told by what they
hold. -/
theorem answers_prompts (s : Script) (prompts : List String) :
    (s.answers prompts).2.prompts = s.prompts ++ prompts ∧
      ∀ pattern, (s.answers prompts).2.count pattern =
        s.count pattern + prompts.countP fun prompt => Text.holds prompt pattern := by
  have kept : (s.answers prompts).2.prompts = s.prompts ++ prompts := by
    induction prompts generalizing s with
    | nil => exact (List.append_nil _).symm
    | cons prompt rest ih =>
      rw [answers, ih]
      exact List.append_assoc _ [prompt] rest
  refine ⟨kept, fun pattern => ?_⟩
  rw [count, kept, List.countP_append, count]

end Script
end Dialogue
