import Dialogue.Condition.Evaluation
/-!
The grammar of conditions, over the kinds of tokens: what the tokens at the front spell, and the
tokens after them. A bare operand is a longest run of words, AND and OR recur on the left.
-/
namespace Dialogue

open Condition (Kind Token)

inductive Keyword : List Kind → Prop where
  | and (after : List Kind) : Keyword (.word "AND" :: after)
  | or (after : List Kind) : Keyword (.word "OR" :: after)
  | contains (after : List Kind) : Keyword (.word "CONTAINS" :: after)
  | notContains (after : List Kind) : Keyword (.word "NOT" :: .word "CONTAINS" :: after)
  | present {text : String} (spelt : text.toLower = "exists") (after : List Kind) :
    Keyword (.word text :: after)
  | absent {text : String} (spelt : text.toLower = "not_exists") (after : List Kind) :
    Keyword (.word text :: after)
  | notPresent {text next : String} (spelt : text.toLower = "not")
      (before : next.toLower = "exists") (after : List Kind) :
    Keyword (.word text :: .word next :: after)

def Free (ks : List Kind) : Prop := (∃ text after, ks = .word text :: after) ∧ ¬ Keyword ks

inductive Bare : List Kind → List String → List Kind → Prop where
  | last {text : String} {after : List Kind} (free : Free (.word text :: after))
      (stop : ¬ Free after) : Bare (.word text :: after) [text] after
  | more {text : String} {texts : List String} {rest after : List Kind}
      (free : Free (.word text :: rest)) (words : Bare rest texts after) :
    Bare (.word text :: rest) (text :: texts) after

inductive Operand.Spelt : List Kind → Operand → List Kind → Prop where
  | named (name : String) (after : List Kind) :
    Spelt (.variable name :: after) (.variable name) after
  | quoted (text : String) (after : List Kind) : Spelt (.quoted text :: after) (.quoted text) after
  | bare {ks after : List Kind} {texts : List String} (words : Bare ks texts after) :
    Spelt ks (.bare (String.intercalate " " texts)) after

inductive Comparison.Spelt : List Kind → Comparison → List Kind → Prop where
  | symbol (op : Comparison) (after : List Kind) : Spelt (.symbol op :: after) op after
  | contains (after : List Kind) : Spelt (.word "CONTAINS" :: after) .contains after
  | notContains (after : List Kind) :
    Spelt (.word "NOT" :: .word "CONTAINS" :: after) .notContains after

inductive Presence : List Kind → Bool → List Kind → Prop where
  | present {text : String} (spelt : text.toLower = "exists") (after : List Kind) :
    Presence (.word text :: after) false after
  | absent {text : String} (spelt : text.toLower = "not_exists") (after : List Kind) :
    Presence (.word text :: after) true after
  | notPresent {text next : String} (spelt : text.toLower = "not")
      (before : next.toLower = "exists") (after : List Kind) :
    Presence (.word text :: .word next :: after) true after

inductive Predicate : List Kind → Condition → List Kind → Prop where
  | presence {name : String} {ks after : List Kind} {negated : Bool}
      (test : Presence ks negated after) :
    Predicate (.variable name :: ks) (.exists name negated) after
  | compare {ks middle back after : List Kind} {l r : Operand} {op : Comparison}
      (left : l.Spelt ks middle) (sign : op.Spelt middle back) (right : r.Spelt back after) :
    Predicate ks (.compare l op r) after
  | truthy {ks after : List Kind} {operand : Operand} (alone : operand.Spelt ks after) :
    Predicate ks (.truthy operand) after

inductive Level where
  | expression
  | conjunction
  | factor

inductive Derives : Level → List Kind → Condition → List Kind → Prop where
  | predicate {ks after : List Kind} {c : Condition} (spelt : Predicate ks c after) :
    Derives .factor ks c after
  | group {ks after : List Kind} {c : Condition}
      (inner : Derives .expression ks c (.closing :: after)) :
    Derives .factor (.opening :: ks) c after
  | factor {ks after : List Kind} {c : Condition} (only : Derives .factor ks c after) :
    Derives .conjunction ks c after
  | and {ks back after : List Kind} {l r : Condition}
      (left : Derives .conjunction ks l (.word "AND" :: back))
      (right : Derives .factor back r after) : Derives .conjunction ks (.and l r) after
  | conjunction {ks after : List Kind} {c : Condition} (only : Derives .conjunction ks c after) :
    Derives .expression ks c after
  | or {ks back after : List Kind} {l r : Condition}
      (left : Derives .expression ks l (.word "OR" :: back))
      (right : Derives .conjunction back r after) : Derives .expression ks (.or l r) after

inductive Ending : List Kind → Prop where
  | nil : Ending []
  | closing (after : List Kind) : Ending (.closing :: after)
  | and (after : List Kind) : Ending (.word "AND" :: after)
  | or (after : List Kind) : Ending (.word "OR" :: after)

/-- No AND comes after an expression: it would go on with the last of its conjunctions. -/
def Level.Ending : Level → List Kind → Prop
  | expression, ks => Dialogue.Ending ks ∧ ∀ after, ks ≠ .word "AND" :: after
  | _, ks => Dialogue.Ending ks

def Sentence (ks : List Kind) (c : Condition) : Prop :=
  (ks = [] ∧ c = .always) ∨ Derives .expression ks c []

theorem not_presence_word {text : String} {ks after : List Kind} {negated : Bool}
    (other : text.toLower ∉ ["exists", "not_exists", "not"]) :
    ¬ Presence (.word text :: ks) negated after := by
  intro presence
  cases presence with
  | present spelt => exact other (by simp [spelt])
  | absent spelt => exact other (by simp [spelt])
  | notPresent spelt => exact other (by simp [spelt])

theorem Ending.not_presence {ks after : List Kind} {negated : Bool} (h : Ending ks) :
    ¬ Presence ks negated after := by
  cases h with
  | nil | closing => nofun
  | and => exact not_presence_word (by decide +kernel)
  | or => exact not_presence_word (by decide +kernel)

theorem not_comparison_word {text : String} {ks after : List Kind} {op : Comparison}
    (other : text ∉ ["CONTAINS", "NOT"]) : ¬ op.Spelt (.word text :: ks) after := by
  intro spelt
  cases spelt with
  | contains => exact other (by simp)
  | notContains => exact other (by simp)

theorem Ending.not_comparison {ks after : List Kind} {op : Comparison} (h : Ending ks) :
    ¬ op.Spelt ks after := by
  cases h with
  | nil | closing => nofun
  | and => exact not_comparison_word (by decide)
  | or => exact not_comparison_word (by decide)

/-- The words of a comparison are no test of presence. -/
theorem not_presence_comparison {ks middle after : List Kind} {op : Comparison} {negated : Bool}
    (sign : op.Spelt ks middle) : ¬ Presence ks negated after := by
  cases sign with
  | symbol => nofun
  | contains => exact not_presence_word (by decide +kernel)
  | notContains =>
    intro presence
    cases presence with
    | present spelt => exact absurd spelt (by decide +kernel)
    | absent spelt => exact absurd spelt (by decide +kernel)
    | notPresent _ before => exact absurd before (by decide +kernel)

theorem Bare.free {ks after : List Kind} {texts : List String} (h : Bare ks texts after) :
    Free ks := by
  cases h with
  | last free => exact free
  | more free => exact free

theorem Bare.length {ks after : List Kind} {texts : List String} (h : Bare ks texts after) :
    after.length < ks.length := by
  induction h with
  | last => exact Nat.lt_succ_self _
  | more free words ih => exact Nat.lt_succ_of_lt ih

theorem Operand.Spelt.length {ks after : List Kind} {operand : Operand}
    (h : operand.Spelt ks after) : after.length < ks.length := by
  cases h with
  | named => exact Nat.lt_succ_self _
  | quoted => exact Nat.lt_succ_self _
  | bare words => exact words.length

theorem Comparison.Spelt.length {ks after : List Kind} {op : Comparison}
    (h : op.Spelt ks after) : after.length < ks.length := by
  cases h with
  | symbol => exact Nat.lt_succ_self _
  | contains => exact Nat.lt_succ_self _
  | notContains => exact Nat.lt_succ_of_lt (Nat.lt_succ_self _)

theorem Presence.length {ks after : List Kind} {negated : Bool} (h : Presence ks negated after) :
    after.length < ks.length := by
  cases h with
  | present => exact Nat.lt_succ_self _
  | absent => exact Nat.lt_succ_self _
  | notPresent => exact Nat.lt_succ_of_lt (Nat.lt_succ_self _)

theorem Predicate.length {ks after : List Kind} {c : Condition} (h : Predicate ks c after) :
    after.length < ks.length := by
  cases h with
  | presence test => exact Nat.lt_succ_of_lt test.length
  | compare left sign right => exact Nat.lt_trans right.length (Nat.lt_trans sign.length left.length)
  | truthy alone => exact alone.length

theorem Predicate.not_opening {ks after : List Kind} {c : Condition} :
    ¬ Predicate (.opening :: ks) c after := by
  have operand (o : Operand) (after : List Kind) : ¬ o.Spelt (.opening :: ks) after := by
    intro spelt
    cases spelt with
    | bare words => cases words
  intro h
  cases h with
  | compare left => exact operand _ _ left
  | truthy alone => exact operand _ _ alone

/-- What is spelt takes up tokens. -/
theorem Derives.length {level : Level} {ks after : List Kind} {c : Condition}
    (h : Derives level ks c after) : after.length < ks.length := by
  induction h with
  | predicate spelt => exact spelt.length
  | group inner ih =>
    rw [List.length_cons] at ih ⊢
    omega
  | factor only ih => exact ih
  | and left right ihLeft ihRight =>
    rw [List.length_cons] at ihLeft
    omega
  | conjunction only ih => exact ih
  | or left right ihLeft ihRight =>
    rw [List.length_cons] at ihLeft
    omega

namespace Condition

def kinds (ts : List Token) : List Kind := ts.map Token.kind

@[simp] theorem kinds_cons (t : Token) (rest : List Token) :
    kinds (t :: rest) = t.kind :: kinds rest := rfl

theorem kinds_eq_cons {ts : List Token} {k : Kind} {ks : List Kind} (h : kinds ts = k :: ks) :
    ∃ t rest, ts = t :: rest ∧ t.kind = k ∧ kinds rest = ks := List.map_eq_cons_iff.mp h

/-- Kinds are those of tokens, wherever these begin. -/
theorem kinds_unplaced (ks : List Kind) : kinds (ks.map fun k => ⟨k, 0⟩) = ks := by
  simp [kinds, Function.comp_def]

namespace Token

theorem isWord_iff {t : Token} {spelling : String} :
    t.isWord spelling = true ↔ t.kind = .word spelling := by
  unfold isWord
  split
  · next text h => rw [h, beq_iff_eq, Kind.word.injEq]
  · next h => exact ⟨nofun, fun word => absurd word (h spelling)⟩

theorem isWordOf_iff {t : Token} {spelling : String} :
    t.isWordOf spelling = true ↔ ∃ text, t.kind = .word text ∧ text.toLower = spelling := by
  unfold isWordOf
  split
  · next text h => simp [h]
  · next h => exact ⟨nofun, fun ⟨text, word, _⟩ => absurd word (h text)⟩

end Token

theorem kinds_length (ts : List Token) : (kinds ts).length = ts.length := List.length_map _

theorem head_iff {rest : List Token} {test : Token → Bool} :
    (rest.head?.map test).getD false = true ↔ ∃ u after, rest = u :: after ∧ test u = true := by
  cases rest with
  | nil => simp
  | cons u after => simp

theorem startsKeyword_iff (ts : List Token) : startsKeyword ts = true ↔ Keyword (kinds ts) := by
  cases ts with
  | nil => exact ⟨nofun, nofun⟩
  | cons t rest =>
    simp only [startsKeyword, Bool.or_eq_true, Bool.and_eq_true, Token.isWord_iff,
      Token.isWordOf_iff, head_iff, kinds_cons]
    constructor
    · rintro ((((((h | h) | h) | ⟨text, h, spelt⟩) | ⟨text, h, spelt⟩) | ⟨h, u, after, rfl, hu⟩) |
        ⟨⟨text, h, spelt⟩, u, after, rfl, next, hu, before⟩)
      · rw [h]; exact .and _
      · rw [h]; exact .or _
      · rw [h]; exact .contains _
      · rw [h]; exact .present spelt _
      · rw [h]; exact .absent spelt _
      · rw [h, kinds_cons, hu]; exact .notContains _
      · rw [h, kinds_cons, hu]; exact .notPresent spelt before _
    · generalize hk : t.kind = k
      generalize hks : kinds rest = ks
      intro h
      cases h with
      | and => simp
      | or => simp
      | contains => simp
      | present spelt => exact .inl (.inl (.inl (.inr ⟨_, rfl, spelt⟩)))
      | absent spelt => exact .inl (.inl (.inr ⟨_, rfl, spelt⟩))
      | notContains =>
        obtain ⟨u, after, rfl, hu, -⟩ := kinds_eq_cons hks
        exact .inl (.inr ⟨rfl, u, after, rfl, hu⟩)
      | notPresent spelt before =>
        obtain ⟨u, after, rfl, hu, -⟩ := kinds_eq_cons hks
        exact .inr ⟨⟨_, rfl, spelt⟩, u, after, rfl, _, hu, before⟩

end Condition

instance : DecidablePred Keyword := fun ks =>
  decidable_of_iff (Condition.startsKeyword (ks.map fun k => ⟨k, 0⟩) = true)
    (by rw [Condition.startsKeyword_iff, Condition.kinds_unplaced])

instance : DecidablePred Free
  | .word text :: after =>
    decidable_of_iff (¬ Keyword (.word text :: after))
      ⟨fun h => ⟨⟨text, after, rfl⟩, h⟩, And.right⟩
  | [] | .opening :: _ | .closing :: _ | .symbol _ :: _ | .variable _ :: _ | .quoted _ :: _ =>
    isFalse (by rintro ⟨⟨text, after, h⟩, -⟩; cases h)

end Dialogue
