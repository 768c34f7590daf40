import Dialogue.Proofs.Parsing
/-!
What is spelt without parentheses: predicates joined by AND into rows, and rows by OR. Main
statement: what is read of any text is a sentence, and such a sentence holds if one of its rows
does.
-/
namespace Dialogue

open Condition (Kind Token kinds)
open Json (Value)

theorem Keyword.append {ks : List Kind} (h : Keyword ks) (rest : List Kind) :
    Keyword (ks ++ rest) := by
  cases h with
  | and => exact .and _
  | or => exact .or _
  | contains => exact .contains _
  | notContains => exact .notContains _
  | present spelt => exact .present spelt _
  | absent spelt => exact .absent spelt _
  | notPresent spelt before => exact .notPresent spelt before _

section
variable {rest : List Kind} (ending : Ending rest)
include ending

theorem Ending.word {text : String} {after : List Kind} (h : rest = .word text :: after) :
    text = "AND" ∨ text = "OR" := by
  cases ending with
  | nil | closing => cases h
  | and => cases h; exact .inl rfl
  | or => cases h; exact .inr rfl

theorem Ending.not_free : ¬ Free rest := by
  rintro ⟨⟨text, after, h⟩, unkeyed⟩
  rcases ending.word h with rfl | rfl
  · exact unkeyed (h ▸ .and after)
  · exact unkeyed (h ▸ .or after)

/-- What may come after a factor makes no keyword of the last word in front. -/
theorem Keyword.of_append {k : Kind} {ks : List Kind} (h : Keyword (k :: (ks ++ rest))) :
    Keyword (k :: ks) := by
  generalize hlater : ks ++ rest = later at h
  cases h with
  | and => exact .and _
  | or => exact .or _
  | contains => exact .contains _
  | present spelt => exact .present spelt _
  | absent spelt => exact .absent spelt _
  | notContains =>
    cases ks with
    | nil => rcases ending.word hlater with h | h <;> exact absurd h (by decide)
    | cons next ks => cases hlater; exact .notContains _
  | notPresent spelt before =>
    cases ks with
    | nil => rcases ending.word hlater with rfl | rfl <;> exact absurd before (by decide +kernel)
    | cons next ks => cases hlater; exact .notPresent spelt before _

theorem free_append {ks : List Kind} : Free (ks ++ rest) ↔ Free ks := by
  cases ks with
  | nil =>
    have none : ¬ Free [] := by
      rintro ⟨⟨text, after, h⟩, -⟩
      cases h
    exact iff_of_false ending.not_free none
  | cons k ks =>
    constructor
    · rintro ⟨⟨text, after, h⟩, unkeyed⟩
      cases h
      exact ⟨⟨text, ks, rfl⟩, fun keyword => unkeyed (keyword.append rest)⟩
    · rintro ⟨⟨text, after, h⟩, unkeyed⟩
      cases h
      exact ⟨⟨text, ks ++ rest, rfl⟩, fun keyword => unkeyed (keyword.of_append ending)⟩

theorem Bare.append {ks after : List Kind} {texts : List String} (h : Bare ks texts after) :
    Bare (ks ++ rest) texts (after ++ rest) := by
  induction h with
  | last free stop =>
    exact .last ((free_append ending).mpr free) (mt (free_append ending).mp stop)
  | more free words ih => exact .more ((free_append ending).mpr free) ih

theorem Operand.Spelt.append {ks after : List Kind} {o : Operand} (h : o.Spelt ks after) :
    o.Spelt (ks ++ rest) (after ++ rest) := by
  cases h with
  | named name => exact .named name _
  | quoted text => exact .quoted text _
  | bare words => exact .bare (words.append ending)

omit ending in
theorem Comparison.Spelt.append {ks after : List Kind} {op : Comparison} (h : op.Spelt ks after) :
    op.Spelt (ks ++ rest) (after ++ rest) := by
  cases h with
  | symbol => exact .symbol op _
  | contains => exact .contains _
  | notContains => exact .notContains _

omit ending in
theorem Presence.append {ks after : List Kind} {negated : Bool} (h : Presence ks negated after) :
    Presence (ks ++ rest) negated (after ++ rest) := by
  cases h with
  | present spelt => exact .present spelt _
  | absent spelt => exact .absent spelt _
  | notPresent spelt before => exact .notPresent spelt before _

theorem Predicate.append {ks after : List Kind} {c : Condition} (h : Predicate ks c after) :
    Predicate (ks ++ rest) c (after ++ rest) := by
  cases h with
  | presence test => exact .presence test.append
  | compare left sign right =>
    exact .compare (left.append ending) sign.append (right.append ending)
  | truthy alone => exact .truthy (alone.append ending)

end

structure Piece where
  kinds : List Kind
  condition : Condition
  spelt : Predicate kinds condition []

structure Row where
  first : Piece
  more : List Piece

structure Rows where
  first : Row
  more : List Row

namespace Row

def kinds (row : Row) : List Kind :=
  row.first.kinds ++ row.more.flatMap fun piece => .word "AND" :: piece.kinds

def condition (row : Row) : Condition :=
  row.more.foldl (fun left piece => .and left piece.condition) row.first.condition

def holds (lookup : String → Option Value) (row : Row) : Bool :=
  (row.first :: row.more).all fun piece => piece.condition.eval lookup

end Row

namespace Rows

def kinds (rows : Rows) : List Kind :=
  rows.first.kinds ++ rows.more.flatMap fun row => .word "OR" :: row.kinds

def condition (rows : Rows) : Condition :=
  rows.more.foldl (fun left row => .or left row.condition) rows.first.condition

end Rows

theorem series_ending {α : Type} {spelling : String} (kinds : α → List Kind)
    (ending : ∀ after, Ending (.word spelling :: after)) {rest : List Kind} (last : Ending rest)
    (more : List α) : Ending (more.flatMap (fun a => .word spelling :: kinds a) ++ rest) := by
  cases more with
  | nil => exact last
  | cons a more => exact ending _

/-- A series of items that one step of the grammar after the other takes in. -/
theorem series_spelt {α : Type} {Left Item : List Kind → Condition → List Kind → Prop}
    {spelling : String} {join : Condition → Condition → Condition} {kinds : α → List Kind}
    {condition : α → Condition}
    (step : ∀ {ks back after l r}, Left ks l (.word spelling :: back) → Item back r after →
      Left ks (join l r) after)
    (ending : ∀ after, Ending (.word spelling :: after))
    (item : ∀ a {rest}, Ending rest → Item (kinds a ++ rest) (condition a) rest)
    {rest : List Kind} (last : Ending rest) (more : List α) {ks : List Kind} {left : Condition}
    (h : Left ks left (more.flatMap (fun a => .word spelling :: kinds a) ++ rest)) :
    Left ks (more.foldl (fun left a => join left (condition a)) left) rest := by
  induction more generalizing left with
  | nil => exact h
  | cons a more ih =>
    rw [List.flatMap_cons, List.append_assoc, List.cons_append] at h
    exact ih (step h (item a (series_ending kinds ending last more)))

theorem Piece.derives (piece : Piece) {rest : List Kind} (ending : Ending rest) :
    Derives .factor (piece.kinds ++ rest) piece.condition rest :=
  .predicate (piece.spelt.append ending)

theorem Row.derives (row : Row) {rest : List Kind} (ending : Ending rest) :
    Derives .conjunction (row.kinds ++ rest) row.condition rest := by
  have first := row.first.derives (series_ending Piece.kinds .and ending row.more)
  rw [Row.kinds, List.append_assoc]
  exact series_spelt .and .and (fun piece _ => piece.derives) ending row.more (.factor first)

theorem Rows.derives (rows : Rows) {rest : List Kind} (ending : Ending rest) :
    Derives .expression (rows.kinds ++ rest) rows.condition rest := by
  have first := rows.first.derives (series_ending Row.kinds .or ending rows.more)
  rw [Rows.kinds, List.append_assoc]
  exact series_spelt .or .or (fun row _ => row.derives) ending rows.more (.conjunction first)

theorem Rows.sentence (rows : Rows) : Sentence rows.kinds rows.condition := by
  have h := rows.derives .nil
  rw [List.append_nil] at h
  exact .inr h

theorem eval_and (lookup : String → Option Value) (more : List Piece) (left : Condition) :
    (more.foldl (fun left piece => .and left piece.condition) left : Condition).eval lookup =
      (left.eval lookup && more.all fun piece => piece.condition.eval lookup) := by
  induction more generalizing left with
  | nil => simp
  | cons piece more ih => rw [List.foldl_cons, ih, List.all_cons, Condition.eval, Bool.and_assoc]

theorem eval_or (lookup : String → Option Value) (more : List Row) (left : Condition) :
    (more.foldl (fun left row => .or left row.condition) left : Condition).eval lookup =
      (left.eval lookup || more.any fun row => row.condition.eval lookup) := by
  induction more generalizing left with
  | nil => simp
  | cons row more ih => rw [List.foldl_cons, ih, List.any_cons, Condition.eval, Bool.or_assoc]

theorem Row.eval (row : Row) (lookup : String → Option Value) :
    row.condition.eval lookup = row.holds lookup := eval_and lookup row.more row.first.condition

theorem Rows.eval (rows : Rows) (lookup : String → Option Value) :
    rows.condition.eval lookup = (rows.first :: rows.more).any (Row.holds lookup) := by
  rw [Rows.condition, eval_or, Row.eval, List.any_cons]
  simp only [Row.eval]

theorem Sentence.unique {ks : List Kind} {c d : Condition} (hc : Sentence ks c)
    (hd : Sentence ks d) : c = d := by
  rw [← Condition.kinds_unplaced ks, ← Condition.ofTokens_iff] at hc hd
  exact Except.ok.inj (hc.symm.trans hd)

/-- A text is read exactly if its tokens are a sentence, as the one condition that they spell. What
is spelt without parentheses is a disjunction of conjunctions, and holds as such. -/
theorem reads_sentences :
    (∀ text c, Condition.ofText text = .ok c ↔
      ∃ ts, Condition.tokens text = .ok ts ∧ Sentence (kinds ts) c) ∧
    (∀ ts c, Condition.ofTokens ts = .ok c ↔ Sentence (kinds ts) c) ∧
    (∀ ks c d, Sentence ks c → Sentence ks d → c = d) ∧
    (∀ (rows : Rows) ts, kinds ts = rows.kinds → Condition.ofTokens ts = .ok rows.condition) ∧
    ∀ (rows : Rows) lookup,
      rows.condition.eval lookup = (rows.first :: rows.more).any (Row.holds lookup) := by
  refine ⟨fun text c => ?_, Condition.ofTokens_iff, fun ks c d => Sentence.unique,
    fun rows ts hts => ?_, Rows.eval⟩
  · rw [Condition.ofText]
    cases Condition.tokens text with
    | error e => exact ⟨nofun, nofun⟩
    | ok ts =>
      refine (Condition.ofTokens_iff ts c).trans ⟨fun h => ⟨ts, rfl, h⟩, ?_⟩
      rintro ⟨_, ⟨⟩, h⟩
      exact h
  · rw [Condition.ofTokens_iff, hts]
    exact rows.sentence

/-- Words that would be keywords elsewhere are bare here, and the other way round. -/
def mixed : Rows where
  first :=
    { first :=
        { kinds := [.variable "a", .symbol .gt, .word "not", .word "so"]
          condition := .compare (.variable "a") .gt (.bare (String.intercalate " " ["not", "so"]))
          spelt := .compare (.named "a" _) (.symbol .gt _)
            (.bare (.more (by decide +kernel) (.last (by decide +kernel) (by decide)))) }
      more := [⟨[.quoted "b"], .truthy (.quoted "b"), .truthy (.quoted "b" _)⟩] }
  more :=
    [{ first :=
        { kinds := [.variable "c", .word "Not", .word "Exists"]
          condition := .exists "c" true
          spelt := .presence (.notPresent (by decide +kernel) (by decide +kernel) _) }
       more := [] }]

def mixedText : String :=
  "\x7b\x7ba\x7d\x7d > not so AND 'b' OR \x7b\x7bc\x7d\x7d Not Exists"

theorem reads_mixed :
    Condition.ofText mixedText = .ok mixed.condition ∧
      mixed.condition =
        .or (.and (.compare (.variable "a") .gt (.bare "not so")) (.truthy (.quoted "b")))
          (.exists "c" true) := by
  let ts : List Token :=
    [⟨.variable "a", 0⟩, ⟨.symbol .gt, 6⟩, ⟨.word "not", 8⟩, ⟨.word "so", 12⟩, ⟨.word "AND", 15⟩,
      ⟨.quoted "b", 19⟩, ⟨.word "OR", 23⟩, ⟨.variable "c", 26⟩, ⟨.word "Not", 32⟩,
      ⟨.word "Exists", 36⟩]
  obtain ⟨ofText, ofTokens, -, ofRows, -⟩ := reads_sentences
  have hread : Condition.ofTokens ts = .ok mixed.condition := ofRows mixed ts rfl
  have htokens : (Condition.tokens mixedText).toOption = some ts := by decide +kernel
  refine ⟨(ofText _ _).mpr ⟨ts, ?_, (ofTokens ts _).mp hread⟩, by decide +kernel⟩
  cases h : Condition.tokens mixedText with
  | error e => rw [h] at htokens; cases htokens
  | ok read => rw [h] at htokens; exact congrArg Except.ok (Option.some.inj htokens)

end Dialogue
