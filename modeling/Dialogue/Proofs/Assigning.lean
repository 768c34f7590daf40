import Dialogue.Engine.ConfigText
import Dialogue.Proofs.Batch
import Dialogue.Proofs.Numerals
import Mathlib.Data.List.Basic
import Mathlib.Data.List.TakeDrop
import Mathlib.Data.List.TakeWhile
/-!
Files of settings. Main statement: lines that give different names a number or a text are read as
just that.
-/
namespace Dialogue

namespace Decimal

theorem head?_digitChars {n : Nat} (positive : 0 < n) : (digitChars n).head? ≠ some '0' := by
  induction n using Nat.strongRecOn with
  | ind n ih =>
    by_cases single : n < 10
    · have nonzero : ∀ d < 10, 0 < d → [Nat.digitChar d].head? ≠ some '0' := by decide
      rw [digitChars, Nat.toDigits_of_lt_base single]
      exact nonzero n single positive
    · have front := ih (n / 10) (by omega) (by omega)
      obtain ⟨c, rest, split⟩ := List.exists_cons_of_ne_nil (digitChars_ne_nil (n / 10))
      have whole : digitChars n = digitChars (n / 10) ++ [(n % 10).digitChar] :=
        Nat.toDigits_of_base_le (by decide) (Nat.le_of_not_lt single)
      rw [split] at front
      rw [whole, split]
      exact front

/-- What is no digit is not written in a number. -/
theorem not_mem_digitChars {c : Char} (other : c.isDigit = false) (n : Nat) :
    c ∉ digitChars n := fun listed =>
  absurd (isDigit_digitChars listed) (by rw [other]; decide)

end Decimal

namespace Setting

open Decimal (digitChars not_mem_digitChars)

namespace Quoted

def escaped (c : Char) : List Char := if c = '"' ∨ c = '\\' then ['\\', c] else [c]

def quoted (body : List Char) : List Char := '"' :: (body.flatMap escaped ++ ['"'])

theorem mem_quoted {body : List Char} {c : Char} (listed : c ∈ quoted body) :
    c = '"' ∨ c = '\\' ∨ c ∈ body := by
  rw [quoted, List.mem_cons, List.mem_append, List.mem_flatMap, List.mem_singleton] at listed
  rcases listed with quote | ⟨d, inside, here⟩ | quote
  · exact .inl quote
  · rw [escaped] at here
    split at here
    · rcases List.mem_cons.mp here with escape | here
      · exact .inr (.inl escape)
      · exact .inr (.inr (List.mem_singleton.mp here ▸ inside))
    · exact .inr (.inr (List.mem_singleton.mp here ▸ inside))
  · exact .inl quote

theorem short?_escaped {body : List Char} (plain : ∀ c ∈ body, isPlain c = true)
    (rest : List Char) : short? '"' (body.flatMap escaped ++ '"' :: rest) = some (body, rest) := by
  induction body with
  | nil => rw [List.flatMap_nil, List.nil_append, short?, if_pos rfl]
  | cons c body ih =>
    obtain ⟨printed, plain⟩ := List.forall_mem_cons.mp plain
    rw [List.flatMap_cons, List.append_assoc, escaped]
    split
    · next special =>
      have taken : escape? (c :: (body.flatMap escaped ++ '"' :: rest)) = some (c, 1) := by
        rw [escape?, if_pos special]
      rw [List.cons_append, List.singleton_append, short?, if_neg (by decide),
        if_pos ⟨rfl, rfl⟩, taken]
      exact congrArg (Option.map _) (ih plain)
    · next ordinary =>
      rw [not_or] at ordinary
      rw [List.singleton_append, short?, if_neg ordinary.1, if_neg fun h => ordinary.2 h.1,
        if_pos printed, ih plain]
      rfl

/-- Quotes around a text open once and are closed. -/
theorem string?_quoted {body : List Char} (plain : ∀ c ∈ body, isPlain c = true) :
    string? (quoted body) = some (body, []) ∧ isOpen (quoted body) = false := by
  have read : string? (quoted body) = some (body, []) := by
    unfold string? quoted
    split
    · next three =>
      cases body with
      | nil => simp at three
      | cons c body =>
        rw [List.flatMap_cons, escaped] at three
        split at three
        · simp at three
        · next ordinary => simp [not_or.mp ordinary] at three
    · next single => cases single
    · next opened =>
      cases opened
      exact short?_escaped plain []
    · next single => cases single
    · next _ _ none _ => exact absurd rfl (none _)
  refine ⟨read, ?_⟩
  rw [isOpen, read]
  exact Bool.and_false _

end Quoted

inductive Spelt : List Char → Setting → Prop where
  | int (n : Nat) (short : n < twoTo 63) : Spelt (digitChars n) (int n)
  | text (body : List Char) (plain : ∀ c ∈ body, Quoted.isPlain c = true) :
    Spelt (Quoted.quoted body) (text (String.ofList body))

/-- A setting is written on one line, from its first character on. -/
theorem Spelt.compact {cs : List Char} {s : Setting} (spelt : Spelt cs s) :
    '\n' ∉ cs ∧ '\r' ∉ cs ∧ cs.dropWhile isGap = cs := by
  cases spelt with
  | int n short =>
    refine ⟨not_mem_digitChars rfl n, not_mem_digitChars rfl n, ?_⟩
    obtain ⟨c, rest, split⟩ := List.exists_cons_of_ne_nil (Decimal.digitChars_ne_nil n)
    have gapless : isGap c = false := by
      have differs (d : Char) (other : d.isDigit = false) : c ≠ d := fun same =>
        not_mem_digitChars other n (split ▸ same ▸ List.mem_cons_self)
      simp [isGap, differs ' ' rfl, differs '\t' rfl]
    rw [split, List.dropWhile_cons_of_neg (by rw [gapless]; exact Bool.false_ne_true)]
  | text body plain =>
    have clear (c : Char) (odd : Quoted.isPlain c = false) (marks : c ≠ '"' ∧ c ≠ '\\') :
        c ∉ Quoted.quoted body := by
      intro listed
      rcases Quoted.mem_quoted listed with quote | escape | inside
      · exact marks.1 quote
      · exact marks.2 escape
      · exact absurd (plain c inside) (by rw [odd]; exact Bool.false_ne_true)
    exact ⟨clear '\n' rfl (by decide), clear '\r' rfl (by decide), rfl⟩

namespace Line

theorem int?_digits {n : Nat} (short : n < twoTo 63) : int? (digitChars n) = some (n : Int) := by
  have plain : '_' ∉ digitChars n := not_mem_digitChars rfl n
  have unsigned : Literal.sign (digitChars n) = (false, digitChars n) := by
    have head := Decimal.head_digitChars n []
    rw [List.append_nil] at head
    exact Literal.sign_signed false head
  have whole : isWhole (digitChars n) = true := by
    have grouped : isGrouped (digitChars n) = true := by
      rw [isGrouped, List.splitOn_eq_singleton plain]
      simp [Decimal.digitChars_ne_nil]
    rw [isWhole, grouped, Bool.true_and, Bool.or_eq_true]
    by_cases zero : n = 0
    · subst zero
      exact .inr (by decide)
    · exact .inl (bne_iff_ne.mpr (Decimal.head?_digitChars (Nat.pos_of_ne_zero zero)))
  have kept : (digitChars n).filter (· != '_') = digitChars n :=
    List.filter_eq_self.mpr fun c hc => bne_iff_ne.mpr fun same => plain (same ▸ hc)
  have read : Literal.int? (digitChars n) = some (n : Int) := Literal.int?_digitChars unsigned
  have word : Literal.isWord (n : Int) = true := by
    have low : -(twoTo 63 : Int) ≤ n := by omega
    have high : (n : Int) < twoTo 63 := by omega
    simp [Literal.isWord, low, high]
  have letter (c : Char) (other : c.isDigit = false) (digits : List Char) :
      digitChars n ≠ '0' :: c :: digits := fun same =>
    not_mem_digitChars other n (same ▸ by simp)
  unfold int?
  split
  · next same => exact absurd same (letter 'x' rfl _)
  · next same => exact absurd same (letter 'o' rfl _)
  · next same => exact absurd same (letter 'b' rfl _)
  · rw [unsigned, if_pos whole, kept, read]
    exact Option.filter_some_pos word

theorem value?_spelt {cs : List Char} {s : Setting} (spelt : Spelt cs s) :
    value? cs = some s ∧ Quoted.isOpen cs = false := by
  cases spelt with
  | int n short =>
    have first (c : Char) (other : c.isDigit = false) : (digitChars n).head? ≠ some c := fun h =>
      not_mem_digitChars other n (List.mem_of_head? h)
    have going : ∀ c ∈ digitChars n, (!isGap c && c != '#') = true := by
      intro c listed
      have differs (d : Char) (other : d.isDigit = false) : c ≠ d := fun same =>
        not_mem_digitChars other n (same ▸ listed)
      simp [isGap, differs ' ' rfl, differs '\t' rfl, differs '#' rfl]
    have word (t : String) {c : Char} (listed : c ∈ t.toList) (other : c.isDigit = false) :
        String.ofList (digitChars n) ≠ t := fun same => by
      rw [← same, String.toList_ofList] at listed
      exact not_mem_digitChars other n listed
    have bare : bare? (digitChars n) = some (int n) := by
      have untrue : truth? (String.ofList (digitChars n)) = none := by
        rw [truth?, if_neg (word "true" (c := 't') (by decide) rfl),
          if_neg (word "false" (c := 'f') (by decide) rfl)]
      rw [bare?, untrue, int?_digits short]
      rfl
    constructor
    · unfold value?
      split
      · next quote => exact absurd quote (first '"' rfl)
      · next quote => exact absurd quote (first '\'' rfl)
      · rw [List.span_eq_takeWhile_dropWhile, List.takeWhile_eq_self_iff.mpr going,
          List.dropWhile_eq_nil_iff.mpr going]
        exact bare
    · have unquoted (q : Char) (other : q.isDigit = false) (more : List Char) :
          (q :: more).isPrefixOf (digitChars n) = false := by
        rw [Bool.eq_false_iff, ne_eq, List.isPrefixOf_iff_prefix]
        exact fun h => not_mem_digitChars other n (h.subset List.mem_cons_self)
      rw [Quoted.isOpen, unquoted '"' rfl, unquoted '\'' rfl]
      rfl
  | text body plain =>
    obtain ⟨read, closed⟩ := Quoted.string?_quoted plain
    refine ⟨?_, closed⟩
    have first : (Quoted.quoted body).head? = some '"' := rfl
    rw [value?, first]
    dsimp only
    rw [read]
    rfl

theorem isNameChar_ne {c d : Char} (name : isNameChar c = true) (other : isNameChar d = false) :
    c ≠ d := fun same => absurd (same ▸ name) (by rw [other]; exact Bool.false_ne_true)

def assign (name value : List Char) : List Char := name ++ ' ' :: '=' :: ' ' :: value

section
variable {name value : List Char} (nonempty : name ≠ [])
  (bare : ∀ c ∈ name, isNameChar c = true)
include nonempty bare

theorem assign_dropWhile : (assign name value).dropWhile isGap = assign name value := by
  obtain ⟨c, rest, rfl⟩ := List.exists_cons_of_ne_nil nonempty
  have c_name := bare c List.mem_cons_self
  have gapless : isGap c = false := by
    simp [isGap, isNameChar_ne c_name (d := ' ') rfl, isNameChar_ne c_name (d := '\t') rfl]
  exact List.dropWhile_cons_of_neg (by rw [gapless]; exact Bool.false_ne_true)

theorem name?_assign : name? (assign name value) = some (name, ' ' :: '=' :: ' ' :: value) := by
  have split : (assign name value).span isNameChar = (name, ' ' :: '=' :: ' ' :: value) := by
    rw [List.span_eq_takeWhile_dropWhile, assign, List.takeWhile_append_of_pos bare,
      List.dropWhile_append_of_pos bare]
    exact congrArg₂ Prod.mk (List.append_nil name) rfl
  obtain ⟨c, rest, rfl⟩ := List.exists_cons_of_ne_nil nonempty
  have unquoted (q : Char) (other : isNameChar q = false) (body : List Char) :
      assign (c :: rest) value ≠ q :: body := fun same =>
    isNameChar_ne (bare c List.mem_cons_self) other (List.cons.inj same).1
  unfold name?
  split
  · next quoted => exact absurd quoted (unquoted '"' rfl _)
  · next quoted => exact absurd quoted (unquoted '\'' rfl _)
  · rw [split]
    rfl

theorem assignment?_assign (gapless : value.dropWhile isGap = value) :
    assignment? (assign name value) = some (⟨name, []⟩, value) := by
  have key : key? maxNames (assign name value) = some (⟨name, []⟩, '=' :: ' ' :: value) := by
    rw [maxNames, key?, assign_dropWhile nonempty bare, name?_assign nonempty bare]
    rfl
  have behind : (' ' :: value).dropWhile isGap = value := gapless
  rw [assignment?, key]
  exact congrArg (fun rest => some (Key.mk name [], rest)) behind

theorem read?_assign {s : Setting} (spelt : Spelt value s) :
    read? (assign name value) = some (some (⟨name, []⟩, s)) ∧
      isOpen (assign name value) = false := by
  obtain ⟨-, -, gapless⟩ := spelt.compact
  obtain ⟨read, closed⟩ := value?_spelt spelt
  have goes : isEnd (assign name value) = false := by
    rw [isEnd, assign_dropWhile nonempty bare]
    obtain ⟨c, rest, rfl⟩ := List.exists_cons_of_ne_nil nonempty
    have comment := isNameChar_ne (bare c List.mem_cons_self) (d := '#') rfl
    exact Bool.and_eq_false_iff.mpr (.inl (beq_eq_false_iff_ne.mpr comment))
  rw [read?, goes, isOpen, assignment?_assign nonempty bare gapless]
  exact ⟨congrArg (Option.map _) read, closed⟩

end

end Line

/-- A name is read in small letters, so it is written in them. -/
def isBare (name : String) : Bool :=
  name.toList.all fun c => Line.isNameChar c && Path.small c == c

structure Assignment where
  name : String
  setting : Setting
  spelling : List Char
  spelt : Spelt spelling setting
  named : name.toList ≠ []
  bare : isBare name = true

namespace Assignment

def line (a : Assignment) : List Char := Line.assign a.name.toList a.spelling

def text (as : List Assignment) : String := String.ofList (as.flatMap fun a => a.line ++ ['\n'])

def entry (a : Assignment) : String × Setting := (a.name, a.setting)

theorem mem_name (a : Assignment) {c : Char} (h : c ∈ a.name.toList) :
    Line.isNameChar c = true ∧ Path.small c = c := by
  simpa using List.all_eq_true.mp a.bare c h

theorem read?_line (a : Assignment) :
    Line.read? a.line = some (some (⟨a.name.toList, []⟩, a.setting)) ∧
      Line.isOpen a.line = false :=
  Line.read?_assign a.named (fun _ hc => (a.mem_name hc).1) a.spelt

theorem lines_line (a : Assignment) (rest : List Char) :
    Config.lines (a.line ++ '\n' :: rest) = a.line :: Config.lines rest := by
  have unbroken : ∀ c ∈ a.line, c ≠ '\n' ∧ c ≠ '\r' := by
    obtain ⟨feed, ret, -⟩ := a.spelt.compact
    intro c listed
    rw [line, Line.assign, List.mem_append] at listed
    rcases listed with named | valued
    · have bare := (a.mem_name named).1
      exact ⟨Line.isNameChar_ne bare rfl, Line.isNameChar_ne bare rfl⟩
    · simp only [List.mem_cons] at valued
      rcases valued with rfl | rfl | rfl | valued
      · decide
      · decide
      · decide
      · exact ⟨fun same => feed (same ▸ valued), fun same => ret (same ▸ valued)⟩
  generalize a.line = line at unbroken
  induction line with
  | nil => rfl
  | cons c line ih =>
    obtain ⟨⟨feed, ret⟩, unbroken⟩ := List.forall_mem_cons.mp unbroken
    rw [List.cons_append, Config.lines, ih unbroken]
    · exact feed
    · exact fun _ same _ => ret same

theorem lines_text (as : List Assignment) :
    Config.lines (text as).toList = as.map line ++ [[]] := by
  rw [text, String.toList_ofList]
  induction as with
  | nil => rfl
  | cons a rest ih =>
    rw [List.flatMap_cons, List.append_assoc, List.singleton_append, lines_line, ih]
    rfl

theorem readAll?_lines (as : List Assignment) :
    Line.readAll? (as.map line ++ [[]]) =
      some (as.map fun a => (⟨a.name.toList, []⟩, a.setting)) := by
  induction as with
  | nil => rw [List.map_nil, List.nil_append, Line.readAll?]; rfl
  | cons a rest ih =>
    obtain ⟨read, closed⟩ := a.read?_line
    obtain ⟨next, more, split⟩ := List.exists_cons_of_ne_nil
      (List.append_ne_nil_of_right_ne_nil (rest.map line) (List.cons_ne_nil [] []))
    rw [List.map_cons, List.cons_append, split, Line.readAll?, closed, read, ← split, ih]
    rfl

theorem place?_name (a : Assignment) (s : Setting) :
    Path.place? a.name.toList s = some (a.name, s) := by
  have small : a.name.toList.map Path.small = a.name.toList :=
    (List.map_congr_left fun _ hc => (a.mem_name hc).2).trans (List.map_id' _)
  have all : ∀ c ∈ a.name.toList, Path.isNameChar c = true := fun _ hc =>
    Bool.or_eq_true_iff.mpr (.inl (a.mem_name hc).1)
  have some : a.name.toList.isEmpty = false := List.isEmpty_eq_false_iff.mpr a.named
  have ends : Path.isDescent [] = true := by rw [Path.isDescent]; rfl
  rw [Path.place?, small, List.takeWhile_eq_self_iff.mpr all, List.dropWhile_eq_nil_iff.mpr all,
    some, ends, String.ofList_toList]
  rfl

/-- What the lines of a file give to different names is set, and nothing else. -/
theorem settings?_text {as : List Assignment} (once : (as.map name).Nodup) :
    ∃ set, Config.settings? (text as) = some set ∧
      ∀ name, set.get? name = Table.get? (as.map entry) name := by
  have apart : (as.map fun a => (Line.Key.mk a.name.toList [], a.setting)).Pairwise
      fun a b => ¬ a.1.covers b.1 ∧ ¬ b.1.covers a.1 := by
    refine List.pairwise_map.mpr ((List.pairwise_map.mp once).imp fun {a b} differ => ?_)
    have other : a.name.toList ≠ b.name.toList := fun same => differ (String.toList_inj.mp same)
    simp [Line.Key.covers, other, other.symm]
  have unmarked (rest : List Char) : (text as).toList ≠ '\ufeff' :: rest := by
    rw [text, String.toList_ofList]
    cases as with
    | nil => nofun
    | cons a as =>
      obtain ⟨c, more, split⟩ := List.exists_cons_of_ne_nil a.named
      have first : c ≠ '\ufeff' :=
        Line.isNameChar_ne (a.mem_name (split ▸ List.mem_cons_self)).1 (by decide)
      rw [List.flatMap_cons, line, Line.assign, split]
      exact fun same => first (List.cons.inj same).1
  refine ⟨Table.ofPairs (Table.ofPairs (as.map entry)), ?_, fun name => ?_⟩
  · unfold Config.settings?
    dsimp only
    split
    · next marked => exact absurd marked (unmarked _)
    · rw [lines_text, readAll?_lines]
      change (if _ then _ else none) = _
      rw [if_pos apart]
      refine congrArg some (congrArg Table.ofPairs ?_)
      rw [List.map_map]
      -- A bare name is the field that it leads to.
      refine (List.filterMap_congr (g := some) fun given listed => ?_).trans
        (List.filterMap_some.trans (congrArg Table.ofPairs ?_))
      · obtain ⟨a, -, rfl⟩ := List.mem_map.mp (Table.mem_ofPairs listed)
        change Path.place? (String.ofList a.name.toList).toList a.setting =
          some (String.ofList a.name.toList, a.setting)
        rw [String.ofList_toList]
        exact a.place?_name a.setting
      · exact List.map_congr_left fun a _ => congrArg (·, a.setting) String.ofList_toList
  · have once' : ((as.map entry).map Prod.fst).Nodup := by
      rw [List.map_map]
      exact once
    rw [Table.get?_ofPairs, Table.get?_reverse (Table.ordered_ofPairs _).nodup, Table.get?_ofPairs,
      Table.get?_reverse once']

end Assignment
end Setting
end Dialogue
