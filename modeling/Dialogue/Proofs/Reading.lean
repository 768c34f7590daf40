import Dialogue.Json.Reader
import Dialogue.Proofs.Numerals
/-!
What a reader of the data format takes off a text depends on what it takes alone, and on no more of
the fuel than it takes. Main statement: an object is read off any text that begins with it.
-/
namespace Dialogue.Json

namespace Reader

def IsSpace (c : Char) : Prop := c = ' ' ∨ c = '\t' ∨ c = '\n' ∨ c = '\r'

theorem skip_space {c : Char} (space : IsSpace c) (rest : List Char) :
    skip (c :: rest) = skip rest := by
  exact (skip.eq_2 c rest).trans (if_pos space)

theorem skip_spaces {front : List Char} (spaces : ∀ c ∈ front, IsSpace c) (rest : List Char) :
    skip (front ++ rest) = skip rest := by
  induction front with
  | nil => rfl
  | cons c front ih =>
    rw [List.forall_mem_cons] at spaces
    rw [List.cons_append, skip_space spaces.1, ih spaces.2]

theorem skip_other {c : Char} (other : ¬ IsSpace c) (rest : List Char) :
    skip (c :: rest) = c :: rest := by
  exact (skip.eq_2 c rest).trans (if_neg other)

/-- Nothing but blanks is skipped, and no blank is left in front. -/
theorem skip_split (cs : List Char) :
    ∃ front, cs = front ++ skip cs ∧ (∀ c ∈ front, IsSpace c) ∧
      ∀ c, (skip cs).head? = some c → ¬ IsSpace c := by
  induction cs with
  | nil => exact ⟨[], rfl, nofun, nofun⟩
  | cons c cs ih =>
    by_cases space : IsSpace c
    · obtain ⟨front, split, spaces, first⟩ := ih
      rw [skip_space space]
      exact ⟨c :: front, congrArg (c :: ·) split, List.forall_mem_cons.mpr ⟨space, spaces⟩, first⟩
    · rw [skip_other space]
      refine ⟨[], rfl, nofun, fun d hd => ?_⟩
      cases hd
      exact space

/-- The character that comes behind the blanks comes behind them in front of any text. -/
theorem skip_eq_cons {cs rest : List Char} {c : Char} (h : skip cs = c :: rest) :
    ∃ front, cs = front ++ c :: rest ∧ (∀ d ∈ front, IsSpace d) ∧
      ∀ more, skip (front ++ c :: more) = c :: more := by
  obtain ⟨front, split, spaces, first⟩ := skip_split cs
  rw [h] at split first
  exact ⟨front, split, spaces, fun more => by rw [skip_spaces spaces, skip_other (first c rfl)]⟩

theorem word_eq_some_iff {ws cs rest : List Char} : word ws cs = some rest ↔ cs = ws ++ rest := by
  induction ws generalizing cs with
  | nil => simp [word]
  | cons w ws ih =>
    cases cs with
    | nil => simp [word]
    | cons c cs =>
      rw [word]
      split
      · next same => simp [same, ih]
      · next other => simp [Ne.symm other]

def Takes {α : Type} (read : List Char → Option (α × List Char)) (item : α) (cs rest : List Char) :
    Prop :=
  ∃ taken, cs = taken ++ rest ∧ ∀ more, read (taken ++ more) = some (item, more)

section Strings
variable {front body rest : List Char} {c : Char}

/-- How a character of a string is written: as it is, behind a backslash, as a code, or as a pair of
codes. -/
inductive Glyph : List Char → Char → Prop
  | plain {c : Char} (notQuote : c ≠ '"') (notSlash : c ≠ '\\') (shown : ¬ c.toNat < 32) :
      Glyph [c] c
  | escaped {c d : Char} (letter : escaped c = some d) : Glyph ['\\', c] d
  | code {a b c d : Char} {code : Nat} (four : hexFour a b c d = some code)
      (scalar : code < 0xD800 ∨ 0xE000 ≤ code) :
      Glyph ['\\', 'u', a, b, c, d] (Char.ofNat code)
  | pair {a b c d e f g h : Char} {high low : Nat} (first : hexFour a b c d = some high)
      (surrogate : ¬ (high < 0xD800 ∨ 0xE000 ≤ high)) (leads : ¬ 0xDC00 ≤ high)
      (second : hexFour e f g h = some low) (trails : 0xDC00 ≤ low ∧ low < 0xE000) :
      Glyph ['\\', 'u', a, b, c, d, '\\', 'u', e, f, g, h]
        (Char.ofNat (0x10000 + (high - 0xD800) * 0x400 + (low - 0xDC00)))

theorem Glyph.nonempty (glyph : Glyph front c) : 0 < front.length := by
  cases glyph <;> exact Nat.succ_pos _

/-- The character is read off, then the others. -/
theorem Glyph.reads (glyph : Glyph front c) (more : List Char) :
    stringBody (front ++ more) = (stringBody more).map fun (body, rest) => (c :: body, rest) := by
  cases glyph with
  | plain notQuote notSlash shown =>
    rw [List.singleton_append, stringBody.eq_5 c more notQuote
      (fun _ _ _ _ _ slash => absurd slash notSlash) (fun _ _ slash => absurd slash notSlash),
      if_neg (by simp [shown, notSlash])]
    cases stringBody more <;> rfl
  | @escaped c _ letter =>
    have notU : c ≠ 'u' := by
      rintro rfl
      cases letter
    rw [List.cons_append, List.singleton_append,
      stringBody.eq_4 c more fun _ _ _ _ _ u => absurd u notU, letter, Option.bind_eq_bind,
      Option.bind_some]
    cases stringBody more <;> rfl
  | code four scalar =>
    simp only [List.cons_append, List.nil_append]
    rw [stringBody.eq_3, four, Option.bind_eq_bind, Option.bind_some, if_pos scalar]
    cases stringBody more <;> rfl
  | pair first surrogate leads second trails =>
    simp only [List.cons_append, List.nil_append]
    rw [stringBody.eq_3, first, Option.bind_eq_bind, Option.bind_some, if_neg surrogate,
      if_neg leads]
    simp only [second, Option.bind_eq_bind, Option.bind_some, if_pos trails]
    cases stringBody more <;> rfl

/-- A string ends at its quote or goes on with a character. -/
theorem stringBody_begins {cs : List Char} (h : stringBody cs = some (body, rest)) :
    (cs = '"' :: rest ∧ body = []) ∨ ∃ front c tail, Glyph front c ∧ cs = front ++ tail := by
  unfold stringBody at h
  split at h
  · cases h
  · cases h
    exact .inl ⟨rfl, rfl⟩
  · refine .inr ?_
    obtain ⟨code, four, h⟩ := Option.bind_eq_some_iff.mp h
    split at h
    · next scalar => exact ⟨_, _, _, .code four scalar, rfl⟩
    · next surrogate =>
      split at h
      · cases h
      · next leads =>
        split at h
        · obtain ⟨low, second, h⟩ := Option.bind_eq_some_iff.mp h
          split at h
          · next trails => exact ⟨_, _, _, .pair four surrogate leads second trails, rfl⟩
          · cases h
        · cases h
  · obtain ⟨_, letter, -⟩ := Option.bind_eq_some_iff.mp h
    exact .inr ⟨_, _, _, .escaped letter, rfl⟩
  · next notQuote _ _ =>
    split at h
    · cases h
    · next plain =>
      obtain ⟨shown, notSlash⟩ := not_or.mp plain
      exact .inr ⟨_, _, _, .plain notQuote notSlash shown, rfl⟩

theorem stringBody_takes {cs : List Char} (h : stringBody cs = some (body, rest)) :
    Takes stringBody body cs rest := by
  -- By induction on the length: a pair of codes is read at once.
  induction hlength : cs.length using Nat.strongRecOn generalizing cs body with
  | _ length ih =>
    rcases stringBody_begins h with ⟨rfl, rfl⟩ | ⟨front, c, tail, glyph, rfl⟩
    · exact ⟨['"'], rfl, fun more => rfl⟩
    · rw [glyph.reads] at h
      obtain ⟨⟨inner, _⟩, later, ⟨⟩⟩ := Option.map_eq_some_iff.mp h
      have shorter : tail.length < length := by
        rw [← hlength, List.length_append]
        exact Nat.lt_add_of_pos_left glyph.nonempty
      obtain ⟨taken, rfl, alike⟩ := ih tail.length shorter later rfl
      refine ⟨front ++ taken, (List.append_assoc ..).symm, fun more => ?_⟩
      rw [List.append_assoc, glyph.reads, alike]
      rfl

end Strings

section Numbers
variable {α : Type} {cs rest : List Char}

def TakesBefore (read : List Char → Option (α × List Char)) (item : α) (cs rest : List Char) :
    Prop :=
  ∃ taken, cs = taken ++ rest ∧
    ∀ more, more.head? = rest.head? → read (taken ++ more) = some (item, more)

theorem head_same {taken more : List Char} (first : more.head? = rest.head?) :
    (taken ++ more).head? = (taken ++ rest).head? := by
  rw [List.head?_append, first, List.head?_append]

theorem head_other {more : List Char} {c : Char} (first : more.head? = rest.head?)
    (other : ∀ tail, rest = c :: tail → False) : ∀ tail, more = c :: tail → False := by
  rintro _ rfl
  obtain ⟨tail, split⟩ := List.head?_eq_some_iff.mp first.symm
  exact other tail split

theorem digits_takes {ds : List Nat} (h : digits cs = (ds, rest)) :
    ∃ taken, cs = taken ++ rest ∧
      ∀ more, more.head? = rest.head? → digits (taken ++ more) = (ds, more) := by
  cases h
  refine ⟨_, List.takeWhile_append_dropWhile.symm, fun more first => ?_⟩
  have stop : ∀ c ∈ more.head?, c.isDigit = false := by
    intro c hc
    have other := List.head?_dropWhile_not Char.isDigit cs
    rw [first] at hc
    rwa [hc] at other
  obtain ⟨before, after⟩ := Literal.digits_stop more (List.all_eq_true.mp List.all_takeWhile) stop
  rw [digits, before, after]

theorem fractionPart_takes {fraction : Option (List Nat)}
    (h : fractionPart cs = some (fraction, rest)) : TakesBefore fractionPart fraction cs rest := by
  unfold fractionPart at h
  split at h
  · next after =>
    obtain ⟨ds, rest', hdigits⟩ : ∃ ds rest', digits after = (ds, rest') := ⟨_, _, rfl⟩
    obtain ⟨taken, rfl, alike⟩ := digits_takes hdigits
    rw [hdigits] at h
    cases ds with
    | nil => cases h
    | cons d ds =>
      cases h
      refine ⟨'.' :: taken, rfl, fun more first => ?_⟩
      rw [List.cons_append, fractionPart, alike more first]
  · next noPoint =>
    cases h
    refine ⟨[], rfl, fun more first => ?_⟩
    rw [List.nil_append, fractionPart.eq_2 more (head_other first noPoint)]

theorem sign_takes {negative : Bool} (h : Literal.sign cs = (negative, rest)) :
    ∃ taken, cs = taken ++ rest ∧
      ∀ more, more.head? = rest.head? → Literal.sign (taken ++ more) = (negative, more) := by
  unfold Literal.sign at h
  split at h
  · cases h
    exact ⟨['-'], rfl, fun _ _ => rfl⟩
  · cases h
    exact ⟨['+'], rfl, fun _ _ => rfl⟩
  · next noMinus noPlus =>
    cases h
    refine ⟨[], rfl, fun more first => ?_⟩
    exact Literal.sign.eq_3 more (head_other first noMinus) (head_other first noPlus)

theorem exponentPart_takes {exponent : Option Int}
    (h : exponentPart cs = some (exponent, rest)) : TakesBefore exponentPart exponent cs rest := by
  unfold exponentPart at h
  split at h
  · next c after =>
    split at h
    · next letter =>
      obtain ⟨negative, after', hsign⟩ :
          ∃ negative after', Literal.sign after = (negative, after') := ⟨_, _, rfl⟩
      obtain ⟨ds, rest', hdigits⟩ : ∃ ds rest', digits after' = (ds, rest') := ⟨_, _, rfl⟩
      obtain ⟨signed, rfl, alike⟩ := sign_takes hsign
      obtain ⟨taken, rfl, alike₂⟩ := digits_takes hdigits
      simp only [hsign, hdigits] at h
      cases ds with
      | nil => cases h
      | cons d ds =>
        cases h
        refine ⟨c :: (signed ++ taken), by simp, fun more first => ?_⟩
        rw [List.cons_append, List.append_assoc, exponentPart, if_pos letter,
          alike _ (head_same first)]
        simp only [alike₂ more first]
    · next noLetter =>
      cases h
      refine ⟨[], rfl, fun more first => ?_⟩
      obtain ⟨tail, rfl⟩ := List.head?_eq_some_iff.mp first
      exact if_neg noLetter
  · cases h
    refine ⟨[], rfl, fun more first => ?_⟩
    rw [List.head?_eq_none_iff.mp first]
    rfl

theorem unsigned_takes {negative : Bool} {n : Number}
    (h : unsigned negative cs = some (n, rest)) : TakesBefore (unsigned negative) n cs rest := by
  rw [unsigned] at h
  obtain ⟨before, cs', hdigits⟩ : ∃ before cs', digits cs = (before, cs') := ⟨_, _, rfl⟩
  obtain ⟨first, rfl, alike⟩ := digits_takes hdigits
  rw [hdigits] at h
  simp only at h
  split at h
  · cases h
  · next digits =>
    obtain ⟨⟨fraction, cs⟩, hfraction, h⟩ := Option.bind_eq_some_iff.mp h
    obtain ⟨⟨exponent, tail⟩, hexponent, h⟩ := Option.bind_eq_some_iff.mp h
    obtain ⟨_, parts, same⟩ := Option.bind_eq_some_iff.mp h
    cases same
    obtain ⟨second, rfl, alike₂⟩ := fractionPart_takes hfraction
    obtain ⟨third, rfl, alike₃⟩ := exponentPart_takes hexponent
    refine ⟨first ++ second ++ third, by simp, fun more same => ?_⟩
    rw [unsigned, List.append_assoc, List.append_assoc, alike _ (head_same (head_same same))]
    simp only [if_neg digits, alike₂ _ (head_same same), alike₃ _ same, parts,
      Option.bind_eq_bind, Option.bind_some]

theorem number_takes {n : Number} (h : number cs = some (n, rest)) :
    TakesBefore number n cs rest := by
  unfold number at h
  split at h
  · obtain ⟨taken, rfl, alike⟩ := unsigned_takes h
    exact ⟨'-' :: taken, rfl, alike⟩
  · next noMinus =>
    obtain ⟨taken, rfl, alike⟩ := unsigned_takes h
    refine ⟨taken, rfl, fun more first => ?_⟩
    rw [number.eq_2 _ (head_other (head_same first) noMinus), alike more first]

end Numbers

section Nesting
variable {α : Type} {n fuel depth : Nat} {cs after rest : List Char}

/-- The contents of a container are taken off the front up to the character that closes it, on more
fuel than they are long. -/
def TakesUpTo (closing : Char) (read : Nat → Nat → List Char → Option (α × List Char)) (depth : Nat)
    (item : α) (cs rest : List Char) : Prop :=
  ∃ contents, cs = contents ++ closing :: rest ∧ ∀ fuel more, contents.length + 1 < fuel →
    read fuel depth (contents ++ closing :: more) = some (item, more)

def TakesValue (depth : Nat) (v : Value) (cs rest : List Char) : Prop :=
  ∃ taken, cs = taken ++ rest ∧ ∀ fuel more, taken.length < fuel →
    ((∃ x, v = .number x) → more.head? = rest.head?) →
      value fuel depth (taken ++ more) = some (v, more)

/-- A value is read the same before any text that begins with the same character. -/
theorem TakesValue.before {v : Value} {front : List Char} {c : Char}
    (h : TakesValue depth v cs (front ++ c :: rest)) :
    ∃ taken, cs = taken ++ (front ++ c :: rest) ∧ ∀ fuel more, taken.length < fuel →
      value fuel depth (taken ++ (front ++ c :: more)) = some (v, front ++ c :: more) := by
  obtain ⟨taken, split, alike⟩ := h
  refine ⟨taken, split, fun fuel more enough => alike fuel _ enough fun _ => ?_⟩
  exact head_same rfl

inductive Opens (n : Nat) : Nat → Char → List Char → Value → List Char → Prop
  | null {depth : Nat} {rest : List Char} : Opens n depth 'n' (['u', 'l', 'l'] ++ rest) .null rest
  | true {depth : Nat} {rest : List Char} :
      Opens n depth 't' (['r', 'u', 'e'] ++ rest) (.bool true) rest
  | false {depth : Nat} {rest : List Char} :
      Opens n depth 'f' (['a', 'l', 's', 'e'] ++ rest) (.bool false) rest
  | string {depth : Nat} {after body rest : List Char}
      (read : stringBody after = some (body, rest)) :
      Opens n depth '"' after (.string (String.ofList body)) rest
  | emptyArray {depth : Nat} {after rest : List Char} (closing : skip after = ']' :: rest) :
      Opens n (depth + 1) '[' after (.array []) rest
  | array {depth : Nat} {after rest : List Char} {vs : List Value}
      (further : ∀ tail, skip after = ']' :: tail → False)
      (read : items n depth (skip after) = some (vs, rest)) :
      Opens n (depth + 1) '[' after (.array vs) rest
  | emptyObject {depth : Nat} {after rest : List Char} (closing : skip after = '\x7d' :: rest) :
      Opens n (depth + 1) '\x7b' after (.object []) rest
  | object {depth : Nat} {after rest : List Char} {ms : List (String × Value)}
      (further : ∀ tail, skip after = '\x7d' :: tail → False)
      (read : members n depth (skip after) = some (ms, rest)) :
      Opens n (depth + 1) '\x7b' after (.object (Table.ofPairs ms)) rest
  | number {depth : Nat} {c : Char} {after rest : List Char} {x : Number}
      (other : c ∉ ['n', 't', 'f', '"', '[', '\x7b']) (read : number (c :: after) = some (x, rest)) :
      Opens n depth c after (.number x) rest

theorem value_eq_some_iff {v : Value} : value (n + 1) depth cs = some (v, rest) ↔
    ∃ c after, skip cs = c :: after ∧ Opens n depth c after v rest := by
  constructor
  · intro h
    rw [value] at h
    split at h
    · cases h
    · next c after opening =>
      refine ⟨c, after, opening, ?_⟩
      split at h
      · next same =>
        subst same
        obtain ⟨_, read, ⟨⟩⟩ := Option.map_eq_some_iff.mp h
        exact word_eq_some_iff.mp read ▸ .null
      split at h
      · next same =>
        subst same
        obtain ⟨_, read, ⟨⟩⟩ := Option.map_eq_some_iff.mp h
        exact word_eq_some_iff.mp read ▸ .true
      split at h
      · next same =>
        subst same
        obtain ⟨_, read, ⟨⟩⟩ := Option.map_eq_some_iff.mp h
        exact word_eq_some_iff.mp read ▸ .false
      split at h
      · next same =>
        subst same
        obtain ⟨⟨body, _⟩, read, ⟨⟩⟩ := Option.map_eq_some_iff.mp h
        exact .string read
      split at h
      · next same =>
        subst same
        split at h
        · cases h
        · next closing =>
          cases h
          exact .emptyArray closing
        · next further =>
          obtain ⟨⟨vs, _⟩, read, ⟨⟩⟩ := Option.map_eq_some_iff.mp h
          exact .array further read
      split at h
      · next same =>
        subst same
        split at h
        · cases h
        · next closing =>
          cases h
          exact .emptyObject closing
        · next further =>
          obtain ⟨⟨ms, _⟩, read, ⟨⟩⟩ := Option.map_eq_some_iff.mp h
          exact .object further read
      · next noNull noTrue noFalse noQuote noBracket noBrace =>
        obtain ⟨⟨x, _⟩, read, ⟨⟩⟩ := Option.map_eq_some_iff.mp h
        exact .number (by simp [noNull, noTrue, noFalse, noQuote, noBracket, noBrace]) read
  · rintro ⟨c, after, opening, opens⟩
    rw [value, opening]
    cases opens with
    | null => rfl
    | true => rfl
    | false => rfl
    | string read => simp [read]
    | emptyArray closing => simp [closing]
    | array further read => simp [read]
    | emptyObject closing => simp [closing]
    | object further read => simp [read]
    | number other read =>
      simp only [List.mem_cons, List.not_mem_nil, or_false, not_or] at other
      simp [other, read]

/-- A container with something in it is taken off the front when its contents are. -/
theorem filled_taken {read : Nat → Nat → List Char → Option (α × List Char)} {closing : Char}
    {item : α} (further : ∀ tail, skip after = closing :: tail → False)
    (takes : TakesUpTo closing read depth item (skip after) rest) :
    ∃ taken, after = taken ++ rest ∧ ∀ fuel more, taken.length < fuel →
      (∀ tail, skip (taken ++ more) = closing :: tail → False) ∧
        read fuel depth (skip (taken ++ more)) = some (item, more) := by
  obtain ⟨contents, split, alike⟩ := takes
  cases contents with
  | nil => exact (further _ split).elim
  | cons c contents =>
    obtain ⟨blanks, rfl, -, skipped⟩ := skip_eq_cons split
    refine ⟨blanks ++ c :: (contents ++ [closing]), by simp, fun fuel more enough => ?_⟩
    simp only [List.length_append, List.length_cons, List.length_nil] at enough
    rw [List.append_assoc, List.cons_append, List.append_assoc, List.singleton_append, skipped]
    refine ⟨?_, alike fuel more (by rw [List.length_cons]; omega)⟩
    rw [split] at further
    refine head_other ?_ further
    rfl

theorem value_step
    (items_take : ∀ {depth cs vs rest}, items n depth cs = some (vs, rest) →
      TakesUpTo ']' items depth vs cs rest)
    (members_take : ∀ {depth cs ms rest}, members n depth cs = some (ms, rest) →
      TakesUpTo '\x7d' members depth ms cs rest)
    {v : Value} (h : value (n + 1) depth cs = some (v, rest)) : TakesValue depth v cs rest := by
  obtain ⟨c, after, opening, opens⟩ := value_eq_some_iff.mp h
  obtain ⟨front, rfl, -, starts⟩ := skip_eq_cons opening
  have behind (taken : List Char) (split : after = taken ++ rest)
      (reads : ∀ fuel more, taken.length < fuel → Opens fuel depth c (taken ++ more) v more) :
      TakesValue depth v (front ++ c :: after) rest := by
    refine ⟨front ++ c :: taken, by simp [split], fun fuel more enough _ => ?_⟩
    rw [List.length_append, List.length_cons] at enough
    obtain ⟨fuel, rfl⟩ : ∃ less, fuel = less + 1 := ⟨fuel - 1, by omega⟩
    rw [List.append_assoc, List.cons_append]
    exact value_eq_some_iff.mpr ⟨c, _, starts _, reads fuel more (by omega)⟩
  cases opens with
  | null => exact behind ['u', 'l', 'l'] rfl fun fuel more _ => .null
  | true => exact behind ['r', 'u', 'e'] rfl fun fuel more _ => .true
  | false => exact behind ['a', 'l', 's', 'e'] rfl fun fuel more _ => .false
  | string read =>
    obtain ⟨taken, split, alike⟩ := stringBody_takes read
    exact behind taken split fun fuel more _ => .string (alike more)
  | emptyArray closing =>
    obtain ⟨blanks, rfl, -, alike⟩ := skip_eq_cons closing
    exact behind (blanks ++ [']']) (by simp) fun fuel more _ => .emptyArray (by simp [alike])
  | array further read =>
    obtain ⟨taken, split, alike⟩ := filled_taken further (items_take read)
    exact behind taken split fun fuel more enough =>
      .array (alike fuel more enough).1 (alike fuel more enough).2
  | emptyObject closing =>
    obtain ⟨blanks, rfl, -, alike⟩ := skip_eq_cons closing
    exact behind (blanks ++ ['\x7d']) (by simp) fun fuel more _ => .emptyObject (by simp [alike])
  | object further read =>
    obtain ⟨taken, split, alike⟩ := filled_taken further (members_take read)
    exact behind taken split fun fuel more enough =>
      .object (alike fuel more enough).1 (alike fuel more enough).2
  | @number _ _ _ _ x other read =>
    -- The first character is the number's own, or the one that has to follow it.
    obtain ⟨taken, split, alike⟩ := number_takes read
    refine ⟨front ++ taken, by simp [split], fun fuel more enough first => ?_⟩
    obtain ⟨fuel, rfl⟩ : ∃ less, fuel = less + 1 := ⟨fuel - 1, by omega⟩
    have begins : (taken ++ more).head? = some c := by
      rw [head_same (first ⟨x, rfl⟩), ← split]
      rfl
    obtain ⟨tail, same⟩ := List.head?_eq_some_iff.mp begins
    rw [List.append_assoc, same]
    exact value_eq_some_iff.mpr ⟨c, tail, starts tail, .number other (by
      rw [← same, alike more (first ⟨x, rfl⟩)])⟩

theorem items_step
    (value_takes : ∀ {depth cs v rest}, value n depth cs = some (v, rest) →
      TakesValue depth v cs rest)
    (items_take : ∀ {depth cs vs rest}, items n depth cs = some (vs, rest) →
      TakesUpTo ']' items depth vs cs rest)
    {vs : List Value} (h : items (n + 1) depth cs = some (vs, rest)) :
    TakesUpTo ']' items depth vs cs rest := by
  rw [items] at h
  obtain ⟨⟨v, behind⟩, hv, h⟩ := Option.bind_eq_some_iff.mp h
  simp only at h
  split at h
  · next last =>
    cases h
    obtain ⟨blanks, rfl, -, alike⟩ := skip_eq_cons last
    obtain ⟨taken, rfl, reads⟩ := (value_takes hv).before
    refine ⟨taken ++ blanks, by simp, fun fuel more enough => ?_⟩
    rw [List.length_append] at enough
    obtain ⟨fuel, rfl⟩ : ∃ less, fuel = less + 1 := ⟨fuel - 1, by omega⟩
    simp only [items, List.append_assoc, reads fuel _ (by omega), alike, Option.bind_eq_bind,
      Option.bind_some]
  · next further =>
    obtain ⟨⟨vs, _⟩, hvs, ⟨⟩⟩ := Option.bind_eq_some_iff.mp h
    obtain ⟨blanks, rfl, -, alike⟩ := skip_eq_cons further
    obtain ⟨taken, rfl, reads⟩ := (value_takes hv).before
    obtain ⟨others, rfl, alike₂⟩ := items_take hvs
    refine ⟨taken ++ (blanks ++ ',' :: others), by simp, fun fuel more enough => ?_⟩
    simp only [List.length_append, List.length_cons] at enough
    obtain ⟨fuel, rfl⟩ : ∃ less, fuel = less + 1 := ⟨fuel - 1, by omega⟩
    simp only [items, List.append_assoc, List.cons_append, reads fuel _ (by omega), alike,
      alike₂ fuel more (by omega), Option.bind_eq_bind, Option.bind_some]
  · cases h

theorem members_step
    (value_takes : ∀ {depth cs v rest}, value n depth cs = some (v, rest) →
      TakesValue depth v cs rest)
    (members_take : ∀ {depth cs ms rest}, members n depth cs = some (ms, rest) →
      TakesUpTo '\x7d' members depth ms cs rest)
    {ms : List (String × Value)} (h : members (n + 1) depth cs = some (ms, rest)) :
    TakesUpTo '\x7d' members depth ms cs rest := by
  rw [members] at h
  split at h
  · next quote =>
    obtain ⟨⟨name, afterName⟩, hname, pair⟩ := Option.bind_eq_some_iff.mp h
    obtain ⟨front, rfl, -, starts⟩ := skip_eq_cons quote
    obtain ⟨written, rfl, named⟩ := stringBody_takes hname
    simp only at pair
    split at pair
    · next colon =>
      obtain ⟨⟨v, behind⟩, hv, others⟩ := Option.bind_eq_some_iff.mp pair
      obtain ⟨gap, rfl, -, parted⟩ := skip_eq_cons colon
      simp only at others
      split at others
      · next last =>
        cases others
        obtain ⟨blanks, rfl, -, alike⟩ := skip_eq_cons last
        obtain ⟨taken, rfl, reads⟩ := (value_takes hv).before
        refine ⟨front ++ '"' :: (written ++ (gap ++ ':' :: (taken ++ blanks))), by simp,
          fun fuel more enough => ?_⟩
        simp only [List.length_append, List.length_cons] at enough
        obtain ⟨fuel, rfl⟩ : ∃ less, fuel = less + 1 := ⟨fuel - 1, by omega⟩
        simp only [members, List.append_assoc, List.cons_append, starts, named, parted,
          reads fuel _ (by omega), alike, Option.bind_eq_bind, Option.bind_some]
      · next further =>
        obtain ⟨⟨ms, _⟩, hms, ⟨⟩⟩ := Option.bind_eq_some_iff.mp others
        obtain ⟨blanks, rfl, -, alike⟩ := skip_eq_cons further
        obtain ⟨taken, rfl, reads⟩ := (value_takes hv).before
        obtain ⟨remaining, rfl, alike₂⟩ := members_take hms
        refine ⟨front ++ '"' :: (written ++ (gap ++ ':' :: (taken ++ (blanks ++ ',' :: remaining)))),
          by simp, fun fuel more enough => ?_⟩
        simp only [List.length_append, List.length_cons] at enough
        obtain ⟨fuel, rfl⟩ : ∃ less, fuel = less + 1 := ⟨fuel - 1, by omega⟩
        simp only [members, List.append_assoc, List.cons_append, starts, named, parted,
          reads fuel _ (by omega), alike, alike₂ fuel _ (by omega), Option.bind_eq_bind,
          Option.bind_some]
      · cases others
    · cases pair
  · cases h

/-- On any fuel, what each of the readers takes depends on nothing behind it but one character. -/
theorem takes (n : Nat) :
    (∀ {depth cs v rest}, value n depth cs = some (v, rest) → TakesValue depth v cs rest) ∧
    (∀ {depth cs vs rest}, items n depth cs = some (vs, rest) →
      TakesUpTo ']' items depth vs cs rest) ∧
    (∀ {depth cs ms rest}, members n depth cs = some (ms, rest) →
      TakesUpTo '\x7d' members depth ms cs rest) := by
  induction n with
  | zero => exact ⟨nofun, nofun, nofun⟩
  | succ n ih =>
    obtain ⟨value_takes, items_take, members_take⟩ := ih
    exact ⟨value_step items_take members_take, items_step value_takes items_take,
      members_step value_takes members_take⟩

/-- What is read as an object stands between braces. -/
theorem object_braced {ms : Table Value} (h : value n depth cs = some (.object ms, rest)) :
    ∃ body, skip cs = '\x7b' :: (body ++ '\x7d' :: rest) := by
  cases n with
  | zero => cases h
  | succ n =>
    obtain ⟨c, after, opening, opens⟩ := value_eq_some_iff.mp h
    rw [opening]
    cases opens with
    | emptyObject closing =>
      obtain ⟨blanks, rfl, -⟩ := skip_eq_cons closing
      exact ⟨blanks, rfl⟩
    | object further read =>
      obtain ⟨contents, split, -⟩ := (takes n).2.2 read
      obtain ⟨blanks, hblanks, -⟩ := skip_split after
      exact ⟨blanks ++ contents, by rw [hblanks, split, List.append_assoc]⟩

theorem value_skip {v : Value} (h : value n depth cs = some (v, rest)) :
    value n depth (skip cs) = some (v, rest) := by
  obtain ⟨front, split, spaces, -⟩ := skip_split cs
  have again : skip (skip cs) = skip cs :=
    (skip_spaces spaces (skip cs)).symm.trans (congrArg skip split.symm)
  cases n with
  | zero => cases h
  | succ n =>
    obtain ⟨c, after, opening, opens⟩ := value_eq_some_iff.mp h
    exact value_eq_some_iff.mpr ⟨c, after, again.trans opening, opens⟩

/-- An object is read off any text that begins with it. -/
theorem object_reads {ms : Table Value} (h : value n depth cs = some (.object ms, rest)) :
    ∃ front body, cs = front ++ '\x7b' :: (body ++ '\x7d' :: rest) ∧ (∀ c ∈ front, IsSpace c) ∧
      ∀ fuel more, body.length + 2 < fuel →
        value fuel depth ('\x7b' :: (body ++ '\x7d' :: more)) = some (.object ms, more) := by
  obtain ⟨body, braced⟩ := object_braced h
  obtain ⟨front, split, spaces, -⟩ := skip_split cs
  have bare := value_skip h
  rw [braced] at bare split
  obtain ⟨taken, whole, alike⟩ := (takes n).1 bare
  have same : taken = '\x7b' :: (body ++ ['\x7d']) :=
    List.append_cancel_right (by rw [← whole]; simp)
  subst same
  refine ⟨front, body, split, spaces, fun fuel more enough => ?_⟩
  have reads := alike fuel more (by simpa using enough) nofun
  rwa [List.cons_append, List.append_assoc, List.singleton_append] at reads

end Nesting

end Reader

open Reader (IsSpace)

/-- A text that is an object: braces with blanks around them. What is read between them is read
there in front of any text. -/
theorem Value.ofText?_object {t : String} {ms : Table Value}
    (h : Value.ofText? t = some (.object ms)) :
    ∃ front body back, t.toList = front ++ '\x7b' :: (body ++ '\x7d' :: back) ∧
      (∀ c ∈ front ++ back, IsSpace c) ∧ ∀ fuel more, body.length + 2 < fuel →
        Reader.value fuel 127 ('\x7b' :: (body ++ '\x7d' :: more)) = some (.object ms, more) := by
  rw [Value.ofText?] at h
  split at h
  · next v back hv =>
    split at h
    · next blank =>
      cases h
      obtain ⟨front, body, split, spaces, reads⟩ := Reader.object_reads hv
      obtain ⟨behind, hbehind, spaces', -⟩ := Reader.skip_split back
      rw [blank, List.append_nil] at hbehind
      subst hbehind
      exact ⟨front, body, back, split, List.forall_mem_append.mpr ⟨spaces, spaces'⟩, reads⟩
    · cases h
  · cases h

/-- The braces alone are read as the object. -/
theorem Value.ofText?_braces {body : List Char} {ms : Table Value}
    (reads : ∀ fuel more, body.length + 2 < fuel →
      Reader.value fuel 127 ('\x7b' :: (body ++ '\x7d' :: more)) = some (.object ms, more)) :
    Value.ofText? (String.ofList ('\x7b' :: (body ++ ['\x7d']))) = some (.object ms) := by
  rw [Value.ofText?, String.toList_ofList]
  rw [reads _ [] (by simp; omega)]
  rfl

end Dialogue.Json
