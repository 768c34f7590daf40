import Dialogue.Proofs.Finding
import Dialogue.Proofs.Lexing
/-!
How a text is cut into lexemes, said by what each of them is made of and by what comes behind it.
Main statement: the lexemes make up the whole text, and each token begins at the byte of its lexeme;
or else the text is cut up to a variable or a literal that is not closed, or to an empty name.
-/
namespace Dialogue

namespace Text

theorem byteLength_append (front back : List Char) :
    byteLength (front ++ back) = byteLength front + byteLength back := by
  induction front with
  | nil => simp [byteLength]
  | cons c front ih =>
    simp only [List.cons_append, byteLength, ih]
    omega

theorem byteLength_pos {cs : List Char} (nonempty : cs ≠ []) : 0 < byteLength cs := by
  cases cs with
  | nil => exact absurd rfl nonempty
  | cons c rest =>
    have := c.utf8Size_pos
    simp only [byteLength]
    omega

theorem byteLength_eq (cs : List Char) : byteLength cs = (String.ofList cs).utf8ByteSize := by
  induction cs with
  | nil => rfl
  | cons c rest ih =>
    rw [byteLength, ih, String.ofList_cons, String.utf8ByteSize_append,
      String.utf8ByteSize_singleton]

def IsBoundary (text : String) (offset : Nat) : Prop := (⟨offset⟩ : String.Pos.Raw).IsValid text

theorem isBoundary_of_append {text : String} {front back : List Char}
    (whole : text.toList = front ++ back) : IsBoundary text (byteLength front) := by
  refine String.Pos.Raw.isValid_iff_exists_append.mpr
    ⟨String.ofList front, String.ofList back, ?_, ?_⟩
  · apply String.toList_injective
    simp [whole]
  · rw [byteLength_eq]
    rfl

theorem breakOn?_single {q : Char} {cs text after : List Char} :
    breakOn? [q] cs = some (text, after) ↔ cs = text ++ q :: after ∧ q ∉ text := by
  constructor
  · intro found
    obtain ⟨whole, first⟩ := breakOn?_eq_some_iff.mp found
    refine ⟨by simpa using whole, fun inside => ?_⟩
    obtain ⟨front, back, rfl⟩ := List.append_of_mem inside
    have := first front (back ++ q :: after) (by simp)
    simp only [List.length_append, List.length_cons] at this
    omega
  · rintro ⟨rfl, inside⟩
    exact breakOn?_quote inside after

theorem breakOn?_single_none {q : Char} {cs : List Char} : breakOn? [q] cs = none ↔ q ∉ cs := by
  refine breakOn?_eq_none_iff.trans (not_congr ?_)
  exact ⟨fun ⟨front, back, split⟩ => by simp [← split],
    fun inside => (List.append_of_mem inside).imp fun _ ⟨back, split⟩ => ⟨back, by simp [split]⟩⟩

end Text

namespace Condition

def signs : List (String × Comparison) :=
  [(">=", .ge), ("<=", .le), (">>", .gt), ("<<", .lt), ("!=", .ne), ("==", .eq), (">", .gt),
    ("<", .lt)]

def Longest (sign : String) (cs : List Char) : Prop :=
  ∀ other ∈ signs, other.1.toList <+: cs → other.1.length ≤ sign.length

theorem length_signs : ∀ sign ∈ signs, sign.1.length ≤ 2 := by decide

/-- A sign is read at its longest. -/
theorem symbol?_eq_some {cs : List Char} {op : Comparison} {length : Nat}
    (h : symbol? cs = some (op, length)) :
    ∃ sign rest, (sign, op) ∈ signs ∧ cs = sign.toList ++ rest ∧ length = sign.length ∧
      Longest sign cs := by
  have double (sign : String) (rest : List Char) (listed : (sign, op) ∈ signs)
      (shape : cs = sign.toList ++ rest) (two : sign.length = 2) (taken : 2 = length) :
      ∃ sign rest, (sign, op) ∈ signs ∧ cs = sign.toList ++ rest ∧ length = sign.length ∧
        Longest sign cs :=
    ⟨sign, rest, listed, shape, taken.symm.trans two.symm,
      fun other h _ => two ▸ length_signs other h⟩
  unfold symbol? at h
  split at h
  case h_1 rest => cases h; exact double ">=" rest (by decide) rfl rfl rfl
  case h_2 rest => cases h; exact double "<=" rest (by decide) rfl rfl rfl
  case h_3 rest => cases h; exact double ">>" rest (by decide) rfl rfl rfl
  case h_4 rest => cases h; exact double "<<" rest (by decide) rfl rfl rfl
  case h_5 rest => cases h; exact double "!=" rest (by decide) rfl rfl rfl
  case h_6 rest => cases h; exact double "==" rest (by decide) rfl rfl rfl
  case h_7 rest noEqual noSame =>
    cases h
    refine ⟨">", rest, by decide, rfl, rfl, ?_⟩
    simp only [Longest, signs, List.forall_mem_cons]
    simpa using ⟨fun ⟨tail, h⟩ => (noEqual tail h.symm).elim,
      fun ⟨tail, h⟩ => (noSame tail h.symm).elim⟩
  case h_8 rest noEqual noSame =>
    cases h
    refine ⟨"<", rest, by decide, rfl, rfl, ?_⟩
    simp only [Longest, signs, List.forall_mem_cons]
    simpa using ⟨fun ⟨tail, h⟩ => (noEqual tail h.symm).elim,
      fun ⟨tail, h⟩ => (noSame tail h.symm).elim⟩
  case h_9 => cases h

theorem symbol?_isSome {c : Char} (single : c = '>' ∨ c = '<') (rest : List Char) :
    (symbol? (c :: rest)).isSome = true := by
  rcases single with rfl | rfl <;> (unfold symbol?; split <;> simp_all)

theorem symbol?_begins {sign : String} {op : Comparison} (listed : (sign, op) ∈ signs)
    (rest : List Char) : (symbol? (sign.toList ++ rest)).isSome = true := by
  simp only [signs, List.mem_cons, List.not_mem_nil, or_false, Prod.mk.injEq] at listed
  rcases listed with ⟨rfl, -⟩ | ⟨rfl, -⟩ | ⟨rfl, -⟩ | ⟨rfl, -⟩ | ⟨rfl, -⟩ | ⟨rfl, -⟩ | ⟨rfl, -⟩ |
    ⟨rfl, -⟩
  case inr.inr.inr.inr.inr.inr.inl => exact symbol?_isSome (.inl rfl) rest
  case inr.inr.inr.inr.inr.inr.inr => exact symbol?_isSome (.inr rfl) rest
  all_goals rfl

/-- What a bare word stops at: a blank, a parenthesis, a quote, a variable or a sign, or the end of
the text. -/
inductive Stops : List Char → Prop where
  | nil : Stops []
  | blank {c : Char} (blank : Text.isBlank c = true) (rest : List Char) : Stops (c :: rest)
  | mark {c : Char} (mark : c ∈ ['(', ')', '"', '\'']) (rest : List Char) : Stops (c :: rest)
  | braces (rest : List Char) : Stops (braces ++ rest)
  | sign {sign : String} {op : Comparison} (listed : (sign, op) ∈ signs) (rest : List Char) :
    Stops (sign.toList ++ rest)

theorem endsWord_iff {cs : List Char} : endsWord cs = true ↔ Stops cs := by
  constructor
  · intro h
    cases cs with
    | nil => exact .nil
    | cons c rest =>
      simp only [endsWord, Bool.or_eq_true, beq_iff_eq] at h
      rcases h with (((((blank | rfl) | rfl) | rfl) | rfl) | opened) | sign
      · exact .blank blank rest
      · exact .mark (by decide) rest
      · exact .mark (by decide) rest
      · exact .mark (by decide) rest
      · exact .mark (by decide) rest
      · obtain ⟨tail, split⟩ := List.isPrefixOf_iff_prefix.mp opened
        exact split ▸ .braces tail
      · obtain ⟨⟨op, length⟩, found⟩ := Option.isSome_iff_exists.mp sign
        obtain ⟨sign, tail, listed, split, -, -⟩ := symbol?_eq_some found
        exact split ▸ .sign listed tail
  · intro h
    cases h with
    | nil => rfl
    | blank blank rest => simp [endsWord, blank]
    | mark mark rest =>
      simp only [List.mem_cons, List.not_mem_nil, or_false] at mark
      rcases mark with rfl | rfl | rfl | rfl <;> rfl
    | braces rest => simp [endsWord, braces]
    | @sign sign op listed rest =>
      have begins := symbol?_begins listed rest
      cases shape : sign.toList ++ rest with
      | nil => rfl
      | cons c tail => simp [endsWord, ← shape, begins]

def IsWord (word rest : List Char) : Prop :=
  (∀ front back, word = front ++ back → back ≠ [] → ¬ Stops (back ++ rest)) ∧ Stops rest

theorem bareWord_isWord (cs : List Char) : IsWord (bareWord cs).1 (bareWord cs).2 := by
  induction cs with
  | nil => exact ⟨by simp [bareWord], .nil⟩
  | cons c rest ih =>
    rw [bareWord]
    split
    · next stops => exact ⟨by simp, endsWord_iff.mp stops⟩
    · next goesOn =>
      obtain ⟨inside, stop⟩ := ih
      refine ⟨fun front back split nonempty => ?_, stop⟩
      cases front with
      | nil =>
        rw [← List.nil_append back, ← split, List.cons_append, bareWord_append]
        exact fun stops => goesOn (endsWord_iff.mpr stops)
      | cons d front => exact inside front back (List.cons.inj split).2 nonempty

inductive Lexeme.Cut : Lexeme → List Char → Prop where
  | blank {c : Char} (blank : Text.isBlank c = true) (rest : List Char) : Cut ⟨[c], none⟩ rest
  | opening (rest : List Char) : Cut ⟨['('], some .opening⟩ rest
  | closing (rest : List Char) : Cut ⟨[')'], some .closing⟩ rest
  | named {name rest : List Char} (first : Text.FirstAt closingBraces name rest)
      (nonempty : Text.trim name ≠ []) :
    Cut ⟨braces ++ name ++ closingBraces, some (.variable (String.ofList (Text.trim name)))⟩ rest
  | quoted {q : Char} {text : List Char} (quote : q = '\'' ∨ q = '"') (inside : q ∉ text)
      (rest : List Char) : Cut ⟨q :: text ++ [q], some (.quoted (String.ofList text))⟩ rest
  | sign {sign : String} {op : Comparison} {rest : List Char} (listed : (sign, op) ∈ signs)
      (longest : Longest sign (sign.toList ++ rest)) : Cut ⟨sign.toList, some (.symbol op)⟩ rest
  | word {word rest : List Char} (nonempty : word ≠ []) (isWord : IsWord word rest) :
    Cut ⟨word, some (.word (String.ofList word))⟩ rest

inductive Fault.Shows : Fault → List Char → Prop where
  | unterminatedVariable {rest : List Char} (unclosed : ¬ closingBraces <:+: rest) :
    Shows .unterminatedVariable (braces ++ rest)
  | emptyVariable {name rest : List Char} (first : Text.FirstAt closingBraces name rest)
      (empty : Text.trim name = []) : Shows .emptyVariable (braces ++ name ++ closingBraces ++ rest)
  | unterminatedLiteral {q : Char} {rest : List Char} (quote : q = '\'' ∨ q = '"')
      (unclosed : q ∉ rest) : Shows .unterminatedLiteral (q :: rest)

theorem drop_braces {c : Char} {rest : List Char} (opened : braces.isPrefixOf (c :: rest) = true) :
    c :: rest = braces ++ rest.drop 1 := by
  obtain ⟨tail, split⟩ := List.isPrefixOf_iff_prefix.mp opened
  cases split
  rfl

theorem Lexeme.first_cut {c : Char} {rest after : List Char} {lexeme : Lexeme}
    (h : Lexeme.first c rest = .ok (lexeme, after)) : lexeme.Cut after := by
  have whole := Lexeme.first_append h
  unfold Lexeme.first at h
  repeat' split at h
  · next blank =>
    cases h
    exact .blank blank rest
  · next here =>
    cases h
    exact here ▸ .opening rest
  · next here =>
    cases h
    exact here ▸ .closing rest
  · cases h
  · cases h
  · next opened _ name _ found nonempty =>
    cases h
    exact .named (Text.breakOn?_eq_some_iff.mp found).2 nonempty
  · cases h
  · next quote _ text _ found =>
    cases h
    exact .quoted quote.symm (Text.breakOn?_single.mp found).2 after
  · next found =>
    cases h
    obtain ⟨sign, tail, listed, split, rfl, longest⟩ := symbol?_eq_some found
    rw [split, ← String.length_toList, List.take_left, List.drop_left]
    exact .sign listed (split ▸ longest)
  · cases h
  · next word _ nonempty found =>
    cases h
    have isWord := bareWord_isWord (c :: rest)
    rw [found] at isWord
    exact .word nonempty isWord

theorem Lexeme.first_shows {c : Char} {rest : List Char} {fault : Fault}
    (h : Lexeme.first c rest = .error fault) : fault.Shows (c :: rest) := by
  unfold Lexeme.first at h
  repeat' split at h
  · cases h
  · cases h
  · cases h
  · next opened _ missed =>
    cases h
    rw [drop_braces opened]
    exact .unterminatedVariable (Text.breakOn?_eq_none_iff.mp missed)
  · next opened _ name after found empty =>
    cases h
    obtain ⟨whole, first⟩ := Text.breakOn?_eq_some_iff.mp found
    rw [drop_braces opened, whole, ← List.append_assoc, ← List.append_assoc]
    exact .emptyVariable first empty
  · cases h
  · next quote _ missed =>
    cases h
    exact .unterminatedLiteral quote.symm (Text.breakOn?_single_none.mp missed)
  · cases h
  · cases h
  · next plain notOpening notClosing notBraces notQuote _ noSign _ after found =>
    -- Where none of the cases before applies, a bare word does not stop.
    have whole := bareWord_append (c :: rest)
    have stops := (bareWord_isWord (c :: rest)).2
    rw [found] at whole stops
    obtain rfl : after = c :: rest := whole
    have ends := endsWord_iff.mpr stops
    rw [not_or] at notQuote
    simp [endsWord, plain, notOpening, notClosing, notBraces, notQuote, noSign] at ends
  · cases h

def sources (ls : List Lexeme) : List Char := ls.flatMap Lexeme.source

inductive Cuts : List Lexeme → List Char → Prop where
  | nil (rest : List Char) : Cuts [] rest
  | cons {lexeme : Lexeme} {ls : List Lexeme} {rest : List Char}
      (cut : lexeme.Cut (sources ls ++ rest)) (later : Cuts ls rest) : Cuts (lexeme :: ls) rest

def placed : Nat → List Lexeme → List (Nat × Lexeme)
  | _, [] => []
  | offset, lexeme :: ls => (offset, lexeme) :: placed (offset + Text.byteLength lexeme.source) ls

theorem lexemes_shows {c : Char} {rest : List Char} {fault : Fault} {offset : Nat}
    (h : Lexeme.first c rest = .error fault) :
    lexemes offset (c :: rest) = .error ⟨fault, offset⟩ := by
  rw [lexemes]
  split
  · next h' =>
    rw [h] at h'
    cases h'
    rfl
  · next h' =>
    rw [h] at h'
    cases h'

theorem lexemes_further {c : Char} {rest after : List Char} {lexeme : Lexeme} {offset : Nat}
    {e : ParseError} (h : Lexeme.first c rest = .ok (lexeme, after))
    (later : lexemes (offset + Text.byteLength lexeme.source) after = .error e) :
    lexemes offset (c :: rest) = .error e := by
  rw [lexemes]
  split
  · next h' =>
    rw [h] at h'
    cases h'
  · next h' =>
    rw [h] at h'
    cases h'
    rw [later]

/-- Wherever a text begins, it is cut to its end or up to a fault. -/
theorem lexemes_cut (offset : Nat) (cs : List Char) :
    (∃ ls, lexemes offset cs = .ok (placed offset ls) ∧ cs = sources ls ∧ Cuts ls []) ∨
    ∃ fault ls rest,
      lexemes offset cs = .error ⟨fault, offset + Text.byteLength (sources ls)⟩ ∧
        cs = sources ls ++ rest ∧ Cuts ls rest ∧ fault.Shows rest := by
  induction hlength : cs.length using Nat.strongRecOn generalizing cs offset with
  | _ length ih =>
    cases cs with
    | nil => exact .inl ⟨[], by rw [lexemes]; rfl, rfl, .nil []⟩
    | cons c rest =>
      cases first : Lexeme.first c rest with
      | error fault =>
        exact .inr ⟨fault, [], c :: rest, lexemes_shows first, rfl, .nil _,
          Lexeme.first_shows first⟩
      | ok found =>
        obtain ⟨lexeme, after⟩ := found
        have cut := Lexeme.first_cut first
        have whole := Lexeme.first_append first
        rcases ih after.length (hlength ▸ Lexeme.first_length first)
          (offset + Text.byteLength lexeme.source) after rfl with
          ⟨ls, later, rfl, cuts⟩ | ⟨fault, ls, behind, later, rfl, cuts, shows⟩
        · refine .inl ⟨lexeme :: ls, lexemes_first first later, whole.symm, .cons ?_ cuts⟩
          rwa [List.append_nil]
        · refine .inr ⟨fault, lexeme :: ls, behind, ?_, ?_, .cons cut cuts, shows⟩
          · rw [lexemes_further first later, Nat.add_assoc, ← Text.byteLength_append]
            rfl
          · rw [← whole, ← List.append_assoc]
            rfl

theorem mem_placed {offset place : Nat} {ls : List Lexeme} {lexeme : Lexeme} :
    (place, lexeme) ∈ placed offset ls ↔
      ∃ front back, ls = front ++ lexeme :: back ∧
        place = offset + Text.byteLength (sources front) := by
  induction ls generalizing offset with
  | nil => simp [placed]
  | cons first ls ih =>
    rw [placed, List.mem_cons, ih]
    constructor
    · rintro (here | ⟨front, back, rfl, rfl⟩)
      · cases here
        exact ⟨[], ls, rfl, rfl⟩
      · refine ⟨first :: front, back, rfl, ?_⟩
        rw [Nat.add_assoc, ← Text.byteLength_append]
        rfl
    · rintro ⟨front, back, split, rfl⟩
      cases front with
      | nil =>
        cases split
        exact .inl rfl
      | cons other front =>
        cases split
        refine .inr ⟨front, back, rfl, ?_⟩
        rw [Nat.add_assoc, ← Text.byteLength_append]
        rfl

theorem Lexeme.Cut.nonempty {lexeme : Lexeme} {rest : List Char} (h : lexeme.Cut rest) :
    lexeme.source ≠ [] := by
  cases h with
  | word nonempty => exact nonempty
  | sign listed =>
    simp only [signs, List.mem_cons, List.not_mem_nil, or_false, Prod.mk.injEq] at listed
    rcases listed with ⟨rfl, -⟩ | ⟨rfl, -⟩ | ⟨rfl, -⟩ | ⟨rfl, -⟩ | ⟨rfl, -⟩ | ⟨rfl, -⟩ | ⟨rfl, -⟩ |
      ⟨rfl, -⟩ <;> exact List.cons_ne_nil _ _
  | blank | opening | closing | named | quoted => exact List.cons_ne_nil _ _

theorem Cuts.placed_ordered {ls : List Lexeme} {rest : List Char} (cuts : Cuts ls rest)
    (offset : Nat) : (placed offset ls).Pairwise fun l later => l.1 < later.1 := by
  induction cuts generalizing offset with
  | nil => exact .nil
  | @cons lexeme ls rest cut _ ih =>
    refine .cons (fun later listed => ?_) (ih _)
    obtain ⟨front, back, -, place⟩ := mem_placed.mp listed
    have := Text.byteLength_pos cut.nonempty
    omega

structure Covers (text : String) (ls : List Lexeme) (ts : List Token) : Prop where
  whole : text.toList = sources ls
  cuts : Cuts ls []
  mem_iff : ∀ t, t ∈ ts ↔ ∃ front lexeme back, ls = front ++ lexeme :: back ∧
    lexeme.kind = some t.kind ∧ t.offset = Text.byteLength (sources front)
  ordered : ts.Pairwise fun t later => t.offset < later.offset
  boundaries : ∀ t ∈ ts, Text.IsBoundary text t.offset

structure Halts (text : String) (ls : List Lexeme) (e : ParseError) : Prop where
  rest : ∃ rest, text.toList = sources ls ++ rest ∧ Cuts ls rest ∧ e.fault.Shows rest
  offset : e.offset = Text.byteLength (sources ls)
  boundary : Text.IsBoundary text e.offset

/-- The tokens of lexemes that are cut to the end of a text. -/
theorem Cuts.covers {text : String} {ls : List Lexeme} (cuts : Cuts ls [])
    (whole : text.toList = sources ls) :
    Covers text ls ((placed 0 ls).filterMap fun (offset, lexeme) =>
      lexeme.kind.map fun kind => ⟨kind, offset⟩) := by
  have mem_iff (t : Token) : t ∈ (placed 0 ls).filterMap (fun (offset, lexeme) =>
      lexeme.kind.map fun kind => ⟨kind, offset⟩) ↔
      ∃ front lexeme back, ls = front ++ lexeme :: back ∧
        lexeme.kind = some t.kind ∧ t.offset = Text.byteLength (sources front) := by
    rw [List.mem_filterMap]
    constructor
    · rintro ⟨⟨offset, lexeme⟩, listed, token⟩
      obtain ⟨kind, hkind, rfl⟩ := Option.map_eq_some_iff.mp token
      obtain ⟨front, back, split, place⟩ := mem_placed.mp listed
      exact ⟨front, lexeme, back, split, hkind, place.trans (Nat.zero_add _)⟩
    · rintro ⟨front, lexeme, back, split, hkind, place⟩
      refine ⟨(t.offset, lexeme), mem_placed.mpr ⟨front, back, split, ?_⟩, ?_⟩
      · rw [place, Nat.zero_add]
      · simp only [hkind, Option.map_some]
  refine ⟨whole, cuts, mem_iff, ?_, fun t listed => ?_⟩
  · refine (cuts.placed_ordered 0).filterMap _ fun l later before t ht t' ht' => ?_
    obtain ⟨kind, -, rfl⟩ := Option.map_eq_some_iff.mp ht
    obtain ⟨kind', -, rfl⟩ := Option.map_eq_some_iff.mp ht'
    exact before
  · obtain ⟨front, lexeme, back, rfl, -, place⟩ := (mem_iff t).mp listed
    rw [place]
    have split : text.toList = sources front ++ sources (lexeme :: back) :=
      whole.trans List.flatMap_append
    exact Text.isBoundary_of_append split

/-- A text is cut into lexemes to its end, or up to one of three faults: double braces that are not
closed, double braces around blanks, or a quote that is not closed. There is no character with which
no lexeme begins. -/
theorem tokens_cover_or_halt (text : String) :
    ((∃ ls ts, tokens text = .ok ts ∧ Covers text ls ts) ∨
      ∃ ls e, tokens text = .error e ∧ Halts text ls e) ∧
    ∀ found offset, tokens text ≠ .error ⟨.unexpectedCharacter found, offset⟩ := by
  rcases lexemes_cut 0 text.toList with
    ⟨ls, cut, whole, cuts⟩ | ⟨fault, ls, rest, cut, whole, cuts, shows⟩
  · have read := congrArg (Except.map fun ls => ls.filterMap fun (offset, lexeme) =>
      lexeme.kind.map fun kind => (⟨kind, offset⟩ : Token)) cut
    refine ⟨.inl ⟨ls, _, read, cuts.covers whole⟩, fun found offset failed => ?_⟩
    cases read.symm.trans failed
  · have failed : tokens text = .error ⟨fault, Text.byteLength (sources ls)⟩ := by
      rw [tokens, cut, Nat.zero_add]
      rfl
    refine ⟨.inr ⟨ls, _, failed, ⟨rest, whole, cuts, shows⟩, rfl, Text.isBoundary_of_append whole⟩,
      fun found offset unexpected => ?_⟩
    cases failed.symm.trans unexpected
    cases shows

end Condition
end Dialogue
