/-! Text as lists of characters: blanks, trimming and searching. -/
namespace Dialogue.Text

/-- White space: the tab to the return, the blank, and the spaces and separators beyond them. -/
def isBlank (c : Char) : Bool :=
  let n := c.toNat
  (0x09 ≤ n && n ≤ 0x0D) || n == 0x20 || n == 0x85 || n == 0xA0 || n == 0x1680 ||
    (0x2000 ≤ n && n ≤ 0x200A) || n == 0x2028 || n == 0x2029 || n == 0x202F || n == 0x205F ||
    n == 0x3000

/-- Every blank that the core library knows is one here. -/
theorem isBlank_of_isWhitespace (c : Char) (h : c.isWhitespace = true) : isBlank c = true := by
  simp only [Char.isWhitespace, Bool.or_eq_true, decide_eq_true_eq] at h
  rcases h with ((h | h) | h) | h <;> subst h <;> rfl

def trimFront (cs : List Char) : List Char :=
  cs.dropWhile isBlank

def trim (cs : List Char) : List Char :=
  (trimFront (trimFront cs).reverse).reverse

def trimmed (s : String) : String :=
  String.ofList (trim s.toList)

def isBlankText (s : String) : Bool :=
  s.toList.all isBlank

def spoken? (text : Option String) : Option String :=
  text.filter fun text => !isBlankText text

def breakOn? (mark : List Char) : List Char → Option (List Char × List Char)
  | [] => if mark.isEmpty then some ([], []) else none
  | c :: rest =>
    if mark.isPrefixOf (c :: rest) then some ([], (c :: rest).drop mark.length)
    else (breakOn? mark rest).map fun (before, after) => (c :: before, after)

def holds (text part : String) : Bool :=
  (breakOn? part.toList text.toList).isSome

def byteLength : List Char → Nat
  | [] => 0
  | c :: rest => c.utf8Size + byteLength rest

/-- A text found is the text before the mark, the mark and the text after it. -/
theorem breakOn?_eq_some {mark cs before after : List Char}
    (h : breakOn? mark cs = some (before, after)) : cs = before ++ mark ++ after := by
  induction cs generalizing before after with
  | nil =>
    simp only [breakOn?] at h
    split at h
    · next hm => simp_all
    · simp at h
  | cons c rest ih =>
    simp only [breakOn?] at h
    split at h
    · next hm =>
      obtain ⟨tail, ht⟩ := List.isPrefixOf_iff_prefix.mp hm
      simp only [Option.some.injEq, Prod.mk.injEq] at h
      obtain ⟨rfl, rfl⟩ := h
      rw [← ht]
      simp
    · obtain ⟨⟨b, a⟩, hb, he⟩ := Option.map_eq_some_iff.mp h
      simp only [Prod.mk.injEq] at he
      obtain ⟨rfl, rfl⟩ := he
      rw [ih hb]
      simp

end Dialogue.Text
