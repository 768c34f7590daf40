import Dialogue.Engine.Setting
/-!
Strings in quotes. Between double quotes a backslash begins an escape, between single ones it
stands for itself; three quotes of either kind hold a string that may go over several lines.
-/
namespace Dialogue.Setting.Quoted

def isPlain (c : Char) : Bool :=
  c == '\t' || (32 ≤ c.toNat && c.toNat != 127)

def coded? (count : Nat) (cs : List Char) : Option Char := do
  let code ← Literal.inBase? 16 (cs.take count)
  if count ≤ cs.length ∧ code.isValidChar then some (Char.ofNat code) else none

def escape? : List Char → Option (Char × Nat)
  | [] => none
  | c :: rest =>
    if c = '"' ∨ c = '\\' then some (c, 1)
    else if c = 'b' then some ('\x08', 1)
    else if c = 't' then some ('\t', 1)
    else if c = 'n' then some ('\n', 1)
    else if c = 'f' then some ('\x0c', 1)
    else if c = 'r' then some ('\r', 1)
    else if c = 'u' then (coded? 4 rest).map (·, 5)
    else if c = 'U' then (coded? 8 rest).map (·, 9)
    else none

def short? (quote : Char) (cs : List Char) : Option (List Char × List Char) :=
  match cs with
  | [] => none
  | c :: rest =>
    if c = quote then some ([], rest)
    else if c = '\\' ∧ quote = '"' then
      (escape? rest).bind fun (escaped, taken) =>
        (short? quote (rest.drop taken)).map fun (body, rest) => (escaped :: body, rest)
    else if isPlain c then
      (short? quote rest).map fun (body, rest) => (c :: body, rest)
    else none
termination_by cs.length
decreasing_by all_goals simp only [List.length_drop, List.length_cons]; omega

def joined? (cs : List Char) : Option (List Char) :=
  match cs.dropWhile isGap with
  | '\n' :: rest => some (rest.dropWhile fun c => isGap c || c == '\n')
  | _ => none

theorem joined?_length {cs rest : List Char} (h : joined? cs = some rest) :
    rest.length < cs.length := by
  unfold joined? at h
  split at h
  · next tail heq =>
    cases h
    have hd := (List.dropWhile_suffix isGap (l := cs)).length_le
    have ht := (List.dropWhile_suffix (fun c => isGap c || c == '\n') (l := tail)).length_le
    rw [heq, List.length_cons] at hd
    omega
  · cases h

/-- The characters behind three opening quotes up to the closing ones, and what follows them. Of
up to five quotes at the end the first belong to the string. -/
def long? (quote : Char) (cs : List Char) : Option (List Char × List Char) :=
  match cs with
  | [] => none
  | c :: rest =>
    if [quote, quote, quote].isPrefixOf (c :: rest) then
      let behind := rest.drop 2
      let more := min 2 (behind.takeWhile (· == quote)).length
      some (List.replicate more quote, behind.drop more)
    else if c = '\\' ∧ quote = '"' then
      match h : joined? rest with
      | some joined =>
        have := joined?_length h
        long? quote joined
      | none =>
        (escape? rest).bind fun (escaped, taken) =>
          (long? quote (rest.drop taken)).map fun (body, rest) => (escaped :: body, rest)
    else if isPlain c || c == '\n' then
      (long? quote rest).map fun (body, rest) => (c :: body, rest)
    else none
termination_by cs.length
decreasing_by all_goals simp only [List.length_drop, List.length_cons]; omega

def opened (cs : List Char) : List Char :=
  match cs with
  | '\n' :: rest => rest
  | cs => cs

def string? (cs : List Char) : Option (List Char × List Char) :=
  match cs with
  | '"' :: '"' :: '"' :: rest => long? '"' (opened rest)
  | '\'' :: '\'' :: '\'' :: rest => long? '\'' (opened rest)
  | '"' :: rest => short? '"' rest
  | '\'' :: rest => short? '\'' rest
  | _ => none

def isOpen (cs : List Char) : Bool :=
  (['"', '"', '"'].isPrefixOf cs || ['\'', '\'', '\''].isPrefixOf cs) && (string? cs).isNone

end Dialogue.Setting.Quoted
