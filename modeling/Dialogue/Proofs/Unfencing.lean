import Dialogue.Execution.Run
import Dialogue.Proofs.Finding
import Dialogue.Proofs.Lexing
import Dialogue.Proofs.Reading
/-!
Replies in a fence. Main statement: a conversation reads an object in a fence as the object alone,
unless the object holds the mark of a fence itself; then it reads nothing.
-/
namespace Dialogue

open Json (Value)
open Json.Reader (IsSpace)
open Dialogue.Flow (Conversation)

variable {σ τ : Type}

namespace Extraction

/-- The text on lines of its own between two marks, the first with a tag or without one, and blanks
anywhere around them. -/
def Fenced (text reply : List Char) : Prop :=
  ∃ front tag opening closing back, reply =
    front ++ ((fence ++ (tag ++ (opening ++ (text ++ (closing ++ fence))))) ++ back) ∧
    (tag = [] ∨ tag = "json".toList) ∧ '\n' ∈ opening ∧ '\n' ∈ closing ∧
    ∀ c ∈ front ++ opening ++ closing ++ back, Text.isBlank c = true

def found (names : List String) (ms : Table Value) : Table Value :=
  Table.ofPairs (names.filterMap fun name =>
    match Table.get? ms name with
    | none | some .null => none
    | some v => some (name, v))

def fencing (tag text : String) : String := "```" ++ tag ++ "\n" ++ text ++ "\n```"

theorem fenced_fencing {tag : String} (tagged : tag = "" ∨ tag = "json") (text : String) :
    Fenced text.toList (fencing tag text).toList := by
  refine ⟨[], tag.toList, ['\n'], ['\n'], [], by simp [fencing, fence], ?_, by decide, by decide,
    List.all_eq_true.mp rfl⟩
  exact tagged.imp (congrArg String.toList) (congrArg String.toList)

theorem ofReply_object {names : List String} {reply : String} {ms : Table Value}
    (h : Value.ofText? (unfenced reply) = some (.object ms)) :
    ofReply names reply = found names ms := by
  rw [ofReply, h]
  rfl

theorem ofReply_other {names : List String} {reply : String}
    (h : ∀ ms, Value.ofText? (unfenced reply) ≠ some (.object ms)) : ofReply names reply = [] := by
  unfold ofReply
  split
  · exact absurd ‹_› (h _)
  · rfl

theorem isBlank_of_isSpace {c : Char} (space : IsSpace c) : Text.isBlank c = true := by
  rcases space with rfl | rfl | rfl | rfl <;> rfl

/-- A text that is an object stays one without the blanks around it. -/
theorem trim_object {t : String} {ms : Table Value} (h : Value.ofText? t = some (.object ms)) :
    ∃ body, (∀ behind, (∀ c ∈ behind, Text.isBlank c = true) →
      Text.trim (t.toList ++ behind) = '\x7b' :: (body ++ ['\x7d'])) ∧
        Value.ofText? (String.ofList ('\x7b' :: (body ++ ['\x7d']))) = some (.object ms) := by
  obtain ⟨front, body, back, split, spaces, reads⟩ := Value.ofText?_object h
  refine ⟨body, fun behind blank => ?_, Value.ofText?_braces reads⟩
  have blanks : ∀ c ∈ front ++ back, Text.isBlank c = true :=
    fun c hc => isBlank_of_isSpace (spaces c hc)
  rw [List.forall_mem_append] at blanks
  have parts : t.toList ++ behind = front ++ ('\x7b' :: (body ++ ['\x7d']) ++ (back ++ behind)) := by
    simp [split]
  rw [parts]
  refine Text.trim_around blanks.1 (List.forall_mem_append.mpr ⟨blanks.2, blank⟩) ?_ ?_
    (List.cons_ne_nil _ _)
  · rintro c ⟨⟩
    rfl
  · rw [← List.cons_append, List.getLast?_concat]
    rintro c ⟨⟩
    rfl

/-- No object goes on behind another one that it begins with, but for blanks. -/
theorem object_ends {t p : String} {ms ms' : Table Value} {blanks rest : List Char}
    (whole : Value.ofText? t = some (.object ms)) (part : Value.ofText? p = some (.object ms'))
    (blank : ∀ c ∈ blanks, Text.isBlank c = true) (split : t.toList = blanks ++ p.toList ++ rest) :
    ∀ c ∈ rest, IsSpace c := by
  obtain ⟨front, body, back, hwhole, spaces, reads⟩ := Value.ofText?_object whole
  obtain ⟨front', body', back', hpart, spaces', reads'⟩ := Value.ofText?_object part
  rw [List.forall_mem_append] at spaces spaces'
  have same : '\x7b' :: (body ++ '\x7d' :: back) =
      '\x7b' :: (body' ++ '\x7d' :: (back' ++ rest)) := by
    have visible (rest : List Char) : Text.trimFront ('\x7b' :: rest) = '\x7b' :: rest := rfl
    have shown := congrArg Text.trimFront (hwhole.symm.trans split)
    rw [hpart, Text.trimFront_blanks (fun c hc => isBlank_of_isSpace (spaces.1 c hc)),
      List.append_assoc, Text.trimFront_blanks blank, List.append_assoc,
      Text.trimFront_blanks (fun c hc => isBlank_of_isSpace (spaces'.1 c hc))] at shown
    simpa [visible] using shown
  have read := reads (body.length + body'.length + 3) back (by omega)
  rw [same, reads' _ _ (by omega)] at read
  cases read
  exact fun c hc => spaces.2 c (List.mem_append_right _ hc)

section Fences
variable {text rest tag opening closing piece after : List Char} {t reply : String}

theorem outside_fence {c : Char} (blank : Text.isBlank c = true) : c ∉ fence := by
  intro mark
  rw [show fence = ['\x60', '\x60', '\x60'] from rfl] at mark
  simp only [List.mem_cons, or_self, List.not_mem_nil, or_false] at mark
  subst mark
  cases blank

/-- The tag and the first line of a reply hold no mark. -/
theorem breakOn?_opening (tagged : tag = [] ∨ tag = "json".toList)
    (blank : ∀ c ∈ opening, Text.isBlank c = true) (rest : List Char) :
    Text.breakOn? fence (tag ++ (opening ++ rest)) =
      (Text.breakOn? fence rest).map fun (before, after) => (tag ++ (opening ++ before), after) := by
  have free : ∀ c ∈ tag, c ∉ fence := by
    rcases tagged with rfl | rfl
    · exact nofun
    · have apart : "json".toList.all (fun c => decide (c ∉ fence)) = true := by decide
      exact fun c hc => of_decide_eq_true (List.all_eq_true.mp apart c hc)
  rw [Text.breakOn?_free (by decide) free,
    Text.breakOn?_free (by decide) fun c hc => outside_fence (blank c hc), Option.map_map]
  rfl

/-- The mark on the last line is the first one behind a text that holds none. -/
theorem breakOn?_closing (absent : ¬ fence <:+: text) (some : closing ≠ [])
    (blank : ∀ c ∈ closing, Text.isBlank c = true) :
    Text.breakOn? fence (text ++ (closing ++ fence)) = .some (text ++ closing, []) := by
  obtain ⟨c, closing, rfl⟩ := List.exists_cons_of_ne_nil some
  rw [List.forall_mem_cons] at blank
  have last : Text.breakOn? fence (fence ++ []) = .some ([], []) := Text.breakOn?_here []
  rw [List.append_nil] at last
  rw [List.cons_append, Text.breakOn?_across (outside_fence blank.1) absent,
    Text.breakOn?_free (by decide) fun c hc => outside_fence (blank.2 c hc), last]
  simp

/-- What is left of a reply is the piece behind its first line and before the next mark. -/
theorem unfenced_piece (shown : Text.trim reply.toList = fence ++ rest)
    (broken : Text.breakOn? fence rest = some (tag ++ (opening ++ piece), after))
    (tagged : tag = [] ∨ tag = "json".toList) (some : opening ≠ [])
    (blank : ∀ c ∈ opening, Text.isBlank c = true) :
    unfenced reply = String.ofList (Text.trim piece) := by
  have starts : fence.isPrefixOf (fence ++ rest) = true :=
    List.isPrefixOf_iff_prefix.mpr (List.prefix_append _ _)
  have untagged : (if "json".toList.isPrefixOf (tag ++ (opening ++ piece)) then
      (tag ++ (opening ++ piece)).drop "json".toList.length else tag ++ (opening ++ piece)) =
      opening ++ piece := by
    rcases tagged with rfl | rfl
    · obtain ⟨c, opening, rfl⟩ := List.exists_cons_of_ne_nil some
      refine if_neg fun begins => ?_
      have first : 'j' = c :=
        (List.cons_prefix_cons.mp (List.isPrefixOf_iff_prefix.mp begins)).1
      subst first
      cases blank 'j' List.mem_cons_self
    · rw [if_pos (List.isPrefixOf_iff_prefix.mpr (List.prefix_append _ _)), List.drop_left]
  simp only [unfenced, shown, starts, if_true, List.drop_left, broken]
  rw [untagged, Text.trim_front blank]

theorem ofReply_bare {ms : Table Value} (object : Value.ofText? t = some (.object ms))
    (names : List String) : ofReply names t = found names ms := by
  obtain ⟨body, trimmed, reads⟩ := trim_object object
  have shown := trimmed [] nofun
  rw [List.append_nil] at shown
  refine ofReply_object ?_
  rw [unfenced, shown]
  exact reads

theorem ofReply_fenced {ms : Table Value} (object : Value.ofText? t = some (.object ms))
    (fenced : Fenced t.toList reply.toList) (names : List String) :
    ofReply names reply = if Text.holds t "```" then [] else found names ms := by
  obtain ⟨front, tag, opening, closing, back, split, tagged, line, line', blank⟩ := fenced
  simp only [List.forall_mem_append] at blank
  obtain ⟨⟨⟨before, inside⟩, inside'⟩, behind⟩ := blank
  have shown : Text.trim reply.toList =
      fence ++ (tag ++ (opening ++ (t.toList ++ (closing ++ fence)))) := by
    rw [split]
    refine Text.trim_around before behind ?_ ?_ (List.append_ne_nil_of_left_ne_nil (by decide) _)
    · rintro c ⟨⟩
      rfl
    · simp only [← List.append_assoc]
      rw [List.getLast?_append]
      rintro c ⟨⟩
      rfl
  have broken := breakOn?_opening tagged inside (t.toList ++ (closing ++ fence))
  cases inner : Text.breakOn? fence t.toList with
  | none =>
    rw [breakOn?_closing (Text.breakOn?_eq_none_iff.mp inner) (List.ne_nil_of_mem line') inside']
      at broken
    obtain ⟨body, trimmed, reads⟩ := trim_object object
    rw [if_neg (by rw [Text.holds, show "```".toList = fence from rfl, inner]; decide)]
    refine ofReply_object ?_
    rw [unfenced_piece shown broken tagged (List.ne_nil_of_mem line) inside,
      trimmed closing inside', reads]
  | some parts =>
    obtain ⟨piece, after⟩ := parts
    rw [Text.breakOn?_append inner] at broken
    rw [if_pos (by rw [Text.holds, show "```".toList = fence from rfl, inner]; rfl)]
    refine ofReply_other fun ms' part => ?_
    rw [unfenced_piece shown broken tagged (List.ne_nil_of_mem line) inside] at part
    obtain ⟨blanks, rest, blank, hpiece⟩ := Text.trim_split piece
    rw [List.forall_mem_append] at blank
    -- The piece would be an object that the whole goes on behind, with a mark.
    have whole : t.toList =
        blanks ++ (String.ofList (Text.trim piece)).toList ++ (rest ++ fence ++ after) := by
      rw [String.toList_ofList, Text.breakOn?_eq_some inner, ← List.append_assoc,
        ← List.append_assoc, ← hpiece]
    have space := object_ends object part blank.1 whole '\x60' (by simp [fence])
    exact absurd space (by unfold IsSpace; decide)

end Fences

end Extraction

namespace Run

/-- An answer is read for the variables of the conversation. -/
theorem extractAll_answered {s : Services σ} {c : Conversation} {input reply : String} {w : World σ}
    (answer : (s.ask (Prompt.extractAll c.extracted input) none w).1 = .ok reply) :
    (extractAll s c (some input) w).1 = Extraction.ofReply c.extracted reply := by
  unfold extractAll
  dsimp only
  split
  · next unasked =>
    rw [List.isEmpty_iff.mp unasked, Extraction.ofReply]
    split <;> rfl
  · rw [answer]

/-- A conversation reads an object as it is. In a fence it reads the same of it unless the object
holds the mark of a fence and has one of the variables; then it reads nothing. -/
theorem fence_transparent_iff {s : Services σ} {s' : Services τ} {c : Conversation}
    {input t reply : String} {w : World σ} {w' : World τ} {ms : Table Value}
    (object : Value.ofText? t = some (.object ms))
    (fenced : Extraction.Fenced t.toList reply.toList)
    (answer : (s.ask (Prompt.extractAll c.extracted input) none w).1 = .ok reply)
    (answer' : (s'.ask (Prompt.extractAll c.extracted input) none w').1 = .ok t) :
    let read := (extractAll s c (some input) w).1
    let bare := (extractAll s' c (some input) w').1
    bare = Extraction.found c.extracted ms ∧
      (read = bare ↔ Text.holds t "```" = false ∨ bare = []) ∧ (read = bare ∨ read = []) := by
  dsimp only
  rw [extractAll_answered answer, extractAll_answered answer', Extraction.ofReply_bare object,
    Extraction.ofReply_fenced object fenced]
  cases Text.holds t "```" with
  | false => exact ⟨rfl, iff_of_true rfl (.inl rfl), .inl rfl⟩
  | true =>
    rw [if_pos rfl]
    exact ⟨rfl, ⟨fun same => .inr same.symm, fun same => (same.resolve_left nofun).symm⟩, .inr rfl⟩

def echo (reply : String) : Services Unit where
  generate := fun _ _ state => (.ok reply, state)
  functions := []
  transcriber := none
  observers := []

def note : Conversation := { Conversation.standard with extracted := ["a", "b"] }

def plain : String := "\x7b\"a\": \"x\", \"b\": null\x7d"

def quoting : String := "\x7b\"a\": \"```\"\x7d"

theorem ofText?_plain :
    Value.ofText? plain = some (.object [("a", .string "x"), ("b", .null)]) := by
  simp only [plain, Value.ofText?, String.reduceToList]
  rfl

theorem ofText?_quoting : Value.ofText? quoting = some (.object [("a", .string "```")]) := by
  simp only [quoting, Value.ofText?, String.reduceToList]
  rfl

theorem plain_fence_transparent :
    Value.ofText? plain = some (.object [("a", .string "x"), ("b", .null)]) ∧
      (extractAll (echo (Extraction.fencing "json" plain)) note (some "Hi") ⟨(), []⟩).1 =
        [("a", .string "x")] ∧
    Value.ofText? quoting = some (.object [("a", .string "```")]) ∧
      (extractAll (echo quoting) note (some "Hi") ⟨(), []⟩).1 = [("a", .string "```")] ∧
      (extractAll (echo (Extraction.fencing "" quoting)) note (some "Hi") ⟨(), []⟩).1 = [] := by
  have answer (reply : String) :
      ((echo reply).ask (Prompt.extractAll note.extracted "Hi") none ⟨(), []⟩).1 = .ok reply := rfl
  obtain ⟨bare, same, -⟩ := fence_transparent_iff ofText?_plain
    (Extraction.fenced_fencing (.inr rfl) plain) (answer _) (answer _)
  obtain ⟨bare', same', lost⟩ := fence_transparent_iff ofText?_quoting
    (Extraction.fenced_fencing (.inl rfl) quoting) (answer _) (answer _)
  have unmarked : Text.holds plain "```" = false := by decide +kernel
  refine ⟨ofText?_plain, (same.mpr (.inl unmarked)).trans bare, ofText?_quoting, bare',
    lost.resolve_left fun alike => ?_⟩
  rcases same'.mp alike with unmarked | none
  · revert unmarked
    decide +kernel
  · exact List.cons_ne_nil _ _ (bare'.symm.trans none)

/-- An object is lost that has a variable whose value holds the mark. -/
theorem quoted_fence_loses :
    ¬ ∀ (s s' : Services Unit) (c : Conversation) (input t reply : String) (w w' : World Unit)
      (ms : Table Value), Value.ofText? t = some (.object ms) →
      Extraction.Fenced t.toList reply.toList →
      (s.ask (Prompt.extractAll c.extracted input) none w).1 = .ok reply →
      (s'.ask (Prompt.extractAll c.extracted input) none w').1 = .ok t →
      (extractAll s c (some input) w).1 = (extractAll s' c (some input) w').1 := by
  intro same
  have alike := same (echo (Extraction.fencing "" quoting)) (echo quoting) note "Hi" quoting _
    ⟨(), []⟩ ⟨(), []⟩ [("a", .string "```")] ofText?_quoting
    (Extraction.fenced_fencing (.inl rfl) quoting) rfl rfl
  exact absurd (congrArg List.length alike) (by decide +kernel)

end Run

end Dialogue
