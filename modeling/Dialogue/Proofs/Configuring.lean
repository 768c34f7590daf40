import Dialogue.Proofs.Assigning
import Dialogue.Proofs.Reloading
/-!
What a host decides. Main statements: each field is as the environment sets it, else as the file
does, else the standard one; and a configuration that is written, as a record or in lines, is read
again.
-/
namespace Dialogue.Config

open Json (Written Decode member bind_reads forall_bind)

structure Fits (c : Config) : Prop where
  continuations : c.continuations < twoTo 32
  window : c.window < twoTo 64
  channels : c.channels < twoTo 16

theorem standard_fits : standard.Fits := ⟨by decide, by decide, by decide⟩

def Takes {α : Type} (set? : Option Setting) (read : Setting → Option α) (standard field : α) :
    Prop :=
  set?.elim (some standard) read = some field

structure Follows (c : Config) (set? : String → Option Setting) : Prop where
  continuations : Takes (set? "max_auto_continuations") (Setting.nat? 32) standard.continuations
    c.continuations
  window : Takes (set? "history_window") (Setting.nat? 64) standard.window c.window
  channels : Takes (set? "channels") (Setting.nat? 16) standard.channels c.channels
  language : Takes (set? "default_language") Setting.string? standard.language c.language

theorem ofSettings_iff (set : Table Setting) (c : Config) :
    ofSettings set = some c ↔ c.Follows set.get? := by
  unfold ofSettings
  simp only [Option.bind_eq_bind, Option.bind_eq_some_iff]
  constructor
  · rintro ⟨continuations, h₁, window, h₂, channels, h₃, language, h₄, whole⟩
    cases whole
    exact ⟨h₁, h₂, h₃, h₄⟩
  · rintro ⟨h₁, h₂, h₃, h₄⟩
    exact ⟨_, h₁, _, h₂, _, h₃, _, h₄, rfl⟩

/-- A configuration is loaded if the file can be read, and each field is then what the environment
sets, else what the file sets, else the standard one. -/
theorem load_iff (file : Option String) (mark : String) (entries : Table String) (c : Config) :
    load file mark entries = some c ↔ ∃ set, settings? (file.getD "") = some set ∧
      c.Follows fun name => ((environment mark entries).get? name).or (set.get? name) := by
  have layered (set : Table Setting) : (set.overlay (environment mark entries)).get? = fun name =>
      ((environment mark entries).get? name).or (set.get? name) := by
    funext name
    have once : ((environment mark entries).map Prod.fst).Nodup := (Table.ordered_ofPairs _).nodup
    rw [Table.get?_overlay, Table.get?_reverse once]
  rw [load, Option.bind_eq_bind, Option.bind_eq_some_iff]
  simp only [ofSettings_iff, layered]

example :
    load (some "history_window = 4\nchannels = 2\n") "PARLEY__" [("parley__history_window", "6")] =
      some { standard with window := 6, channels := 2 } := by
  decide +kernel

theorem nat?_lt {bits n : Nat} {s : Setting} (read : s.nat? bits = some n) : n < twoTo bits :=
  of_decide_eq_true (Option.filter_eq_some_iff.mp read).2

theorem Follows.fits {c : Config} {set? : String → Option Setting} (h : c.Follows set?) : c.Fits := by
  have within {bits standard field : Nat} {given : Option Setting}
      (takes : Takes given (Setting.nat? bits) standard field) (low : standard < twoTo bits) :
      field < twoTo bits := by
    cases given with
    | none => cases takes; exact low
    | some s => exact nat?_lt takes
  exact ⟨within h.continuations (by decide), within h.window (by decide),
    within h.channels (by decide)⟩

/-- Nothing that does not bear the mark is looked at. -/
theorem load_marked (file : Option String) (mark : String) (entries : Table String) :
    load file mark (entries.filter fun entry =>
      mark.toLower.toList.isPrefixOf entry.1.toLower.toList) = load file mark entries := by
  rw [load, load, environment, environment]
  simp only [List.filter_filter, Bool.and_self]

/-- What is written as a record is read again. -/
theorem ofValue_written {c : Config} (fits : c.Fits) : ofValue c.toWritten.toValue = some c := by
  have number {bits n : Nat} (low : n < twoTo bits) : Decode.nat bits (.int n) = some n :=
    Json.nat_reads_as (Nat.le_sub_one_of_lt low)
  simp [ofValue, ofMembers, toWritten, Written.toValue_record, Decode.record, member,
    Decode.string, number fits.continuations, number fits.window, number fits.channels]

/-- A configuration that can be written in lines: numbers in files are signed, and no character of
the language is a control. -/
structure Plain (c : Config) : Prop extends Fits c where
  short : c.window < twoTo 63
  plain : ∀ ch ∈ c.language.toList, Setting.Quoted.isPlain ch = true

def assignments (c : Config) (h : c.Plain) : List Setting.Assignment :=
  let number (name : String) (n : Nat) (short : n < twoTo 63) (named : name.toList ≠ [])
      (bare : Setting.isBare name = true) : Setting.Assignment :=
    ⟨name, .int n, _, .int n short, named, bare⟩
  [number "max_auto_continuations" c.continuations (h.continuations.trans (by decide)) (by decide)
      (by decide),
    number "history_window" c.window h.short (by decide) (by decide),
    number "channels" c.channels (h.channels.trans (by decide)) (by decide) (by decide),
    ⟨"default_language", .text (String.ofList c.language.toList), _, .text _ h.plain, by decide,
      by decide⟩]

/-- What is written in lines is read again, if the environment says nothing. -/
theorem load_written {c : Config} (h : c.Plain) {mark : String} {entries : Table String}
    (silent : ∀ entry ∈ entries,
      mark.toLower.toList.isPrefixOf entry.1.toLower.toList = false) :
    load (some (Setting.Assignment.text (c.assignments h))) mark entries = some c := by
  have number {bits n : Nat} (low : n < twoTo bits) : Setting.nat? bits (.int n) = some n := by
    simp [Setting.nat?, low]
  have names : (c.assignments h).map Setting.Assignment.name =
      ["max_auto_continuations", "history_window", "channels", "default_language"] := rfl
  have once : ((c.assignments h).map Setting.Assignment.name).Nodup := by
    rw [names]
    decide
  obtain ⟨set, read, given⟩ := Setting.Assignment.settings?_text once
  have none : entries.filter (fun entry =>
      mark.toLower.toList.isPrefixOf entry.1.toLower.toList) = [] :=
    List.filter_eq_nil_iff.mpr fun entry listed => by rw [silent entry listed]; decide
  rw [← load_marked, none, load_iff]
  have field {α : Type} {name : String} {s : Setting} {read : Setting → Option α} {standard x : α}
      (found : Table.get? ((c.assignments h).map Setting.Assignment.entry) name = some s)
      (reads : read s = some x) :
      Takes (((environment mark []).get? name).or (set.get? name)) read standard x := by
    change Takes (set.get? name) read standard x
    rw [given, found]
    exact reads
  exact ⟨set, read, field rfl (number h.continuations), field rfl (number h.window),
    field rfl (number h.channels), field rfl (congrArg some String.ofList_toList)⟩

end Dialogue.Config
