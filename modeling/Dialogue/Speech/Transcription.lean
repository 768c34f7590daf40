import Dialogue.Text
/-! From sound to text. A transcriber may hear nothing, and it may fail. -/
namespace Dialogue.Speech

structure Transcriber (σ : Type) where
  /-- The text heard in bytes of sound, given their rate, their channels and the language. -/
  hear : List UInt8 → Nat → Nat → String → σ → Except String (Option String) × σ

/-- The text in bytes of sound, trimmed. Empty sound is not sent, and blank text is none. -/
def Transcriber.transcribe {σ : Type} (t : Transcriber σ) (bytes : List UInt8)
    (rate channels : Nat) (language : String) (state : σ) : Except String (Option String) × σ :=
  if bytes.isEmpty then (.ok none, state)
  else
    match t.hear bytes rate channels language state with
    | (.ok text, state) => (.ok ((text.map Text.trimmed).filter (· ≠ "")), state)
    | (.error e, state) => (.error e, state)

def Transcriber.scripted : Transcriber (List (Except String String)) where
  hear _ _ _ _
    | [] => (.ok none, [])
    | .ok text :: rest => (.ok (some text), rest)
    | .error e :: rest => (.error e, rest)

def transcriptionMessage (e : String) : String := "Transcription error: " ++ e

end Dialogue.Speech
