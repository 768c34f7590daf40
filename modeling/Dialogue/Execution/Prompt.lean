import Dialogue.Flow.Node
import Dialogue.Variables
/-! The prompts that the generator is given. -/
namespace Dialogue.Prompt

open Dialogue.Flow (Conversation Example Wanted)

def reply (vars : Variables) (c : Conversation) (input : Option String) : String :=
  let shown (e : Example) := "User: " ++ e.user ++ "\nAgent: " ++ e.agent ++ "\n\n"
  let examples :=
    if c.examples.isEmpty then "" else "\n\nExamples:\n" ++ String.join (c.examples.map shown)
  let occasion :=
    match input with
    | some input => "\n\nUser: " ++ input ++ "\n\n"
    | none => "\n\nOpen the conversation.\n\n"
  vars.interpolate c.instruction ++ examples ++ occasion ++
    "Respond appropriately based on the instruction. Keep response concise for voice."

def extractAll (names : List String) (input : String) : String :=
  "Extract the following information from the user's message.\nVariables to extract: " ++
    String.intercalate ", " names ++ "\n\nUser said: \"" ++ input ++
    "\"\n\nFor each variable, return the extracted value. " ++
    "If a variable is not found, return null.\n" ++
    "Return as JSON object with variable names as keys.\n" ++
    "Only return the JSON, no explanation."

def extractOne (preamble : Option String) (w : Wanted) (input : String) : String :=
  let opening := match preamble with | some p => p ++ "\n\n" | none => ""
  let description := if w.description = "" then w.name else w.description
  opening ++ "Extract the " ++ description ++ " from this text.\nExpected type: " ++ w.type ++
    "\nText: \"" ++ input ++ "\"\n\nReturn only the extracted value, nothing else.\n" ++
    "If not found, return exactly \"null\"."

def judge (conditions : List String) (input : String) : String :=
  "Determine if the user's message matches these conditions:\n" ++
    String.intercalate "\n" (conditions.map fun c => "- " ++ c) ++
    "\n\nUser said: \"" ++ input ++
    "\"\n\nDoes the user's message satisfy ALL of these conditions?\n" ++
    "Reply with only \"yes\" or \"no\"."

end Dialogue.Prompt
