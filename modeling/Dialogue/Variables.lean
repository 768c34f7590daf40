import Dialogue.Condition.Evaluation
import Dialogue.Template
/-!
The variables of a session and the log of their changes. Every write is logged; clearing starts
the log anew.
-/
namespace Dialogue

open Json (Value)

/-- An entry of the log: no old value where the name was new, no new one where it was taken out. -/
structure Change where
  name : String
  old : Option Value
  new : Option Value
  source : String

structure Variables where
  values : Table Value
  history : List Change

namespace Variables

def ofInitial (values : Table Value) : Variables := ⟨values, []⟩

def empty : Variables := ofInitial []

def get? (vars : Variables) (name : String) : Option Value :=
  vars.values.get? name

def getD (vars : Variables) (name : String) (default : Value) : Value :=
  (vars.get? name).getD default

def set (vars : Variables) (name : String) (value : Value) (source : String) : Variables where
  values := vars.values.insert name value
  history := vars.history ++ [⟨name, vars.get? name, some value, source⟩]

def delete (vars : Variables) (name : String) : Variables :=
  match vars.get? name with
  | none => vars
  | some old => ⟨vars.values.erase name, vars.history ++ [⟨name, some old, none, "delete"⟩]⟩

def isPresent (vars : Variables) (name : String) : Bool :=
  match vars.get? name with
  | none | some .null => false
  | some _ => true

def changesOf (vars : Variables) (name : String) : List Change :=
  vars.history.filter fun change => change.name = name

def setAll (vars : Variables) (entries : Table Value) (source : String) : Variables :=
  entries.foldl (fun vars entry => vars.set entry.1 entry.2 source) vars

/-- A template filled in from a table and, for the names it does not list, from the variables. -/
def interpolateWith (vars : Variables) (overlay : Table Value) (template : String) : String :=
  let lookup (name : String) := (overlay.get? name).or (vars.get? name)
  String.ofList (Template.expand lookup template.toList)

def interpolate (vars : Variables) (template : String) : String :=
  vars.interpolateWith [] template

def satisfies (vars : Variables) (equation : String) : Bool :=
  match Condition.ofText equation with
  | .ok condition => condition.eval vars.get?
  | .error _ => false

end Variables
end Dialogue
