import ScriptMinifier.Value

namespace ScriptMinifier

structure Call where
  positional : List Value
  named : List (String × Value)

inductive CallError where
  | tooManyArguments
  | unknownParameter (name : String)
  | missingArgument (parameter : String)
  | repeatedArgument (parameter : String)
  | illTypedArgument (parameter : String)
deriving DecidableEq, Repr

namespace Call

structure Parameter where
  name : String
  default? : Option Bool
deriving DecidableEq, Repr

def parameters : List Parameter := [⟨"source", none⟩, ⟨"trim", some false⟩]

def argument? (call : Call) (place : Nat) (parameter : String) : Except CallError (Option Value) :=
  match call.positional[place]?, call.named.lookup parameter with
  | some _, some _ => .error (.repeatedArgument parameter)
  | some value, none | none, some value => .ok (some value)
  | none, none => .ok none

/-- The source and the options that a call gives. Its shape is checked before its values. -/
def arguments (call : Call) : Except CallError (String × Options) := do
  if parameters.length < call.positional.length then throw .tooManyArguments
  for (name, _) in call.named do
    if parameters.all fun parameter ↦ parameter.name ≠ name then throw (.unknownParameter name)
  let source? ← call.argument? 0 "source"
  let trim? ← call.argument? 1 "trim"
  let some source := source? | throw (.missingArgument "source")
  let some source := source.text? | throw (.illTypedArgument "source")
  let some trim := (trim?.getD (.flag false)).flag? | throw (.illTypedArgument "trim")
  return (source, ⟨trim⟩)

def answer (call : Call) : Except CallError (Except Unterminated String) := do
  let (source, options) ← call.arguments
  return minifyText options source

def functionName : String := "minify"

def functionDoc : String :=
  "Minify JavaScript source text.\n\nRaises `MinifyError` on malformed input. The GIL is " ++
    "released while the\nminifier runs."

def errorName : String := "MinifyError"

def errorDoc : String :=
  "Raised when a comment, string or regular expression literal is never terminated."

end Call

end ScriptMinifier
