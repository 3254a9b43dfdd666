import ScriptMinifier.Minify

namespace ScriptMinifier

inductive Value where
  | null
  | flag (b : Bool)
  | integer (n : Int)
  | fraction
  | text (s : String)
  | list (items : List Value)
  | record (fields : List (String × Value))
deriving Inhabited

namespace Value

def flag? : Value → Option Bool
  | .flag b => some b
  | _ => none

def text? : Value → Option String
  | .text s => some s
  | _ => none

def naturalBound : Nat := 18446744073709551616

def natural? : Value → Option Nat
  | .integer n => if 0 ≤ n ∧ n < naturalBound then some n.toNat else none
  | _ => none

/-- The values of the named fields, taken from a record that has them all or from a list that
holds nothing else. -/
def fields? (names : List String) : Value → Option (List Value)
  | .record fields => names.mapM fun name ↦ fields.lookup name
  | .list items => if items.length = names.length then some items else none
  | _ => none

end Value

namespace Options

def toValue (options : Options) : Value := .record [("trim", .flag options.trim)]

def ofValue? (value : Value) : Option Options := do
  let [trim] ← value.fields? ["trim"] | none
  return ⟨← trim.flag?⟩

end Options

namespace Construct

def tag : Construct → String
  | .comment => "UnterminatedComment"
  | .string => "UnterminatedString"
  | .regex => "UnterminatedRegex"

def ofTag? (tag : String) : Option Construct :=
  [comment, string, regex].find? fun construct ↦ construct.tag = tag

def toValue (construct : Construct) : Value := .text construct.tag

def ofValue? : Value → Option Construct
  | .text tag => ofTag? tag
  | .record [(tag, .null)] => ofTag? tag
  | _ => none

end Construct

namespace Unterminated

def toValue (e : Unterminated) : Value :=
  .record [("kind", e.construct.toValue), ("line", .integer e.position.line),
    ("column", .integer e.position.column)]

def ofValue? (value : Value) : Option Unterminated := do
  let [kind, line, column] ← value.fields? ["kind", "line", "column"] | none
  return ⟨← Construct.ofValue? kind, ← line.natural?, ← column.natural?⟩

end Unterminated

end ScriptMinifier
