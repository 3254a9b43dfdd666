import ScriptMinifier.Position

namespace ScriptMinifier

inductive Construct where
  | comment
  | string
  | regex
deriving DecidableEq, Repr

namespace Construct

def description : Construct → String
  | .comment => "unterminated comment"
  | .string => "unterminated string literal"
  | .regex => "unterminated regular expression literal"

end Construct

/-- The one way in which a script is malformed: a construct that opens at `position` is never
closed. -/
structure Unterminated where
  construct : Construct
  position : Position
deriving DecidableEq, Repr

namespace Unterminated

def message (e : Unterminated) : String :=
  s!"{e.construct.description} at {e.position.line}:{e.position.column}"

end Unterminated

end ScriptMinifier
