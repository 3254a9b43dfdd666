import ScriptMinifier.Unterminated

namespace ScriptMinifier

open Byte

inductive Delimiter where
  | singleQuote
  | doubleQuote
  | slash
deriving DecidableEq, Repr

namespace Delimiter

def byte : Delimiter → UInt8
  | .singleQuote => Byte.singleQuote
  | .doubleQuote => Byte.doubleQuote
  | .slash => Byte.slash

def construct : Delimiter → Construct
  | .singleQuote | .doubleQuote => .string
  | .slash => .regex

/-- Quotes open a literal wherever they stand; whether a slash does depends on its place. -/
def ofQuote? (c : UInt8) : Option Delimiter :=
  if c = Byte.singleQuote then some .singleQuote
  else if c = Byte.doubleQuote then some .doubleQuote
  else none

end Delimiter

inductive LiteralRole where
  | content (c : UInt8)
  | escape
  | closing
  | broken
deriving DecidableEq, Repr

namespace LiteralRole

/-- A literal is broken by the end of the text and by a line break, whatever its terminator is; the
terminator comes before the backslash. -/
def ofByte? (terminator : UInt8) : Option UInt8 → LiteralRole
  | none => .broken
  | some c =>
    if c = newline then .broken
    else if c = terminator then .closing
    else if c = backslash then .escape
    else .content c

end LiteralRole

end ScriptMinifier
