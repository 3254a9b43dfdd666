import ScriptMinifier.Byte
import ScriptMinifier.Utf8

namespace ScriptMinifier

open Byte

/-- A place in a text; lines and columns are counted from one, columns in characters. -/
structure Position where
  line : Nat
  column : Nat
deriving DecidableEq, Repr

namespace Position

def endsLine (c : UInt8) (after : List UInt8) : Bool :=
  c == newline || (c == carriageReturn && after.head? != some newline)

/-- The line that the end of a text lies on and the part of the text on that line, where `current`
is what has been read of line `line` so far together with the text still to be searched. -/
def lastLine (line : Nat) (current : List UInt8) : List UInt8 → Nat × List UInt8
  | [] => (line, current)
  | c :: after =>
    if endsLine c after then lastLine (line + 1) after after else lastLine line current after

def ofEnd (text : List UInt8) : Position :=
  let (line, current) := lastLine 1 text text
  ⟨line, Utf8.charCount current + 1⟩

def ofOffset (text : List UInt8) (offset : Nat) : Position := ofEnd (text.take offset)

end Position

end ScriptMinifier
