import ScriptMinifier.Byte

namespace ScriptMinifier

open Byte

/-- What becomes of a byte that is held back, given the byte ahead of it: it is written, it is left out
for the byte ahead, or it stays and the byte ahead is left out. -/
inductive Decision where
  | write
  | erase
  | wait
deriving DecidableEq, Repr

namespace Decision

def ofSpace (ahead : Option UInt8) : Decision :=
  if ahead.any isWord then .write else .erase

def ofNewline (ahead : Option UInt8) : Decision :=
  if ahead.any opensStatement then .write
  else if ahead = some space then .wait
  else if ahead.any isWord then .write
  else .erase

/-- Every other byte is written, once the layout after it that cannot matter is out of the way. -/
def ofVisible (held : UInt8) (ahead : Option UInt8) : Decision :=
  if ahead = some space ∧ ¬isWord held then .wait
  else if ahead = some newline ∧ ¬(closesStatement held ∨ isWord held) then .wait
  else .write

def ofPair (held : UInt8) (ahead : Option UInt8) : Decision :=
  if held = space then ofSpace ahead
  else if held = newline then ofNewline ahead
  else ofVisible held ahead

theorem ahead_of_wait {held : UInt8} {ahead : Option UInt8} (h : ofPair held ahead = .wait) :
    ahead = some space ∨ ahead = some newline := by
  unfold ofPair ofSpace ofNewline ofVisible at h
  grind

end Decision

end ScriptMinifier
