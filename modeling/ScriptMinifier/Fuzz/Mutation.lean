import ScriptMinifier.Fuzz.Fragment

namespace ScriptMinifier.Fuzz

/-- An endless sequence of random numbers and how many of them have been used. -/
structure Dice where
  roll : Nat → Nat
  used : Nat := 0

namespace Dice

def draw (low high : Nat) (dice : Dice) : Nat × Dice :=
  (low + dice.roll dice.used % (high - low + 1), { dice with used := dice.used + 1 })

def drawBytes : (count : Nat) → Dice → List UInt8 × Dice
  | 0, dice => ([], dice)
  | count + 1, dice =>
    let (b, dice) := dice.draw 0 255
    let (bytes, dice) := dice.drawBytes count
    (b.toUInt8 :: bytes, dice)

end Dice

structure Filling where
  buffer : List UInt8
  used : Nat
  dice : Dice

namespace Filling

def write? (bytes : List UInt8) (filling : Filling) : Option Filling :=
  let used := filling.used + bytes.length
  if used ≤ filling.buffer.length then
    some { filling with
      buffer := filling.buffer.take filling.used ++ bytes ++ filling.buffer.drop used
      used := used }
  else none

def room? (limit : Nat) (filling : Filling) : Option Nat :=
  if filling.used ≤ limit ∧ filling.used ≤ filling.buffer.length then some (limit - filling.used)
  else none

def blanks : List (List UInt8) :=
  [" ", "\t", "\n", "\r", "\r\n", "\x0b", "\x0c", "\u00a0", "\u2028", "\ufeff"].map Utf8.encode

def writeBlanks? (room : Nat) : (count : Nat) → Filling → Option Filling
  | 0, filling => some filling
  | count + 1, filling =>
    let (index, dice) := filling.dice.draw 0 (blanks.length - 1)
    let filling := { filling with dice }
    let blank := blanks.getD index []
    if room < blank.length then some filling
    else (filling.write? blank).bind (writeBlanks? (room - blank.length) count)

def appendBlanks? (limit : Nat) (filling : Filling) : Option Filling := do
  let room ← filling.room? limit
  if room = 0 then return filling
  let (count, dice) := filling.dice.draw 1 (min room 4)
  writeBlanks? room count { filling with dice }

def appendFragment? (limit : Nat) (filling : Filling) : Option Filling := do
  let room ← filling.room? limit
  let (bytes, dice) := filling.dice.drawBytes 16
  { filling with dice }.write? ((Fragment.ofSupply bytes).bytes.take room)

def fill? (limit target : Nat) (filling : Filling) : Option Filling :=
  if filling.used < target then
    match (filling.appendBlanks? limit).bind (appendFragment? limit) with
    | none => none
    | some next => if filling.used < next.used then next.fill? limit target else some next
  else some filling
termination_by target - filling.used

end Filling

/-- What the mutator does with a buffer: it leaves the bytes to the fuzzing engine, or it fills the
buffer anew. -/
inductive Mutation where
  | delegated (size limit : Nat)
  | filled (buffer : List UInt8) (length : Nat)
deriving DecidableEq, Repr

namespace Mutation

def header : Nat := 1

/-- One seed in ten, and every empty input, has the buffer filled anew. There is no result if a
step would leave the buffer. -/
def ofBuffer? (buffer : List UInt8) (size limit seed : Nat) (dice : Dice) : Option Mutation := do
  if limit ≤ header ∨ (header ≤ size ∧ seed % 10 ≠ 0) then return .delegated size limit
  let (flags, dice) := dice.draw 0 0xFFFFFFFF
  let filling ← Filling.write? [flags.toUInt8 &&& 3] ⟨buffer, 0, dice⟩
  let (target, dice) := filling.dice.draw header limit
  let filling ← { filling with dice }.fill? limit target
  return .filled filling.buffer filling.used

end Mutation

end ScriptMinifier.Fuzz
