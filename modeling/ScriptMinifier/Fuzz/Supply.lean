import ScriptMinifier.Utf8

namespace ScriptMinifier.Fuzz

/-- The bytes that a test input is made of. Choices are taken from the front and lengths from the
back, so that a change to one piece disturbs the others little. -/
abbrev Supply := List UInt8

namespace Supply

def chooseIndex (n : Nat) (supply : Supply) : Nat × Supply :=
  ((supply.headD 0).toNat % n, supply.tail)

def lengthWidth (size : Nat) : Nat :=
  if size ≤ 0x100 then 1 else if size ≤ 0x10001 then 2 else if size ≤ 0x100000003 then 4 else 8

def bigEndian (bytes : List UInt8) : Nat := bytes.foldl (fun n b ↦ n * 256 + b.toNat) 0

/-- A length that what remains of the supply can satisfy. Of the bytes set aside it uses only as
many as the greatest such length takes to write down. -/
def chooseLength (supply : Supply) : Nat × Supply :=
  let size := supply.length - lengthWidth supply.length
  let digits := (supply.drop size).take (size.log2 / 8 + 1)
  (bigEndian digits % (size + 1), supply.take size)

def chooseText (supply : Supply) : List UInt8 :=
  let (length, supply) := supply.chooseLength
  Utf8.validPart (supply.take length)

end Supply

end ScriptMinifier.Fuzz
