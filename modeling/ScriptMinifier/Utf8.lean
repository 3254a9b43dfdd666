namespace ScriptMinifier.Utf8

/-- A maximal piece of a byte string: one encoded character, or bytes that begin none and count
as one replacement character. -/
structure Piece where
  bytes : List UInt8
  char? : Option Char
deriving DecidableEq, Repr

/-- A character whose first bytes have been read. The next byte has to lie between `low` and
`high`; after it `missing` further continuation bytes are due. -/
structure Unfinished where
  bytes : List UInt8
  value : Nat
  low : UInt8
  high : UInt8
  missing : Nat
deriving DecidableEq, Repr

/-- The well-formed lead bytes. The bounds on the second byte exclude overlong forms, surrogates
and values above the last scalar. -/
def Unfinished.ofLead? (b : UInt8) : Option Unfinished :=
  let lead (low high : UInt8) (base missing : Nat) : Option Unfinished :=
    some ⟨[b], b.toNat - base, low, high, missing⟩
  if b < 0xC2 then none
  else if b < 0xE0 then lead 0x80 0xBF 0xC0 0
  else if b = 0xE0 then lead 0xA0 0xBF 0xE0 1
  else if b = 0xED then lead 0x80 0x9F 0xE0 1
  else if b < 0xF0 then lead 0x80 0xBF 0xE0 1
  else if b = 0xF0 then lead 0x90 0xBF 0xF0 2
  else if b < 0xF4 then lead 0x80 0xBF 0xF0 2
  else if b = 0xF4 then lead 0x80 0x8F 0xF0 2
  else none

structure Decoder where
  pieces : Array Piece
  unfinished? : Option Unfinished

namespace Decoder

def start : Decoder := ⟨#[], none⟩

def begin (pieces : Array Piece) (b : UInt8) : Decoder :=
  if b < 0x80 then ⟨pieces.push ⟨[b], some (Char.ofNat b.toNat)⟩, none⟩
  else match Unfinished.ofLead? b with
    | some p => ⟨pieces, some p⟩
    | none => ⟨pieces.push ⟨[b], none⟩, none⟩

def feed (d : Decoder) (b : UInt8) : Decoder :=
  match d.unfinished? with
  | none => begin d.pieces b
  | some p =>
    if p.low ≤ b ∧ b ≤ p.high then
      let bytes := p.bytes ++ [b]
      let value := p.value * 64 + (b.toNat - 0x80)
      match p.missing with
      | 0 => ⟨d.pieces.push ⟨bytes, some (Char.ofNat value)⟩, none⟩
      | missing + 1 => ⟨d.pieces, some ⟨bytes, value, 0x80, 0xBF, missing⟩⟩
    else begin (d.pieces.push ⟨p.bytes, none⟩) b

def finish (d : Decoder) : Array Piece :=
  match d.unfinished? with
  | none => d.pieces
  | some p => d.pieces.push ⟨p.bytes, none⟩

end Decoder

def pieces (text : List UInt8) : List Piece := (text.foldl Decoder.feed .start).finish.toList

def charCount (text : List UInt8) : Nat := (pieces text).length

def decode (text : List UInt8) : String :=
  String.ofList ((pieces text).map fun piece ↦ piece.char?.getD '\uFFFD')

def encode (text : String) : List UInt8 := text.toByteArray.data.toList

def validPart (text : List UInt8) : List UInt8 :=
  ((pieces text).takeWhile fun piece ↦ piece.char?.isSome).flatMap Piece.bytes

end ScriptMinifier.Utf8
