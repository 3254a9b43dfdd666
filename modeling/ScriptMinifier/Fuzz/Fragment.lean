import ScriptMinifier.Byte
import ScriptMinifier.Fuzz.Supply

namespace ScriptMinifier.Fuzz

open Byte

inductive Fragment where
  | stringLiteral (quote : UInt8) (body : List UInt8)
  | blockComment (body : List UInt8)
  | word (bytes : List UInt8)
deriving DecidableEq, Repr

namespace Fragment

def words : List (List UInt8) :=
  ["/*", "*/", "//", "/", "'", "\"", "\\", "=", "(", ")", "\x7b", "\x7d", "[", "]", ";", ",", "+",
    "-", "++", "!", "?", ":", "&&", "||", "return", "var", "x", "$_", "42", "é"].map Utf8.encode ++
    [[0xFF]]

def isPlain (quote c : UInt8) : Bool := c != quote && c != backslash && space ≤ c

/-- Strikes out comment closers from left to right, once. -/
def withoutClosers : List UInt8 → List UInt8
  | [] => []
  | [c] => [c]
  | c :: d :: text =>
    if c = asterisk ∧ d = slash then withoutClosers text else c :: withoutClosers (d :: text)

def ofSupply (supply : Supply) : Fragment :=
  match supply.chooseIndex 4 with
  | (0, supply) =>
    let (index, supply) := supply.chooseIndex 2
    let quote := if index = 0 then singleQuote else doubleQuote
    .stringLiteral quote (supply.chooseText.filter (isPlain quote))
  | (1, supply) => .blockComment (withoutClosers supply.chooseText)
  | (_, supply) => .word (words.getD (supply.chooseIndex words.length).1 [])

def bytes : Fragment → List UInt8
  | .stringLiteral quote body => quote :: body ++ [quote]
  | .blockComment body => slash :: asterisk :: body ++ [asterisk, slash]
  | .word bytes => bytes

end Fragment

end ScriptMinifier.Fuzz
