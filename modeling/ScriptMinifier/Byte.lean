namespace ScriptMinifier.Byte

abbrev newline : UInt8 := 0x0A
abbrev carriageReturn : UInt8 := 0x0D
abbrev space : UInt8 := 0x20
abbrev doubleQuote : UInt8 := 0x22
abbrev singleQuote : UInt8 := 0x27
abbrev asterisk : UInt8 := 0x2A
abbrev plus : UInt8 := 0x2B
abbrev minus : UInt8 := 0x2D
abbrev slash : UInt8 := 0x2F
abbrev semicolon : UInt8 := 0x3B
abbrev backslash : UInt8 := 0x5C

def isDigit (c : UInt8) : Bool := 0x30 ≤ c && c ≤ 0x39

def isLetter (c : UInt8) : Bool := (0x41 ≤ c && c ≤ 0x5A) || (0x61 ≤ c && c ≤ 0x7A)

/-- Bytes that can belong to an identifier, a keyword or a number. All bytes above `0x7E` count,
so that no character outside ASCII has to be decoded. -/
def isWord (c : UInt8) : Bool :=
  isLetter c || isDigit c || c == 0x5F || c == 0x24 || c == backslash || 0x7E < c

/-- The bytes after which an expression may begin, so that a slash opens a regular expression. -/
def expressionOpeners : List UInt8 :=
  newline :: ['(', ',', '=', ':', '[', '!', '&', '|', '?', '{', '}', ';'].map Char.toUInt8

def opensExpression (c : UInt8) : Bool := expressionOpeners.contains c

def statementOpeners : List UInt8 := ['{', '[', '(', '+', '-'].map Char.toUInt8

def opensStatement (c : UInt8) : Bool := statementOpeners.contains c

def statementClosers : List UInt8 :=
  doubleQuote :: singleQuote :: ['}', ']', ')', '+', '-'].map Char.toUInt8

def closesStatement (c : UInt8) : Bool := statementClosers.contains c

def isBlank (c : UInt8) : Bool :=
  c == 0x09 || c == newline || c == 0x0C || c == carriageReturn || c == space

/-- A byte as it is read: both line terminators are line breaks, every other control byte is a
space. -/
def asRead (c : UInt8) : UInt8 :=
  if c = newline ∨ c = carriageReturn then newline else if c < space then space else c

end ScriptMinifier.Byte
