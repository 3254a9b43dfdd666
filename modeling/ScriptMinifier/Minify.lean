import ScriptMinifier.Machine

namespace ScriptMinifier

namespace Machine.Failure

def offset (source : List UInt8) (failure : Failure) : Nat :=
  source.length - Symbol.totalWidth failure.opening

def locate (source : List UInt8) (failure : Failure) : Unterminated :=
  ⟨failure.construct, .ofOffset source (failure.offset source)⟩

end Machine.Failure

/-- Removes comments and layout. Literals are kept as they are read, a space stays between two
words, and a line break stays between what may end a statement and what may begin one. -/
def minify (source : List UInt8) : Except Unterminated (List UInt8) :=
  (Machine.run (Symbol.ofText source)).mapError (Machine.Failure.locate source)

def trimBlanks (text : List UInt8) : List UInt8 :=
  ((text.dropWhile Byte.isBlank).reverse.dropWhile Byte.isBlank).reverse

structure Options where
  trim : Bool := false
deriving DecidableEq, Repr

namespace Options

def finish (options : Options) (text : List UInt8) : List UInt8 :=
  if options.trim then trimBlanks text else text

end Options

def minifyWith (options : Options) (source : List UInt8) : Except Unterminated (List UInt8) :=
  (minify source).map options.finish

def minifyText (options : Options) (source : String) : Except Unterminated String :=
  (minifyWith options (Utf8.encode source)).map Utf8.decode

end ScriptMinifier
