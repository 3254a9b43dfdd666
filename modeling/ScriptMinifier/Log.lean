import ScriptMinifier.Minify

namespace ScriptMinifier

inductive LogLevel where
  | trace
  | debug
deriving DecidableEq, Repr

structure LogRecord where
  level : LogLevel
  text : String
deriving DecidableEq, Repr

namespace LogRecord

def ofResult (source : List UInt8) : Except Unterminated (List UInt8) → LogRecord
  | .ok text => ⟨.trace, s!"minified {source.length} bytes into {text.length}"⟩
  | .error e => ⟨.debug, s!"minify failed after reading {source.length} bytes: {e.message}"⟩

def ofText (options : Options) (source : String) : LogRecord :=
  ofResult (Utf8.encode source) (minifyWith options (Utf8.encode source))

end LogRecord

end ScriptMinifier
