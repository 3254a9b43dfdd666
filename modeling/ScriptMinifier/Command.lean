import ScriptMinifier.Minify

namespace ScriptMinifier

structure Response where
  status : UInt32
  output : List UInt8
  errors : String
deriving DecidableEq, Repr

namespace Response

/-- The trimmed script on a line of its own, or nothing but the error. -/
def ofInput (source : List UInt8) : Response :=
  match minifyWith ⟨true⟩ source with
  | .ok text => ⟨0, text ++ [Byte.newline], ""⟩
  | .error e => ⟨1, [], s!"error: {e.message}\n"⟩

end Response

end ScriptMinifier
