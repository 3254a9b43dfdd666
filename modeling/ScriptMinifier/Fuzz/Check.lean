import ScriptMinifier.Minify

namespace ScriptMinifier.Fuzz

def textAgrees (options : Options) (source : String) : Bool :=
  match minifyText options source, minifyWith options (Utf8.encode source) with
  | .ok text, .ok bytes =>
    Utf8.encode text == bytes && text.utf8ByteSize ≤ source.utf8ByteSize + 1
  | .error e, .error e' => e == e'
  | _, _ => false

def bytesBounded (options : Options) (source : List UInt8) : Bool :=
  match minifyWith options source with
  | .ok bytes => bytes.length ≤ source.length + 1
  | .error _ => true

/-- The checks on a test input. Its first byte holds two flags: whether to trim, and whether to
read the rest as text. -/
def accepts : List UInt8 → Bool
  | [] => true
  | flags :: source =>
    let options : Options := ⟨flags &&& 1 != 0⟩
    if flags &&& 2 != 0 then textAgrees options (Utf8.decode source)
    else bytesBounded options source

end ScriptMinifier.Fuzz
