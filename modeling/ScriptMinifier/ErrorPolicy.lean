import ScriptMinifier.Minify

namespace ScriptMinifier

structure Halt where
  message : String
deriving DecidableEq, Repr

/-- Whether a malformed script is reported to the caller or, for testing, halts the program. -/
inductive ErrorPolicy where
  | report
  | halt
deriving DecidableEq, Repr

namespace ErrorPolicy

def settle {α : Type} (policy : ErrorPolicy) (result : Except Unterminated α) :
    Except Halt (Except Unterminated α) :=
  match policy, result with
  | .halt, .error e => .error ⟨e.message⟩
  | _, _ => .ok result

def minifyRepeatedly (policy : ErrorPolicy) (options : Options) :
    (passes : Nat) → String → Except Halt (List (Except Unterminated String))
  | 0, _ => .ok []
  | passes + 1, source => do
    match ← policy.settle (minifyText options source) with
    | .ok text => return .ok text :: (← minifyRepeatedly policy options passes text)
    | .error e => return [.error e]

end ErrorPolicy

end ScriptMinifier
