import ScriptMinifier.Symbol

namespace ScriptMinifier

open Byte

/-- What a text holds next once comments are passed over. Where it holds a byte, `rest` is the
text after it; otherwise nothing is left. -/
inductive Uncommented where
  | byte (c : UInt8) (rest : List Symbol)
  | finished
  | unclosedComment
deriving DecidableEq, Repr

namespace Uncommented

def afterLineComment : List Symbol → Uncommented
  | [] => .finished
  | σ :: rest => if σ.byte = newline then .byte newline rest else afterLineComment rest

def afterBlockComment : List Symbol → Uncommented
  | [] => .unclosedComment
  | [_] => .unclosedComment
  | σ :: τ :: rest =>
    if σ.byte = asterisk ∧ τ.byte = slash then .byte space rest else afterBlockComment (τ :: rest)

def afterSlash : List Symbol → Uncommented
  | [] => .byte slash []
  | σ :: rest =>
    if σ.byte = slash then afterLineComment rest
    else if σ.byte = asterisk then afterBlockComment rest
    else .byte slash (σ :: rest)

def next : List Symbol → Uncommented
  | [] => .finished
  | σ :: rest => if σ.byte = slash then afterSlash rest else .byte σ.byte rest

def rest : Uncommented → List Symbol
  | .byte _ rest => rest
  | .finished | .unclosedComment => []

theorem suffix_of_afterLineComment {text rest : List Symbol} {c : UInt8}
    (h : afterLineComment text = .byte c rest) : rest <:+ text := by
  fun_induction afterLineComment text with
  | case1 => simp at h
  | case2 σ text hσ =>
    cases h
    exact List.suffix_cons σ rest
  | case3 σ text hσ ih => exact (ih h).trans (List.suffix_cons σ text)

theorem suffix_of_afterBlockComment {text rest : List Symbol} {c : UInt8}
    (h : afterBlockComment text = .byte c rest) : rest <:+ text := by
  fun_induction afterBlockComment text with
  | case1 | case2 => simp at h
  | case3 σ τ text hσ =>
    cases h
    exact ⟨[σ, τ], rfl⟩
  | case4 σ τ text hσ ih => exact (ih h).trans (List.suffix_cons σ _)

theorem suffix_of_afterSlash {text rest : List Symbol} {c : UInt8}
    (h : afterSlash text = .byte c rest) : rest <:+ text := by
  cases text with
  | nil =>
    cases h
    exact List.suffix_refl _
  | cons σ text =>
    rw [afterSlash] at h
    split at h
    · exact (suffix_of_afterLineComment h).trans (List.suffix_cons σ text)
    · split at h
      · exact (suffix_of_afterBlockComment h).trans (List.suffix_cons σ text)
      · cases h
        exact List.suffix_refl _

theorem length_lt_of_next {text rest : List Symbol} {c : UInt8} (h : next text = .byte c rest) :
    rest.length < text.length := by
  cases text with
  | nil => simp [next] at h
  | cons σ text =>
    rw [next] at h
    split at h
    · exact Nat.lt_succ_of_le (suffix_of_afterSlash h).length_le
    · cases h
      exact Nat.lt_succ_self _

end Uncommented

end ScriptMinifier
