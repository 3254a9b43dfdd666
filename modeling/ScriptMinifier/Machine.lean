import ScriptMinifier.Decision
import ScriptMinifier.Literal
import ScriptMinifier.Uncommented

namespace ScriptMinifier.Machine

open Byte

/-- In code the machine holds a byte back until it has seen the byte ahead, which it found by
reading on from `aheadText`. In a literal it copies up to the closing delimiter; `opening` is the
text from the opening delimiter on. -/
inductive Phase where
  | code (held ahead : Option UInt8) (aheadText : List Symbol)
  | literal (delimiter : Delimiter) (opening : List Symbol)
deriving DecidableEq, Repr

structure State where
  phase : Phase
  rest : List Symbol
  out : Array UInt8
deriving DecidableEq, Repr

structure Failure where
  construct : Construct
  opening : List Symbol
deriving DecidableEq, Repr

/-- Finds the byte ahead. A slash where an expression may begin opens a regular expression, and
then the held byte is written at once. -/
def lookAhead (held : Option UInt8) (text : List Symbol) (out : Array UInt8) :
    Except Failure State :=
  match Uncommented.next text with
  | .unclosedComment => .error ⟨.comment, text⟩
  | .finished => .ok ⟨.code held none text, [], out⟩
  | .byte c rest =>
    match held with
    | some b =>
      if c = slash ∧ opensExpression b then
        .ok ⟨.literal .slash text, rest, (out.push b).push slash⟩
      else .ok ⟨.code (some b) (some c) text, rest, out⟩
    | none => .ok ⟨.code none (some c) text, rest, out⟩

def moveOn (ahead : Option UInt8) (aheadText rest : List Symbol) (out : Array UInt8) :
    Except Failure State :=
  match ahead.bind Delimiter.ofQuote? with
  | some quote => .ok ⟨.literal quote aheadText, rest, out.push quote.byte⟩
  | none => lookAhead ahead rest out

/-- Copies one byte of a literal, or a backslash and the byte after it. The closing delimiter is
held like any byte of code. -/
def copyLiteral (delimiter : Delimiter) (opening rest : List Symbol) (out : Array UInt8) :
    Except Failure State :=
  match LiteralRole.ofByte? delimiter.byte (rest.head?.map Symbol.byte) with
  | .content c => .ok ⟨.literal delimiter opening, rest.tail, out.push c⟩
  | .escape =>
    match rest.tail with
    | [] => .error ⟨delimiter.construct, opening⟩
    | σ :: rest => .ok ⟨.literal delimiter opening, rest, (out.push backslash).push σ.byte⟩
  | .closing => lookAhead (some delimiter.byte) rest.tail out
  | .broken => .error ⟨delimiter.construct, opening⟩

namespace State

def finished (s : State) : Bool :=
  match s.phase with
  | .code none _ _ => true
  | _ => false

def step (s : State) : Except Failure State :=
  match s.phase with
  | .code none _ _ => .ok s
  | .code (some held) ahead aheadText =>
    match Decision.ofPair held ahead with
    | .write => moveOn ahead aheadText s.rest (s.out.push held)
    | .erase => moveOn ahead aheadText s.rest s.out
    | .wait => lookAhead (some held) s.rest s.out
  | .literal delimiter opening => copyLiteral delimiter opening s.rest s.out

def pending (s : State) : Nat :=
  match s.phase with
  | .code held ahead _ => s.rest.length + held.toList.length + ahead.toList.length
  | .literal _ _ => s.rest.length + 1

@[simp] theorem pending_code (held ahead : Option UInt8) (aheadText rest : List Symbol)
    (out : Array UInt8) : pending ⟨.code held ahead aheadText, rest, out⟩ =
      rest.length + held.toList.length + ahead.toList.length := rfl

@[simp] theorem pending_literal (delimiter : Delimiter) (opening rest : List Symbol)
    (out : Array UInt8) : pending ⟨.literal delimiter opening, rest, out⟩ = rest.length + 1 := rfl

end State

theorem pending_lookAhead {held : Option UInt8} {text : List Symbol} {out : Array UInt8} {s : State}
    (h : lookAhead held text out = .ok s) : s.pending ≤ text.length + held.toList.length := by
  unfold lookAhead at h
  split at h
  · cases h
  · cases h
    simp
  · rename_i c rest hn
    have hlt := Uncommented.length_lt_of_next hn
    split at h
    · split at h <;> cases h <;> simp <;> omega
    · cases h
      simp only [State.pending_code, Option.toList_none, Option.toList_some, List.length_nil,
        List.length_singleton]
      omega

theorem pending_moveOn {ahead : Option UInt8} {aheadText rest : List Symbol} {out : Array UInt8}
    {s : State} (h : moveOn ahead aheadText rest out = .ok s) :
    s.pending ≤ rest.length + ahead.toList.length := by
  unfold moveOn at h
  split at h
  · rename_i quote hq
    obtain ⟨c, rfl, -⟩ := Option.bind_eq_some_iff.1 hq
    cases h
    simp
  · exact pending_lookAhead h

theorem pending_copyLiteral {delimiter : Delimiter} {opening rest : List Symbol}
    {out : Array UInt8} {s : State} (h : copyLiteral delimiter opening rest out = .ok s) :
    s.pending ≤ rest.length := by
  cases rest with
  | nil => cases h
  | cons σ rest =>
    simp only [copyLiteral, List.head?_cons, List.tail_cons] at h
    split at h
    · cases h
      simp
    · split at h
      · cases h
      · cases h
        simp
    · simpa using pending_lookAhead h
    · cases h

theorem pending_step {s t : State} (hs : s.finished = false) (h : s.step = .ok t) :
    t.pending < s.pending := by
  obtain ⟨phase, rest, out⟩ := s
  match phase with
  | .code none _ _ => cases hs
  | .code (some held) ahead aheadText =>
    rw [State.pending_code, Option.toList_some, List.length_singleton]
    simp only [State.step] at h
    split at h
    · have := pending_moveOn h
      omega
    · have := pending_moveOn h
      omega
    · rename_i ha
      have := pending_lookAhead h
      rcases Decision.ahead_of_wait ha with rfl | rfl <;> simp at this ⊢ <;> omega
  | .literal delimiter opening => exact Nat.lt_succ_of_le (pending_copyLiteral h)

def runFrom (s : State) : Except Failure (Array UInt8) :=
  if _ : s.finished then .ok s.out
  else
    match _ : s.step with
    | .error failure => .error failure
    | .ok t => runFrom t
termination_by s.pending
decreasing_by exact pending_step (by simp_all) (by assumption)

/-- Before the text stands a line break, so that what comes first is treated like anything that
follows one. -/
def start (text : List Symbol) : Except Failure State := lookAhead (some newline) text #[]

def run (text : List Symbol) : Except Failure (List UInt8) :=
  (start text >>= runFrom).map Array.toList

end ScriptMinifier.Machine
