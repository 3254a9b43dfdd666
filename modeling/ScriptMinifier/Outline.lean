import ScriptMinifier.Machine

namespace ScriptMinifier

open Byte

/-- The layout before an item: nothing at all, spaces and comments only, or a line break among them.
A block comment is like a space, whatever lines it takes up. -/
inductive Gap where
  | none
  | blank
  | lineBreak
deriving DecidableEq, Repr

/-- What remains of a script once layout is taken away: whole literals and single bytes. The body
of a literal is kept as it is read, without the delimiters. -/
inductive Item where
  | byte (c : UInt8)
  | literal (delimiter : Delimiter) (body : List UInt8)
deriving DecidableEq, Repr

namespace Gap

def withBlank : Gap → Gap
  | .none => .blank
  | gap => gap

def afterCloser? : List Symbol → Option (List Symbol)
  | σ :: τ :: text =>
    if σ.byte = asterisk ∧ τ.byte = slash then some text else afterCloser? (τ :: text)
  | _ => Option.none

theorem length_afterCloser? {text rest : List Symbol} (h : afterCloser? text = some rest) :
    rest.length < text.length := by
  fun_induction afterCloser? text with
  | case1 σ τ text hσ =>
    cases h
    simp only [List.length_cons]
    omega
  | case2 σ τ text hσ ih => exact Nat.lt_succ_of_lt (ih h)
  | case3 => cases h

def read (gap : Gap) (text : List Symbol) : Except Machine.Failure (Gap × List Symbol) :=
  match text with
  | [] => .ok (gap, [])
  | σ :: rest =>
    if σ.byte = space then read gap.withBlank rest
    else if σ.byte = newline then read .lineBreak rest
    else if σ.byte = slash then
      match rest with
      | [] => .ok (gap, text)
      | τ :: rest =>
        if τ.byte = slash then read gap (rest.dropWhile fun τ ↦ τ.byte ≠ newline)
        else if τ.byte = asterisk then
          match _ : afterCloser? rest with
          | some rest => read gap.withBlank rest
          | Option.none => .error ⟨.comment, text⟩
        else .ok (gap, text)
    else .ok (gap, text)
termination_by text.length
decreasing_by
  · simp
  · simp
  · have := (List.dropWhile_suffix (fun τ : Symbol ↦ τ.byte ≠ newline) (l := rest)).length_le
    simp only [List.length_cons]
    omega
  · have := length_afterCloser? (by assumption)
    simp only [List.length_cons]
    omega

theorem length_read {gap gap' : Gap} {text rest : List Symbol}
    (h : read gap text = .ok (gap', rest)) : rest.length ≤ text.length := by
  fun_induction read gap text with
  | case1 | case4 | case8 | case9 =>
    cases h
    exact Nat.le_refl _
  | case2 gap σ text hσ ih => exact Nat.le_succ_of_le (ih h)
  | case3 gap σ text hσ hσ' ih => exact Nat.le_succ_of_le (ih h)
  | case5 gap σ h1 h2 h3 τ text hτ ih =>
    have := (List.dropWhile_suffix (fun τ : Symbol ↦ τ.byte ≠ newline) (l := text)).length_le
    have := ih h
    simp only [List.length_cons]
    omega
  | case6 gap σ h1 h2 h3 τ text h4 h5 after hafter ih =>
    have := length_afterCloser? hafter
    have := ih h
    simp only [List.length_cons]
    omega
  | case7 => cases h

/-- Whether a line break stands before the next item that may end a statement, `last` being the
last byte of the item before. The start of a script counts as one. -/
def holdsBreak (last : Option UInt8) (gap : Gap) : Bool :=
  last.all fun c ↦ gap = .lineBreak && (isWord c || closesStatement c)

end Gap

namespace Item

def bytes : Item → List UInt8
  | .byte c => [c]
  | .literal delimiter body => delimiter.byte :: body ++ [delimiter.byte]

def first : Item → UInt8
  | .byte c => c
  | .literal delimiter _ => delimiter.byte

def last : Item → UInt8
  | .byte c => c
  | .literal delimiter _ => delimiter.byte

def opensStatement : Item → Bool
  | .byte c => isWord c || Byte.opensStatement c
  | .literal delimiter _ => delimiter == .slash

def readBody? (delimiter : Delimiter) : List Symbol → Option (List UInt8 × List Symbol)
  | [] => none
  | σ :: text =>
    if σ.byte = newline then none
    else if σ.byte = delimiter.byte then some ([], text)
    else if σ.byte = backslash then
      match text with
      | [] => none
      | τ :: text =>
        (readBody? delimiter text).map fun (body, rest) ↦ (backslash :: τ.byte :: body, rest)
    else (readBody? delimiter text).map fun (body, rest) ↦ (σ.byte :: body, rest)

theorem length_readBody? {delimiter : Delimiter} {text rest : List Symbol} {body : List UInt8}
    (h : readBody? delimiter text = some (body, rest)) : rest.length < text.length := by
  fun_induction readBody? delimiter text generalizing body with
  | case1 | case2 | case4 => cases h
  | case3 =>
    cases h
    simp
  | case5 σ τ text h1 h2 h3 ih =>
    obtain ⟨⟨body', rest'⟩, hb, he⟩ := Option.map_eq_some_iff.1 h
    cases he
    have := ih hb
    simp only [List.length_cons]
    omega
  | case6 σ text h1 h2 h3 ih =>
    obtain ⟨⟨body', rest'⟩, hb, he⟩ := Option.map_eq_some_iff.1 h
    cases he
    exact Nat.lt_succ_of_lt (ih hb)

/-- The delimiter of the literal that a byte opens after the given gap. A slash opens one where an
expression may begin. -/
def delimiter? (last : Option UInt8) (gap : Gap) (c : UInt8) : Option Delimiter :=
  if c = slash then
    if gap.holdsBreak last || last.any opensExpression then some .slash else none
  else Delimiter.ofQuote? c

def read (last : Option UInt8) (gap : Gap) (σ : Symbol) (text : List Symbol) :
    Except Machine.Failure (Item × List Symbol) :=
  match delimiter? last gap σ.byte with
  | none => .ok (.byte σ.byte, text)
  | some delimiter =>
    match readBody? delimiter text with
    | some (body, rest) => .ok (.literal delimiter body, rest)
    | none => .error ⟨delimiter.construct, σ :: text⟩

theorem length_read {last : Option UInt8} {gap : Gap} {σ : Symbol} {text rest : List Symbol}
    {item : Item} (h : read last gap σ text = .ok (item, rest)) : rest.length ≤ text.length := by
  unfold read at h
  split at h
  · cases h
    exact Nat.le_refl _
  · split at h
    · rename_i hb
      cases h
      exact Nat.le_of_lt (length_readBody? hb)
    · cases h

end Item

abbrev Outline := List (Gap × Item)

namespace Outline

/-- Cuts a text into gaps and items, `last` being the last byte before it. -/
def ofText (last : Option UInt8) (text : List Symbol) : Except Machine.Failure Outline :=
  match _ : Gap.read .none text with
  | .error failure => .error failure
  | .ok (_, []) => .ok []
  | .ok (gap, σ :: rest) =>
    match _ : Item.read last gap σ rest with
    | .error failure => .error failure
    | .ok (item, rest) => (ofText (some item.last) rest).map ((gap, item) :: ·)
termination_by text.length
decreasing_by
  have hg := Gap.length_read (by assumption)
  have hi := Item.length_read (by assumption)
  simp only [List.length_cons] at hg
  omega

def separator (last : Option UInt8) (gap : Gap) (item : Item) : List UInt8 :=
  if gap.holdsBreak last then
    if item.opensStatement then [newline] else []
  else if gap = .blank ∧ last.any isWord ∧ isWord item.first then [space]
  else []

def render (last : Option UInt8) : Outline → List UInt8
  | [] => []
  | (gap, item) :: outline =>
    separator last gap item ++ item.bytes ++ render (some item.last) outline

end Outline

end ScriptMinifier
