import ScriptMinifier.Outline

namespace ScriptMinifier.Machine

open Byte

/-- A run that stands at one outcome comes to another, and the states that it leaves behind on the
way have the property `P`. -/
inductive Leads (P : State → Prop) : Except Failure State → Except Failure State → Prop
  | refl (outcome : Except Failure State) : Leads P outcome outcome
  | step {s : State} {outcome : Except Failure State} :
      P s → s.finished = false → Leads P s.step outcome → Leads P (.ok s) outcome

variable {P Q : State → Prop} {outcome outcome' outcome'' : Except Failure State}

theorem Leads.one {s : State} (hP : P s) (hs : s.finished = false) : Leads P (.ok s) s.step :=
  .step hP hs (.refl _)

theorem Leads.trans (h : Leads P outcome outcome') (h' : Leads P outcome' outcome'') :
    Leads P outcome outcome'' := by
  induction h with
  | refl => exact h'
  | step hP hs _ ih => exact .step hP hs (ih h')

theorem Leads.mono (hPQ : ∀ s, P s → Q s) (h : Leads P outcome outcome') :
    Leads Q outcome outcome' := by
  induction h with
  | refl => exact .refl _
  | step hP hs _ ih => exact .step (hPQ _ hP) hs ih

def conclude (outcome : Except Failure State) : Except Failure (List UInt8) :=
  (outcome >>= runFrom).map Array.toList

theorem conclude_finished {s : State} (h : s.finished = true) :
    conclude (.ok s) = .ok s.out.toList := by
  change (runFrom s).map Array.toList = _
  rw [runFrom, dif_pos h]
  rfl

theorem conclude_step {s : State} (h : s.finished = false) : conclude (.ok s) = conclude s.step := by
  change (runFrom s).map Array.toList = _
  rw [runFrom, dif_neg (by simp [h])]
  split
  · rename_i hs
    rw [hs]
    rfl
  · rename_i hs
    rw [hs]
    rfl

theorem Leads.conclude_eq (h : Leads P outcome outcome') : conclude outcome = conclude outcome' := by
  induction h with
  | refl => rfl
  | step _ hs _ ih => rw [conclude_step hs, ih]

def State.aheadText? (s : State) : Option (List Symbol) :=
  match s.phase with
  | .code _ _ aheadText => some aheadText
  | .literal _ _ => none

/-- The state looks ahead from the given place if it looks ahead at all. -/
def State.LooksFrom (text : List Symbol) (s : State) : Prop := ∀ text' ∈ s.aheadText?, text' = text

theorem looksFrom_code (held ahead : Option UInt8) (text rest : List Symbol) (out : Array UInt8) :
    State.LooksFrom text ⟨.code held ahead text, rest, out⟩ := by
  rintro text' ⟨⟩
  rfl

theorem looksFrom_literal (delimiter : Delimiter) (opening text rest : List Symbol)
    (out : Array UInt8) : State.LooksFrom text ⟨.literal delimiter opening, rest, out⟩ := by
  rintro text' ⟨⟩

section Literal

variable {delimiter : Delimiter} {opening rest : List Symbol} {out : Array UInt8} {σ τ : Symbol}

theorem copyLiteral_newline (h : σ.byte = newline) :
    copyLiteral delimiter opening (σ :: rest) out = .error ⟨delimiter.construct, opening⟩ := by
  simp [copyLiteral, LiteralRole.ofByte?, h]

theorem copyLiteral_closing (h₁ : σ.byte ≠ newline) (h₂ : σ.byte = delimiter.byte) :
    copyLiteral delimiter opening (σ :: rest) out =
      lookAhead (some delimiter.byte) rest out := by
  have hr : LiteralRole.ofByte? delimiter.byte (some σ.byte) = .closing := by
    rw [LiteralRole.ofByte?, if_neg h₁, if_pos h₂]
  simp only [copyLiteral, List.head?_cons, Option.map_some, List.tail_cons, hr]

theorem copyLiteral_escape (h₁ : σ.byte ≠ newline) (h₂ : σ.byte ≠ delimiter.byte)
    (h₃ : σ.byte = backslash) :
    copyLiteral delimiter opening (σ :: rest) out =
      match rest with
      | [] => .error ⟨delimiter.construct, opening⟩
      | τ :: rest =>
        .ok ⟨.literal delimiter opening, rest, (out.push backslash).push τ.byte⟩ := by
  have hr : LiteralRole.ofByte? delimiter.byte (some σ.byte) = .escape := by
    rw [LiteralRole.ofByte?, if_neg h₁, if_neg h₂, if_pos h₃]
  cases rest with
  | nil => simp only [copyLiteral, List.head?_cons, Option.map_some, List.tail_cons, hr]
  | cons τ rest => simp only [copyLiteral, List.head?_cons, Option.map_some, List.tail_cons, hr]

theorem copyLiteral_content (h₁ : σ.byte ≠ newline) (h₂ : σ.byte ≠ delimiter.byte)
    (h₃ : σ.byte ≠ backslash) :
    copyLiteral delimiter opening (σ :: rest) out =
      .ok ⟨.literal delimiter opening, rest, out.push σ.byte⟩ := by
  have hr : LiteralRole.ofByte? delimiter.byte (some σ.byte) = .content σ.byte := by
    rw [LiteralRole.ofByte?, if_neg h₁, if_neg h₂, if_neg h₃]
  simp only [copyLiteral, List.head?_cons, Option.map_some, List.tail_cons, hr]

theorem Leads.copy {place : List Symbol} {outcome : Except Failure State}
    (h : Leads (State.LooksFrom place) (copyLiteral delimiter opening rest out) outcome) :
    Leads (State.LooksFrom place) (.ok ⟨.literal delimiter opening, rest, out⟩) outcome :=
  .step (looksFrom_literal delimiter opening place rest out) rfl h

end Literal

theorem leads_literal (place : List Symbol) (delimiter : Delimiter) (opening text : List Symbol)
    (out : Array UInt8) :
    Leads (State.LooksFrom place) (.ok ⟨.literal delimiter opening, text, out⟩)
      (match Item.readBody? delimiter text with
      | some (body, rest) => lookAhead (some delimiter.byte) rest (out ++ body.toArray)
      | none => .error ⟨delimiter.construct, opening⟩) := by
  fun_induction Item.readBody? delimiter text generalizing out with
  | case1 => exact .copy (.refl _)
  | case2 σ text h₁ =>
    apply Leads.copy
    rw [copyLiteral_newline h₁]
    exact .refl _
  | case3 σ text h₁ h₂ =>
    apply Leads.copy
    rw [copyLiteral_closing h₁ h₂]
    simpa using Leads.refl _
  | case4 σ h₁ h₂ h₃ =>
    apply Leads.copy
    rw [copyLiteral_escape h₁ h₂ h₃]
    exact .refl _
  | case5 σ h₁ h₂ h₃ τ text ih =>
    apply Leads.copy
    rw [copyLiteral_escape h₁ h₂ h₃]
    have h := ih ((out.push backslash).push τ.byte)
    cases hb : Item.readBody? delimiter text with
    | none => simpa [hb] using h
    | some found => simpa [hb] using h
  | case6 σ text h₁ h₂ h₃ ih =>
    apply Leads.copy
    rw [copyLiteral_content h₁ h₂ h₃]
    have h := ih (out.push σ.byte)
    cases hb : Item.readBody? delimiter text with
    | none => simpa [hb] using h
    | some found => simpa [hb] using h

end ScriptMinifier.Machine
