import ScriptMinifier.Proofs.Steps

namespace ScriptMinifier

open Byte Uncommented

/-- A text as it is read, with its comments cut out: a line comment leaves nothing and a block comment
one space. `last` and `gap` are what stands before the text. -/
def Stripped (last : Option UInt8) (gap : Gap) (text : List Symbol) (stripped : List UInt8) : Prop :=
  ∃ trace last' gap', Reads last gap text trace last' gap' [] ∧ trace.flatMap Passed.bytes = stripped

namespace Outline

/-- A text made of the items of an outline in order, each behind the spaces and line breaks that its
gap is read from. -/
inductive Spells : Gap → Outline → List UInt8 → Prop
  | finished {gap : Gap} : Spells gap [] []
  | space {gap : Gap} {outline : Outline} {text : List UInt8} :
      Spells gap.withBlank outline text → Spells gap outline (space :: text)
  | newline {gap : Gap} {outline : Outline} {text : List UInt8} :
      Spells .lineBreak outline text → Spells gap outline (newline :: text)
  | item {gap : Gap} {item : Item} {outline : Outline} {text : List UInt8} :
      Spells .none outline text → Spells gap ((gap, item) :: outline) (item.bytes ++ text)

end Outline

theorem Reads.spells {last last' : Option UInt8} {gap gap' : Gap} {text place : List Symbol}
    {trace : List Passed} (h : Reads last gap text trace last' gap' place) :
    Outline.Spells gap (trace.flatMap Passed.outline) (trace.flatMap Passed.bytes) := by
  induction h with
  | here => exact .finished
  | step hstep _ ih =>
    cases hstep with
    | layout hl =>
      cases hl with
      | space => exact .space ih
      | newline => exact .newline ih
      | lineComment => exact ih
      | blockComment => exact .space ih
    | item => exact .item ih

theorem Stripped.resume_eq {last : Option UInt8} {gap : Gap} {text : List Symbol}
    {stripped : List UInt8} (h : Stripped last gap text stripped) :
    ∃ outline, Outline.resume last gap text = .ok outline ∧ outline.Spells gap stripped := by
  obtain ⟨trace, last', gap', hr, rfl⟩ := h
  refine ⟨trace.flatMap Passed.outline, ?_, hr.spells⟩
  rw [hr.resume_eq, Outline.resume_of_finished rfl, Except.map, List.append_nil]

theorem exists_stripped {last : Option UInt8} {gap : Gap} {text : List Symbol} {outline : Outline}
    (h : Outline.resume last gap text = .ok outline) : ∃ stripped, Stripped last gap text stripped := by
  obtain ⟨trace, last', gap', hr, -⟩ := reads_of_resume h
  exact ⟨_, trace, last', gap', hr, rfl⟩

end ScriptMinifier
