import ScriptMinifier.Proofs.Refinement
import ScriptMinifier.Proofs.Steps
import ScriptMinifier.Proofs.RawText

namespace ScriptMinifier

open Byte Uncommented

namespace Item

inductive Fits (last : Option UInt8) (gap : Gap) : Item → Prop
  | byte {c : UInt8} : Visible c → delimiter? last gap c = none → Fits last gap (.byte c)
  | literal {delimiter : Delimiter} {body : List UInt8} :
      delimiter? last gap delimiter.byte = some delimiter → IsBody delimiter body →
      (delimiter = .slash → ∃ c body', body = c :: body' ∧ c ≠ asterisk) →
      Fits last gap (.literal delimiter body)

variable {last : Option UInt8} {gap : Gap} {item : Item}

theorem Spans.fits {raw rest : List Symbol} (h : Spans last gap raw item rest) :
    item.Fits last gap := by
  cases h with
  | byte hσ _ hd => exact .byte hσ hd
  | @literal delimiter σ ω inner _ hc hd hbody hω =>
    have hbyte := byte_of_delimiter? hd
    refine .literal (hbyte ▸ hd) hbody ?_
    rintro rfl
    cases inner with
    | nil => exact absurd ⟨hbyte.symm, .inl hω⟩ hc
    | cons τ inner => exact ⟨τ.byte, _, rfl, fun hτ ↦ hc ⟨hbyte.symm, .inr hτ⟩⟩

theorem Fits.visible_first (h : item.Fits last gap) : Visible item.first := by
  cases h with
  | byte hc _ => exact hc
  | literal _ _ _ => exact Delimiter.visible_byte _

theorem Fits.visible_last (h : item.Fits last gap) : Visible item.last := by
  cases h with
  | byte hc _ => exact hc
  | literal _ _ _ => exact Delimiter.visible_byte _

end Item

namespace Outline

/-- The outlines that a reading behind the given byte can give. -/
inductive WellCut : Option UInt8 → Outline → Prop
  | nil {last : Option UInt8} : WellCut last []
  | cons {last : Option UInt8} {gap : Gap} {item : Item} {outline : Outline} :
      item.Fits last gap → (∀ c ∈ item.bytes, asRead c = c) → WellCut (some item.last) outline →
      WellCut last ((gap, item) :: outline)

end Outline

namespace Reads

variable {last last' : Option UInt8} {gap gap' : Gap} {text place : List Symbol} {trace : List Passed}

theorem wellCut (h : Reads last gap text trace last' gap' place)
    (ht : ∀ σ ∈ text, asRead σ.byte = σ.byte) :
    Outline.WellCut last (trace.flatMap Passed.outline) := by
  induction h with
  | here => exact .nil
  | step hstep _ ih =>
    rw [hstep.text_eq, List.forall_mem_append] at ht
    cases hstep with
    | layout => exact ih ht.2
    | item hi =>
      refine .cons hi.fits ?_ (ih ht.2)
      rw [← hi.map_byte]
      simpa [Passed.raw] using ht.1

end Reads

namespace Outline

theorem length_separator_le (last : Option UInt8) (gap : Gap) (item : Item) :
    (separator last gap item).length ≤ if last.isSome ∧ gap = .none then 0 else 1 := by
  have hone : (separator last gap item).length ≤ 1 := by
    unfold separator
    split <;> split <;> simp
  split
  · rename_i h
    obtain ⟨hl, rfl⟩ := h
    obtain ⟨c, rfl⟩ := Option.isSome_iff_exists.mp hl
    exact Nat.le_refl 0
  · exact hone

end Outline

/-- Only a gap that has been read can be written, the one before the first item apart. -/
theorem Reads.length_render_le {last last' : Option UInt8} {gap gap' : Gap} {text place : List Symbol}
    {trace : List Passed} (h : Reads last gap text trace last' gap' place) :
    (Outline.render last (trace.flatMap Passed.outline)).length ≤
      text.length + if last.isSome ∧ gap = .none then 0 else 1 := by
  induction h with
  | here => exact Nat.zero_le _
  | @step last _ _ gap gap₁ _ text rest _ _ trace hstep _ ih =>
    have hlen := hstep.length_lt
    cases hstep with
    | layout hl =>
      have hone : (if last.isSome ∧ gap₁ = .none then 0 else 1) ≤ 1 := by split <;> simp
      have hih : (Outline.render last (trace.flatMap Passed.outline)).length ≤ _ := ih
      simp only [List.flatMap_cons, Passed.outline, List.nil_append]
      omega
    | @item raw _ item hi =>
      have hsep := Outline.length_separator_le last gap item
      have hitem : item.bytes.length = raw.length := by rw [← hi.map_byte, List.length_map]
      simp only [Option.isSome_some, true_and, if_true] at ih
      simp only [List.flatMap_cons, Passed.outline, List.singleton_append, Outline.render,
        List.length_append, hitem]
      omega

theorem Outline.wellCut_ofText {source : List UInt8} {outline : Outline}
    (h : ofText none (Symbol.ofText source) = .ok outline) : WellCut none outline := by
  rw [ofText_eq_resume] at h
  obtain ⟨trace, last, gap, hr, rfl⟩ := reads_of_resume h
  exact hr.wellCut fun σ hσ ↦ Symbol.asRead_of_mem_ofText hσ

theorem minify_of_outline {source : List UInt8} {outline : Outline}
    (h : Outline.ofText none (Symbol.ofText source) = .ok outline) :
    minify source = .ok (outline.render none) := by
  rw [minify_eq_ok_iff_run, Machine.run_eq_render, h]
  rfl

theorem exists_outline {source y : List UInt8} (h : minify source = .ok y) :
    ∃ outline, Outline.ofText none (Symbol.ofText source) = .ok outline ∧
      Outline.WellCut none outline ∧ outline.render none = y := by
  rw [minify_eq_ok_iff_run, Machine.run_eq_render] at h
  cases ho : Outline.ofText none (Symbol.ofText source) with
  | error failure =>
    rw [ho] at h
    cases h
  | ok outline =>
    rw [ho] at h
    exact ⟨outline, rfl, Outline.wellCut_ofText ho, Except.ok.inj h⟩

end ScriptMinifier
