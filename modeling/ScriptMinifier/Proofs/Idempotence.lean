import Mathlib
import ScriptMinifier.Proofs.Recutting
import ScriptMinifier.Proofs.Trimming

namespace ScriptMinifier

open Byte

namespace Outline

variable {last : Option UInt8} {outline : Outline}

theorem asRead_separator {c : UInt8} {gap : Gap} {item : Item}
    (h : c ∈ separator last gap item) : asRead c = c := by
  rw [← Gap.bytes_settle] at h
  cases hg : gap.settle last item with
  | none => simp [hg, Gap.bytes] at h
  | blank =>
    rw [hg, Gap.bytes, List.mem_singleton] at h
    rw [h]
    rfl
  | lineBreak =>
    rw [hg, Gap.bytes, List.mem_singleton] at h
    rw [h]
    rfl

theorem WellCut.asRead_render (h : WellCut last outline) : ∀ c ∈ outline.render last, asRead c = c := by
  induction h with
  | nil => rintro c ⟨⟩
  | @cons last gap item outline _ hr _ ih =>
    intro c hc
    rw [render, List.mem_append, List.mem_append] at hc
    rcases hc with (hc | hc) | hc
    · exact asRead_separator hc
    · exact hr c hc
    · exact ih c hc

theorem WellCut.map_byte_ofText (h : WellCut last outline) :
    (Symbol.ofText (outline.render last)).map Symbol.byte = outline.render last :=
  Symbol.map_byte_ofText h.asRead_render

end Outline

/-- A second pass over what has been written finds the same items, and so writes the same, unless a
slash has come to open a comment; then it writes less. -/
theorem minify_render_iff {outline : Outline} (h : Outline.WellCut none outline) :
    minify (outline.render none) = .ok (outline.render none) ↔ outline.fusesSlash = false := by
  rw [minify_eq_ok_iff_run, Machine.run_eq_render, Outline.ofText_eq_resume]
  cases hf : outline.fusesSlash with
  | false =>
    rw [h.resume_render hf h.map_byte_ofText]
    simp [Except.map, Outline.render_settle]
  | true =>
    refine iff_of_false (fun he ↦ ?_) Bool.noConfusion
    cases hr : Outline.resume none .none (Symbol.ofText (outline.render none)) with
    | error failure =>
      rw [hr] at he
      cases he
    | ok outline' =>
      have hlt := h.length_render_lt hf h.map_byte_ofText hr
      rw [hr] at he
      rw [Except.ok.inj he] at hlt
      exact Nat.lt_irrefl _ hlt

theorem minifyWith_trim {source y : List UInt8} (h : minify source = .ok y) :
    minifyWith ⟨true⟩ source = .ok (trimBlanks y) := by
  rw [minifyWith, h]
  rfl

theorem minifyWith_trim_iff {outline : Outline} (h : Outline.WellCut none outline) :
    minifyWith ⟨true⟩ (trimBlanks (outline.render none)) = .ok (trimBlanks (outline.render none)) ↔
      minify (outline.render none) = .ok (outline.render none) := by
  constructor
  · intro he
    cases hm : minify (trimBlanks (outline.render none)) with
    | error e =>
      rw [minifyWith, hm] at he
      cases he
    | ok z =>
      rw [minifyWith_trim hm] at he
      rw [minify_trimBlanks_iff h] at hm
      obtain ⟨outline', -, h', rfl⟩ := exists_outline hm
      rw [hm, h'.render_injective_trim h (Except.ok.inj he)]
  · intro he
    exact minifyWith_trim ((minify_trimBlanks_iff h).mpr he)

/-- Minifying twice is minifying once exactly for the scripts in which no slash of code is written
directly before a slash or an asterisk, and trimming makes no difference to this. -/
theorem minify_idempotent_iff {source y : List UInt8} (h : minify source = .ok y) :
    ∃ outline, Outline.ofText none (Symbol.ofRewritten source) = .ok outline ∧
      outline.render none = y ∧
      (minify y = .ok y ↔ outline.fusesSlash = false) ∧
      ∃ y', minifyWith ⟨true⟩ source = .ok y' ∧
        (minifyWith ⟨true⟩ y' = .ok y' ↔ outline.fusesSlash = false) := by
  obtain ⟨outline, ho, hw, rfl⟩ := exists_outline h
  rw [Symbol.ofText_eq_ofRewritten] at ho
  refine ⟨outline, ho, rfl, minify_render_iff hw, trimBlanks (outline.render none),
    minifyWith_trim h, ?_⟩
  rw [minifyWith_trim_iff hw, minify_render_iff hw]

theorem minify_idempotent_iff_regex_divided :
    minify (Utf8.encode "x = /a b/ / 2") = .ok (Utf8.encode "\nx=/a b//2") ∧
      ∃ outline, Outline.ofText none (Symbol.ofRewritten (Utf8.encode "x = /a b/ / 2")) = .ok outline ∧
        outline.render none = Utf8.encode "\nx=/a b//2" ∧
        (minify (Utf8.encode "\nx=/a b//2") = .ok (Utf8.encode "\nx=/a b//2") ↔
          outline.fusesSlash = false) ∧
        ∃ y', minifyWith ⟨true⟩ (Utf8.encode "x = /a b/ / 2") = .ok y' ∧
          (minifyWith ⟨true⟩ y' = .ok y' ↔ outline.fusesSlash = false) := by
  have h : minify (Utf8.encode "x = /a b/ / 2") = .ok (Utf8.encode "\nx=/a b//2") := by cbv
  exact ⟨h, minify_idempotent_iff h⟩

end ScriptMinifier
