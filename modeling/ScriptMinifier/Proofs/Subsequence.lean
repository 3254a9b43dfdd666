import Mathlib
import ScriptMinifier.Proofs.Idempotence
import ScriptMinifier.Proofs.Stripping

namespace ScriptMinifier

open Byte Uncommented

namespace Reads

variable {last last' : Option UInt8} {gap gap' : Gap} {text place : List Symbol} {trace : List Passed}

theorem length_bytes_le (h : Reads last gap text trace last' gap' place) :
    (trace.flatMap Passed.bytes).length + place.length ≤ text.length := by
  induction h with
  | here => simp
  | @step _ _ _ _ _ _ _ rest _ passed _ hstep _ ih =>
    have hpassed : passed.bytes.length ≤ passed.raw.length := by
      rcases hstep.bytes_cases with hbytes | hcomment
      · rw [hbytes, List.length_map]
      · have := hcomment.length_lt
        omega
    rw [hstep.text_eq, List.flatMap_cons, List.length_append, List.length_append]
    omega

theorem bytes_eq_of_length (h : Reads last gap text trace last' gap' place)
    (hlen : (trace.flatMap Passed.bytes).length + place.length = text.length) :
    trace.flatMap Passed.bytes ++ place.map Symbol.byte = text.map Symbol.byte := by
  induction h with
  | here => rfl
  | step hstep hr ih =>
    have hle := hr.length_bytes_le
    rw [hstep.text_eq, List.flatMap_cons, List.length_append, List.length_append] at hlen
    rcases hstep.bytes_cases with hbytes | hcomment
    · rw [hbytes, List.length_map] at hlen
      rw [hstep.text_eq, List.flatMap_cons, List.append_assoc, hbytes, ih (by omega), List.map_append]
    · have := hcomment.length_lt
      omega

end Reads

namespace Stripped

variable {last : Option UInt8} {gap : Gap} {text : List Symbol} {stripped : List UInt8}

theorem length_le (h : Stripped last gap text stripped) : stripped.length ≤ text.length := by
  obtain ⟨trace, _, _, hr, rfl⟩ := h
  exact hr.length_bytes_le

theorem eq_of_length (h : Stripped last gap text stripped) (hlen : stripped.length = text.length) :
    stripped = text.map Symbol.byte := by
  obtain ⟨trace, _, _, hr, rfl⟩ := h
  simpa using hr.bytes_eq_of_length hlen

end Stripped

namespace Outline

variable {gap : Gap} {outline : Outline} {text : List UInt8}

theorem separator_sublist (c : UInt8) (gap : Gap) (item : Item) :
    (separator (some c) gap item).Sublist gap.bytes := by
  cases gap with
  | none => exact List.Sublist.refl []
  | blank =>
    unfold separator
    split
    · contradiction
    · split
      · exact List.Sublist.refl _
      · exact List.nil_sublist _
  | lineBreak =>
    unfold separator
    split
    · split
      · exact List.Sublist.refl _
      · exact List.nil_sublist _
    · rw [if_neg (fun h ↦ nomatch h.1)]
      exact List.nil_sublist _

theorem bytes_withBlank_sublist (gap : Gap) : gap.withBlank.bytes.Sublist (gap.bytes ++ [space]) := by
  cases gap with
  | none => exact List.Sublist.refl _
  | blank | lineBreak => exact List.sublist_append_left _ _

/-- Behind an item, what is written is found in the text that the outline spells, the gap that has been
read so far included. -/
theorem Spells.render_sublist (h : outline.Spells gap text) (c : UInt8) :
    (outline.render (some c)).Sublist (gap.bytes ++ text) := by
  induction h generalizing c with
  | finished => exact List.nil_sublist _
  | @space gap outline text _ ih =>
    rw [List.append_cons]
    exact (ih c).trans ((bytes_withBlank_sublist gap).append (.refl text))
  | newline _ ih => exact (ih c).trans (List.sublist_append_right _ _)
  | @item gap item outline text _ ih =>
    rw [render, List.append_assoc]
    exact (separator_sublist c gap item).append ((List.Sublist.refl _).append (ih item.last))

theorem Spells.core_sublist (h : outline.Spells gap text) : outline.core.Sublist text := by
  induction h with
  | finished => exact List.nil_sublist _
  | space _ ih => exact ih.cons _
  | newline _ ih => exact ih.cons _
  | item h _ => exact (List.Sublist.refl _).append (h.render_sublist _)

theorem WellCut.render_cases (h : WellCut none outline) :
    outline.render none = newline :: outline.core ∨ outline.render none = outline.core := by
  rw [h.render_eq.2]
  split
  · exact .inl rfl
  · exact .inr rfl

end Outline

/-- What is written is taken, in order, from the source as it is read with its comments cut out; only
the line break at the start may be new. So the output is longer than the source by one byte at most,
and only if nothing at all was left out, and the trimmed output is never longer. -/
theorem minify_sublist {source y : List UInt8} (h : minify source = .ok y) :
    (∃ stripped, Stripped none .none (Symbol.ofRewritten source) stripped) ∧
    (∀ stripped, Stripped none .none (Symbol.ofRewritten source) stripped →
      (withoutBreak y).Sublist stripped) ∧
    y.length ≤ source.length + 1 ∧
    (y.length = source.length + 1 → y = newline :: Symbol.rewritten source) ∧
    ∃ y', minifyWith ⟨true⟩ source = .ok y' ∧ y'.length ≤ source.length := by
  obtain ⟨outline, ho, hw, rfl⟩ := exists_outline h
  rw [Outline.ofText_eq_resume] at ho
  rw [← Symbol.ofText_eq_ofRewritten, ← Symbol.normalized_eq_rewritten]
  obtain ⟨stripped, hs⟩ := exists_stripped ho
  have hsub : ∀ stripped, Stripped none .none (Symbol.ofText source) stripped →
      outline.core.Sublist stripped := by
    intro stripped hs
    obtain ⟨outline', ho', hspells⟩ := hs.resume_eq
    cases ho.symm.trans ho'
    exact hspells.core_sublist
  have htrim : minifyWith ⟨true⟩ source = .ok outline.core := by
    rw [minifyWith_trim h, hw.render_eq.1]
  -- From the output over the stripped text and the text as it is read to the source, each is no longer
  -- than the next.
  have hcore : outline.core.length ≤ stripped.length := (hsub stripped hs).length_le
  have hnormalized : (Symbol.normalized source).length = (Symbol.ofText source).length :=
    List.length_map ..
  have hstripped := hs.length_le
  have hread := Symbol.length_normalized_le source
  rw [hw.withoutBreak_render]
  refine ⟨⟨stripped, hs⟩, hsub, ?_, ?_, outline.core, htrim, by omega⟩
  · rcases hw.render_cases with hy | hy <;> rw [hy]
    · rw [List.length_cons]
      omega
    · omega
  · intro hlen
    rcases hw.render_cases with hy | hy <;> rw [hy] at hlen ⊢
    · rw [List.length_cons] at hlen
      have heq : stripped.length = (Symbol.ofText source).length := by omega
      rw [(hsub stripped hs).eq_of_length (by omega), hs.eq_of_length heq, Symbol.normalized]
    · omega

theorem minify_sublist_comments :
    minify (Utf8.encode "a/**/b// c\r\n+'//'") = .ok (Utf8.encode "\na b\n+'//'") ∧
      Stripped none .none (Symbol.ofRewritten (Utf8.encode "a/**/b// c\r\n+'//'"))
        (Utf8.encode "a b\n+'//'") ∧
      (withoutBreak (Utf8.encode "\na b\n+'//'")).Sublist (Utf8.encode "a b\n+'//'") ∧
      minify (Utf8.encode "a\tb") = .ok (Utf8.encode "\na b") ∧
      Utf8.encode "\na b" = newline :: Symbol.rewritten (Utf8.encode "a\tb") := by
  have h : minify (Utf8.encode "a/**/b// c\r\n+'//'") = .ok (Utf8.encode "\na b\n+'//'") := by cbv
  have h' : minify (Utf8.encode "a\tb") = .ok (Utf8.encode "\na b") := by cbv
  have hs : Stripped none .none (Symbol.ofRewritten (Utf8.encode "a/**/b// c\r\n+'//'"))
      (Utf8.encode "a b\n+'//'") := by
    have hsource : Symbol.ofText (Utf8.encode "a/**/b// c\r\n+'//'") = [⟨'a'.toUInt8, 1⟩] ++
        (⟨slash, 1⟩ :: ⟨asterisk, 1⟩ :: ([] ++ [⟨asterisk, 1⟩, ⟨slash, 1⟩]) ++ ([⟨'b'.toUInt8, 1⟩] ++
          (⟨slash, 1⟩ :: ⟨slash, 1⟩ :: [⟨space, 1⟩, ⟨'c'.toUInt8, 1⟩] ++ ([⟨newline, 2⟩] ++
            ([⟨'+'.toUInt8, 1⟩] ++
              (⟨singleQuote, 1⟩ :: ([⟨slash, 1⟩, ⟨slash, 1⟩] ++ [⟨singleQuote, 1⟩]) ++ [])))))) := by
      cbv
    have hbody : Item.IsBody .singleQuote [slash, slash] :=
      .plain (by decide) (by decide) (by decide) (.plain (by decide) (by decide) (by decide) .nil)
    have hcloser : ¬Gap.HoldsCloser ([] ++ [⟨asterisk, 1⟩]) :=
      Gap.not_holdsCloser_of_length (Nat.le_refl 1)
    rw [← Symbol.ofText_eq_ofRewritten, hsource]
    refine ⟨_, _, _, .step (.ordinary (by decide)) <|
      .step (.layout (.blockComment (.block rfl rfl rfl rfl hcloser))) <| .step (.ordinary (by decide)) <|
      .step (.layout (.lineComment (.line rfl rfl (by simp +decide) (by simp)))) <|
      .step (.layout (.newline rfl)) <| .step (.ordinary (by decide)) <|
      .step (.item (.literal (not_opensComment_of_ne (by decide) _) rfl hbody rfl)) .here, ?_⟩
    cbv
  exact ⟨h, hs, (minify_sublist h).2.1 _ hs, h', (minify_sublist h').2.2.2.1 rfl⟩

end ScriptMinifier
