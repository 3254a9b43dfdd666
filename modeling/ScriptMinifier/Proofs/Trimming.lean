import ScriptMinifier.Proofs.Refinement
import ScriptMinifier.Proofs.WellCut

namespace ScriptMinifier

open Byte

theorem Byte.isBlank_of_visible {c : UInt8} (h : asRead c = c) (hc : Visible c) :
    isBlank c = false := by
  cases hb : isBlank c with
  | false => rfl
  | true =>
    -- Line breaks and spaces are not visible; the other blanks are not read as themselves.
    simp only [isBlank, Bool.or_eq_true, beq_iff_eq] at hb
    rcases hb with (((rfl | rfl) | rfl) | rfl) | rfl
    · exact absurd h (by decide)
    · exact absurd rfl hc.2
    · exact absurd h (by decide)
    · exact absurd h (by decide)
    · exact absurd rfl hc.1

theorem trimBlanks_append {lead text : List UInt8} (hl : ∀ c ∈ lead, isBlank c = true)
    (hfirst : text.head?.any isBlank = false) (hlast : text.getLast?.any isBlank = false) :
    trimBlanks (lead ++ text) = text := by
  have hdrop : (lead ++ text).dropWhile isBlank = text := by
    rw [List.dropWhile_append_of_pos hl]
    cases text with
    | nil => rfl
    | cons c text =>
      have hc : isBlank c = false := hfirst
      rw [List.dropWhile_cons, hc]
      rfl
  rw [trimBlanks, hdrop]
  rw [← List.head?_reverse] at hlast
  cases hr : text.reverse with
  | nil => rw [List.reverse_eq_nil_iff.mp hr]; rfl
  | cons c front =>
    rw [hr] at hlast
    have hc : isBlank c = false := hlast
    rw [List.dropWhile_cons, hc]
    simp [← hr]

def withoutBreak (text : List UInt8) : List UInt8 :=
  if text.head? = some newline then text.tail else text

namespace Item

def leads (c : UInt8) : Bool := isWord c || Byte.opensStatement c || c == slash

theorem Fits.opensStatement_first {item : Item} {gap : Gap} (h : item.Fits none gap) :
    item.opensStatement = leads item.first := by
  cases h with
  | @byte c hc hd =>
    have hs : (c == slash) = false := by
      rw [beq_eq_false_iff_ne]
      rintro rfl
      cases hd
    rw [opensStatement, leads, first, hs, Bool.or_false]
  | @literal delimiter body _ _ _ => cases delimiter <;> rfl

end Item

namespace Outline

variable {last : Option UInt8} {gap : Gap} {item : Item} {outline : Outline}

/-- The output of an outline without what is written before its first item. -/
def core : Outline → List UInt8
  | [] => []
  | (_, item) :: outline => item.bytes ++ render (some item.last) outline

theorem render_cons (last : Option UInt8) (gap : Gap) (item : Item) (outline : Outline) :
    render last ((gap, item) :: outline) =
      separator last gap item ++ core ((gap, item) :: outline) := List.append_assoc _ _ _

theorem head?_core (gap : Gap) (item : Item) (outline : Outline) :
    (core ((gap, item) :: outline)).head? = some item.first := by
  cases item <;> rfl

theorem WellCut.head?_core_any (h : WellCut last outline) :
    outline.core.head?.any isBlank = false := by
  cases h with
  | nil => rfl
  | @cons _ gap item outline hf hr _ =>
    have hmem : item.first ∈ item.bytes := by cases item <;> simp [Item.first, Item.bytes]
    rw [head?_core]
    exact isBlank_of_visible (hr _ hmem) hf.visible_first

theorem WellCut.getLast?_core_any (h : WellCut last outline) :
    outline.core.getLast?.any isBlank = false := by
  induction h with
  | nil => rfl
  | @cons _ gap item outline hf hr hw ih =>
    have hbytes := item.front_append_last
    cases hw with
    | nil =>
      have hmem : item.last ∈ item.bytes := by rw [← hbytes]; simp
      rw [core, render, List.append_nil, ← hbytes, List.getLast?_concat]
      exact isBlank_of_visible (hr _ hmem) hf.visible_last
    | @cons _ gap' item' outline' _ _ _ =>
      have hne : core ((gap', item') :: outline') ≠ [] := by
        intro he
        have hh := head?_core gap' item' outline'
        rw [he] at hh
        cases hh
      rw [core, render_cons, ← List.append_assoc, List.getLast?_append,
        Option.or_of_isSome (List.getLast?_isSome.mpr hne)]
      exact ih

/-- A script that has been written may begin with a line break, and this is all that is trimmed. -/
theorem WellCut.render_eq (h : WellCut none outline) :
    trimBlanks (outline.render none) = outline.core ∧
      outline.render none = (if outline.core.head?.any Item.leads then [newline] else []) ++
        outline.core := by
  have hfirst := h.head?_core_any
  have hlast := h.getLast?_core_any
  cases h with
  | nil => exact ⟨rfl, rfl⟩
  | @cons _ gap item outline hf _ _ =>
    have hsep : separator none gap item =
        if (core ((gap, item) :: outline)).head?.any Item.leads then [newline] else [] := by
      rw [head?_core, Option.any_some, ← hf.opensStatement_first]
      rfl
    have hblank : ∀ c ∈ separator none gap item, isBlank c = true := by
      rw [hsep]
      split
      · simpa using (by decide : isBlank newline = true)
      · simp
    rw [render_cons]
    exact ⟨trimBlanks_append hblank hfirst hlast, by rw [hsep]⟩

theorem WellCut.withoutBreak_render (h : WellCut none outline) :
    withoutBreak (outline.render none) = outline.core := by
  rw [h.render_eq.2]
  split
  · rfl
  · refine if_neg fun hn ↦ ?_
    have hblank := h.head?_core_any
    rw [List.nil_append] at hn
    rw [hn] at hblank
    cases hblank

theorem WellCut.render_injective_trim {outline' : Outline} (h : WellCut none outline)
    (h' : WellCut none outline')
    (he : trimBlanks (outline.render none) = trimBlanks (outline'.render none)) :
    outline.render none = outline'.render none := by
  rw [h.render_eq.1, h'.render_eq.1] at he
  rw [h.render_eq.2, h'.render_eq.2, he]

end Outline

namespace Machine

theorem run_newline {σ : Symbol} (hσ : σ.byte = newline) (text : List Symbol) :
    run (σ :: text) = run text := by
  have hn : Uncommented.next (σ :: text) = .byte newline text := by
    rw [Uncommented.next_of_ne_slash (by rw [hσ]; decide), hσ]
  have hl := @leads_newline none .none (σ :: text) text visible_of_mem_none hn []
  exact hl.conclude_eq

end Machine

theorem minify_trimBlanks_iff {outline : Outline} (h : Outline.WellCut none outline)
    {z : List UInt8} :
    minify (trimBlanks (outline.render none)) = .ok z ↔ minify (outline.render none) = .ok z := by
  obtain ⟨htrim, hrender⟩ := h.render_eq
  rw [minify_eq_ok_iff_run, minify_eq_ok_iff_run, htrim, hrender]
  split
  · rw [List.singleton_append, Symbol.ofText_cons_of_ne (by decide), Machine.run_newline rfl]
  · rfl

end ScriptMinifier
