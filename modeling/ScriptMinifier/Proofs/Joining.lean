import ScriptMinifier.Proofs.Scan
import ScriptMinifier.Proofs.WellCut

namespace ScriptMinifier

open Byte Uncommented

namespace Outline

def endByte (last : Option UInt8) : Outline → Option UInt8
  | [] => last
  | (_, item) :: outline => endByte (some item.last) outline

theorem endByte_concat (last : Option UInt8) (front : Outline) (gap : Gap) (item : Item) :
    endByte last (front ++ [(gap, item)]) = some item.last := by
  induction front generalizing last with
  | nil => rfl
  | cons entry front ih => exact ih _

theorem render_append (last : Option UInt8) (front back : Outline) :
    render last (front ++ back) = render last front ++ render (front.endByte last) back := by
  induction front generalizing last with
  | nil => rfl
  | cons entry front ih =>
    rw [List.cons_append, render, render, ih, ← List.append_assoc]
    rfl

end Outline

/-- What follows a text is cut behind the items of the text, from where the reading of it ends. -/
theorem Outline.ofText_append {text : List Symbol} {outline : Outline}
    (h : ofText none text = .ok outline) :
    ∃ last gap, ∀ after, Joins text after →
      ofText none (text ++ after) = (resume last gap after).map (outline ++ ·) := by
  have hresume := h
  rw [ofText_eq_resume] at hresume
  obtain ⟨trace, last, gap, hr, -⟩ := reads_of_resume hresume
  have hs : Scan text last gap [] := ⟨trace, hr⟩
  obtain ⟨front, hf⟩ := hs.ofText_append
  have hfront : outline = front := by
    have hnil := hf [] (joins_nil text)
    rw [List.append_nil, h, List.append_nil, resume_of_finished rfl] at hnil
    simpa [Except.map] using hnil
  subst hfront
  exact ⟨last, gap, hf⟩

namespace Unclosed

variable {last : Option UInt8} {gap : Gap} {construct : Construct} {place : List Symbol} {ν : Symbol}

theorem concat_newline (h : Unclosed last gap construct place) (hν : ν.byte = newline) :
    Unclosed last gap construct (place ++ [ν]) := by
  cases h with
  | comment hσ hτ hcl =>
    exact .comment hσ hτ (Gap.not_holdsCloser_concat hcl (by rw [hν]; decide))
  | @literal delimiter σ inner after hc hd hb ha =>
    have hc' : ¬OpensComment (σ :: (inner ++ after ++ [ν])) := by
      cases hr : inner ++ after with
      | nil => exact not_opensComment_newline σ hν []
      | cons τ rest =>
        rw [hr] at hc
        exact hc
    rw [List.append_assoc] at hc'
    rw [List.cons_append, List.append_assoc]
    cases ha with
    | finished => exact .literal hc' hd hb (.newline hν)
    | newline hσ => exact .literal hc' hd hb (.newline hσ)
    | @backslash β hβ =>
      -- The backslash takes the line break with it, and then the text ends.
      have hb' : Item.IsBody delimiter ((inner ++ [β, ν]).map Symbol.byte) := by
        rw [List.map_append, List.map_cons, hβ]
        exact hb.append (.escape .nil)
      have he : inner ++ ([β] ++ [ν]) = inner ++ [β, ν] ++ [] := by simp
      rw [he] at hc' ⊢
      exact .literal hc' hd hb' .finished

end Unclosed

theorem Outline.ofText_of_concat_newline {text : List Symbol} {ν : Symbol} {outline : Outline}
    (hν : ν.byte = newline) (h : ofText none (text ++ [ν]) = .ok outline) :
    ofText none text = .ok outline := by
  have hj := joins_newline text hν []
  cases ho : ofText none text with
  | error failure =>
    obtain ⟨last, gap, hs, hu⟩ := ofText_eq_error_iff.mp ho
    obtain ⟨front, hf⟩ := hs.ofText_append
    rw [hf [ν] hj, (hu.concat_newline hν).resume_eq_error] at h
    cases h
  | ok outline' =>
    obtain ⟨last, gap, hf⟩ := ofText_append ho
    rw [hf [ν] hj, resume_newline hν, resume_of_finished rfl] at h
    simpa [Except.map] using h

/-- What the reading of a whole source leaves behind: its items, the last byte of these and the gap
at the end, from which the reading of what follows takes over. -/
structure Ending (source : List UInt8) (front : Outline) (last : Option UInt8) (gap : Gap) : Prop where
  lineBreak : ∀ after, Outline.ofText none (Symbol.ofText (source ++ newline :: after)) =
    (Outline.resume last .lineBreak (Symbol.ofText after)).map (front ++ ·)
  direct : source.getLast? ≠ some slash → ¬EndsInLineComment (Symbol.ofText source) →
    ∀ after, after.head? ≠ some newline →
      Outline.ofText none (Symbol.ofText (source ++ after)) =
        (Outline.resume last gap (Symbol.ofText after)).map (front ++ ·)

theorem exists_ending {source : List UInt8} {front : Outline}
    (h : Outline.ofText none (Symbol.ofText source) = .ok front) :
    ∃ last gap, Ending source front last gap := by
  by_cases hcr : source.getLast? = some carriageReturn
  · -- A carriage return at the end may be half a line break, so the reading is taken up before it.
    obtain ⟨text, rfl⟩ := List.getLast?_eq_some_iff.mp hcr
    have hof (after : List UInt8) : Symbol.ofText (text ++ carriageReturn :: after) =
        Symbol.ofText text ++ Symbol.ofText (carriageReturn :: after) :=
      Symbol.ofText_append fun hc ↦ absurd hc.2 (by simp +decide)
    rw [hof []] at h
    obtain ⟨last, gap, hf⟩ := Outline.ofText_append (Outline.ofText_of_concat_newline rfl h)
    refine ⟨last, .lineBreak, ?_, ?_⟩
    · intro after
      rw [List.append_assoc, List.singleton_append, hof, Symbol.ofText_lineBreakPair,
        hf _ (joins_newline _ rfl _), Outline.resume_newline rfl]
    · intro _ _ after ha
      rw [List.append_assoc, List.singleton_append, hof, Symbol.ofText_cons fun hc ↦ ha hc.2,
        hf _ (joins_newline _ rfl _), Outline.resume_newline rfl]
  · obtain ⟨last, gap, hf⟩ := Outline.ofText_append h
    have hof (after : List UInt8) : Symbol.ofText (source ++ after) =
        Symbol.ofText source ++ Symbol.ofText after := Symbol.ofText_append fun hc ↦ hcr hc.1
    refine ⟨last, gap, ?_, ?_⟩
    · intro after
      rw [hof, Symbol.ofText_cons_of_ne (by decide), hf _ (joins_newline _ rfl _),
        Outline.resume_newline rfl]
    · intro hslash hcomment after _
      have hj : Joins (Symbol.ofText source) (Symbol.ofText after) := by
        refine ⟨fun σ hσ hc ↦ hslash ?_, fun hc ↦ absurd hc hcomment⟩
        have hbyte := byte_of_opensComment hc
        rw [← hbyte]
        exact Symbol.getLast?_of_ofText hσ (by rw [hbyte]; decide)
      rw [hof, hf _ hj]

end ScriptMinifier
