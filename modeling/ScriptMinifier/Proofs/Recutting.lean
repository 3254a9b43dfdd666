import ScriptMinifier.Proofs.WellCut

namespace ScriptMinifier

open Byte Uncommented

namespace Gap

/-- What is left of a gap once it is written out. -/
def settle (last : Option UInt8) (gap : Gap) (item : Item) : Gap :=
  if gap.holdsBreak last then
    if item.opensStatement then .lineBreak else .none
  else if gap = .blank ∧ last.any isWord ∧ isWord item.first then .blank
  else .none

def bytes : Gap → List UInt8
  | .none => []
  | .blank => [space]
  | .lineBreak => [newline]

variable {last : Option UInt8} {gap : Gap} {item : Item}

theorem bytes_settle (last : Option UInt8) (gap : Gap) (item : Item) :
    (gap.settle last item).bytes = Outline.separator last gap item := by
  unfold settle Outline.separator
  split
  · split <;> rfl
  · split <;> rfl

theorem settle_none (c : UInt8) (item : Item) : Gap.none.settle (some c) item = .none := rfl

theorem settle_settle (last : Option UInt8) (gap : Gap) (item : Item) :
    (gap.settle last item).settle last item = gap.settle last item := by
  cases last with
  | none => rfl
  | some c =>
    rw [settle.eq_def (some c) gap item]
    split
    · rename_i hb
      split
      · rename_i ho
        rw [settle, if_pos (holdsBreak_lineBreak hb), if_pos ho]
      · exact settle_none c item
    · split
      · rename_i hb hw
        obtain ⟨rfl, hw⟩ := hw
        rw [settle, if_neg hb, if_pos ⟨rfl, hw⟩]
      · exact settle_none c item

theorem separator_settle (last : Option UInt8) (gap : Gap) (item : Item) :
    Outline.separator last (gap.settle last item) item = Outline.separator last gap item := by
  rw [← bytes_settle, settle_settle, bytes_settle]

end Gap

namespace Item

variable {last : Option UInt8} {gap gap' : Gap} {item : Item}

theorem delimiter?_of_ne_slash {c : UInt8} (h : c ≠ slash) :
    delimiter? last gap c = delimiter? last gap' c := by
  rw [delimiter?, delimiter?, if_neg h, if_neg h]

theorem delimiter?_slash (last : Option UInt8) (gap : Gap) :
    delimiter? last gap slash =
      if gap.holdsBreak last || last.any opensExpression then some .slash else none :=
  if_pos rfl

theorem not_holdsBreak_of_slash (h : delimiter? last gap slash = none) :
    gap.holdsBreak last = false ∧ last.any opensExpression = false := by
  rw [delimiter?_slash] at h
  cases hb : gap.holdsBreak last <;> cases ho : last.any opensExpression <;> simp_all

theorem settle_slash (h : delimiter? last gap slash = none) :
    gap.settle last (.byte slash) = .none := by
  have hb := (not_holdsBreak_of_slash h).1
  have hw : isWord slash = false := by decide
  simp [Gap.settle, hb, first, hw]

theorem Fits.settle (h : item.Fits last gap) : item.Fits last (gap.settle last item) := by
  cases h with
  | @byte c hc hd =>
    refine .byte hc ?_
    by_cases hs : c = slash
    · subst hs
      obtain ⟨hb, ho⟩ := not_holdsBreak_of_slash hd
      cases last with
      | none => cases hb
      | some c =>
        rw [settle_slash hd, delimiter?_slash, ho]
        rfl
    · rw [delimiter?_of_ne_slash hs, hd]
  | @literal delimiter body hd hb hf =>
    refine .literal ?_ hb hf
    by_cases hs : delimiter.byte = slash
    · rw [hs, delimiter?_slash] at hd ⊢
      split at hd
      · cases hd
        rename_i ho
        refine if_pos ?_
        cases hbr : gap.holdsBreak last with
        | true =>
          have hset : gap.settle last (.literal .slash body) = .lineBreak := by
            rw [Gap.settle, if_pos hbr]
            rfl
          rw [hset, Gap.holdsBreak_lineBreak hbr, Bool.true_or]
        | false =>
          rw [hbr, Bool.false_or] at ho
          rw [ho, Bool.or_true]
      · cases hd
    · rw [delimiter?_of_ne_slash hs, hd]

variable {inner rest : List Symbol}

theorem read_of_fits (h : item.Fits last gap) (hb : inner.map Symbol.byte = item.bytes)
    (rest : List Symbol) :
    ∃ σ inner', inner = σ :: inner' ∧ σ.byte = item.first ∧
      read last gap σ (inner' ++ rest) = .ok (item, rest) := by
  cases h with
  | @byte c hc hd =>
    obtain ⟨σ, inner', rfl, rfl, hi⟩ := List.map_eq_cons_iff.mp hb
    obtain rfl := List.map_eq_nil_iff.mp hi
    refine ⟨σ, [], rfl, rfl, ?_⟩
    rw [read, hd]
    rfl
  | @literal delimiter body hd hbody hf =>
    obtain ⟨σ, inner', rfl, hσ, hi⟩ := List.map_eq_cons_iff.mp hb
    obtain ⟨inner'', close, rfl, hi', hω⟩ := List.map_eq_append_iff.mp hi
    obtain ⟨ω, close', rfl, hω', hnil⟩ := List.map_eq_cons_iff.mp hω
    obtain rfl := List.map_eq_nil_iff.mp hnil
    have hread : readBody? delimiter (inner'' ++ [ω] ++ rest) = some (body, rest) :=
      readBody?_eq_some_iff.mpr ⟨inner'', ω, by simp, hi', hbody, hω'⟩
    refine ⟨σ, _, rfl, hσ, ?_⟩
    rw [read, hσ, hd]
    dsimp only
    rw [hread]

def joinsSlash (c : UInt8) : Bool := c == slash || c == asterisk

theorem joinsSlash_iff {c : UInt8} : joinsSlash c = true ↔ c = slash ∨ c = asterisk := by
  simp [joinsSlash]

theorem not_joinsSlash_of_body {c : UInt8} {body : List UInt8} (h : IsBody .slash (c :: body))
    (hc : c ≠ asterisk) : joinsSlash c = false := by
  have hs : c ≠ slash := by
    cases h with
    | plain _ hs _ _ => exact hs
    | escape _ => decide
  simp [joinsSlash, hs, hc]

theorem Fits.not_opensComment (h : item.Fits last gap) (hb : inner.map Symbol.byte = item.bytes)
    (hrest : item = .byte slash → ∀ τ ∈ rest.head?, joinsSlash τ.byte = false) :
    ¬OpensComment (inner ++ rest) := by
  cases h with
  | @byte c hc hd =>
    obtain ⟨σ, inner', rfl, rfl, hi⟩ := List.map_eq_cons_iff.mp hb
    obtain rfl := List.map_eq_nil_iff.mp hi
    cases rest with
    | nil => exact id
    | cons τ rest =>
      intro h
      obtain ⟨hσ, hτ⟩ := h
      have hjoin := hrest (by rw [hσ]) τ rfl
      rw [joinsSlash_iff.mpr hτ] at hjoin
      cases hjoin
  | @literal delimiter body hd hbody hf =>
    obtain ⟨σ, inner', rfl, hσ, hi⟩ := List.map_eq_cons_iff.mp hb
    cases inner' with
    | nil => simp at hi
    | cons τ inner' =>
      intro h
      obtain ⟨hs, hτ⟩ := h
      have hdel : delimiter = .slash := by
        rw [hs] at hσ
        cases delimiter <;> first | rfl | exact absurd hσ (by decide)
      subst hdel
      obtain ⟨c, body', rfl, hne⟩ := hf rfl
      have hτc : τ.byte = c := (List.cons.inj hi).1
      have hjoin := not_joinsSlash_of_body hbody hne
      rw [← hτc, joinsSlash_iff.mpr hτ] at hjoin
      cases hjoin

end Item

namespace Outline

/-- A slash of code is written directly before a byte with which it opens a comment. -/
def fusesSlash : Outline → Bool
  | [] => false
  | (_, item) :: outline =>
    (decide (item = .byte slash) && (render (some item.last) outline).head?.any Item.joinsSlash) ||
      fusesSlash outline

def settle (last : Option UInt8) : Outline → Outline
  | [] => []
  | (gap, item) :: outline => (gap.settle last item, item) :: settle (some item.last) outline

theorem render_settle (last : Option UInt8) (outline : Outline) :
    (outline.settle last).render last = outline.render last := by
  induction outline generalizing last with
  | nil => rfl
  | cons entry outline ih =>
    obtain ⟨gap, item⟩ := entry
    rw [settle, render, render, Gap.separator_settle, ih]

variable {last : Option UInt8} {gap : Gap} {item : Item} {inner sep text rest : List Symbol}
  {outline outline' : Outline}

theorem resume_separator (h : sep.map Symbol.byte = gap.bytes) (rest : List Symbol) :
    resume last .none (sep ++ rest) = resume last gap rest := by
  cases gap with
  | none =>
    obtain rfl := List.map_eq_nil_iff.mp h
    rfl
  | blank =>
    obtain ⟨σ, sep', rfl, hσ, hsep⟩ := List.map_eq_cons_iff.mp h
    obtain rfl := List.map_eq_nil_iff.mp hsep
    exact resume_space hσ
  | lineBreak =>
    obtain ⟨σ, sep', rfl, hσ, hsep⟩ := List.map_eq_cons_iff.mp h
    obtain rfl := List.map_eq_nil_iff.mp hsep
    exact resume_newline hσ

theorem resume_written (hf : item.Fits last gap)
    (hsep : sep.map Symbol.byte = separator last gap item)
    (hb : inner.map Symbol.byte = item.bytes)
    (hrest : item = .byte slash → ∀ τ ∈ rest.head?, Item.joinsSlash τ.byte = false) :
    resume last .none (sep ++ (inner ++ rest)) =
      (resume (some item.last) .none rest).map ((gap.settle last item, item) :: ·) := by
  rw [← Gap.bytes_settle] at hsep
  have hc := hf.not_opensComment hb hrest
  obtain ⟨σ, inner', rfl, hσ, hi⟩ := Item.read_of_fits hf.settle hb rest
  have hvis : Visible σ.byte := hσ ▸ hf.visible_first
  rw [List.cons_append] at hc
  rw [resume_separator hsep, List.cons_append, resume_item hc hvis hi]

theorem map_eq_render_cons (ht : text.map Symbol.byte = render last ((gap, item) :: outline)) :
    ∃ sep inner rest, text = sep ++ (inner ++ rest) ∧
      sep.map Symbol.byte = separator last gap item ∧ inner.map Symbol.byte = item.bytes ∧
      rest.map Symbol.byte = outline.render (some item.last) := by
  rw [render, List.append_assoc] at ht
  obtain ⟨sep, text', rfl, hsep, ht'⟩ := List.map_eq_append_iff.mp ht
  obtain ⟨inner, rest, rfl, hb, hrest⟩ := List.map_eq_append_iff.mp ht'
  exact ⟨sep, inner, rest, rfl, hsep, hb, hrest⟩

theorem head_of_map_eq (h : rest.map Symbol.byte = outline.render last)
    (hj : (outline.render last).head?.any Item.joinsSlash = false) :
    ∀ τ ∈ rest.head?, Item.joinsSlash τ.byte = false := by
  intro τ hτ
  rw [← h, List.head?_map, hτ] at hj
  exact hj

theorem opensComment_of_fuses (hf : (Item.byte slash).Fits last gap)
    (hsep : sep.map Symbol.byte = separator last gap (.byte slash))
    (hb : inner.map Symbol.byte = (Item.byte slash).bytes)
    (hrest : rest.map Symbol.byte = outline.render (some slash))
    (hj : (outline.render (some slash)).head?.any Item.joinsSlash = true) :
    (∃ c, last = some c) ∧ OpensComment (sep ++ (inner ++ rest)) := by
  cases hf with
  | byte _ hd =>
    rw [← Gap.bytes_settle, Item.settle_slash hd] at hsep
    obtain rfl := List.map_eq_nil_iff.mp hsep
    obtain ⟨σ, inner', rfl, hσ, hi⟩ := List.map_eq_cons_iff.mp hb
    obtain rfl := List.map_eq_nil_iff.mp hi
    constructor
    · cases last with
      | none => cases (Item.not_holdsBreak_of_slash hd).1
      | some c => exact ⟨c, rfl⟩
    · cases rest with
      | nil =>
        rw [← hrest] at hj
        cases hj
      | cons τ rest =>
        rw [← hrest] at hj
        exact ⟨hσ, Item.joinsSlash_iff.mp hj⟩

/-- Where an item is written, either a slash of code has come to open a comment, or the item can be
told from what follows. -/
theorem written_cases (hf : item.Fits last gap)
    (ht : text.map Symbol.byte = render last ((gap, item) :: outline)) :
    (fusesSlash ((gap, item) :: outline) = true ∧ (∃ c, last = some c) ∧ OpensComment text) ∨
    (fusesSlash ((gap, item) :: outline) = fusesSlash outline ∧ ∃ sep inner rest,
      text = sep ++ (inner ++ rest) ∧ sep.map Symbol.byte = separator last gap item ∧
      inner.map Symbol.byte = item.bytes ∧ rest.map Symbol.byte = outline.render (some item.last) ∧
      (item = .byte slash → ∀ τ ∈ rest.head?, Item.joinsSlash τ.byte = false)) := by
  obtain ⟨sep, inner, rest, rfl, hsep, hb, hrest⟩ := map_eq_render_cons ht
  by_cases hfuse : item = .byte slash ∧ (outline.render (some item.last)).head?.any Item.joinsSlash
  · obtain ⟨rfl, hj⟩ := hfuse
    refine .inl ⟨?_, opensComment_of_fuses hf hsep hb hrest hj⟩
    rw [fusesSlash, hj]
    rfl
  · refine .inr ⟨?_, sep, inner, rest, rfl, hsep, hb, hrest, fun hi ↦ head_of_map_eq hrest ?_⟩
    · have hnone : (decide (item = .byte slash) &&
          (outline.render (some item.last)).head?.any Item.joinsSlash) = false := by
        rw [Bool.eq_false_iff, Ne, Bool.and_eq_true, decide_eq_true_eq]
        exact hfuse
      rw [fusesSlash, hnone, Bool.false_or]
    · simpa [hi] using hfuse

/-- What has been written is cut into the same items again, unless a slash has come to open a
comment. -/
theorem WellCut.resume_render (hw : WellCut last outline) (hf : outline.fusesSlash = false)
    (ht : text.map Symbol.byte = outline.render last) :
    resume last .none text = .ok (outline.settle last) := by
  induction hw generalizing text with
  | nil =>
    obtain rfl := List.map_eq_nil_iff.mp ht
    exact resume_of_finished rfl
  | @cons last gap item outline hfit _ _ ih =>
    rcases written_cases hfit ht with ⟨hfuse, -⟩ | ⟨hfuse, sep, inner, rest, rfl, hsep, hb, hrest, hhead⟩
    · rw [hfuse] at hf
      cases hf
    · rw [resume_written hfit hsep hb hhead, ih (hfuse ▸ hf) hrest]
      rfl

theorem length_render_lt_of_opensComment {c : UInt8} (hc : OpensComment text)
    (h : resume (some c) .none text = .ok outline) :
    (outline.render (some c)).length < text.length := by
  obtain ⟨trace, _, _, hr, rfl⟩ := reads_of_resume h
  cases hr with
  | here => exact hc.elim
  | @step _ _ _ _ gap₁ _ _ rest _ _ _ hstep hr =>
    have hle := hr.length_render_le
    cases hstep with
    | layout hl =>
      have hraw := hl.one_lt_length_of_opensComment hc
      have hone : (if (some c).isSome ∧ gap₁ = .none then 0 else 1) ≤ 1 := by split <;> simp
      simp only [List.flatMap_cons, Passed.outline, List.nil_append, List.length_append]
      omega
    | item hi => exact absurd hc hi.not_opensComment

theorem WellCut.length_render_lt (hw : WellCut last outline) (hf : outline.fusesSlash = true)
    (ht : text.map Symbol.byte = outline.render last) (h : resume last .none text = .ok outline') :
    (outline'.render last).length < (outline.render last).length := by
  induction hw generalizing text outline' with
  | nil => cases hf
  | @cons last gap item outline hfit _ _ ih =>
    have hlen : text.length = (render last ((gap, item) :: outline)).length := by
      rw [← ht, List.length_map]
    rcases written_cases hfit ht with
      ⟨-, ⟨c, rfl⟩, hc⟩ | ⟨hfuse, sep, inner, rest, rfl, hsep, hb, hrest, hhead⟩
    · exact hlen ▸ length_render_lt_of_opensComment hc h
    · rw [resume_written hfit hsep hb hhead] at h
      cases hr : resume (some item.last) .none rest with
      | error failure =>
        rw [hr] at h
        cases h
      | ok outline'' =>
        rw [hr] at h
        cases h
        have hlt := ih (hfuse ▸ hf) hrest hr
        rw [render, render, Gap.separator_settle]
        simp only [List.length_append]
        omega

end Outline

end ScriptMinifier
