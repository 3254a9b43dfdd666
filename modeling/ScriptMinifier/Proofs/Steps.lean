import ScriptMinifier.Proofs.Closing

namespace ScriptMinifier

open Byte Uncommented

/-- One piece of layout: its symbols, what is left of them where comments are cut out, the gap as it is
behind them and the text that follows. -/
inductive Layout (gap : Gap) : List Symbol → List UInt8 → Gap → List Symbol → Prop
  | space {σ : Symbol} {rest : List Symbol} : σ.byte = space →
      Layout gap [σ] [space] gap.withBlank rest
  | newline {σ : Symbol} {rest : List Symbol} : σ.byte = newline →
      Layout gap [σ] [newline] .lineBreak rest
  | lineComment {raw rest : List Symbol} : Comment raw [] rest → Layout gap raw [] gap rest
  | blockComment {raw rest : List Symbol} : Comment raw [space] rest →
      Layout gap raw [space] gap.withBlank rest

/-- The symbols `raw` before `rest` are an item. The byte `last` and the gap before them tell a literal
from a division. -/
inductive Item.Spans (last : Option UInt8) (gap : Gap) : List Symbol → Item → List Symbol → Prop
  | byte {σ : Symbol} {rest : List Symbol} : Visible σ.byte → ¬OpensComment (σ :: rest) →
      delimiter? last gap σ.byte = none → Spans last gap [σ] (.byte σ.byte) rest
  | literal {delimiter : Delimiter} {σ ω : Symbol} {inner rest : List Symbol} :
      ¬OpensComment (σ :: (inner ++ [ω])) → delimiter? last gap σ.byte = some delimiter →
      IsBody delimiter (inner.map Symbol.byte) → ω.byte = delimiter.byte →
      Spans last gap (σ :: (inner ++ [ω])) (.literal delimiter (inner.map Symbol.byte)) rest

/-- What one step passes over: layout with what is left of it, or an item with the gap before it. -/
inductive Passed where
  | layout (raw : List Symbol) (left : List UInt8)
  | entry (raw : List Symbol) (gap : Gap) (item : Item)

namespace Passed

def raw : Passed → List Symbol
  | .layout raw _ => raw
  | .entry raw _ _ => raw

def bytes : Passed → List UInt8
  | .layout _ left => left
  | .entry _ _ item => item.bytes

def outline : Passed → Outline
  | .layout _ _ => []
  | .entry _ gap item => [(gap, item)]

end Passed

/-- One step of a reading from the left. At either end of it, `last` is the last byte of the item before
and `gap` is what lies between that item and the text. -/
inductive Step (last : Option UInt8) (gap : Gap) :
    List Symbol → Passed → Option UInt8 → Gap → List Symbol → Prop
  | layout {raw rest : List Symbol} {left : List UInt8} {gap' : Gap} :
      Layout gap raw left gap' rest → Step last gap (raw ++ rest) (.layout raw left) last gap' rest
  | item {raw rest : List Symbol} {item : Item} : Item.Spans last gap raw item rest →
      Step last gap (raw ++ rest) (.entry raw gap item) (some item.last) .none rest

/-- At the head of the text stands the opening of a construct that is never closed. -/
inductive Unclosed (last : Option UInt8) (gap : Gap) : Construct → List Symbol → Prop
  | comment {σ τ : Symbol} {rest : List Symbol} : σ.byte = slash → τ.byte = asterisk →
      ¬Gap.HoldsCloser rest → Unclosed last gap .comment (σ :: τ :: rest)
  | literal {delimiter : Delimiter} {σ : Symbol} {inner after : List Symbol} :
      ¬OpensComment (σ :: (inner ++ after)) → Item.delimiter? last gap σ.byte = some delimiter →
      Item.IsBody delimiter (inner.map Symbol.byte) → Item.BreaksOff after →
      Unclosed last gap delimiter.construct (σ :: (inner ++ after))

/-- Steps one after the other, with the list of what they pass over. -/
inductive Reads : Option UInt8 → Gap → List Symbol → List Passed →
    Option UInt8 → Gap → List Symbol → Prop
  | here {last : Option UInt8} {gap : Gap} {text : List Symbol} : Reads last gap text [] last gap text
  | step {last last₁ last' : Option UInt8} {gap gap₁ gap' : Gap} {text rest place : List Symbol}
      {passed : Passed} {trace : List Passed} :
      Step last gap text passed last₁ gap₁ rest → Reads last₁ gap₁ rest trace last' gap' place →
      Reads last gap text (passed :: trace) last' gap' place

section Steps

variable {last last' : Option UInt8} {gap gap' : Gap} {raw text rest : List Symbol} {left : List UInt8}
  {item : Item} {passed : Passed}

theorem Layout.raw_ne_nil (h : Layout gap raw left gap' rest) : raw ≠ [] := by
  cases h with
  | space | newline => exact List.cons_ne_nil _ _
  | lineComment hc | blockComment hc =>
    apply List.ne_nil_of_length_pos
    exact Nat.lt_of_le_of_lt (Nat.zero_le _) hc.length_lt

theorem Layout.resume_eq (h : Layout gap raw left gap' rest) :
    Outline.resume last gap (raw ++ rest) = Outline.resume last gap' rest := by
  cases h with
  | space hσ => exact Outline.resume_space hσ
  | newline hσ => exact Outline.resume_newline hσ
  | lineComment hc =>
    cases hc with
    | line hσ hτ hinner hrest => exact Outline.resume_lineComment hσ hτ hinner hrest
  | blockComment hc => exact Outline.resume_of_space hc.next_block

theorem Layout.one_lt_length_of_opensComment (h : Layout gap raw left gap' rest)
    (hc : OpensComment (raw ++ rest)) : 1 < raw.length := by
  cases h with
  | space hσ | newline hσ =>
    rw [byte_of_opensComment hc] at hσ
    exact absurd hσ (by decide)
  | lineComment h | blockComment h => exact Nat.lt_of_le_of_lt (Nat.le_add_left 1 _) h.length_lt

namespace Item.Spans

theorem map_byte (h : Spans last gap raw item rest) : raw.map Symbol.byte = item.bytes := by
  cases h with
  | byte => rfl
  | literal _ hd _ hω => simp [bytes, hω, byte_of_delimiter? hd]

theorem exists_cons (h : Spans last gap raw item rest) :
    ∃ σ raw', raw = σ :: raw' ∧ Visible σ.byte := by
  cases h with
  | byte hσ => exact ⟨_, _, rfl, hσ⟩
  | literal _ hd => exact ⟨_, _, rfl, byte_of_delimiter? hd ▸ Delimiter.visible_byte _⟩

theorem not_opensComment (h : Spans last gap raw item rest) : ¬OpensComment (raw ++ rest) := by
  cases h with
  | byte _ hc => exact hc
  | @literal _ _ _ inner _ hc => cases inner <;> exact hc

theorem resume_eq (h : Spans last gap raw item rest) :
    Outline.resume last gap (raw ++ rest) =
      (Outline.resume (some item.last) .none rest).map ((gap, item) :: ·) := by
  have hc := h.not_opensComment
  cases h with
  | byte hσ _ hd => exact Outline.resume_item hc hσ (read_byte hd rest)
  | @literal delimiter σ ω inner _ _ hd hb hω =>
    have hσ : Visible σ.byte := byte_of_delimiter? hd ▸ delimiter.visible_byte
    have happ : σ :: (inner ++ [ω]) ++ rest = σ :: (inner ++ ω :: rest) := by simp
    rw [happ] at hc ⊢
    exact Outline.resume_item hc hσ (read_literal hd hb hω rest)

end Item.Spans

namespace Step

theorem text_eq (h : Step last gap text passed last' gap' rest) : text = passed.raw ++ rest := by
  cases h with
  | layout | item => rfl

theorem raw_ne_nil (h : Step last gap text passed last' gap' rest) : passed.raw ≠ [] := by
  cases h with
  | layout hl => exact hl.raw_ne_nil
  | item hi =>
    obtain ⟨σ, raw', hraw, -⟩ := hi.exists_cons
    rw [Passed.raw, hraw]
    exact List.cons_ne_nil σ raw'

theorem bytes_cases (h : Step last gap text passed last' gap' rest) :
    passed.bytes = passed.raw.map Symbol.byte ∨ Comment passed.raw passed.bytes rest := by
  cases h with
  | layout hl =>
    cases hl with
    | space hσ | newline hσ => exact .inl (congrArg (fun c ↦ [c]) hσ.symm)
    | lineComment hc | blockComment hc => exact .inr hc
  | item hi => exact .inl hi.map_byte.symm

theorem ordinary {σ : Symbol}
    (h : Visible σ.byte ∧ σ.byte ≠ slash ∧ Delimiter.ofQuote? σ.byte = none) :
    Step last gap ([σ] ++ rest) (.entry [σ] gap (.byte σ.byte)) (some σ.byte) .none rest := by
  have hd : Item.delimiter? last gap σ.byte = none := by rw [Item.delimiter?, if_neg h.2.1, h.2.2]
  exact .item (.byte h.1 (not_opensComment_of_ne h.2.1 rest) hd)

theorem length_lt (h : Step last gap text passed last' gap' rest) : rest.length < text.length := by
  have hraw := List.length_pos_iff.mpr h.raw_ne_nil
  rw [h.text_eq, List.length_append]
  omega

theorem resume_eq (h : Step last gap text passed last' gap' rest) :
    Outline.resume last gap text = (Outline.resume last' gap' rest).map (passed.outline ++ ·) := by
  cases h with
  | layout hl =>
    rw [hl.resume_eq]
    cases Outline.resume last gap' rest <;> rfl
  | item hi => exact hi.resume_eq

end Step

theorem Item.read_eq_error {σ : Symbol} {failure : Machine.Failure}
    (h : read last gap σ text = .error failure) :
    ∃ delimiter inner after, delimiter? last gap σ.byte = some delimiter ∧ text = inner ++ after ∧
      failure = ⟨delimiter.construct, σ :: (inner ++ after)⟩ ∧
      IsBody delimiter (inner.map Symbol.byte) ∧ BreaksOff after := by
  unfold read at h
  split at h
  · cases h
  · rename_i delimiter hd
    split at h
    · cases h
    · rename_i hb
      cases h
      obtain ⟨inner, after, rfl, hbody, ha⟩ := readBody?_eq_none_iff.mp hb
      exact ⟨delimiter, inner, after, hd, rfl, rfl, hbody, ha⟩

theorem Unclosed.resume_eq_error {construct : Construct} (h : Unclosed last gap construct text) :
    Outline.resume last gap text = .error ⟨construct, text⟩ := by
  cases h with
  | @comment σ τ rest hσ hτ hcl =>
    apply Outline.resume_of_unclosedComment
    exact next_eq_unclosedComment_iff.mpr ⟨σ, τ, rest, rfl, hσ, hτ, hcl⟩
  | @literal delimiter σ inner after hc hd hb ha =>
    have hσ : Visible σ.byte := Item.byte_of_delimiter? hd ▸ delimiter.visible_byte
    have hi : Item.read last gap σ (inner ++ after) =
        .error ⟨delimiter.construct, σ :: (inner ++ after)⟩ := by
      rw [Item.read, hd]
      dsimp only
      rw [Item.readBody?_eq_none_iff.mpr ⟨inner, after, rfl, hb, ha⟩]
    rw [Outline.resume_of_visible (next_of_not_opensComment hc) hσ, hi]

end Steps

theorem exists_step (last : Option UInt8) (gap : Gap) (text : List Symbol) :
    text = [] ∨ (∃ construct, Unclosed last gap construct text) ∨
      ∃ passed last' gap' rest, Step last gap text passed last' gap' rest := by
  rcases opening_cases text with
    rfl | ⟨σ, rest, rfl, hc⟩ | ⟨raw, left, rest, rfl, hc⟩ | ⟨σ, τ, rest, rfl, hσ, hτ, hcl⟩
  · exact .inl rfl
  · right
    by_cases hs : σ.byte = space
    · exact .inr ⟨_, _, _, _, .layout (.space hs)⟩
    · by_cases hb : σ.byte = newline
      · exact .inr ⟨_, _, _, _, .layout (.newline hb)⟩
      · cases hi : Item.read last gap σ rest with
        | error failure =>
          obtain ⟨delimiter, inner, after, hd, rfl, -, hbody, ha⟩ := Item.read_eq_error hi
          exact .inl ⟨_, .literal hc hd hbody ha⟩
        | ok found =>
          obtain ⟨item, rest'⟩ := found
          rcases Item.read_eq_ok hi with ⟨hd, -, -⟩ | ⟨delimiter, inner, ω, hd, -, rfl, hbody, hω⟩
          · exact .inr ⟨_, _, _, _, .item (.byte ⟨hs, hb⟩ hc hd)⟩
          · have hc' : ¬OpensComment (σ :: (inner ++ [ω])) := by
              cases inner <;> exact hc
            have happ : σ :: (inner ++ ω :: rest') = σ :: (inner ++ [ω]) ++ rest' := by simp
            rw [happ]
            exact .inr ⟨_, _, _, _, .item (.literal hc' hd hbody hω)⟩
  · rcases hc.left_cases with ⟨rfl, -⟩ | rfl
    · exact .inr (.inr ⟨_, _, _, _, .layout (.lineComment hc)⟩)
    · exact .inr (.inr ⟨_, _, _, _, .layout (.blockComment hc)⟩)
  · exact .inr (.inl ⟨_, .comment hσ hτ hcl⟩)

namespace Reads

variable {last last₁ last' : Option UInt8} {gap gap₁ gap' : Gap} {text rest place : List Symbol}
  {trace trace' : List Passed}

theorem trans (h : Reads last gap text trace last₁ gap₁ rest)
    (h' : Reads last₁ gap₁ rest trace' last' gap' place) :
    Reads last gap text (trace ++ trace') last' gap' place := by
  induction h with
  | here => exact h'
  | step hstep _ ih => exact .step hstep (ih h')

theorem text_eq (h : Reads last gap text trace last' gap' place) :
    text = trace.flatMap Passed.raw ++ place := by
  induction h with
  | here => rfl
  | step hstep _ ih => rw [List.flatMap_cons, List.append_assoc, ← ih, ← hstep.text_eq]

theorem suffix (h : Reads last gap text trace last' gap' place) : place <:+ text :=
  ⟨_, h.text_eq.symm⟩

theorem resume_eq (h : Reads last gap text trace last' gap' place) :
    Outline.resume last gap text =
      (Outline.resume last' gap' place).map (trace.flatMap Passed.outline ++ ·) := by
  induction h with
  | @here last gap text => cases Outline.resume last gap text <;> rfl
  | @step _ _ last' _ _ gap' _ _ place _ _ hstep _ ih =>
    rw [hstep.resume_eq, ih, List.flatMap_cons]
    cases Outline.resume last' gap' place <;> simp [Except.map]

end Reads

/-- Every text is read to its end or to a construct that is never closed. -/
theorem exists_reads (last : Option UInt8) (gap : Gap) (text : List Symbol) :
    ∃ trace last' gap' place, Reads last gap text trace last' gap' place ∧
      (place = [] ∨ ∃ construct, Unclosed last' gap' construct place) := by
  induction hlen : text.length using Nat.strongRecOn generalizing last gap text with
  | ind n ih =>
    subst hlen
    rcases exists_step last gap text with rfl | hu | ⟨passed, last₁, gap₁, rest, hstep⟩
    · exact ⟨[], last, gap, [], .here, .inl rfl⟩
    · exact ⟨[], last, gap, text, .here, .inr hu⟩
    · obtain ⟨trace, last', gap', place, hr, hplace⟩ := ih _ hstep.length_lt last₁ gap₁ rest rfl
      exact ⟨passed :: trace, last', gap', place, .step hstep hr, hplace⟩

theorem reads_of_resume {last : Option UInt8} {gap : Gap} {text : List Symbol} {outline : Outline}
    (h : Outline.resume last gap text = .ok outline) :
    ∃ trace last' gap', Reads last gap text trace last' gap' [] ∧
      trace.flatMap Passed.outline = outline := by
  obtain ⟨trace, last', gap', place, hr, rfl | ⟨construct, hu⟩⟩ := exists_reads last gap text
  · rw [hr.resume_eq, Outline.resume_of_finished rfl] at h
    refine ⟨trace, last', gap', hr, ?_⟩
    simpa [Except.map] using h
  · rw [hr.resume_eq, hu.resume_eq_error] at h
    cases h

theorem unclosed_of_resume {last : Option UInt8} {gap : Gap} {text : List Symbol}
    {failure : Machine.Failure} (h : Outline.resume last gap text = .error failure) :
    ∃ trace last' gap', Reads last gap text trace last' gap' failure.opening ∧
      Unclosed last' gap' failure.construct failure.opening := by
  obtain ⟨trace, last', gap', place, hr, rfl | ⟨construct, hu⟩⟩ := exists_reads last gap text
  · rw [hr.resume_eq, Outline.resume_of_finished rfl] at h
    cases h
  · rw [hr.resume_eq, hu.resume_eq_error] at h
    cases h
    exact ⟨trace, last', gap', hr, hu⟩

end ScriptMinifier
