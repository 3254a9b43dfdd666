import ScriptMinifier.Outline

namespace ScriptMinifier

open Byte

/-- The bytes that are no layout. -/
def Byte.Visible (c : UInt8) : Prop := c ≠ space ∧ c ≠ newline

instance (c : UInt8) : Decidable (Visible c) := inferInstanceAs (Decidable (_ ∧ _))

theorem Byte.visible_of_mem_none : ∀ c ∈ (none : Option UInt8), Visible c := by
  intro c hc
  cases hc

theorem Byte.visible_of_mem_some {c : UInt8} (hc : Visible c) : ∀ d ∈ some c, Visible d := by
  intro d hd
  cases hd
  exact hc

namespace Uncommented

theorem afterLineComment_eq (text : List Symbol) :
    afterLineComment text =
      match text.dropWhile fun τ ↦ τ.byte ≠ newline with
      | [] => .finished
      | _ :: rest => .byte newline rest := by
  induction text with
  | nil => rfl
  | cons σ text ih =>
    rw [afterLineComment, List.dropWhile_cons]
    by_cases hσ : σ.byte = newline
    · simp [hσ]
    · simp only [hσ, if_false, ne_eq, not_false_eq_true, decide_true, if_true]
      exact ih

theorem afterBlockComment_eq (text : List Symbol) :
    afterBlockComment text =
      match Gap.afterCloser? text with
      | some rest => .byte space rest
      | none => .unclosedComment := by
  fun_induction afterBlockComment text with
  | case1 => rfl
  | case2 => rfl
  | case3 σ τ text hσ => simp [Gap.afterCloser?, hσ]
  | case4 σ τ text hσ ih => simpa only [Gap.afterCloser?, hσ, if_false] using ih

theorem next_of_ne_slash {σ : Symbol} (hσ : σ.byte ≠ slash) (rest : List Symbol) :
    next (σ :: rest) = .byte σ.byte rest := by
  rw [next, if_neg hσ]

theorem next_lineComment {σ τ : Symbol} (hσ : σ.byte = slash) (hτ : τ.byte = slash)
    (rest : List Symbol) : next (σ :: τ :: rest) = afterLineComment rest := by
  rw [next, if_pos hσ, afterSlash, if_pos hτ]

theorem dropWhile_lineComment {inner rest : List Symbol} (hinner : ∀ υ ∈ inner, υ.byte ≠ newline)
    (hrest : ∀ ν ∈ rest.head?, ν.byte = newline) :
    ((inner ++ rest).dropWhile fun τ ↦ τ.byte ≠ newline) = rest := by
  rw [List.dropWhile_append_of_pos (by simpa using hinner)]
  cases rest with
  | nil => rfl
  | cons ν rest => simp [hrest ν rfl]

theorem next_lineComment_append {σ τ : Symbol} {inner rest : List Symbol} (hσ : σ.byte = slash)
    (hτ : τ.byte = slash) (hinner : ∀ υ ∈ inner, υ.byte ≠ newline)
    (hrest : ∀ ν ∈ rest.head?, ν.byte = newline) : next (σ :: τ :: (inner ++ rest)) = next rest := by
  rw [next_lineComment hσ hτ, afterLineComment_eq, dropWhile_lineComment hinner hrest]
  cases rest with
  | nil => rfl
  | cons ν rest =>
    have hν := hrest ν rfl
    rw [next_of_ne_slash (by rw [hν]; decide), hν]

theorem next_blockComment {σ τ : Symbol} (hσ : σ.byte = slash) (hτ : τ.byte = asterisk)
    (rest : List Symbol) : next (σ :: τ :: rest) = afterBlockComment rest := by
  have hτ' : τ.byte ≠ slash := by rw [hτ]; decide
  rw [next, if_pos hσ, afterSlash, if_neg hτ', if_pos hτ]

theorem eq_cons_of_next {text rest : List Symbol} {c : UInt8} (h : next text = .byte c rest)
    (hc : Visible c) : ∃ σ, text = σ :: rest ∧ σ.byte = c := by
  cases text with
  | nil => cases h
  | cons σ text =>
    by_cases hσ : σ.byte = slash
    · rw [next, if_pos hσ] at h
      cases text with
      | nil =>
        cases h
        exact ⟨σ, rfl, hσ⟩
      | cons τ text =>
        rw [afterSlash, afterLineComment_eq, afterBlockComment_eq] at h
        split at h
        · split at h
          · cases h
          · cases h
            exact absurd rfl hc.2
        · split at h
          · split at h
            · cases h
              exact absurd rfl hc.1
            · cases h
          · cases h
            exact ⟨σ, rfl, hσ⟩
    · rw [next_of_ne_slash hσ] at h
      cases h
      exact ⟨σ, rfl, rfl⟩

theorem suffix_of_next {text rest : List Symbol} {c : UInt8} (h : next text = .byte c rest) :
    rest <:+ text := by
  cases text with
  | nil => cases h
  | cons σ text =>
    by_cases hσ : σ.byte = slash
    · rw [next, if_pos hσ] at h
      exact (suffix_of_afterSlash h).trans (List.suffix_cons σ text)
    · rw [next_of_ne_slash hσ] at h
      cases h
      exact List.suffix_cons σ rest

def OpensComment : List Symbol → Prop
  | σ :: τ :: _ => σ.byte = slash ∧ (τ.byte = slash ∨ τ.byte = asterisk)
  | _ => False

theorem byte_of_opensComment {σ : Symbol} {rest : List Symbol} (h : OpensComment (σ :: rest)) :
    σ.byte = slash := by
  cases rest with
  | nil => exact h.elim
  | cons τ rest => exact h.1

theorem not_opensComment_of_ne {σ : Symbol} (hσ : σ.byte ≠ slash) (rest : List Symbol) :
    ¬OpensComment (σ :: rest) := fun h ↦ hσ (byte_of_opensComment h)

theorem next_of_not_opensComment {σ : Symbol} {rest : List Symbol}
    (h : ¬OpensComment (σ :: rest)) : next (σ :: rest) = .byte σ.byte rest := by
  by_cases hσ : σ.byte = slash
  · rw [next, if_pos hσ, hσ]
    cases rest with
    | nil => rfl
    | cons τ rest =>
      have h₁ : τ.byte ≠ slash := fun hτ ↦ h ⟨hσ, .inl hτ⟩
      have h₂ : τ.byte ≠ asterisk := fun hτ ↦ h ⟨hσ, .inr hτ⟩
      rw [afterSlash, if_neg h₁, if_neg h₂]
  · exact next_of_ne_slash hσ rest

theorem next_of_opensComment {text rest : List Symbol} {c : UInt8} (h : OpensComment text)
    (hn : next text = .byte c rest) : (c = space ∨ c = newline) ∧ rest.length + 1 < text.length := by
  match text, h with
  | σ :: τ :: text, ⟨hσ, hτ⟩ =>
    rcases hτ with hτ | hτ
    · rw [next_lineComment hσ hτ] at hn
      have hlen := (suffix_of_afterLineComment hn).length_le
      rw [afterLineComment_eq] at hn
      split at hn
      · cases hn
      · cases hn
        refine ⟨.inr rfl, ?_⟩
        simp only [List.length_cons]
        omega
    · rw [next_blockComment hσ hτ] at hn
      have hlen := (suffix_of_afterBlockComment hn).length_le
      rw [afterBlockComment_eq] at hn
      split at hn
      · cases hn
        refine ⟨.inl rfl, ?_⟩
        simp only [List.length_cons]
        omega
      · cases hn

/-- Induction along a reading. Behind an item the text may be taken up anywhere further on. -/
@[elab_as_elim]
theorem reading_induction {motive : List Symbol → Prop}
    (finished : ∀ text, next text = .finished → motive text)
    (unclosed : ∀ text, next text = .unclosedComment → motive text)
    (space : ∀ text rest, next text = .byte space rest → motive rest → motive text)
    (newline : ∀ text rest, next text = .byte newline rest → motive rest → motive text)
    (visible : ∀ σ rest, next (σ :: rest) = .byte σ.byte rest → Visible σ.byte →
      (∀ rest', rest'.length ≤ rest.length → motive rest') → motive (σ :: rest))
    (text : List Symbol) : motive text := by
  induction hlen : text.length using Nat.strongRecOn generalizing text with
  | ind n ih =>
    subst hlen
    cases hn : next text with
    | finished => exact finished text hn
    | unclosedComment => exact unclosed text hn
    | byte c rest =>
      have hlt := length_lt_of_next hn
      by_cases hs : c = Byte.space
      · subst hs
        exact space text rest hn (ih _ hlt rest rfl)
      · by_cases hb : c = Byte.newline
        · subst hb
          exact newline text rest hn (ih _ hlt rest rfl)
        · obtain ⟨σ, rfl, rfl⟩ := eq_cons_of_next hn ⟨hs, hb⟩
          exact visible σ rest hn ⟨hs, hb⟩ fun rest' hle ↦ ih _ (Nat.lt_of_le_of_lt hle hlt) rest' rfl

end Uncommented

namespace Gap

theorem holdsBreak_lineBreak {last : Option UInt8} {gap : Gap} (h : gap.holdsBreak last = true) :
    Gap.lineBreak.holdsBreak last = true := by
  cases last with
  | none => rfl
  | some c =>
    have hc := (Bool.and_eq_true _ _).mp h
    exact (Bool.and_eq_true _ _).mpr ⟨rfl, hc.2⟩

theorem read_nil (gap : Gap) : read gap [] = .ok (gap, []) := by
  rw [read]

theorem read_space (gap : Gap) {σ : Symbol} (hσ : σ.byte = space) (text : List Symbol) :
    read gap (σ :: text) = read gap.withBlank text := by
  rw [read.eq_def]
  exact if_pos hσ

theorem read_newline (gap : Gap) {σ : Symbol} (hσ : σ.byte = newline) (text : List Symbol) :
    read gap (σ :: text) = read .lineBreak text := by
  have hs : σ.byte ≠ space := by rw [hσ]; decide
  rw [read.eq_def]
  exact (if_neg hs).trans (if_pos hσ)

theorem read_slash (gap : Gap) {σ : Symbol} (hσ : σ.byte = slash) (text : List Symbol) :
    read gap (σ :: text) =
      match text with
      | [] => .ok (gap, σ :: text)
      | τ :: rest =>
        if τ.byte = slash then read gap (rest.dropWhile fun τ ↦ τ.byte ≠ newline)
        else if τ.byte = asterisk then
          match afterCloser? rest with
          | some rest => read gap.withBlank rest
          | Option.none => .error ⟨.comment, σ :: text⟩
        else .ok (gap, σ :: text) := by
  have h₁ : σ.byte ≠ space := by rw [hσ]; decide
  have h₂ : σ.byte ≠ newline := by rw [hσ]; decide
  cases text with
  | nil => rw [read, if_neg h₁, if_neg h₂, if_pos hσ]
  | cons τ rest =>
    rw [read, if_neg h₁, if_neg h₂, if_pos hσ]
    dsimp only
    split
    · rfl
    · split
      · split <;> simp_all
      · rfl

theorem read_visible (gap : Gap) {σ : Symbol} (hσ : Visible σ.byte) (hs : σ.byte ≠ slash)
    (text : List Symbol) : read gap (σ :: text) = .ok (gap, σ :: text) := by
  rw [read.eq_def]
  exact (if_neg hσ.1).trans ((if_neg hσ.2).trans (if_neg hs))

theorem byte_of_dropWhile_eq_cons {text rest : List Symbol} {ν : Symbol}
    (h : (text.dropWhile fun τ ↦ τ.byte ≠ newline) = ν :: rest) : ν.byte = newline := by
  have hh := List.head?_dropWhile_not (fun τ : Symbol ↦ decide (τ.byte ≠ newline)) text
  rw [h] at hh
  simpa using hh

/-- Layout is read one significant byte at a time, a comment being the byte it stands for. -/
theorem read_eq_next (gap : Gap) (text : List Symbol) :
    read gap text =
      match Uncommented.next text with
      | .byte c rest =>
        if c = space then read gap.withBlank rest
        else if c = newline then read .lineBreak rest
        else .ok (gap, text)
      | .finished => .ok (gap, [])
      | .unclosedComment => .error ⟨.comment, text⟩ := by
  cases text with
  | nil => exact read_nil gap
  | cons σ text =>
    by_cases hσ : σ.byte = slash
    · rw [Uncommented.next, if_pos hσ, read_slash gap hσ]
      cases text with
      | nil => rfl
      | cons τ text =>
        rw [Uncommented.afterSlash, Uncommented.afterLineComment_eq,
          Uncommented.afterBlockComment_eq]
        dsimp only
        split
        · cases hd : text.dropWhile fun τ ↦ τ.byte ≠ newline with
          | nil => exact read_nil gap
          | cons ν rest => exact read_newline gap (byte_of_dropWhile_eq_cons hd) rest
        · split
          · cases afterCloser? text <;> rfl
          · rfl
    · rw [Uncommented.next_of_ne_slash hσ]
      dsimp only
      split
      · rename_i h
        exact read_space gap h text
      · split
        · rename_i h
          exact read_newline gap h text
        · rename_i h h'
          exact read_visible gap ⟨h, h'⟩ hσ text

theorem read_of_next_visible {σ : Symbol} {rest : List Symbol}
    (h : Uncommented.next (σ :: rest) = .byte σ.byte rest) (hσ : Visible σ.byte) (gap : Gap) :
    read gap (σ :: rest) = .ok (gap, σ :: rest) := by
  rw [read_eq_next, h]
  dsimp only
  rw [if_neg hσ.1, if_neg hσ.2]

end Gap

namespace Delimiter

theorem visible_byte (delimiter : Delimiter) : Visible delimiter.byte := by
  cases delimiter <;> decide

theorem byte_of_ofQuote? {c : UInt8} {delimiter : Delimiter} (h : ofQuote? c = some delimiter) :
    delimiter.byte = c ∧ delimiter ≠ .slash := by
  unfold ofQuote? at h
  split at h
  · cases h
    exact ⟨Eq.symm ‹_›, by decide⟩
  · split at h
    · cases h
      exact ⟨Eq.symm ‹_›, by decide⟩
    · cases h

end Delimiter

namespace Item

theorem byte_of_delimiter? {last : Option UInt8} {gap : Gap} {c : UInt8} {delimiter : Delimiter}
    (h : delimiter? last gap c = some delimiter) : delimiter.byte = c := by
  unfold delimiter? at h
  split at h
  · split at h
    · cases h
      exact Eq.symm ‹_›
    · cases h
  · exact (Delimiter.byte_of_ofQuote? h).1

end Item

namespace Outline

/-- Cuts a text whose first gap is already under way. -/
def resume (last : Option UInt8) (gap : Gap) (text : List Symbol) :
    Except Machine.Failure Outline :=
  match Gap.read gap text with
  | .error failure => .error failure
  | .ok (_, []) => .ok []
  | .ok (gap, σ :: rest) =>
    match Item.read last gap σ rest with
    | .error failure => .error failure
    | .ok (item, rest) => (ofText (some item.last) rest).map ((gap, item) :: ·)

theorem ofText_eq_resume (last : Option UInt8) (text : List Symbol) :
    ofText last text = resume last .none text := by
  rw [ofText, resume]
  split
  · rename_i h
    rw [h]
  · rename_i h
    rw [h]
  · rename_i h
    rw [h]
    dsimp only
    split
    · rename_i h'
      rw [h']
    · rename_i h'
      rw [h']

variable {last : Option UInt8} {gap : Gap} {text rest : List Symbol}

theorem resume_of_space (h : Uncommented.next text = .byte space rest) :
    resume last gap text = resume last gap.withBlank rest := by
  rw [resume, Gap.read_eq_next, h]
  rfl

theorem resume_of_newline (h : Uncommented.next text = .byte newline rest) :
    resume last gap text = resume last .lineBreak rest := by
  rw [resume, Gap.read_eq_next, h]
  rfl

theorem resume_of_finished (h : Uncommented.next text = .finished) :
    resume last gap text = .ok [] := by
  rw [resume, Gap.read_eq_next, h]

theorem resume_of_unclosedComment (h : Uncommented.next text = .unclosedComment) :
    resume last gap text = .error ⟨.comment, text⟩ := by
  rw [resume, Gap.read_eq_next, h]

theorem resume_of_visible {σ : Symbol} (h : Uncommented.next (σ :: rest) = .byte σ.byte rest)
    (hσ : Visible σ.byte) :
    resume last gap (σ :: rest) =
      match Item.read last gap σ rest with
      | .error failure => .error failure
      | .ok (item, rest) => (resume (some item.last) .none rest).map ((gap, item) :: ·) := by
  rw [resume, Gap.read_of_next_visible h hσ]
  dsimp only
  split
  · rfl
  · rw [ofText_eq_resume]

theorem resume_item {σ : Symbol} {item : Item} {rest' : List Symbol}
    (hc : ¬Uncommented.OpensComment (σ :: rest)) (hσ : Visible σ.byte)
    (hi : Item.read last gap σ rest = .ok (item, rest')) :
    resume last gap (σ :: rest) = (resume (some item.last) .none rest').map ((gap, item) :: ·) := by
  rw [resume_of_visible (Uncommented.next_of_not_opensComment hc) hσ, hi]

theorem resume_space {σ : Symbol} (hσ : σ.byte = space) :
    resume last gap (σ :: rest) = resume last gap.withBlank rest := by
  rw [resume, Gap.read_space gap hσ, resume]

theorem resume_newline {σ : Symbol} (hσ : σ.byte = newline) :
    resume last gap (σ :: rest) = resume last .lineBreak rest := by
  rw [resume, Gap.read_newline gap hσ, resume]

theorem resume_lineComment {σ τ : Symbol} {inner : List Symbol} (hσ : σ.byte = slash)
    (hτ : τ.byte = slash) (hinner : ∀ υ ∈ inner, υ.byte ≠ newline)
    (hrest : ∀ ν ∈ rest.head?, ν.byte = newline) :
    resume last gap (σ :: τ :: (inner ++ rest)) = resume last gap rest := by
  have hd := Uncommented.dropWhile_lineComment hinner hrest
  rw [resume, Gap.read_slash gap hσ]
  simp only [hτ, if_true, hd]
  rw [resume]

end Outline

end ScriptMinifier
