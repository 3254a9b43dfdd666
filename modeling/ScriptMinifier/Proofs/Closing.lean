import ScriptMinifier.Proofs.Reading

namespace ScriptMinifier

open Byte

namespace Item

/-- What may stand between the delimiters of a literal. -/
inductive IsBody (delimiter : Delimiter) : List UInt8 → Prop
  | nil : IsBody delimiter []
  | plain {c : UInt8} {body : List UInt8} : c ≠ newline → c ≠ delimiter.byte → c ≠ backslash →
      IsBody delimiter body → IsBody delimiter (c :: body)
  | escape {c : UInt8} {body : List UInt8} : IsBody delimiter body →
      IsBody delimiter (backslash :: c :: body)

/-- The texts on which a literal that is still open cannot go on: the text ends, at once or behind
a backslash, or the line does. -/
inductive BreaksOff : List Symbol → Prop
  | finished : BreaksOff []
  | backslash {σ : Symbol} : σ.byte = backslash → BreaksOff [σ]
  | newline {σ : Symbol} {rest : List Symbol} : σ.byte = newline → BreaksOff (σ :: rest)

variable {delimiter : Delimiter} {text rest : List Symbol} {body : List UInt8} {σ : Symbol}

theorem backslash_ne_byte (delimiter : Delimiter) : backslash ≠ delimiter.byte := by
  cases delimiter <;> decide

theorem newline_ne_byte (delimiter : Delimiter) : newline ≠ delimiter.byte := by
  cases delimiter <;> decide

theorem IsBody.append {body' : List UInt8} (h : IsBody delimiter body)
    (h' : IsBody delimiter body') : IsBody delimiter (body ++ body') := by
  induction h with
  | nil => exact h'
  | plain h₁ h₂ h₃ _ ih => exact .plain h₁ h₂ h₃ ih
  | escape _ ih => exact .escape ih

theorem readBody?_newline (hσ : σ.byte = newline) : readBody? delimiter (σ :: text) = none := by
  rw [readBody?.eq_def]
  exact if_pos hσ

theorem readBody?_closing (hσ : σ.byte = delimiter.byte) :
    readBody? delimiter (σ :: text) = some ([], text) := by
  have h₁ : σ.byte ≠ newline := hσ ▸ (newline_ne_byte delimiter).symm
  rw [readBody?.eq_def]
  exact (if_neg h₁).trans (if_pos hσ)

theorem readBody?_escape (hσ : σ.byte = backslash) :
    readBody? delimiter (σ :: text) =
      match text with
      | [] => none
      | τ :: text =>
        (readBody? delimiter text).map fun (body, rest) ↦ (backslash :: τ.byte :: body, rest) := by
  have h₁ : σ.byte ≠ newline := by rw [hσ]; decide
  have h₂ : σ.byte ≠ delimiter.byte := hσ ▸ backslash_ne_byte delimiter
  rw [readBody?.eq_def]
  exact (if_neg h₁).trans ((if_neg h₂).trans (if_pos hσ))

theorem readBody?_plain (h₁ : σ.byte ≠ newline) (h₂ : σ.byte ≠ delimiter.byte)
    (h₃ : σ.byte ≠ backslash) :
    readBody? delimiter (σ :: text) =
      (readBody? delimiter text).map fun (body, rest) ↦ (σ.byte :: body, rest) := by
  rw [readBody?.eq_def]
  exact (if_neg h₁).trans ((if_neg h₂).trans (if_neg h₃))

theorem readBody?_append (hb : IsBody delimiter body) {inner : List Symbol}
    (hi : inner.map Symbol.byte = body) (after : List Symbol) :
    readBody? delimiter (inner ++ after) =
      (readBody? delimiter after).map fun (body', rest) ↦ (body ++ body', rest) := by
  induction hb generalizing inner with
  | nil =>
    obtain rfl := List.map_eq_nil_iff.mp hi
    simp
  | plain h₁ h₂ h₃ _ ih =>
    obtain ⟨σ, inner', rfl, rfl, hi'⟩ := List.map_eq_cons_iff.mp hi
    rw [List.cons_append, readBody?_plain h₁ h₂ h₃, ih hi', Option.map_map]
    rfl
  | escape _ ih =>
    obtain ⟨σ, inner', rfl, hσ, hi'⟩ := List.map_eq_cons_iff.mp hi
    obtain ⟨τ, inner'', rfl, rfl, hi''⟩ := List.map_eq_cons_iff.mp hi'
    rw [List.cons_append, List.cons_append, readBody?_escape hσ]
    dsimp only
    rw [ih hi'', Option.map_map]
    rfl

theorem readBody?_breaksOff {after : List Symbol} (h : BreaksOff after) :
    readBody? delimiter after = none := by
  cases h with
  | finished => rfl
  | backslash hσ => rw [readBody?_escape hσ]
  | newline hσ => exact readBody?_newline hσ

theorem readBody?_cases (delimiter : Delimiter) (text : List Symbol) :
    ∃ inner after, text = inner ++ after ∧ IsBody delimiter (inner.map Symbol.byte) ∧
      (BreaksOff after ∨ ∃ ω rest, after = ω :: rest ∧ ω.byte = delimiter.byte) := by
  fun_induction readBody? delimiter text with
  | case1 => exact ⟨[], [], rfl, .nil, .inl .finished⟩
  | case2 σ text h₁ => exact ⟨[], σ :: text, rfl, .nil, .inl (.newline h₁)⟩
  | case3 σ text h₁ h₂ => exact ⟨[], σ :: text, rfl, .nil, .inr ⟨σ, text, rfl, h₂⟩⟩
  | case4 σ h₁ h₂ h₃ => exact ⟨[], [σ], rfl, .nil, .inl (.backslash h₃)⟩
  | case5 σ h₁ h₂ h₃ τ text ih =>
    obtain ⟨inner, after, rfl, hb, ha⟩ := ih
    refine ⟨σ :: τ :: inner, after, rfl, ?_, ha⟩
    rw [List.map_cons, List.map_cons, h₃]
    exact .escape hb
  | case6 σ text h₁ h₂ h₃ ih =>
    obtain ⟨inner, after, rfl, hb, ha⟩ := ih
    exact ⟨σ :: inner, after, rfl, .plain h₁ h₂ h₃ hb, ha⟩

theorem readBody?_eq_some_iff :
    readBody? delimiter text = some (body, rest) ↔
      ∃ inner ω, text = inner ++ ω :: rest ∧ inner.map Symbol.byte = body ∧
        IsBody delimiter body ∧ ω.byte = delimiter.byte := by
  constructor
  · intro h
    obtain ⟨inner, after, rfl, hb, ha⟩ := readBody?_cases delimiter text
    rw [readBody?_append hb rfl] at h
    rcases ha with ha | ⟨ω, rest', rfl, hω⟩
    · rw [readBody?_breaksOff ha] at h
      cases h
    · rw [readBody?_closing hω, Option.map_some] at h
      cases h
      refine ⟨inner, ω, rfl, ?_, ?_, hω⟩
      · rw [List.append_nil]
      · rwa [List.append_nil]
  · intro h
    obtain ⟨inner, ω, rfl, hi, hb, hω⟩ := h
    rw [readBody?_append hb hi, readBody?_closing hω, Option.map_some]
    dsimp only
    rw [List.append_nil]

theorem readBody?_eq_none_iff :
    readBody? delimiter text = none ↔
      ∃ inner after, text = inner ++ after ∧ IsBody delimiter (inner.map Symbol.byte) ∧
        BreaksOff after := by
  constructor
  · intro h
    obtain ⟨inner, after, rfl, hb, ha⟩ := readBody?_cases delimiter text
    rw [readBody?_append hb rfl] at h
    rcases ha with ha | ⟨ω, rest', rfl, hω⟩
    · exact ⟨inner, after, rfl, hb, ha⟩
    · rw [readBody?_closing hω] at h
      cases h
  · intro h
    obtain ⟨inner, after, rfl, hb, ha⟩ := h
    rw [readBody?_append hb rfl, readBody?_breaksOff ha, Option.map_none]

theorem read_byte {last : Option UInt8} {gap : Gap} (h : delimiter? last gap σ.byte = none)
    (text : List Symbol) : read last gap σ text = .ok (.byte σ.byte, text) := by
  rw [read, h]

theorem read_literal {last : Option UInt8} {gap : Gap} {inner : List Symbol} {ω : Symbol}
    (hd : delimiter? last gap σ.byte = some delimiter)
    (hb : IsBody delimiter (inner.map Symbol.byte)) (hω : ω.byte = delimiter.byte)
    (rest : List Symbol) :
    read last gap σ (inner ++ ω :: rest) = .ok (.literal delimiter (inner.map Symbol.byte), rest) := by
  rw [read, hd]
  dsimp only
  rw [readBody?_eq_some_iff.mpr ⟨inner, ω, rfl, rfl, hb, hω⟩]

theorem read_eq_ok {last : Option UInt8} {gap : Gap} {item : Item}
    (h : read last gap σ text = .ok (item, rest)) :
    (delimiter? last gap σ.byte = none ∧ item = .byte σ.byte ∧ rest = text) ∨
      ∃ delimiter inner ω, delimiter? last gap σ.byte = some delimiter ∧
        item = .literal delimiter (inner.map Symbol.byte) ∧ text = inner ++ ω :: rest ∧
        IsBody delimiter (inner.map Symbol.byte) ∧ ω.byte = delimiter.byte := by
  unfold read at h
  split at h
  · rename_i hd
    cases h
    exact .inl ⟨hd, rfl, rfl⟩
  · rename_i delimiter hd
    split at h
    · rename_i hb
      cases h
      obtain ⟨inner, ω, rfl, rfl, hbody, hω⟩ := readBody?_eq_some_iff.mp hb
      exact .inr ⟨delimiter, inner, ω, hd, rfl, rfl, hbody, hω⟩
    · cases h

end Item

namespace Gap

/-- An end of a block comment stands somewhere in the text. -/
def HoldsCloser (text : List Symbol) : Prop :=
  ∃ inner α ω rest, text = inner ++ α :: ω :: rest ∧ α.byte = asterisk ∧ ω.byte = slash

theorem HoldsCloser.cons {text : List Symbol} (h : HoldsCloser text) (σ : Symbol) :
    HoldsCloser (σ :: text) := by
  obtain ⟨inner, α, ω, rest, rfl, hα, hω⟩ := h
  exact ⟨σ :: inner, α, ω, rest, rfl, hα, hω⟩

theorem holdsCloser_cons_cons {σ τ : Symbol} {text : List Symbol} :
    HoldsCloser (σ :: τ :: text) ↔
      (σ.byte = asterisk ∧ τ.byte = slash) ∨ HoldsCloser (τ :: text) := by
  constructor
  · intro h
    obtain ⟨inner, α, ω, rest, he, hα, hω⟩ := h
    cases inner with
    | nil =>
      cases he
      exact .inl ⟨hα, hω⟩
    | cons σ' inner =>
      rw [List.cons_append, List.cons.injEq] at he
      exact .inr ⟨inner, α, ω, rest, he.2, hα, hω⟩
  · intro h
    rcases h with ⟨hσ, hτ⟩ | h
    · exact ⟨[], σ, τ, text, rfl, hσ, hτ⟩
    · exact h.cons σ

theorem not_holdsCloser_of_length {text : List Symbol} (h : text.length ≤ 1) :
    ¬HoldsCloser text := by
  intro h
  obtain ⟨inner, α, ω, rest, rfl, -, -⟩ := h
  simp only [List.length_append, List.length_cons] at h
  omega

theorem not_holdsCloser_concat {text : List Symbol} {ν : Symbol} (h : ¬HoldsCloser text)
    (hν : ν.byte ≠ slash) : ¬HoldsCloser (text ++ [ν]) := by
  rintro ⟨inner, α, ω, rest, he, hα, hω⟩
  rcases List.eq_nil_or_concat rest with rfl | ⟨rest, ρ, rfl⟩
  · have hlast : text ++ [ν] = (inner ++ [α]) ++ [ω] := by simpa using he
    obtain rfl := List.singleton_inj.mp (List.append_inj_right' hlast rfl)
    exact hν hω
  · have hlast : text ++ [ν] = (inner ++ α :: ω :: rest) ++ [ρ] := by simpa using he
    exact h ⟨inner, α, ω, rest, List.append_inj_left' hlast rfl, hα, hω⟩

theorem length_le_one {text : List Symbol} (h : ∀ σ τ rest, text = σ :: τ :: rest → False) :
    text.length ≤ 1 := by
  rcases text with _ | ⟨σ, _ | ⟨τ, rest⟩⟩
  · exact Nat.zero_le 1
  · exact Nat.le_refl 1
  · exact absurd rfl (h σ τ rest)

theorem afterCloser?_eq_none_iff {text : List Symbol} :
    afterCloser? text = Option.none ↔ ¬HoldsCloser text := by
  fun_induction afterCloser? text with
  | case1 σ τ text hσ => simp [holdsCloser_cons_cons, hσ]
  | case2 σ τ text hσ ih => rw [ih, holdsCloser_cons_cons, or_iff_right hσ]
  | case3 text hne => exact iff_of_true rfl (not_holdsCloser_of_length (length_le_one hne))

theorem exists_append_eq_cons {inner text rest : List Symbol} {α τ : Symbol}
    (h : τ :: text = inner ++ α :: rest) : ∃ tail, inner ++ [α] = τ :: tail := by
  cases inner with
  | nil =>
    cases h
    exact ⟨[], rfl⟩
  | cons τ' inner =>
    cases h
    exact ⟨inner ++ [α], rfl⟩

theorem afterCloser?_eq_some_iff {text rest : List Symbol} :
    afterCloser? text = some rest ↔
      ∃ inner α ω, text = inner ++ α :: ω :: rest ∧ α.byte = asterisk ∧ ω.byte = slash ∧
        ¬HoldsCloser (inner ++ [α]) := by
  fun_induction afterCloser? text with
  | case1 σ τ text hσ =>
    constructor
    · rintro ⟨⟩
      exact ⟨[], σ, τ, rfl, hσ.1, hσ.2, not_holdsCloser_of_length (Nat.le_refl 1)⟩
    · intro h
      obtain ⟨inner, α, ω, he, hα, hω, hn⟩ := h
      cases inner with
      | nil =>
        cases he
        rfl
      | cons σ' inner =>
        rw [List.cons_append, List.cons.injEq] at he
        obtain ⟨rfl, he⟩ := he
        obtain ⟨tail, ht⟩ := exists_append_eq_cons he
        rw [List.cons_append, ht] at hn
        exact absurd (holdsCloser_cons_cons.mpr (.inl hσ)) hn
  | case2 σ τ text hσ ih =>
    rw [ih]
    constructor
    · intro h
      obtain ⟨inner, α, ω, he, hα, hω, hn⟩ := h
      obtain ⟨tail, ht⟩ := exists_append_eq_cons he
      refine ⟨σ :: inner, α, ω, by rw [he, List.cons_append], hα, hω, ?_⟩
      rwa [List.cons_append, ht, holdsCloser_cons_cons, or_iff_right hσ, ← ht]
    · intro h
      obtain ⟨inner, α, ω, he, hα, hω, hn⟩ := h
      cases inner with
      | nil =>
        cases he
        exact absurd ⟨hα, hω⟩ hσ
      | cons σ' inner =>
        rw [List.cons_append, List.cons.injEq] at he
        exact ⟨inner, α, ω, he.2, hα, hω, fun h ↦ hn (h.cons σ')⟩
  | case3 text hne =>
    constructor
    · rintro ⟨⟩
    · intro h
      obtain ⟨inner, α, ω, he, -, -, -⟩ := h
      have hlen := length_le_one hne
      rw [he, List.length_append, List.length_cons, List.length_cons] at hlen
      omega

end Gap

namespace Uncommented

variable {text rest : List Symbol}

theorem next_blockComment_append {σ τ α ω : Symbol} {inner : List Symbol} (hσ : σ.byte = slash)
    (hτ : τ.byte = asterisk) (hα : α.byte = asterisk) (hω : ω.byte = slash)
    (hfirst : ¬Gap.HoldsCloser (inner ++ [α])) :
    next (σ :: τ :: (inner ++ α :: ω :: rest)) = .byte space rest := by
  have hcl : Gap.afterCloser? (inner ++ α :: ω :: rest) = some rest :=
    Gap.afterCloser?_eq_some_iff.mpr ⟨inner, α, ω, rfl, hα, hω, hfirst⟩
  rw [next_blockComment hσ hτ, afterBlockComment_eq, hcl]

end Uncommented

/-- A whole comment, what is left of it where comments are cut out, and the text behind it. A line comment
reaches up to the next line break or the end and leaves nothing, a block comment up to its first closer,
and it leaves a space. -/
inductive Comment : List Symbol → List UInt8 → List Symbol → Prop
  | line {σ τ : Symbol} {inner rest : List Symbol} : σ.byte = slash → τ.byte = slash →
      (∀ υ ∈ inner, υ.byte ≠ newline) → (∀ ν ∈ rest.head?, ν.byte = newline) →
      Comment (σ :: τ :: inner) [] rest
  | block {σ τ α ω : Symbol} {inner rest : List Symbol} : σ.byte = slash → τ.byte = asterisk →
      α.byte = asterisk → ω.byte = slash → ¬Gap.HoldsCloser (inner ++ [α]) →
      Comment (σ :: τ :: (inner ++ [α, ω])) [space] rest

namespace Comment

variable {raw rest : List Symbol} {left : List UInt8}

theorem left_cases (h : Comment raw left rest) :
    (left = [] ∧ ∀ ν ∈ rest.head?, ν.byte = newline) ∨ left = [space] := by
  cases h with
  | line _ _ _ hrest => exact .inl ⟨rfl, hrest⟩
  | block => exact .inr rfl

theorem length_lt (h : Comment raw left rest) : left.length + 1 < raw.length := by
  cases h with
  | line => simp
  | block => simp

theorem next_line (h : Comment raw [] rest) :
    Uncommented.next (raw ++ rest) = Uncommented.next rest := by
  cases h with
  | line hσ hτ hinner hrest => exact Uncommented.next_lineComment_append hσ hτ hinner hrest

theorem next_block (h : Comment raw [space] rest) :
    Uncommented.next (raw ++ rest) = .byte space rest := by
  cases h with
  | @block σ τ α ω inner _ hσ hτ hα hω hfirst =>
    have happ : σ :: τ :: (inner ++ [α, ω]) ++ rest = σ :: τ :: (inner ++ α :: ω :: rest) := by simp
    rw [happ]
    exact Uncommented.next_blockComment_append hσ hτ hα hω hfirst

end Comment

namespace Uncommented

variable {text rest : List Symbol}

theorem exists_lineComment {σ τ : Symbol} (hσ : σ.byte = slash) (hτ : τ.byte = slash)
    (text : List Symbol) :
    ∃ raw, σ :: τ :: text = raw ++ text.dropWhile (fun τ ↦ τ.byte ≠ newline) ∧
      Comment raw [] (text.dropWhile fun τ ↦ τ.byte ≠ newline) := by
  refine ⟨σ :: τ :: text.takeWhile fun τ ↦ τ.byte ≠ newline, ?_, .line hσ hτ ?_ ?_⟩
  · rw [List.cons_append, List.cons_append, List.takeWhile_append_dropWhile]
  · intro υ hυ
    simpa using List.all_eq_true.mp List.all_takeWhile υ hυ
  · intro ν hν
    obtain ⟨rest, hd⟩ := List.head?_eq_some_iff.mp hν
    exact Gap.byte_of_dropWhile_eq_cons hd

/-- What a text can begin with. -/
theorem opening_cases (text : List Symbol) :
    text = [] ∨ (∃ σ rest, text = σ :: rest ∧ ¬OpensComment (σ :: rest)) ∨
      (∃ raw left rest, text = raw ++ rest ∧ Comment raw left rest) ∨
      ∃ σ τ rest, text = σ :: τ :: rest ∧ σ.byte = slash ∧ τ.byte = asterisk ∧
        ¬Gap.HoldsCloser rest := by
  by_cases hc : OpensComment text
  · match text, hc with
    | σ :: τ :: text, ⟨hσ, .inl hτ⟩ =>
      obtain ⟨raw, hraw, hcomment⟩ := exists_lineComment hσ hτ text
      exact .inr (.inr (.inl ⟨raw, [], _, hraw, hcomment⟩))
    | σ :: τ :: text, ⟨hσ, .inr hτ⟩ =>
      cases hcl : Gap.afterCloser? text with
      | none =>
        exact .inr (.inr (.inr ⟨σ, τ, text, rfl, hσ, hτ, Gap.afterCloser?_eq_none_iff.mp hcl⟩))
      | some rest =>
        obtain ⟨inner, α, ω, rfl, hα, hω, hfirst⟩ := Gap.afterCloser?_eq_some_iff.mp hcl
        have happ : σ :: τ :: (inner ++ α :: ω :: rest) = σ :: τ :: (inner ++ [α, ω]) ++ rest := by simp
        exact .inr (.inr (.inl ⟨_, [space], rest, happ, .block hσ hτ hα hω hfirst⟩))
  · cases text with
    | nil => exact .inl rfl
    | cons σ text => exact .inr (.inl ⟨σ, text, rfl, hc⟩)

theorem next_eq_unclosedComment_iff :
    next text = .unclosedComment ↔ ∃ σ τ rest, text = σ :: τ :: rest ∧ σ.byte = slash ∧
      τ.byte = asterisk ∧ ¬Gap.HoldsCloser rest := by
  constructor
  · intro h
    by_cases hc : OpensComment text
    · match text, hc with
      | σ :: τ :: text, ⟨hσ, .inl hτ⟩ =>
        rw [next_lineComment hσ hτ, afterLineComment_eq] at h
        split at h <;> cases h
      | σ :: τ :: text, ⟨hσ, .inr hτ⟩ =>
        rw [next_blockComment hσ hτ, afterBlockComment_eq] at h
        split at h
        · cases h
        · rename_i hcl
          exact ⟨σ, τ, text, rfl, hσ, hτ, Gap.afterCloser?_eq_none_iff.mp hcl⟩
    · cases text with
      | nil => cases h
      | cons σ text =>
        rw [next_of_not_opensComment hc] at h
        cases h
  · intro h
    obtain ⟨σ, τ, rest, rfl, hσ, hτ, hcl⟩ := h
    rw [next_blockComment hσ hτ, afterBlockComment_eq, Gap.afterCloser?_eq_none_iff.mpr hcl]

end Uncommented

theorem Outline.resume_blockComment {last : Option UInt8} {gap : Gap} {σ τ α ω : Symbol}
    {inner rest : List Symbol} (hσ : σ.byte = slash) (hτ : τ.byte = asterisk) (hα : α.byte = asterisk)
    (hω : ω.byte = slash) (hfirst : ¬Gap.HoldsCloser (inner ++ [α])) :
    resume last gap (σ :: τ :: (inner ++ α :: ω :: rest)) = resume last gap.withBlank rest :=
  resume_of_space (Uncommented.next_blockComment_append hσ hτ hα hω hfirst)

end ScriptMinifier
