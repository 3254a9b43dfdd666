import ScriptMinifier.Proofs.Reading

namespace ScriptMinifier

open Byte

namespace Byte

theorem asRead_asRead (c : UInt8) : asRead (asRead c) = asRead c := by
  unfold asRead
  split
  · rfl
  · split
    · rfl
    · rfl

theorem eq_of_asRead {c d : UInt8} (h : asRead c = d) (hd : Visible d) : c = d := by
  unfold asRead at h
  split at h
  · exact absurd h.symm hd.2
  · split at h
    · exact absurd h.symm hd.1
    · exact h

theorem asRead_of_ascii {c : UInt8} (h : c < 0x80) : asRead c < 0x80 := by
  unfold asRead
  split
  · decide
  · split
    · decide
    · exact h

theorem asRead_of_not_ascii {c : UInt8} (h : ¬c < 0x80) : asRead c = c := by
  have hlt {d : UInt8} (hd : d < 0x80) : c ≠ d := by
    rintro rfl
    exact h hd
  have hspace : ¬c < space := fun hc ↦ h (UInt8.lt_trans hc (by decide))
  have hbreak : ¬(c = newline ∨ c = carriageReturn) := not_or.mpr ⟨hlt (by decide), hlt (by decide)⟩
  rw [asRead, if_neg hbreak, if_neg hspace]

end Byte

namespace Symbol

/-- Induction along the reading of raw bytes, a carriage return and its line feed being one step. -/
@[elab_as_elim]
theorem raw_induction {motive : List UInt8 → Prop} (nil : motive [])
    (pair : ∀ text, motive text → motive (carriageReturn :: newline :: text))
    (byte : ∀ c text, ¬(c = carriageReturn ∧ text.head? = some newline) → motive text →
      motive (c :: text)) (text : List UInt8) : motive text := by
  induction hlen : text.length using Nat.strongRecOn generalizing text with
  | ind n ih =>
    subst hlen
    match text with
    | [] => exact nil
    | [c] => exact byte c [] (by simp) nil
    | c :: d :: text =>
      by_cases h : c = carriageReturn ∧ d = newline
      · obtain ⟨rfl, rfl⟩ := h
        refine pair text (ih _ ?_ text rfl)
        simp only [List.length_cons]
        omega
      · exact byte c (d :: text) (by simpa using h) (ih _ (Nat.lt_succ_self _) _ rfl)

@[simp] theorem totalWidth_ofText (text : List UInt8) : totalWidth (ofText text) = text.length := by
  induction text using raw_induction with
  | nil => rfl
  | pair text ih =>
    rw [ofText_lineBreakPair, totalWidth_cons, ih]
    exact Nat.add_comm 2 text.length
  | byte c text h ih =>
    rw [ofText_cons h, totalWidth_cons, ih, ofByte, List.length_cons, Nat.add_comm]

theorem exists_drop_of_suffix {text : List UInt8} {place : List Symbol} (h : place <:+ ofText text) :
    ∃ offset, ofText (text.drop offset) = place := by
  induction text using raw_induction with
  | nil => exact ⟨0, (List.suffix_nil.mp h).symm⟩
  | pair text ih =>
    rw [ofText_lineBreakPair, List.suffix_cons_iff] at h
    rcases h with rfl | h
    · exact ⟨0, ofText_lineBreakPair text⟩
    · obtain ⟨offset, ho⟩ := ih h
      exact ⟨offset + 2, ho⟩
  | byte c text hc ih =>
    rw [ofText_cons hc, List.suffix_cons_iff] at h
    rcases h with rfl | h
    · exact ⟨0, ofText_cons hc⟩
    · obtain ⟨offset, ho⟩ := ih h
      exact ⟨offset + 1, ho⟩

theorem exists_append_of_ofText {text : List UInt8} {before place : List Symbol}
    (h : ofText text = before ++ place) :
    ∃ front back, text = front ++ back ∧ ofText front = before ∧ ofText back = place := by
  induction text using raw_induction generalizing before with
  | nil =>
    obtain ⟨rfl, rfl⟩ := List.nil_eq_append_iff.mp h
    exact ⟨[], [], rfl, rfl, rfl⟩
  | pair text ih =>
    rw [ofText_lineBreakPair] at h
    cases before with
    | nil => exact ⟨[], _, rfl, rfl, by rw [ofText_lineBreakPair]; exact h⟩
    | cons σ before =>
      rw [List.cons_append, List.cons.injEq] at h
      obtain ⟨rfl, h⟩ := h
      obtain ⟨front, back, rfl, rfl, rfl⟩ := ih h
      exact ⟨carriageReturn :: newline :: front, back, rfl, ofText_lineBreakPair front, rfl⟩
  | byte c text hc ih =>
    rw [ofText_cons hc] at h
    cases before with
    | nil => exact ⟨[], _, rfl, rfl, by rw [ofText_cons hc]; exact h⟩
    | cons σ before =>
      rw [List.cons_append, List.cons.injEq] at h
      obtain ⟨rfl, h⟩ := h
      obtain ⟨front, back, rfl, rfl, rfl⟩ := ih h
      have hc' : ¬(c = carriageReturn ∧ front.head? = some newline) := by
        intro ⟨hr, hn⟩
        apply hc
        exact ⟨hr, by rw [List.head?_append, hn, Option.some_or]⟩
      exact ⟨c :: front, back, rfl, ofText_cons hc', rfl⟩

theorem asRead_of_mem_ofText {text : List UInt8} {σ : Symbol} (h : σ ∈ ofText text) :
    asRead σ.byte = σ.byte := by
  induction text using raw_induction with
  | nil => cases h
  | pair text ih =>
    rw [ofText_lineBreakPair, List.mem_cons] at h
    rcases h with rfl | h
    · rfl
    · exact ih h
  | byte c text hc ih =>
    rw [ofText_cons hc, List.mem_cons] at h
    rcases h with rfl | h
    · exact asRead_asRead c
    · exact ih h

theorem width_pos_of_mem_ofText {text : List UInt8} {σ : Symbol} (h : σ ∈ ofText text) :
    0 < σ.width := by
  induction text using raw_induction with
  | nil => cases h
  | pair text ih =>
    rw [ofText_lineBreakPair, List.mem_cons] at h
    rcases h with rfl | h
    · exact Nat.zero_lt_two
    · exact ih h
  | byte c text hc ih =>
    rw [ofText_cons hc, List.mem_cons] at h
    rcases h with rfl | h
    · exact Nat.zero_lt_one
    · exact ih h

theorem ofText_of_asRead {text : List UInt8} (h : ∀ c ∈ text, asRead c = c) :
    ofText text = text.map ofByte := by
  induction text with
  | nil => rfl
  | cons c text ih =>
    rw [List.forall_mem_cons] at h
    have hc : ¬(c = carriageReturn ∧ text.head? = some newline) := by
      intro h
      obtain ⟨rfl, -⟩ := h
      exact absurd h.1 (by decide)
    rw [ofText_cons hc, ih h.2, List.map_cons]

theorem map_byte_ofText {text : List UInt8} (h : ∀ c ∈ text, asRead c = c) :
    (ofText text).map Symbol.byte = text := by
  rw [ofText_of_asRead h, List.map_map]
  exact List.map_congr_left h |>.trans (List.map_id text)

theorem eq_cons_of_ofText {text : List UInt8} {σ : Symbol} {rest : List Symbol}
    (h : ofText text = σ :: rest) (hσ : Visible σ.byte) :
    ∃ text', text = σ.byte :: text' ∧ ofText text' = rest := by
  induction text using raw_induction with
  | nil => cases h
  | pair text _ =>
    rw [ofText_lineBreakPair] at h
    cases h
    exact absurd rfl hσ.2
  | byte c text hc _ =>
    rw [ofText_cons hc] at h
    cases h
    exact ⟨text, congrArg (· :: text) (eq_of_asRead rfl hσ), rfl⟩

theorem infix_of_suffix_ofText {text : List UInt8} {σ τ : Symbol} {rest : List Symbol}
    (h : σ :: τ :: rest <:+ ofText text) (hσ : Visible σ.byte) (hτ : Visible τ.byte) :
    [σ.byte, τ.byte] <:+: text := by
  obtain ⟨offset, ho⟩ := exists_drop_of_suffix h
  obtain ⟨text', hd, ho'⟩ := eq_cons_of_ofText ho hσ
  obtain ⟨text'', rfl, -⟩ := eq_cons_of_ofText ho' hτ
  refine ⟨text.take offset, text'', ?_⟩
  rw [List.append_assoc, List.cons_append, List.singleton_append, ← hd, List.take_append_drop]

theorem mem_of_ofText_newline {text : List UInt8} {σ : Symbol} (h : σ ∈ ofText text)
    (hσ : σ.byte = newline) : newline ∈ text ∨ carriageReturn ∈ text := by
  induction text using raw_induction with
  | nil => cases h
  | pair text _ => exact .inr (List.mem_cons_self ..)
  | byte c text hc ih =>
    rw [ofText_cons hc, List.mem_cons] at h
    rcases h with rfl | h
    · have hread : asRead c = newline := hσ
      unfold asRead at hread
      split at hread
      · rename_i hbreak
        rcases hbreak with rfl | rfl
        · exact .inl (List.mem_cons_self ..)
        · exact .inr (List.mem_cons_self ..)
      · split at hread
        · cases hread
        · rename_i hne _
          exact absurd (.inl hread) hne
    · exact (ih h).imp (List.mem_cons_of_mem c) (List.mem_cons_of_mem c)

theorem getLast?_of_ofText {text : List UInt8} {σ : Symbol} (h : σ ∈ (ofText text).getLast?)
    (hσ : Visible σ.byte) : text.getLast? = some σ.byte := by
  obtain ⟨before, hb⟩ := List.getLast?_eq_some_iff.mp h
  obtain ⟨offset, ho⟩ := exists_drop_of_suffix ⟨before, hb.symm⟩
  obtain ⟨text', hd, hnil⟩ := eq_cons_of_ofText ho hσ
  have hlen := totalWidth_ofText text'
  rw [hnil] at hlen
  obtain rfl := List.length_eq_zero_iff.mp hlen.symm
  rw [← List.take_append_drop offset text, hd]
  exact List.getLast?_concat

theorem ofText_cons_of_ne {c : UInt8} (h : c ≠ carriageReturn) (text : List UInt8) :
    ofText (c :: text) = ofByte c :: ofText text := ofText_cons fun hc ↦ h hc.1

/-- Two texts are read one after the other, unless a carriage return and its line feed come
together. -/
theorem ofText_append {text after : List UInt8}
    (h : ¬(text.getLast? = some carriageReturn ∧ after.head? = some newline)) :
    ofText (text ++ after) = ofText text ++ ofText after := by
  induction text using raw_induction with
  | nil => rfl
  | pair text ih =>
    have hih := ih fun ht ↦ h ⟨by simp [List.getLast?_cons, ht.1], ht.2⟩
    rw [List.cons_append, List.cons_append, ofText_lineBreakPair, ofText_lineBreakPair, hih,
      List.cons_append]
  | byte c text hc ih =>
    have hih := ih fun ht ↦ h ⟨by simp [List.getLast?_cons, ht.1], ht.2⟩
    have hc' : ¬(c = carriageReturn ∧ (text ++ after).head? = some newline) := by
      cases text with
      | nil =>
        rintro ⟨rfl, ha⟩
        exact h ⟨rfl, ha⟩
      | cons d text => exact hc
    rw [List.cons_append, ofText_cons hc', ofText_cons hc, hih, List.cons_append]

def normalized (text : List UInt8) : List UInt8 := (ofText text).map byte

@[simp] theorem normalized_nil : normalized [] = [] := rfl

theorem normalized_lineBreakPair (text : List UInt8) :
    normalized (carriageReturn :: newline :: text) = newline :: normalized text := by
  rw [normalized, ofText_lineBreakPair]
  rfl

theorem normalized_cons {c : UInt8} {text : List UInt8}
    (h : ¬(c = carriageReturn ∧ text.head? = some newline)) :
    normalized (c :: text) = asRead c :: normalized text := by
  rw [normalized, ofText_cons h]
  rfl

theorem normalized_cons_of_ne {c : UInt8} (h : c ≠ carriageReturn) (text : List UInt8) :
    normalized (c :: text) = asRead c :: normalized text := normalized_cons fun hc ↦ h hc.1

def joinPairs : List UInt8 → List UInt8
  | [] => []
  | [c] => [c]
  | c :: d :: text =>
    if c = carriageReturn ∧ d = newline then newline :: joinPairs text else c :: joinPairs (d :: text)

def breakReturns (text : List UInt8) : List UInt8 :=
  text.map fun c ↦ if c = carriageReturn then newline else c

def blankControls (text : List UInt8) : List UInt8 :=
  text.map fun c ↦ if c < space ∧ c ≠ newline then space else c

/-- A text rewritten as a whole: the pairs first, then the carriage returns that are left, then the other
control bytes. -/
def rewritten (text : List UInt8) : List UInt8 := blankControls (breakReturns (joinPairs text))

def rawWidths : List UInt8 → List Nat
  | [] => []
  | [_] => [1]
  | c :: d :: text =>
    if c = carriageReturn ∧ d = newline then 2 :: rawWidths text else 1 :: rawWidths (d :: text)

theorem joinPairs_cons {c : UInt8} {text : List UInt8}
    (h : ¬(c = carriageReturn ∧ text.head? = some newline)) :
    joinPairs (c :: text) = c :: joinPairs text := by
  cases text with
  | nil => rfl
  | cons d text =>
    rw [joinPairs, if_neg]
    simpa using h

theorem rawWidths_cons {c : UInt8} {text : List UInt8}
    (h : ¬(c = carriageReturn ∧ text.head? = some newline)) :
    rawWidths (c :: text) = 1 :: rawWidths text := by
  cases text with
  | nil => rfl
  | cons d text =>
    rw [rawWidths, if_neg]
    simpa using h

theorem rewritten_cons {c : UInt8} {text : List UInt8}
    (h : ¬(c = carriageReturn ∧ text.head? = some newline)) :
    rewritten (c :: text) = asRead c :: rewritten text := by
  simp only [rewritten, joinPairs_cons h, breakReturns, blankControls, List.map_cons]
  congr 1
  unfold asRead
  grind

theorem normalized_eq_rewritten (text : List UInt8) : normalized text = rewritten text := by
  induction text using raw_induction with
  | nil => rfl
  | pair text ih =>
    rw [normalized_lineBreakPair, ih]
    rfl
  | byte c text hc ih => rw [normalized_cons hc, rewritten_cons hc, ih]

theorem map_width_ofText (text : List UInt8) : (ofText text).map width = rawWidths text := by
  induction text using raw_induction with
  | nil => rfl
  | pair text ih =>
    rw [ofText_lineBreakPair, List.map_cons, ih]
    rfl
  | byte c text hc ih => rw [ofText_cons hc, rawWidths_cons hc, List.map_cons, ih, ofByte]

/-- A text rewritten as a whole, each byte with the raw bytes that it stands for. -/
def ofRewritten (text : List UInt8) : List Symbol := List.zipWith Symbol.mk (rewritten text) (rawWidths text)

theorem ofText_eq_ofRewritten (text : List UInt8) : ofText text = ofRewritten text := by
  rw [ofRewritten, ← normalized_eq_rewritten, ← map_width_ofText, normalized]
  induction ofText text with
  | nil => rfl
  | cons σ symbols ih => rw [List.map_cons, List.map_cons, List.zipWith_cons_cons, ← ih]

theorem ofText_normalized (text : List UInt8) :
    ofText (normalized text) = (ofText text).map fun σ ↦ ⟨σ.byte, 1⟩ := by
  have hread : ∀ c ∈ normalized text, asRead c = c := by
    intro c hc
    obtain ⟨σ, hσ, rfl⟩ := List.mem_map.mp hc
    exact asRead_of_mem_ofText hσ
  rw [ofText_of_asRead hread, normalized, List.map_map]
  apply List.map_congr_left
  intro σ hσ
  change (⟨asRead σ.byte, 1⟩ : Symbol) = _
  rw [asRead_of_mem_ofText hσ]

theorem totalWidth_map_one (text : List Symbol) :
    totalWidth (text.map fun σ ↦ ⟨σ.byte, 1⟩) = text.length := by
  induction text with
  | nil => rfl
  | cons σ text ih => rw [List.map_cons, totalWidth_cons, ih, List.length_cons, Nat.add_comm]

theorem length_normalized_le (text : List UInt8) : (normalized text).length ≤ text.length := by
  induction text using raw_induction with
  | nil => exact Nat.le_refl 0
  | pair text ih =>
    rw [normalized_lineBreakPair]
    simp only [List.length_cons]
    omega
  | byte c text hc ih =>
    rw [normalized_cons hc, List.length_cons, List.length_cons]
    omega

theorem normalized_append (text after : List UInt8) :
    normalized text <+: normalized (text ++ after) := by
  induction text using raw_induction with
  | nil => exact List.nil_prefix
  | pair text ih =>
    rw [List.cons_append, List.cons_append, normalized_lineBreakPair, normalized_lineBreakPair]
    exact (List.prefix_cons_inj newline).mpr ih
  | byte c text hc ih =>
    rw [normalized_cons hc, List.cons_append]
    by_cases hc' : c = carriageReturn ∧ (text ++ after).head? = some newline
    · obtain ⟨rfl, ha⟩ := hc'
      cases text with
      | nil =>
        obtain ⟨after', rfl⟩ := List.head?_eq_some_iff.mp ha
        rw [List.nil_append, normalized_lineBreakPair]
        exact (List.prefix_cons_inj newline).mpr List.nil_prefix
      | cons d text => exact absurd ⟨rfl, ha⟩ hc
    · rw [normalized_cons hc']
      exact (List.prefix_cons_inj _).mpr ih

end Symbol

end ScriptMinifier
