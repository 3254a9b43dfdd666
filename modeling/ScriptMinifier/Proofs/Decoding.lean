import ScriptMinifier.Proofs.LineCount

namespace ScriptMinifier.Utf8

namespace Unfinished

variable {b d : UInt8}

theorem low_of_ofLead? {p : Unfinished} (h : ofLead? b = some p) : 0x80 ≤ p.low := by
  unfold ofLead? at h
  dsimp only at h
  repeat' split at h
  all_goals cases h
  all_goals simp +decide only

theorem ofLead?_two (h : 0xC2 ≤ b.toNat) (h' : b.toNat < 0xE0) :
    ofLead? b = some ⟨[b], b.toNat - 0xC0, 0x80, 0xBF, 0⟩ := by
  have h₁ : ¬b < 0xC2 := by
    rw [UInt8.lt_iff_toNat_lt]
    exact Nat.not_lt.mpr h
  have h₂ : b < 0xE0 := UInt8.lt_iff_toNat_lt.mpr h'
  rw [ofLead?, if_neg h₁, if_pos h₂]

theorem ofLead?_three (h : 0xE0 ≤ b.toNat) (h' : b.toNat < 0xF0) (hd : 0x80 ≤ d.toNat) (hd' : d.toNat ≤ 0xBF)
    (hfirst : b.toNat = 0xE0 → 0xA0 ≤ d.toNat) (hsurrogate : b.toNat = 0xED → d.toNat ≤ 0x9F) :
    ∃ low high, ofLead? b = some ⟨[b], b.toNat - 0xE0, low, high, 1⟩ ∧ low ≤ d ∧ d ≤ high := by
  have h₁ : ¬b < 0xC2 := by
    rw [UInt8.lt_iff_toNat_lt]
    exact Nat.not_lt.mpr (Nat.le_trans (by decide) h)
  have h₂ : ¬b < 0xE0 := by
    rw [UInt8.lt_iff_toNat_lt]
    exact Nat.not_lt.mpr h
  have h₃ : b < 0xF0 := UInt8.lt_iff_toNat_lt.mpr h'
  rw [ofLead?, if_neg h₁, if_neg h₂]
  by_cases he : b = 0xE0
  · exact ⟨0xA0, 0xBF, if_pos he, UInt8.le_iff_toNat_le.mpr (hfirst (by rw [he]; rfl)),
      UInt8.le_iff_toNat_le.mpr hd'⟩
  · rw [if_neg he]
    by_cases hs : b = 0xED
    · exact ⟨0x80, 0x9F, if_pos hs, UInt8.le_iff_toNat_le.mpr hd,
        UInt8.le_iff_toNat_le.mpr (hsurrogate (by rw [hs]; rfl))⟩
    · rw [if_neg hs, if_pos h₃]
      exact ⟨0x80, 0xBF, rfl, UInt8.le_iff_toNat_le.mpr hd, UInt8.le_iff_toNat_le.mpr hd'⟩

theorem ofLead?_four (h : 0xF0 ≤ b.toNat) (h' : b.toNat ≤ 0xF4) (hd : 0x80 ≤ d.toNat) (hd' : d.toNat ≤ 0xBF)
    (hfirst : b.toNat = 0xF0 → 0x90 ≤ d.toNat) (hlast : b.toNat = 0xF4 → d.toNat ≤ 0x8F) :
    ∃ low high, ofLead? b = some ⟨[b], b.toNat - 0xF0, low, high, 2⟩ ∧ low ≤ d ∧ d ≤ high := by
  have hge (n : UInt8) (hn : n.toNat ≤ 0xF0) : ¬b < n := by
    rw [UInt8.lt_iff_toNat_lt]
    omega
  have hne (n : UInt8) (hn : n.toNat < 0xF0) : b ≠ n := by
    rintro rfl
    omega
  rw [ofLead?, if_neg (hge 0xC2 (by decide)), if_neg (hge 0xE0 (by decide)), if_neg (hne 0xE0 (by decide)),
    if_neg (hne 0xED (by decide)), if_neg (hge 0xF0 (by decide))]
  by_cases he : b = 0xF0
  · exact ⟨0x90, 0xBF, if_pos he, UInt8.le_iff_toNat_le.mpr (hfirst (by rw [he]; rfl)),
      UInt8.le_iff_toNat_le.mpr hd'⟩
  · rw [if_neg he]
    by_cases hl : b = 0xF4
    · subst hl
      exact ⟨0x80, 0x8F, rfl, UInt8.le_iff_toNat_le.mpr hd, UInt8.le_iff_toNat_le.mpr (hlast rfl)⟩
    · have hlt : b < 0xF4 := by
        have : b.toNat ≠ 0xF4 := fun hb ↦ hl (UInt8.toNat_inj.mp hb)
        rw [UInt8.lt_iff_toNat_lt]
        change b.toNat < 0xF4
        omega
      rw [if_pos hlt]
      exact ⟨0x80, 0xBF, rfl, UInt8.le_iff_toNat_le.mpr hd, UInt8.le_iff_toNat_le.mpr hd'⟩

end Unfinished

namespace Decoder

variable {done : Array Piece} {bytes : List UInt8} {value : Nat} {low high b : UInt8}

/-- No character under way goes on with an ASCII byte. -/
def Awaits (unfinished? : Option Unfinished) : Prop := ∀ p ∈ unfinished?, 0x80 ≤ p.low

theorem awaits_none : Awaits none := by
  intro p hp
  cases hp

theorem awaits_begin (done : Array Piece) (b : UInt8) : Awaits (begin done b).unfinished? := by
  unfold begin
  split
  · exact awaits_none
  · split
    · rename_i p hp
      intro q hq
      cases hq
      exact Unfinished.low_of_ofLead? hp
    · exact awaits_none

theorem awaits_feed (d : Decoder) (b : UInt8) : Awaits (feed d b).unfinished? := by
  unfold feed
  split
  · exact awaits_begin _ b
  · split
    · dsimp only
      split
      · exact awaits_none
      · intro q hq
        cases hq
        exact UInt8.le_refl 0x80
    · exact awaits_begin _ b

theorem feed_last (hl : low ≤ b) (hh : b ≤ high) :
    feed ⟨done, some ⟨bytes, value, low, high, 0⟩⟩ b =
      ⟨done.push ⟨bytes ++ [b], some (Char.ofNat (value * 64 + (b.toNat - 0x80)))⟩, none⟩ := by
  simp only [feed]
  rw [if_pos ⟨hl, hh⟩]

theorem feed_more (hl : low ≤ b) (hh : b ≤ high) (missing : Nat) :
    feed ⟨done, some ⟨bytes, value, low, high, missing + 1⟩⟩ b =
      ⟨done, some ⟨bytes ++ [b], value * 64 + (b.toNat - 0x80), 0x80, 0xBF, missing⟩⟩ := by
  simp only [feed]
  rw [if_pos ⟨hl, hh⟩]

theorem feed_lead {p : Unfinished} (hb : 0x80 ≤ b.toNat) (h : Unfinished.ofLead? b = some p) :
    feed ⟨done, none⟩ b = ⟨done, some p⟩ := by
  have hlt : ¬b < 0x80 := by
    rw [UInt8.lt_iff_toNat_lt]
    exact Nat.not_lt.mpr hb
  simp only [feed, begin, if_neg hlt, h]

theorem feed_ascii {unfinished? : Option Unfinished} (h : Awaits unfinished?) (hb : b < 0x80) :
    feed ⟨done, unfinished?⟩ b =
      ⟨(finish ⟨done, unfinished?⟩).push ⟨[b], some (Char.ofNat b.toNat)⟩, none⟩ := by
  cases unfinished? with
  | none => simp [feed, begin, finish, hb]
  | some p =>
    have hlow : ¬(p.low ≤ b ∧ b ≤ p.high) := by
      intro hp
      have hle := UInt8.le_trans (h p rfl) hp.1
      exact absurd (UInt8.lt_of_le_of_lt hle hb) (UInt8.lt_irrefl _)
    simp only [feed, if_neg hlow, begin, if_pos hb, finish]

end Decoder

open Decoder

section Count

theorem size_finish_foldl (unfinished? : Option Unfinished) (c : UInt8) (text : List UInt8) :
    ((c :: text).foldl feed ⟨#[], unfinished?⟩).finish.size =
      (feed ⟨#[], unfinished?⟩ c).pieces.size +
        (text.foldl feed ⟨#[], (feed ⟨#[], unfinished?⟩ c).unfinished?⟩).finish.size := by
  rw [List.foldl_cons, finish_foldl (feed ⟨#[], unfinished?⟩ c).pieces, Array.size_append]

theorem charCount_map {f : UInt8 → UInt8} {text : List UInt8}
    (hf : ∀ c ∈ text, f c = c ∨ c < 0x80 ∧ f c < 0x80) : charCount (text.map f) = charCount text := by
  suffices h : ∀ unfinished?, Awaits unfinished? →
      ((text.map f).foldl feed ⟨#[], unfinished?⟩).finish.size =
        (text.foldl feed ⟨#[], unfinished?⟩).finish.size from h none awaits_none
  induction text with
  | nil => exact fun _ _ ↦ rfl
  | cons c text ih =>
    intro unfinished? hu
    rw [List.forall_mem_cons] at hf
    have hstep : (feed ⟨#[], unfinished?⟩ (f c)).pieces.size = (feed ⟨#[], unfinished?⟩ c).pieces.size ∧
        (feed ⟨#[], unfinished?⟩ (f c)).unfinished? = (feed ⟨#[], unfinished?⟩ c).unfinished? := by
      rcases hf.1 with he | ⟨hc, hfc⟩
      · rw [he]
        exact ⟨rfl, rfl⟩
      · rw [feed_ascii hu hc, feed_ascii hu hfc]
        simp
    rw [List.map_cons, size_finish_foldl, size_finish_foldl, hstep.1, hstep.2,
      ih hf.2 _ (awaits_feed _ c)]

end Count

section Encoded

variable {c : Char}

theorem encoded_one (h : c.toNat ≤ 0x7F) : String.utf8EncodeChar c = [UInt8.ofNat c.toNat] := if_pos h

theorem encoded_two (h : ¬c.toNat ≤ 0x7F) (h' : c.toNat ≤ 0x7FF) :
    String.utf8EncodeChar c =
      [UInt8.ofNat (c.toNat / 64 % 32 + 0xC0), UInt8.ofNat (c.toNat % 64 + 0x80)] :=
  (if_neg h).trans (if_pos h')

theorem encoded_three (h : ¬c.toNat ≤ 0x7FF) (h' : c.toNat ≤ 0xFFFF) :
    String.utf8EncodeChar c =
      [UInt8.ofNat (c.toNat / 4096 % 16 + 0xE0), UInt8.ofNat (c.toNat / 64 % 64 + 0x80),
        UInt8.ofNat (c.toNat % 64 + 0x80)] :=
  (if_neg fun hc ↦ h (Nat.le_trans hc (by decide))).trans ((if_neg h).trans (if_pos h'))

theorem encoded_four (h : ¬c.toNat ≤ 0xFFFF) :
    String.utf8EncodeChar c =
      [UInt8.ofNat (c.toNat / 262144 % 8 + 0xF0), UInt8.ofNat (c.toNat / 4096 % 64 + 0x80),
        UInt8.ofNat (c.toNat / 64 % 64 + 0x80), UInt8.ofNat (c.toNat % 64 + 0x80)] :=
  (if_neg fun hc ↦ h (Nat.le_trans hc (by decide))).trans
    ((if_neg fun hc ↦ h (Nat.le_trans hc (by decide))).trans (if_neg h))

theorem toNat_ofNat_of_lt {n : Nat} (h : n < 256) : (UInt8.ofNat n).toNat = n := by
  rw [UInt8.toNat_ofNat']
  exact Nat.mod_eq_of_lt h

theorem toNat_continuation (n : Nat) : (UInt8.ofNat (n % 64 + 0x80)).toNat = n % 64 + 0x80 :=
  toNat_ofNat_of_lt (by omega)

theorem le_continuation (n : Nat) : 0x80 ≤ UInt8.ofNat (n % 64 + 0x80) := by
  rw [UInt8.le_iff_toNat_le, toNat_continuation]
  exact Nat.le_add_left _ _

theorem continuation_le (n : Nat) : UInt8.ofNat (n % 64 + 0x80) ≤ 0xBF := by
  rw [UInt8.le_iff_toNat_le, toNat_continuation]
  change n % 64 + 0x80 ≤ 0xBF
  omega

theorem foldl_feed_encoded (done : Array Piece) (c : Char) :
    (String.utf8EncodeChar c).foldl feed ⟨done, none⟩ =
      ⟨done.push ⟨String.utf8EncodeChar c, some c⟩, none⟩ := by
  have hvalid : c.toNat < 0xD800 ∨ 0xDFFF < c.toNat ∧ c.toNat < 0x110000 := c.valid
  have hchar {n : Nat} (hn : n = c.toNat) : Char.ofNat n = c := by rw [hn, Char.ofNat_toNat]
  by_cases h₁ : c.toNat ≤ 0x7F
  · have hb := toNat_ofNat_of_lt (n := c.toNat) (by omega)
    have hlt : UInt8.ofNat c.toNat < 0x80 := by
      rw [UInt8.lt_iff_toNat_lt, hb]
      exact Nat.lt_succ_of_le h₁
    rw [encoded_one h₁, List.foldl_cons, feed_ascii awaits_none hlt, hchar hb]
    rfl
  by_cases h₂ : c.toNat ≤ 0x7FF
  · have hb := toNat_ofNat_of_lt (n := c.toNat / 64 % 32 + 0xC0) (by omega)
    have hlead := Unfinished.ofLead?_two (b := UInt8.ofNat (c.toNat / 64 % 32 + 0xC0))
      (by rw [hb]; omega) (by rw [hb]; omega)
    rw [encoded_two h₁ h₂, List.foldl_cons, feed_lead (by rw [hb]; omega) hlead, List.foldl_cons,
      feed_last (le_continuation _) (continuation_le _), hchar (by rw [hb, toNat_continuation]; omega)]
    rfl
  by_cases h₃ : c.toNat ≤ 0xFFFF
  · have hb := toNat_ofNat_of_lt (n := c.toNat / 4096 % 16 + 0xE0) (by omega)
    have hd := toNat_continuation (c.toNat / 64)
    obtain ⟨low, high, hlead, hlow, hhigh⟩ :=
      Unfinished.ofLead?_three (b := UInt8.ofNat (c.toNat / 4096 % 16 + 0xE0))
        (d := UInt8.ofNat (c.toNat / 64 % 64 + 0x80)) (by rw [hb]; omega) (by rw [hb]; omega)
        (by rw [hd]; omega) (by rw [hd]; omega) (by rw [hb, hd]; omega) (by rw [hb, hd]; omega)
    rw [encoded_three h₂ h₃, List.foldl_cons, feed_lead (by rw [hb]; omega) hlead, List.foldl_cons,
      feed_more hlow hhigh, List.foldl_cons, feed_last (le_continuation _) (continuation_le _),
      hchar (by rw [hb, hd, toNat_continuation]; omega)]
    rfl
  · have hb := toNat_ofNat_of_lt (n := c.toNat / 262144 % 8 + 0xF0) (by omega)
    have hd := toNat_continuation (c.toNat / 4096)
    obtain ⟨low, high, hlead, hlow, hhigh⟩ :=
      Unfinished.ofLead?_four (b := UInt8.ofNat (c.toNat / 262144 % 8 + 0xF0))
        (d := UInt8.ofNat (c.toNat / 4096 % 64 + 0x80)) (by rw [hb]; omega) (by rw [hb]; omega)
        (by rw [hd]; omega) (by rw [hd]; omega) (by rw [hb, hd]; omega) (by rw [hb, hd]; omega)
    rw [encoded_four h₃, List.foldl_cons, feed_lead (by rw [hb]; omega) hlead, List.foldl_cons,
      feed_more hlow hhigh, List.foldl_cons, feed_more (le_continuation _) (continuation_le _),
      List.foldl_cons, feed_last (le_continuation _) (continuation_le _),
      hchar (by rw [hb, hd, toNat_continuation, toNat_continuation]; omega)]
    rfl

theorem foldl_feed_flatMap (done : Array Piece) (chars : List Char) :
    (chars.flatMap String.utf8EncodeChar).foldl feed ⟨done, none⟩ =
      ⟨done ++ (chars.map fun c ↦ ⟨String.utf8EncodeChar c, some c⟩).toArray, none⟩ := by
  induction chars generalizing done with
  | nil => simp
  | cons c chars ih =>
    rw [List.flatMap_cons, List.foldl_append, foldl_feed_encoded, ih]
    simp

theorem encode_eq (text : String) : encode text = text.toList.flatMap String.utf8EncodeChar := by
  rw [encode, ← String.utf8Encode_toList, List.utf8Encode, List.toList_data_toByteArray]

theorem encode_ofList (chars : List Char) :
    encode (String.ofList chars) = chars.flatMap String.utf8EncodeChar := by
  rw [encode_eq, String.toList_ofList]

theorem decode_encode (text : String) : decode (encode text) = text := by
  rw [decode, pieces, encode_eq, start, foldl_feed_flatMap]
  simp [finish, Function.comp_def]

end Encoded

section Cut

variable {c : Char} {b : UInt8} {chars : List Char} {pending bytes : List UInt8}

theorem lt_of_encoded_one (h : c.toNat < 0x80) (he : String.utf8EncodeChar c = [b]) : b < 0x80 := by
  rw [encoded_one (by omega)] at he
  obtain rfl := List.singleton_inj.mp he
  rw [UInt8.lt_iff_toNat_lt, toNat_ofNat_of_lt (by omega)]
  exact h

theorem le_of_mem_encoded (h : 0x80 ≤ c.toNat) : ∀ d ∈ String.utf8EncodeChar c, 0x80 ≤ d := by
  have hle {n : Nat} (hn : 0x80 ≤ n) (hn' : n < 256) : 0x80 ≤ UInt8.ofNat n := by
    rw [UInt8.le_iff_toNat_le, toNat_ofNat_of_lt hn']
    exact hn
  have h₁ : ¬c.toNat ≤ 0x7F := by omega
  by_cases h₂ : c.toNat ≤ 0x7FF
  · simp only [encoded_two h₁ h₂, List.forall_mem_cons, List.not_mem_nil, false_imp_iff, implies_true,
      and_true]
    exact ⟨hle (by omega) (by omega), le_continuation _⟩
  by_cases h₃ : c.toNat ≤ 0xFFFF
  · simp only [encoded_three h₂ h₃, List.forall_mem_cons, List.not_mem_nil, false_imp_iff, implies_true,
      and_true]
    exact ⟨hle (by omega) (by omega), le_continuation _, le_continuation _⟩
  · simp only [encoded_four h₃, List.forall_mem_cons, List.not_mem_nil, false_imp_iff, implies_true,
      and_true]
    exact ⟨hle (by omega) (by omega), le_continuation _, le_continuation _, le_continuation _⟩

theorem exists_encoded_one (h : b < 0x80) : ∃ c : Char, c.toNat < 0x80 ∧ String.utf8EncodeChar c = [b] := by
  have hb : b.toNat < 0x80 := UInt8.lt_iff_toNat_lt.mp h
  have hc : (Char.ofNat b.toNat).toNat = b.toNat := by
    rw [Char.ofNat, dif_pos (.inl (by omega))]
    rfl
  refine ⟨Char.ofNat b.toNat, by rw [hc]; exact hb, ?_⟩
  rw [encoded_one (by omega), hc, UInt8.ofNat_toNat]

/-- A byte string that begins in the middle of a character: `pending` are the bytes still due for that
one, and then come whole characters. -/
inductive Continues : List UInt8 → List Char → List UInt8 → Prop
  | nil : Continues [] [] []
  | pending {b : UInt8} {pending : List UInt8} {chars : List Char} {bytes : List UInt8} : 0x80 ≤ b →
      Continues pending chars bytes → Continues (b :: pending) chars (b :: bytes)
  | ascii {c : Char} {b : UInt8} {chars : List Char} {bytes : List UInt8} : c.toNat < 0x80 →
      String.utf8EncodeChar c = [b] → Continues [] chars bytes → Continues [] (c :: chars) (b :: bytes)
  | lead {c : Char} {b : UInt8} {more : List UInt8} {chars : List Char} {bytes : List UInt8} :
      0x80 ≤ c.toNat → String.utf8EncodeChar c = b :: more → Continues more chars bytes →
      Continues [] (c :: chars) (b :: bytes)

namespace Continues

theorem bytes_eq (h : Continues pending chars bytes) :
    bytes = pending ++ chars.flatMap String.utf8EncodeChar := by
  induction h with
  | nil => rfl
  | pending _ _ ih => rw [ih, List.cons_append]
  | ascii _ he _ ih => rw [ih, List.flatMap_cons, he, List.nil_append, List.singleton_append, List.nil_append]
  | lead _ he _ ih => rw [ih, List.flatMap_cons, he, List.nil_append, List.cons_append]

theorem append_left (h : Continues [] chars bytes) (hp : ∀ d ∈ pending, 0x80 ≤ d) :
    Continues pending chars (pending ++ bytes) := by
  induction pending with
  | nil => exact h
  | cons d pending ih =>
    rw [List.forall_mem_cons] at hp
    exact .pending hp.1 (ih hp.2)

theorem encoded (chars : List Char) : Continues [] chars (chars.flatMap String.utf8EncodeChar) := by
  induction chars with
  | nil => exact .nil
  | cons c chars ih =>
    rw [List.flatMap_cons]
    by_cases hc : c.toNat < 0x80
    · rw [encoded_one (by omega)]
      exact .ascii hc (encoded_one (by omega)) ih
    · have hle := le_of_mem_encoded (Nat.not_lt.mp hc)
      cases he : String.utf8EncodeChar c with
      | nil => exact absurd he String.utf8EncodeChar_ne_nil
      | cons b more =>
        rw [he, List.forall_mem_cons] at hle
        exact .lead (Nat.not_lt.mp hc) he (ih.append_left hle.2)

theorem of_ascii (h : Continues pending chars (b :: bytes)) (hb : b < 0x80) :
    pending = [] ∧ ∃ c chars', chars = c :: chars' ∧ c.toNat < 0x80 ∧ String.utf8EncodeChar c = [b] ∧
      Continues [] chars' bytes := by
  have hnot : ¬0x80 ≤ b := UInt8.not_le.mpr hb
  cases h with
  | pending hle _ => exact absurd hle hnot
  | ascii hc he h => exact ⟨rfl, _, _, rfl, hc, he, h⟩
  | @lead c _ more chars _ hc he _ =>
    have hle := le_of_mem_encoded hc
    rw [he, List.forall_mem_cons] at hle
    exact absurd hle.1 hnot

/-- A byte string may be cut anywhere, and what comes behind the cut may be exchanged for anything
that continues in the same way. -/
theorem cut {front : List UInt8} (h : Continues pending chars (front ++ bytes)) :
    ∃ due chars₁ chars₂, chars = chars₁ ++ chars₂ ∧ Continues due chars₂ bytes ∧
      ∀ {other : List Char} {text : List UInt8}, Continues due other text →
        Continues pending (chars₁ ++ other) (front ++ text) := by
  induction front generalizing pending chars with
  | nil => exact ⟨pending, [], chars, rfl, h, fun h' ↦ h'⟩
  | cons b front ih =>
    rw [List.cons_append] at h
    cases h with
    | pending hle h =>
      obtain ⟨due, chars₁, chars₂, rfl, hcut, hall⟩ := ih h
      exact ⟨due, chars₁, chars₂, rfl, hcut, fun h' ↦ .pending hle (hall h')⟩
    | ascii hc he h =>
      obtain ⟨due, chars₁, chars₂, rfl, hcut, hall⟩ := ih h
      exact ⟨due, _ :: chars₁, chars₂, rfl, hcut, fun h' ↦ .ascii hc he (hall h')⟩
    | lead hc he h =>
      obtain ⟨due, chars₁, chars₂, rfl, hcut, hall⟩ := ih h
      exact ⟨due, _ :: chars₁, chars₂, rfl, hcut, fun h' ↦ .lead hc he (hall h')⟩

theorem replace (front : List UInt8) {other : List UInt8} (h : Continues pending chars (front ++ bytes))
    (hb : ∀ {due : List UInt8} {chars : List Char}, Continues due chars bytes →
      ∃ kept, Continues due kept other) : ∃ kept, Continues pending kept (front ++ other) := by
  obtain ⟨due, before, _, -, hcut, hall⟩ := h.cut
  obtain ⟨kept, hk⟩ := hb hcut
  exact ⟨before ++ kept, hall hk⟩

theorem after_ascii {front : List UInt8} (h : Continues pending chars (front ++ b :: bytes))
    (hb : b < 0x80) : ∃ chars', Continues [] chars' bytes := by
  obtain ⟨due, chars₁, chars₂, -, hcut, -⟩ := h.cut
  obtain ⟨-, _, chars', -, -, -, h'⟩ := hcut.of_ascii hb
  exact ⟨chars', h'⟩

theorem eq_encode (h : Continues [] chars bytes) : bytes = encode (String.ofList chars) := by
  rw [h.bytes_eq, encode_ofList, List.nil_append]

end Continues

theorem continues_encode (text : String) : Continues [] text.toList (encode text) := by
  rw [encode_eq]
  exact .encoded text.toList

end Cut

end ScriptMinifier.Utf8
