import Mathlib
import ScriptMinifier.Minify
import ScriptMinifier.Proofs.Decoding

namespace ScriptMinifier.Utf8

open Byte Decoder

def isBlankChar (c : Char) : Bool := ['\t', '\n', '\x0C', '\r', ' '].contains c

def Piece.isBlank (piece : Piece) : Bool := isBlankChar (piece.char?.getD '\uFFFD')

def trimBlankChars (text : List UInt8) : List UInt8 :=
  (((pieces text).dropWhile Piece.isBlank).reverse.dropWhile Piece.isBlank).reverse.flatMap
    Piece.bytes

theorem isBlankChar_iff {c : Char} : isBlankChar c = true ↔ c.toNat ∈ [0x09, 0x0A, 0x0C, 0x0D, 0x20] := by
  simp only [isBlankChar, List.contains_iff_mem, List.mem_cons, List.not_mem_nil, or_false,
    ← Char.toNat_inj]
  rfl

theorem isBlank_iff {b : UInt8} : isBlank b = true ↔ b.toNat ∈ [0x09, 0x0A, 0x0C, 0x0D, 0x20] := by
  simp only [isBlank, Bool.or_eq_true, beq_iff_eq, List.mem_cons, List.not_mem_nil, or_false,
    ← UInt8.toNat_inj, or_assoc]
  rfl

theorem isBlankChar_ascii {b : UInt8} (hb : b < 0x80) :
    isBlankChar (Char.ofNat b.toNat) = isBlank b := by
  have hlt : b.toNat < 0x80 := UInt8.lt_iff_toNat_lt.mp hb
  have hvalid : b.toNat.isValidChar := .inl (by omega)
  rw [Bool.eq_iff_iff, isBlankChar_iff, isBlank_iff, Char.toNat_ofNat, if_pos hvalid]

theorem isBlankChar_beyond {n : Nat} (hn : 0x80 ≤ n) : isBlankChar (Char.ofNat n) = false := by
  rw [Bool.eq_false_iff, Ne, isBlankChar_iff, Char.toNat_ofNat]
  split
  · simp only [List.mem_cons, List.not_mem_nil, or_false]
    omega
  · decide

theorem isBlank_beyond {b : UInt8} (hb : 0x80 ≤ b) : isBlank b = false := by
  have hle : 0x80 ≤ b.toNat := UInt8.le_iff_toNat_le.mp hb
  rw [Bool.eq_false_iff, Ne, isBlank_iff]
  simp only [List.mem_cons, List.not_mem_nil, or_false]
  omega

/-- Blanks are whole pieces: the bytes of a piece are blank exactly if the piece is whitespace. -/
structure Piece.IsUniform (piece : Piece) : Prop where
  nonempty : piece.bytes ≠ []
  blank : ∀ b ∈ piece.bytes, Byte.isBlank b = piece.isBlank

theorem Piece.isUniform_ascii {b : UInt8} (hb : b < 0x80) :
    IsUniform ⟨[b], some (Char.ofNat b.toNat)⟩ := by
  refine ⟨List.cons_ne_nil _ _, fun b' hb' ↦ ?_⟩
  rw [List.mem_singleton.mp hb']
  exact (isBlankChar_ascii hb).symm

theorem Piece.isUniform_beyond {bytes : List UInt8} {char? : Option Char} (hne : bytes ≠ [])
    (hbytes : ∀ b ∈ bytes, 0x80 ≤ b) (hchar : ∀ c ∈ char?, isBlankChar c = false) :
    IsUniform ⟨bytes, char?⟩ := by
  refine ⟨hne, fun b hb ↦ ?_⟩
  rw [isBlank_beyond (hbytes b hb)]
  cases char? with
  | none => rfl
  | some c => exact (hchar c rfl).symm

/-- A character under way has bytes outside ASCII only, and cannot come to lie in ASCII. -/
structure Unfinished.IsBeyond (p : Unfinished) : Prop where
  nonempty : p.bytes ≠ []
  bytes : ∀ b ∈ p.bytes, 0x80 ≤ b
  low : 0x80 ≤ p.low
  value : 0x80 ≤ (p.value * 64 + (p.low.toNat - 0x80)) * 64 ^ p.missing

namespace Unfinished

variable {b : UInt8} {p : Unfinished}

theorem bytes_of_ofLead? (h : ofLead? b = some p) : p.bytes = [b] := by
  unfold ofLead? at h
  dsimp only at h
  repeat' split at h
  all_goals cases h
  all_goals rfl

theorem isBeyond_of_ofLead? (h : ofLead? b = some p) : p.IsBeyond := by
  have hlow := low_of_ofLead? h
  unfold ofLead? at h
  dsimp only at h
  split at h
  · cases h
  · rename_i hb
    have hsingle : ∀ b' ∈ [b], 0x80 ≤ b' := by
      simpa using UInt8.le_trans (by decide) (UInt8.not_lt.mp hb)
    simp only [UInt8.lt_iff_toNat_lt, ← UInt8.toNat_inj, UInt8.reduceToNat] at h hb
    repeat' split at h
    all_goals cases h
    all_goals refine ⟨List.cons_ne_nil _ _, hsingle, hlow, ?_⟩
    all_goals simp only [UInt8.reduceToNat]
    all_goals omega

theorem IsBeyond.isUniform (h : p.IsBeyond) : Piece.IsUniform ⟨p.bytes, none⟩ :=
  Piece.isUniform_beyond h.nonempty h.bytes fun _ hc ↦ nomatch hc

theorem IsBeyond.value_le (h : p.IsBeyond) (hb : p.low ≤ b) :
    0x80 ≤ (p.value * 64 + (b.toNat - 0x80)) * 64 ^ p.missing := by
  have hle : p.low.toNat ≤ b.toNat := UInt8.le_iff_toNat_le.mp hb
  exact h.value.trans (Nat.mul_le_mul_right _ (by omega))

theorem IsBeyond.bytes_append (h : p.IsBeyond) (hb : p.low ≤ b) : ∀ b' ∈ p.bytes ++ [b], 0x80 ≤ b' := by
  rw [List.forall_mem_append]
  exact ⟨h.bytes, by simpa using UInt8.le_trans h.low hb⟩

end Unfinished

structure Decoder.HasRead (d : Decoder) (text : List UInt8) : Prop where
  bytes : d.finish.toList.flatMap Piece.bytes = text
  uniform : ∀ piece ∈ d.pieces.toList, piece.IsUniform
  beyond : ∀ p ∈ d.unfinished?, p.IsBeyond

namespace Decoder

theorem hasRead_push {done : Array Piece} {piece : Piece} {text : List UInt8}
    (hdone : done.toList.flatMap Piece.bytes = text) (huniform : ∀ piece ∈ done.toList, piece.IsUniform)
    (hpiece : piece.IsUniform) : HasRead ⟨done.push piece, none⟩ (text ++ piece.bytes) := by
  refine ⟨?_, ?_, fun _ hp ↦ nomatch hp⟩
  · simp [finish, hdone]
  · rw [Array.toList_push, List.forall_mem_append]
    exact ⟨huniform, by simpa using hpiece⟩

theorem hasRead_begin {done : Array Piece} {text : List UInt8}
    (hdone : done.toList.flatMap Piece.bytes = text) (huniform : ∀ piece ∈ done.toList, piece.IsUniform)
    (b : UInt8) : HasRead (begin done b) (text ++ [b]) := by
  unfold begin
  split
  · rename_i hb
    exact hasRead_push hdone huniform (Piece.isUniform_ascii hb)
  · rename_i hb
    split
    · rename_i p hp
      refine ⟨?_, huniform, ?_⟩
      · simp [finish, hdone, Unfinished.bytes_of_ofLead? hp]
      · rintro _ ⟨⟩
        exact Unfinished.isBeyond_of_ofLead? hp
    · have hsingle : ∀ b' ∈ [b], 0x80 ≤ b' := by simpa using UInt8.not_lt.mp hb
      exact hasRead_push hdone huniform (Piece.isUniform_beyond (List.cons_ne_nil _ _) hsingle (by simp))

theorem HasRead.feed {d : Decoder} {text : List UInt8} (h : d.HasRead text) (b : UInt8) :
    (d.feed b).HasRead (text ++ [b]) := by
  obtain ⟨done, unfinished?⟩ := d
  obtain ⟨hbytes, huniform, hbeyond⟩ := h
  cases unfinished? with
  | none => exact hasRead_begin hbytes huniform b
  | some p =>
    have hp := hbeyond p rfl
    simp only [finish, Array.toList_push, List.flatMap_append, List.flatMap_singleton] at hbytes
    simp only [Decoder.feed]
    split
    · rename_i hb
      have hvalue := hp.value_le hb.1
      have hall := hp.bytes_append hb.1
      have hne : p.bytes ++ [b] ≠ [] := List.concat_ne_nil b p.bytes
      split
      · rename_i hmissing
        rw [hmissing, pow_zero, mul_one] at hvalue
        rw [← hbytes, List.append_assoc]
        refine hasRead_push rfl huniform (Piece.isUniform_beyond hne hall fun c hc ↦ ?_)
        rw [← Option.some.inj hc]
        exact isBlankChar_beyond hvalue
      · rename_i missing hmissing
        rw [hmissing, pow_succ'] at hvalue
        refine ⟨by simp [finish, ← hbytes], huniform, ?_⟩
        rintro _ ⟨⟩
        refine ⟨hne, hall, UInt8.le_refl _, ?_⟩
        simpa [mul_assoc] using hvalue
    · refine hasRead_begin ?_ ?_ b
      · simpa using hbytes
      · rw [Array.toList_push, List.forall_mem_append]
        exact ⟨huniform, by simpa using hp.isUniform⟩

theorem HasRead.foldl_feed {d : Decoder} {text : List UInt8} (h : d.HasRead text) (after : List UInt8) :
    (after.foldl Decoder.feed d).HasRead (text ++ after) := by
  induction after generalizing d text with
  | nil => simpa using h
  | cons b after ih =>
    rw [List.foldl_cons, List.append_cons]
    exact ih (h.feed b)

theorem HasRead.uniform_finish {d : Decoder} {text : List UInt8} (h : d.HasRead text) :
    ∀ piece ∈ d.finish.toList, piece.IsUniform := by
  obtain ⟨done, unfinished?⟩ := d
  cases unfinished? with
  | none => exact h.uniform
  | some p =>
    rw [finish, Array.toList_push, List.forall_mem_append]
    exact ⟨h.uniform, by simpa using (h.beyond p rfl).isUniform⟩

end Decoder

theorem hasRead (text : List UInt8) : (text.foldl Decoder.feed .start).HasRead text := by
  have hstart : Decoder.start.HasRead [] := by
    refine ⟨rfl, ?_, ?_⟩
    · rintro _ ⟨⟩
    · rintro _ ⟨⟩
  exact hstart.foldl_feed text

theorem dropWhile_flatMap {l : List Piece} {f : Piece → List UInt8}
    (h : ∀ piece ∈ l, f piece ≠ [] ∧ ∀ b ∈ f piece, Byte.isBlank b = piece.isBlank) :
    (l.flatMap f).dropWhile Byte.isBlank = (l.dropWhile Piece.isBlank).flatMap f := by
  induction l with
  | nil => rfl
  | cons piece l ih =>
    rw [List.forall_mem_cons] at h
    obtain ⟨⟨hne, hblank⟩, hl⟩ := h
    rw [List.flatMap_cons, List.dropWhile_cons]
    cases hp : piece.isBlank with
    | true =>
      rw [List.dropWhile_append_of_pos (fun b hb ↦ (hblank b hb).trans hp), ih hl]
      rfl
    | false =>
      obtain ⟨b, bytes, hf⟩ := List.exists_cons_of_ne_nil hne
      have hb : Byte.isBlank b = false := (hblank b (by simp [hf])).trans hp
      rw [hf, List.cons_append, List.dropWhile_cons, hb, if_neg Bool.false_ne_true,
        if_neg Bool.false_ne_true, List.flatMap_cons, hf, List.cons_append]

/-- Blanks are characters of their own, so that a text may be trimmed byte by byte, whether it is
well formed or not. -/
theorem trimBlankChars_eq (text : List UInt8) : trimBlankChars text = trimBlanks text := by
  have huniform : ∀ piece ∈ pieces text, piece.IsUniform := (hasRead text).uniform_finish
  have hbytes : (pieces text).flatMap Piece.bytes = text := (hasRead text).bytes
  have hfront : text.dropWhile Byte.isBlank =
      ((pieces text).dropWhile Piece.isBlank).flatMap Piece.bytes := by
    rw [← dropWhile_flatMap fun piece hp ↦ ⟨(huniform piece hp).nonempty, (huniform piece hp).blank⟩, hbytes]
  rw [trimBlanks, hfront, List.reverse_flatMap, dropWhile_flatMap, trimBlankChars, List.flatMap_reverse]
  intro piece hp
  have hmem := (List.dropWhile_suffix _).subset (List.mem_reverse.mp hp)
  have hu := huniform piece hmem
  exact ⟨by simpa using hu.nonempty, by simpa using hu.blank⟩

end ScriptMinifier.Utf8
