import ScriptMinifier.Proofs.RawText

namespace ScriptMinifier

open Byte

namespace Utf8

namespace Decoder

theorem feed_eq (pieces : Array Piece) (unfinished? : Option Unfinished) (c : UInt8) :
    feed ⟨pieces, unfinished?⟩ c =
      ⟨pieces ++ (feed ⟨#[], unfinished?⟩ c).pieces, (feed ⟨#[], unfinished?⟩ c).unfinished?⟩ := by
  have hbegin (done : Array Piece) : begin (pieces ++ done) c =
      ⟨pieces ++ (begin done c).pieces, (begin done c).unfinished?⟩ := by
    unfold begin
    split
    · simp
    · split <;> simp
  cases unfinished? with
  | none => simpa [feed] using hbegin #[]
  | some p =>
    simp only [feed]
    split
    · split <;> simp
    · simpa using hbegin #[⟨p.bytes, none⟩]

theorem finish_foldl (pieces : Array Piece) (unfinished? : Option Unfinished) (text : List UInt8) :
    (text.foldl feed ⟨pieces, unfinished?⟩).finish =
      pieces ++ (text.foldl feed ⟨#[], unfinished?⟩).finish := by
  induction text generalizing pieces unfinished? with
  | nil => cases unfinished? <;> simp [finish]
  | cons c text ih =>
    rw [List.foldl_cons, List.foldl_cons, feed_eq, ih, ih (feed ⟨#[], unfinished?⟩ c).pieces,
      Array.append_assoc]

end Decoder

theorem charCount_cons {c : UInt8} (hc : c < 0x80) (text : List UInt8) :
    charCount (c :: text) = charCount text + 1 := by
  have hfeed : Decoder.feed .start c = ⟨#[⟨[c], some (Char.ofNat c.toNat)⟩], none⟩ := by
    simp [Decoder.feed, Decoder.start, Decoder.begin, hc]
  rw [charCount, pieces, List.foldl_cons, hfeed, Decoder.finish_foldl, charCount, pieces]
  simp [Decoder.start, Nat.add_comm]

end Utf8

namespace Position

/-- The number of line breaks in a raw text, a carriage return and the line feed after it being
one. -/
def lineBreaks (text : List UInt8) : Nat :=
  (Symbol.ofText text).countP fun σ ↦ σ.byte == newline

theorem endsLine_iff {c : UInt8} {text : List UInt8}
    (h : ¬(c = carriageReturn ∧ text.head? = some newline)) :
    endsLine c text = true ↔ asRead c = newline := by
  unfold endsLine asRead
  by_cases hn : c = newline
  · simp [hn]
  · by_cases hr : c = carriageReturn
    · have hne : text.head? ≠ some newline := fun ht ↦ h ⟨hr, ht⟩
      simp [hr, hne]
    · have hs : (if c < space then space else c) ≠ newline := by
        split
        · decide
        · exact hn
      simp [hn, hr, hs]

theorem lineBreaks_cons (c : UInt8) (text : List UInt8) :
    lineBreaks (c :: text) = lineBreaks text + if endsLine c text then 1 else 0 := by
  by_cases hpair : c = carriageReturn ∧ text.head? = some newline
  · obtain ⟨rfl, ht⟩ := hpair
    obtain ⟨after, rfl⟩ := List.head?_eq_some_iff.mp ht
    rw [lineBreaks, Symbol.ofText_lineBreakPair, lineBreaks, Symbol.ofText_cons_of_ne (by decide)]
    simp +decide [Symbol.lineBreakPair, Symbol.ofByte, endsLine, asRead]
  · rw [lineBreaks, Symbol.ofText_cons hpair, List.countP_cons, lineBreaks]
    simp [Symbol.ofByte, endsLine_iff hpair]

theorem fst_lastLine (line : Nat) (current text : List UInt8) :
    (lastLine line current text).1 = line + lineBreaks text := by
  induction text generalizing line current with
  | nil => rfl
  | cons c text ih =>
    rw [lastLine, lineBreaks_cons]
    split
    · rw [ih]
      omega
    · exact ih line current

theorem snd_lastLine_of_eq_zero {text : List UInt8} (h : lineBreaks text = 0) (line : Nat)
    (current : List UInt8) : (lastLine line current text).2 = current := by
  induction text with
  | nil => rfl
  | cons c text ih =>
    rw [lineBreaks_cons] at h
    rw [lastLine]
    split
    · rename_i hc
      rw [if_pos hc] at h
      cases h
    · exact ih (Nat.eq_zero_of_add_eq_zero_right h)

theorem snd_lastLine_congr {text : List UInt8} (h : lineBreaks text ≠ 0) (line line' : Nat)
    (current current' : List UInt8) :
    (lastLine line current text).2 = (lastLine line' current' text).2 := by
  induction text generalizing line line' current current' with
  | nil => exact absurd rfl h
  | cons c text ih =>
    rw [lastLine, lastLine]
    split
    · by_cases ht : lineBreaks text = 0
      · rw [snd_lastLine_of_eq_zero ht, snd_lastLine_of_eq_zero ht]
      · exact ih ht _ _ _ _
    · rename_i hc
      rw [lineBreaks_cons, if_neg hc] at h
      exact ih h _ _ _ _

theorem lastLine_append_newline (line : Nat) (current text after : List UInt8) :
    lastLine line current (text ++ newline :: after) =
      lastLine (line + lineBreaks (text ++ [newline])) after after := by
  induction text generalizing line current with
  | nil => rfl
  | cons c text ih =>
    have hends : endsLine c (text ++ newline :: after) = endsLine c (text ++ [newline]) := by
      cases text <;> rfl
    rw [List.cons_append, lastLine, hends, List.cons_append, lineBreaks_cons]
    split
    · rw [ih]
      congr 1
      omega
    · exact ih line current

theorem line_ofEnd (text : List UInt8) : (ofEnd text).line = 1 + lineBreaks text :=
  fst_lastLine 1 text text

theorem column_ofEnd (text : List UInt8) :
    (ofEnd text).column = Utf8.charCount (lastLine 1 text text).2 + 1 := rfl

theorem charCount_lastLine {c : UInt8} (hc : c < 0x80) (line : Nat) (text : List UInt8) :
    Utf8.charCount (lastLine line (c :: text) text).2 =
      Utf8.charCount (lastLine 1 text text).2 + if (ofEnd text).line = 1 then 1 else 0 := by
  rw [line_ofEnd]
  -- The character counts on the first line only.
  by_cases ht : lineBreaks text = 0
  · rw [snd_lastLine_of_eq_zero ht, snd_lastLine_of_eq_zero ht, Utf8.charCount_cons hc, ht]
    rfl
  · rw [snd_lastLine_congr ht line 1 (c :: text) text, if_neg (by omega)]
    rfl

theorem ofEnd_append {c : UInt8} (hc : c < 0x80) (hn : c ≠ newline) (hr : c ≠ carriageReturn)
    (before text : List UInt8) :
    ofEnd (before ++ newline :: c :: text) =
      ⟨(ofEnd text).line + lineBreaks (before ++ [newline]),
        (ofEnd text).column + if (ofEnd text).line = 1 then 1 else 0⟩ := by
  have hends : endsLine c text = false := by simp [endsLine, hn, hr]
  have hlast : lastLine 1 (before ++ newline :: c :: text) (before ++ newline :: c :: text) =
      lastLine (1 + lineBreaks (before ++ [newline])) (c :: text) text := by
    rw [lastLine_append_newline, lastLine, hends]
    rfl
  rw [ofEnd, hlast]
  dsimp only
  rw [fst_lastLine, charCount_lastLine hc, column_ofEnd, line_ofEnd, Nat.add_right_comm,
    Nat.add_right_comm (Utf8.charCount _)]

end Position

end ScriptMinifier
