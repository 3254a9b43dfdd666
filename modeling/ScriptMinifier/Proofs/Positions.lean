import Mathlib
import ScriptMinifier.Proofs.Normalization

namespace ScriptMinifier

open Byte

namespace Utf8

open Decoder

namespace Decoder

theorem size_finish_begin (done : Array Piece) (b : UInt8) : (begin done b).finish.size = done.size + 1 := by
  unfold begin
  split
  · simp [finish]
  · split <;> simp [finish]

theorem size_finish_feed (d : Decoder) (b : UInt8) :
    d.finish.size ≤ (d.feed b).finish.size ∧ (d.feed b).finish.size ≤ d.finish.size + 1 := by
  obtain ⟨done, unfinished?⟩ := d
  cases unfinished? with
  | none =>
    have h := size_finish_begin done b
    simp only [feed, finish] at h ⊢
    omega
  | some p =>
    simp only [feed]
    split
    · split <;> simp [finish]
    · have h := size_finish_begin (done.push ⟨p.bytes, none⟩) b
      simp only [finish, Array.size_push] at h ⊢
      omega

theorem size_finish_foldl_feed (d : Decoder) (text : List UInt8) :
    d.finish.size ≤ (text.foldl feed d).finish.size ∧
      (text.foldl feed d).finish.size ≤ d.finish.size + text.length := by
  induction text generalizing d with
  | nil => simp
  | cons b text ih =>
    have hstep := size_finish_feed d b
    have hrun := ih (d.feed b)
    simp only [List.foldl_cons, List.length_cons]
    omega

theorem awaits_foldl_feed (text : List UInt8) : Awaits (text.foldl feed .start).unfinished? := by
  induction text using List.reverseRecOn with
  | nil => exact awaits_none
  | append_singleton text b _ =>
    simp only [List.foldl_append, List.foldl_cons, List.foldl_nil]
    exact awaits_feed _ b

end Decoder

theorem charCount_append (text after : List UInt8) :
    charCount text ≤ charCount (text ++ after) ∧
      charCount (text ++ after) ≤ charCount text + after.length := by
  have h := size_finish_foldl_feed (text.foldl feed .start) after
  simpa only [charCount, pieces, List.foldl_append, Array.length_toList] using h

theorem charCount_le_length (text : List UInt8) : charCount text ≤ text.length := by
  simpa [charCount, pieces, start, finish] using (charCount_append [] text).2

theorem charCount_concat {c : UInt8} (hc : c < 0x80) (text : List UInt8) :
    charCount (text ++ [c]) = charCount text + 1 := by
  have hfeed : feed (text.foldl feed .start) c =
      ⟨(text.foldl feed .start).finish.push ⟨[c], some (Char.ofNat c.toNat)⟩, none⟩ :=
    feed_ascii (awaits_foldl_feed text) hc
  simp only [charCount, pieces, List.foldl_append, List.foldl_cons, List.foldl_nil, Array.length_toList]
  simp only [hfeed, finish, Array.size_push]

end Utf8

namespace Symbol

theorem not_pair_of_ofText_append {front back : List UInt8}
    (h : ofText (front ++ back) = ofText front ++ ofText back) :
    ¬(front.getLast? = some carriageReturn ∧ back.head? = some newline) := by
  intro hpair
  obtain ⟨front, rfl⟩ := List.getLast?_eq_some_iff.mp hpair.1
  obtain ⟨back, rfl⟩ := List.head?_eq_some_iff.mp hpair.2
  -- The whole has one symbol of width two where the parts have two of width one.
  have hwhole : ofText (front ++ [carriageReturn] ++ newline :: back) =
      ofText front ++ lineBreakPair :: ofText back := by
    rw [List.append_assoc, ofText_append (by simp +decide), List.singleton_append, ofText_lineBreakPair]
  have hfront : ofText (front ++ [carriageReturn]) = ofText front ++ [ofByte carriageReturn] :=
    ofText_append (by simp +decide)
  rw [hwhole, hfront, List.append_assoc] at h
  have hhead := (List.cons.inj (List.append_cancel_left h)).1
  exact absurd hhead (by decide)

end Symbol

namespace Position

/-- The position behind bytes as they are read: every line break begins a line, and the characters since
the last one are the columns that are taken. -/
def ofRead (read : List UInt8) : Position :=
  ⟨1 + read.count newline, 1 + Utf8.charCount (read.rtakeWhile (· ≠ newline))⟩

theorem lineBreaks_eq_count {text : List UInt8} (h : ∀ c ∈ text, asRead c = c) :
    lineBreaks text = text.count newline := by
  have hcount := List.countP_map (p := (· == newline)) (f := Symbol.byte) (l := Symbol.ofText text)
  rw [Symbol.map_byte_ofText h] at hcount
  exact hcount.symm

theorem lastLine_concat {c : UInt8} (hn : c ≠ newline) (hr : c ≠ carriageReturn) (line : Nat)
    (current text : List UInt8) :
    lastLine line (current ++ [c]) (text ++ [c]) =
      ((lastLine line current text).1, (lastLine line current text).2 ++ [c]) := by
  induction text generalizing line current with
  | nil => simp [lastLine, endsLine, hn, hr]
  | cons d text ih =>
    have hends : endsLine d (text ++ [c]) = endsLine d text := by
      have hc : (c == newline) = false := beq_false_of_ne hn
      cases text <;> simp [endsLine, bne, hc]
    simp only [List.cons_append, lastLine, hends]
    split
    · exact ih (line + 1) text
    · exact ih line current

theorem snd_lastLine_eq {text : List UInt8} (h : ∀ c ∈ text, asRead c = c) :
    (lastLine 1 text text).2 = text.rtakeWhile (· ≠ newline) := by
  induction text using List.reverseRecOn with
  | nil => rfl
  | append_singleton text c ih =>
    have htext : ∀ d ∈ text, asRead d = d := fun d hd ↦ h d (List.mem_append_left [c] hd)
    by_cases hn : c = newline
    · subst hn
      simp [lastLine_append_newline, lastLine]
    · have hr : c ≠ carriageReturn := by
        intro hr
        have hc := h c (List.mem_append_right text (List.mem_singleton_self c))
        rw [hr] at hc
        exact absurd hc (by decide)
      simp only [lastLine_concat hn hr, ih htext]
      exact (List.rtakeWhile_concat_pos _ text c (by simpa using hn)).symm

theorem ofEnd_eq_ofRead (text : List UInt8) : ofEnd text = ofRead (Symbol.normalized text) := by
  have hread : ∀ c ∈ Symbol.normalized text, asRead c = c := by
    intro c hc
    obtain ⟨σ, hσ, rfl⟩ := List.mem_map.mp hc
    exact Symbol.asRead_of_mem_ofText hσ
  have hline := line_ofEnd (Symbol.normalized text)
  have hcolumn := column_ofEnd (Symbol.normalized text)
  rw [lineBreaks_eq_count hread] at hline
  rw [snd_lastLine_eq hread, Nat.add_comm] at hcolumn
  rw [← ofEnd_normalized, ofRead, ← hline, ← hcolumn]

instance : PartialOrder Position :=
  PartialOrder.lift (fun position ↦ toLex (position.line, position.column)) fun ⟨_, _⟩ ⟨_, _⟩ h ↦ by
    cases toLex.injective h
    rfl

theorem le_iff {position position' : Position} :
    position ≤ position' ↔ position.line < position'.line ∨
      position.line = position'.line ∧ position.column ≤ position'.column :=
  Prod.Lex.toLex_le_toLex

theorem lt_iff {position position' : Position} :
    position < position' ↔ position.line < position'.line ∨
      position.line = position'.line ∧ position.column < position'.column :=
  Prod.Lex.toLex_lt_toLex

theorem line_ofRead_concat {c : UInt8} (hn : c ≠ newline) (read : List UInt8) :
    (ofRead (read ++ [c])).line = (ofRead read).line := by
  simp [ofRead, hn]

theorem column_ofRead_concat {c : UInt8} (hn : c ≠ newline) (read : List UInt8) :
    (ofRead (read ++ [c])).column =
      1 + Utf8.charCount (read.rtakeWhile (· ≠ newline) ++ [c]) := by
  simp only [ofRead]
  rw [List.rtakeWhile_concat_pos _ read c (by simpa using hn)]

theorem ofRead_lt_newline (read : List UInt8) : ofRead read < ofRead (read ++ [newline]) := by
  apply lt_iff.mpr
  simp [ofRead]

theorem ofRead_le_concat (read : List UInt8) (c : UInt8) : ofRead read ≤ ofRead (read ++ [c]) := by
  by_cases hn : c = newline
  · subst hn
    exact (ofRead_lt_newline read).le
  · have hcount := (Utf8.charCount_append (read.rtakeWhile (· ≠ newline)) [c]).1
    refine le_iff.mpr (.inr ⟨(line_ofRead_concat hn read).symm, ?_⟩)
    rw [column_ofRead_concat hn read]
    exact Nat.add_le_add_left hcount 1

theorem ofRead_lt_concat {c : UInt8} (hc : c < 0x80) (read : List UInt8) :
    ofRead read < ofRead (read ++ [c]) := by
  by_cases hn : c = newline
  · subst hn
    exact ofRead_lt_newline read
  · have hcount := Utf8.charCount_concat hc (read.rtakeWhile (· ≠ newline))
    refine lt_iff.mpr (.inr ⟨(line_ofRead_concat hn read).symm, ?_⟩)
    rw [column_ofRead_concat hn read, hcount]
    exact Nat.lt_succ_self _

theorem ofRead_mono {read read' : List UInt8} (h : read <+: read') : ofRead read ≤ ofRead read' := by
  obtain ⟨more, rfl⟩ := h
  induction more using List.reverseRecOn with
  | nil => simp
  | append_singleton more c ih =>
    have hstep := ofRead_le_concat (read ++ more) c
    rw [List.append_assoc] at hstep
    exact ih.trans hstep

/-- The offset lies between a carriage return and the line feed that belongs to it. -/
def SplitsPair (text : List UInt8) (offset : Nat) : Prop :=
  (text.take offset).getLast? = some carriageReturn ∧ (text.drop offset).head? = some newline

instance (text : List UInt8) (offset : Nat) : Decidable (SplitsPair text offset) :=
  inferInstanceAs (Decidable (_ ∧ _))

section Offsets

variable {text : List UInt8} {p q : Nat} {c : UInt8}

theorem ofOffset_eq_ofRead (text : List UInt8) (offset : Nat) :
    ofOffset text offset = ofRead (Symbol.normalized (text.take offset)) := ofEnd_eq_ofRead _

theorem normalized_take_mono (h : p ≤ q) :
    Symbol.normalized (text.take p) <+: Symbol.normalized (text.take q) := by
  have hsplit := List.take_append_drop p (text.take q)
  rw [List.take_take, Nat.min_eq_left h] at hsplit
  rw [← hsplit]
  exact Symbol.normalized_append _ _

theorem normalized_take_succ (hc : text[p]? = some c) (hpair : ¬SplitsPair text p) :
    Symbol.normalized (text.take (p + 1)) = Symbol.normalized (text.take p) ++ [asRead c] := by
  have hhead : (text.drop p).head? = some c := by rw [List.head?_drop, hc]
  have hjoin : ¬((text.take p).getLast? = some carriageReturn ∧ [c].head? = some newline) := by
    intro h
    exact hpair ⟨h.1, hhead.trans h.2⟩
  have htake : text.take (p + 1) = text.take p ++ [c] := by rw [List.take_add_one, hc]; rfl
  rw [htake, Symbol.normalized, Symbol.ofText_append hjoin, List.map_append]
  rfl

theorem ofOffset_mono (h : p ≤ q) : ofOffset text p ≤ ofOffset text q := by
  simp only [ofOffset_eq_ofRead]
  exact ofRead_mono (normalized_take_mono h)

theorem ofOffset_lt (h : p < q) (hc : text[p]? = some c) (hascii : c < 0x80)
    (hpair : ¬SplitsPair text p) : ofOffset text p < ofOffset text q := by
  have hstep := ofRead_lt_concat (asRead_of_ascii hascii) (Symbol.normalized (text.take p))
  rw [← normalized_take_succ hc hpair, ← ofOffset_eq_ofRead, ← ofOffset_eq_ofRead] at hstep
  exact hstep.trans_le (ofOffset_mono h)

theorem ofOffset_bounds (text : List UInt8) (offset : Nat) :
    (1 ≤ (ofOffset text offset).line ∧ (ofOffset text offset).line ≤ text.length + 1) ∧
      1 ≤ (ofOffset text offset).column ∧ (ofOffset text offset).column ≤ text.length + 1 := by
  have hread := (Symbol.length_normalized_le (text.take offset)).trans (List.length_take_le' offset text)
  have hline := List.count_le_length (a := newline) (l := Symbol.normalized (text.take offset))
  have hsuffix := (List.rtakeWhile_suffix (p := (· ≠ newline))
    (l := Symbol.normalized (text.take offset))).length_le
  have hcolumn := Utf8.charCount_le_length
    ((Symbol.normalized (text.take offset)).rtakeWhile (· ≠ newline))
  simp only [ofOffset_eq_ofRead, ofRead]
  omega

theorem not_splitsPair_of_delimiter {delimiter : Delimiter} (h : text[p]? = some delimiter.byte) :
    ¬SplitsPair text p := by
  intro hpair
  have hhead := hpair.2
  rw [List.head?_drop, h, Option.some.injEq] at hhead
  exact (Delimiter.visible_byte delimiter).2 hhead

theorem ofOffset_lt_of_delimiter {delimiter : Delimiter} (h : p < q)
    (hp : text[p]? = some delimiter.byte) : ofOffset text p < ofOffset text q := by
  refine ofOffset_lt h hp ?_ (not_splitsPair_of_delimiter hp)
  cases delimiter <;> decide

end Offsets

/-- Positions follow the order of offsets. They grow behind every ASCII byte but the line feed of a pair,
so that no two delimiters share a position, and they stay within the length of the text. -/
theorem ofOffset_ordered (text : List UInt8) :
    (∀ p q, p ≤ q → ofOffset text p ≤ ofOffset text q) ∧
    (∀ p q c, p < q → text[p]? = some c → c < 0x80 → ¬SplitsPair text p →
      ofOffset text p < ofOffset text q) ∧
    (∀ p q (delimiter delimiter' : Delimiter), p ≠ q → text[p]? = some delimiter.byte →
      text[q]? = some delimiter'.byte → ofOffset text p ≠ ofOffset text q) ∧
    ∀ p, (1 ≤ (ofOffset text p).line ∧ (ofOffset text p).line ≤ text.length + 1) ∧
      1 ≤ (ofOffset text p).column ∧ (ofOffset text p).column ≤ text.length + 1 := by
  refine ⟨fun p q h ↦ ofOffset_mono h, fun p q c h hc ↦ ofOffset_lt h hc, ?_, ofOffset_bounds text⟩
  intro p q delimiter delimiter' hne hp hq
  rcases Nat.lt_or_gt_of_ne hne with h | h
  · exact (ofOffset_lt_of_delimiter h hp).ne
  · exact (ofOffset_lt_of_delimiter h hq).ne'

theorem ofOffset_ordered_cut_character :
    (ofOffset (Utf8.encode "é\r\n'/") 1 = ⟨1, 2⟩ ∧
      ofOffset (Utf8.encode "é\r\n'/") 1 ≤ ofOffset (Utf8.encode "é\r\n'/") 2) ∧
    (¬SplitsPair (Utf8.encode "é\r\n'/") 2 ∧ SplitsPair (Utf8.encode "é\r\n'/") 3 ∧
      ofOffset (Utf8.encode "é\r\n'/") 2 < ofOffset (Utf8.encode "é\r\n'/") 3) ∧
    ofOffset (Utf8.encode "é\r\n'/") 4 ≠ ofOffset (Utf8.encode "é\r\n'/") 5 ∧
    (ofOffset (Utf8.encode "é\r\n'/") 9).column ≤ (Utf8.encode "é\r\n'/").length + 1 := by
  obtain ⟨hle, hlt, hne, hbounds⟩ := ofOffset_ordered (Utf8.encode "é\r\n'/")
  refine ⟨⟨by decide, hle 1 2 (by decide)⟩, ⟨by decide, by decide, ?_⟩, ?_, (hbounds 9).2.2⟩
  · exact hlt 2 3 carriageReturn (by decide) (by decide) (by decide) (by decide)
  · exact hne 4 5 .singleQuote .slash (by decide) (by decide) (by decide)

end Position

namespace Cursor

theorem exists_readOn (source : List UInt8) (count : Nat) :
    ∃ front back, source = front ++ back ∧
      Symbol.ofText source = Symbol.ofText front ++ Symbol.ofText back ∧
      (ofSource source).readOn count = (Symbol.normalized front, ⟨source, Symbol.ofText back⟩) := by
  have hsplit := (List.take_append_drop count (Symbol.ofText source)).symm
  obtain ⟨front, back, hsource, hfront, hback⟩ := Symbol.exists_append_of_ofText hsplit
  refine ⟨front, back, hsource, ?_, ?_⟩
  · rw [hfront, hback]
    exact hsplit
  · rw [ofSource, readOn_eq, Symbol.normalized, hfront, hback]

theorem offset_of_append (front back : List UInt8) :
    offset ⟨front ++ back, Symbol.ofText back⟩ = front.length := by
  simp [offset]

/-- However far a source has been read, its position is counted in the bytes that were read, and no line
break has been read in part. -/
theorem position_readOn (source : List UInt8) (count : Nat) :
    Position.ofOffset source ((ofSource source).readOn count).2.offset =
        .ofRead ((ofSource source).readOn count).1 ∧
      ¬Position.SplitsPair source ((ofSource source).readOn count).2.offset := by
  obtain ⟨front, back, rfl, happend, hread⟩ := exists_readOn source count
  rw [hread, offset_of_append]
  constructor
  · rw [Position.ofOffset_eq_ofRead, List.take_left]
  · intro h
    rw [Position.SplitsPair, List.take_left, List.drop_left] at h
    exact Symbol.not_pair_of_ofText_append happend h

example : ((ofSource (Utf8.encode "\r\r\né'")).readOn 3).2.offset = 4 ∧
    Position.ofOffset (Utf8.encode "\r\r\né'") 4 = ⟨3, 2⟩ := by decide

end Cursor

end ScriptMinifier
