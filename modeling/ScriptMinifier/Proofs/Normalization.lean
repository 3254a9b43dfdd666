import Mathlib
import ScriptMinifier.Cursor
import ScriptMinifier.Proofs.Decoding
import ScriptMinifier.Proofs.Renaming
import ScriptMinifier.Proofs.Scan

namespace ScriptMinifier

open Byte

namespace Position

theorem lastLine_normalized (line : Nat) (current text : List UInt8) :
    lastLine line (Symbol.normalized current) (Symbol.normalized text) =
      ((lastLine line current text).1, Symbol.normalized (lastLine line current text).2) := by
  induction text using Symbol.raw_induction generalizing line current with
  | nil => rfl
  | pair text ih =>
    have hcr : endsLine carriageReturn (newline :: text) = false := rfl
    have hlf : endsLine newline text = true := rfl
    have hn : endsLine newline (Symbol.normalized text) = true := rfl
    rw [Symbol.normalized_lineBreakPair, lastLine, hn, lastLine, hcr, lastLine, hlf]
    exact ih (line + 1) text
  | byte c text hc ih =>
    have hread : ¬(asRead c = carriageReturn ∧ (Symbol.normalized text).head? = some newline) := by
      intro h
      have hr := asRead_asRead c
      rw [h.1] at hr
      exact absurd hr (by decide)
    have hends : endsLine (asRead c) (Symbol.normalized text) = endsLine c text := by
      rw [Bool.eq_iff_iff, endsLine_iff hread, endsLine_iff hc, asRead_asRead]
    rw [Symbol.normalized_cons hc, lastLine, hends, lastLine]
    split
    · exact ih (line + 1) text
    · exact ih line current

theorem lineBreaks_lastLine (line : Nat) {current text : List UInt8}
    (h : lineBreaks current = lineBreaks text) : lineBreaks (lastLine line current text).2 = 0 := by
  induction text generalizing line current with
  | nil => exact h
  | cons c text ih =>
    rw [lineBreaks_cons] at h
    rw [lastLine]
    split
    · exact ih (line + 1) rfl
    · rename_i hc
      rw [if_neg hc] at h
      exact ih line h

theorem normalized_of_lineBreaks_eq_zero {text : List UInt8} (h : lineBreaks text = 0) :
    Symbol.normalized text = text.map asRead := by
  induction text using Symbol.raw_induction with
  | nil => rfl
  | pair text _ =>
    rw [lineBreaks, Symbol.ofText_lineBreakPair] at h
    simp [Symbol.lineBreakPair] at h
  | byte c text hc ih =>
    rw [lineBreaks_cons] at h
    rw [Symbol.normalized_cons hc, ih (Nat.eq_zero_of_add_eq_zero_right h), List.map_cons]

theorem charCount_normalized {text : List UInt8} (h : lineBreaks text = 0) :
    Utf8.charCount (Symbol.normalized text) = Utf8.charCount text := by
  rw [normalized_of_lineBreaks_eq_zero h]
  apply Utf8.charCount_map
  intro c _
  by_cases hc : c < 0x80
  · exact .inr ⟨hc, asRead_of_ascii hc⟩
  · exact .inl (asRead_of_not_ascii hc)

theorem ofEnd_normalized (text : List UInt8) : ofEnd (Symbol.normalized text) = ofEnd text := by
  rw [ofEnd, lastLine_normalized, ofEnd]
  dsimp only
  rw [charCount_normalized (lineBreaks_lastLine 1 rfl)]

end Position

theorem Machine.Failure.locate_normalized {source : List UInt8} {failure : Machine.Failure}
    (h : failure.opening <:+ Symbol.ofText source) :
    (failure.map fun σ ↦ ⟨σ.byte, 1⟩).locate (Symbol.normalized source) = failure.locate source := by
  obtain ⟨before, hb⟩ := h
  obtain ⟨front, back, rfl, rfl, hback⟩ := Symbol.exists_append_of_ofText hb.symm
  have happ : Symbol.normalized (front ++ back) =
      Symbol.normalized front ++ failure.opening.map Symbol.byte := by
    rw [Symbol.normalized, ← hb, List.map_append]
    rfl
  have hread : (failure.map fun σ ↦ ⟨σ.byte, 1⟩).offset (Symbol.normalized (front ++ back)) =
      (Symbol.normalized front).length := by
    rw [offset, Failure.map, Symbol.totalWidth_map_one, happ, List.length_append, List.length_map]
    omega
  rw [locate, locate, Position.ofOffset, hread, happ, List.take_left, Position.ofEnd_normalized,
    Position.ofOffset, offset_append hback, List.take_left]
  rfl

theorem minify_normalized (source : List UInt8) : minify (Symbol.normalized source) = minify source := by
  have hrun := (renames_id (f := fun σ ↦ ⟨σ.byte, 1⟩) fun _ ↦ rfl).run_map (Symbol.ofText source)
  rw [minify, Symbol.ofText_normalized, hrun, minify]
  cases hr : Machine.run (Symbol.ofText source) with
  | ok y => exact congrArg Except.ok (List.map_id y)
  | error failure =>
    have hopening : failure.opening <:+ Symbol.ofText source := by
      rw [Machine.run_eq_render] at hr
      cases ho : Outline.ofText none (Symbol.ofText source) with
      | ok outline =>
        rw [ho] at hr
        cases hr
      | error failure' =>
        rw [ho] at hr
        cases hr
        obtain ⟨_, _, hs, -⟩ := Outline.ofText_eq_error_iff.mp ho
        exact hs.suffix
    exact congrArg Except.error (Machine.Failure.locate_normalized hopening)

/-- The line endings that may stand before a text. A carriage return alone is none before a line
feed, with which it is read as one. -/
inductive LineEnding (after : List UInt8) : List UInt8 → Prop
  | lineFeed : LineEnding after [newline]
  | pair : LineEnding after [carriageReturn, newline]
  | carriageReturn : after.head? ≠ some newline → LineEnding after [carriageReturn]

theorem LineEnding.normalized_append {ending after : List UInt8} (h : LineEnding after ending) :
    Symbol.normalized (ending ++ after) = newline :: Symbol.normalized after := by
  cases h with
  | lineFeed => exact Symbol.normalized_cons_of_ne (by decide) after
  | pair => exact Symbol.normalized_lineBreakPair after
  | carriageReturn ha => exact Symbol.normalized_cons fun h ↦ ha h.2

/-- Two texts that differ in the style of their line endings and in the control bytes that stand for
spaces, and in nothing else. -/
inductive Respells : List UInt8 → List UInt8 → Prop
  | nil : Respells [] []
  | lineEnding {ending ending' text text' : List UInt8} : LineEnding text ending →
      LineEnding text' ending' → Respells text text' → Respells (ending ++ text) (ending' ++ text')
  | blank {c c' : UInt8} {text text' : List UInt8} : asRead c = space → asRead c' = space →
      Respells text text' → Respells (c :: text) (c' :: text')
  | byte {c : UInt8} {text text' : List UInt8} : space < c → Respells text text' →
      Respells (c :: text) (c :: text')

theorem ne_carriageReturn_of_asRead {c : UInt8} (h : asRead c = space) : c ≠ carriageReturn := by
  rintro rfl
  exact absurd h (by decide)

theorem Respells.normalized_eq {text text' : List UInt8} (h : Respells text text') :
    Symbol.normalized text = Symbol.normalized text' := by
  induction h with
  | nil => rfl
  | lineEnding he he' _ ih => rw [he.normalized_append, he'.normalized_append, ih]
  | blank hc hc' _ ih =>
    rw [Symbol.normalized_cons_of_ne (ne_carriageReturn_of_asRead hc),
      Symbol.normalized_cons_of_ne (ne_carriageReturn_of_asRead hc'), hc, hc', ih]
  | @byte c text text' hc _ ih =>
    have hne : c ≠ carriageReturn := by
      rintro rfl
      exact absurd hc (by decide)
    rw [Symbol.normalized_cons_of_ne hne, Symbol.normalized_cons_of_ne hne, ih]

namespace Cursor

def readOn : Nat → Cursor → List UInt8 × Cursor
  | 0, cursor => ([], cursor)
  | count + 1, cursor =>
    let (c?, cursor) := cursor.next
    let (read, cursor) := cursor.readOn count
    (c?.toList ++ read, cursor)

theorem readOn_eq (count : Nat) (source : List UInt8) (text : List Symbol) :
    readOn count ⟨source, text⟩ = ((text.take count).map Symbol.byte, ⟨source, text.drop count⟩) := by
  induction count generalizing text with
  | zero => rfl
  | succ count ih =>
    cases text with
    | nil => simp [readOn, next, peek, ih]
    | cons σ text => simp [readOn, next, peek, ih]

/-- Draining a cursor is taking the next byte for as long as there is one. -/
theorem readOn_eq_drain (cursor : Cursor) : cursor.readOn cursor.rest.length = cursor.drain := by
  obtain ⟨source, text⟩ := cursor
  simp only [readOn_eq, drain, List.take_length, List.drop_length]

theorem next_drain (cursor : Cursor) : cursor.drain.2.next = (none, cursor.drain.2) := rfl

end Cursor

/-- Only what is read of a source matters, for the output as for the place of a failure. The style of
line endings and the control bytes used for blanks make no difference anywhere. -/
theorem minify_drain (source : List UInt8) :
    (∃ count, (Cursor.ofSource source).readOn count = (Cursor.ofSource source).drain) ∧
      (Cursor.ofSource source).drain.2.next.1 = none ∧
      minify (Cursor.ofSource source).drain.1 = minify source ∧
      ∀ source', Respells source source' → minify source' = minify source := by
  refine ⟨⟨_, Cursor.readOn_eq_drain _⟩, ?_, minify_normalized source, ?_⟩
  · rw [Cursor.next_drain]
  · intro source' h
    rw [← minify_normalized source', ← h.normalized_eq, minify_normalized source]

theorem minify_drain_escaped_break :
    Respells (Utf8.encode "'\\\r\n'\t\r'a") (Utf8.encode "'\\\n'\x0b\n'a") ∧
      minify (Utf8.encode "'\\\n'\x0b\n'a") = minify (Utf8.encode "'\\\r\n'\t\r'a") ∧
      minify (Utf8.encode "'\\\n'\x0b\n'a") = .error ⟨.string, 3, 1⟩ := by
  have h : Respells (Utf8.encode "'\\\r\n'\t\r'a") (Utf8.encode "'\\\n'\x0b\n'a") :=
    .byte (by decide) <| .byte (by decide) <| .lineEnding .pair .lineFeed <| .byte (by decide) <|
      .blank (by decide) (by decide) <| .lineEnding (.carriageReturn (by decide)) .lineFeed <|
      .byte (by decide) <| .byte (by decide) .nil
  exact ⟨h, (minify_drain _).2.2.2 _ h, by cbv⟩

end ScriptMinifier
