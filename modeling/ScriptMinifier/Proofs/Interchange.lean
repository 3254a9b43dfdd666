import Mathlib
import ScriptMinifier.Proofs.LineCount
import ScriptMinifier.Proofs.Renaming

namespace ScriptMinifier

open Byte

namespace Byte

/-- The map exchanges word bytes for one another. The backslash, which is one of them, stays where it is,
and so does every byte that is no word byte. -/
structure Interchanges (f : UInt8 → UInt8) : Prop where
  fixes : ∀ c, isWord c = false → f c = c
  escape : f backslash = backslash
  word : ∀ c, isWord c = true → c ≠ backslash → isWord (f c) = true ∧ f c ≠ backslash

theorem asRead_cases (c : UInt8) : asRead c = newline ∨ asRead c = space ∨ asRead c = c := by
  unfold asRead
  split
  · exact .inl rfl
  · split
    · exact .inr (.inl rfl)
    · exact .inr (.inr rfl)

theorem space_lt_of_isWord {c : UInt8} (h : isWord c = true) : space < c := by
  simp only [isWord, isLetter, isDigit, Bool.or_eq_true, Bool.and_eq_true, decide_eq_true_eq, beq_iff_eq,
    UInt8.le_iff_toNat_le, UInt8.lt_iff_toNat_lt, ← UInt8.toNat_inj, backslash, space,
    UInt8.reduceToNat] at h ⊢
  omega

theorem asRead_of_isWord {c : UInt8} (h : isWord c = true) : asRead c = c := by
  have hlt := space_lt_of_isWord h
  have hbreak : ¬(c = newline ∨ c = carriageReturn) := by
    rintro (rfl | rfl)
    · exact absurd h (by decide)
    · exact absurd h (by decide)
  rw [asRead, if_neg hbreak, if_neg (UInt8.lt_asymm hlt)]

end Byte

namespace Symbol

def mapByte (f : UInt8 → UInt8) (σ : Symbol) : Symbol := ⟨f σ.byte, σ.width⟩

theorem totalWidth_map_mapByte (f : UInt8 → UInt8) (text : List Symbol) :
    totalWidth (text.map (mapByte f)) = totalWidth text := by
  induction text with
  | nil => rfl
  | cons σ text ih => rw [List.map_cons, totalWidth_cons, totalWidth_cons, ih, mapByte]

end Symbol

namespace Byte.Interchanges

variable {f : UInt8 → UInt8} (h : Interchanges f)

include h

theorem renames : Renames (Symbol.mapByte f) f := by
  refine ⟨fun σ ↦ rfl, h.fixes, ?_, ?_⟩
  · intro c hc
    by_cases hb : c = backslash
    · rw [hb, h.escape]
      decide
    · exact (h.word c hc hb).1
  · intro c
    constructor
    · intro hf
      by_contra hb
      cases hc : isWord c with
      | true => exact (h.word c hc hb).2 hf
      | false => exact hb ((h.fixes c hc).symm.trans hf)
    · rintro rfl
      exact h.escape

theorem asRead_map (c : UInt8) : asRead (f c) = f (asRead c) := by
  cases hc : isWord c with
  | true => rw [asRead_of_isWord hc, asRead_of_isWord (h.renames.word c hc)]
  | false =>
    rw [h.fixes c hc]
    rcases asRead_cases c with hr | hr | hr <;> rw [hr]
    · rw [h.fixes newline (by decide)]
    · rw [h.fixes space (by decide)]
    · rw [h.fixes c hc]

theorem ofText_map (text : List UInt8) :
    Symbol.ofText (text.map f) = (Symbol.ofText text).map (Symbol.mapByte f) := by
  have hcr : f carriageReturn = carriageReturn := h.fixes _ (by decide)
  have hlf : f newline = newline := h.fixes _ (by decide)
  induction text using Symbol.raw_induction with
  | nil => rfl
  | pair text ih =>
    rw [List.map_cons, List.map_cons, hcr, hlf, Symbol.ofText_lineBreakPair, Symbol.ofText_lineBreakPair, ih,
      List.map_cons, Symbol.lineBreakPair, Symbol.mapByte, hlf]
  | byte c text hc ih =>
    have hc' : ¬(f c = carriageReturn ∧ (text.map f).head? = some newline) := by
      rw [h.renames.eq_iff (by decide), List.head?_map, Option.map_eq_some_iff]
      rintro ⟨hcr, d, hd, hn⟩
      rw [h.renames.eq_iff (by decide)] at hn
      exact hc ⟨hcr, hn ▸ hd⟩
    rw [List.map_cons, Symbol.ofText_cons hc', Symbol.ofText_cons hc, ih, List.map_cons, Symbol.ofByte,
      Symbol.ofByte, Symbol.mapByte, h.asRead_map]

theorem lineBreaks_map (text : List UInt8) :
    Position.lineBreaks (text.map f) = Position.lineBreaks text := by
  have hbreak (c : UInt8) : (f c == newline) = (c == newline) := by
    rw [Bool.eq_iff_iff, beq_iff_eq, beq_iff_eq, h.renames.eq_iff (by decide)]
  rw [Position.lineBreaks, h.ofText_map, List.countP_map, Position.lineBreaks]
  simp only [Function.comp_def, Symbol.mapByte, hbreak]

theorem line_ofOffset_map (text : List UInt8) (offset : Nat) :
    (Position.ofOffset (text.map f) offset).line = (Position.ofOffset text offset).line := by
  rw [Position.ofOffset, ← List.map_take, Position.line_ofEnd, h.lineBreaks_map, Position.ofOffset,
    Position.line_ofEnd]

end Byte.Interchanges

theorem Byte.Interchanges.line_locate_map {f : UInt8 → UInt8} (h : Interchanges f) (source : List UInt8)
    (failure : Machine.Failure) :
    ((failure.map (Symbol.mapByte f)).locate (source.map f)).position.line =
      (failure.locate source).position.line := by
  have hoffset : (failure.map (Symbol.mapByte f)).offset (source.map f) =
      failure.offset source := by
    rw [Machine.Failure.offset, Machine.Failure.map, Symbol.totalWidth_map_mapByte, List.length_map,
      Machine.Failure.offset]
  rw [Machine.Failure.locate, hoffset]
  exact h.line_ofOffset_map source _

/-- Which word bytes a source is written with makes no difference: the output has them exchanged in the
same way, and a failure stays on its line. -/
theorem minify_interchange {f : UInt8 → UInt8} (h : Interchanges f) (source : List UInt8) :
    (∀ y, minify source = .ok y → minify (source.map f) = .ok (y.map f)) ∧
    ∀ e, minify source = .error e → ∃ e', minify (source.map f) = .error e' ∧
      e'.construct = e.construct ∧ e'.position.line = e.position.line := by
  have hrun := h.renames.run_map (Symbol.ofText source)
  rw [← h.ofText_map] at hrun
  rw [minify, minify, hrun]
  cases Machine.run (Symbol.ofText source) with
  | ok out =>
    constructor
    · rintro _ ⟨⟩
      rfl
    · rintro _ ⟨⟩
  | error failure =>
    constructor
    · rintro _ ⟨⟩
    · rintro _ ⟨⟩
      exact ⟨_, rfl, rfl, h.line_locate_map source failure⟩

def Byte.masked (c : UInt8) : UInt8 := if isWord c && c != backslash then 'x'.toUInt8 else c

theorem Byte.interchanges_masked : Interchanges masked := by
  refine ⟨?_, by decide, ?_⟩
  · intro c hc
    rw [masked, hc]
    rfl
  · intro c hc hb
    have hmasked : masked c = 'x'.toUInt8 := if_pos (by simp [hc, hb])
    rw [hmasked]
    decide

theorem minify_interchange_masked :
    minify (Utf8.encode "é  b\r+'\\é' + /é/") = .ok (Utf8.encode "\né b\n+'\\é'+/é/") ∧
      minify (Utf8.encode "xx  x\r+'\\xx' + /xx/") = .ok (Utf8.encode "\nxx x\n+'\\xx'+/xx/") ∧
      minify (Utf8.encode "\né 'b") = .error ⟨.string, 2, 3⟩ ∧
      ∃ e', minify (Utf8.encode "\nxx 'x") = .error e' ∧ e'.construct = .string ∧
        e'.position.line = 2 ∧ e'.position.column = 4 := by
  have h : minify (Utf8.encode "é  b\r+'\\é' + /é/") = .ok (Utf8.encode "\né b\n+'\\é'+/é/") := by cbv
  have herror : minify (Utf8.encode "\né 'b") = .error ⟨.string, 2, 3⟩ := by cbv
  have hsource : (Utf8.encode "é  b\r+'\\é' + /é/").map masked = Utf8.encode "xx  x\r+'\\xx' + /xx/" := by
    cbv
  have houtput : (Utf8.encode "\né b\n+'\\é'+/é/").map masked = Utf8.encode "\nxx x\n+'\\xx'+/xx/" := by
    cbv
  have hbad : (Utf8.encode "\né 'b").map masked = Utf8.encode "\nxx 'x" := by cbv
  have hcolumn : minify (Utf8.encode "\nxx 'x") = .error ⟨.string, 2, 4⟩ := by cbv
  have hok := (minify_interchange interchanges_masked _).1 _ h
  rw [hsource, houtput] at hok
  obtain ⟨e', he', hkind, hline⟩ := (minify_interchange interchanges_masked _).2 _ herror
  rw [hbad] at he'
  refine ⟨h, hok, herror, e', he', hkind, hline, ?_⟩
  cases hcolumn.symm.trans he'
  rfl

end ScriptMinifier
