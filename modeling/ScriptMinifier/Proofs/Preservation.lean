import Mathlib
import ScriptMinifier.Proofs.Decoding
import ScriptMinifier.Proofs.Stripping
import ScriptMinifier.Proofs.Trimming

namespace ScriptMinifier

open Byte Uncommented

namespace Utf8

def beyondAscii (chars : List Char) : List Char := chars.filter fun c ↦ 0x80 ≤ c.toNat

@[simp] theorem beyondAscii_append (chars chars' : List Char) :
    beyondAscii (chars ++ chars') = beyondAscii chars ++ beyondAscii chars' := List.filter_append ..

theorem beyondAscii_cons {c : Char} (h : c.toNat < 0x80) (chars : List Char) :
    beyondAscii (c :: chars) = beyondAscii chars := List.filter_cons_of_neg (by simpa using h)

theorem beyondAscii_cons_congr (c : Char) {chars chars' : List Char}
    (h : beyondAscii chars = beyondAscii chars') :
    beyondAscii (c :: chars) = beyondAscii (c :: chars') := by
  rw [← List.singleton_append, beyondAscii_append, h, ← beyondAscii_append, List.singleton_append]

namespace Continues

variable {b : UInt8} {pending bytes : List UInt8} {chars : List Char}

theorem exists_ascii (hb : b < 0x80) (h : Continues [] chars bytes) :
    ∃ chars', Continues [] chars' (b :: bytes) ∧ beyondAscii chars' = beyondAscii chars := by
  obtain ⟨c, hc, he⟩ := exists_encoded_one hb
  exact ⟨c :: chars, .ascii hc he h, beyondAscii_cons hc chars⟩

theorem normalized (h : Continues pending chars bytes) :
    ∃ chars', Continues pending chars' (Symbol.normalized bytes) ∧
      beyondAscii chars' = beyondAscii chars := by
  induction bytes using Symbol.raw_induction generalizing pending chars with
  | nil => exact ⟨chars, h, rfl⟩
  | pair bytes ih =>
    obtain ⟨rfl, c, chars, rfl, hc, -, h⟩ := h.of_ascii (by decide)
    obtain ⟨-, d, chars, rfl, hd, -, h⟩ := h.of_ascii (by decide)
    obtain ⟨kept, hk, he⟩ := ih h
    rw [Symbol.normalized_lineBreakPair, beyondAscii_cons hc, beyondAscii_cons hd, ← he]
    exact exists_ascii (by decide) hk
  | byte b bytes hb ih =>
    rw [Symbol.normalized_cons hb]
    by_cases hlt : b < 0x80
    · obtain ⟨rfl, c, chars, rfl, hc, -, h⟩ := h.of_ascii hlt
      obtain ⟨kept, hk, he⟩ := ih h
      rw [beyondAscii_cons hc, ← he]
      exact exists_ascii (asRead_of_ascii hlt) hk
    · rw [asRead_of_not_ascii hlt]
      cases h with
      | pending hle h =>
        obtain ⟨kept, hk, he⟩ := ih h
        exact ⟨kept, .pending hle hk, he⟩
      | ascii hc he _ => exact absurd (lt_of_encoded_one hc he) hlt
      | @lead c _ _ _ _ hc hlead h =>
        obtain ⟨kept, hk, he⟩ := ih h
        exact ⟨c :: kept, .lead hc hlead hk, beyondAscii_cons_congr c he⟩

theorem exists_append {layout : List UInt8} (hl : ∀ b ∈ layout, b < 0x80)
    (h : Continues [] chars bytes) :
    ∃ chars', Continues [] chars' (layout ++ bytes) ∧ beyondAscii chars' = beyondAscii chars := by
  induction layout with
  | nil => exact ⟨chars, h, rfl⟩
  | cons b layout ih =>
    rw [List.forall_mem_cons] at hl
    obtain ⟨kept, hk, he⟩ := ih hl.2
    rw [← he]
    exact exists_ascii hl.1 hk

end Continues

end Utf8

open Utf8

/-- Comments begin and end between whole characters. -/
theorem Comment.continues {raw rest : List Symbol} {left pending : List UInt8} {chars : List Char}
    (h : Comment raw left rest) (hc : Continues pending chars ((raw ++ rest).map Symbol.byte)) :
    pending = [] ∧ ∃ chars', Continues [] chars' (rest.map Symbol.byte) := by
  cases h with
  | @line σ τ inner rest hσ hτ _ hrest =>
    rw [List.cons_append, List.map_cons, hσ] at hc
    obtain ⟨rfl, _, _, -, -, -, hc⟩ := hc.of_ascii (by decide)
    rw [List.map_append] at hc
    obtain ⟨due, _, chars', -, hcut, -⟩ := hc.cut
    -- The line break behind the comment, or the end, cannot stand inside a character.
    have hdue : due = [] := by
      cases rest with
      | nil =>
        cases hcut
        rfl
      | cons ν rest =>
        rw [List.map_cons, hrest ν rfl] at hcut
        exact (hcut.of_ascii (by decide)).1
    subst hdue
    exact ⟨rfl, chars', hcut⟩
  | @block σ τ α ω inner rest hσ hτ hα hω _ =>
    rw [List.cons_append, List.map_cons, hσ] at hc
    obtain ⟨rfl, _, _, -, -, -, hc⟩ := hc.of_ascii (by decide)
    have hsplit : (τ :: (inner ++ [α, ω]) ++ rest).map Symbol.byte =
        (τ :: (inner ++ [α])).map Symbol.byte ++ slash :: rest.map Symbol.byte := by
      simp [hω]
    rw [hsplit] at hc
    exact ⟨rfl, hc.after_ascii (by decide)⟩

theorem Comment.ascii {raw rest : List Symbol} {left : List UInt8} (h : Comment raw left rest) :
    ∀ b ∈ left, b < 0x80 := by
  intro b hb
  rcases h.left_cases with ⟨rfl, -⟩ | rfl
  · cases hb
  · rw [List.mem_singleton.mp hb]
    decide

theorem Reads.continues {last last' : Option UInt8} {gap gap' : Gap} {text place : List Symbol}
    {trace : List Passed} (h : Reads last gap text trace last' gap' place) {pending : List UInt8}
    {chars : List Char} (hc : Continues pending chars (text.map Symbol.byte)) :
    ∃ kept, Continues pending kept (trace.flatMap Passed.bytes ++ place.map Symbol.byte) := by
  induction h generalizing pending chars with
  | here => exact ⟨chars, hc⟩
  | step hstep _ ih =>
    rw [hstep.text_eq] at hc
    rw [List.flatMap_cons, List.append_assoc]
    rcases hstep.bytes_cases with hbytes | hcomment
    · rw [List.map_append, ← hbytes] at hc
      exact hc.replace _ ih
    · obtain ⟨rfl, _, hrest⟩ := hcomment.continues hc
      obtain ⟨kept, hk⟩ := ih hrest
      obtain ⟨kept', hk', -⟩ := hk.exists_append hcomment.ascii
      exact ⟨kept', hk'⟩

namespace Outline

variable {last : Option UInt8} {gap : Gap} {outline : Outline}

theorem ascii_of_mem_separator {item : Item} {c : UInt8} (h : c ∈ separator last gap item) :
    c < 0x80 := by
  unfold separator at h
  split at h
  · split at h
    · rw [List.mem_singleton.mp h]
      decide
    · cases h
  · split at h
    · rw [List.mem_singleton.mp h]
      decide
    · cases h

/-- Only layout is dropped from a text without comments, and only layout is put in. Between the bytes
of one character no gap has been read, so nothing is put there. -/
theorem Spells.continues_render {text : List UInt8} (h : outline.Spells gap text)
    {pending : List UInt8} {kept : List Char} (hk : Continues pending kept text)
    (hp : pending ≠ [] → last.isSome ∧ gap = .none) :
    ∃ out, Continues pending out (outline.render last) ∧ beyondAscii out = beyondAscii kept := by
  induction h generalizing last pending kept with
  | finished => exact ⟨kept, hk, rfl⟩
  | space _ ih =>
    obtain ⟨rfl, c, kept, rfl, hc, -, hk⟩ := hk.of_ascii (by decide)
    rw [beyondAscii_cons hc]
    exact ih hk fun h ↦ absurd rfl h
  | newline _ ih =>
    obtain ⟨rfl, c, kept, rfl, hc, -, hk⟩ := hk.of_ascii (by decide)
    rw [beyondAscii_cons hc]
    exact ih hk fun h ↦ absurd rfl h
  | @item gap item outline text _ ih =>
    obtain ⟨due, before, after, rfl, hcut, hall⟩ := hk.cut
    obtain ⟨out, ho, he⟩ := @ih (some item.last) due after hcut fun _ ↦ ⟨rfl, rfl⟩
    have hitem := hall ho
    have hchars : beyondAscii (before ++ out) = beyondAscii (before ++ after) := by
      rw [beyondAscii_append, he, ← beyondAscii_append]
    rw [render, List.append_assoc, ← hchars]
    by_cases hpending : pending = []
    · subst hpending
      exact hitem.exists_append fun c hc ↦ ascii_of_mem_separator hc
    · have hlen := length_separator_le last gap item
      rw [if_pos (hp hpending), Nat.le_zero, List.length_eq_zero_iff] at hlen
      rw [hlen]
      exact ⟨before ++ out, hitem, rfl⟩

theorem WellCut.continues_finish (h : WellCut none outline) (options : Options) {out : List Char}
    (ho : Continues [] out (outline.render none)) :
    ∃ text, Continues [] text (options.finish (outline.render none)) ∧
      beyondAscii text = beyondAscii out := by
  rw [Options.finish]
  split
  · obtain ⟨htrim, hrender⟩ := h.render_eq
    rw [hrender] at ho
    rw [htrim]
    split at ho
    · rw [List.singleton_append] at ho
      obtain ⟨-, c, text, rfl, hc, -, htext⟩ := ho.of_ascii (by decide)
      exact ⟨text, htext, (beyondAscii_cons hc text).symm⟩
    · exact ⟨out, ho, rfl⟩
  · exact ⟨out, ho, rfl⟩

end Outline

theorem exists_read (source : String) :
    ∃ read : String, encode read = Symbol.normalized (encode source) ∧
      beyondAscii read.toList = beyondAscii source.toList := by
  obtain ⟨chars, hc, he⟩ := (continues_encode source).normalized
  refine ⟨String.ofList chars, hc.eq_encode.symm, ?_⟩
  rw [String.toList_ofList, he]

theorem exists_kept {source : String} {options : Options} {y : List UInt8}
    (h : minifyWith options (encode source) = .ok y) :
    ∃ kept : String, Stripped none .none (Symbol.ofText (encode source)) (encode kept) := by
  cases hm : minify (encode source) with
  | error e =>
    rw [minifyWith, hm] at h
    cases h
  | ok z =>
    obtain ⟨outline, ho, -, -⟩ := exists_outline hm
    rw [Outline.ofText_eq_resume] at ho
    obtain ⟨trace, last, gap, hr, -⟩ := reads_of_resume ho
    obtain ⟨chars, hc, -⟩ := (continues_encode source).normalized
    obtain ⟨kept, hk⟩ := hr.continues hc
    refine ⟨String.ofList kept, trace, last, gap, hr, ?_⟩
    rw [← hk.eq_encode, List.map_nil, List.append_nil]

theorem minifyText_of_stripped {source kept : String} (options : Options)
    (h : Stripped none .none (Symbol.ofText (encode source)) (encode kept)) :
    ∃ text, minifyText options source = .ok text ∧
      minifyWith options (encode source) = .ok (encode text) ∧
      beyondAscii text.toList = beyondAscii kept.toList := by
  obtain ⟨outline, ho, hs⟩ := h.resume_eq
  rw [← Outline.ofText_eq_resume] at ho
  obtain ⟨out, hout, he⟩ := hs.continues_render (continues_encode kept) fun h ↦ absurd rfl h
  obtain ⟨text, htext, he'⟩ := (Outline.wellCut_ofText ho).continues_finish options hout
  have hw : minifyWith options (encode source) = .ok (encode (String.ofList text)) := by
    rw [minifyWith, minify_of_outline ho, ← htext.eq_encode]
    rfl
  refine ⟨String.ofList text, ?_, hw, ?_⟩
  · rw [minifyText, hw, Except.map, decode_encode]
  · rw [String.toList_ofList, he', he]

/-- Minifying text by way of its encoding loses nothing. What is handed out is an encoding again, so
that nothing is replaced where it is decoded. Reading leaves the characters outside ASCII alone, and
of these exactly the ones outside of comments are written. -/
theorem minifyText_preserves (options : Options) (source : String) :
    (minifyText options source).map encode = minifyWith options (encode source) ∧
      (∃ read : String, encode read = Symbol.rewritten (encode source) ∧
        beyondAscii read.toList = beyondAscii source.toList) ∧
      ∀ text, minifyText options source = .ok text →
        (∃ kept : String, Stripped none .none (Symbol.ofRewritten (encode source)) (encode kept)) ∧
        ∀ kept : String, Stripped none .none (Symbol.ofRewritten (encode source)) (encode kept) →
          beyondAscii text.toList = beyondAscii kept.toList := by
  rw [← Symbol.normalized_eq_rewritten, ← Symbol.ofText_eq_ofRewritten]
  refine ⟨?_, exists_read source, ?_⟩
  · cases hw : minifyWith options (encode source) with
    | error e =>
      rw [minifyText, hw]
      rfl
    | ok y =>
      obtain ⟨kept, hs⟩ := exists_kept hw
      obtain ⟨text, ht, hw', -⟩ := minifyText_of_stripped options hs
      rw [ht, ← hw, hw']
      rfl
  · intro text ht
    constructor
    · cases hw : minifyWith options (encode source) with
      | error e =>
        rw [minifyText, hw] at ht
        cases ht
      | ok y => exact exists_kept hw
    · intro kept hs
      obtain ⟨text', ht', -, he⟩ := minifyText_of_stripped options hs
      rw [ht] at ht'
      cases ht'
      exact he

theorem minifyText_preserves_escaped :
    minifyText ⟨true⟩ "ü/*é*/'\\ß'" = .ok "ü'\\ß'" ∧
      Stripped none .none (Symbol.ofRewritten (encode "ü/*é*/'\\ß'")) (encode "ü '\\ß'") ∧
      beyondAscii "ü'\\ß'".toList = beyondAscii "ü '\\ß'".toList := by
  have ht : minifyText ⟨true⟩ "ü/*é*/'\\ß'" = .ok "ü'\\ß'" := by cbv
  have hs : Stripped none .none (Symbol.ofRewritten (encode "ü/*é*/'\\ß'")) (encode "ü '\\ß'") := by
    have hsource : Symbol.ofText (encode "ü/*é*/'\\ß'") = [⟨0xC3, 1⟩] ++ ([⟨0xBC, 1⟩] ++
        (⟨slash, 1⟩ :: ⟨asterisk, 1⟩ :: ([⟨0xC3, 1⟩, ⟨0xA9, 1⟩] ++ [⟨asterisk, 1⟩, ⟨slash, 1⟩]) ++
          (⟨singleQuote, 1⟩ :: ([⟨backslash, 1⟩, ⟨0xC3, 1⟩, ⟨0x9F, 1⟩] ++ [⟨singleQuote, 1⟩]) ++ []))) := by
      cbv
    have hbody : Item.IsBody .singleQuote [backslash, 0xC3, 0x9F] :=
      .escape (.plain (by decide) (by decide) (by decide) .nil)
    have hcloser : ¬Gap.HoldsCloser [⟨0xC3, 1⟩, ⟨0xA9, 1⟩, ⟨asterisk, 1⟩] := by
      rw [← Gap.afterCloser?_eq_none_iff]
      decide
    rw [← Symbol.ofText_eq_ofRewritten, hsource]
    refine ⟨_, _, _, .step (.ordinary (by decide)) <| .step (.ordinary (by decide)) <|
      .step (.layout (.blockComment (.block rfl rfl rfl rfl hcloser))) <|
      .step (.item (.literal (not_opensComment_of_ne (by decide) _) rfl hbody rfl)) .here, ?_⟩
    cbv
  exact ⟨ht, hs, ((minifyText_preserves _ _).2.2 _ ht).2 _ hs⟩

end ScriptMinifier
