import Mathlib
import ScriptMinifier.Fuzz.Fragment
import ScriptMinifier.Proofs.CommentLayout
import ScriptMinifier.Proofs.Idempotence

namespace ScriptMinifier

open Byte

theorem Byte.asRead_of_space_le {c : UInt8} (h : space ≤ c) : asRead c = c := by
  have hlt : ¬c < space := UInt8.not_lt.mpr h
  have hbreak : ¬(c = newline ∨ c = carriageReturn) := by
    intro hc
    rcases hc with rfl | rfl
    · exact hlt (by decide)
    · exact hlt (by decide)
  simp only [asRead, hbreak, hlt, if_false]

/-- A string literal and nothing else: a quote, a body in which the literal goes on, and the quote
again. -/
def IsStringLiteral (text : List UInt8) : Prop :=
  ∃ quote body, quote ≠ Delimiter.slash ∧ Item.IsBody quote body ∧ (∀ c ∈ body, asRead c = c) ∧
    text = (Item.literal quote body).bytes

/-- A block comment and nothing else: no closer stands behind its opening but the one at its end. -/
def IsBlockComment (text : List UInt8) : Prop :=
  ∃ inner, text = [slash, asterisk] ++ inner ++ [asterisk, slash] ∧
    ¬[asterisk, slash] <:+: inner ++ [asterisk]

theorem Delimiter.ofQuote?_byte {delimiter : Delimiter} (h : delimiter ≠ .slash) :
    ofQuote? delimiter.byte = some delimiter := by
  cases delimiter with
  | singleQuote => rfl
  | doubleQuote => rfl
  | slash => exact absurd rfl h

theorem Outline.wellCut_literal {quote : Delimiter} {body : List UInt8} (hq : quote ≠ .slash)
    (hbody : Item.IsBody quote body) (hread : ∀ c ∈ body, asRead c = c) :
    WellCut none [(.none, .literal quote body)] := by
  have hbyte : quote.byte ≠ slash := by
    cases quote with
    | singleQuote => decide
    | doubleQuote => decide
    | slash => exact absurd rfl hq
  have hquote : asRead quote.byte = quote.byte := by cases quote <;> rfl
  refine .cons (.literal ?_ hbody fun h ↦ absurd h hq) ?_ .nil
  · simpa only [Item.delimiter?, hbyte, if_false] using Delimiter.ofQuote?_byte hq
  · intro c hc
    simp only [Item.bytes, List.mem_append, List.mem_cons, List.not_mem_nil, or_false] at hc
    rcases hc with (rfl | hc) | rfl
    · exact hquote
    · exact hread c hc
    · exact hquote

theorem IsStringLiteral.minify_eq {text : List UInt8} (h : IsStringLiteral text) :
    minify text = .ok text := by
  obtain ⟨quote, body, hq, hbody, hread, rfl⟩ := h
  have hrender : Outline.render none [(.none, .literal quote body)] = (Item.literal quote body).bytes := by
    have hopens : (Item.literal quote body).opensStatement = false := beq_false_of_ne hq
    simp [Outline.render, Outline.separator, Gap.holdsBreak, hopens]
  have hwell := Outline.wellCut_literal hq hbody hread
  have hminify := (minify_render_iff hwell).mpr (by simp [Outline.fusesSlash])
  rwa [hrender] at hminify

theorem infix_closer_concat {inner : List UInt8} :
    [asterisk, slash] <:+: inner ++ [asterisk] ↔ [asterisk, slash] <:+: inner := by
  constructor
  · intro h
    rcases List.infix_concat_iff.mp h with ⟨before, hend⟩ | h
    · have hlast := congrArg List.getLast? hend
      simp +decide at hlast
    · exact h
  · intro h
    exact h.trans (List.prefix_append inner [asterisk]).isInfix

theorem isBlockComment_iff {inner : List UInt8} :
    IsBlockComment ([slash, asterisk] ++ inner ++ [asterisk, slash]) ↔ ¬[asterisk, slash] <:+: inner := by
  constructor
  · intro h
    obtain ⟨inner', he, hfirst⟩ := h
    have heq : inner = inner' := by simpa using he
    rwa [← heq, infix_closer_concat] at hfirst
  · intro h
    exact ⟨inner, rfl, infix_closer_concat.not.mpr h⟩

theorem IsBlockComment.minify_eq {text : List UInt8} (h : IsBlockComment text) : minify text = .ok [] := by
  obtain ⟨inner, rfl, hfirst⟩ := h
  have hinner : ¬[asterisk, slash] <:+: inner := infix_closer_concat.not.mp hfirst
  have hcut : Outline.ofText none (Symbol.ofText ([slash, asterisk] ++ inner ++ [asterisk, slash])) =
      .ok [] := by
    rw [Outline.ofText_eq_resume, ← List.append_nil ([slash, asterisk] ++ inner ++ [asterisk, slash]),
      Outline.resume_rawBlockComment hinner]
    exact Outline.resume_of_finished rfl
  exact minify_of_outline hcut

namespace Fuzz.Fragment

def closersAndSlash : Nat → List UInt8
  | 0 => [slash]
  | n + 1 => asterisk :: slash :: closersAndSlash n

/-- An asterisk and a slash stand on both sides of one or more closers, so that they come together when
these are struck out. -/
def HidesCloser (text : List UInt8) : Prop := ∃ n, asterisk :: closersAndSlash (n + 1) <:+: text

theorem closersAndSlash_ne_nil (n : Nat) : closersAndSlash n ≠ [] := by
  cases n <;> exact List.cons_ne_nil _ _

theorem closersAndSlash_prefix_cons {n : Nat} {c d : UInt8} {text : List UInt8}
    (hcd : ¬(c = asterisk ∧ d = slash)) :
    closersAndSlash n <+: c :: d :: text ↔ n = 0 ∧ c = slash := by
  cases n with
  | zero => simp [closersAndSlash, List.cons_prefix_cons, eq_comm]
  | succ n =>
    simp only [closersAndSlash, List.cons_prefix_cons, Nat.add_one_ne_zero, false_and, iff_false]
    intro h
    exact hcd ⟨h.1.symm, h.2.1.symm⟩

theorem head?_withoutClosers {text : List UInt8} :
    (withoutClosers text).head? = some slash ↔ ∃ n, closersAndSlash n <+: text := by
  fun_induction withoutClosers text with
  | case1 => simp [List.prefix_nil, closersAndSlash_ne_nil]
  | case2 c =>
    constructor
    · intro h
      exact ⟨0, by simpa [closersAndSlash, eq_comm] using h⟩
    · intro h
      obtain ⟨n, hn⟩ := h
      cases n with
      | zero => simpa [closersAndSlash, eq_comm] using hn
      | succ n => simp [closersAndSlash, List.cons_prefix_cons] at hn
  | case3 c d text hcd ih =>
    obtain ⟨rfl, rfl⟩ := hcd
    rw [ih]
    constructor
    · intro h
      obtain ⟨n, hn⟩ := h
      exact ⟨n + 1, by simpa [closersAndSlash, List.cons_prefix_cons] using hn⟩
    · intro h
      obtain ⟨n, hn⟩ := h
      cases n with
      | zero => simp +decide [closersAndSlash, List.cons_prefix_cons] at hn
      | succ n => exact ⟨n, by simpa [closersAndSlash, List.cons_prefix_cons] using hn⟩
  | case4 c d text hcd _ => simp [closersAndSlash_prefix_cons hcd]

theorem hidesCloser_cons {c : UInt8} {text : List UInt8} :
    HidesCloser (c :: text) ↔ (c = asterisk ∧ ∃ n, closersAndSlash (n + 1) <+: text) ∨ HidesCloser text := by
  simp only [HidesCloser, List.infix_cons_iff, List.cons_prefix_cons, exists_or, exists_and_left,
    eq_comm (a := asterisk)]

/-- Striking out the closers leaves one exactly where others have kept its two bytes apart. -/
theorem infix_withoutClosers_iff {text : List UInt8} :
    [asterisk, slash] <:+: withoutClosers text ↔ HidesCloser text := by
  fun_induction withoutClosers text with
  | case1 => simp [HidesCloser]
  | case2 c => simp [HidesCloser, closersAndSlash, List.infix_cons_iff, List.cons_prefix_cons]
  | case3 c d text hcd ih =>
    obtain ⟨rfl, rfl⟩ := hcd
    rw [ih, hidesCloser_cons, hidesCloser_cons]
    simp +decide [closersAndSlash, List.cons_prefix_cons]
  | case4 c d text hcd ih =>
    have hhead : [slash] <+: withoutClosers (d :: text) ↔ ∃ n, closersAndSlash n <+: d :: text := by
      rw [← head?_withoutClosers]
      cases withoutClosers (d :: text) <;> simp [List.cons_prefix_cons, eq_comm]
    rw [List.infix_cons_iff, List.cons_prefix_cons, hhead, ih, hidesCloser_cons (c := c)]
    -- The two bytes do not stand side by side in the text, so at least one closer lies between them.
    apply or_congr_left
    constructor
    · intro h
      obtain ⟨rfl, n, hn⟩ := h
      cases n with
      | zero =>
        have hd : slash = d := (List.cons_prefix_cons.mp hn).1
        exact absurd ⟨rfl, hd.symm⟩ hcd
      | succ n => exact ⟨rfl, n, hn⟩
    · intro h
      obtain ⟨rfl, n, hn⟩ := h
      exact ⟨rfl, n + 1, hn⟩

theorem isBody_filter_isPlain (quote : Delimiter) (text : List UInt8) :
    Item.IsBody quote (text.filter (isPlain quote.byte)) := by
  induction text with
  | nil => exact .nil
  | cons c text ih =>
    by_cases hc : isPlain quote.byte c = true
    · rw [List.filter_cons_of_pos hc]
      simp only [isPlain, Bool.and_eq_true, bne_iff_ne, decide_eq_true_eq] at hc
      obtain ⟨⟨hquote, hback⟩, hspace⟩ := hc
      refine .plain ?_ hquote hback ih
      rintro rfl
      exact absurd hspace (by decide)
    · rwa [List.filter_cons_of_neg hc]

theorem asRead_of_isPlain {quote c : UInt8} (h : isPlain quote c = true) : asRead c = c := by
  simp only [isPlain, Bool.and_eq_true, decide_eq_true_eq] at h
  exact asRead_of_space_le h.2

variable {supply : Supply}

theorem ofSupply_stringLiteral (h : (supply.chooseIndex 4).1 = 0) :
    ∃ quote : Delimiter, quote ≠ .slash ∧ ∃ text : List UInt8,
      ofSupply supply = .stringLiteral quote.byte (text.filter (isPlain quote.byte)) := by
  obtain ⟨rest, hchosen⟩ : ∃ rest, supply.chooseIndex 4 = (0, rest) := ⟨_, Prod.ext h rfl⟩
  by_cases hquote : (rest.chooseIndex 2).1 = 0
  · refine ⟨.singleQuote, by decide, (rest.chooseIndex 2).2.chooseText, ?_⟩
    simp only [ofSupply, hchosen, hquote, if_true]
    rfl
  · refine ⟨.doubleQuote, by decide, (rest.chooseIndex 2).2.chooseText, ?_⟩
    simp only [ofSupply, hchosen, hquote, if_false]
    rfl

theorem ofSupply_blockComment (h : (supply.chooseIndex 4).1 = 1) :
    ofSupply supply = .blockComment (withoutClosers (supply.chooseIndex 4).2.chooseText) := by
  obtain ⟨rest, hchosen⟩ : ∃ rest, supply.chooseIndex 4 = (1, rest) := ⟨_, Prod.ext h rfl⟩
  simp only [ofSupply, hchosen]

theorem isStringLiteral_of_ofSupply (h : (supply.chooseIndex 4).1 = 0) :
    IsStringLiteral (ofSupply supply).bytes := by
  obtain ⟨quote, hq, text, hfragment⟩ := ofSupply_stringLiteral h
  refine ⟨quote, _, hq, isBody_filter_isPlain quote text, ?_, congrArg bytes hfragment⟩
  intro c hc
  exact asRead_of_isPlain (List.mem_filter.mp hc).2

theorem isBlockComment_of_ofSupply_iff (h : (supply.chooseIndex 4).1 = 1) :
    IsBlockComment (ofSupply supply).bytes ↔ ¬HidesCloser (supply.chooseIndex 4).2.chooseText := by
  have hbytes : (ofSupply supply).bytes =
      [slash, asterisk] ++ withoutClosers (supply.chooseIndex 4).2.chooseText ++ [asterisk, slash] := by
    rw [ofSupply_blockComment h]
    rfl
  rw [hbytes, isBlockComment_iff, infix_withoutClosers_iff]

/-- Every fragment of the first kind is a string literal, which is minified to itself. One of the second
kind is a block comment, of which nothing is left, exactly if the text chosen for it hides no closer. -/
theorem ofSupply_wellFormed (supply : Supply) :
    ((supply.chooseIndex 4).1 = 0 → IsStringLiteral (ofSupply supply).bytes ∧
      minify (ofSupply supply).bytes = .ok (ofSupply supply).bytes) ∧
    ((supply.chooseIndex 4).1 = 1 →
      (IsBlockComment (ofSupply supply).bytes ↔ ¬HidesCloser (supply.chooseIndex 4).2.chooseText) ∧
      (IsBlockComment (ofSupply supply).bytes → minify (ofSupply supply).bytes = .ok [])) := by
  constructor
  · intro h
    have hliteral := isStringLiteral_of_ofSupply h
    exact ⟨hliteral, hliteral.minify_eq⟩
  · intro h
    exact ⟨isBlockComment_of_ofSupply_iff h, fun hcomment ↦ hcomment.minify_eq⟩

theorem ofSupply_wellFormed_filtered :
    ((ofSupply [0x04, 0x01, 0x61, 0x22, 0x5C, 0x0A, 0x62, 0x05]).bytes = Utf8.encode "\"ab\"" ∧
      IsStringLiteral (Utf8.encode "\"ab\"") ∧
      minify (Utf8.encode "\"ab\"") = .ok (Utf8.encode "\"ab\"")) ∧
    (ofSupply [0x01, 0x2A, 0x2F, 0x2A, 0x03]).bytes = Utf8.encode "/***/" ∧
      ¬HidesCloser (Utf8.encode "*/*") ∧ minify (Utf8.encode "/***/") = .ok [] := by
  have hstring : (ofSupply [0x04, 0x01, 0x61, 0x22, 0x5C, 0x0A, 0x62, 0x05]).bytes =
      Utf8.encode "\"ab\"" := by decide +kernel
  have hcomment : (ofSupply [0x01, 0x2A, 0x2F, 0x2A, 0x03]).bytes = Utf8.encode "/***/" := by
    decide +kernel
  have htext : (Supply.chooseIndex 4 [0x01, 0x2A, 0x2F, 0x2A, 0x03]).2.chooseText = Utf8.encode "*/*" := by
    decide +kernel
  have hstar : IsBlockComment (Utf8.encode "/***/") := ⟨[asterisk], by decide, by decide⟩
  have hs := (ofSupply_wellFormed [0x04, 0x01, 0x61, 0x22, 0x5C, 0x0A, 0x62, 0x05]).1 (by decide)
  have hc := (ofSupply_wellFormed [0x01, 0x2A, 0x2F, 0x2A, 0x03]).2 (by decide)
  rw [hstring] at hs
  rw [hcomment, htext] at hc
  exact ⟨⟨hstring, hs⟩, hcomment, hc.1.mp hstar, hc.2 hstar⟩

theorem ofSupply_comment_closed_early :
    (Supply.chooseIndex 4 [0x01, 0x2A, 0x2A, 0x2F, 0x2F, 0x04]).1 = 1 ∧
      (ofSupply [0x01, 0x2A, 0x2A, 0x2F, 0x2F, 0x04]).bytes = Utf8.encode "/**/*/" ∧
      ¬IsBlockComment (Utf8.encode "/**/*/") ∧
      minify (Utf8.encode "/**/*/") = .ok (Utf8.encode "*/") := by
  have hclosers : Utf8.encode "/**/*/" =
      [slash, asterisk] ++ [asterisk, slash] ++ [asterisk, slash] := by decide
  refine ⟨by decide, by decide +kernel, ?_, by cbv⟩
  rw [hclosers, isBlockComment_iff]
  exact fun h ↦ h List.infix_rfl

end Fuzz.Fragment

end ScriptMinifier
