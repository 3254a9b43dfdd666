import Mathlib
import ScriptMinifier.Proofs.Joining

namespace ScriptMinifier

open Byte

/-- Two results that differ in the place of a failure at most. -/
inductive Agrees : Except Unterminated (List UInt8) → Except Unterminated (List UInt8) → Prop
  | ok (y : List UInt8) : Agrees (.ok y) (.ok y)
  | error {e e' : Unterminated} : e.construct = e'.construct → Agrees (.error e) (.error e')

theorem agrees_of_ofText_eq {source source' : List UInt8}
    (h : Outline.ofText none (Symbol.ofText source) = Outline.ofText none (Symbol.ofText source')) :
    Agrees (minify source) (minify source') := by
  rw [minify, minify, Machine.run_eq_render, Machine.run_eq_render, h]
  cases Outline.ofText none (Symbol.ofText source') with
  | error failure => exact .error rfl
  | ok outline => exact .ok _

theorem Gap.infix_of_holdsCloser {text : List UInt8} (h : HoldsCloser (Symbol.ofText text)) :
    [asterisk, slash] <:+: text := by
  obtain ⟨inner, α, ω, rest, he, hα, hω⟩ := h
  rw [← hα, ← hω]
  apply Symbol.infix_of_suffix_ofText ⟨inner, he.symm⟩
  · rw [hα]
    decide
  · rw [hω]
    decide

namespace Outline

variable {last : Option UInt8} {gap : Gap}

theorem resume_rawBlockComment {inner : List UInt8} (hinner : ¬[asterisk, slash] <:+: inner)
    (text : List UInt8) :
    resume last gap (Symbol.ofText ([slash, asterisk] ++ inner ++ [asterisk, slash] ++ text)) =
      resume last gap.withBlank (Symbol.ofText text) := by
  have hopen : Symbol.ofText ([slash, asterisk] ++ inner ++ [asterisk, slash] ++ text) =
      Symbol.ofByte slash :: Symbol.ofByte asterisk ::
        (Symbol.ofText inner ++ Symbol.ofByte asterisk :: Symbol.ofByte slash :: Symbol.ofText text) := by
    simp only [List.append_assoc, List.cons_append, List.nil_append]
    rw [Symbol.ofText_cons_of_ne (by decide), Symbol.ofText_cons_of_ne (by decide),
      Symbol.ofText_append fun h ↦ absurd h.2 (by simp +decide), Symbol.ofText_cons_of_ne (by decide),
      Symbol.ofText_cons_of_ne (by decide)]
  -- An asterisk at the end of the comment's text does not close it together with the closer.
  have hfirst : ¬Gap.HoldsCloser (Symbol.ofText inner ++ [Symbol.ofByte asterisk]) :=
    Gap.not_holdsCloser_concat (fun h ↦ hinner (Gap.infix_of_holdsCloser h)) (by decide)
  rw [hopen, resume_blockComment rfl rfl rfl rfl hfirst]

theorem resume_rawLineComment {inner : List UInt8} (hn : newline ∉ inner)
    (hr : carriageReturn ∉ inner) (text : List UInt8) :
    resume last gap (Symbol.ofText ([slash, slash] ++ inner ++ [newline] ++ text)) =
      resume last .lineBreak (Symbol.ofText text) := by
  have hopen : Symbol.ofText ([slash, slash] ++ inner ++ [newline] ++ text) =
      Symbol.ofByte slash :: Symbol.ofByte slash ::
        (Symbol.ofText inner ++ Symbol.ofByte newline :: Symbol.ofText text) := by
    simp only [List.append_assoc, List.cons_append, List.nil_append]
    rw [Symbol.ofText_cons_of_ne (by decide), Symbol.ofText_cons_of_ne (by decide),
      Symbol.ofText_append fun h ↦ hr (List.mem_of_getLast? h.1), Symbol.ofText_cons_of_ne (by decide)]
  have hinner : ∀ σ ∈ Symbol.ofText inner, σ.byte ≠ newline := by
    intro σ hσ hbyte
    rcases Symbol.mem_of_ofText_newline hσ hbyte with h | h
    · exact hn h
    · exact hr h
  have hhead : ∀ ν ∈ (Symbol.ofByte newline :: Symbol.ofText text).head?, ν.byte = newline := by
    rintro _ ⟨⟩
    rfl
  rw [hopen, resume_lineComment rfl rfl hinner hhead, resume_newline rfl]

end Outline

/-- A comment is read like the space or the line break that it stands for, wherever it is put behind
a script that is complete and whatever follows it. -/
theorem minify_comment_agrees {source y : List UInt8} (h : minify source = .ok y)
    (hslash : source.getLast? ≠ some slash) (hcomment : ¬EndsInLineComment (Symbol.ofRewritten source))
    (after : List UInt8) :
    (∀ inner, ¬[asterisk, slash] <:+: inner →
      Agrees (minify (source ++ [slash, asterisk] ++ inner ++ [asterisk, slash] ++ after))
        (minify (source ++ [space] ++ after))) ∧
    (∀ inner, newline ∉ inner → carriageReturn ∉ inner →
      Agrees (minify (source ++ [slash, slash] ++ inner ++ [newline] ++ after))
        (minify (source ++ [newline] ++ after))) := by
  rw [← Symbol.ofText_eq_ofRewritten] at hcomment
  obtain ⟨outline, ho, -⟩ := exists_outline h
  obtain ⟨last, gap, hending⟩ := exists_ending ho
  have hdirect := hending.direct hslash hcomment
  constructor
  · intro inner hinner
    apply agrees_of_ofText_eq
    simp only [List.append_assoc source]
    rw [hdirect _ (by simp +decide), hdirect _ (by simp +decide), Outline.resume_rawBlockComment hinner,
      List.singleton_append, Symbol.ofText_cons_of_ne (by decide), Outline.resume_space rfl]
  · intro inner hn hr
    apply agrees_of_ofText_eq
    simp only [List.append_assoc source]
    rw [hdirect _ (by simp +decide), Outline.resume_rawLineComment hn hr, List.singleton_append,
      hending.lineBreak]

theorem minify_comment_agrees_quotes :
    Agrees (minify (Utf8.encode "x /* y */ = 'a'/*' // \"**/ /b/g"))
        (minify (Utf8.encode "x /* y */ = 'a'  /b/g")) ∧
      Agrees (minify (Utf8.encode "x /* y */ = 'a'// '/* \"\n /b/g"))
        (minify (Utf8.encode "x /* y */ = 'a'\n /b/g")) := by
  have h : minify (Utf8.encode "x /* y */ = 'a'") = .ok (Utf8.encode "\nx='a'") := by cbv
  have hslash : (Utf8.encode "x /* y */ = 'a'").getLast? ≠ some slash := by decide
  have hcomment : ¬EndsInLineComment (Symbol.ofRewritten (Utf8.encode "x /* y */ = 'a'")) := by
    rw [← Symbol.ofText_eq_ofRewritten]
    rintro ⟨_, _, place, hs, hc⟩
    cases hc with
    | line hσ hτ =>
      have hpair := Symbol.infix_of_suffix_ofText hs.suffix (by rw [hσ]; decide) (by rw [hτ]; decide)
      rw [hσ, hτ] at hpair
      revert hpair
      decide
  have hall := minify_comment_agrees h hslash hcomment (Utf8.encode " /b/g")
  exact ⟨hall.1 (Utf8.encode "' // \"*") (by decide),
    hall.2 (Utf8.encode " '/* \"") (by decide) (by decide)⟩

end ScriptMinifier
