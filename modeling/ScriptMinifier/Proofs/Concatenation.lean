import Mathlib
import ScriptMinifier.Proofs.Joining
import ScriptMinifier.Proofs.Trimming
import ScriptMinifier.Proofs.LineCount

namespace ScriptMinifier

open Byte Uncommented

theorem Item.delimiter?_of_opensExpression {b : UInt8} (hb : opensExpression b = true) (gap : Gap)
    (c : UInt8) : delimiter? (some b) gap c = delimiter? none gap c := by
  simp [delimiter?, Gap.holdsBreak, hb]

namespace Outline

/-- Where an expression may begin, a text is cut as at the start of a script. -/
theorem resume_of_opensExpression {b : UInt8} (hb : opensExpression b = true) (gap : Gap)
    (text : List Symbol) : resume (some b) gap text = resume none gap text := by
  simp only [resume, Item.read, Item.delimiter?_of_opensExpression hb]

theorem separator_semicolon (gap : Gap) (item : Item) : separator (some semicolon) gap item = [] := by
  cases gap <;> rfl

theorem separator_before_semicolon (last : Option UInt8) (gap : Gap) :
    separator last gap (.byte semicolon) = [] := by
  have hopens : (Item.byte semicolon).opensStatement = false := by decide
  have hword : isWord (Item.byte semicolon).first = false := by decide
  simp [separator, hopens, hword]

theorem render_semicolon (outline : Outline) : outline.render (some semicolon) = outline.core := by
  cases outline with
  | nil => rfl
  | cons entry outline => rw [render_cons, separator_semicolon, List.nil_append]

end Outline

variable {source after : List UInt8} {front : Outline} {last : Option UInt8} {gap : Gap}

theorem Ending.ofText_semicolon (h : Ending source front last gap) (after : List UInt8) :
    Outline.ofText none (Symbol.ofText (source ++ [newline, semicolon] ++ after)) =
      (Outline.ofText none (Symbol.ofText after)).map
        fun outline ↦ front ++ (.lineBreak, .byte semicolon) :: outline := by
  have hc : ¬OpensComment (Symbol.ofByte semicolon :: Symbol.ofText after) := fun hc ↦
    absurd (byte_of_opensComment hc) (by decide)
  have hi : Item.read last .lineBreak (Symbol.ofByte semicolon) (Symbol.ofText after) =
      .ok (.byte semicolon, Symbol.ofText after) := rfl
  rw [List.append_assoc, List.cons_append, List.singleton_append, h.lineBreak,
    Symbol.ofText_cons_of_ne (by decide), Outline.resume_item hc (by decide) hi,
    Outline.resume_of_opensExpression (by decide), ← Outline.ofText_eq_resume]
  cases Outline.ofText none (Symbol.ofText after) <;> rfl

theorem Machine.Failure.totalWidth_opening_le {failure : Machine.Failure}
    (h : Outline.ofText none (Symbol.ofText after) = .error failure) :
    Symbol.totalWidth failure.opening ≤ after.length := by
  obtain ⟨last, gap, hs, -⟩ := Outline.ofText_eq_error_iff.mp h
  obtain ⟨before, hb⟩ := hs.suffix
  rw [← Symbol.totalWidth_ofText after, ← hb, Symbol.totalWidth_append]
  exact Nat.le_add_left _ _

theorem Machine.Failure.locate_append {failure : Machine.Failure}
    (h : Outline.ofText none (Symbol.ofText after) = .error failure) (source : List UInt8) :
    failure.locate (source ++ [newline, semicolon] ++ after) =
      ⟨failure.construct,
        (failure.locate after).position.line + Position.lineBreaks (source ++ [newline]),
        (failure.locate after).position.column +
          if (failure.locate after).position.line = 1 then 1 else 0⟩ := by
  have hwidth := totalWidth_opening_le h
  have hoffset : failure.offset (source ++ [newline, semicolon] ++ after) =
      (source ++ [newline, semicolon]).length + failure.offset after := by
    rw [offset, offset, List.length_append]
    omega
  rw [locate, Position.ofOffset, hoffset, List.take_length_add_append, List.append_assoc,
    List.cons_append, List.singleton_append,
    Position.ofEnd_append (by decide) (by decide) (by decide)]
  rfl

/-- Two scripts with a line break and a semicolon between them are minified one by one. The second
keeps its failure too, moved down by the lines of the first and, on its own first line, by the
semicolon. -/
theorem minify_append_semicolon {y : List UInt8} (h : minify source = .ok y) (after : List UInt8) :
    (∀ y', minify after = .ok y' →
      minify (source ++ [newline, semicolon] ++ after) =
        .ok (y ++ [semicolon] ++ withoutBreak y')) ∧
    (∀ e, minify after = .error e →
      minify (source ++ [newline, semicolon] ++ after) =
        .error ⟨e.construct, e.position.line + Position.lineBreaks (source ++ [newline]),
          e.position.column + if e.position.line = 1 then 1 else 0⟩) := by
  obtain ⟨front, ho, -, rfl⟩ := exists_outline h
  obtain ⟨last, gap, hending⟩ := exists_ending ho
  have hall := hending.ofText_semicolon after
  constructor
  · intro y' h'
    obtain ⟨outline, ho', hw, rfl⟩ := exists_outline h'
    rw [ho'] at hall
    rw [minify_of_outline hall, hw.withoutBreak_render, ← Outline.render_semicolon,
      Outline.render_append, Outline.render, Outline.separator_before_semicolon, List.nil_append,
      List.append_assoc]
    rfl
  · intro e he
    obtain ⟨failure, hf, rfl⟩ := minify_eq_error_iff.mp he
    rw [hf] at hall
    exact minify_eq_error_iff.mpr ⟨failure, hall, failure.locate_append hf source⟩

theorem minify_append_semicolon_regex :
    minify (Utf8.encode "a // b\r") = .ok (Utf8.encode "\na") ∧
      minify (Utf8.encode " /c/.d") = .ok (Utf8.encode "\n/c/.d") ∧
      minify (Utf8.encode "a // b\r\n; /c/.d") = .ok (Utf8.encode "\na;/c/.d") ∧
      minify (Utf8.encode " 'c") = .error ⟨.string, 1, 2⟩ ∧
      minify (Utf8.encode "a // b\r\n; 'c") = .error ⟨.string, 2, 3⟩ := by
  have h : minify (Utf8.encode "a // b\r") = .ok (Utf8.encode "\na") := by cbv
  have hok : minify (Utf8.encode " /c/.d") = .ok (Utf8.encode "\n/c/.d") := by cbv
  have herror : minify (Utf8.encode " 'c") = .error ⟨.string, 1, 2⟩ := by cbv
  exact ⟨h, hok, (minify_append_semicolon h _).1 _ hok, herror,
    (minify_append_semicolon h _).2 _ herror⟩

end ScriptMinifier
