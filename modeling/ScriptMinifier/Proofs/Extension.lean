import Mathlib
import ScriptMinifier.Proofs.Joining

namespace ScriptMinifier

open Byte Uncommented

theorem Symbol.totalWidth_le_of_suffix {place text : List Symbol} (h : place <:+ text) :
    totalWidth place ≤ totalWidth text := by
  obtain ⟨before, rfl⟩ := h
  rw [totalWidth_append]
  omega

theorem Machine.Failure.unclosedAt {source : List UInt8} {failure : Machine.Failure}
    (h : Outline.ofText none (Symbol.ofText source) = .error failure) :
    UnclosedAt source (failure.offset source) failure.construct := by
  obtain ⟨last, gap, hs, hu⟩ := Outline.ofText_eq_error_iff.mp h
  obtain ⟨before, hb⟩ := hs.suffix
  obtain ⟨front, back, rfl, -, hback⟩ := Symbol.exists_append_of_ofText hb.symm
  rw [← hback] at hs hu
  rw [offset_append hback, unclosedAt_iff, List.drop_left]
  exact ⟨last, gap, hs, hu⟩

section Complete

variable {source : List UInt8} {front : Outline}

theorem getLast?_ne_of_endsInLineComment (h : EndsInLineComment (Symbol.ofText source)) :
    source.getLast? ≠ some carriageReturn := by
  intro hcr
  obtain ⟨text, rfl⟩ := List.getLast?_eq_some_iff.mp hcr
  obtain ⟨_, _, place, hs, hc⟩ := h
  obtain ⟨before, hb⟩ := hs.suffix
  rw [Symbol.ofText_append fun hc ↦ absurd hc.2 (by simp +decide)] at hb
  have hlast : (before ++ place).getLast? = some (Symbol.ofByte carriageReturn) := by
    rw [hb]
    exact List.getLast?_concat
  cases hc with
  | line hσ hτ hinner _ =>
    rw [List.getLast?_append_of_ne_nil _ (List.cons_ne_nil _ _)] at hlast
    rcases List.mem_cons.mp (List.mem_of_getLast? hlast) with rfl | hmem
    · exact absurd hσ (by decide)
    · rcases List.mem_cons.mp hmem with rfl | hmem
      · exact absurd hτ (by decide)
      · exact hinner _ hmem rfl

/-- A line comment at the end of a text takes in what follows, up to the next line break. -/
theorem Outline.ofText_append_lineComment {text : List Symbol} (h : ofText none text = .ok front)
    (hc : EndsInLineComment text) :
    ∃ last gap, ∀ after, ofText none (text ++ after) =
      (resume last gap (after.dropWhile fun τ ↦ τ.byte ≠ newline)).map (front ++ ·) := by
  obtain ⟨last, gap, place, hs, hc⟩ := hc
  obtain ⟨before, outline, rfl, hf⟩ := hs.ofText_replace
  have hplace (after : List Symbol) : Replaces (before ++ place) place (place ++ after) := by
    cases hc with
    | line => exact .sameByte rfl
  have hresume (after : List Symbol) : resume last gap (place ++ after) =
      resume last gap (after.dropWhile fun τ ↦ τ.byte ≠ newline) := by
    cases hc with
    | @line σ τ inner _ hσ hτ hinner _ =>
      obtain ⟨raw, hraw, hcomment⟩ := exists_lineComment hσ hτ (inner ++ after)
      rw [List.dropWhile_append_of_pos (by simpa using hinner)] at hraw hcomment
      rw [List.cons_append, List.cons_append, hraw]
      exact (Layout.lineComment hcomment).resume_eq
  have hfront : outline = front := by
    have hnil := hf _ (hplace [])
    rw [hresume, List.append_nil, h, List.dropWhile_nil, resume_of_finished rfl] at hnil
    simpa [Except.map] using hnil.symm
  subst hfront
  refine ⟨last, gap, fun after ↦ ?_⟩
  rw [← hresume, ← hf _ (hplace after), List.append_assoc]

theorem Outline.exists_resume (h : ofText none (Symbol.ofText source) = .ok front)
    (hslash : source.getLast? ≠ some slash) (after : List UInt8) :
    ∃ last gap rest, Symbol.totalWidth rest ≤ after.length ∧
      ofText none (Symbol.ofText (source ++ after)) = (resume last gap rest).map (front ++ ·) := by
  by_cases hc : EndsInLineComment (Symbol.ofText source)
  · obtain ⟨last, gap, hf⟩ := ofText_append_lineComment h hc
    refine ⟨last, gap, (Symbol.ofText after).dropWhile fun τ ↦ τ.byte ≠ newline, ?_, ?_⟩
    · rw [← Symbol.totalWidth_ofText after]
      exact Symbol.totalWidth_le_of_suffix (List.dropWhile_suffix _)
    · rw [Symbol.ofText_append fun hcr ↦ getLast?_ne_of_endsInLineComment hc hcr.1, hf]
  · obtain ⟨last, gap, hending⟩ := exists_ending h
    by_cases hn : after.head? = some newline
    · obtain ⟨after, rfl⟩ := List.head?_eq_some_iff.mp hn
      refine ⟨last, .lineBreak, Symbol.ofText after, ?_, hending.lineBreak after⟩
      rw [Symbol.totalWidth_ofText, List.length_cons]
      omega
    · refine ⟨last, gap, Symbol.ofText after, ?_, hending.direct hslash hc after hn⟩
      rw [Symbol.totalWidth_ofText]

end Complete

/-- Nothing that was written for a complete source is taken back, whatever follows it: either more
is written, or a construct fails that opens behind the source. -/
theorem minify_append_extends {source y : List UInt8} (h : minify source = .ok y)
    (hslash : source.getLast? ≠ some slash) (after : List UInt8) :
    (∃ z, minify (source ++ after) = .ok z ∧ y <+: z) ∨
      ∃ e offset, minify (source ++ after) = .error e ∧
        UnclosedAt (source ++ after) offset e.construct ∧
        e.position = .ofOffset (source ++ after) offset ∧ source.length ≤ offset := by
  obtain ⟨front, ho, -, rfl⟩ := exists_outline h
  obtain ⟨last, gap, rest, hwidth, hall⟩ := Outline.exists_resume ho hslash after
  cases hr : Outline.resume last gap rest with
  | ok back =>
    rw [hr] at hall
    left
    refine ⟨_, minify_of_outline hall, ?_⟩
    rw [Outline.render_append]
    exact List.prefix_append _ _
  | error failure =>
    rw [hr] at hall
    right
    refine ⟨_, failure.offset (source ++ after), minify_eq_error_iff.mpr ⟨failure, hall, rfl⟩,
      Machine.Failure.unclosedAt hall, rfl, ?_⟩
    obtain ⟨_, _, _, hreads, -⟩ := unclosed_of_resume hr
    have hle := Symbol.totalWidth_le_of_suffix hreads.suffix
    rw [Machine.Failure.offset, List.length_append]
    omega

theorem minify_append_extends_comment :
    minify (Utf8.encode "a // b") = .ok (Utf8.encode "\na") ∧
      (Utf8.encode "a // b").getLast? ≠ some slash ∧
      (∃ z, minify (Utf8.encode "a // b" ++ Utf8.encode "c\n+d") = .ok z ∧ Utf8.encode "\na" <+: z) ∧
      ∃ e offset, minify (Utf8.encode "a // b" ++ Utf8.encode "c\n'd") = .error e ∧
        UnclosedAt (Utf8.encode "a // b" ++ Utf8.encode "c\n'd") offset e.construct ∧
        e.position = .ofOffset (Utf8.encode "a // b" ++ Utf8.encode "c\n'd") offset ∧
        (Utf8.encode "a // b").length ≤ offset := by
  have h : minify (Utf8.encode "a // b") = .ok (Utf8.encode "\na") := by cbv
  have hslash : (Utf8.encode "a // b").getLast? ≠ some slash := by decide
  refine ⟨h, hslash, ?_, ?_⟩
  · rcases minify_append_extends h hslash (Utf8.encode "c\n+d") with hok | ⟨e, _, he, -⟩
    · exact hok
    · have hok : minify (Utf8.encode "a // b" ++ Utf8.encode "c\n+d") = .ok (Utf8.encode "\na\n+d") := by
        cbv
      rw [hok] at he
      cases he
  · rcases minify_append_extends h hslash (Utf8.encode "c\n'd") with ⟨z, hz, -⟩ | herror
    · have herror : minify (Utf8.encode "a // b" ++ Utf8.encode "c\n'd") = .error ⟨.string, 2, 1⟩ := by
        cbv
      rw [herror] at hz
      cases hz
    · exact herror

end ScriptMinifier
