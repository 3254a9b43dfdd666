import Mathlib
import ScriptMinifier.Proofs.Extension

namespace ScriptMinifier

open Byte Uncommented

theorem Delimiter.byte_injective {delimiter delimiter' : Delimiter}
    (h : delimiter.byte = delimiter'.byte) : delimiter = delimiter' := by
  cases delimiter <;> cases delimiter' <;> first | rfl | exact absurd h (by decide)

theorem Delimiter.construct_ne_comment (delimiter : Delimiter) : delimiter.construct ≠ .comment := by
  cases delimiter <;> decide

theorem Construct.Opens.exists_cons {construct : Construct} {text : List UInt8}
    (h : construct.Opens text) : ∃ c rest, text = c :: rest ∧ c ≠ carriageReturn ∧ c ≠ newline := by
  cases construct with
  | comment =>
    obtain ⟨rest, rfl⟩ := h
    exact ⟨slash, _, rfl, by decide, by decide⟩
  | string =>
    rcases h with ⟨rest, rfl⟩ | ⟨rest, rfl⟩
    · exact ⟨singleQuote, rest, rfl, by decide, by decide⟩
    · exact ⟨doubleQuote, rest, rfl, by decide, by decide⟩
  | regex =>
    obtain ⟨rest, rfl⟩ := h
    exact ⟨slash, rest, rfl, by decide, by decide⟩

/-- The reading of a source up to the construct that fails is the same whatever stands in the place of
that construct, if anything does, as long as it opens in the same way. -/
theorem UnclosedAt.exists_front {source : List UInt8} {offset : Nat} {construct : Construct}
    (h : UnclosedAt source offset construct) :
    ∃ (last : Option UInt8) (gap : Gap) (front : Outline),
      Unclosed last gap construct (Symbol.ofText (source.drop offset)) ∧
      ∀ back, back = [] ∨ back.head? = (source.drop offset).head? →
        Outline.ofText none (Symbol.ofText (source.take offset ++ back)) =
          (Outline.resume last gap (Symbol.ofText back)).map (front ++ ·) := by
  obtain ⟨c, rest, hc, hcr, hn⟩ := h.opens.exists_cons
  obtain ⟨last, gap, hs, hu⟩ := unclosedAt_iff.mp h
  obtain ⟨before, front, hbefore, hf⟩ := hs.ofText_replace
  have hcut : Symbol.ofText source =
      Symbol.ofText (source.take offset) ++ Symbol.ofText (source.drop offset) := by
    rw [← Symbol.ofText_append, List.take_append_drop]
    rw [hc]
    exact fun hhead ↦ hn (Option.some.inj hhead.2)
  obtain rfl := List.append_cancel_right (hbefore.symm.trans hcut)
  refine ⟨last, gap, front, hu, fun back hback ↦ ?_⟩
  rw [hc] at hback
  rw [Symbol.ofText_append, hf]
  · rcases hback with rfl | hback
    · exact .nothing
    · obtain ⟨rest', rfl⟩ := List.head?_eq_some_iff.mp hback
      rw [hc, Symbol.ofText_cons_of_ne hcr, Symbol.ofText_cons_of_ne hcr]
      exact .sameByte rfl
  · intro hpair
    rcases hback with rfl | hback
    · cases hpair.2
    · exact hn (Option.some.inj (hback.symm.trans hpair.2))

/-- At the head of the text stands a literal of the given kind whose line ends before it is
closed. -/
def BrokenByLine (construct : Construct) (place : List Symbol) : Prop :=
  ∃ (delimiter : Delimiter) (σ : Symbol) (inner : List Symbol) (ν : Symbol) (rest : List Symbol),
    place = σ :: (inner ++ ν :: rest) ∧ σ.byte = delimiter.byte ∧ delimiter.construct = construct ∧
      Item.IsBody delimiter (inner.map Symbol.byte) ∧ ν.byte = newline

theorem OpensComment.of_map {text text' : List Symbol} (h : OpensComment text')
    (hlen : 2 ≤ text.length) (hb : text.map Symbol.byte <+: text'.map Symbol.byte) :
    OpensComment text := by
  match text, text', h with
  | σ :: τ :: text, σ' :: τ' :: text', ⟨hσ, hτ⟩ =>
    simp only [List.map_cons, List.cons_prefix_cons] at hb
    exact ⟨hb.1.trans hσ, hb.2.1 ▸ hτ⟩

theorem Unclosed.opens_literal {last : Option UInt8} {gap : Gap} {delimiter : Delimiter} {σ : Symbol}
    {rest : List Symbol} (h : Unclosed last gap delimiter.construct (σ :: rest))
    (hσ : σ.byte = delimiter.byte) :
    ¬OpensComment (σ :: rest) ∧ Item.delimiter? last gap σ.byte = some delimiter := by
  generalize hconstruct : delimiter.construct = construct at h
  cases h with
  | comment => exact absurd hconstruct delimiter.construct_ne_comment
  | literal hc hd _ _ =>
    obtain rfl := Delimiter.byte_injective ((Item.byte_of_delimiter? hd).trans hσ)
    exact ⟨hc, hd⟩

theorem Unclosed.of_brokenByLine {last : Option UInt8} {gap : Gap} {construct : Construct}
    {place place' : List Symbol} (h : Unclosed last gap construct place)
    (hb : BrokenByLine construct place)
    (hp : place.map Symbol.byte <+: place'.map Symbol.byte) : Unclosed last gap construct place' := by
  obtain ⟨delimiter, σ, inner, ν, rest, rfl, hσ, rfl, hbody, hν⟩ := hb
  obtain ⟨hc, hd⟩ := h.opens_literal hσ
  have hc' : ¬OpensComment place' := by
    intro h'
    apply hc
    apply OpensComment.of_map h' _ hp
    rw [List.length_cons, List.length_append, List.length_cons]
    omega
  obtain ⟨more, hmore⟩ := hp
  rw [List.map_cons, List.map_append, List.map_cons, List.cons_append, List.append_assoc] at hmore
  obtain ⟨σ', place, rfl, hσ', hplace⟩ := List.map_eq_cons_iff.mp hmore.symm
  obtain ⟨inner', place', rfl, hinner, hplace'⟩ := List.map_eq_append_iff.mp hplace
  obtain ⟨ν', rest', rfl, hν', -⟩ := List.map_eq_cons_iff.mp hplace'
  exact .literal hc' (hσ' ▸ hd) (hinner ▸ hbody) (.newline (hν'.trans hν))

theorem Outline.resume_closed {last : Option UInt8} {gap : Gap} {text : List UInt8}
    (h : Unclosed last gap .comment (Symbol.ofText text)) :
    resume last gap (Symbol.ofText (text ++ [asterisk, slash])) = .ok [] := by
  have happ : Symbol.ofText (text ++ [asterisk, slash]) =
      Symbol.ofText text ++ [Symbol.ofByte asterisk, Symbol.ofByte slash] :=
    Symbol.ofText_append fun hc ↦ absurd hc.2 (by simp +decide)
  rw [happ]
  generalize Symbol.ofText text = place at h
  generalize hconstruct : Construct.comment = construct at h
  cases h with
  | @comment σ τ rest hσ hτ hcl =>
    have hfirst : ¬Gap.HoldsCloser (rest ++ [Symbol.ofByte asterisk]) :=
      Gap.not_holdsCloser_concat hcl (by decide)
    rw [List.cons_append, List.cons_append, resume_blockComment hσ hτ rfl rfl hfirst,
      resume_of_finished rfl]
  | @literal delimiter _ _ _ _ _ _ _ => exact absurd hconstruct.symm delimiter.construct_ne_comment

theorem minify_of_failure {source : List UInt8} {offset : Nat} {construct : Construct}
    (h : Outline.ofText none (Symbol.ofText source) =
      .error ⟨construct, Symbol.ofText (source.drop offset)⟩) :
    minify source = .error ⟨construct, .ofOffset source offset⟩ := by
  refine minify_eq_error_iff.mpr ⟨_, h, ?_⟩
  rw [Machine.Failure.locate, Machine.Failure.offset, Position.ofOffset_of_place]

/-- A failure depends on nothing but the construct that fails. Before it the source is complete;
a literal that is broken by the end of its line fails in the same way whatever follows; a comment
that is closed after all leaves no trace. -/
theorem minify_fails_locally {source : List UInt8} {offset : Nat} {e : Unterminated}
    (h : minify source = .error e) (ho : UnclosedAt source offset e.construct) :
    (∃ y, minify (source.take offset) = .ok y) ∧
      (BrokenByLine e.construct (Symbol.ofRewritten (source.drop offset)) →
        ∀ after, minify (source ++ after) = .error e) ∧
      (e.construct = .comment → ∃ y, minify (source ++ [asterisk, slash]) = .ok y ∧
        minify (source.take offset) = .ok y) := by
  rw [← Symbol.ofText_eq_ofRewritten]
  obtain ⟨c, rest, hc, -⟩ := ho.opens.exists_cons
  obtain ⟨last, gap, front, hu, hf⟩ := ho.exists_front
  have hoffset : offset ≤ source.length := by
    have hlen := congrArg List.length hc
    rw [List.length_drop, List.length_cons] at hlen
    omega
  have hextend (after : List UInt8) :
      Outline.ofText none (Symbol.ofText (source ++ after)) =
        (Outline.resume last gap (Symbol.ofText (source.drop offset ++ after))).map (front ++ ·) := by
    rw [← hf (source.drop offset ++ after) (.inr (by rw [hc]; rfl)), ← List.append_assoc,
      List.take_append_drop]
  have hfront : minify (source.take offset) = .ok (Outline.render none (front ++ [])) := by
    have hnil := hf [] (.inl rfl)
    rw [List.append_nil, Symbol.ofText_nil, Outline.resume_of_finished rfl] at hnil
    exact minify_of_outline hnil
  refine ⟨⟨_, hfront⟩, fun hline after ↦ ?_, fun hcomment ↦ ⟨_, ?_, hfront⟩⟩
  · have hbytes := Symbol.normalized_append (source.drop offset) after
    have hfails := hextend after
    rw [(hu.of_brokenByLine hline hbytes).resume_eq_error,
      ← List.drop_append_of_le_length hoffset] at hfails
    have hfailed := hextend []
    rw [List.append_nil, List.append_nil, hu.resume_eq_error] at hfailed
    rw [minify_of_failure hfailed] at h
    rw [minify_of_failure hfails, ← h, Position.ofOffset, List.take_append_of_le_length hoffset]
    rfl
  · rw [hcomment] at hu
    have hclosed := hextend [asterisk, slash]
    rw [Outline.resume_closed hu] at hclosed
    exact minify_of_outline hclosed

theorem minify_fails_locally_string_and_comment :
    (minify (Utf8.encode "a 'b\r") = .error ⟨.string, 1, 3⟩ ∧
      UnclosedAt (Utf8.encode "a 'b\r") 2 .string ∧
      (∃ y, minify ((Utf8.encode "a 'b\r").take 2) = .ok y) ∧
      ∀ after, minify (Utf8.encode "a 'b\r" ++ after) = .error ⟨.string, 1, 3⟩) ∧
    minify (Utf8.encode "a /* b *") = .error ⟨.comment, 1, 3⟩ ∧
      UnclosedAt (Utf8.encode "a /* b *") 2 .comment ∧
      ∃ y, minify (Utf8.encode "a /* b *" ++ [asterisk, slash]) = .ok y ∧
        minify ((Utf8.encode "a /* b *").take 2) = .ok y := by
  have hs : Outline.ofText none (Symbol.ofText (Utf8.encode "a 'b\r")) =
      .error ⟨.string, Symbol.ofText (Utf8.encode "'b\r")⟩ := by decide +kernel
  have hc : Outline.ofText none (Symbol.ofText (Utf8.encode "a /* b *")) =
      .error ⟨.comment, Symbol.ofText (Utf8.encode "/* b *")⟩ := by decide +kernel
  have hstring : minify (Utf8.encode "a 'b\r") = .error ⟨.string, 1, 3⟩ := by cbv
  have hcomment : minify (Utf8.encode "a /* b *") = .error ⟨.comment, 1, 3⟩ := by cbv
  have hline : BrokenByLine .string (Symbol.ofRewritten (Utf8.encode "'b\r")) :=
    ⟨.singleQuote, _, [Symbol.ofByte 0x62], _, [], rfl, rfl, rfl,
      .plain (by decide) (by decide) (by decide) .nil, rfl⟩
  have hlocal := minify_fails_locally hstring (Machine.Failure.unclosedAt hs)
  have hlocal' := minify_fails_locally hcomment (Machine.Failure.unclosedAt hc)
  exact ⟨⟨hstring, Machine.Failure.unclosedAt hs, hlocal.1, hlocal.2.1 hline⟩, hcomment,
    Machine.Failure.unclosedAt hc, hlocal'.2.2 rfl⟩

end ScriptMinifier
