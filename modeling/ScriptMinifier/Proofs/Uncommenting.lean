import Mathlib
import ScriptMinifier.Cursor
import ScriptMinifier.Proofs.CommentLayout
import ScriptMinifier.Proofs.Scan

namespace ScriptMinifier

open Byte Uncommented

/-- Reading a text from the left, past whole comments and single bytes outside of them, comes to `place`,
and `out` is what is left of the text before it: a block comment, up to its first end, is one space, and a
line comment, up to its line break or the end, is nothing. Quotes have no meaning here. -/
inductive Uncomments : List Symbol → List UInt8 → List Symbol → Prop
  | here {text : List Symbol} : Uncomments text [] text
  | byte {σ : Symbol} {rest place : List Symbol} {out : List UInt8} :
      ¬OpensComment (σ :: rest) → Uncomments rest out place → Uncomments (σ :: rest) (σ.byte :: out) place
  | comment {raw rest place : List Symbol} {left out : List UInt8} : Comment raw left rest →
      Uncomments rest out place → Uncomments (raw ++ rest) (left ++ out) place

namespace Gap

theorem holdsCloser_ofText_iff {text : List UInt8} :
    HoldsCloser (Symbol.ofText text) ↔ [asterisk, slash] <:+: text := by
  constructor
  · exact infix_of_holdsCloser
  · rintro ⟨before, after, rfl⟩
    refine ⟨Symbol.ofText before, Symbol.ofByte asterisk, Symbol.ofByte slash, Symbol.ofText after, ?_,
      rfl, rfl⟩
    rw [List.append_assoc, Symbol.ofText_append fun h ↦ absurd h.2 (by simp +decide), List.cons_append,
      List.singleton_append, Symbol.ofText_cons_of_ne (by decide), Symbol.ofText_cons_of_ne (by decide)]

end Gap

namespace Uncomments

variable {text place : List Symbol} {out : List UInt8}

theorem suffix (h : Uncomments text out place) : place <:+ text := by
  induction h with
  | here => exact List.suffix_rfl
  | byte _ _ ih => exact ih.trans (List.suffix_cons ..)
  | comment _ _ ih => exact ih.trans (List.suffix_append ..)

theorem asRead_eq (h : Uncomments text out place) (ht : ∀ σ ∈ text, asRead σ.byte = σ.byte) :
    ∀ c ∈ out, asRead c = c := by
  induction h with
  | here =>
    intro c hc
    cases hc
  | byte _ _ ih =>
    rw [List.forall_mem_cons] at ht
    exact List.forall_mem_cons.mpr ⟨ht.1, ih ht.2⟩
  | comment hc _ ih =>
    rw [List.forall_mem_append] at ht
    refine List.forall_mem_append.mpr ⟨?_, ih ht.2⟩
    intro c hmem
    rcases hc.left_cases with ⟨rfl, -⟩ | rfl
    · cases hmem
    · rw [List.mem_singleton.mp hmem]
      rfl

theorem head_cases (h : Uncomments text out place) :
    ∀ c ∈ out.head?, c = space ∨ c = newline ∨ ∃ σ ∈ text.head?, σ.byte = c := by
  induction h with
  | here =>
    intro c hc
    cases hc
  | @byte σ _ _ _ _ _ _ =>
    intro c hc
    cases hc
    exact .inr (.inr ⟨σ, rfl, rfl⟩)
  | comment hcomment _ ih =>
    intro c hc
    rcases hcomment.left_cases with ⟨rfl, hrest⟩ | rfl
    · rcases ih c hc with hs | hn | ⟨ν, hν, rfl⟩
      · exact .inl hs
      · exact .inr (.inl hn)
      · exact .inr (.inl (hrest ν hν))
    · cases hc
      exact .inl rfl

/-- What is left of a comment keeps the bytes around it apart, so that no slash gets a new neighbour. -/
theorem isChain (h : Uncomments text out place) :
    out.IsChain fun c d ↦ c = slash → d ≠ slash ∧ d ≠ asterisk := by
  induction h with
  | here => exact .nil
  | @byte σ rest _ out hc hrest ih =>
    refine List.isChain_cons.mpr ⟨?_, ih⟩
    intro d hd hσ
    rcases hrest.head_cases d hd with rfl | rfl | ⟨τ, hτ, rfl⟩
    · decide
    · decide
    · obtain ⟨rest, rfl⟩ := List.head?_eq_some_iff.mp hτ
      exact ⟨fun h ↦ hc ⟨hσ, .inl h⟩, fun h ↦ hc ⟨hσ, .inr h⟩⟩
  | comment hc _ ih =>
    rcases hc.left_cases with ⟨rfl, -⟩ | rfl
    · exact ih
    · refine List.isChain_cons.mpr ⟨?_, ih⟩
      intro d _ hs
      cases hs

theorem opener_free (h : Uncomments text out place) {d : UInt8} (hd : d = slash ∨ d = asterisk) :
    ¬[slash, d] <:+: out := by
  intro hi
  have hchain := List.IsChain.infix h.isChain hi
  have hpair := hchain.rel rfl
  rcases hd with rfl | rfl
  · exact hpair.1 rfl
  · exact hpair.2 rfl

end Uncomments

theorem uncomments_self {out : List UInt8} (hread : ∀ c ∈ out, asRead c = c)
    (hchain : out.IsChain fun c d ↦ c = slash → d ≠ slash ∧ d ≠ asterisk) :
    Uncomments (Symbol.ofText out) out [] := by
  rw [Symbol.ofText_of_asRead hread]
  induction out with
  | nil => exact .here
  | cons c out ih =>
    rw [List.forall_mem_cons] at hread
    have hc : ¬OpensComment ((c :: out).map Symbol.ofByte) := by
      cases out with
      | nil => exact id
      | cons d out =>
        intro h
        have hd : asRead d = d := hread.2 d (List.mem_cons_self ..)
        have hpair := hchain.rel (hread.1.symm.trans h.1)
        rcases h.2 with h | h
        · exact hpair.1 (hd.symm.trans h)
        · exact hpair.2 (hd.symm.trans h)
    have hout : Uncomments (Symbol.ofByte c :: out.map Symbol.ofByte) (asRead c :: out) [] :=
      .byte hc (ih hread.2 hchain.tail)
    rwa [hread.1] at hout

theorem exists_uncomments (text : List Symbol) :
    ∃ out place, Uncomments text out place ∧ (place = [] ∨ next place = .unclosedComment) := by
  induction hlen : text.length using Nat.strongRecOn generalizing text with
  | ind n ih =>
    subst hlen
    rcases opening_cases text with
      rfl | ⟨σ, rest, rfl, hc⟩ | ⟨raw, left, rest, rfl, hc⟩ | ⟨σ, τ, rest, rfl, hσ, hτ, hcl⟩
    · exact ⟨[], [], .here, .inl rfl⟩
    · obtain ⟨out, place, hout, hplace⟩ := ih _ (Nat.lt_succ_self _) rest rfl
      exact ⟨_, place, .byte hc hout, hplace⟩
    · have hlt : rest.length < (raw ++ rest).length := by
        have hraw := hc.length_lt
        rw [List.length_append]
        omega
      obtain ⟨out, place, hout, hplace⟩ := ih _ hlt rest rfl
      exact ⟨_, place, .comment hc hout, hplace⟩
    · have hn := next_eq_unclosedComment_iff.mpr ⟨σ, τ, rest, rfl, hσ, hτ, hcl⟩
      exact ⟨[], _, .here, .inr hn⟩

theorem Uncommented.next_ofText_eq_unclosedComment_iff {text : List UInt8} :
    next (Symbol.ofText text) = .unclosedComment ↔
      [slash, asterisk] <+: text ∧ ¬[asterisk, slash] <:+: text.drop 2 := by
  rw [next_eq_unclosedComment_iff]
  constructor
  · intro h
    obtain ⟨σ, τ, rest, htext, hσ, hτ, hcl⟩ := h
    obtain ⟨text, rfl, htext'⟩ := Symbol.eq_cons_of_ofText htext (by rw [hσ]; decide)
    obtain ⟨text, rfl, rfl⟩ := Symbol.eq_cons_of_ofText htext' (by rw [hτ]; decide)
    rw [hσ, hτ]
    exact ⟨⟨text, rfl⟩, fun h ↦ hcl (Gap.holdsCloser_ofText_iff.mpr h)⟩
  · intro h
    obtain ⟨⟨text, rfl⟩, hcl⟩ := h
    refine ⟨Symbol.ofByte slash, Symbol.ofByte asterisk, Symbol.ofText text, ?_, rfl, rfl,
      fun h ↦ hcl (Gap.holdsCloser_ofText_iff.mp h)⟩
    rw [List.cons_append, List.singleton_append, Symbol.ofText_cons_of_ne (by decide),
      Symbol.ofText_cons_of_ne (by decide)]

/-- Reading a source from the left past whole comments comes to a block comment that opens at the raw
offset and is never closed. -/
structure UnclosedCommentAt (source : List UInt8) (offset : Nat) : Prop where
  opens : [slash, asterisk] <+: source.drop offset
  unclosed : ¬[asterisk, slash] <:+: source.drop (offset + 2)
  met : ∃ out, Uncomments (Symbol.ofRewritten source) out (Symbol.ofRewritten (source.drop offset))

namespace Cursor

theorem drainUncommentedOnto_eq (done : Array UInt8) (source : List UInt8) (text : List Symbol) :
    drainUncommentedOnto done ⟨source, text⟩ =
      match Uncommented.next text with
      | .byte c rest => drainUncommentedOnto (done.push c) ⟨source, rest⟩
      | .finished => (.ok done.toList, ⟨source, []⟩)
      | .unclosedComment => (.error (unclosedComment ⟨source, text⟩), ⟨source, []⟩) := by
  rw [drainUncommentedOnto]
  cases hn : Uncommented.next text with
  | byte c rest =>
    have hnext : nextUncommented ⟨source, text⟩ = (.ok (some c), ⟨source, rest⟩) := by
      rw [nextUncommented, hn]
      rfl
    rw [hnext]
  | finished =>
    have hnext : nextUncommented ⟨source, text⟩ = (.ok none, ⟨source, []⟩) := by
      rw [nextUncommented, hn]
      rfl
    rw [hnext]
  | unclosedComment =>
    have hnext : nextUncommented ⟨source, text⟩ =
        (.error (unclosedComment ⟨source, text⟩), ⟨source, []⟩) := by
      rw [nextUncommented, hn]
      rfl
    rw [hnext]

variable {source : List UInt8} {text place : List Symbol} {out : List UInt8}

theorem drainUncommentedOnto_of_uncomments (h : Uncomments text out place) (done : Array UInt8) :
    drainUncommentedOnto done ⟨source, text⟩ =
      drainUncommentedOnto (done ++ out.toArray) ⟨source, place⟩ := by
  induction h generalizing done with
  | here => simp
  | @byte σ rest place out hc _ ih =>
    rw [drainUncommentedOnto_eq, next_of_not_opensComment hc]
    dsimp only
    rw [ih]
    simp
  | @comment raw rest place left out hc _ ih =>
    obtain ⟨rfl, hrest⟩ | rfl := hc.left_cases
    · rw [List.nil_append, ← ih, drainUncommentedOnto_eq, hc.next_line, drainUncommentedOnto_eq done]
      cases rest with
      | nil => rfl
      | cons ν rest => rw [next_of_ne_slash (by rw [hrest ν rfl]; decide)]
    · rw [drainUncommentedOnto_eq, hc.next_block]
      dsimp only
      rw [ih]
      simp

theorem drainUncommented_of_finished (h : Uncomments (Symbol.ofText source) out []) :
    (ofSource source).drainUncommented = (.ok out, ⟨source, []⟩) := by
  rw [drainUncommented, ofSource, drainUncommentedOnto_of_uncomments h, drainUncommentedOnto_eq,
    Uncommented.next]
  simp

theorem drainUncommented_of_unclosedCommentAt {offset : Nat} (h : UnclosedCommentAt source offset) :
    (ofSource source).drainUncommented =
      (.error ⟨.comment, .ofOffset source offset⟩, ⟨source, []⟩) := by
  obtain ⟨hopens, hcl, out, hout⟩ := h
  rw [← Symbol.ofText_eq_ofRewritten, ← Symbol.ofText_eq_ofRewritten] at hout
  rw [← List.drop_drop] at hcl
  have hn := next_ofText_eq_unclosedComment_iff.mpr ⟨hopens, hcl⟩
  rw [drainUncommented, ofSource, drainUncommentedOnto_of_uncomments hout, drainUncommentedOnto_eq, hn,
    unclosedComment, Cursor.offset, Position.ofOffset_of_place]

theorem drainUncommented_cases (source : List UInt8) :
    (∃ out, Uncomments (Symbol.ofText source) out [] ∧
      (ofSource source).drainUncommented = (.ok out, ⟨source, []⟩)) ∨
    ∃ offset, UnclosedCommentAt source offset ∧ (ofSource source).drainUncommented =
      (.error ⟨.comment, .ofOffset source offset⟩, ⟨source, []⟩) := by
  obtain ⟨out, place, hout, hplace⟩ := exists_uncomments (Symbol.ofText source)
  rcases hplace with rfl | hn
  · exact .inl ⟨out, hout, drainUncommented_of_finished hout⟩
  · obtain ⟨offset, rfl⟩ := Symbol.exists_drop_of_suffix hout.suffix
    obtain ⟨hopens, hcl⟩ := next_ofText_eq_unclosedComment_iff.mp hn
    rw [List.drop_drop] at hcl
    rw [Symbol.ofText_eq_ofRewritten, Symbol.ofText_eq_ofRewritten] at hout
    have hat : UnclosedCommentAt source offset := ⟨hopens, hcl, out, hout⟩
    exact .inr ⟨offset, hat, drainUncommented_of_unclosedCommentAt hat⟩

theorem drainUncommented_eq_ok_iff :
    (ofSource source).drainUncommented.1 = .ok out ↔ Uncomments (Symbol.ofText source) out [] := by
  constructor
  · intro h
    rcases drainUncommented_cases source with ⟨out', hout, hd⟩ | ⟨offset, hat, hd⟩
    · rw [hd] at h
      cases h
      exact hout
    · rw [hd] at h
      cases h
  · intro h
    rw [drainUncommented_of_finished h]

theorem drainUncommented_eq_error_iff {e : Unterminated} :
    (ofSource source).drainUncommented.1 = .error e ↔
      ∃ offset, UnclosedCommentAt source offset ∧ e = ⟨.comment, .ofOffset source offset⟩ := by
  constructor
  · intro h
    rcases drainUncommented_cases source with ⟨out', hout, hd⟩ | ⟨offset, hat, hd⟩
    · rw [hd] at h
      cases h
    · rw [hd] at h
      cases h
      exact ⟨offset, hat, rfl⟩
  · intro h
    obtain ⟨offset, hat, rfl⟩ := h
    rw [drainUncommented_of_unclosedCommentAt hat]

structure Spent (cursor : Cursor) : Prop where
  offset_eq : cursor.offset = cursor.source.length
  next_eq : cursor.next = (none, cursor)
  nextUncommented_eq : cursor.nextUncommented = (.ok none, cursor)

theorem spent_nil (source : List UInt8) : Spent ⟨source, []⟩ := ⟨rfl, rfl, rfl⟩

theorem nextUncommented_of_error {cursor after : Cursor} {e : Unterminated}
    (h : cursor.nextUncommented = (.error e, after)) : after = ⟨cursor.source, []⟩ := by
  rw [nextUncommented] at h
  cases hn : Uncommented.next cursor.rest with
  | byte c rest =>
    rw [hn] at h
    cases h
  | finished =>
    rw [hn] at h
    cases h
  | unclosedComment =>
    rw [hn] at h
    cases h
    rfl

/-- Draining a source leaves its bytes as they are read, without its comments, and fails exactly if a
block comment is never closed, at the place where it opens. No comment is left or comes about in the
result, so that draining it again changes nothing. After a failure nothing is left to read. -/
theorem drainUncommented_strips (source : List UInt8) :
    (∀ out, (ofSource source).drainUncommented.1 = .ok out ↔
      Uncomments (Symbol.ofRewritten source) out []) ∧
    (∀ e, (ofSource source).drainUncommented.1 = .error e ↔
      ∃ offset, UnclosedCommentAt source offset ∧ e = ⟨.comment, .ofOffset source offset⟩) ∧
    (∀ out, (ofSource source).drainUncommented.1 = .ok out →
      ¬[slash, slash] <:+: out ∧ ¬[slash, asterisk] <:+: out ∧
        (ofSource out).drainUncommented.1 = .ok out) ∧
    (∀ e after, (ofSource source).drainUncommented = (.error e, after) →
      after.source = source ∧ after.Spent) ∧
    (∀ text e after, nextUncommented ⟨source, text⟩ = (.error e, after) →
      after.source = source ∧ after.Spent) := by
  rw [← Symbol.ofText_eq_ofRewritten]
  refine ⟨fun _ ↦ drainUncommented_eq_ok_iff, fun _ ↦ drainUncommented_eq_error_iff, ?_, ?_, ?_⟩
  · intro out h
    have hout := drainUncommented_eq_ok_iff.mp h
    have hread := hout.asRead_eq fun _ hσ ↦ Symbol.asRead_of_mem_ofText hσ
    refine ⟨hout.opener_free (.inl rfl), hout.opener_free (.inr rfl), ?_⟩
    exact drainUncommented_eq_ok_iff.mpr (uncomments_self hread hout.isChain)
  · intro e after h
    rcases drainUncommented_cases source with ⟨out, -, hd⟩ | ⟨offset, -, hd⟩
    · cases hd.symm.trans h
    · cases hd.symm.trans h
      exact ⟨rfl, spent_nil source⟩
  · intro text e after h
    obtain rfl := nextUncommented_of_error h
    exact ⟨rfl, spent_nil source⟩

theorem drainUncommented_strips_overlapping :
    (Uncomments (Symbol.ofRewritten (Utf8.encode "a/*/*/b///*\r\n/\r")) (Utf8.encode "a b\n/\n") [] ∧
      ¬[slash, slash] <:+: Utf8.encode "a b\n/\n" ∧ ¬[slash, asterisk] <:+: Utf8.encode "a b\n/\n" ∧
      (ofSource (Utf8.encode "a b\n/\n")).drainUncommented.1 = .ok (Utf8.encode "a b\n/\n")) ∧
    ((∃ offset, UnclosedCommentAt (Utf8.encode "x\n/*/ y") offset ∧
        (⟨.comment, ⟨2, 1⟩⟩ : Unterminated) =
          ⟨.comment, .ofOffset (Utf8.encode "x\n/*/ y") offset⟩) ∧
      (ofSource (Utf8.encode "x\n/*/ y")).drainUncommented.2.Spent ∧
      (nextUncommented ⟨Utf8.encode "x\n/*/ y", Symbol.ofText (Utf8.encode "/*/ y")⟩).2.Spent) := by
  have hok : (ofSource (Utf8.encode "a/*/*/b///*\r\n/\r")).drainUncommented.1 =
      .ok (Utf8.encode "a b\n/\n") := by cbv
  have herror : (ofSource (Utf8.encode "x\n/*/ y")).drainUncommented =
      (.error ⟨.comment, ⟨2, 1⟩⟩, ⟨Utf8.encode "x\n/*/ y", []⟩) := by cbv
  have hnext : nextUncommented ⟨Utf8.encode "x\n/*/ y", Symbol.ofText (Utf8.encode "/*/ y")⟩ =
      (.error ⟨.comment, ⟨2, 1⟩⟩, ⟨Utf8.encode "x\n/*/ y", []⟩) := by cbv
  have hs := drainUncommented_strips (Utf8.encode "a/*/*/b///*\r\n/\r")
  have hf := drainUncommented_strips (Utf8.encode "x\n/*/ y")
  refine ⟨⟨(hs.1 _).mp hok, hs.2.2.1 _ hok⟩, (hf.2.1 _).mp (by rw [herror]), ?_, ?_⟩
  · rw [herror]
    exact (hf.2.2.2.1 _ _ herror).2
  · rw [hnext]
    exact (hf.2.2.2.2 _ _ _ hnext).2

end Cursor

end ScriptMinifier
