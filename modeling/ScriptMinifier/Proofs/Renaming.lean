import ScriptMinifier.Proofs.Refinement
import ScriptMinifier.Proofs.Closing

namespace ScriptMinifier

open Byte Uncommented

/-- A change of symbols that exchanges word bytes for one another and leaves every other byte alone.
The backslash, which is a word byte as well, stays what it is. Widths may change freely. -/
structure Renames (f : Symbol → Symbol) (g : UInt8 → UInt8) : Prop where
  byte : ∀ σ, (f σ).byte = g σ.byte
  fixes : ∀ c, isWord c = false → g c = c
  word : ∀ c, isWord c = true → isWord (g c) = true
  escapes : ∀ c, g c = backslash ↔ c = backslash

theorem renames_id {f : Symbol → Symbol} (hf : ∀ σ, (f σ).byte = σ.byte) : Renames f id :=
  ⟨hf, fun _ _ ↦ rfl, fun _ h ↦ h, fun _ ↦ Iff.rfl⟩

namespace Renames

variable {f : Symbol → Symbol} {g : UInt8 → UInt8} {c d : UInt8} {σ : Symbol}

theorem isWord_eq (h : Renames f g) (c : UInt8) : isWord (g c) = isWord c := by
  cases hc : isWord c with
  | true => exact h.word c hc
  | false => rw [h.fixes c hc, hc]

theorem eq_iff (h : Renames f g) (hd : isWord d = false) : g c = d ↔ c = d := by
  cases hc : isWord c with
  | false => rw [h.fixes c hc]
  | true =>
    have hg := h.word c hc
    constructor
    · intro he
      rw [he, hd] at hg
      cases hg
    · intro he
      rw [he, hd] at hc
      cases hc

theorem byte_eq_iff (h : Renames f g) (hd : isWord d = false) : (f σ).byte = d ↔ σ.byte = d := by
  rw [h.byte, h.eq_iff hd]

theorem contains_eq (h : Renames f g) {table : List UInt8}
    (ht : (table.all fun c ↦ !isWord c) = true) (c : UInt8) : table.contains (g c) = table.contains c := by
  have hnot {d : UInt8} (hd : isWord d = true) : table.contains d = false := by
    rw [Bool.eq_false_iff]
    intro hmem
    have := List.all_eq_true.mp ht d (List.contains_iff_mem.mp hmem)
    simp [hd] at this
  cases hc : isWord c with
  | false => rw [h.fixes c hc]
  | true => rw [hnot hc, hnot (h.word c hc)]

theorem opensExpression_eq (h : Renames f g) (c : UInt8) : opensExpression (g c) = opensExpression c :=
  h.contains_eq (by decide) c

theorem opensStatement_eq (h : Renames f g) (c : UInt8) : opensStatement (g c) = opensStatement c :=
  h.contains_eq (by decide) c

theorem closesStatement_eq (h : Renames f g) (c : UInt8) : closesStatement (g c) = closesStatement c :=
  h.contains_eq (by decide) c

theorem byte_delimiter (h : Renames f g) (delimiter : Delimiter) : g delimiter.byte = delimiter.byte := by
  apply h.fixes
  cases delimiter <;> decide

theorem ofQuote?_eq (h : Renames f g) (c : UInt8) : Delimiter.ofQuote? (g c) = Delimiter.ofQuote? c := by
  simp only [Delimiter.ofQuote?, h.eq_iff (d := singleQuote) (by decide),
    h.eq_iff (d := doubleQuote) (by decide)]

theorem visible_iff (h : Renames f g) : Visible (g c) ↔ Visible c := by
  simp only [Visible, ne_eq, h.eq_iff (d := space) (by decide), h.eq_iff (d := newline) (by decide)]

end Renames

def Uncommented.map (f : Symbol → Symbol) (g : UInt8 → UInt8) : Uncommented → Uncommented
  | .byte c rest => .byte (g c) (rest.map f)
  | .finished => .finished
  | .unclosedComment => .unclosedComment

def Item.map (g : UInt8 → UInt8) : Item → Item
  | .byte c => .byte (g c)
  | .literal delimiter body => .literal delimiter (body.map g)

def Outline.rename (g : UInt8 → UInt8) (outline : Outline) : Outline :=
  outline.map fun (gap, item) ↦ (gap, item.map g)

def Machine.Failure.map (f : Symbol → Symbol) (failure : Failure) : Failure :=
  ⟨failure.construct, failure.opening.map f⟩

namespace Renames

variable {f : Symbol → Symbol} {g : UInt8 → UInt8} (h : Renames f g)

include h

theorem afterLineComment_map (text : List Symbol) :
    afterLineComment (text.map f) = (afterLineComment text).map f g := by
  induction text with
  | nil => rfl
  | cons σ text ih =>
    simp only [List.map_cons, afterLineComment, h.byte_eq_iff (d := newline) (by decide)]
    split
    · simp only [Uncommented.map, h.fixes newline (by decide)]
    · exact ih

theorem afterBlockComment_map (text : List Symbol) :
    afterBlockComment (text.map f) = (afterBlockComment text).map f g := by
  fun_induction afterBlockComment text with
  | case1 => rfl
  | case2 => rfl
  | case3 σ τ text hσ =>
    simp only [List.map_cons, afterBlockComment, h.byte_eq_iff (d := asterisk) (by decide),
      h.byte_eq_iff (d := slash) (by decide), if_pos hσ, Uncommented.map, h.fixes space (by decide)]
  | case4 σ τ text hσ ih =>
    simp only [List.map_cons, afterBlockComment, h.byte_eq_iff (d := asterisk) (by decide),
      h.byte_eq_iff (d := slash) (by decide), if_neg hσ]
    exact ih

theorem next_map (text : List Symbol) : next (text.map f) = (next text).map f g := by
  cases text with
  | nil => rfl
  | cons σ text =>
    simp only [List.map_cons, next, h.byte_eq_iff (d := slash) (by decide)]
    split
    · cases text with
      | nil => simp only [List.map_nil, afterSlash, Uncommented.map, h.fixes slash (by decide)]
      | cons τ text =>
        simp only [List.map_cons, afterSlash, h.byte_eq_iff (d := slash) (by decide),
          h.byte_eq_iff (d := asterisk) (by decide)]
        split
        · exact h.afterLineComment_map text
        · split
          · exact h.afterBlockComment_map text
          · simp only [Uncommented.map, List.map_cons, h.fixes slash (by decide)]
    · simp only [Uncommented.map, h.byte]

theorem readBody?_map (delimiter : Delimiter) (text : List Symbol) :
    Item.readBody? delimiter (text.map f) =
      (Item.readBody? delimiter text).map fun (body, rest) ↦ (body.map g, rest.map f) := by
  have hn {σ : Symbol} : (f σ).byte = newline ↔ σ.byte = newline := h.byte_eq_iff (by decide)
  have hd {σ : Symbol} : (f σ).byte = delimiter.byte ↔ σ.byte = delimiter.byte :=
    h.byte_eq_iff (by cases delimiter <;> decide)
  have hb {σ : Symbol} : (f σ).byte = backslash ↔ σ.byte = backslash := by rw [h.byte, h.escapes]
  fun_induction Item.readBody? delimiter text with
  | case1 => rfl
  | case2 σ text h₁ => exact Item.readBody?_newline (hn.mpr h₁)
  | case3 σ text h₁ h₂ => exact Item.readBody?_closing (hd.mpr h₂)
  | case4 σ h₁ h₂ h₃ => exact Item.readBody?_escape (hb.mpr h₃)
  | case5 σ h₁ h₂ h₃ τ text ih =>
    have hg : g backslash = backslash := (h.escapes _).mpr rfl
    rw [List.map_cons, List.map_cons, Item.readBody?_escape (hb.mpr h₃)]
    dsimp only
    rw [ih, Option.map_map, Option.map_map]
    simp only [Function.comp_def, List.map_cons, h.byte, hg]
  | case6 σ text h₁ h₂ h₃ ih =>
    rw [List.map_cons, Item.readBody?_plain (mt hn.mp h₁) (mt hd.mp h₂) (mt hb.mp h₃), ih,
      Option.map_map, Option.map_map]
    simp only [Function.comp_def, List.map_cons, h.byte]

theorem holdsBreak_map (last : Option UInt8) (gap : Gap) :
    gap.holdsBreak (last.map g) = gap.holdsBreak last := by
  simp only [Gap.holdsBreak, Option.all_map, h.isWord_eq, h.closesStatement_eq]

theorem delimiter?_map (last : Option UInt8) (gap : Gap) (c : UInt8) :
    Item.delimiter? (last.map g) gap (g c) = Item.delimiter? last gap c := by
  simp only [Item.delimiter?, h.eq_iff (d := slash) (by decide), h.holdsBreak_map, Option.any_map,
    h.opensExpression_eq, h.ofQuote?_eq]

theorem last_map (item : Item) : (item.map g).last = g item.last := by
  cases item with
  | byte c => rfl
  | literal delimiter body => exact (h.byte_delimiter delimiter).symm

theorem first_map (item : Item) : (item.map g).first = g item.first := by
  cases item with
  | byte c => rfl
  | literal delimiter body => exact (h.byte_delimiter delimiter).symm

theorem itemRead_map (last : Option UInt8) (gap : Gap) (σ : Symbol) (text : List Symbol) :
    Item.read (last.map g) gap (f σ) (text.map f) =
      ((Item.read last gap σ text).map fun (item, rest) ↦ (item.map g, rest.map f)).mapError
        (Machine.Failure.map f) := by
  simp only [Item.read, h.byte, h.delimiter?_map]
  cases Item.delimiter? last gap σ.byte with
  | none => rfl
  | some delimiter =>
    dsimp only
    rw [h.readBody?_map]
    cases Item.readBody? delimiter text <;> rfl

theorem resume_map (last : Option UInt8) (gap : Gap) (text : List Symbol) :
    Outline.resume (last.map g) gap (text.map f) =
      ((Outline.resume last gap text).map (Outline.rename g)).mapError (Machine.Failure.map f) := by
  induction text using reading_induction generalizing last gap with
  | finished text hn =>
    have hn' := h.next_map text
    rw [hn] at hn'
    rw [Outline.resume_of_finished hn, Outline.resume_of_finished hn']
    rfl
  | unclosed text hn =>
    have hn' := h.next_map text
    rw [hn] at hn'
    rw [Outline.resume_of_unclosedComment hn, Outline.resume_of_unclosedComment hn']
    rfl
  | space text rest hn ih =>
    have hn' := h.next_map text
    rw [hn, Uncommented.map, h.fixes space (by decide)] at hn'
    rw [Outline.resume_of_space hn, Outline.resume_of_space hn', ih]
  | newline text rest hn ih =>
    have hn' := h.next_map text
    rw [hn, Uncommented.map, h.fixes newline (by decide)] at hn'
    rw [Outline.resume_of_newline hn, Outline.resume_of_newline hn', ih]
  | visible σ rest hn hσ ih =>
    have hn' := h.next_map (σ :: rest)
    rw [hn, Uncommented.map, ← h.byte, List.map_cons] at hn'
    have hσ' : Visible (f σ).byte := by rwa [h.byte, h.visible_iff]
    rw [List.map_cons, Outline.resume_of_visible hn hσ, Outline.resume_of_visible hn' hσ',
      h.itemRead_map]
    cases hi : Item.read last gap σ rest with
    | error failure => rfl
    | ok found =>
      obtain ⟨item, rest'⟩ := found
      have hr := ih rest' (Item.length_read hi) (some item.last) .none
      rw [Option.map_some, ← h.last_map] at hr
      change (Outline.resume (some (item.map g).last) .none (rest'.map f)).map _ = _
      dsimp only
      rw [hr]
      cases Outline.resume (some item.last) .none rest' <;> rfl

theorem separator_map (last : Option UInt8) (gap : Gap) (item : Item) :
    Outline.separator (last.map g) gap (item.map g) = (Outline.separator last gap item).map g := by
  have hopens : (item.map g).opensStatement = item.opensStatement := by
    cases item with
    | byte c => simp only [Item.map, Item.opensStatement, h.isWord_eq, h.opensStatement_eq]
    | literal delimiter body => rfl
  have hword : isWord (item.map g).first = isWord item.first := by rw [h.first_map, h.isWord_eq]
  simp only [Outline.separator, h.holdsBreak_map, hopens, hword, Option.any_map,
    h.isWord_eq]
  split
  · split
    · simp only [List.map_cons, List.map_nil, h.fixes newline (by decide)]
    · rfl
  · split
    · simp only [List.map_cons, List.map_nil, h.fixes space (by decide)]
    · rfl

theorem bytes_map (item : Item) : (item.map g).bytes = item.bytes.map g := by
  cases item with
  | byte c => rfl
  | literal delimiter body => simp [Item.map, Item.bytes, h.byte_delimiter]

theorem render_rename (last : Option UInt8) (outline : Outline) :
    (outline.rename g).render (last.map g) = (outline.render last).map g := by
  induction outline generalizing last with
  | nil => rfl
  | cons entry outline ih =>
    obtain ⟨gap, item⟩ := entry
    have hr := ih (some item.last)
    rw [Option.map_some, ← h.last_map] at hr
    rw [Outline.render, List.map_append, List.map_append, ← h.separator_map, ← h.bytes_map, ← hr]
    rfl

/-- A run on a renamed text is the run on the text, renamed. -/
theorem run_map (text : List Symbol) :
    Machine.run (text.map f) =
      ((Machine.run text).map (List.map g)).mapError (Machine.Failure.map f) := by
  have hr := h.resume_map none .none text
  rw [Option.map_none] at hr
  rw [Machine.run_eq_render, Machine.run_eq_render, Outline.ofText_eq_resume,
    Outline.ofText_eq_resume, hr]
  cases Outline.resume none .none text with
  | error failure => rfl
  | ok outline => exact congrArg Except.ok (h.render_rename none outline)

end Renames

end ScriptMinifier
