import Mathlib
import ScriptMinifier.Proofs.Joining

namespace ScriptMinifier

open Byte

/-- The items that are passed, each with the layout since the item before it. `layout` is what has been
passed already. -/
def Passed.laidOut (layout : List Symbol) : List Passed → List (List Symbol × Gap × Item)
  | [] => []
  | .layout raw _ :: trace => laidOut (layout ++ raw) trace
  | .entry _ gap item :: trace => (layout, gap, item) :: laidOut [] trace

theorem Passed.map_snd_laidOut (layout : List Symbol) (trace : List Passed) :
    (laidOut layout trace).map Prod.snd = trace.flatMap outline := by
  induction trace generalizing layout with
  | nil => rfl
  | cons passed trace ih =>
    cases passed with
    | layout raw left => exact ih (layout ++ raw)
    | entry raw gap item => exact congrArg ((gap, item) :: ·) (ih [])

/-- A text as it is read behind the byte `last`: the layout before each item, the gap that the layout
is read as, and the item. -/
def LaidOut (last : Option UInt8) (text : List Symbol) (entries : List (List Symbol × Gap × Item)) :
    Prop :=
  ∃ trace last' gap', Reads last .none text trace last' gap' [] ∧ Passed.laidOut [] trace = entries

theorem Gap.withBlank_ne_none (gap : Gap) : gap.withBlank ≠ .none := by
  cases gap <;> decide

theorem Reads.gap_ne_none {last last' : Option UInt8} {gap gap' : Gap} {text place layout : List Symbol}
    {trace : List Passed} (h : Reads last gap text trace last' gap' place)
    (hlayout : gap = .none → layout = [] ∨ ∀ ν ∈ text.head?, ν.byte = newline) :
    ∀ entry ∈ Passed.laidOut layout trace, entry.1 ≠ [] → entry.2.1 ≠ .none := by
  induction h generalizing layout with
  | here =>
    intro entry hmem
    cases hmem
  | @step _ _ _ gap _ _ _ _ _ _ _ hstep _ ih =>
    cases hstep with
    | layout hl =>
      apply ih
      intro hgap
      cases hl with
      | space | blockComment => exact absurd hgap gap.withBlank_ne_none
      | newline => cases hgap
      | lineComment hc =>
        -- The gap may still be empty behind a line comment, but then its line break is next.
        rcases hc.left_cases with ⟨-, hrest⟩ | hleft
        · exact .inr hrest
        · cases hleft
    | item hi =>
      obtain ⟨σ, raw, rfl, hσ⟩ := hi.exists_cons
      intro entry hmem
      rcases List.mem_cons.mp hmem with rfl | hmem
      · intro hne hgap
        rcases hlayout hgap with hnil | hhead
        · exact hne hnil
        · exact hσ.2 (hhead σ rfl)
      · exact ih (fun _ ↦ .inl rfl) entry hmem

namespace LaidOut

variable {last : Option UInt8} {text : List Symbol} {entries : List (List Symbol × Gap × Item)}

theorem ofText_eq (h : LaidOut last text entries) :
    Outline.ofText last text = .ok (entries.map Prod.snd) := by
  obtain ⟨trace, last', gap', hr, rfl⟩ := h
  rw [Outline.ofText_eq_resume, hr.resume_eq, Outline.resume_of_finished rfl, Passed.map_snd_laidOut,
    Except.map, List.append_nil]

theorem gap_ne_none (h : LaidOut last text entries) {layout : List Symbol} {gap : Gap} {item : Item}
    (hlayout : layout ≠ []) (hmem : (layout, gap, item) ∈ entries) : gap ≠ .none := by
  obtain ⟨trace, last', gap', hr, rfl⟩ := h
  exact hr.gap_ne_none (fun _ ↦ .inl rfl) _ hmem hlayout

end LaidOut

theorem exists_laidOut {last : Option UInt8} {text : List Symbol} {outline : Outline}
    (h : Outline.ofText last text = .ok outline) : ∃ entries, LaidOut last text entries := by
  rw [Outline.ofText_eq_resume] at h
  obtain ⟨trace, last', gap', hr, -⟩ := reads_of_resume h
  exact ⟨_, trace, last', gap', hr, rfl⟩

namespace Item

def isRegex : Item → Bool
  | .literal delimiter _ => delimiter == .slash
  | .byte _ => false

def isString : Item → Bool
  | .literal delimiter _ => delimiter != .slash
  | .byte _ => false

def canEnd : Item → Bool
  | .byte c => isWord c || ([')', ']', '}', '+', '-'].map Char.toUInt8).contains c
  | .literal _ _ => true

def canBegin : Item → Bool
  | .byte c => isWord c || (['{', '[', '(', '+', '-', '!', '~'].map Char.toUInt8).contains c
  | .literal _ _ => true

/-- The items before which no line break is kept, although they can be the start of a statement. -/
def refusesBreak (item : Item) : Bool :=
  item.isString || item == .byte '!'.toUInt8 || item == .byte '~'.toUInt8

variable {item : Item}

theorem holdsBreak_of_canEnd (h : item.canEnd = true) :
    Gap.lineBreak.holdsBreak (some item.last) = !item.isRegex := by
  have hbreak (c : UInt8) : Gap.lineBreak.holdsBreak (some c) = (isWord c || closesStatement c) := by
    simp [Gap.holdsBreak]
  rw [hbreak]
  cases item with
  | byte c =>
    rw [canEnd, Bool.or_eq_true] at h
    rcases h with h | h
    · simp [last, h, isRegex]
    · simp only [List.map, List.contains_iff_mem, List.mem_cons, List.not_mem_nil, or_false] at h
      rcases h with rfl | rfl | rfl | rfl | rfl <;> decide
  | literal delimiter body => cases delimiter <;> rfl

theorem opensStatement_of_canBegin (h : item.canBegin = true) :
    item.opensStatement = !item.refusesBreak := by
  cases item with
  | byte c =>
    rw [canBegin, Bool.or_eq_true] at h
    rcases h with h | h
    · have h₁ : c ≠ '!'.toUInt8 := by rintro rfl; exact absurd h (by decide)
      have h₂ : c ≠ '~'.toUInt8 := by rintro rfl; exact absurd h (by decide)
      simp [opensStatement, refusesBreak, isString, h, h₁, h₂]
    · simp only [List.map, List.contains_iff_mem, List.mem_cons, List.not_mem_nil, or_false] at h
      rcases h with rfl | rfl | rfl | rfl | rfl | rfl | rfl <;> decide
  | literal delimiter body => cases delimiter <;> rfl

theorem opensStatement_of_isWord_first (h : isWord item.first = true) :
    item.opensStatement = true := by
  cases item with
  | byte c =>
    have hc : isWord c = true := h
    simp [opensStatement, hc]
  | literal delimiter body =>
    have hword : isWord delimiter.byte = false := by cases delimiter <;> decide
    exact absurd h (by simp [first, hword])

theorem opensStatement_of_sign (h : item.first = plus ∨ item.first = minus) :
    item.opensStatement = true := by
  cases item with
  | byte c =>
    have hc : c = plus ∨ c = minus := h
    rcases hc with rfl | rfl <;> decide
  | literal delimiter body =>
    have hne : delimiter.byte ≠ plus ∧ delimiter.byte ≠ minus := by cases delimiter <;> decide
    rcases h with h | h
    · exact absurd h hne.1
    · exact absurd h hne.2

theorem last_of_isRegex (h : item.isRegex = true) : item.last = slash := by
  cases item with
  | byte c => cases h
  | literal delimiter body => exact congrArg Delimiter.byte (eq_of_beq h)

end Item

namespace Outline

variable {first second : Item} {gap : Gap}

theorem render_neighbours (front : Outline) (gap' : Gap) (first : Item) (gap : Gap) (second : Item)
    (back : Outline) :
    render none (front ++ (gap', first) :: (gap, second) :: back) =
      render none (front ++ [(gap', first)]) ++ separator (some first.last) gap second ++
        second.bytes ++ render (some second.last) back := by
  have hsplit : front ++ (gap', first) :: (gap, second) :: back =
      (front ++ [(gap', first)]) ++ (gap, second) :: back := by simp
  rw [hsplit, render_append, endByte_concat, render]
  simp only [List.append_assoc]

theorem newline_mem_separator_iff (hgap : gap ≠ .none) (hfirst : first.canEnd = true)
    (hsecond : second.canBegin = true) :
    newline ∈ separator (some first.last) gap second ↔
      gap ≠ .blank ∧ first.isRegex = false ∧ second.refusesBreak = false := by
  cases gap with
  | none => exact absurd rfl hgap
  | blank =>
    have hne : newline ≠ space := by decide
    simp [separator, Gap.holdsBreak, hne]
  | lineBreak =>
    rw [separator, Item.holdsBreak_of_canEnd hfirst, Item.opensStatement_of_canBegin hsecond]
    cases first.isRegex <;> cases second.refusesBreak <;> simp

theorem separator_words (hgap : gap ≠ .none) (hfirst : isWord first.last = true)
    (hsecond : isWord second.first = true) : separator (some first.last) gap second ≠ [] := by
  cases gap with
  | none => exact absurd rfl hgap
  | blank => simp [separator, Gap.holdsBreak, hfirst, hsecond]
  | lineBreak =>
    simp [separator, Gap.holdsBreak, hfirst, Item.opensStatement_of_isWord_first hsecond]

theorem separator_signs (hgap : gap ≠ .none) (hfirst : first.last = plus ∨ first.last = minus)
    (hsecond : first.last = second.first) :
    separator (some first.last) gap second = [] ↔ gap = .blank := by
  have hopens := Item.opensStatement_of_sign (hsecond ▸ hfirst)
  have hword : isWord first.last = false ∧ closesStatement first.last = true := by
    rcases hfirst with h | h <;> rw [h] <;> decide
  cases gap with
  | none => exact absurd rfl hgap
  | blank => simp [separator, Gap.holdsBreak, hword]
  | lineBreak => simp [separator, Gap.holdsBreak, hword, hopens]

theorem separator_regex (h : first.isRegex = true) (gap : Gap) (second : Item) :
    separator (some first.last) gap second = [] := by
  have hword : isWord slash = false ∧ closesStatement slash = false := by decide
  rw [Item.last_of_isRegex h]
  simp [separator, Gap.holdsBreak, hword]

end Outline

theorem minify_neighbours {source y : List UInt8} (h : minify source = .ok y)
    {front back : List (List Symbol × Gap × Item)} {layout' layout : List Symbol} {gap' gap : Gap}
    {first second : Item} (hl : LaidOut none (Symbol.ofText source)
      (front ++ (layout', gap', first) :: (layout, gap, second) :: back)) :
    y = Outline.render none (front.map Prod.snd ++ [(gap', first)]) ++
      Outline.separator (some first.last) gap second ++ second.bytes ++
        Outline.render (some second.last) (back.map Prod.snd) := by
  have hy := minify_of_outline hl.ofText_eq
  rw [List.map_append, List.map_cons, List.map_cons, Outline.render_neighbours] at hy
  exact Except.ok.inj (h.symm.trans hy)

/-- A line break between what can end a statement and what can begin one is kept, unless it lies in
a block comment, a regular expression stands before it, or a string or one of `!` and `~` behind it. -/
theorem minify_writes_lineBreak {source y : List UInt8} (h : minify source = .ok y) :
    (∃ entries, LaidOut none (Symbol.ofRewritten source) entries) ∧
    ∀ front layout' gap' first layout gap second back,
      LaidOut none (Symbol.ofRewritten source)
        (front ++ (layout', gap', first) :: (layout, gap, second) :: back) →
      newline ∈ layout.map Symbol.byte → first.canEnd = true → second.canBegin = true →
      ∃ written, y = Outline.render none (front.map Prod.snd ++ [(gap', first)]) ++ written ++
          second.bytes ++ Outline.render (some second.last) (back.map Prod.snd) ∧
        (newline ∈ written ↔
          gap ≠ .blank ∧ first.isRegex = false ∧ second.refusesBreak = false) := by
  obtain ⟨outline, ho, -⟩ := exists_outline h
  rw [← Symbol.ofText_eq_ofRewritten]
  refine ⟨exists_laidOut ho, ?_⟩
  intro front layout' gap' first layout gap second back hl hbreak hfirst hsecond
  have hlayout : layout ≠ [] := by
    rintro rfl
    cases hbreak
  have hgap := hl.gap_ne_none hlayout (List.mem_append_right _ (.tail _ (.head _)))
  refine ⟨_, minify_neighbours h hl, ?_⟩
  exact Outline.newline_mem_separator_iff hgap hfirst hsecond

theorem minify_writes_lineBreak_before_call :
    minify (Utf8.encode "b /**///\n(c)") = .ok (Utf8.encode "\nb\n(c)") ∧
      ∃ written, Utf8.encode "\nb\n(c)" = Outline.render none [(.none, .byte 'b'.toUInt8)] ++ written ++
        ['('.toUInt8] ++ Utf8.encode "c)" ∧ newline ∈ written := by
  have h : minify (Utf8.encode "b /**///\n(c)") = .ok (Utf8.encode "\nb\n(c)") := by cbv
  have hl : LaidOut none (Symbol.ofRewritten (Utf8.encode "b /**///\n(c)"))
      [([], .none, .byte 'b'.toUInt8),
        (Symbol.ofText (Utf8.encode " /**///\n"), .lineBreak, .byte '('.toUInt8),
        ([], .none, .byte 'c'.toUInt8), ([], .none, .byte ')'.toUInt8)] := by
    have hsource : Symbol.ofText (Utf8.encode "b /**///\n(c)") = [⟨'b'.toUInt8, 1⟩] ++ ([⟨space, 1⟩] ++
        (⟨slash, 1⟩ :: ⟨asterisk, 1⟩ :: ([] ++ [⟨asterisk, 1⟩, ⟨slash, 1⟩]) ++
          (⟨slash, 1⟩ :: ⟨slash, 1⟩ :: [] ++ ([⟨newline, 1⟩] ++ ([⟨'('.toUInt8, 1⟩] ++
            ([⟨'c'.toUInt8, 1⟩] ++ ([⟨')'.toUInt8, 1⟩] ++ []))))))) := by
      cbv
    have hcloser : ¬Gap.HoldsCloser ([] ++ [⟨asterisk, 1⟩]) :=
      Gap.not_holdsCloser_of_length (Nat.le_refl 1)
    rw [← Symbol.ofText_eq_ofRewritten, hsource]
    refine ⟨_, _, _, .step (.ordinary (by decide)) <| .step (.layout (.space rfl)) <|
      .step (.layout (.blockComment (.block rfl rfl rfl rfl hcloser))) <|
      .step (.layout (.lineComment (.line rfl rfl (by simp) (by simp)))) <|
      .step (.layout (.newline rfl)) <| .step (.ordinary (by decide)) <| .step (.ordinary (by decide)) <|
      .step (.ordinary (by decide)) .here, ?_⟩
    cbv
  obtain ⟨written, hy, hiff⟩ :=
    (minify_writes_lineBreak h).2 [] _ _ _ _ _ _ _ hl (by decide) (by decide) (by decide)
  exact ⟨h, written, hy, hiff.mpr (by decide)⟩

theorem minify_drops_lineBreak_behind_regex :
    Outline.ofText none (Symbol.ofText (Utf8.encode "r = /x/\ng()")) =
        .ok [(.none, .byte 'r'.toUInt8), (.blank, .byte '='.toUInt8),
          (.blank, .literal .slash ['x'.toUInt8]), (.lineBreak, .byte 'g'.toUInt8),
          (.none, .byte '('.toUInt8), (.none, .byte ')'.toUInt8)] ∧
      (Item.literal .slash ['x'.toUInt8]).canEnd = true ∧ (Item.byte 'g'.toUInt8).canBegin = true ∧
      minify (Utf8.encode "r = /x/\ng()") = .ok (Utf8.encode "\nr=/x/g()") := by
  constructor
  · decide +kernel
  · exact ⟨rfl, by decide, by cbv⟩

-- A line break inside a block comment goes with the comment.
example : minify (Utf8.encode "a/*\n*/b") = .ok (Utf8.encode "\na b") := by cbv

/-- Of two neighbours with layout between them, words are always written apart, equal signs exactly
if a line break lies between them, and a word never apart from a regular expression before it. -/
theorem minify_writes_apart {source y : List UInt8} (h : minify source = .ok y) :
    (∃ entries, LaidOut none (Symbol.ofRewritten source) entries) ∧
    ∀ front layout' gap' first layout gap second back,
      LaidOut none (Symbol.ofRewritten source)
        (front ++ (layout', gap', first) :: (layout, gap, second) :: back) →
      layout ≠ [] →
      ∃ written, y = Outline.render none (front.map Prod.snd ++ [(gap', first)]) ++ written ++
          second.bytes ++ Outline.render (some second.last) (back.map Prod.snd) ∧
        (isWord first.last = true → isWord second.first = true → written ≠ []) ∧
        (first.last = plus ∨ first.last = minus → first.last = second.first →
          (written = [] ↔ gap = .blank)) ∧
        (first.isRegex = true → isWord second.first = true → written = []) := by
  obtain ⟨outline, ho, -⟩ := exists_outline h
  rw [← Symbol.ofText_eq_ofRewritten]
  refine ⟨exists_laidOut ho, ?_⟩
  intro front layout' gap' first layout gap second back hl hlayout
  have hgap := hl.gap_ne_none hlayout (List.mem_append_right _ (.tail _ (.head _)))
  refine ⟨_, minify_neighbours h hl, ?_, ?_, ?_⟩
  · exact Outline.separator_words hgap
  · exact Outline.separator_signs hgap
  · exact fun hregex _ ↦ Outline.separator_regex hregex gap second

theorem minify_writes_apart_words :
    minify (Utf8.encode "a/**/b") = .ok (Utf8.encode "\na b") ∧
      ∃ written, Utf8.encode "\na b" = Outline.render none [(.none, .byte 'a'.toUInt8)] ++ written ++
        ['b'.toUInt8] ++ [] ∧ written ≠ [] := by
  have h : minify (Utf8.encode "a/**/b") = .ok (Utf8.encode "\na b") := by cbv
  have hl : LaidOut none (Symbol.ofRewritten (Utf8.encode "a/**/b"))
      [([], .none, .byte 'a'.toUInt8),
        (Symbol.ofText (Utf8.encode "/**/"), .blank, .byte 'b'.toUInt8)] := by
    have hsource : Symbol.ofText (Utf8.encode "a/**/b") = [⟨'a'.toUInt8, 1⟩] ++
        (⟨slash, 1⟩ :: ⟨asterisk, 1⟩ :: ([] ++ [⟨asterisk, 1⟩, ⟨slash, 1⟩]) ++ ([⟨'b'.toUInt8, 1⟩] ++ [])) := by
      cbv
    have hcloser : ¬Gap.HoldsCloser ([] ++ [⟨asterisk, 1⟩]) :=
      Gap.not_holdsCloser_of_length (Nat.le_refl 1)
    rw [← Symbol.ofText_eq_ofRewritten, hsource]
    refine ⟨_, _, _, .step (.ordinary (by decide)) <|
      .step (.layout (.blockComment (.block rfl rfl rfl rfl hcloser))) <|
      .step (.ordinary (by decide)) .here, ?_⟩
    cbv
  obtain ⟨written, hy, hwords, -⟩ :=
    (minify_writes_apart h).2 [] _ _ _ _ _ _ _ hl (by decide)
  exact ⟨h, written, hy, hwords (by decide) (by decide)⟩

theorem minify_joins_signs_and_flags :
    Outline.ofText none (Symbol.ofText (Utf8.encode "a + +b")) =
        .ok [(.none, .byte 'a'.toUInt8), (.blank, .byte plus), (.blank, .byte plus),
          (.none, .byte 'b'.toUInt8)] ∧
      minify (Utf8.encode "a + +b") = .ok (Utf8.encode "\na++b") ∧
      Outline.ofText none (Symbol.ofText (Utf8.encode "=/x/ in y")) =
        .ok [(.none, .byte '='.toUInt8), (.none, .literal .slash ['x'.toUInt8]),
          (.blank, .byte 'i'.toUInt8), (.none, .byte 'n'.toUInt8), (.blank, .byte 'y'.toUInt8)] ∧
      minify (Utf8.encode "=/x/ in y") = .ok (Utf8.encode "=/x/in y") := by
  refine ⟨?_, ?_, ?_, ?_⟩
  · decide +kernel
  · cbv
  · decide +kernel
  · cbv

end ScriptMinifier
