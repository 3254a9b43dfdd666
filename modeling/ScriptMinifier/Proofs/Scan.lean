import ScriptMinifier.Proofs.Refinement
import ScriptMinifier.Proofs.Steps
import ScriptMinifier.Proofs.RawText

namespace ScriptMinifier

open Byte Uncommented

/-- The reading of a text from the left, past closed comments and whole items only, comes to the place.
`last` is the last byte of the item before the place, and `gap` is what lies between. -/
def Scan (text : List Symbol) (last : Option UInt8) (gap : Gap) (place : List Symbol) : Prop :=
  ∃ trace, Reads none .none text trace last gap place

def EndsInLineComment (text : List Symbol) : Prop :=
  ∃ last gap place, Scan text last gap place ∧ Comment place [] []

/-- A text and what may follow it without a change to how the text itself is read: no comment opens
across the border, and a line comment at the end of the text goes no further. -/
structure Joins (text rest : List Symbol) : Prop where
  opensNothing : ∀ σ ∈ text.getLast?, ¬OpensComment (σ :: rest)
  endsComment : EndsInLineComment text → ∀ ν ∈ rest.head?, ν.byte = newline

theorem joins_nil (text : List Symbol) : Joins text [] := ⟨fun _ _ h ↦ h, fun _ _ h ↦ nomatch h⟩

theorem not_opensComment_newline (σ : Symbol) {ν : Symbol} (hν : ν.byte = newline)
    (rest : List Symbol) : ¬OpensComment (σ :: ν :: rest) := by
  intro h
  rcases h.2 with hs | hs
  · exact absurd (hν.symm.trans hs) (by decide)
  · exact absurd (hν.symm.trans hs) (by decide)

theorem joins_newline (text : List Symbol) {ν : Symbol} (hν : ν.byte = newline) (rest : List Symbol) :
    Joins text (ν :: rest) := by
  refine ⟨fun σ _ ↦ not_opensComment_newline σ hν rest, fun _ τ hτ ↦ ?_⟩
  cases hτ
  exact hν

/-- What may stand at a place of a text instead, for the text before it to be read as it is: nothing at
all, a text that begins with the same byte or, at the end, one that joins. -/
inductive Replaces (text : List Symbol) : List Symbol → List Symbol → Prop
  | nothing {place : List Symbol} : Replaces text place []
  | sameByte {σ σ' : Symbol} {rest rest' : List Symbol} : σ'.byte = σ.byte →
      Replaces text (σ :: rest) (σ' :: rest')
  | joins {after : List Symbol} : Joins text after → Replaces text [] after

namespace Replaces

variable {text place place' : List Symbol}

theorem not_opensComment (h : Replaces text place place') {σ : Symbol} (hs : σ :: place <:+ text)
    (hc : ¬OpensComment (σ :: place)) : ¬OpensComment (σ :: place') := by
  cases h with
  | nothing => exact fun h ↦ h
  | sameByte hσ =>
    intro h
    apply hc
    exact ⟨h.1, hσ ▸ h.2⟩
  | joins hj =>
    obtain ⟨before, rfl⟩ := hs
    exact hj.opensNothing σ List.getLast?_concat

theorem head_newline (h : Replaces text place place') (hc : place = [] → EndsInLineComment text)
    (hplace : ∀ ν ∈ place.head?, ν.byte = newline) : ∀ ν ∈ place'.head?, ν.byte = newline := by
  cases h with
  | nothing =>
    intro ν hν
    cases hν
  | @sameByte σ σ' rest rest' hσ =>
    intro ν hν
    cases hν
    rw [hσ]
    exact hplace σ rfl
  | joins hj => exact hj.endsComment (hc rfl)

theorem append (h : Replaces text place place') (front : List Symbol) :
    Replaces text (front ++ place) (front ++ place') := by
  cases front with
  | nil => exact h
  | cons σ front => exact .sameByte rfl

end Replaces

namespace Scan

variable {text place place' : List Symbol} {last last' : Option UInt8} {gap gap' : Gap}

theorem start : Scan text none .none text := ⟨[], .here⟩

theorem reads {trace : List Passed} (h : Scan text last gap place)
    (hr : Reads last gap place trace last' gap' place') : Scan text last' gap' place' := by
  obtain ⟨front, hf⟩ := h
  exact ⟨front ++ trace, hf.trans hr⟩

theorem suffix (h : Scan text last gap place) : place <:+ text := by
  obtain ⟨trace, hr⟩ := h
  exact hr.suffix

theorem step_replace {passed : Passed} {rest rest' : List Symbol} (h : Scan text last gap place)
    (hstep : Step last gap place passed last' gap' rest) (hp : Replaces text rest rest') :
    Step last gap (passed.raw ++ rest') passed last' gap' rest' := by
  cases hstep with
  | layout hl =>
    cases hl with
    | space hσ => exact .layout (.space hσ)
    | newline hσ => exact .layout (.newline hσ)
    | lineComment hc =>
      cases hc with
      | line hσ hτ hinner hrest =>
        -- A comment that reaches the end of the text goes on in what stands there instead, unless a line
        -- break comes first.
        have hhead := hp.head_newline ?_ hrest
        · exact .layout (.lineComment (.line hσ hτ hinner hhead))
        · rintro rfl
          rw [List.append_nil] at h
          exact ⟨last, gap, _, h, .line hσ hτ hinner hrest⟩
    | blockComment hc =>
      cases hc with
      | block hσ hτ hα hω hfirst => exact .layout (.blockComment (.block hσ hτ hα hω hfirst))
  | item hi =>
    cases hi with
    | byte hσ hc hd => exact .item (.byte hσ (hp.not_opensComment h.suffix hc) hd)
    | literal hc hd hb hω => exact .item (.literal hc hd hb hω)

theorem reads_replace {trace : List Passed} (h : Scan text last gap place)
    (hr : Reads last gap place trace last' gap' place') {after : List Symbol}
    (hp : Replaces text place' after) :
    Reads last gap (trace.flatMap Passed.raw ++ after) trace last' gap' after := by
  induction hr with
  | here => exact .here
  | @step _ _ _ _ _ _ _ rest _ passed trace hstep hr ih =>
    have hrest := hp.append (trace.flatMap Passed.raw)
    rw [← hr.text_eq] at hrest
    rw [List.flatMap_cons, List.append_assoc]
    exact .step (h.step_replace hstep hrest) (ih (h.reads (.step hstep .here)) hp)

theorem ofText_replace (h : Scan text last gap place) :
    ∃ (before : List Symbol) (front : Outline), text = before ++ place ∧
      ∀ place', Replaces text place place' →
        Outline.ofText none (before ++ place') =
          (Outline.resume last gap place').map (front ++ ·) := by
  obtain ⟨trace, hr⟩ := h
  refine ⟨trace.flatMap Passed.raw, trace.flatMap Passed.outline, hr.text_eq, fun place' hp ↦ ?_⟩
  rw [Outline.ofText_eq_resume, (start.reads_replace hr hp).resume_eq]

theorem ofText_append (h : Scan text last gap place) :
    ∃ front : Outline, ∀ after, Joins text after →
      Outline.ofText none (text ++ after) =
        (Outline.resume last gap (place ++ after)).map (front ++ ·) := by
  obtain ⟨before, front, htext, hf⟩ := h.ofText_replace
  refine ⟨front, fun after hj ↦ ?_⟩
  have hp : Replaces text place (place ++ after) := by
    cases place with
    | nil => exact .joins hj
    | cons σ place => exact .sameByte rfl
  rw [← hf _ hp, htext, List.append_assoc]

theorem ofText_eq (h : Scan text last gap place) :
    ∃ front : Outline,
      Outline.ofText none text = (Outline.resume last gap place).map (front ++ ·) := by
  obtain ⟨trace, hr⟩ := h
  exact ⟨_, (Outline.ofText_eq_resume none text).trans hr.resume_eq⟩

end Scan

theorem Outline.ofText_eq_error_iff {text : List Symbol} {failure : Machine.Failure} :
    Outline.ofText none text = .error failure ↔
      ∃ last gap, Scan text last gap failure.opening ∧
        Unclosed last gap failure.construct failure.opening := by
  constructor
  · intro h
    rw [Outline.ofText_eq_resume] at h
    obtain ⟨trace, last, gap, hr, hu⟩ := unclosed_of_resume h
    exact ⟨last, gap, ⟨trace, hr⟩, hu⟩
  · intro h
    obtain ⟨last, gap, hs, hu⟩ := h
    obtain ⟨front, hf⟩ := hs.ofText_eq
    rw [hf, hu.resume_eq_error]
    rfl

def Construct.Opens : Construct → List UInt8 → Prop
  | .comment, text => [slash, asterisk] <+: text
  | .string, text => [singleQuote] <+: text ∨ [doubleQuote] <+: text
  | .regex, text => [slash] <+: text

theorem Unclosed.opens {last : Option UInt8} {gap : Gap} {construct : Construct}
    {text : List UInt8} (h : Unclosed last gap construct (Symbol.ofText text)) :
    construct.Opens text := by
  generalize hp : Symbol.ofText text = place at h
  cases h with
  | @comment σ τ rest hσ hτ _ =>
    obtain ⟨text', rfl, hp'⟩ := Symbol.eq_cons_of_ofText hp (by rw [hσ]; decide)
    obtain ⟨text'', rfl, -⟩ := Symbol.eq_cons_of_ofText hp' (by rw [hτ]; decide)
    rw [hσ, hτ]
    exact ⟨text'', rfl⟩
  | @literal delimiter σ inner after _ hd _ _ =>
    have hσ := Item.byte_of_delimiter? hd
    obtain ⟨text, rfl, -⟩ := Symbol.eq_cons_of_ofText hp (hσ ▸ delimiter.visible_byte)
    rw [← hσ]
    cases delimiter with
    | singleQuote => exact .inl ⟨text, rfl⟩
    | doubleQuote => exact .inr ⟨text, rfl⟩
    | slash => exact ⟨text, rfl⟩

theorem Position.ofOffset_of_place (source : List UInt8) (offset : Nat) :
    ofOffset source (source.length - Symbol.totalWidth (Symbol.ofText (source.drop offset))) =
      ofOffset source offset := by
  have hmin : source.length - (source.length - offset) = min offset source.length := by omega
  rw [Symbol.totalWidth_ofText, List.length_drop, hmin, ofOffset, ofOffset, ← List.take_eq_take_min]

theorem Machine.Failure.offset_append {front back : List UInt8} {failure : Machine.Failure}
    (h : Symbol.ofText back = failure.opening) : failure.offset (front ++ back) = front.length := by
  rw [offset, ← h, Symbol.totalWidth_ofText, List.length_append]
  omega

theorem minify_eq_error_iff {source : List UInt8} {e : Unterminated} :
    minify source = .error e ↔
      ∃ failure, Outline.ofText none (Symbol.ofText source) = .error failure ∧
        failure.locate source = e := by
  rw [minify, Machine.run_eq_render]
  cases Outline.ofText none (Symbol.ofText source) with
  | error failure =>
    constructor
    · intro h
      exact ⟨failure, rfl, Except.error.inj h⟩
    · intro h
      obtain ⟨_, ⟨⟩, rfl⟩ := h
      rfl
  | ok outline =>
    constructor
    · intro h
      cases h
    · intro h
      obtain ⟨_, ⟨⟩, _⟩ := h

/-- Reading a source from the left, the first construct that is never closed opens at the raw
offset. -/
structure UnclosedAt (source : List UInt8) (offset : Nat) (construct : Construct) : Prop where
  opens : construct.Opens (source.drop offset)
  met : ∃ last gap,
    Scan (Symbol.ofRewritten source) last gap (Symbol.ofRewritten (source.drop offset)) ∧
    Unclosed last gap construct (Symbol.ofRewritten (source.drop offset))

theorem unclosedAt_iff {source : List UInt8} {offset : Nat} {construct : Construct} :
    UnclosedAt source offset construct ↔
      ∃ last gap, Scan (Symbol.ofText source) last gap (Symbol.ofText (source.drop offset)) ∧
        Unclosed last gap construct (Symbol.ofText (source.drop offset)) := by
  rw [Symbol.ofText_eq_ofRewritten, Symbol.ofText_eq_ofRewritten]
  constructor
  · intro h
    exact h.met
  · intro h
    obtain ⟨last, gap, hs, hu⟩ := h
    refine ⟨?_, last, gap, hs, hu⟩
    rw [← Symbol.ofText_eq_ofRewritten] at hu
    exact hu.opens

/-- A source fails exactly if it holds a construct that is never closed, and what is reported is the
kind of the first one and the place where it opens. -/
theorem minify_eq_error_iff_unclosedAt (source : List UInt8) (e : Unterminated) :
    minify source = .error e ↔
      ∃ offset, UnclosedAt source offset e.construct ∧ e.position = .ofOffset source offset := by
  rw [minify_eq_error_iff]
  constructor
  · intro h
    obtain ⟨failure, hf, rfl⟩ := h
    obtain ⟨last, gap, hs, hu⟩ := Outline.ofText_eq_error_iff.mp hf
    obtain ⟨offset, ho⟩ := Symbol.exists_drop_of_suffix hs.suffix
    rw [← ho] at hs hu
    refine ⟨offset, unclosedAt_iff.mpr ⟨last, gap, hs, hu⟩, ?_⟩
    rw [← Position.ofOffset_of_place, ho]
    rfl
  · intro h
    obtain ⟨offset, hat, he⟩ := h
    obtain ⟨last, gap, hs, hu⟩ := unclosedAt_iff.mp hat
    refine ⟨⟨e.construct, Symbol.ofText (source.drop offset)⟩,
      Outline.ofText_eq_error_iff.mpr ⟨last, gap, hs, hu⟩, ?_⟩
    rw [Machine.Failure.locate, Machine.Failure.offset, Position.ofOffset_of_place, ← he]

end ScriptMinifier
