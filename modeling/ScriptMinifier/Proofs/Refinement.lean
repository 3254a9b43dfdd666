import ScriptMinifier.Minify
import ScriptMinifier.Proofs.RawText
import ScriptMinifier.Proofs.Run

namespace ScriptMinifier

open Byte

theorem Byte.isWord_of_opensExpression {c : UInt8} (h : opensExpression c = true) :
    isWord c = false := by
  have hall : (expressionOpeners.all fun c ↦ !isWord c) = true := by decide
  simpa using List.all_eq_true.mp hall c (List.contains_iff_mem.mp h)

namespace Item

def front : Item → List UInt8
  | .byte _ => []
  | .literal delimiter body => delimiter.byte :: body

theorem front_append_last (item : Item) : item.front ++ [item.last] = item.bytes := by
  cases item <;> rfl

theorem visible_last_of_read {last : Option UInt8} {gap : Gap} {σ : Symbol} (hσ : Visible σ.byte)
    {text rest : List Symbol} {item : Item} (h : read last gap σ text = .ok (item, rest)) :
    Visible item.last := by
  unfold read at h
  split at h
  · cases h
    exact hσ
  · split at h
    · cases h
      exact Delimiter.visible_byte _
    · cases h

end Item

namespace Decision

variable {c : UInt8}

theorem ofPair_space (hc : Visible c) :
    ofPair c (some space) = if isWord c then .write else .wait := by
  rw [ofPair, if_neg hc.1, if_neg hc.2, ofVisible]
  cases isWord c <;> simp +decide

theorem ofPair_newline (hc : Visible c) :
    ofPair c (some newline) = if isWord c ∨ closesStatement c then .write else .wait := by
  rw [ofPair, if_neg hc.1, if_neg hc.2, ofVisible]
  cases isWord c <;> cases closesStatement c <;> simp +decide

theorem ofPair_visible (hc : Visible c) {ahead : Option UInt8} (ha : ∀ d ∈ ahead, Visible d) :
    ofPair c ahead = .write := by
  have h₁ : ahead ≠ some space := fun h ↦ (ha _ h).1 rfl
  have h₂ : ahead ≠ some newline := fun h ↦ (ha _ h).2 rfl
  rw [ofPair, if_neg hc.1, if_neg hc.2, ofVisible, if_neg (fun h ↦ h₁ h.1), if_neg (fun h ↦ h₂ h.1)]

theorem ofPair_after_newline (hc : Visible c) :
    ofPair newline (some c) = if isWord c ∨ opensStatement c then .write else .erase := by
  have hs : some c ≠ some space := fun h ↦ hc.1 (Option.some.inj h)
  rw [ofPair, if_neg (by decide), if_pos rfl, ofNewline, if_neg hs, Option.any_some, Option.any_some]
  cases isWord c <;> cases opensStatement c <;> rfl

end Decision

namespace Machine

/-- The outcome of looking ahead where the gap behind the last item has been read so far and `out`
is what has been written before that item's last byte. One byte is held back, for the item or for
its gap. -/
def look (out : List UInt8) (last : Option UInt8) (gap : Gap) (text : List Symbol) :
    Except Failure State :=
  if gap.holdsBreak last then lookAhead (some newline) text (out ++ last.toList).toArray
  else if gap = .blank ∧ last.any isWord then lookAhead (some space) text (out ++ last.toList).toArray
  else lookAhead last text out.toArray

theorem start_eq_look (text : List Symbol) : start text = look [] none .none text := rfl

/-- What is held back where a gap has been read so far: a line break, a space, or the last byte of the item
before it. -/
inductive GapRole : Option UInt8 → Gap → Prop
  | lineBreak {last : Option UInt8} {gap : Gap} : gap.holdsBreak last = true → GapRole last gap
  | blank {c : UInt8} : isWord c = true → GapRole (some c) .blank
  | item {c : UInt8} {gap : Gap} : gap.holdsBreak (some c) = false →
      ¬(gap = .blank ∧ isWord c = true) → GapRole (some c) gap

theorem gapRole (last : Option UInt8) (gap : Gap) : GapRole last gap := by
  cases hb : gap.holdsBreak last with
  | true => exact .lineBreak hb
  | false =>
    cases last with
    | none => cases hb
    | some c =>
      by_cases hw : gap = .blank ∧ isWord c = true
      · obtain ⟨rfl, hw⟩ := hw
        exact .blank hw
      · exact .item hb hw

variable {last : Option UInt8} {gap : Gap} {text rest : List Symbol} {c d : UInt8}

theorem look_lineBreak (h : gap.holdsBreak last = true) (out : List UInt8) (text : List Symbol) :
    look out last gap text = lookAhead (some newline) text (out ++ last.toList).toArray := if_pos h

theorem look_blank (h : isWord c = true) (out : List UInt8) (text : List Symbol) :
    look out (some c) .blank text = lookAhead (some space) text (out ++ [c]).toArray := by
  exact (if_neg Bool.false_ne_true).trans (if_pos ⟨rfl, h⟩)

theorem look_item (h : gap.holdsBreak (some c) = false) (h' : ¬(gap = .blank ∧ isWord c = true))
    (out : List UInt8) (text : List Symbol) :
    look out (some c) gap text = lookAhead (some c) text out.toArray := by
  exact (if_neg (by simp [h])).trans (if_neg h')

theorem lookAhead_of_byte {held : UInt8} (h : Uncommented.next text = .byte c rest)
    (hc : ¬(c = slash ∧ opensExpression held)) (out : Array UInt8) :
    lookAhead (some held) text out = .ok ⟨.code (some held) (some c) text, rest, out⟩ := by
  rw [lookAhead, h]
  exact if_neg hc

theorem leads_of_byte {held : UInt8} (h : Uncommented.next text = .byte c rest)
    (hc : ¬(c = slash ∧ opensExpression held)) (out : Array UInt8) :
    Leads (State.LooksFrom text) (lookAhead (some held) text out)
      (match Decision.ofPair held (some c) with
      | .write => moveOn (some c) text rest (out.push held)
      | .erase => moveOn (some c) text rest out
      | .wait => lookAhead (some held) rest out) := by
  rw [lookAhead_of_byte h hc]
  exact .one (looksFrom_code _ _ _ _ _) rfl

theorem leads_space (hl : ∀ c ∈ last, Visible c) (h : Uncommented.next text = .byte space rest)
    (out : List UInt8) :
    Leads (State.LooksFrom text) (look out last gap text) (look out last gap.withBlank rest) := by
  have hns (held : UInt8) : ¬(space = slash ∧ opensExpression held = true) := by
    intro h
    obtain ⟨hs, -⟩ := h
    exact absurd hs (by decide)
  cases gapRole last gap with
  | lineBreak hb =>
    have hb' : gap.withBlank.holdsBreak last = true := by
      cases gap <;> cases last <;> first | rfl | exact hb
    rw [look_lineBreak hb, look_lineBreak hb']
    exact leads_of_byte h (hns _) _
  | @blank c hw =>
    change Leads _ _ (look _ _ .blank _)
    rw [look_blank hw, look_blank hw]
    exact leads_of_byte h (hns _) _
  | @item c gap hb hw =>
    have hstep := leads_of_byte h (hns c) out.toArray
    rw [Decision.ofPair_space (hl c rfl)] at hstep
    rw [look_item hb hw]
    cases hc : isWord c with
    | true =>
      -- a word with neither a blank nor a line break behind it
      have hg : gap = .none := by
        cases gap with
        | none => rfl
        | blank => exact absurd ⟨rfl, hc⟩ hw
        | lineBreak => simp [Gap.holdsBreak, hc] at hb
      subst hg
      change Leads _ _ (look _ _ .blank _)
      rw [look_blank hc]
      rw [if_pos hc, List.push_toArray] at hstep
      exact hstep
    | false =>
      have hb' : gap.withBlank.holdsBreak (some c) = false := by cases gap <;> first | rfl | exact hb
      rw [look_item hb' (by simp [hc])]
      rw [if_neg (by simp [hc])] at hstep
      exact hstep

theorem leads_newline (hl : ∀ c ∈ last, Visible c) (h : Uncommented.next text = .byte newline rest)
    (out : List UInt8) :
    Leads (State.LooksFrom text) (look out last gap text) (look out last .lineBreak rest) := by
  have hns (held : UInt8) : ¬(newline = slash ∧ opensExpression held = true) := by
    intro h
    obtain ⟨hs, -⟩ := h
    exact absurd hs (by decide)
  cases gapRole last gap with
  | lineBreak hb =>
    rw [look_lineBreak hb, look_lineBreak (Gap.holdsBreak_lineBreak hb)]
    exact leads_of_byte h (hns _) _
  | @blank c hw =>
    have hb' : Gap.lineBreak.holdsBreak (some c) = true := by simp [Gap.holdsBreak, hw]
    rw [look_blank hw, look_lineBreak hb']
    exact leads_of_byte h (hns _) _
  | @item c gap hb hw =>
    have hstep := leads_of_byte h (hns c) out.toArray
    rw [Decision.ofPair_newline (hl c rfl)] at hstep
    rw [look_item hb hw]
    by_cases hc : isWord c = true ∨ closesStatement c = true
    · have hb' : Gap.lineBreak.holdsBreak (some c) = true := by simpa [Gap.holdsBreak] using hc
      rw [look_lineBreak hb']
      rw [if_pos hc, List.push_toArray] at hstep
      exact hstep
    · have hb' : Gap.lineBreak.holdsBreak (some c) = false := by simpa [Gap.holdsBreak] using hc
      rw [look_item hb' (by simp)]
      rw [if_neg hc] at hstep
      exact hstep

theorem leads_visible (hl : ∀ c ∈ last, Visible c) (h : Uncommented.next text = .byte d rest)
    (hd : Visible d) (hs : ¬(d = slash ∧ (gap.holdsBreak last || last.any opensExpression)))
    (out : List UInt8) :
    Leads (State.LooksFrom text) (look out last gap text)
      (moveOn (some d) text rest
        (out ++ last.toList ++ Outline.separator last gap (.byte d)).toArray) := by
  cases gapRole last gap with
  | lineBreak hb =>
    have hns : ¬(d = slash ∧ opensExpression newline) := fun h ↦ hs ⟨h.1, by simp [hb]⟩
    have hstep := leads_of_byte h hns (out ++ last.toList).toArray
    rw [Decision.ofPair_after_newline hd] at hstep
    rw [look_lineBreak hb, Outline.separator, if_pos hb, Item.opensStatement]
    by_cases hw : isWord d = true ∨ Byte.opensStatement d = true
    · rw [if_pos (by simpa using hw)]
      rw [if_pos hw, List.push_toArray] at hstep
      exact hstep
    · rw [if_neg (by simpa using hw), List.append_nil]
      rw [if_neg hw] at hstep
      exact hstep
  | @blank c hc =>
    have hns : ¬(d = slash ∧ opensExpression space) := fun h ↦ absurd h.2 (by decide)
    have hstep := leads_of_byte h hns (out ++ [c]).toArray
    rw [look_blank hc, Outline.separator, if_neg (by simp [Gap.holdsBreak])]
    cases hw : isWord d with
    | true =>
      rw [if_pos ⟨rfl, hc, hw⟩]
      simpa [Decision.ofPair, Decision.ofSpace, hw] using hstep
    | false =>
      rw [if_neg (by simp [Item.first, hw])]
      simpa [Decision.ofPair, Decision.ofSpace, hw] using hstep
  | @item c gap hb hw =>
    have hns : ¬(d = slash ∧ opensExpression c) := fun h ↦ hs ⟨h.1, by simp [h.2]⟩
    have hstep := leads_of_byte h hns out.toArray
    have hwrite : Decision.ofPair c (some d) = .write :=
      Decision.ofPair_visible (hl c rfl) (visible_of_mem_some hd)
    rw [look_item hb hw, Outline.separator, if_neg (by simp [hb]), if_neg (fun h ↦ hw ⟨h.1, h.2.1⟩)]
    rw [hwrite, List.push_toArray] at hstep
    rw [List.append_nil]
    exact hstep

theorem look_regex (h : Uncommented.next text = .byte slash rest)
    (hs : (gap.holdsBreak last || last.any opensExpression) = true) (out body : List UInt8) :
    look out last gap text = .ok ⟨.literal .slash text, rest,
      (out ++ last.toList ++ Outline.separator last gap (.literal .slash body) ++ [slash]).toArray⟩ := by
  cases gapRole last gap with
  | lineBreak hb =>
    rw [look_lineBreak hb, lookAhead, h, Outline.separator, if_pos hb]
    simp +decide [Item.opensStatement]
  | @blank c hc =>
    have hc' := isWord_of_opensExpression hs
    rw [hc] at hc'
    cases hc'
  | @item c gap hb hw =>
    have hc : opensExpression c = true := by simpa [hb] using hs
    rw [look_item hb hw, lookAhead, h, Outline.separator, if_neg (by simp [hb]),
      if_neg (fun h ↦ hw ⟨h.1, h.2.1⟩)]
    simp [hc]

theorem look_afterItem (out : List UInt8) (c : UInt8) (text : List Symbol) :
    look out (some c) .none text = lookAhead (some c) text out.toArray :=
  look_item rfl (by simp) out text

theorem leads_opening (hl : ∀ c ∈ last, Visible c) {delimiter : Delimiter}
    (h : Uncommented.next text = .byte d rest) (hd : Visible d)
    (hdel : Item.delimiter? last gap d = some delimiter) (out body : List UInt8) :
    Leads (State.LooksFrom text) (look out last gap text)
      (.ok ⟨.literal delimiter text, rest, (out ++ last.toList ++
        Outline.separator last gap (.literal delimiter body) ++ [delimiter.byte]).toArray⟩) := by
  unfold Item.delimiter? at hdel
  split at hdel
  · rename_i hslash
    subst hslash
    split at hdel
    · rename_i hs
      cases hdel
      rw [look_regex h hs out body]
      exact .refl _
    · cases hdel
  · rename_i hslash
    obtain ⟨hbyte, hne⟩ := Delimiter.byte_of_ofQuote? hdel
    have hsep : Outline.separator last gap (.literal delimiter body) =
        Outline.separator last gap (.byte d) := by
      have hw : isWord d = false ∧ Byte.opensStatement d = false := by
        subst hbyte
        cases delimiter <;> decide
      simp [Outline.separator, Item.opensStatement, Item.first, hne, hbyte, hw]
    have hs : ¬(d = slash ∧ (gap.holdsBreak last || last.any opensExpression) = true) :=
      fun h ↦ hslash h.1
    have hv := leads_visible hl h hd hs out
    rw [moveOn, Option.bind_some, hdel] at hv
    rw [hsep]
    simpa using hv

theorem leads_item (hl : ∀ c ∈ last, Visible c) {σ : Symbol}
    (h : Uncommented.next (σ :: rest) = .byte σ.byte rest) (hσ : Visible σ.byte) (out : List UInt8) :
    Leads (State.LooksFrom (σ :: rest)) (look out last gap (σ :: rest))
      (match Item.read last gap σ rest with
      | .error failure => .error failure
      | .ok (item, rest) =>
        look (out ++ last.toList ++ Outline.separator last gap item ++ item.front)
          (some item.last) .none rest) := by
  rw [Item.read]
  cases hd : Item.delimiter? last gap σ.byte with
  | none =>
    have hs : ¬(σ.byte = slash ∧ (gap.holdsBreak last || last.any opensExpression) = true) := by
      intro h
      obtain ⟨hs, hs'⟩ := h
      simp only [Item.delimiter?, hs, hs', if_true] at hd
      cases hd
    have hq : Delimiter.ofQuote? σ.byte = none := by
      unfold Item.delimiter? at hd
      split at hd
      · rename_i hs
        rw [hs]
        rfl
      · exact hd
    have hv := leads_visible hl h hσ hs out
    rw [moveOn, Option.bind_some, hq] at hv
    simpa [look_afterItem, Item.front, Item.last] using hv
  | some delimiter =>
    have hopen := leads_opening hl h hσ hd out
    have hcopy (out : Array UInt8) := leads_literal (σ :: rest) delimiter (σ :: rest) rest out
    cases hb : Item.readBody? delimiter rest with
    | none =>
      simp only [hb] at hcopy ⊢
      exact (hopen []).trans (hcopy _)
    | some found =>
      obtain ⟨body, rest'⟩ := found
      simp only [hb] at hcopy ⊢
      simpa [look_afterItem, Item.front, Item.last] using (hopen body).trans (hcopy _)

theorem leads_finished (hl : ∀ c ∈ last, Visible c) (h : Uncommented.next text = .finished)
    (out : List UInt8) :
    Leads (State.LooksFrom text) (look out last gap text)
      (.ok ⟨.code none none [], [], (out ++ last.toList).toArray⟩) := by
  have hahead (held : UInt8) (out : Array UInt8) :
      lookAhead (some held) text out = .ok ⟨.code (some held) none text, [], out⟩ := by
    rw [lookAhead, h]
  cases gapRole last gap with
  | lineBreak hb =>
    rw [look_lineBreak hb, hahead]
    exact .one (looksFrom_code _ _ _ _ _) rfl
  | @blank c hc =>
    rw [look_blank hc, hahead]
    exact .one (looksFrom_code _ _ _ _ _) rfl
  | @item c gap hb hw =>
    have hwrite : Decision.ofPair c none = .write :=
      Decision.ofPair_visible (hl c rfl) visible_of_mem_none
    rw [look_item hb hw, hahead]
    refine .step (looksFrom_code _ _ _ _ _) rfl ?_
    simp only [State.step, hwrite, List.push_toArray]
    exact .refl _

theorem look_unclosedComment (h : Uncommented.next text = .unclosedComment) (out : List UInt8) :
    look out last gap text = .error ⟨.comment, text⟩ := by
  have hahead (held : Option UInt8) (out : Array UInt8) :
      lookAhead held text out = .error ⟨.comment, text⟩ := by
    rw [lookAhead, h]
  simp only [look, hahead, ite_self]

/-- From any point of a reading on, the machine and the outline give the same result. -/
theorem conclude_look (hl : ∀ c ∈ last, Visible c) (out : List UInt8) (text : List Symbol) :
    conclude (look out last gap text) =
      (Outline.resume last gap text).map fun outline ↦ out ++ last.toList ++ outline.render last := by
  induction text using Uncommented.reading_induction generalizing out last gap with
  | finished text h =>
    rw [(leads_finished hl h out).conclude_eq, conclude_finished rfl, Outline.resume_of_finished h]
    simp [Except.map, Outline.render]
  | unclosed text h =>
    rw [look_unclosedComment h, Outline.resume_of_unclosedComment h]
    rfl
  | space text rest h ih =>
    rw [(leads_space hl h out).conclude_eq, Outline.resume_of_space h]
    exact ih hl out
  | newline text rest h ih =>
    rw [(leads_newline hl h out).conclude_eq, Outline.resume_of_newline h]
    exact ih hl out
  | visible σ rest h hσ ih =>
    rw [(leads_item hl h hσ out).conclude_eq, Outline.resume_of_visible h hσ]
    cases hi : Item.read last gap σ rest with
    | error failure => rfl
    | ok found =>
      obtain ⟨item, rest'⟩ := found
      have hitem := visible_of_mem_some (Item.visible_last_of_read hσ hi)
      dsimp only
      rw [ih rest' (Item.length_read hi) hitem]
      cases Outline.resume (some item.last) .none rest' with
      | error failure => rfl
      | ok outline => simp [Except.map, Outline.render, ← Item.front_append_last]

theorem run_eq_render (text : List Symbol) :
    run text = (Outline.ofText none text).map (Outline.render none) := by
  have h := @conclude_look none .none visible_of_mem_none [] text
  rw [Outline.ofText_eq_resume]
  exact h

end Machine

theorem minify_eq_ok_iff_run {source y : List UInt8} :
    minify source = .ok y ↔ Machine.run (Symbol.ofText source) = .ok y := by
  rw [minify]
  cases Machine.run (Symbol.ofText source) with
  | error failure =>
    constructor
    · intro h
      cases h
    · intro h
      cases h
  | ok out =>
    constructor
    · intro h
      cases h
      rfl
    · intro h
      cases h
      rfl

/-- Minifying is done in phases: the source is rewritten as a whole, the result is cut into gaps and
items, and the items are written in order with the separators that their gaps call for. -/
theorem minify_eq_ok_iff_render (source y : List UInt8) :
    minify source = .ok y ↔
      ∃ outline, Outline.ofText none (Symbol.ofRewritten source) = .ok outline ∧
        outline.render none = y := by
  rw [minify_eq_ok_iff_run, Machine.run_eq_render, ← Symbol.ofText_eq_ofRewritten]
  cases Outline.ofText none (Symbol.ofText source) with
  | error failure => simp [Except.map]
  | ok outline => simp [Except.map]

end ScriptMinifier
