import ScriptMinifier.Proofs.Idempotence

namespace ScriptMinifier

open Byte Uncommented

namespace Machine

/-- At this point a comment is being read: the byte ahead was found behind one, or the text ended
in one. -/
def ReadsComment : Except Failure State → Prop
  | .ok s => ∃ text ∈ s.aheadText?, OpensComment text
  | .error failure => failure.construct = .comment

/-- The run that stands at the outcome reads a comment sooner or later. -/
def MeetsComment (outcome : Except Failure State) : Prop :=
  ∃ outcome', Leads (fun _ ↦ True) outcome outcome' ∧ ReadsComment outcome'

variable {outcome outcome' : Except Failure State} {s : State} {text : List Symbol}

theorem meetsComment_ok :
    MeetsComment (.ok s) ↔ ReadsComment (.ok s) ∨ s.finished = false ∧ MeetsComment s.step := by
  constructor
  · intro h
    obtain ⟨outcome, hl, hr⟩ := h
    cases hl with
    | refl => exact .inl hr
    | step _ hs hl => exact .inr ⟨hs, outcome, hl, hr⟩
  · intro h
    rcases h with hr | ⟨hs, outcome, hl, hr⟩
    · exact ⟨.ok s, .refl _, hr⟩
    · exact ⟨outcome, .step trivial hs hl, hr⟩

theorem meetsComment_of_readsComment (h : ReadsComment outcome) : MeetsComment outcome :=
  ⟨outcome, .refl _, h⟩

theorem Leads.meetsComment_iff (h : Leads (fun s ↦ ¬ReadsComment (.ok s)) outcome outcome') :
    MeetsComment outcome ↔ MeetsComment outcome' := by
  induction h with
  | refl => exact Iff.rfl
  | step hP hs _ ih => rw [meetsComment_ok, or_iff_right hP, and_iff_right hs, ih]

theorem Leads.meetsComment_iff_of_looksFrom (hc : ¬OpensComment text)
    (h : Leads (State.LooksFrom text) outcome outcome') :
    MeetsComment outcome ↔ MeetsComment outcome' := by
  refine (h.mono ?_).meetsComment_iff
  rintro s hs ⟨text', ht, hc'⟩
  exact hc (hs text' ht ▸ hc')

theorem readsComment_lookAhead (hc : OpensComment text) (held : Option UInt8) (out : Array UInt8) :
    ReadsComment (lookAhead held text out) := by
  rw [lookAhead]
  cases hn : next text with
  | unclosedComment => rfl
  | finished => exact ⟨text, rfl, hc⟩
  | byte c rest =>
    have hs : c ≠ slash := by
      rcases (next_of_opensComment hc hn).1 with rfl | rfl <;> decide
    cases held with
    | none => exact ⟨text, rfl, hc⟩
    | some b =>
      simp only [hs, false_and, if_false]
      exact ⟨text, rfl, hc⟩

theorem readsComment_look (hc : OpensComment text) (out : List UInt8) (last : Option UInt8)
    (gap : Gap) : ReadsComment (look out last gap text) := by
  unfold look
  split
  · exact readsComment_lookAhead hc _ _
  · split <;> exact readsComment_lookAhead hc _ _

end Machine

namespace Outline

open Machine

variable {last : Option UInt8} {gap : Gap} {sep place : List Symbol} {outline : Outline}

theorem meetsComment_separator (hl : ∀ c ∈ last, Visible c) (h : sep.map Symbol.byte = gap.bytes)
    (out : List UInt8) (place : List Symbol) :
    MeetsComment (look out last .none (sep ++ place)) ↔ MeetsComment (look out last gap place) := by
  cases gap with
  | none =>
    obtain rfl := List.map_eq_nil_iff.mp h
    rfl
  | blank =>
    obtain ⟨σ, sep', rfl, hσ, hsep⟩ := List.map_eq_cons_iff.mp h
    obtain rfl := List.map_eq_nil_iff.mp hsep
    have hs : σ.byte ≠ slash := by rw [hσ]; decide
    have hn : next (σ :: place) = .byte space place := by rw [next_of_ne_slash hs, hσ]
    exact (leads_space hl hn out).meetsComment_iff_of_looksFrom fun hc ↦ hs (byte_of_opensComment hc)
  | lineBreak =>
    obtain ⟨σ, sep', rfl, hσ, hsep⟩ := List.map_eq_cons_iff.mp h
    obtain rfl := List.map_eq_nil_iff.mp hsep
    have hs : σ.byte ≠ slash := by rw [hσ]; decide
    have hn : next (σ :: place) = .byte newline place := by rw [next_of_ne_slash hs, hσ]
    exact (leads_newline hl hn out).meetsComment_iff_of_looksFrom fun hc ↦ hs (byte_of_opensComment hc)

theorem meetsComment_written {item : Item} {inner rest : List Symbol} (hl : ∀ c ∈ last, Visible c)
    (hf : item.Fits last gap) (hsep : sep.map Symbol.byte = separator last gap item)
    (hb : inner.map Symbol.byte = item.bytes)
    (hrest : item = .byte slash → ∀ τ ∈ rest.head?, Item.joinsSlash τ.byte = false)
    (out : List UInt8) :
    ∃ out', MeetsComment (look out last .none (sep ++ (inner ++ rest))) ↔
      MeetsComment (look out' (some item.last) .none rest) := by
  rw [← Gap.bytes_settle] at hsep
  have hc := hf.not_opensComment hb hrest
  obtain ⟨σ, inner', rfl, hσ, hi⟩ := Item.read_of_fits hf.settle hb rest
  have hvis : Visible σ.byte := hσ ▸ hf.visible_first
  have hitem := @leads_item last (gap.settle last item) (inner' ++ rest) hl σ
    (next_of_not_opensComment hc) hvis out
  simp only [hi] at hitem
  have hiff := hitem.meetsComment_iff_of_looksFrom hc
  rw [← meetsComment_separator hl hsep] at hiff
  exact ⟨_, hiff⟩

theorem WellCut.meetsComment_iff {text : List Symbol} (hw : WellCut last outline)
    (hl : ∀ c ∈ last, Visible c) (ht : text.map Symbol.byte = outline.render last)
    (out : List UInt8) :
    MeetsComment (look out last .none text) ↔ outline.fusesSlash = true := by
  induction hw generalizing text out with
  | @nil last =>
    obtain rfl := List.map_eq_nil_iff.mp ht
    have hend := @leads_finished last .none [] hl rfl out
    rw [hend.meetsComment_iff_of_looksFrom id]
    refine iff_of_false ?_ Bool.noConfusion
    intro h
    obtain ⟨_, hl', hr⟩ := h
    cases hl' with
    | refl =>
      obtain ⟨_, ⟨⟩, hr⟩ := hr
      exact hr
    | step _ hs _ => cases hs
  | @cons last gap item outline hfit _ _ ih =>
    rcases written_cases hfit ht with
      ⟨hfuse, -, hc⟩ | ⟨hfuse, sep, inner, rest, rfl, hsep, hb, hrest, hhead⟩
    · exact iff_of_true (meetsComment_of_readsComment (readsComment_look hc _ _ _)) hfuse
    · have hlast := visible_of_mem_some hfit.visible_last
      obtain ⟨out', hiff⟩ := meetsComment_written hl hfit hsep hb hhead out
      rw [hiff, hfuse, ih hlast hrest]

theorem WellCut.meetsComment_start_iff (hw : WellCut none outline) :
    MeetsComment (start (Symbol.ofText (outline.render none))) ↔ outline.fusesSlash = true := by
  rw [start_eq_look]
  exact hw.meetsComment_iff visible_of_mem_none hw.map_byte_ofText []

theorem WellCut.meetsComment_start_iff_minify_ne (hw : WellCut none outline) :
    MeetsComment (start (Symbol.ofText (outline.render none))) ↔
      minify (outline.render none) ≠ .ok (outline.render none) := by
  rw [hw.meetsComment_start_iff, Ne, minify_render_iff hw, Bool.not_eq_false]

end Outline

/-- A second pass reads a comment exactly if the first one has written a slash of code directly
before a slash or an asterisk. -/
theorem minify_meetsComment_iff {source y : List UInt8} (h : minify source = .ok y) :
    ∃ outline, Outline.ofText none (Symbol.ofRewritten source) = .ok outline ∧
      outline.render none = y ∧
      (Machine.MeetsComment (Machine.start (Symbol.ofText y)) ↔ outline.fusesSlash = true) := by
  obtain ⟨outline, ho, hw, rfl⟩ := exists_outline h
  rw [Symbol.ofText_eq_ofRewritten] at ho
  exact ⟨outline, ho, rfl, hw.meetsComment_start_iff⟩

theorem minify_meetsComment_iff_regex_divided :
    minify (Utf8.encode "x = /a b/ / 2") = .ok (Utf8.encode "\nx=/a b//2") ∧
      ∃ outline, Outline.ofText none (Symbol.ofRewritten (Utf8.encode "x = /a b/ / 2")) = .ok outline ∧
        outline.render none = Utf8.encode "\nx=/a b//2" ∧
        (Machine.MeetsComment (Machine.start (Symbol.ofText (Utf8.encode "\nx=/a b//2"))) ↔
          outline.fusesSlash = true) := by
  have h : minify (Utf8.encode "x = /a b/ / 2") = .ok (Utf8.encode "\nx=/a b//2") := by cbv
  exact ⟨h, minify_meetsComment_iff h⟩

theorem minify_meetsComment_regex_divisor :
    minify (Utf8.encode "x = a / /b/;y()") = .ok (Utf8.encode "\nx=a//b/;y()") ∧
      Machine.MeetsComment (Machine.start (Symbol.ofText (Utf8.encode "\nx=a//b/;y()"))) := by
  have h : minify (Utf8.encode "x = a / /b/;y()") = .ok (Utf8.encode "\nx=a//b/;y()") := by cbv
  have hagain : minify (Utf8.encode "\nx=a//b/;y()") = .ok (Utf8.encode "\nx=a") := by cbv
  refine ⟨h, ?_⟩
  obtain ⟨outline, -, hw, hy⟩ := exists_outline h
  have hne := hw.meetsComment_start_iff_minify_ne
  rw [hy, hagain] at hne
  refine hne.mpr fun he ↦ ?_
  have hlen := congrArg List.length (Except.ok.inj he)
  revert hlen
  decide

end ScriptMinifier
