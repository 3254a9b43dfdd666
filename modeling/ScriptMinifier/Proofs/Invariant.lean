import Mathlib
import ScriptMinifier.Proofs.Positions

namespace ScriptMinifier

open Byte

namespace Cursor

variable {source : List UInt8} {place copied rest : List Symbol} {σ : Symbol}

theorem getElem?_offset (h : σ :: rest <:+ Symbol.ofText source) (hσ : Visible σ.byte) :
    source[offset ⟨source, σ :: rest⟩]? = some σ.byte := by
  obtain ⟨before, hbefore⟩ := h
  obtain ⟨front, back, rfl, -, hback⟩ := Symbol.exists_append_of_ofText hbefore.symm
  obtain ⟨back, rfl, -⟩ := Symbol.eq_cons_of_ofText hback hσ
  rw [← hback, offset_of_append]
  simp only [List.getElem?_append_right le_rfl, Nat.sub_self, List.getElem?_cons_zero]

theorem offset_of_visible (h : σ :: rest <:+ Symbol.ofText source) (hσ : Visible σ.byte) :
    offset ⟨source, rest⟩ = offset ⟨source, σ :: rest⟩ + 1 := by
  obtain ⟨before, hbefore⟩ := h
  obtain ⟨front, back, rfl, -, hback⟩ := Symbol.exists_append_of_ofText hbefore.symm
  obtain ⟨back, rfl, hrest⟩ := Symbol.eq_cons_of_ofText hback hσ
  have hoffset := offset_of_append (front ++ [σ.byte]) back
  rw [List.append_assoc, List.singleton_append, List.length_append, hrest] at hoffset
  rw [← hback, offset_of_append, hoffset, List.length_singleton]

theorem normalized_between (h : copied ++ rest <:+ Symbol.ofText source) :
    Symbol.normalized ((source.take (offset ⟨source, rest⟩)).drop (offset ⟨source, copied ++ rest⟩)) =
        copied.map Symbol.byte ∧
      offset ⟨source, rest⟩ = offset ⟨source, copied ++ rest⟩ + Symbol.totalWidth copied := by
  obtain ⟨before, hbefore⟩ := h
  obtain ⟨front, back, rfl, -, hback⟩ := Symbol.exists_append_of_ofText hbefore.symm
  obtain ⟨middle, back, rfl, hmiddle, hrest⟩ := Symbol.exists_append_of_ofText hback
  have hstart : offset ⟨front ++ (middle ++ back), copied ++ rest⟩ = front.length := by
    rw [← hback, offset_of_append]
  have hend : offset ⟨front ++ (middle ++ back), rest⟩ = front.length + middle.length := by
    rw [← hrest, ← List.append_assoc, offset_of_append, List.length_append]
  constructor
  · rw [hstart, hend, ← List.append_assoc, ← List.length_append, List.take_left, List.drop_left,
      Symbol.normalized, hmiddle]
  · rw [hstart, hend, ← hmiddle, Symbol.totalWidth_ofText]

end Cursor

namespace Decision

variable {held : UInt8}

theorem visible_of_write {d : UInt8} (hd : d = space ∨ d = newline)
    (h : ofPair held (some d) = .write) : Visible held := by
  constructor
  · rintro rfl
    rcases hd with rfl | rfl <;> cases h
  · rintro rfl
    rcases hd with rfl | rfl <;> cases h

theorem isWord_of_write_space (h : ofPair held (some space) = .write) : isWord held = true := by
  rw [ofPair_space (visible_of_write (.inl rfl) h)] at h
  by_contra hw
  simp [hw] at h

theorem closes_of_write_newline (h : ofPair held (some newline) = .write) :
    isWord held = true ∨ closesStatement held = true := by
  rw [ofPair_newline (visible_of_write (.inr rfl) h)] at h
  by_contra hw
  simp [hw] at h

theorem layout_of_erase {ahead : Option UInt8} (h : ofPair held ahead = .erase) :
    held = space ∨ held = newline ∧ ahead ≠ some space := by
  unfold ofPair ofNewline ofVisible at h
  grind

end Decision

namespace Machine

variable {text place rest : List Symbol} {held ahead : Option UInt8} {out : Array UInt8} {s t : State}

/-- What every step keeps is kept by a run. -/
theorem Leads.keeps {P I : State → Prop} {outcome : Except Failure State}
    (hstep : ∀ s t, I s → s.step = .ok t → I t) (h : Leads P outcome (.ok t))
    (hstart : ∀ s, outcome = .ok s → I s) : I t := by
  generalize hend : (.ok t : Except Failure State) = outcome' at h
  induction h with
  | refl => exact hstart t hend.symm
  | @step s outcome _ _ _ ih =>
    apply ih _ hend
    intro u hu
    exact hstep s u (hstart s rfl) hu

theorem lookAhead_cases (h : lookAhead held text out = .ok s) :
    (Uncommented.next text = .finished ∧ s = ⟨.code held none text, [], out⟩) ∨
    (∃ c rest, Uncommented.next text = .byte c rest ∧ s = ⟨.code held (some c) text, rest, out⟩) ∨
    ∃ b rest, held = some b ∧ opensExpression b = true ∧ Uncommented.next text = .byte slash rest ∧
      s = ⟨.literal .slash text, rest, (out.push b).push slash⟩ := by
  unfold lookAhead at h
  split at h
  · cases h
  · rename_i hn
    cases h
    exact .inl ⟨hn, rfl⟩
  · rename_i c rest hn
    split at h
    · rename_i b
      split at h
      · rename_i hc
        obtain ⟨rfl, hb⟩ := hc
        cases h
        exact .inr (.inr ⟨b, rest, rfl, hb, hn, rfl⟩)
      · cases h
        exact .inr (.inl ⟨c, rest, hn, rfl⟩)
    · cases h
      exact .inr (.inl ⟨c, rest, hn, rfl⟩)

theorem moveOn_cases (h : moveOn ahead place rest out = .ok s) :
    (∃ quote c, ahead = some c ∧ Delimiter.ofQuote? c = some quote ∧
      s = ⟨.literal quote place, rest, out.push quote.byte⟩) ∨
    lookAhead ahead rest out = .ok s := by
  unfold moveOn at h
  split at h
  · rename_i quote hq
    obtain ⟨c, rfl, hc⟩ := Option.bind_eq_some_iff.mp hq
    cases h
    exact .inl ⟨quote, c, rfl, hc, rfl⟩
  · exact .inr h

theorem copyLiteral_cases {delimiter : Delimiter} {opening : List Symbol}
    (h : copyLiteral delimiter opening rest out = .ok s) :
    (∃ copied, rest = copied ++ s.rest ∧ s.phase = .literal delimiter opening ∧
      s.out.toList = out.toList ++ copied.map Symbol.byte) ∨
    ∃ σ rest', rest = σ :: rest' ∧ lookAhead (some delimiter.byte) rest' out = .ok s := by
  cases rest with
  | nil => cases h
  | cons σ rest =>
    by_cases hn : σ.byte = newline
    · rw [copyLiteral_newline hn] at h
      cases h
    · by_cases hd : σ.byte = delimiter.byte
      · rw [copyLiteral_closing hn hd] at h
        exact .inr ⟨σ, rest, rfl, h⟩
      · by_cases hb : σ.byte = backslash
        · rw [copyLiteral_escape hn hd hb] at h
          cases rest with
          | nil => cases h
          | cons τ rest =>
            cases h
            exact .inl ⟨[σ, τ], rfl, rfl, by simp [hb]⟩
        · rw [copyLiteral_content hn hd hb] at h
          cases h
          exact .inl ⟨[σ], rfl, rfl, by simp⟩

/-- What may be held back before a place: nothing at the end of the text only, a space behind a word,
and a line break at the start of the output or behind what may end a statement. -/
structure FollowsOutput (held : Option UInt8) (out : Array UInt8) (place : List Symbol) : Prop where
  ended : held = none → place = []
  space : held = some space → ∃ c ∈ out.back?, isWord c = true
  lineBreak : held = some newline → ∀ c ∈ out.back?, isWord c = true ∨ closesStatement c = true

theorem followsOutput_visible {c : UInt8} (hc : Visible c) (out : Array UInt8) (place : List Symbol) :
    FollowsOutput (some c) out place where
  ended h := nomatch h
  space h := absurd (Option.some.inj h) hc.1
  lineBreak h := absurd (Option.some.inj h) hc.2

inductive Finds (place : List Symbol) : Option UInt8 → List Symbol → Prop
  | byte {c : UInt8} {rest : List Symbol} :
      Uncommented.next place = .byte c rest → Finds place (some c) rest
  | finished : Uncommented.next place = .finished → Finds place none []

theorem Finds.ended (h : Finds place ahead rest) (ha : ahead = none) : rest = [] := by
  cases h with
  | byte => cases ha
  | finished => rfl

theorem Finds.suffix (h : Finds place ahead rest) : rest <:+ place := by
  cases h with
  | byte h => exact Uncommented.suffix_of_next h
  | finished => exact List.nil_suffix

section Decisions

variable {b : UInt8}

theorem FollowsOutput.wait (h : FollowsOutput (some b) out place) (rest : List Symbol) :
    FollowsOutput (some b) out rest where
  ended hb := nomatch hb
  space := h.space
  lineBreak := h.lineBreak

theorem Finds.followsOutput_write (h : Finds place ahead rest) (hd : Decision.ofPair b ahead = .write)
    (out : Array UInt8) : FollowsOutput ahead (out.push b) rest where
  ended := h.ended
  space ha := by
    subst ha
    exact ⟨b, Array.back?_push .., Decision.isWord_of_write_space hd⟩
  lineBreak ha := by
    subst ha
    intro c hc
    rw [Array.back?_push] at hc
    cases hc
    exact Decision.closes_of_write_newline hd

theorem FollowsOutput.erase (hb : FollowsOutput (some b) out place) (h : Finds place ahead rest)
    (hd : Decision.ofPair b ahead = .erase) : FollowsOutput ahead out rest where
  ended := h.ended
  space ha := by
    rcases Decision.layout_of_erase hd with rfl | ⟨-, hne⟩
    · exact hb.space rfl
    · exact absurd ha hne
  lineBreak ha := by
    intro c hc
    rcases Decision.layout_of_erase hd with rfl | ⟨rfl, -⟩
    · obtain ⟨c', hc', hw⟩ := hb.space rfl
      cases hc.symm.trans hc'
      exact .inl hw
    · exact hb.lineBreak rfl c hc

end Decisions

/-- The text from `opening` up to `rest` is a literal under way, and the output ends with it. A regular
expression has a byte before it behind which an expression may begin. -/
structure Copies (delimiter : Delimiter) (opening rest : List Symbol) (out : Array UInt8)
    (front : List UInt8) (copied : List Symbol) : Prop where
  text : opening = copied ++ rest
  written : out.toList = front ++ copied.map Symbol.byte
  opens : ∃ σ ∈ copied.head?, σ.byte = delimiter.byte
  behind : delimiter = .slash → ∃ b ∈ front.getLast?, opensExpression b = true

inductive State.Sound (text : List Symbol) : State → Prop
  | code {held ahead : Option UInt8} {place rest : List Symbol} {out : Array UInt8} :
      place <:+ text → FollowsOutput held out place → Finds place ahead rest →
      Sound text ⟨.code held ahead place, rest, out⟩
  | literal {delimiter : Delimiter} {opening rest : List Symbol} {out : Array UInt8}
      {front : List UInt8} {copied : List Symbol} :
      opening <:+ text → Copies delimiter opening rest out front copied →
      Sound text ⟨.literal delimiter opening, rest, out⟩

theorem sound_lookAhead (hp : place <:+ text) (hh : FollowsOutput held out place)
    (h : lookAhead held place out = .ok s) : s.Sound text := by
  rcases lookAhead_cases h with ⟨hn, rfl⟩ | ⟨c, rest, hn, rfl⟩ | ⟨b, rest, rfl, hb, hn, rfl⟩
  · exact .code hp hh (.finished hn)
  · exact .code hp hh (.byte hn)
  · obtain ⟨σ, rfl, hσ⟩ := Uncommented.eq_cons_of_next hn (by decide)
    have hc : Copies .slash (σ :: rest) rest ((out.push b).push slash) (out.toList ++ [b]) [σ] := {
      text := rfl
      written := by simp [hσ]
      opens := ⟨σ, rfl, hσ⟩
      behind := fun _ ↦ ⟨b, by simp, hb⟩ }
    exact .literal hp hc

theorem sound_moveOn (hp : place <:+ text) (hf : Finds place ahead rest)
    (hh : FollowsOutput ahead out rest) (h : moveOn ahead place rest out = .ok s) : s.Sound text := by
  rcases moveOn_cases h with ⟨quote, c, rfl, hq, rfl⟩ | h
  · obtain ⟨hbyte, hne⟩ := Delimiter.byte_of_ofQuote? hq
    subst hbyte
    cases hf with
    | byte hn =>
      obtain ⟨σ, rfl, hσ⟩ := Uncommented.eq_cons_of_next hn (Delimiter.visible_byte quote)
      have hc : Copies quote (σ :: rest) rest (out.push quote.byte) out.toList [σ] := {
        text := rfl
        written := by simp [hσ]
        opens := ⟨σ, rfl, hσ⟩
        behind := fun hs ↦ absurd hs hne }
      exact .literal hp hc
  · exact sound_lookAhead (hf.suffix.trans hp) hh h

theorem sound_copyLiteral {delimiter : Delimiter} {opening : List Symbol} {front : List UInt8}
    {copied : List Symbol} (hp : opening <:+ text) (hc : Copies delimiter opening rest out front copied)
    (h : copyLiteral delimiter opening rest out = .ok s) : s.Sound text := by
  rcases copyLiteral_cases h with ⟨more, rfl, hphase, hout⟩ | ⟨σ, rest', rfl, hahead⟩
  · obtain ⟨phase, rest', out'⟩ := s
    cases hphase
    have hmore : Copies delimiter opening rest' out' front (copied ++ more) := {
      text := by rw [hc.text, List.append_assoc]
      written := by rw [hout, hc.written, List.append_assoc, List.map_append]
      opens := by
        obtain ⟨σ, hσ, hbyte⟩ := hc.opens
        refine ⟨σ, ?_, hbyte⟩
        rw [Option.mem_def] at hσ ⊢
        rw [List.head?_append, hσ, Option.some_or]
      behind := hc.behind }
    exact .literal hp hmore
  · -- the closing delimiter is held back like a byte of code
    have hrest : rest' <:+ text := by
      rw [hc.text] at hp
      exact ((List.suffix_cons σ rest').trans (List.suffix_append copied _)).trans hp
    exact sound_lookAhead hrest (followsOutput_visible (Delimiter.visible_byte delimiter) out rest') hahead

theorem State.Sound.step (hs : s.Sound text) (h : s.step = .ok t) : t.Sound text := by
  cases hs with
  | @code held ahead place rest out hp hh hf =>
    cases held with
    | none =>
      cases h
      exact .code hp hh hf
    | some b =>
      simp only [State.step] at h
      split at h
      · rename_i hd
        exact sound_moveOn hp hf (hf.followsOutput_write hd out) h
      · rename_i hd
        exact sound_moveOn hp hf (hh.erase hf hd) h
      · exact sound_lookAhead (hf.suffix.trans hp) (hh.wait rest) h
  | literal hp hc => exact sound_copyLiteral hp hc h

theorem sound_start (h : start text = .ok s) : s.Sound text := by
  have hh : FollowsOutput (some newline) #[] text := {
    ended := fun h ↦ nomatch h
    space := fun h ↦ nomatch h
    lineBreak := fun _ c hc ↦ nomatch hc }
  exact sound_lookAhead List.suffix_rfl hh h

section Closing

variable {delimiter : Delimiter} {opening : List Symbol}

/-- The byte is held back, and `out` is what has been written before it. -/
def State.Unwritten (c : UInt8) (out : Array UInt8) (s : State) : Prop :=
  ∃ ahead place, s.phase = .code (some c) ahead place ∧ s.out = out

theorem unwritten_lookAhead (h : lookAhead (some delimiter.byte) text out = .ok s) :
    s.Unwritten delimiter.byte out := by
  rcases lookAhead_cases h with ⟨-, rfl⟩ | ⟨c, rest, -, rfl⟩ | ⟨b, rest, hb, hopens, -, -⟩
  · exact ⟨none, text, rfl, rfl⟩
  · exact ⟨some c, text, rfl, rfl⟩
  · cases hb
    cases delimiter <;> cases hopens

theorem step_literal (hs : s.phase = .literal delimiter opening) (h : s.step = .ok t) :
    t.phase = .literal delimiter opening ∨ t.Unwritten delimiter.byte s.out := by
  simp only [State.step, hs] at h
  rcases copyLiteral_cases h with ⟨_, -, hphase, -⟩ | ⟨σ, rest, -, hahead⟩
  · exact .inl hphase
  · exact .inr (unwritten_lookAhead hahead)

theorem step_of_unwritten (hs : s.Unwritten delimiter.byte out) (h : s.step = .ok t) :
    t.Unwritten delimiter.byte out ∨ ∃ ahead place, s.phase = .code (some delimiter.byte) ahead place ∧
      moveOn ahead place s.rest (out.push delimiter.byte) = .ok t := by
  obtain ⟨ahead, place, hphase, rfl⟩ := hs
  simp only [State.step, hphase] at h
  split at h
  · exact .inr ⟨ahead, place, hphase, h⟩
  · rename_i hd
    have hv := Delimiter.visible_byte delimiter
    rcases Decision.layout_of_erase hd with hl | ⟨hl, -⟩
    · exact absurd hl hv.1
    · exact absurd hl hv.2
  · exact .inl (unwritten_lookAhead h)

theorem out_lookAhead (h : lookAhead held text out = .ok s) : out.toList <+: s.out.toList := by
  rcases lookAhead_cases h with ⟨-, rfl⟩ | ⟨c, rest, -, rfl⟩ | ⟨b, rest, -, -, -, rfl⟩
  · exact List.prefix_rfl
  · exact List.prefix_rfl
  · exact ⟨[b, slash], by simp⟩

theorem out_moveOn (h : moveOn ahead place rest out = .ok s) : out.toList <+: s.out.toList := by
  rcases moveOn_cases h with ⟨quote, c, -, -, rfl⟩ | h
  · exact ⟨[quote.byte], by simp⟩
  · exact out_lookAhead h

theorem out_step (h : s.step = .ok t) : s.out.toList <+: t.out.toList := by
  obtain ⟨phase, rest, out⟩ := s
  match phase with
  | .code none _ _ =>
    cases h
    exact List.prefix_rfl
  | .code (some b) ahead place =>
    simp only [State.step] at h
    split at h
    · have hpush : out.toList <+: (out.push b).toList := ⟨[b], by simp⟩
      exact hpush.trans (out_moveOn h)
    · exact out_moveOn h
    · exact out_lookAhead h
  | .literal delimiter opening =>
    rcases copyLiteral_cases h with ⟨copied, -, -, hout⟩ | ⟨σ, rest', -, hahead⟩
    · exact ⟨copied.map Symbol.byte, hout.symm⟩
    · exact out_lookAhead hahead

theorem Leads.unwritten_or_written {P : State → Prop} (h : Leads P (.ok s) (.ok t))
    (hs : s.Unwritten delimiter.byte out) :
    t.Unwritten delimiter.byte out ∨ (out.push delimiter.byte).toList <+: t.out.toList := by
  refine Leads.keeps (I := fun t ↦ t.Unwritten delimiter.byte out ∨
    (out.push delimiter.byte).toList <+: t.out.toList) (fun s t hs hst ↦ ?_) h fun s' hs' ↦ ?_
  · rcases hs with hs | hs
    · rcases step_of_unwritten hs hst with ht | ⟨_, _, -, hmove⟩
      · exact .inl ht
      · exact .inr (out_moveOn hmove)
    · exact .inr (hs.trans (out_step hst))
  · cases hs'
    exact .inl hs

end Closing

def Reaches (source : List UInt8) (s : State) : Prop :=
  Leads (fun _ ↦ True) (start (Symbol.ofText source)) (.ok s)

theorem Reaches.sound {source : List UInt8} (h : Reaches source s) : s.Sound (Symbol.ofText source) :=
  Leads.keeps (fun _ _ hs ↦ hs.step) h fun _ ↦ sound_start

section Places

variable {source front : List UInt8} {copied opening : List Symbol} {delimiter : Delimiter} {c : UInt8}

theorem State.Sound.of_code (hs : s.Sound text) (h : s.phase = .code held ahead place) :
    place <:+ text ∧ FollowsOutput held s.out place ∧ Finds place ahead s.rest := by
  cases hs with
  | code hp hh hf =>
    cases h
    exact ⟨hp, hh, hf⟩
  | literal => cases h

theorem State.Sound.of_literal (hs : s.Sound text) (h : s.phase = .literal delimiter opening) :
    opening <:+ text ∧ ∃ front copied, Copies delimiter opening s.rest s.out front copied := by
  cases hs with
  | code => cases h
  | literal hp hc =>
    cases h
    exact ⟨hp, _, _, hc⟩

theorem Finds.of_nil (h : Finds [] ahead rest) : ahead = none ∧ rest = [] := by
  cases h with
  | byte h => cases h
  | finished => exact ⟨rfl, rfl⟩

theorem Finds.getElem?_offset (h : Finds place (some c) rest) (hp : place <:+ Symbol.ofText source)
    (hc : Visible c) :
    source[Cursor.offset ⟨source, place⟩]? = some c ∧
      Cursor.offset ⟨source, rest⟩ = Cursor.offset ⟨source, place⟩ + 1 := by
  cases h with
  | byte hn =>
    obtain ⟨σ, rfl, rfl⟩ := Uncommented.eq_cons_of_next hn hc
    exact ⟨Cursor.getElem?_offset hp hc, Cursor.offset_of_visible hp hc⟩

theorem Copies.exists_cons (h : Copies delimiter opening rest out front copied) :
    ∃ σ body, copied = σ :: body ∧ opening = σ :: (body ++ rest) ∧ σ.byte = delimiter.byte := by
  obtain ⟨σ, hhead, hσ⟩ := h.opens
  obtain ⟨body, rfl⟩ := List.head?_eq_some_iff.mp hhead
  exact ⟨σ, body, rfl, h.text, hσ⟩

theorem Copies.getElem?_offset (h : Copies delimiter opening rest out front copied)
    (hp : opening <:+ Symbol.ofText source) :
    source[Cursor.offset ⟨source, opening⟩]? = some delimiter.byte := by
  obtain ⟨σ, body, -, rfl, hσ⟩ := h.exists_cons
  have hvisible : Visible σ.byte := hσ ▸ Delimiter.visible_byte delimiter
  rw [← hσ]
  exact Cursor.getElem?_offset hp hvisible

theorem Copies.offset_lt (h : Copies delimiter opening rest out front copied)
    (hp : opening <:+ Symbol.ofText source) :
    Cursor.offset ⟨source, opening⟩ < Cursor.offset ⟨source, rest⟩ := by
  obtain ⟨σ, body, rfl, rfl, -⟩ := h.exists_cons
  have hwidth := Symbol.width_pos_of_mem_ofText (hp.subset (List.mem_cons_self ..))
  have hoffset := (@Cursor.normalized_between source (σ :: body) rest hp).2
  rw [Symbol.totalWidth_cons, List.cons_append] at hoffset
  omega

theorem Copies.out_eq (h : Copies delimiter opening rest out front copied)
    (hp : opening <:+ Symbol.ofText source) :
    out.toList = front ++ Symbol.rewritten ((source.take (Cursor.offset ⟨source, rest⟩)).drop
      (Cursor.offset ⟨source, opening⟩)) := by
  have htext := h.text
  subst htext
  rw [← Symbol.normalized_eq_rewritten, (Cursor.normalized_between hp).1]
  exact h.written

end Places

/-- What holds in a run over a source whenever a step is due. Places are told by their raw offsets. -/
structure Invariant (source : List UInt8) (s : State) : Prop where
  ended : ∀ ahead place, s.phase = .code none ahead place →
    ahead = none ∧ Cursor.offset ⟨source, s.rest⟩ = source.length
  space : ∀ ahead place, s.phase = .code (some space) ahead place →
    ∃ c ∈ s.out.back?, isWord c = true
  lineBreak : ∀ ahead place, s.phase = .code (some newline) ahead place →
    ∀ c ∈ s.out.back?, isWord c = true ∨ closesStatement c = true
  ahead : ∀ held place (delimiter : Delimiter), s.phase = .code held (some delimiter.byte) place →
    source[Cursor.offset ⟨source, place⟩]? = some delimiter.byte ∧
      Cursor.offset ⟨source, s.rest⟩ = Cursor.offset ⟨source, place⟩ + 1
  opening : ∀ delimiter opening, s.phase = .literal delimiter opening →
    source[Cursor.offset ⟨source, opening⟩]? = some delimiter.byte
  /-- The output ends with the literal as far as it has been read. What stands before a regular
  expression was held back when it opened. -/
  copied : ∀ delimiter opening, s.phase = .literal delimiter opening →
    Cursor.offset ⟨source, opening⟩ < Cursor.offset ⟨source, s.rest⟩ ∧
    ∃ front, s.out.toList = front ++ Symbol.rewritten
        ((source.take (Cursor.offset ⟨source, s.rest⟩)).drop (Cursor.offset ⟨source, opening⟩)) ∧
      (delimiter = .slash → ∃ b ∈ front.getLast?, opensExpression b = true)
  closing : ∀ delimiter opening t, s.phase = .literal delimiter opening → s.step = .ok t →
    t.phase = .literal delimiter opening ∨ t.Unwritten delimiter.byte s.out
  closed : ∀ (delimiter : Delimiter) out t, s.Unwritten delimiter.byte out → s.step = .ok t →
    t.Unwritten delimiter.byte out ∨ ∃ ahead place, s.phase = .code (some delimiter.byte) ahead place ∧
      moveOn ahead place s.rest (out.push delimiter.byte) = .ok t
  written : ∀ (delimiter : Delimiter) out t, s.Unwritten delimiter.byte out →
    Leads (fun _ ↦ True) (.ok s) (.ok t) →
    t.Unwritten delimiter.byte out ∨ (out.push delimiter.byte).toList <+: t.out.toList

/-- The invariant holds from the first look ahead on, whatever the source is. -/
theorem reaches_invariant {source : List UInt8} {s : State} (h : Reaches source s) :
    Invariant source s where
  ended ahead place hs := by
    obtain ⟨-, hh, hf⟩ := h.sound.of_code hs
    rw [hh.ended rfl] at hf
    obtain ⟨rfl, hrest⟩ := hf.of_nil
    rw [hrest]
    exact ⟨rfl, rfl⟩
  space ahead place hs := (h.sound.of_code hs).2.1.space rfl
  lineBreak ahead place hs := (h.sound.of_code hs).2.1.lineBreak rfl
  ahead held place delimiter hs := by
    obtain ⟨hp, -, hf⟩ := h.sound.of_code hs
    exact hf.getElem?_offset hp (Delimiter.visible_byte delimiter)
  opening delimiter opening hs := by
    obtain ⟨hp, front, copied, hc⟩ := h.sound.of_literal hs
    exact hc.getElem?_offset hp
  copied delimiter opening hs := by
    obtain ⟨hp, front, copied, hc⟩ := h.sound.of_literal hs
    exact ⟨hc.offset_lt hp, front, hc.out_eq hp, hc.behind⟩
  closing _ _ _ := step_literal
  closed _ _ _ := step_of_unwritten
  written _ _ _ hs hrun := hrun.unwritten_or_written hs

theorem reaches_invariant_escaped_break :
    Reaches (Utf8.encode "=/*c*/ /\\\r\n")
      ⟨.literal .slash [⟨slash, 1⟩, ⟨backslash, 1⟩, ⟨newline, 2⟩], [], (Utf8.encode "=/\\\n").toArray⟩ ∧
    Invariant (Utf8.encode "=/*c*/ /\\\r\n")
      ⟨.literal .slash [⟨slash, 1⟩, ⟨backslash, 1⟩, ⟨newline, 2⟩], [], (Utf8.encode "=/\\\n").toArray⟩ := by
  have h : Reaches (Utf8.encode "=/*c*/ /\\\r\n")
      ⟨.literal .slash [⟨slash, 1⟩, ⟨backslash, 1⟩, ⟨newline, 2⟩], [],
        (Utf8.encode "=/\\\n").toArray⟩ :=
    .step trivial rfl (.step trivial rfl (.step trivial rfl (.step trivial rfl (.refl _))))
  exact ⟨h, reaches_invariant h⟩

end Machine

end ScriptMinifier
