import Mathlib
import ScriptMinifier.Proofs.Idempotence
import ScriptMinifier.Proofs.TrimmedCharacters

namespace ScriptMinifier

open Byte

namespace Byte

variable {c : UInt8}

theorem space_le_of_asRead (h : asRead c = c) : c = newline ∨ space ≤ c := by
  unfold asRead at h
  split at h
  · exact .inl h.symm
  · split at h
    · exact .inr (h ▸ UInt8.le_refl space)
    · rename_i hlt
      exact .inr (UInt8.not_lt.mp hlt)

theorem space_lt_of_asRead (h : asRead c = c) (hb : isBlank c = false) : space < c := by
  simp only [isBlank, Bool.or_eq_false_iff, beq_eq_false_iff_ne] at hb
  rcases space_le_of_asRead h with hn | hle
  · exact absurd hn hb.1.1.1.2
  · exact UInt8.lt_of_le_of_ne hle (Ne.symm hb.2)

end Byte

/-- A byte of an output, with the delimiter of the literal that it is copied from if it lies in one. -/
structure Written where
  byte : UInt8
  literal? : Option Delimiter
deriving DecidableEq, Repr

namespace Written

def endsStatement (a : Written) : Bool :=
  isWord a.byte || (['}', ']', ')', '+', '-', '"', '\''].map Char.toUInt8).contains a.byte

def beginsStatement (b : Written) : Bool :=
  isWord b.byte || (['{', '[', '(', '+', '-'].map Char.toUInt8).contains b.byte ||
    b == ⟨slash, some .slash⟩

def IsCopied (a : Written) : Prop := a ≠ ⟨space, none⟩ ∧ a ≠ ⟨newline, none⟩

/-- Which bytes are written side by side. -/
inductive Adjoins : Written → Written → Prop
  | copied {a b : Written} : a.IsCopied → b.IsCopied → Adjoins a b
  | beforeSpace {a : Written} : isWord a.byte = true → Adjoins a ⟨space, none⟩
  | behindSpace {b : Written} : isWord b.byte = true → Adjoins ⟨space, none⟩ b
  | beforeBreak {a : Written} : a.endsStatement = true → Adjoins a ⟨newline, none⟩
  | behindBreak {b : Written} : b.beginsStatement = true → Adjoins ⟨newline, none⟩ b

variable {a b : Written}

theorem isCopied_of_visible (h : Visible a.byte) : a.IsCopied :=
  ⟨fun ha ↦ h.1 (congrArg byte ha), fun ha ↦ h.2 (congrArg byte ha)⟩

theorem isCopied_literal (c : UInt8) (delimiter : Delimiter) : IsCopied ⟨c, some delimiter⟩ := by
  constructor <;> rintro ⟨⟩

theorem Adjoins.isWord_before (h : Adjoins a ⟨space, none⟩) : isWord a.byte = true := by
  cases h with
  | copied _ hb => exact absurd rfl hb.1
  | beforeSpace ha => exact ha
  | behindSpace hb => exact absurd hb (by decide)
  | behindBreak hb => exact absurd hb (by decide)

theorem Adjoins.isWord_behind (h : Adjoins ⟨space, none⟩ b) : isWord b.byte = true := by
  cases h with
  | copied ha _ => exact absurd rfl ha.1
  | behindSpace hb => exact hb
  | beforeSpace ha => exact absurd ha (by decide)
  | beforeBreak ha => exact absurd ha (by decide)

theorem Adjoins.endsStatement (h : Adjoins a ⟨newline, none⟩) : a.endsStatement = true := by
  cases h with
  | copied _ hb => exact absurd rfl hb.2
  | beforeBreak ha => exact ha
  | behindSpace hb => exact absurd hb (by decide)
  | behindBreak hb => exact absurd hb (by decide)

theorem Adjoins.beginsStatement (h : Adjoins ⟨newline, none⟩ b) : b.beginsStatement = true := by
  cases h with
  | copied ha _ => exact absurd rfl ha.2
  | behindBreak hb => exact hb
  | beforeSpace ha => exact absurd ha (by decide)
  | beforeBreak ha => exact absurd ha (by decide)

theorem isChain_toList_append {prev : Option Written} {text : List Written}
    (ht : text.IsChain Adjoins) (hadj : ∀ a ∈ prev, ∀ b ∈ text.head?, Adjoins a b) :
    (prev.toList ++ text).IsChain Adjoins := by
  cases prev with
  | none => exact ht
  | some a => exact ht.cons (hadj a rfl)

end Written

namespace Item

def literal? : Item → Option Delimiter
  | .byte _ => none
  | .literal delimiter _ => some delimiter

def written (item : Item) : List Written := item.bytes.map fun c ↦ ⟨c, item.literal?⟩

variable {item : Item} {last : Option UInt8} {gap : Gap}

theorem head?_written (item : Item) : item.written.head? = some ⟨item.first, item.literal?⟩ := by
  cases item <;> rfl

theorem getLast?_written (item : Item) : item.written.getLast? = some ⟨item.last, item.literal?⟩ := by
  rw [written, ← front_append_last, List.map_append]
  exact List.getLast?_concat

theorem Fits.isCopied {a : Written} (h : item.Fits last gap) (ha : a ∈ item.written) : a.IsCopied := by
  obtain ⟨c, hc, rfl⟩ := List.mem_map.mp ha
  cases h with
  | byte hv _ =>
    obtain rfl := List.mem_singleton.mp hc
    exact Written.isCopied_of_visible hv
  | literal _ _ _ => exact Written.isCopied_literal c _

theorem Fits.isChain_written (h : item.Fits last gap) : item.written.IsChain Written.Adjoins := by
  have hall : item.written.Pairwise Written.Adjoins :=
    List.pairwise_of_forall_mem_list fun a ha b hb ↦ .copied (h.isCopied ha) (h.isCopied hb)
  exact hall.isChain

theorem beginsStatement_of_opensStatement (h : item.opensStatement = true) :
    Written.beginsStatement ⟨item.first, item.literal?⟩ = true := by
  cases item with
  | byte c =>
    rw [opensStatement, Bool.or_eq_true] at h
    rcases h with h | h
    · simp [Written.beginsStatement, first, h]
    · have hall : (statementOpeners.all fun c ↦ Written.beginsStatement ⟨c, none⟩) = true := by decide
      exact List.all_eq_true.mp hall c (List.contains_iff_mem.mp h)
  | literal delimiter body =>
    obtain rfl := eq_of_beq h
    rfl

end Item

theorem Written.endsStatement_of_holdsBreak {a : Written} {gap : Gap}
    (h : gap.holdsBreak (some a.byte) = true) : a.endsStatement = true := by
  have hc := ((Bool.and_eq_true _ _).mp h).2
  rw [Bool.or_eq_true] at hc
  rcases hc with hc | hc
  · simp [Written.endsStatement, hc]
  · have hall : (statementClosers.all fun c ↦ Written.endsStatement ⟨c, none⟩) = true := by decide
    exact List.all_eq_true.mp hall a.byte (List.contains_iff_mem.mp hc)

namespace Outline

variable {last : Option UInt8} {outline : Outline}

def written (last : Option UInt8) : Outline → List Written
  | [] => []
  | (gap, item) :: outline =>
    (separator last gap item).map (fun c ↦ ⟨c, none⟩) ++ (item.written ++ written (some item.last) outline)

theorem map_byte_written (last : Option UInt8) (outline : Outline) :
    (outline.written last).map Written.byte = outline.render last := by
  induction outline generalizing last with
  | nil => rfl
  | cons entry outline ih =>
    obtain ⟨gap, item⟩ := entry
    rw [written, render, List.map_append, List.map_append, ih, Item.written, List.map_map, List.map_map,
      List.append_assoc]
    simp [Function.comp_def]

theorem separator_cases (last : Option UInt8) (gap : Gap) (item : Item) :
    separator last gap item = [] ∨
      (separator last gap item = [newline] ∧ gap.holdsBreak last = true ∧ item.opensStatement = true) ∨
      (separator last gap item = [space] ∧ last.any isWord = true ∧ isWord item.first = true) := by
  unfold separator
  split
  · rename_i hb
    split
    · rename_i ho
      exact .inr (.inl ⟨rfl, hb, ho⟩)
    · exact .inl rfl
  · split
    · rename_i hw
      exact .inr (.inr ⟨rfl, hw.2⟩)
    · exact .inl rfl

/-- Layout is written only where its neighbours call for it, `prev` being the byte written last. -/
theorem WellCut.isChain_written (h : WellCut last outline) {prev : Option Written}
    (hprev : prev.map Written.byte = last) (hcopied : ∀ a ∈ prev, a.IsCopied) :
    (prev.toList ++ outline.written last).IsChain Written.Adjoins := by
  induction h generalizing prev with
  | nil => cases prev <;> simp [written]
  | @cons last gap item outline hf _ _ ih =>
    have hfirst : Written.IsCopied ⟨item.first, item.literal?⟩ :=
      Written.isCopied_of_visible hf.visible_first
    have hlast : Written.IsCopied ⟨item.last, item.literal?⟩ :=
      Written.isCopied_of_visible hf.visible_last
    have hrest := List.isChain_cons.mp
      (@ih (some ⟨item.last, item.literal?⟩) rfl (by simpa using hlast))
    have hitem : (item.written ++ written (some item.last) outline).IsChain Written.Adjoins := by
      refine hf.isChain_written.append hrest.2 ?_
      rw [Item.getLast?_written]
      rintro _ ⟨⟩
      exact hrest.1
    have hhead : ∀ b ∈ (item.written ++ written (some item.last) outline).head?,
        b = ⟨item.first, item.literal?⟩ := by
      rw [List.head?_append, Item.head?_written, Option.some_or]
      rintro _ ⟨⟩
      rfl
    subst hprev
    rw [written]
    rcases separator_cases (prev.map Written.byte) gap item with
      hsep | ⟨hsep, hbreak, hopens⟩ | ⟨hsep, hword, hword'⟩
    · rw [hsep]
      refine Written.isChain_toList_append hitem fun a ha b hb ↦ ?_
      rw [hhead b hb]
      exact .copied (hcopied a ha) hfirst
    · rw [hsep]
      refine Written.isChain_toList_append (hitem.cons fun b hb ↦ ?_) fun a ha b hb ↦ ?_
      · rw [hhead b hb]
        exact .behindBreak (Item.beginsStatement_of_opensStatement hopens)
      · cases hb
        cases ha
        exact .beforeBreak (Written.endsStatement_of_holdsBreak hbreak)
    · rw [hsep]
      refine Written.isChain_toList_append (hitem.cons fun b hb ↦ ?_) fun a ha b hb ↦ ?_
      · rw [hhead b hb]
        exact .behindSpace hword'
      · cases hb
        cases ha
        exact .beforeSpace hword

theorem WellCut.getLast?_render_any (h : WellCut none outline) :
    (outline.render none).getLast?.any isBlank = false := by
  rw [h.render_eq.2]
  split
  · rename_i hleads
    have hne : outline.core ≠ [] := by
      intro he
      rw [he] at hleads
      cases hleads
    rw [List.getLast?_append, Option.or_of_isSome (List.getLast?_isSome.mpr hne)]
    exact h.getLast?_core_any
  · exact h.getLast?_core_any

theorem WellCut.space_lt_getLast (h : WellCut none outline) :
    ∀ c ∈ (outline.render none).getLast?, space < c := by
  intro c hc
  have hblank := h.getLast?_render_any
  rw [hc] at hblank
  exact space_lt_of_asRead (h.asRead_render c (List.mem_of_getLast? hc)) hblank

theorem WellCut.space_lt_head (h : WellCut none outline) :
    ∀ c ∈ (withoutBreak (outline.render none)).head?, space < c := by
  intro c hc
  have hblank := h.head?_core_any
  rw [h.withoutBreak_render] at hc
  rw [hc] at hblank
  refine space_lt_of_asRead (h.asRead_render c ?_) hblank
  rw [h.render_eq.2]
  exact List.mem_append_right _ (List.mem_of_head? hc)

theorem WellCut.neighbours (h : WellCut none outline) {before after : List Written} {c : UInt8}
    (hw : outline.written none = before ++ ⟨c, none⟩ :: after) :
    (c = space → (∃ a ∈ before.getLast?, isWord a.byte = true) ∧
      ∃ b ∈ after.head?, isWord b.byte = true) ∧
    (c = newline → (∀ a ∈ before.getLast?, a.endsStatement = true) ∧
      ∃ b ∈ after.head?, b.beginsStatement = true) := by
  have hchain : (outline.written none).IsChain Written.Adjoins :=
    h.isChain_written (Option.map_none ..) (fun a ha ↦ nomatch ha)
  rw [hw] at hchain
  obtain ⟨-, htail, hbefore⟩ := List.isChain_append.mp hchain
  have hafter := (List.isChain_cons.mp htail).1
  have hbytes := outline.map_byte_written none
  rw [hw] at hbytes
  have hprev : c = space → ∃ a, a ∈ before.getLast? := by
    rintro rfl
    cases before with
    | nil =>
      have hlt := h.space_lt_head space (by rw [← hbytes]; rfl)
      exact absurd hlt (by decide)
    | cons a before => exact ⟨_, List.getLast?_cons⟩
  have hnext : ¬space < c → ∃ b, b ∈ after.head? := by
    intro hc
    cases after with
    | nil => exact absurd (h.space_lt_getLast c (by simp [← hbytes])) hc
    | cons b after => exact ⟨b, rfl⟩
  constructor
  · rintro rfl
    obtain ⟨a, ha⟩ := hprev rfl
    obtain ⟨b, hb⟩ := hnext (by decide)
    exact ⟨⟨a, ha, (hbefore a ha _ rfl).isWord_before⟩, b, hb, (hafter b hb).isWord_behind⟩
  · rintro rfl
    obtain ⟨b, hb⟩ := hnext (by decide)
    exact ⟨fun a ha ↦ (hbefore a ha _ rfl).endsStatement, b, hb, (hafter b hb).beginsStatement⟩

end Outline

theorem minifyWith_eq_error_iff {options : Options} {source : List UInt8} {e : Unterminated} :
    minifyWith options source = .error e ↔ minify source = .error e := by
  rw [minifyWith]
  cases minify source with
  | error e' => rfl
  | ok y =>
    constructor
    · rintro ⟨⟩
    · rintro ⟨⟩

/-- Outside of the literals that are copied, a space is written between two words only, and a line break
only behind what may end a statement, or at the start, and before what may begin one. Nothing but a line
break at the start is left to be trimmed, whether bytes or whole characters are looked at. -/
theorem minify_shape (source : List UInt8) :
    (∀ y, minify source = .ok y →
      (∃ outline, Outline.ofText none (Symbol.ofRewritten source) = .ok outline ∧
        (outline.written none).map Written.byte = y ∧
        ∀ before c after, outline.written none = before ++ ⟨c, none⟩ :: after →
          (c = space → (∃ a ∈ before.getLast?, isWord a.byte = true) ∧
            ∃ b ∈ after.head?, isWord b.byte = true) ∧
          (c = newline → (∀ a ∈ before.getLast?, a.endsStatement = true) ∧
            ∃ b ∈ after.head?, b.beginsStatement = true)) ∧
      (∀ c ∈ y, c = newline ∨ space ≤ c) ∧
      (∀ c ∈ y.getLast?, space < c) ∧
      (∀ c ∈ (withoutBreak y).head?, space < c) ∧
      minifyWith ⟨true⟩ source = .ok (withoutBreak y) ∧
      Utf8.trimBlankChars y = withoutBreak y) ∧
    ∀ options e, minifyWith options source = .error e ↔ minify source = .error e := by
  constructor
  · intro y h
    obtain ⟨outline, ho, hw, rfl⟩ := exists_outline h
    have htrim : trimBlanks (outline.render none) = withoutBreak (outline.render none) := by
      rw [hw.render_eq.1, hw.withoutBreak_render]
    rw [Symbol.ofText_eq_ofRewritten] at ho
    refine ⟨⟨outline, ho, outline.map_byte_written none, fun _ _ _ ↦ hw.neighbours⟩, ?_, ?_, ?_, ?_, ?_⟩
    · exact fun c hc ↦ space_le_of_asRead (hw.asRead_render c hc)
    · exact hw.space_lt_getLast
    · exact hw.space_lt_head
    · rw [minifyWith_trim h, htrim]
    · rw [Utf8.trimBlankChars_eq, htrim]
  · intro options e
    exact minifyWith_eq_error_iff

theorem minify_shape_sum :
    minify (Utf8.encode "a  b // c\n+'  \\\n'\t") = .ok (Utf8.encode "\na b\n+'  \\\n'") ∧
      minifyWith ⟨true⟩ (Utf8.encode "a  b // c\n+'  \\\n'\t") = .ok (Utf8.encode "a b\n+'  \\\n'") ∧
      (∃ outline rest,
        Outline.ofText none (Symbol.ofRewritten (Utf8.encode "a  b // c\n+'  \\\n'\t")) = .ok outline ∧
        outline.written none = [⟨newline, none⟩, ⟨'a'.toUInt8, none⟩, ⟨space, none⟩, ⟨'b'.toUInt8, none⟩] ++
          ⟨newline, none⟩ :: ⟨'+'.toUInt8, none⟩ :: rest ∧
        Written.endsStatement ⟨'b'.toUInt8, none⟩ = true ∧
        Written.beginsStatement ⟨'+'.toUInt8, none⟩ = true) ∧
      minifyWith ⟨true⟩ (Utf8.encode "a\n'") = .error ⟨.string, 2, 1⟩ := by
  have h : minify (Utf8.encode "a  b // c\n+'  \\\n'\t") = .ok (Utf8.encode "\na b\n+'  \\\n'") := by
    cbv
  have herror : minify (Utf8.encode "a\n'") = .error ⟨.string, 2, 1⟩ := by cbv
  obtain ⟨⟨outline, ho, -, hsplit⟩, -, -, -, htrim, -⟩ := (minify_shape _).1 _ h
  have houtline : Outline.ofText none (Symbol.ofRewritten (Utf8.encode "a  b // c\n+'  \\\n'\t")) =
      .ok [(.none, .byte 'a'.toUInt8), (.blank, .byte 'b'.toUInt8), (.lineBreak, .byte '+'.toUInt8),
        (.none, .literal .singleQuote [space, space, backslash, newline])] := by
    decide +kernel
  cases ho.symm.trans houtline
  have hwritten : Outline.written none [(.none, .byte 'a'.toUInt8), (.blank, .byte 'b'.toUInt8),
      (.lineBreak, .byte '+'.toUInt8), (.none, .literal .singleQuote [space, space, backslash, newline])] =
      [⟨newline, none⟩, ⟨'a'.toUInt8, none⟩, ⟨space, none⟩, ⟨'b'.toUInt8, none⟩] ++
        ⟨newline, none⟩ :: ⟨'+'.toUInt8, none⟩ ::
          (Item.literal .singleQuote [space, space, backslash, newline]).written := by
    decide
  obtain ⟨hends, _, ⟨⟩, hbegins⟩ := (hsplit _ _ _ hwritten).2 rfl
  exact ⟨h, htrim, ⟨_, _, ho, hwritten, hends _ rfl, hbegins⟩, ((minify_shape _).2 _ _).mpr herror⟩

end ScriptMinifier
