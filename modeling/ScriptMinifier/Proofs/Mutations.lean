import Mathlib
import ScriptMinifier.Fuzz.Mutation

namespace ScriptMinifier.Fuzz

namespace Fragment

theorem words_getD_ne_nil {index : Nat} (h : index < words.length) : words.getD index [] ≠ [] := by
  have hall : words.all (fun word ↦ !word.isEmpty) = true := by decide
  rw [List.getD_eq_getElem _ _ h]
  simpa using List.all_eq_true.mp hall _ (List.getElem_mem h)

theorem bytes_ofSupply_ne_nil (supply : Supply) : (ofSupply supply).bytes ≠ [] := by
  unfold ofSupply
  obtain ⟨kind, rest⟩ := supply.chooseIndex 4
  match kind with
  | 0 => simp [bytes]
  | 1 => simp [bytes]
  | kind + 2 => exact words_getD_ne_nil (Nat.mod_lt _ (by decide))

end Fragment

namespace Dice

theorem le_draw (low high : Nat) (dice : Dice) : low ≤ (dice.draw low high).1 := Nat.le_add_right _ _

theorem draw_le {low high : Nat} (h : low ≤ high) (dice : Dice) : (dice.draw low high).1 ≤ high := by
  have hmod : dice.roll dice.used % (high - low + 1) < high - low + 1 := Nat.mod_lt _ (Nat.succ_pos _)
  simp only [draw]
  omega

end Dice

namespace Filling

/-- The flags stand in front, all that is filled lies before `limit`, and nothing behind it differs from
the given buffer. -/
structure Keeps (buffer : List UInt8) (limit : Nat) (filling : Filling) : Prop where
  limit_le : limit ≤ buffer.length
  length_eq : filling.buffer.length = buffer.length
  header_le : Mutation.header ≤ filling.used
  used_le : filling.used ≤ limit
  flags : ∃ flags ∈ filling.buffer.head?, flags < 4
  behind : filling.buffer.drop limit = buffer.drop limit

variable {buffer : List UInt8} {limit : Nat} {filling : Filling}

theorem Keeps.withDice (h : filling.Keeps buffer limit) (dice : Dice) :
    Keeps buffer limit { filling with dice } :=
  ⟨h.limit_le, h.length_eq, h.header_le, h.used_le, h.flags, h.behind⟩

theorem Keeps.write (h : filling.Keeps buffer limit) {bytes : List UInt8}
    (hroom : filling.used + bytes.length ≤ limit) :
    ∃ next, filling.write? bytes = some next ∧ next.Keeps buffer limit ∧
      next.used = filling.used + bytes.length := by
  obtain ⟨hlimit, hlength, hheader, hused, ⟨flags, hhead, hflags⟩, hbehind⟩ := h
  have hfits : filling.used + bytes.length ≤ filling.buffer.length := by omega
  have hfront : (filling.buffer.take filling.used ++ bytes).length = filling.used + bytes.length := by
    rw [List.length_append, List.length_take_of_le (by omega)]
  refine ⟨_, if_pos hfits, ⟨hlimit, ?_, ?_, hroom, ⟨flags, ?_, hflags⟩, ?_⟩, rfl⟩
  · simp only [List.length_append, List.length_take, List.length_drop]
    omega
  · dsimp only
    omega
  · obtain ⟨rest, hbuffer⟩ := List.head?_eq_some_iff.mp hhead
    obtain ⟨n, hn⟩ := Nat.exists_eq_add_of_le' hheader
    simp [hbuffer, hn, Mutation.header]
  · dsimp only
    rw [List.drop_append, hfront, List.drop_of_length_le (hfront ▸ hroom), List.nil_append, List.drop_drop,
      Nat.add_sub_cancel' hroom, hbehind]

theorem exists_write_flags {flags : UInt8} (hflags : flags < 4) (hheader : Mutation.header ≤ limit)
    (hlimit : limit ≤ buffer.length) (dice : Dice) :
    ∃ next, write? [flags] ⟨buffer, 0, dice⟩ = some next ∧ next.dice = dice ∧ next.Keeps buffer limit := by
  have hfits : 0 + [flags].length ≤ buffer.length := Nat.le_trans hheader hlimit
  refine ⟨_, if_pos hfits, rfl, hlimit, ?_, Nat.le_refl _, hheader, ⟨flags, rfl, hflags⟩, ?_⟩
  · simp only [List.take_zero, List.nil_append, List.length_append, List.length_drop]
    omega
  · obtain ⟨n, rfl⟩ := Nat.exists_eq_add_of_le' hheader
    simp [Mutation.header]

theorem Keeps.room (h : filling.Keeps buffer limit) :
    filling.room? limit = some (limit - filling.used) := by
  have hlimit := h.limit_le
  have hlength := h.length_eq
  have hused := h.used_le
  exact if_pos ⟨hused, by omega⟩

theorem Keeps.writeBlanks (h : filling.Keeps buffer limit) {room : Nat}
    (hroom : filling.used + room ≤ limit) (count : Nat) :
    ∃ next, writeBlanks? room count filling = some next ∧ next.Keeps buffer limit ∧
      filling.used ≤ next.used := by
  induction count generalizing filling room with
  | zero => exact ⟨filling, rfl, h, Nat.le_refl _⟩
  | succ count ih =>
    simp only [writeBlanks?]
    generalize blanks.getD (filling.dice.draw 0 (blanks.length - 1)).1 [] = blank
    split
    · exact ⟨_, rfl, h.withDice _, Nat.le_refl _⟩
    · rename_i hfits
      have hblank : filling.used + blank.length ≤ limit := by omega
      obtain ⟨blanked, hwrite, hkeeps, hused⟩ :=
        (h.withDice (filling.dice.draw 0 (blanks.length - 1)).2).write hblank
      have hrest : blanked.used + (room - blank.length) ≤ limit := by
        simp only [hused]
        omega
      obtain ⟨next, hnext, hkeeps', hused'⟩ := ih hkeeps hrest
      rw [hwrite]
      refine ⟨next, hnext, hkeeps', ?_⟩
      simp only [hused] at hused'
      omega

theorem Keeps.appendBlanks (h : filling.Keeps buffer limit) :
    ∃ next, filling.appendBlanks? limit = some next ∧ next.Keeps buffer limit ∧
      filling.used ≤ next.used := by
  have hused := h.used_le
  simp only [appendBlanks?, h.room, Option.bind_eq_bind, Option.bind_some]
  split
  · exact ⟨filling, rfl, h, Nat.le_refl _⟩
  · exact (h.withDice _).writeBlanks (by dsimp only; omega) _

theorem Keeps.appendFragment (h : filling.Keeps buffer limit) :
    ∃ next, filling.appendFragment? limit = some next ∧ next.Keeps buffer limit ∧
      filling.used ≤ next.used ∧ (filling.used < limit → filling.used < next.used) := by
  have hused := h.used_le
  have hpos := List.length_pos_iff.mpr (Fragment.bytes_ofSupply_ne_nil (filling.dice.drawBytes 16).1)
  simp only [appendFragment?, h.room, Option.bind_eq_bind, Option.bind_some]
  generalize (Fragment.ofSupply (filling.dice.drawBytes 16).1).bytes = fragment at hpos
  have hlength : (fragment.take (limit - filling.used)).length = min (limit - filling.used) fragment.length :=
    List.length_take
  have hroom : filling.used + (fragment.take (limit - filling.used)).length ≤ limit := by omega
  obtain ⟨next, hwrite, hkeeps, hnext⟩ := (h.withDice (filling.dice.drawBytes 16).2).write hroom
  simp only [hlength] at hnext
  exact ⟨next, hwrite, hkeeps, by omega, by omega⟩

theorem Keeps.round (h : filling.Keeps buffer limit) :
    ∃ next, (filling.appendBlanks? limit).bind (appendFragment? limit) = some next ∧
      next.Keeps buffer limit ∧ (filling.used < limit → filling.used < next.used) := by
  obtain ⟨blanked, hblanks, hkeeps, hle⟩ := h.appendBlanks
  obtain ⟨next, hfragment, hkeeps', hle', hlt⟩ := hkeeps.appendFragment
  have hused := hkeeps.used_le
  refine ⟨next, ?_, hkeeps', ?_⟩
  · rw [hblanks]
    exact hfragment
  · intro hroom
    -- A fragment adds nothing where the blanks have come to the limit, but then they have added something.
    by_cases hfull : blanked.used < limit
    · exact Nat.lt_of_le_of_lt hle (hlt hfull)
    · omega

theorem Keeps.fill {target : Nat} (h : filling.Keeps buffer limit) (htarget : target ≤ limit) :
    ∃ next, filling.fill? limit target = some next ∧ next.Keeps buffer limit ∧ target ≤ next.used := by
  fun_induction fill? limit target filling with
  | case1 filling hlt hround =>
    obtain ⟨next, hnext, -⟩ := h.round
    rw [hround] at hnext
    cases hnext
  | case2 filling hlt next hround hgrows ih =>
    obtain ⟨next', hnext, hkeeps, -⟩ := h.round
    rw [hround] at hnext
    cases hnext
    exact ih hkeeps
  | case3 filling hlt next hround hstays =>
    obtain ⟨next', hnext, -, hgrows⟩ := h.round
    rw [hround] at hnext
    cases hnext
    exact absurd (hgrows (Nat.lt_of_lt_of_le hlt htarget)) hstays
  | case4 filling hge => exact ⟨filling, rfl, h, Nat.not_lt.mp hge⟩

end Filling

namespace Mutation

def target (limit : Nat) (dice : Dice) : Nat := ((dice.draw 0 0xFFFFFFFF).2.draw header limit).1

theorem and_three_lt (b : UInt8) : b &&& 3 < 4 := by
  rw [UInt8.lt_iff_toNat_lt, UInt8.toNat_and]
  exact Nat.lt_of_le_of_lt Nat.and_le_right (by decide)

/-- Whatever the dice show, a buffer is filled without leaving it: up to a length that they ask for at
least, and to no more than the limit. Flags stand in front, and nothing behind the limit is touched. -/
theorem ofBuffer?_fills {buffer : List UInt8} {size limit seed : Nat} (hlimit : limit ≤ buffer.length)
    (hheader : 1 < limit) (hfill : size = 0 ∨ 10 ∣ seed) (dice : Dice) :
    ∃ filled length, ofBuffer? buffer size limit seed dice = some (.filled filled length) ∧
      1 ≤ target limit dice ∧ target limit dice ≤ length ∧ length ≤ limit ∧
      (∃ flags ∈ filled.head?, flags < 4) ∧ filled.length = buffer.length ∧
      ∀ i, limit ≤ i → filled[i]? = buffer[i]? := by
  have hgate : ¬(limit ≤ header ∨ header ≤ size ∧ seed % 10 ≠ 0) := by
    simp only [header]
    omega
  have hflags := and_three_lt (dice.draw 0 0xFFFFFFFF).1.toUInt8
  obtain ⟨first, hfirst, hdice, hkeeps⟩ :=
    Filling.exists_write_flags hflags hheader.le hlimit (dice.draw 0 0xFFFFFFFF).2
  have htarget : target limit dice ≤ limit := Dice.draw_le hheader.le _
  obtain ⟨last, hlast, ⟨-, hlength, -, hused, hhead, hbehind⟩, hreached⟩ :=
    (hkeeps.withDice (first.dice.draw header limit).2).fill htarget
  refine ⟨last.buffer, last.used, ?_, Dice.le_draw .., hreached, hused, hhead, hlength, ?_⟩
  · rw [target, ← hdice] at hlast
    simp only [ofBuffer?, if_neg hgate, hfirst, Option.bind_eq_bind, Option.bind_some, hlast]
    rfl
  · intro i hi
    have hat := congrArg (fun rest ↦ rest[i - limit]?) hbehind
    simpa only [List.getElem?_drop, Nat.add_sub_cancel' hi] using hat

theorem ofBuffer?_fills_loaded_dice :
    target 5 ⟨fun _ ↦ 3, 0⟩ = 4 ∧
      ∃ filled length, ofBuffer? (Utf8.encode "#######") 3 5 40 ⟨fun _ ↦ 3, 0⟩ = some (.filled filled length) ∧
        4 ≤ length ∧ length ≤ 5 ∧ (∃ flags ∈ filled.head?, flags < 4) ∧ filled[5]? = some 0x23 := by
  have hlimit : 5 ≤ (Utf8.encode "#######").length := by decide
  have hfill : 3 = 0 ∨ 10 ∣ 40 := .inr (by decide)
  obtain ⟨filled, length, hfilled, -, hreached, hlength, hflags, -, hbehind⟩ :=
    ofBuffer?_fills hlimit (by decide) hfill ⟨fun _ ↦ 3, 0⟩
  exact ⟨rfl, filled, length, hfilled, hreached, hlength, hflags, hbehind 5 (Nat.le_refl 5)⟩

end Mutation

end ScriptMinifier.Fuzz
