import ScriptMinifier.Proofs.RawText
import ScriptMinifier.Proofs.Run

namespace ScriptMinifier.Machine

open Byte

/-- Runs on for the given number of rounds at most. A round ends the run if nothing is held back any
more and takes a step otherwise. There is no result if the rounds are used up before that. -/
def runWithin : Nat → Except Failure State → Option (Except Failure (List UInt8))
  | _, .error failure => some (.error failure)
  | 0, .ok _ => none
  | rounds + 1, .ok s => if s.finished then some (.ok s.out.toList) else runWithin rounds s.step

theorem runWithin_error (rounds : Nat) (failure : Failure) :
    runWithin rounds (.error failure) = some (.error failure) := by
  cases rounds <;> rfl

theorem runWithin_of_pending {rounds : Nat} {s : State} (h : s.pending < rounds) :
    runWithin rounds (.ok s) = some (conclude (.ok s)) := by
  induction rounds generalizing s with
  | zero => exact absurd h (Nat.not_lt_zero _)
  | succ rounds ih =>
    cases hs : s.finished with
    | true => simp only [runWithin, hs, if_true, conclude_finished hs]
    | false =>
      simp only [runWithin, hs, Bool.false_eq_true, if_false, conclude_step hs]
      cases ht : s.step with
      | error failure => exact runWithin_error rounds failure
      | ok t =>
        apply ih
        have hlt := pending_step hs ht
        omega

theorem runWithin_start {rounds : Nat} {text : List Symbol} (h : text.length + 2 ≤ rounds) :
    runWithin rounds (start text) = some (run text) := by
  change _ = some (conclude (start text))
  cases hs : start text with
  | error failure => exact runWithin_error rounds failure
  | ok s =>
    apply runWithin_of_pending
    -- the line break in front of the text is held back and needs a step of its own
    have hpending : s.pending ≤ text.length + 1 := pending_lookAhead hs
    omega

theorem runWithin_start_space {σ : Symbol} (hσ : σ.byte = space) (text : List Symbol) (rounds : Nat) :
    runWithin (rounds + 1) (start (σ :: text)) = runWithin rounds (start text) := by
  have hnext : Uncommented.next (σ :: text) = .byte space text := by
    simp only [Uncommented.next, hσ]
    rfl
  simp only [start, lookAhead, hnext]
  rfl

theorem runWithin_spaces (length : Nat) :
    runWithin (length + 1) (start (Symbol.ofText (List.replicate length space))) = none := by
  induction length with
  | zero => rfl
  | succ length ih =>
    have hread : Symbol.ofText (List.replicate (length + 1) space) =
        Symbol.ofByte space :: Symbol.ofText (List.replicate length space) :=
      Symbol.ofText_cons_of_ne (by decide) _
    rw [hread, runWithin_start_space rfl]
    exact ih

/-- A run over a source takes at most two rounds more than the source has bytes, and no smaller number
is enough for every source of a length. A byte never waits for the end of the text. -/
theorem runWithin_length :
    (∀ source : List UInt8, runWithin (source.length + 2) (start (Symbol.ofText source)) =
      some (run (Symbol.ofText source))) ∧
    (∀ length, ∃ source : List UInt8, source.length = length ∧
      runWithin (length + 1) (start (Symbol.ofText source)) = none) ∧
    ∀ held, Decision.ofPair held none ≠ .wait := by
  refine ⟨fun source ↦ ?_, fun length ↦ ?_, fun held h ↦ ?_⟩
  · apply runWithin_start
    have hlength := Symbol.length_normalized_le source
    simp only [Symbol.normalized, List.length_map] at hlength
    omega
  · exact ⟨List.replicate length space, List.length_replicate, runWithin_spaces length⟩
  · rcases Decision.ahead_of_wait h with hahead | hahead <;> cases hahead

end ScriptMinifier.Machine
