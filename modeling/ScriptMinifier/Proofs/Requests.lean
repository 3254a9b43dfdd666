import Mathlib
import ScriptMinifier.Proofs.Positions

namespace ScriptMinifier

open Byte

namespace Symbol

theorem totalWidth_eq_sum (text : List Symbol) : totalWidth text = (text.map width).sum := by
  induction text with
  | nil => rfl
  | cons σ text ih => rw [totalWidth_cons, List.map_cons, List.sum_cons, ih]

theorem sum_take_rawWidths (text : List UInt8) (count : Nat) :
    ((rawWidths text).take count).sum + totalWidth ((ofText text).drop count) = text.length := by
  rw [← map_width_ofText, ← List.map_take, ← totalWidth_eq_sum, ← totalWidth_append,
    List.take_append_drop, totalWidth_ofText]

end Symbol

inductive Request where
  | next
  | peek
  | offset
deriving DecidableEq, Repr

inductive Reply where
  | byte (c? : Option UInt8)
  | offset (bytes : Nat)
deriving DecidableEq, Repr

/-- The reply to a request that has the given number of requests for the next byte before it, where the
text is a list of bytes with their widths. -/
def Request.replyAfter (text : List UInt8) (widths : List Nat) (count : Nat) : Request → Reply
  | .next | .peek => .byte text[count]?
  | .offset => .offset (widths.take count).sum

theorem Request.count_next_cons (count : Nat) (request : Request) (requests : List Request) :
    count + [request].count .next + requests.count .next = count + (request :: requests).count .next := by
  rw [Nat.add_assoc, ← List.count_append, List.singleton_append]

namespace Cursor

def answer (cursor : Cursor) : Request → Reply × Cursor
  | .next => (.byte cursor.next.1, cursor.next.2)
  | .peek => (.byte cursor.peek, cursor)
  | .offset => (.offset cursor.offset, cursor)

def answers : List Request → Cursor → List Reply × Cursor
  | [], cursor => ([], cursor)
  | request :: requests, cursor =>
    let (reply, cursor) := cursor.answer request
    let (replies, cursor) := cursor.answers requests
    (reply :: replies, cursor)

def after (source : List UInt8) (count : Nat) : Cursor := ((ofSource source).readOn count).2

variable (source : List UInt8) (count : Nat)

theorem after_eq : after source count = ⟨source, (Symbol.ofText source).drop count⟩ := by
  rw [after, ofSource, readOn_eq]

theorem peek_after : (after source count).peek = (Symbol.rewritten source)[count]? := by
  rw [← Symbol.normalized_eq_rewritten, Symbol.normalized, List.getElem?_map, ← List.head?_drop, after_eq]
  rfl

theorem next_after :
    (after source count).next = ((Symbol.rewritten source)[count]?, after source (count + 1)) := by
  rw [← peek_after, next]
  simp only [after_eq, List.tail_drop]

theorem offset_after : (after source count).offset = ((Symbol.rawWidths source).take count).sum := by
  have h := Symbol.sum_take_rawWidths source count
  simp only [offset, after_eq]
  omega

theorem answer_after (request : Request) :
    (after source count).answer request =
      (request.replyAfter (Symbol.rewritten source) (Symbol.rawWidths source) count,
        after source (count + [request].count .next)) := by
  cases request with
  | next => simp only [answer, next_after]; rfl
  | peek => simp only [answer, peek_after]; rfl
  | offset => simp only [answer, offset_after]; rfl

theorem snd_answers_after (requests : List Request) :
    ((after source count).answers requests).2 = after source (count + requests.count .next) := by
  induction requests generalizing count with
  | nil => rfl
  | cons request requests ih => simp only [answers, answer_after, ih, Request.count_next_cons]

theorem fst_answers_after (requests : List Request) (i : Nat) :
    ((after source count).answers requests).1[i]? =
      requests[i]?.map (Request.replyAfter (Symbol.rewritten source) (Symbol.rawWidths source)
        (count + (requests.take i).count .next)) := by
  induction requests generalizing count i with
  | nil => rfl
  | cons request requests ih =>
    simp only [answers, answer_after]
    cases i with
    | zero => rfl
    | succ i => simp only [List.getElem?_cons_succ, ih, List.take_succ_cons, Request.count_next_cons]

theorem rest_after :
    (after source count).rest = Symbol.ofText (source.drop (after source count).offset) := by
  obtain ⟨front, back, rfl, -, hread⟩ := exists_readOn source count
  rw [after, hread, offset_of_append, List.drop_left]

theorem offset_add_totalWidth :
    (after source count).offset + Symbol.totalWidth (after source count).rest = source.length := by
  rw [offset_after, after_eq]
  exact Symbol.sum_take_rawWidths source count

theorem next_cases :
    ((after source count).next.1 = none ∧ (after source count).offset = source.length ∧
      (after source count).next.2.offset = source.length) ∨
    ∃ c, (after source count).next.1 = some c ∧ (after source count).offset < source.length ∧
      (after source count).offset < (after source count).next.2.offset := by
  have hoffset := offset_add_totalWidth source count
  have hoffset' := offset_add_totalWidth source (count + 1)
  have hnext : (after source count).next = ((after source count).peek, after source (count + 1)) := by
    rw [next_after, peek_after]
  have htail : (after source (count + 1)).rest = (after source count).rest.tail := by
    simp only [after_eq, List.tail_drop]
  rw [htail] at hoffset'
  rw [hnext, peek]
  cases hrest : (after source count).rest with
  | nil =>
    rw [hrest] at hoffset hoffset'
    exact .inl ⟨rfl, hoffset, hoffset'⟩
  | cons σ rest =>
    have hsuffix : σ :: rest <:+ Symbol.ofText source := by
      rw [← hrest, after_eq]
      exact List.drop_suffix count _
    have hwidth := Symbol.width_pos_of_mem_ofText (hsuffix.subset (List.mem_cons_self ..))
    rw [hrest, Symbol.totalWidth_cons] at hoffset
    rw [hrest, List.tail_cons] at hoffset'
    refine .inr ⟨σ.byte, rfl, ?_, ?_⟩
    · omega
    · dsimp only
      omega

/-- How a cursor on a source stands when the given number of bytes has been asked for. -/
structure Stands (source : List UInt8) (count : Nat) (cursor : Cursor) : Prop where
  next : cursor.next.1 = (Symbol.rewritten source)[count]?
  peek : cursor.answer .peek = ((cursor.answer .next).1, cursor)
  rest : cursor.rest = Symbol.ofText (source.drop cursor.offset)
  offset : cursor.offset = ((Symbol.rawWidths source).take count).sum
  offset_le : cursor.offset ≤ source.length
  grows : cursor.next.1.isSome = true ↔ cursor.offset < cursor.next.2.offset
  ended : cursor.next.1 = none ↔ cursor.offset = source.length

theorem stands_after : Stands source count (after source count) where
  next := by rw [next_after]
  peek := rfl
  rest := rest_after source count
  offset := offset_after source count
  offset_le := by
    have hoffset := offset_add_totalWidth source count
    omega
  grows := by
    rcases next_cases source count with ⟨hnone, hend, hend'⟩ | ⟨c, hsome, -, hlt⟩
    · simp [hnone, hend, hend']
    · simp [hsome, hlt]
  ended := by
    rcases next_cases source count with ⟨hnone, hend, -⟩ | ⟨c, hsome, hlt, -⟩
    · simp [hnone, hend]
    · simp [hsome, hlt.ne]

/-- However a source is asked, its replies are those of the text that is rewritten as a whole: each one
depends on the number of bytes that have been asked for before it and on nothing else. -/
theorem answers_ofSource (requests : List Request) :
    (∀ i, ((ofSource source).answers requests).1[i]? =
      requests[i]?.map (Request.replyAfter (Symbol.rewritten source) (Symbol.rawWidths source)
        ((requests.take i).count .next))) ∧
    Stands source (requests.count .next) ((ofSource source).answers requests).2 := by
  have hfresh : ofSource source = after source 0 := rfl
  constructor
  · intro i
    have hreplies := fst_answers_after source 0 requests i
    rwa [Nat.zero_add, ← hfresh] at hreplies
  · rw [hfresh, snd_answers_after, Nat.zero_add]
    exact stands_after source _

example : ((ofSource [carriageReturn, carriageReturn, newline, 0x01]).answers
      [.peek, .next, .offset, .next, .peek, .offset, .next, .next, .offset]).1 =
    [.byte newline, .byte newline, .offset 1, .byte newline, .byte space, .offset 3, .byte space,
      .byte none, .offset 4] := by decide

end Cursor

end ScriptMinifier
