import ScriptMinifier.Uncommented
import ScriptMinifier.Unterminated

namespace ScriptMinifier

/-- A place in a source text, given by the symbols still to be read. -/
structure Cursor where
  source : List UInt8
  rest : List Symbol
deriving DecidableEq, Repr

namespace Cursor

def ofSource (source : List UInt8) : Cursor := ⟨source, Symbol.ofText source⟩

def offset (cursor : Cursor) : Nat := cursor.source.length - Symbol.totalWidth cursor.rest

def peek (cursor : Cursor) : Option UInt8 := cursor.rest.head?.map Symbol.byte

def next (cursor : Cursor) : Option UInt8 × Cursor :=
  (cursor.peek, { cursor with rest := cursor.rest.tail })

def drain (cursor : Cursor) : List UInt8 × Cursor :=
  (cursor.rest.map Symbol.byte, { cursor with rest := [] })

def unclosedComment (cursor : Cursor) : Unterminated :=
  ⟨.comment, .ofOffset cursor.source cursor.offset⟩

/-- The next byte outside comments. A comment that is never closed leaves nothing to read. -/
def nextUncommented (cursor : Cursor) : Except Unterminated (Option UInt8) × Cursor :=
  let found := Uncommented.next cursor.rest
  let result := match found with
    | .byte c _ => .ok (some c)
    | .finished => .ok none
    | .unclosedComment => .error cursor.unclosedComment
  (result, { cursor with rest := found.rest })

theorem length_rest_nextUncommented {cursor : Cursor} {c : UInt8}
    (h : cursor.nextUncommented.1 = .ok (some c)) :
    cursor.nextUncommented.2.rest.length < cursor.rest.length := by
  simp only [nextUncommented] at h ⊢
  cases hn : Uncommented.next cursor.rest with
  | byte d rest => exact Uncommented.length_lt_of_next hn
  | finished | unclosedComment => simp [hn] at h

def drainUncommentedOnto (done : Array UInt8) (cursor : Cursor) :
    Except Unterminated (List UInt8) × Cursor :=
  match _ : cursor.nextUncommented.1 with
  | .ok (some c) => drainUncommentedOnto (done.push c) cursor.nextUncommented.2
  | .ok none => (.ok done.toList, cursor.nextUncommented.2)
  | .error e => (.error e, cursor.nextUncommented.2)
termination_by cursor.rest.length
decreasing_by exact length_rest_nextUncommented (by assumption)

def drainUncommented (cursor : Cursor) : Except Unterminated (List UInt8) × Cursor :=
  drainUncommentedOnto #[] cursor

end Cursor

end ScriptMinifier
