import ScriptMinifier.Byte

namespace ScriptMinifier

open Byte

/-- One byte as it is read, together with the number of raw bytes it stands for. -/
structure Symbol where
  byte : UInt8
  width : Nat
deriving DecidableEq, Repr

namespace Symbol

def ofByte (c : UInt8) : Symbol := ⟨asRead c, 1⟩

def lineBreakPair : Symbol := ⟨newline, 2⟩

def readOnto (done : Array Symbol) : List UInt8 → Array Symbol
  | [] => done
  | [c] => done.push (ofByte c)
  | c :: d :: text =>
    if c = carriageReturn ∧ d = newline then readOnto (done.push lineBreakPair) text
    else readOnto (done.push (ofByte c)) (d :: text)

def ofText (text : List UInt8) : List Symbol := (readOnto #[] text).toList

theorem toList_readOnto (done : Array Symbol) (text : List UInt8) :
    (readOnto done text).toList = done.toList ++ ofText text := by
  suffices h : ∀ base : List Symbol, ∀ done' : Array Symbol, done.toList = base ++ done'.toList →
      (readOnto done text).toList = base ++ (readOnto done' text).toList from
    h done.toList #[] (by simp)
  intro base done' h
  fun_induction readOnto done text generalizing done' with
  | case1 => simpa [readOnto] using h
  | case2 => simp [readOnto, h]
  | case3 done c d text hcd ih =>
    rw [readOnto, if_pos hcd]
    exact ih _ (by simp [h])
  | case4 done c d text hcd ih =>
    rw [readOnto, if_neg hcd]
    exact ih _ (by simp [h])

@[simp] theorem ofText_nil : ofText [] = [] := rfl

theorem ofText_lineBreakPair (text : List UInt8) :
    ofText (carriageReturn :: newline :: text) = lineBreakPair :: ofText text := by
  rw [ofText, readOnto, if_pos ⟨rfl, rfl⟩, toList_readOnto]
  rfl

theorem ofText_cons {c : UInt8} {text : List UInt8}
    (h : ¬(c = carriageReturn ∧ text.head? = some newline)) :
    ofText (c :: text) = ofByte c :: ofText text := by
  cases text with
  | nil => rfl
  | cons d text =>
    rw [ofText, readOnto, if_neg (by simpa using h), toList_readOnto]
    rfl

def totalWidth (text : List Symbol) : Nat := text.foldr (fun σ n ↦ σ.width + n) 0

@[simp] theorem totalWidth_nil : totalWidth [] = 0 := rfl

@[simp] theorem totalWidth_cons (σ : Symbol) (text : List Symbol) :
    totalWidth (σ :: text) = σ.width + totalWidth text := rfl

@[simp] theorem totalWidth_append (text text' : List Symbol) :
    totalWidth (text ++ text') = totalWidth text + totalWidth text' := by
  induction text with
  | nil => exact (Nat.zero_add _).symm
  | cons σ text ih => rw [List.cons_append, totalWidth_cons, ih, totalWidth_cons, Nat.add_assoc]

end Symbol

end ScriptMinifier
