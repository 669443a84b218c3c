import PVS.Store.Object
import Mathlib.Logic.Function.Basic

/-! Storing an object as words. -/

namespace PVS.Store

/-! ### Buffers -/

/-- `ensure-vector-size`; the size is kept beside the array. -/
def ensureVectorSize {α : Type} (initial : α) (array : List α) (currentSize size : ℕ) : List α × ℕ :=
  if currentSize < size then
    let newSize := max ((12 * currentSize + 9) / 10) size
    let copied := array.take currentSize
    (copied ++ List.replicate (newSize - copied.length) initial, newSize)
  else (array, currentSize)

/-- `setf` of an element; none is an index out of bounds. -/
def setElement {α : Type} (array : List α) (i : ℕ) (x : α) : Option (List α) :=
  if i < array.length then some (array.set i x) else none

/-! ### Methods -/

/-- What `push-word` is given. -/
inductive Push
  | word (w : ℕ)
  | object (v : Value)

/-- A body of `reserve-space`. -/
structure Reservation where
  amount : ℕ
  pushes : List Push

def pushStringLength (str : List Char) : ℕ := 1 + str.length

def pushString (str : List Char) : List Push :=
  .word str.length :: str.map fun ch => .word ch.toNat

def storeInstance (type : Symbol) (slots : List Value) : Reservation :=
  ⟨1 + slots.length, .object (.symbol type) :: slots.map .object⟩

namespace Lisp

variable (l : Lisp) (h : Heap)

/-- The symbol that names a type. -/
def type (f : Fetcher) : Value := .symbol (l.intern f.name)

def storeSymbol (s : Symbol) : Reservation :=
  if s = l.intern s.name then ⟨1 + pushStringLength s.name, .word 0 :: pushString s.name⟩
  else ⟨2 + pushStringLength s.name,
    .object (l.type .packagedSymbol) :: .object (.package s.package) :: pushString s.name⟩

/-- The methods for strings, integers, rationals and packages. -/
def storeText (f : Fetcher) (str : List Char) : Reservation :=
  ⟨1 + pushStringLength str, .object (l.type f) :: pushString str⟩

def storeString (chars : List Char) : Reservation := l.storeText .string chars

def storeInteger (z : ℤ) : Reservation := l.storeText .integer (formatInteger z)

def storeRational (q : ℚ) : Reservation := l.storeText .rational (formatRational q)

def storePackage (p : Package) : Reservation := l.storeText .package p

def storeList (elements : List Value) : Reservation :=
  ⟨elements.length + 2,
    .object (l.type .list) :: .word elements.length :: elements.map .object⟩

def storeCons (car cdr : Value) : Reservation :=
  ⟨3, [.object (l.type .cons), .object car, .object cdr]⟩

/-- The entries come in the other order. -/
def storeHashTable (entries : List (Value × Value)) : Reservation :=
  ⟨2 + 2 * entries.reverse.length,
    .object (l.type .hashTable) :: .word entries.reverse.length ::
      entries.reverse.flatMap fun ent => [.object ent.1, .object ent.2]⟩

/-- `store-object*`; none if a chain of cdrs does not end. -/
def storeObjectStar : Value → Option Reservation
  | .symbol s => some (l.storeSymbol s)
  | .package p => some (l.storePackage p)
  | .fixnum z => some (l.storeInteger z)
  | .ref i =>
    match h[i]? with
    | some (.string chars) => some (l.storeString chars)
    | some (.bignum z) => some (l.storeInteger z)
    | some (.ratio q) => some (l.storeRational q)
    | some (.cons car cdr) =>
      match l.trueList h (h.length + 1) (.ref i) with
      | some (some elements) => some (l.storeList elements)
      | some none => some (l.storeCons car cdr)
      | none => none
    | some (.hashTable _ entries) => some (l.storeHashTable entries)
    | some (.instance type slots) => some (storeInstance type slots)
    | none => none

end Lisp

/-! ### Storing -/

structure StoreState where
  store : List ℕ
  storeSize : ℕ
  hash : Value → Option ℕ
  ptr : ℕ

/-- `reserve-space`, up to its body. -/
def StoreState.reserveSpace (s : StoreState) (amount : ℕ) : StoreState :=
  let buffer := ensureVectorSize 0 s.store s.storeSize (s.ptr + amount)
  { s with store := buffer.1, storeSize := buffer.2, ptr := s.ptr + amount }

/-- The words of a body of `reserve-space`, from `reservePtr` on. -/
def pushWords (storeObj : Value → StoreState → Option (ℕ × StoreState)) :
    List Push → (reservePtr : ℕ) → StoreState → Option StoreState
  | [], _, s => some s
  | .word w :: pushes, reservePtr, s =>
    match setElement s.store reservePtr w with
    | some store => pushWords storeObj pushes (reservePtr + 1) { s with store := store }
    | none => none
  | .object v :: pushes, reservePtr, s =>
    match storeObj v s with
    | some (w, s) =>
      match setElement s.store reservePtr w with
      | some store => pushWords storeObj pushes (reservePtr + 1) { s with store := store }
      | none => none
    | none => none

/-- `store-obj`; none also if the nesting is deeper than `fuel`. -/
def storeObj (l : Lisp) (h : Heap) : (fuel : ℕ) → Value → StoreState → Option (ℕ × StoreState)
  | 0, _, _ => none
  | fuel + 1, v, s =>
    match s.hash v with
    | some ptr => some (ptr, s)
    | none =>
      match l.storeObjectStar h v with
      | some reservation =>
        let s' := { s with hash := Function.update s.hash v (some s.ptr) }.reserveSpace
          reservation.amount
        (pushWords (storeObj l h fuel) reservation.pushes s.ptr s').map (s.ptr, ·)
      | none => none

/-- `store-object`: the words that are in use in the end. -/
def storeObject (l : Lisp) (h : Heap) (fuel : ℕ) (obj : Value) : Option (List ℕ) :=
  match storeObj l h fuel obj ⟨List.replicate 10000 0, 10000, fun _ => none, 2⟩ with
  | some (_, s) => some (((s.store.set 0 1).set 1 s.ptr).take s.ptr)
  | none => none

end PVS.Store
