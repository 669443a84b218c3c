import Mathlib.Data.List.Basic
import Mathlib.Data.Rat.Defs
import Mathlib.Logic.Relation

/-! The equality of the evaluator on the representations of values. -/

namespace PVS.GroundEval

/-- Lisp values. Closures are numbered; of a `pvs-outer-array` there are the elements that
`pvs-outer-array-lookup` finds below its length, and of a hash table the entries. -/
inductive LispVal
  | symbol (name : String)
  | character (c : Char)
  | string (cs : List Char)
  | number (q : ℚ)
  | cons (car cdr : LispVal)
  | array (elements : List LispVal)
  | arrayClosure (size closure : ℕ)
  | outerArray (elements : List LispVal)
  | closureHash (hash : List (ℕ × LispVal)) (closure : ℕ)
  | function (closure : ℕ)
  | structure (cls : String) (slots : List LispVal)

/-- What closures return, and which objects are the same -/
structure LispState where
  call : ℕ → ℕ → Option LispVal
  eq : LispVal → LispVal → Bool
  eqHash : List (ℕ × LispVal) → List (ℕ × LispVal) → Bool
  eq_of_eq : ∀ {x y}, eq x y = true → x = y
  eq_of_eqHash : ∀ {h h'}, eqHash h h' = true → h = h'
  eq_symbol : ∀ name, eq (.symbol name) (.symbol name) = true

variable (S : LispState)

def gethash (k : ℕ) (hash : List (ℕ × LispVal)) : Option LispVal :=
  (hash.find? fun entry => entry.1 = k).map Prod.snd

/-- The element of an array, whatever its representation -/
def element (x : LispVal) (i : ℕ) : Option LispVal :=
  match x with
  | .array elements | .outerArray elements => elements[i]?
  | .string cs => (cs[i]?).map .character
  | .closureHash hash closure => (gethash i hash).or (S.call closure i)
  | .arrayClosure _ closure | .function closure => S.call closure i
  | _ => none

/-- `pvs-funcall`, which does not apply vectors -/
def pvsFuncall (x : LispVal) (i : ℕ) : Option LispVal :=
  match x with
  | .array _ => none
  | x => element S x i

def mkFunArray (closure size : ℕ) : Option (List LispVal) :=
  (List.range size).mapM (S.call closure)

/-- A loop that stops at the first elements that are not equal -/
def allEqual (equalp : LispVal → LispVal → Option Bool) (y : ℕ → Option LispVal) :
    ℕ → List LispVal → Option Bool
  | _, [] => some true
  | i, xi :: xs => do
    let yi ← y i
    if ← equalp xi yi then allEqual equalp y (i + 1) xs else some false

def entriesEqual (equalp : LispVal → LispVal → Option Bool) (hash : List (ℕ × LispVal)) :
    List (ℕ × LispVal) → Option Bool
  | [] => some true
  | (k, x) :: entries =>
    match gethash k hash with
    | none => some false
    | some y => do if ← equalp x y then entriesEqual equalp hash entries else some false

/-- The branch for hash tables -/
def hashEqual (equalp : LispVal → LispVal → Option Bool) (hash hash' : List (ℕ × LispVal)) :
    Option Bool :=
  if S.eqHash hash hash' then some true
  else if hash.length ≠ hash'.length then some false
  else entriesEqual equalp hash' hash

/-- `pvs_equalp`, where `none` is an error -/
def pvsEqualp : ℕ → LispVal → LispVal → Option Bool
  | 0, _, _ => none
  | fuel + 1, x, y =>
    if S.eq x y then some true
    else
      match x, y with
      | .symbol _, .symbol _ => some false
      | .symbol _, _ => none
      | .character c, .character c' => some (decide (c = c'))
      | .character _, _ => some false
      | .string cs, .string cs' => some (decide (cs = cs'))
      | .string _, _ => some false
      | .number q, .number q' => some (decide (q = q'))
      | .number _, _ => some false
      | .cons car cdr, .cons car' cdr' => do
        if ← pvsEqualp fuel car car' then pvsEqualp fuel cdr cdr' else some false
      | .cons .., _ => some false
      -- the sizes are compared with each other to no effect, and then as those of the vectors
      | .arrayClosure size closure, .arrayClosure size' closure' => do
        let elements ← mkFunArray S closure size
        let elements' ← mkFunArray S closure' size'
        pvsEqualp fuel (.array elements) (.array elements')
      | .arrayClosure .., _ => some false
      | .array xs, .array ys =>
        if xs.length = ys.length then allEqual (pvsEqualp fuel) (element S (.array ys)) 0 xs
        else some false
      | .array xs, .string cs =>
        if xs.length = cs.length then allEqual (pvsEqualp fuel) (element S (.string cs)) 0 xs
        else some false
      | .array xs, .outerArray ys =>
        allEqual (pvsEqualp fuel) (pvsFuncall S (.outerArray ys)) 0 xs
      | .array xs, .closureHash hash closure =>
        allEqual (pvsEqualp fuel) (pvsFuncall S (.closureHash hash closure)) 0 xs
      | .array xs, .function closure =>
        allEqual (pvsEqualp fuel) (pvsFuncall S (.function closure)) 0 xs
      | .array _, _ => none
      | .outerArray xs, .array ys => allEqual (pvsEqualp fuel) (pvsFuncall S (.array ys)) 0 xs
      | .outerArray xs, .string cs => allEqual (pvsEqualp fuel) (pvsFuncall S (.string cs)) 0 xs
      | .outerArray xs, .outerArray ys =>
        allEqual (pvsEqualp fuel) (pvsFuncall S (.outerArray ys)) 0 xs
      | .outerArray xs, .closureHash hash closure =>
        allEqual (pvsEqualp fuel) (pvsFuncall S (.closureHash hash closure)) 0 xs
      | .outerArray xs, .function closure =>
        allEqual (pvsEqualp fuel) (pvsFuncall S (.function closure)) 0 xs
      | .outerArray _, _ => none
      | .function closure, .array ys => pvsEqualp fuel (.array ys) (.function closure)
      | .function closure, .string cs => pvsEqualp fuel (.string cs) (.function closure)
      | .function closure, .outerArray ys => pvsEqualp fuel (.outerArray ys) (.function closure)
      | .function closure, .closureHash hash closure' =>
        pvsEqualp fuel (.closureHash hash closure') (.function closure)
      | .function _, _ => none
      | .closureHash hash closure, .closureHash hash' closure' => do
        if ← hashEqual S (pvsEqualp fuel) hash hash' then
          -- different closures are compared as functions
          if closure = closure' then some true else none
        else some false
      | .closureHash .., .outerArray _ | .closureHash .., .arrayClosure ..
      | .closureHash .., .structure .. => some false
      | .closureHash .., _ => none
      | .structure cls slots, .structure cls' slots' =>
        if cls = cls' then allEqual (pvsEqualp fuel) (element S (.array slots')) 0 slots
        else some false
      | .structure .., .outerArray _ | .structure .., .arrayClosure ..
      | .structure .., .closureHash .. => some false
      | .structure .., _ => none

/-! ### Values -/

/-- The values of PVS, where tuples, arrays and strings are sequences -/
inductive PvsVal
  | bool (b : Bool)
  | character (c : Char)
  | number (q : ℚ)
  | nil
  | cons (car cdr : PvsVal)
  | seq (elements : List PvsVal)
  | construct (constructor : String) (arguments : List PvsVal)

inductive PvsType
  | boolean
  | character
  | string
  | number
  | list (type : PvsType)
  | tuple (types : List PvsType)
  | array (size : ℕ) (type : PvsType)
  | datatype (name : String)

/-- The types of the arguments of the constructors of the datatypes -/
abbrev Datatypes := String → String → Option (List PvsType)

/-- The representations of an array of a size; a hash table has one entry for an index. -/
def IsArray (size : ℕ) : LispVal → Prop
  | .array elements | .outerArray elements => elements.length = size
  | .string cs => cs.length = size
  | .arrayClosure size' _ => size' = size
  | .closureHash hash _ => (hash.map Prod.fst).Nodup ∧ ∀ entry ∈ hash, entry.1 < size
  | .function _ => True
  | _ => False

/-- A Lisp value represents a value of a type. -/
inductive Denotes (D : Datatypes) : PvsType → LispVal → PvsVal → Prop
  | isTrue : Denotes D .boolean (.symbol "T") (.bool true)
  | isFalse : Denotes D .boolean (.symbol "NIL") (.bool false)
  | character {c : Char} : Denotes D .character (.character c) (.character c)
  | string {cs : List Char} : Denotes D .string (.string cs) (.seq (cs.map .character))
  | number {q : ℚ} : Denotes D .number (.number q) (.number q)
  | nil {T : PvsType} : Denotes D (.list T) (.symbol "NIL") .nil
  | cons {T : PvsType} {x y : LispVal} {p q : PvsVal} (hcar : Denotes D T x p)
    (hcdr : Denotes D (.list T) y q) : Denotes D (.list T) (.cons x y) (.cons p q)
  | tuple {types : List PvsType} {xs : List LispVal} {ps : List PvsVal}
    (hxs : xs.length = types.length) (hps : ps.length = types.length)
    (h : ∀ (i : ℕ) T x p, types[i]? = some T → xs[i]? = some x → ps[i]? = some p →
      Denotes D T x p) :
    Denotes D (.tuple types) (.array xs) (.seq ps)
  | array {T : PvsType} {x : LispVal} {ps : List PvsVal} (hx : IsArray ps.length x)
    (hsome : ∀ i < ps.length, (element S x i).isSome = true)
    (h : ∀ (i : ℕ) u p, element S x i = some u → ps[i]? = some p → Denotes D T u p) :
    Denotes D (.array ps.length T) x (.seq ps)
  | datatype {name cls : String} {types : List PvsType} {xs : List LispVal} {ps : List PvsVal}
    (hcls : D name cls = some types) (hxs : xs.length = types.length)
    (hps : ps.length = types.length)
    (h : ∀ (i : ℕ) T x p, types[i]? = some T → xs[i]? = some x → ps[i]? = some p →
      Denotes D T x p) :
    Denotes D (.datatype name) (.structure cls xs) (.construct cls ps)

/-! ### Forms -/

/-- Two representations that the function compares by what they represent: a string and an array
closure with their like, and hash tables with those of the same indices. -/
def SameForm : LispVal → LispVal → Prop
  | .string _, y => ∃ cs, y = .string cs
  | .arrayClosure .., y => ∃ size closure, y = .arrayClosure size closure
  | .closureHash hash _, .closureHash hash' _ =>
    hash.length = hash'.length ∧ ∀ entry ∈ hash, (gethash entry.1 hash').isSome = true
  | .closureHash .., .outerArray _ | .closureHash .., .arrayClosure .. => False
  | .function _, .string _ => False
  | _, _ => True

/-- The components that are compared, in their order; a function stands on the right. -/
inductive Part : LispVal → LispVal → LispVal → LispVal → Prop
  | car {x x' y y' : LispVal} : Part (.cons x y) (.cons x' y') x x'
  | cdr {x x' y y' : LispVal} : Part (.cons x y) (.cons x' y') y y'
  | slot {cls : String} {xs ys : List LispVal} {i : ℕ} {u v : LispVal}
    (hu : xs[i]? = some u) (hv : ys[i]? = some v) : Part (.structure cls xs) (.structure cls ys) u v
  | element {xs : List LispVal} {y u v : LispVal} {i : ℕ} (hu : xs[i]? = some u)
    (hv : element S y i = some v) : Part (.array xs) y u v
  | version {xs : List LispVal} {y u v : LispVal} {i : ℕ} (hu : xs[i]? = some u)
    (hv : element S y i = some v) : Part (.outerArray xs) y u v
  | closure {size closure size' closure' i : ℕ} {u v : LispVal} (hi : i < size)
    (hi' : i < size') (hu : S.call closure i = some u) (hv : S.call closure' i = some v) :
    Part (.arrayClosure size closure) (.arrayClosure size' closure') u v
  | entry {hash hash' : List (ℕ × LispVal)} {closure closure' k : ℕ} {u v : LispVal}
    (hu : (k, u) ∈ hash) (hv : gethash k hash' = some v) :
    Part (.closureHash hash closure) (.closureHash hash' closure') u v
  | flipped {closure : ℕ} {y u v : LispVal} (h : Part y (.function closure) u v) :
    Part (.function closure) y u v

/-- All components that are compared, of any depth, have the same form. -/
def SameForms (x y : LispVal) : Prop :=
  ∀ u v, Relation.ReflTransGen (fun a b => Part S a.1 a.2 b.1 b.2) (x, y) (u, v) → SameForm u v

end PVS.GroundEval
