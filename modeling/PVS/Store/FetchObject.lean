import PVS.Store.StoreObject

/-! Fetching an object from words. -/

namespace PVS.Store

/-- `*fetch-object-case-ok?*` -/
inductive CaseOk
  | unknown
  | ok
  | upper
  deriving DecidableEq

/-- `convert-fetched-string-to-uppercase` -/
def convertFetchedStringToUppercase : (inVertbars : Bool) → List Char → List Char
  | _, [] => []
  | inVertbars, ch :: str =>
    if ch = '|' then ch :: convertFetchedStringToUppercase (!inVertbars) str
    else if inVertbars then ch :: convertFetchedStringToUppercase inVertbars str
    else ch.toUpper :: convertFetchedStringToUppercase inVertbars str

/-! ### Words -/

section Words

variable (words : List ℕ)

/-- `fetch-temp-string` -/
def fetchTempString (ptr offset : ℕ) : Option (List Char) := do
  let len ← words[ptr + offset]?
  (List.range len).mapM fun i => words[ptr + offset + 1 + i]?.map Char.ofNat

end Words

/-! ### Objects -/

/-- The table has what was fetched, by address; the objects that are still to be filled in are on a
stack of two arrays. -/
structure FetchState where
  table : List (Option Value)
  updateObj : List Value
  updateObjSize : ℕ
  updatePtr : List ℕ
  updatePtrSize : ℕ
  updateEnd : ℕ
  caseOk : CaseOk
  heap : Heap

/-- The tail after `k` elements of a fresh list of `n` elements. -/
def listTail (l : Lisp) (j n k : ℕ) : Value := if k < n then .ref (j + k) else .symbol l.nil

namespace FetchState

variable (l : Lisp) (s : FetchState)

def allocate (node : Node) : Value × FetchState :=
  (.ref s.heap.length, { s with heap := s.heap ++ [node] })

/-- `make-list` -/
def makeList (n : ℕ) : Value × FetchState :=
  (listTail l s.heap.length n 0, { s with
    heap := s.heap ++ (List.range n).map fun k =>
      .cons (.symbol l.nil) (listTail l s.heap.length n (k + 1)) })

/-- What a number is read as. -/
def makeRational (q : ℚ) : Value × FetchState :=
  if hden : q.den = 1 then
    if hnum : IsFixnum q.num then (.fixnum ⟨q.num, hnum⟩, s) else s.allocate (.bignum ⟨q.num, hnum⟩)
  else s.allocate (.ratio ⟨q, hden⟩)

def queueUpdateFetched (obj : Value) (ptr : ℕ) : Option FetchState := do
  let objs := ensureVectorSize (.symbol l.nil) s.updateObj s.updateObjSize (s.updateEnd + 1)
  let ptrs := ensureVectorSize 0 s.updatePtr s.updatePtrSize (s.updateEnd + 1)
  let updateObj ← setElement objs.1 s.updateEnd obj
  let updatePtr ← setElement ptrs.1 s.updateEnd ptr
  some { s with
    updateObj := updateObj, updateObjSize := objs.2, updatePtr := updatePtr, updatePtrSize := ptrs.2
    updateEnd := s.updateEnd + 1 }

def setTable (ptr : ℕ) (v : Value) : Option FetchState := do
  let table ← setElement s.table ptr (some v)
  some { s with table := table }

/-- The end of `fetch-obj`. -/
def register (registered : Bool) (val : Value) (ptr : ℕ) : Option (Value × FetchState) := do
  let s ← if registered then s.queueUpdateFetched l val ptr else some s
  let s ← s.setTable ptr val
  some (val, s)

end FetchState

section Fetch

variable (l : Lisp) (words : List ℕ)

def zero : Value := .fixnum ⟨0, by decide⟩

def fetchSymbol (ptr : ℕ) (s : FetchState) : Option (Value × FetchState) := do
  let str ← fetchTempString words ptr 1
  let caseOk :=
    if s.caseOk = .unknown then
      if str.all fun ch => !ch.isAlpha || ch.isLower then .upper else .ok
    else s.caseOk
  let name := if caseOk = .upper then convertFetchedStringToUppercase false str else str
  some (.symbol (l.intern name), { s with caseOk := caseOk })

/-- The functions under `fetcher`; the flag is `*registered-for-updating*`. -/
def callFetcher (fetchObj : ℕ → FetchState → Option (Value × FetchState)) (f : Fetcher) (ptr : ℕ)
    (s : FetchState) : Option (Bool × Value × FetchState) :=
  match f with
  | .string => do
    let str ← fetchTempString words ptr 1
    some (false, s.allocate (.string str))
  | .integer => do
    let str ← fetchTempString words ptr 1
    let z ← parseInteger str
    some (false, s.makeRational z)
  | .rational => do
    let str ← fetchTempString words ptr 1
    let q ← parseRational str
    some (false, s.makeRational q)
  | .list => do
    let n ← words[ptr + 1]?
    some (true, s.makeList l n)
  | .cons => some (true, s.allocate (.cons zero zero))
  | .package => do
    let name ← fetchTempString words ptr 1
    some (false, .package name, s)
  | .packagedSymbol => do
    let w ← words[ptr + 1]?
    let (package, s) ← fetchObj w s
    let name ← fetchTempString words ptr 2
    match package with
    | .package p => some (false, .symbol ⟨p, name⟩, s)
    | _ => if package = .symbol l.nil then some (false, .symbol (l.intern name), s) else none
  | .hashTable => some (true, s.allocate (.hashTable .eq []))

/-- `fetch-obj`; none also if the types are nested deeper than `fuel`. -/
def fetchObj : (fuel : ℕ) → ℕ → FetchState → Option (Value × FetchState)
  | 0, _, _ => none
  | fuel + 1, ptr, s => do
    let cachedVal ← s.table[ptr]?
    match cachedVal with
    | some val => some (val, s)
    | none =>
      let w ← words[ptr]?
      let (registered, val, s) ←
        if w = 0 then (fetchSymbol l words ptr s).map (false, ·)
        else do
          let (type, s) ← fetchObj fuel w s
          match type with
          | .symbol type =>
            match l.fetcher type with
            | some f => callFetcher l words (fetchObj fuel) f ptr s
            | none => do
              let n ← l.slots type
              some (true, s.allocate (.instance type (List.replicate n (.symbol l.nil))))
          | _ => none
      s.register l registered val ptr

/-! ### Updates -/

/-- The cell of `nth`. -/
def nthCell (h : Heap) : ℕ → Value → Option ℕ
  | 0, .ref i => some i
  | n + 1, .ref i =>
    match h[i]? with
    | some (.cons _ cdr) => nthCell h n cdr
    | _ => none
  | _, _ => none

def setCar (v : Value) (i : ℕ) (s : FetchState) : Option FetchState :=
  match s.heap[i]? with
  | some (.cons _ cdr) => some { s with heap := s.heap.set i (.cons v cdr) }
  | _ => none

def setCdr (v : Value) (i : ℕ) (s : FetchState) : Option FetchState :=
  match s.heap[i]? with
  | some (.cons car _) => some { s with heap := s.heap.set i (.cons car v) }
  | _ => none

/-- `setf` of `gethash`, in a table whose test is `eq`. -/
def putEntry (key val : Value) : List (Value × Value) → List (Value × Value)
  | [] => [(key, val)]
  | ent :: entries => if ent.1 = key then (key, val) :: entries else ent :: putEntry key val entries

def setEntry (key val : Value) (i : ℕ) (s : FetchState) : Option FetchState :=
  match s.heap[i]? with
  | some (.hashTable test entries) =>
    some { s with heap := s.heap.set i (.hashTable test (putEntry key val entries)) }
  | _ => none

def setSlot (v : Value) (k i : ℕ) (s : FetchState) : Option FetchState :=
  match s.heap[i]? with
  | some (.instance type slots) => some { s with heap := s.heap.set i (.instance type (slots.set k v)) }
  | _ => none

/-- `dotimes` -/
def dotimes (body : ℕ → FetchState → Option FetchState) : ℕ → FetchState → Option FetchState
  | 0, s => some s
  | n + 1, s => do
    let s ← dotimes body n s
    body n s

def updateFetched (fuel : ℕ) (obj : Value) (ptr : ℕ) (s : FetchState) : Option FetchState :=
  let fetch (offset : ℕ) (s : FetchState) : Option (Value × FetchState) := do
    let w ← words[ptr + offset]?
    fetchObj l words fuel w s
  match obj with
  | .ref i =>
    match s.heap[i]? with
    | some (.cons car cdr) =>
      if car = zero ∧ cdr = zero then do
        let (car, s) ← fetch 1 s
        let s ← setCar car i s
        let (cdr, s) ← fetch 2 s
        setCdr cdr i s
      else do
        let size ← words[ptr + 1]?
        dotimes (fun k s => do
          let (v, s) ← fetch (k + 2) s
          let cell ← nthCell s.heap k obj
          setCar v cell s) size s
    | some (.hashTable _ _) => do
      let size ← words[ptr + 1]?
      dotimes (fun k s => do
        let (key, s) ← fetch (2 * (k + 1)) s
        let (val, s) ← fetch (1 + 2 * (k + 1)) s
        setEntry key val i s) size s
    | some (.instance _ slots) =>
      dotimes (fun k s => do
        let (v, s) ← fetch (k + 1) s
        setSlot v k i s) slots.length s
    | _ => none
  | _ => none

/-- The loop of `fetch-object`, for `rounds` rounds. -/
def updateLoop (fuel : ℕ) : (rounds : ℕ) → FetchState → Option FetchState
  | 0, s => if s.updateEnd = 0 then some s else none
  | rounds + 1, s =>
    if s.updateEnd = 0 then some s
    else do
      let s := { s with updateEnd := s.updateEnd - 1 }
      let ptr ← s.updatePtr[s.updateEnd]?
      let obj ← s.updateObj[s.updateEnd]?
      let s ← updateFetched l words fuel obj ptr s
      updateLoop fuel rounds s

/-- `fetch-object`: the object, and the heap with all that was fetched. -/
def fetchObject (fuel rounds start : ℕ) : Option (Value × Heap) := do
  let size ← words[start]?
  let table := ensureVectorSize none (List.replicate 10000 none) 10000 size
  let s : FetchState := ⟨table.1, List.replicate 1000 (.symbol l.nil), 1000, List.replicate 10000 0, 1000, 0,
    .unknown, []⟩
  let (obj, s) ← fetchObj l words fuel (start + 1) s
  let s ← updateLoop l words fuel rounds s
  some (obj, s.heap)

end Fetch

/-! ### Files -/

/-- `reverse-endian` -/
def reverseEndian (i : ℕ) : ℕ :=
  16777216 * (i % 256) + 65536 * (i / 256 % 256) + 256 * (i / 65536 % 256) + i / 16777216 % 256

/-- `fetch-object-from-file`, where the file is a list of words. -/
def fetchObjectFromFile (l : Lisp) (fuel rounds : ℕ) (file : List ℕ) : Option (Value × Heap) := do
  let first ← file[0]?
  let second ← file[1]?
  let reversed := first ≠ 1 ∧ reverseEndian first = 1
  let size := if first = 1 then second else if reversed then reverseEndian second else first
  if size ≠ file.length then none
  else
    let words := if reversed then file.map reverseEndian else file
    let first ← words[0]?
    fetchObject l words fuel rounds (if first = 1 ∨ reverseEndian first = 1 then 1 else 0)

end PVS.Store
