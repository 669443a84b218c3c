import Mathlib.Data.List.Basic
import Mathlib.Logic.Function.Basic
import Mathlib.Order.Nat

/-! The nondestructive arrays of `eval-macros.lisp`: versions share an inner array and are told apart
by an offset into its list of displaced values. -/

namespace PVS.GroundEval

/-- Lisp values; `none` is `NIL`, which is also the value `FALSE`. -/
abbrev LispValue (α : Type) := Option α

/-- An association list from indices to values. -/
abbrev Diffs (α : Type) := List (ℕ × LispValue α)

structure PvsArray (α : Type) where
  contents : List (LispValue α)
  diffs : Diffs α
  size : ℕ

structure PvsOuterArray (α : Type) where
  innerArray : ℕ
  offset : ℕ
  diffs : Diffs α
  size : ℕ

/-- The structures made so far, under their addresses. -/
structure ArrayHeap (α : Type) where
  inner : ℕ → PvsArray α
  outer : ℕ → PvsOuterArray α
  innerNext : ℕ
  outerNext : ℕ

/-- What an update is applied to: a vector, or an outer array. -/
inductive ArrayObj (α : Type)
  | vector (l : List (LispValue α))
  | outer (k : ℕ)

variable {α : Type}

namespace ArrayHeap

def setInner (h : ArrayHeap α) (j : ℕ) (a : PvsArray α) : ArrayHeap α :=
  { h with inner := Function.update h.inner j a }

def setOuter (h : ArrayHeap α) (k : ℕ) (r : PvsOuterArray α) : ArrayHeap α :=
  { h with outer := Function.update h.outer k r }

def makeInner (h : ArrayHeap α) (a : PvsArray α) : ArrayHeap α :=
  { h.setInner h.innerNext a with innerNext := h.innerNext + 1 }

def makeOuter (h : ArrayHeap α) (r : PvsOuterArray α) : ArrayHeap α :=
  { h.setOuter h.outerNext r with outerNext := h.outerNext + 1 }

end ArrayHeap

open ArrayHeap

def aref (l : List (LispValue α)) (i : ℕ) : LispValue α := l[i]?.getD none

def insertArrayDiffs : Diffs α → List (LispValue α) → List (LispValue α)
  | [], array => array
  | (i, v) :: diffs, array => (insertArrayDiffs diffs array).set i v

/-- The loop over `inner-diffs` from `offset + 1` to `inner-size`; the latest displaced value comes
first. -/
def restoreInner : Diffs α → ℕ → List (LispValue α) → List (LispValue α)
  | (i, v) :: diffs, n + 1, array => restoreInner diffs n (array.set i v)
  | _, _, array => array

/-- The copy that is changed; for a vector a new inner array is made, too. -/
def copyPvsOuterArray (h : ArrayHeap α) : ArrayObj α → ArrayHeap α
  | .outer k => h.makeOuter (h.outer k)
  | .vector l =>
    (h.makeInner ⟨l, [], 0⟩).makeOuter ⟨h.innerNext, 0, [], 0⟩

variable (exceeds : ℕ → ℕ → Bool) (number : ℕ → LispValue α)

/-- When the diffs exceed the size limit, the argument `k` gets an inner array of its own. -/
def rebuild (h : ArrayHeap α) (k : ℕ) (diffs : Diffs α) (offset : ℕ) (a : PvsArray α) :
    ArrayHeap α :=
  let newarray := insertArrayDiffs diffs (restoreInner a.diffs (a.size - offset) a.contents)
  (h.makeInner ⟨newarray, [], 0⟩).setOuter k ⟨h.innerNext, 0, [], 0⟩

/-- `exceeds n m` compares `n` with the square root of `m`, and `number` gives the Lisp value of an
index. An index beyond the fill pointer makes a hash table, which is left out. -/
def pvsOuterArrayUpdate (h₀ : ArrayHeap α) (obj : ArrayObj α) (i : ℕ) (v : LispValue α) :
    Option (ArrayHeap α × ArrayObj α) :=
  let h := copyPvsOuterArray h₀ obj
  let x := h₀.outerNext
  let r := h.outer x
  let a := h.inner r.innerArray
  if r.offset = a.size ∧ i ≤ a.contents.length then
    -- `(assert (not diffs))`
    if r.diffs.isEmpty then
      let contents := if i = a.contents.length then a.contents ++ [number i] else a.contents
      let a' := ⟨contents.set i v, (i, aref contents i) :: a.diffs, a.size + 1⟩
      some ((h.setInner r.innerArray a').setOuter x { r with offset := a.size + 1 }, .outer x)
    else none
  else if a.contents.length < i then none
  else
    let h := h.setOuter x { r with diffs := (i, v) :: r.diffs, size := r.size + 1 }
    match obj with
    | .outer k =>
      if exceeds (a.size + r.size) a.contents.length then
        some (rebuild h k r.diffs r.offset a, .outer x)
      else some (h, .outer x)
    | .vector _ => some (h, .outer x)

/-- The earliest entry of `index` among the first `count` ones, which are the latest. -/
def assocLast (index : ℕ) : Diffs α → ℕ → Option (LispValue α)
  | (i, v) :: diffs, count + 1 =>
    match assocLast index diffs count with
    | some w => some w
    | none => if index = i then some v else none
  | _, _ => none

/-- The alternatives of the `or` are passed over when they are `NIL`. -/
def pvsOuterArrayLookup (h : ArrayHeap α) (k index : ℕ) : LispValue α :=
  let r := h.outer k
  let a := h.inner r.innerArray
  (if r.diffs.isEmpty ∧ a.diffs.isEmpty then aref a.contents index else none) <|>
    (r.diffs.lookup index).join <|>
    (assocLast index a.diffs (a.size - r.offset)).join <|>
    aref a.contents index

def arrayLookup (h : ArrayHeap α) (index : ℕ) : ArrayObj α → LispValue α
  | .vector l => aref l index
  | .outer k => pvsOuterArrayLookup h k index

/-! ### The value of a version -/

/-- The value of a version by the comment: its outer diff, else the earliest value displaced after
its offset, else the contents. -/
def versionValue (h : ArrayHeap α) (k index : ℕ) : LispValue α :=
  let r := h.outer k
  let a := h.inner r.innerArray
  (r.diffs.lookup index).getD
    ((assocLast index a.diffs (a.size - r.offset)).getD (aref a.contents index))

/-- An update makes version `k` of length `n` here. -/
structure WFVersion (h : ArrayHeap α) (n k : ℕ) : Prop where
  inner_lt : (h.outer k).innerArray < h.innerNext
  offset_le : (h.outer k).offset ≤ (h.inner (h.outer k).innerArray).size
  length_eq : (h.inner (h.outer k).innerArray).contents.length = n
  main : (h.outer k).offset = (h.inner (h.outer k).innerArray).size → (h.outer k).diffs = []

def WFHeap (h : ArrayHeap α) (n : ℕ) : Prop := ∀ k < h.outerNext, WFVersion h n k

theorem aref_set {l : List (LispValue α)} {j : ℕ} (h : j < l.length) (i : ℕ) (v : LispValue α) :
    aref (l.set i v) j = if j = i then v else aref l j := by
  unfold aref
  by_cases e : j = i
  · subst e
    simp [h]
  · simp [List.getElem?_set_ne (Ne.symm e), e]

@[simp] theorem length_insertArrayDiffs (d : Diffs α) (l : List (LispValue α)) :
    (insertArrayDiffs d l).length = l.length := by
  induction d with
  | nil => rfl
  | cons p d ih => simp [insertArrayDiffs, ih]

theorem aref_insertArrayDiffs (d : Diffs α) {l : List (LispValue α)} {i : ℕ} (h : i < l.length) :
    aref (insertArrayDiffs d l) i = (d.lookup i).getD (aref l i) := by
  induction d with
  | nil => rfl
  | cons p d ih =>
    rw [insertArrayDiffs, aref_set (by simpa using h), ih, List.lookup_cons]
    by_cases e : i = p.1
    · simp [e]
    · simp [e, beq_eq_false_iff_ne.2 e]

@[simp] theorem length_restoreInner (d : Diffs α) (n : ℕ) (l : List (LispValue α)) :
    (restoreInner d n l).length = l.length := by
  induction d generalizing n l with
  | nil => cases n <;> rfl
  | cons p d ih =>
    cases n with
    | zero => rfl
    | succ n => simp [restoreInner, ih]

/-- The loop undoes the latest displacement first, so the earliest one stays. -/
theorem aref_restoreInner (d : Diffs α) (n : ℕ) {l : List (LispValue α)} {i : ℕ}
    (h : i < l.length) :
    aref (restoreInner d n l) i = (assocLast i d n).getD (aref l i) := by
  induction d generalizing n l with
  | nil => cases n <;> rfl
  | cons p d ih =>
    cases n with
    | zero => rfl
    | succ n =>
      rw [restoreInner, ih n (by simpa using h), aref_set h, assocLast]
      cases assocLast i d n with
      | some w => rfl
      | none => split <;> rfl

/-! ### One update -/

section Update

variable {h : ArrayHeap α} {n k x : ℕ}

theorem WFVersion.congr {h h' : ArrayHeap α} (hk : WFVersion h n k) (ho : h'.outer k = h.outer k)
    (hi : h'.inner (h.outer k).innerArray = h.inner (h.outer k).innerArray)
    (hn : h.innerNext ≤ h'.innerNext) : WFVersion h' n k := by
  refine ⟨?_, ?_, ?_, ?_⟩ <;> rw [ho]
  · exact hk.inner_lt.trans_le hn
  · rw [hi]
    exact hk.offset_le
  · rw [hi]
    exact hk.length_eq
  · rw [hi]
    exact hk.main

theorem versionValue_congr {h h' : ArrayHeap α} (ho : h'.outer k = h.outer k)
    (hi : h'.inner (h.outer k).innerArray = h.inner (h.outer k).innerArray) (j : ℕ) :
    versionValue h' k j = versionValue h k j := by
  simp only [versionValue, ho, hi]

/-- The main branch: the displaced value is pushed, and only the version that writes moves on. -/
def writeMain (h : ArrayHeap α) (x i : ℕ) (v : LispValue α) : ArrayHeap α :=
  let r := h.outer x
  let a := h.inner r.innerArray
  (h.setInner r.innerArray ⟨a.contents.set i v, (i, aref a.contents i) :: a.diffs, a.size + 1⟩).setOuter
    x { r with offset := a.size + 1 }

theorem assocLast_cons (j i : ℕ) (w : LispValue α) (d : Diffs α) (c : ℕ) :
    (assocLast j ((i, w) :: d) (c + 1)) = (assocLast j d c).or (if j = i then some w else none) := by
  rw [assocLast]
  cases assocLast j d c <;> rfl

theorem versionValue_writeMain_of_ne (hk : WFVersion h n k) (hx : WFVersion h n x) (hne : k ≠ x)
    {i j : ℕ} (hj : j < n) (v : LispValue α) :
    versionValue (writeMain h x i v) k j = versionValue h k j := by
  by_cases e : (h.outer k).innerArray = (h.outer x).innerArray
  · have hsub : (h.inner (h.outer x).innerArray).size + 1 - (h.outer k).offset =
        (h.inner (h.outer x).innerArray).size - (h.outer k).offset + 1 := by
      have := hk.offset_le
      rw [e] at this
      omega
    have hl : j < (h.inner (h.outer x).innerArray).contents.length := by rwa [hx.length_eq]
    simp only [versionValue, writeMain, setOuter, setInner, Function.update_of_ne hne, e,
      Function.update_self, hsub, assocLast_cons, aref_set hl]
    cases assocLast j (h.inner (h.outer x).innerArray).diffs
        ((h.inner (h.outer x).innerArray).size - (h.outer k).offset) with
    | some w => rfl
    | none =>
      by_cases eji : j = i
      · subst eji
        simp
      · simp [eji]
  · apply versionValue_congr
    · simp [writeMain, setOuter, setInner, hne]
    · simp [writeMain, setOuter, setInner, e]

theorem versionValue_writeMain_self (hx : WFVersion h n x)
    (hm : (h.outer x).offset = (h.inner (h.outer x).innerArray).size) {i j : ℕ} (hj : j < n)
    (v : LispValue α) :
    versionValue (writeMain h x i v) x j = if j = i then v else versionValue h x j := by
  have hl : j < (h.inner (h.outer x).innerArray).contents.length := by rwa [hx.length_eq]
  have h0 : ∀ d : Diffs α, assocLast j d 0 = none := by
    intro d
    cases d <;> rfl
  simp [versionValue, writeMain, setOuter, setInner, hx.main hm, hm, h0, aref_set hl]

theorem WFVersion.writeMain (hk : WFVersion h n k) (hx : WFVersion h n x)
    (hm : (h.outer x).offset = (h.inner (h.outer x).innerArray).size) (i : ℕ) (v : LispValue α) :
    WFVersion (writeMain h x i v) n k := by
  by_cases hne : k = x
  · subst hne
    refine ⟨?_, ?_, ?_, ?_⟩
    · simpa [GroundEval.writeMain, setOuter, setInner] using hk.inner_lt
    · simp [GroundEval.writeMain, setOuter, setInner]
    · simpa [GroundEval.writeMain, setOuter, setInner] using hk.length_eq
    · simpa [GroundEval.writeMain, setOuter, setInner] using hk.main hm
  · by_cases e : (h.outer k).innerArray = (h.outer x).innerArray
    · have hle := hk.offset_le
      rw [e] at hle
      refine ⟨?_, ?_, ?_, ?_⟩
      · simpa [GroundEval.writeMain, setOuter, setInner, hne] using hk.inner_lt
      · simp only [GroundEval.writeMain, setOuter, setInner, Function.update_of_ne hne, e, Function.update_self]
        omega
      · simpa [GroundEval.writeMain, setOuter, setInner, hne, e] using hx.length_eq
      · simp only [GroundEval.writeMain, setOuter, setInner, Function.update_of_ne hne, e, Function.update_self]
        omega
    · apply hk.congr
      · simp [GroundEval.writeMain, setOuter, setInner, hne]
      · simp [GroundEval.writeMain, setOuter, setInner, e]
      · exact le_rfl

/-- A secondary branch: the new value is an outer diff. -/
def pushDiff (h : ArrayHeap α) (x i : ℕ) (v : LispValue α) : ArrayHeap α :=
  let r := h.outer x
  h.setOuter x { r with diffs := (i, v) :: r.diffs, size := r.size + 1 }

theorem versionValue_pushDiff (h : ArrayHeap α) (x i : ℕ) (v : LispValue α) (k j : ℕ) :
    versionValue (pushDiff h x i v) k j =
      if k = x ∧ j = i then v else versionValue h k j := by
  by_cases hk : k = x
  · subst hk
    by_cases hj : j = i
    · simp [versionValue, pushDiff, setOuter, hj]
    · simp [versionValue, pushDiff, setOuter, hj, List.lookup_cons, beq_eq_false_iff_ne.2 hj]
  · simp [versionValue, pushDiff, setOuter, hk]

theorem WFVersion.pushDiff (hk : WFVersion h n k)
    (hm : (h.outer x).offset ≠ (h.inner (h.outer x).innerArray).size) (i : ℕ) (v : LispValue α) :
    WFVersion (pushDiff h x i v) n k := by
  by_cases hne : k = x
  · subst hne
    refine ⟨?_, ?_, ?_, ?_⟩
    · simpa [GroundEval.pushDiff, setOuter] using hk.inner_lt
    · simpa [GroundEval.pushDiff, setOuter] using hk.offset_le
    · simpa [GroundEval.pushDiff, setOuter] using hk.length_eq
    · intro e
      simp [GroundEval.pushDiff, setOuter] at e
      exact absurd e hm
  · apply hk.congr
    · simp [GroundEval.pushDiff, setOuter, hne]
    · rfl
    · exact le_rfl

/-- The argument of an update gets an inner array with its own values. -/
def freshInner (h : ArrayHeap α) (k : ℕ) : ArrayHeap α :=
  let r := h.outer k
  rebuild h k r.diffs r.offset (h.inner r.innerArray)

theorem freshInner_inner (h : ArrayHeap α) (k : ℕ) {j : ℕ} (hj : j < h.innerNext) :
    (freshInner h k).inner j = h.inner j := by
  simp [freshInner, rebuild, makeInner, setInner, setOuter, hj.ne]

theorem freshInner_outer_of_ne (h : ArrayHeap α) {k k' : ℕ} (hne : k' ≠ k) :
    (freshInner h k).outer k' = h.outer k' := by
  simp [freshInner, rebuild, makeInner, setInner, setOuter, hne]

theorem versionValue_freshInner (hk : WFVersion h n k) {k' : ℕ} (hk' : WFVersion h n k') {j : ℕ}
    (hj : j < n) : versionValue (freshInner h k) k' j = versionValue h k' j := by
  by_cases hne : k' = k
  · subst hne
    have hl : j < (h.inner (h.outer k').innerArray).contents.length := by rwa [hk.length_eq]
    simp [versionValue, freshInner, rebuild, makeInner, setInner, setOuter, assocLast,
      aref_insertArrayDiffs, aref_restoreInner, hl]
  · apply versionValue_congr
    · exact freshInner_outer_of_ne h hne
    · exact freshInner_inner h k hk'.inner_lt

theorem WFVersion.freshInner (hk : WFVersion h n k) {k' : ℕ} (hk' : WFVersion h n k') :
    WFVersion (freshInner h k) n k' := by
  by_cases hne : k' = k
  · subst hne
    refine ⟨?_, ?_, ?_, ?_⟩
    · simp [GroundEval.freshInner, rebuild, makeInner, setInner, setOuter]
    · simp [GroundEval.freshInner, rebuild, makeInner, setInner, setOuter]
    · simpa [GroundEval.freshInner, rebuild, makeInner, setInner, setOuter] using hk.length_eq
    · simp [GroundEval.freshInner, rebuild, makeInner, setInner, setOuter]
  · apply hk'.congr
    · exact freshInner_outer_of_ne h hne
    · exact freshInner_inner h k hk'.inner_lt
    · simp [GroundEval.freshInner, rebuild, makeInner, setInner, setOuter]

/-- The values of an object that is updated or looked up. -/
def objValue (h : ArrayHeap α) (index : ℕ) : ArrayObj α → LispValue α
  | .vector l => aref l index
  | .outer k => versionValue h k index

def WFObj (h : ArrayHeap α) (n : ℕ) : ArrayObj α → Prop
  | .vector l => l.length = n
  | .outer k => k < h.outerNext

theorem copy_outer_of_lt (h : ArrayHeap α) (obj : ArrayObj α) (hk : k < h.outerNext) :
    (copyPvsOuterArray h obj).outer k = h.outer k := by
  cases obj <;> simp [copyPvsOuterArray, makeOuter, makeInner, setOuter, setInner, hk.ne]

theorem copy_inner_of_lt (h : ArrayHeap α) (obj : ArrayObj α) {j : ℕ} (hj : j < h.innerNext) :
    (copyPvsOuterArray h obj).inner j = h.inner j := by
  cases obj <;> simp [copyPvsOuterArray, makeOuter, makeInner, setOuter, setInner, hj.ne]

theorem copy_innerNext_le (h : ArrayHeap α) (obj : ArrayObj α) :
    h.innerNext ≤ (copyPvsOuterArray h obj).innerNext := by
  cases obj <;> simp [copyPvsOuterArray, makeOuter, makeInner, setOuter, setInner]

theorem copy_outerNext (h : ArrayHeap α) (obj : ArrayObj α) :
    (copyPvsOuterArray h obj).outerNext = h.outerNext + 1 := by
  cases obj <;> rfl

theorem versionValue_copy_of_lt (hw : WFHeap h n) (obj : ArrayObj α) (hk : k < h.outerNext) (j : ℕ) :
    versionValue (copyPvsOuterArray h obj) k j = versionValue h k j := by
  apply versionValue_congr
  · exact copy_outer_of_lt h obj hk
  · exact copy_inner_of_lt h obj (hw k hk).inner_lt

theorem versionValue_copy_self (h : ArrayHeap α) (obj : ArrayObj α) (j : ℕ) :
    versionValue (copyPvsOuterArray h obj) h.outerNext j = objValue h j obj := by
  cases obj with
  | vector l =>
    simp [versionValue, copyPvsOuterArray, makeOuter, makeInner, setOuter, setInner, assocLast,
      objValue]
  | outer k => simp [versionValue, copyPvsOuterArray, makeOuter, setOuter, objValue]

theorem WFHeap.copy (hw : WFHeap h n) {obj : ArrayObj α} (ho : WFObj h n obj) :
    WFHeap (copyPvsOuterArray h obj) n := by
  intro k hk
  rw [copy_outerNext, Nat.lt_succ_iff_lt_or_eq] at hk
  rcases hk with hk | rfl
  · apply (hw k hk).congr
    · exact copy_outer_of_lt h obj hk
    · exact copy_inner_of_lt h obj (hw k hk).inner_lt
    · exact copy_innerNext_le h obj
  · cases obj with
    | vector l =>
      refine ⟨?_, ?_, ?_, ?_⟩ <;>
        simp [copyPvsOuterArray, makeOuter, makeInner, setOuter, setInner]
      exact ho
    | outer k =>
      have hk := hw k ho
      refine ⟨?_, ?_, ?_, ?_⟩ <;> simp [copyPvsOuterArray, makeOuter, setOuter]
      · exact hk.inner_lt
      · exact hk.offset_le
      · exact hk.length_eq
      · exact hk.main

/-- What an update does to the versions made before and to the new one. -/
structure Updated (h : ArrayHeap α) (n : ℕ) (obj : ArrayObj α) (i : ℕ) (v : LispValue α)
    (h' : ArrayHeap α) : Prop where
  outerNext_eq : h'.outerNext = h.outerNext + 1
  wf : WFHeap h' n
  old : ∀ k < h.outerNext, ∀ j < n, versionValue h' k j = versionValue h k j
  new : ∀ j < n, versionValue h' h.outerNext j = if j = i then v else objValue h j obj

theorem writeMain_updated (hw : WFHeap h n) {obj : ArrayObj α} (ho : WFObj h n obj)
    (hm : ((copyPvsOuterArray h obj).outer h.outerNext).offset =
      ((copyPvsOuterArray h obj).inner ((copyPvsOuterArray h obj).outer h.outerNext).innerArray).size)
    (i : ℕ) (v : LispValue α) :
    Updated h n obj i v (writeMain (copyPvsOuterArray h obj) h.outerNext i v) := by
  have hc := hw.copy ho
  have hx : WFVersion (copyPvsOuterArray h obj) n h.outerNext := by
    apply hc
    rw [copy_outerNext]
    exact Nat.lt_succ_self _
  refine ⟨copy_outerNext h obj, ?_, ?_, ?_⟩
  · intro k hk
    exact (hc k hk).writeMain hx hm i v
  · intro k hk j hj
    have hkc : WFVersion (copyPvsOuterArray h obj) n k := by
      apply hc
      rw [copy_outerNext]
      exact Nat.lt_succ_of_lt hk
    rw [versionValue_writeMain_of_ne hkc hx hk.ne hj, versionValue_copy_of_lt hw obj hk]
  · intro j hj
    rw [versionValue_writeMain_self hx hm hj, versionValue_copy_self]

theorem pushDiff_updated (hw : WFHeap h n) {obj : ArrayObj α} (ho : WFObj h n obj)
    (hm : ((copyPvsOuterArray h obj).outer h.outerNext).offset ≠
      ((copyPvsOuterArray h obj).inner ((copyPvsOuterArray h obj).outer h.outerNext).innerArray).size)
    (i : ℕ) (v : LispValue α) :
    Updated h n obj i v (pushDiff (copyPvsOuterArray h obj) h.outerNext i v) := by
  have hc := hw.copy ho
  refine ⟨copy_outerNext h obj, ?_, ?_, ?_⟩
  · intro k hk
    exact (hc k hk).pushDiff hm i v
  · intro k hk j _
    rw [versionValue_pushDiff, versionValue_copy_of_lt hw obj hk]
    simp [hk.ne]
  · intro j _
    rw [versionValue_pushDiff, versionValue_copy_self]
    simp

theorem Updated.freshInner {h' : ArrayHeap α} {obj : ArrayObj α} {i : ℕ} {v : LispValue α}
    (hu : Updated h n obj i v h') (hk : k < h'.outerNext) :
    Updated h n obj i v (freshInner h' k) := by
  refine ⟨hu.outerNext_eq, ?_, ?_, ?_⟩
  · intro k' hk'
    exact (hu.wf k hk).freshInner (hu.wf k' hk')
  · intro k' hk' j hj
    rw [versionValue_freshInner (hu.wf k hk) (hu.wf k' _) hj, hu.old k' hk' j hj]
    rw [hu.outerNext_eq]
    exact Nat.lt_succ_of_lt hk'
  · intro j hj
    rw [versionValue_freshInner (hu.wf k hk) (hu.wf _ _) hj, hu.new j hj]
    rw [hu.outerNext_eq]
    exact Nat.lt_succ_self _

/-- The assertion holds, and each branch gives the new version its value. -/
theorem pvsOuterArrayUpdate_updated (hw : WFHeap h n) {obj : ArrayObj α} (ho : WFObj h n obj)
    {i : ℕ} (hi : i < n) (v : LispValue α) :
    ∃ h', pvsOuterArrayUpdate exceeds number h obj i v = some (h', .outer h.outerNext) ∧
      Updated h n obj i v h' := by
  have hx : WFVersion (copyPvsOuterArray h obj) n h.outerNext := by
    apply hw.copy ho
    rw [copy_outerNext]
    exact Nat.lt_succ_self _
  have hlen := hx.length_eq
  by_cases hm : ((copyPvsOuterArray h obj).outer h.outerNext).offset =
      ((copyPvsOuterArray h obj).inner ((copyPvsOuterArray h obj).outer h.outerNext).innerArray).size
  · refine ⟨_, ?_, writeMain_updated hw ho hm i v⟩
    simp only [pvsOuterArrayUpdate, hlen, hm, hi.le, hi.ne, hx.main hm, writeMain, true_and,
      if_true, if_false, List.isEmpty_nil]
  · have hp := pushDiff_updated hw ho hm i v
    cases obj with
    | vector l => simp [copyPvsOuterArray, makeOuter, makeInner, setOuter, setInner] at hm
    | outer k =>
      have hk : (copyPvsOuterArray h (.outer k)).outer h.outerNext =
          (pushDiff (copyPvsOuterArray h (.outer k)) h.outerNext i v).outer k := by
        simp [copyPvsOuterArray, makeOuter, pushDiff, setOuter, (ho : k < h.outerNext).ne]
      by_cases he : exceeds (((copyPvsOuterArray h (.outer k)).inner
          ((copyPvsOuterArray h (.outer k)).outer h.outerNext).innerArray).size +
            ((copyPvsOuterArray h (.outer k)).outer h.outerNext).size) n
      · refine ⟨_, ?_, hp.freshInner (k := k) ?_⟩
        · simp only [pvsOuterArrayUpdate, hlen, hm, false_and, if_false, he, if_true,
            Nat.not_lt.2 hi.le, freshInner, ← hk]
          rfl
        · rw [hp.outerNext_eq]
          exact Nat.lt_succ_of_lt ho
      · refine ⟨_, ?_, hp⟩
        simp only [pvsOuterArrayUpdate, hlen, hm, false_and, if_false, he, Nat.not_lt.2 hi.le]
        rfl

end Update

/-! ### Lookups -/

/-- The alternatives tried after a `NIL` are `NIL`, too: the contents, and what was displaced. -/
def RestNil (h : ArrayHeap α) (index : ℕ) : ArrayObj α → Prop
  | .vector _ => True
  | .outer k =>
    aref (h.inner (h.outer k).innerArray).contents index = none ∧
      (assocLast index (h.inner (h.outer k).innerArray).diffs
        ((h.inner (h.outer k).innerArray).size - (h.outer k).offset)).join = none

theorem pvsOuterArrayLookup_eq_iff (h : ArrayHeap α) (k j : ℕ) :
    pvsOuterArrayLookup h k j = versionValue h k j ↔
      versionValue h k j ≠ none ∨ RestNil h j (.outer k) := by
  have hd : (h.inner (h.outer k).innerArray).diffs.isEmpty = true → ∀ c,
      assocLast j (h.inner (h.outer k).innerArray).diffs c = none := by
    intro e c
    rw [List.isEmpty_iff.1 e]
    rfl
  have ho : (h.outer k).diffs.isEmpty = true → (h.outer k).diffs.lookup j = none := by
    intro e
    rw [List.isEmpty_iff.1 e]
    rfl
  by_cases hb : (h.outer k).diffs.isEmpty ∧ (h.inner (h.outer k).innerArray).diffs.isEmpty
  · simp only [pvsOuterArrayLookup, versionValue, RestNil, hb, ho hb.1, hd hb.2, and_self,
      if_true, Option.getD_none, Option.join_none]
    cases aref (h.inner (h.outer k).innerArray).contents j <;> simp
  · simp only [pvsOuterArrayLookup, versionValue, RestNil, if_neg hb]
    -- three alternatives are left, each absent, `NIL` or another value
    generalize (h.outer k).diffs.lookup j = o
    generalize assocLast j (h.inner (h.outer k).innerArray).diffs
      ((h.inner (h.outer k).innerArray).size - (h.outer k).offset) = d
    generalize aref (h.inner (h.outer k).innerArray).contents j = c
    rcases o with _ | _ | o <;> rcases d with _ | _ | d <;> cases c <;> simp

theorem arrayLookup_eq_iff (h : ArrayHeap α) (obj : ArrayObj α) (j : ℕ) :
    arrayLookup h j obj = objValue h j obj ↔ objValue h j obj ≠ none ∨ RestNil h j obj := by
  cases obj with
  | vector l => simp [arrayLookup, objValue, RestNil]
  | outer k => exact pvsOuterArrayLookup_eq_iff h k j

/-! ### Trees of updates -/

/-- Version `src` with `val` at the index `at`; it becomes the next version. -/
structure UpdateOp (α : Type) where
  src : ℕ
  index : ℕ
  val : LispValue α

/-- The versions made so far, in order. -/
structure Versions (α : Type) where
  heap : ArrayHeap α
  objs : List (ArrayObj α)

def initial (l : List (LispValue α)) : Versions α :=
  ⟨⟨fun _ => ⟨[], [], 0⟩, fun _ => ⟨0, 0, [], 0⟩, 0, 0⟩, [.vector l]⟩

def updateVersion (st : Versions α) (op : UpdateOp α) : Option (Versions α) := do
  let obj ← st.objs[op.src]?
  let (h, x) ← pvsOuterArrayUpdate exceeds number st.heap obj op.index op.val
  some ⟨h, st.objs ++ [x]⟩

def runUpdates (l : List (LispValue α)) (ops : List (UpdateOp α)) : Option (Versions α) :=
  ops.foldlM (updateVersion exceeds number) (initial l)

/-- The functional update. -/
def updateSpec (ls : List (List (LispValue α))) (op : UpdateOp α) : List (List (LispValue α)) :=
  ls ++ [(ls[op.src]?.getD []).set op.index op.val]

def runSpec (l : List (LispValue α)) (ops : List (UpdateOp α)) : List (List (LispValue α)) :=
  ops.foldl updateSpec [l]

/-- An update is applied to a version obtained so far, at an index below the array size. -/
def ValidOps (n : ℕ) : ℕ → List (UpdateOp α) → Prop
  | _, [] => True
  | m, op :: ops => op.src < m ∧ op.index < n ∧ ValidOps n (m + 1) ops

/-- The invariant of a run: the versions have the values of the functional updates. -/
structure Simulates (n : ℕ) (st : Versions α) (ls : List (List (LispValue α))) : Prop where
  wf : WFHeap st.heap n
  length_eq : st.objs.length = ls.length
  obj_wf : ∀ obj ∈ st.objs, WFObj st.heap n obj
  spec_length : ∀ l ∈ ls, l.length = n
  value : ∀ (k : ℕ) (hk : k < st.objs.length) (hl : k < ls.length), ∀ j < n,
    objValue st.heap j st.objs[k] = aref ls[k] j

theorem simulates_initial (l : List (LispValue α)) : Simulates l.length (initial l) [l] := by
  refine ⟨?_, rfl, ?_, ?_, ?_⟩
  · intro k hk
    exact absurd hk (Nat.not_lt_zero k)
  · simp [initial, WFObj]
  · simp
  · intro k hk hl j _
    obtain rfl : k = 0 := Nat.lt_one_iff.1 hl
    rfl

theorem Updated.objValue_old {h h' : ArrayHeap α} {n i j : ℕ} {obj obj' : ArrayObj α}
    {v : LispValue α} (hu : Updated h n obj i v h') (ho : WFObj h n obj') (hj : j < n) :
    objValue h' j obj' = objValue h j obj' := by
  cases obj' with
  | vector l => rfl
  | outer k => exact hu.old k ho j hj

theorem WFObj.mono {h h' : ArrayHeap α} {n : ℕ} {obj : ArrayObj α} (ho : WFObj h n obj)
    (hn : h.outerNext ≤ h'.outerNext) : WFObj h' n obj := by
  cases obj with
  | vector l => exact ho
  | outer k => exact Nat.lt_of_lt_of_le ho hn

theorem Simulates.update {n : ℕ} {st : Versions α} {ls : List (List (LispValue α))}
    (hs : Simulates n st ls) {op : UpdateOp α} (hsrc : op.src < ls.length) (hi : op.index < n) :
    ∃ st', updateVersion exceeds number st op = some st' ∧ Simulates n st' (updateSpec ls op) := by
  have hsrc' : op.src < st.objs.length := by rwa [hs.length_eq]
  obtain ⟨h', hrun, hu⟩ := pvsOuterArrayUpdate_updated exceeds number hs.wf
    (hs.obj_wf st.objs[op.src] (List.getElem_mem hsrc')) hi op.val
  have hmono : st.heap.outerNext ≤ h'.outerNext := by
    rw [hu.outerNext_eq]
    exact Nat.le_succ _
  refine ⟨⟨h', st.objs ++ [.outer st.heap.outerNext]⟩, ?_, hu.wf, ?_, ?_, ?_, ?_⟩
  · simp [updateVersion, List.getElem?_eq_getElem hsrc', hrun]
  · simp [updateSpec, hs.length_eq]
  · intro obj ho
    rw [List.mem_append, List.mem_singleton] at ho
    rcases ho with ho | rfl
    · exact (hs.obj_wf obj ho).mono hmono
    · rw [WFObj, hu.outerNext_eq]
      exact Nat.lt_succ_self _
  · intro l hl
    rw [updateSpec, List.mem_append, List.mem_singleton] at hl
    rcases hl with hl | rfl
    · exact hs.spec_length l hl
    · simpa [List.getElem?_eq_getElem hsrc] using hs.spec_length _ (List.getElem_mem hsrc)
  · intro k hk hl j hj
    simp only [updateSpec, List.getElem_append, hs.length_eq]
    by_cases hkl : k < ls.length
    · have hko : k < st.objs.length := by rwa [hs.length_eq]
      simp only [hkl, dif_pos]
      rw [hu.objValue_old (hs.obj_wf _ (List.getElem_mem hko)) hj, hs.value k hko hkl j hj]
    · have hlen := hs.spec_length _ (List.getElem_mem hsrc)
      simp only [hkl, dif_neg, not_false_iff, List.getElem_singleton, objValue,
        List.getElem?_eq_getElem hsrc, Option.getD_some]
      rw [hu.new j hj, hs.value op.src hsrc' hsrc j hj, aref_set (by rwa [hlen])]

theorem simulates_foldlM {n : ℕ} (ops : List (UpdateOp α)) {st : Versions α}
    {ls : List (List (LispValue α))} (hs : Simulates n st ls) (hv : ValidOps n ls.length ops) :
    ∃ st', ops.foldlM (updateVersion exceeds number) st = some st' ∧
      Simulates n st' (ops.foldl updateSpec ls) := by
  induction ops generalizing st ls with
  | nil => exact ⟨st, rfl, hs⟩
  | cons op ops ih =>
    obtain ⟨st₁, h₁, hs₁⟩ := hs.update exceeds number hv.1 hv.2.1
    have hv' : ValidOps n (updateSpec ls op).length ops := by
      simpa [updateSpec] using hv.2.2
    obtain ⟨st', h', hs'⟩ := ih hs₁ hv'
    refine ⟨st', ?_, hs'⟩
    rw [List.foldlM_cons, h₁]
    exact h'

/-- After any tree of updates, at any version and index. -/
theorem lookup_eq_spec_iff (l : List (LispValue α)) (ops : List (UpdateOp α))
    (hv : ValidOps l.length 1 ops) :
    ∃ st, runUpdates exceeds number l ops = some st ∧ st.objs.length = (runSpec l ops).length ∧
      ∀ (k : ℕ) (hk : k < st.objs.length) (hl : k < (runSpec l ops).length), ∀ j < l.length,
        arrayLookup st.heap j st.objs[k] = aref (runSpec l ops)[k] j ↔
          aref (runSpec l ops)[k] j ≠ none ∨ RestNil st.heap j st.objs[k] := by
  obtain ⟨st, hrun, hs⟩ := simulates_foldlM exceeds number ops (simulates_initial l) hv
  refine ⟨st, hrun, hs.length_eq, ?_⟩
  intro k hk hl j hj
  have hval : objValue st.heap j st.objs[k] = aref (runSpec l ops)[k] j := hs.value k hk hl j hj
  rw [← hval]
  exact arrayLookup_eq_iff st.heap st.objs[k] j

/-- `T` and the numbers. -/
abbrev BooleanOrNumber := Unit ⊕ ℕ

/-- Version 1 has `NIL` at 0, and version 2 is made from it with `T` at 0. -/
def nilThenT : List (UpdateOp BooleanOrNumber) := [⟨0, 0, none⟩, ⟨1, 0, some (.inl ())⟩]

/-- The square root of `m` is less than `n`. -/
def sqrtLt (n m : ℕ) : Bool := m < n * n

theorem lookup_eq_spec_iff_nilThenT :
    ∃ st, runUpdates sqrtLt (fun i => some (.inr i)) [some (.inl ()), some (.inl ())] nilThenT =
        some st ∧
      st.objs.length = (runSpec [some (.inl ()), some (.inl ())] nilThenT).length ∧
      ∀ (k : ℕ) (hk : k < st.objs.length)
        (hl : k < (runSpec [some (.inl ()), some (.inl ())] nilThenT).length), ∀ j < 2,
        arrayLookup st.heap j st.objs[k] =
            aref (runSpec [some (.inl ()), some (.inl ())] nilThenT)[k] j ↔
          aref (runSpec [some (.inl ()), some (.inl ())] nilThenT)[k] j ≠ none ∨
            RestNil st.heap j st.objs[k] :=
  lookup_eq_spec_iff sqrtLt (fun i => some (.inr i)) [some (.inl ()), some (.inl ())] nilThenT
    (by simp [nilThenT, ValidOps])

/-- Version 1 is looked up as `T` at 0 once version 2 is made. -/
theorem lookup_ne_spec_nilThenT :
    ValidOps 2 1 nilThenT ∧ ∃ st, runUpdates sqrtLt (fun i => some (.inr i)) [some (.inl ()), some (.inl ())] nilThenT =
        some st ∧
      st.objs[1]?.map (arrayLookup st.heap 0) = some (some (.inl ())) ∧
      (runSpec [some (.inl ()), some (.inl ())] nilThenT)[1]?.map (aref · 0) = some none := by
  refine ⟨by simp [nilThenT, ValidOps], _, rfl, ?_, ?_⟩
  · decide
  · decide

end PVS.GroundEval
