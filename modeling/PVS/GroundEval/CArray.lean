import Mathlib.Algebra.BigOperators.Group.Finset.Basic
import Mathlib.Data.Finset.Range
import Mathlib.Logic.Function.Basic
import Mathlib.Order.Nat

/-! The arrays of the generated C code, with their reference counts. -/

namespace PVS.GroundEval

/-- The element type of an array: fixed-width numbers, `mpz` or `mpq` numbers, or references. -/
inductive ElemKind
  | fixed | mp | ref
  deriving DecidableEq

/-- A slot that is `none` is not initialized, or `NULL` where elements are references. -/
structure CArray (β : Type) where
  count : ℕ
  size : ℕ
  max : ℕ
  elems : List (Option β)

/-- The arrays that are not freed, and the reference counts of the elements. -/
structure CState (β : Type) where
  heap : ℕ → Option (CArray β)
  next : ℕ
  refs : β → ℕ

variable {β : Type}

namespace CState

def write (σ : CState β) (x : ℕ) (a : CArray β) : CState β :=
  { σ with heap := Function.update σ.heap x (some a) }

def alloc (σ : CState β) (a : CArray β) : CState β :=
  { σ.write σ.next a with next := σ.next + 1 }

def free (σ : CState β) (x : ℕ) : CState β :=
  { σ with heap := Function.update σ.heap x none }

variable (σ : CState β) {x z : ℕ} (a : CArray β)

@[simp] theorem write_heap_self : (σ.write x a).heap x = some a := Function.update_self x _ _

theorem write_heap_of_ne (h : z ≠ x) : (σ.write x a).heap z = σ.heap z :=
  Function.update_of_ne h _ _

@[simp] theorem alloc_heap_self : (σ.alloc a).heap σ.next = some a := write_heap_self σ a

theorem alloc_heap_of_ne (h : z ≠ σ.next) : (σ.alloc a).heap z = σ.heap z :=
  write_heap_of_ne σ a h

@[simp] theorem free_heap_self : (σ.free x).heap x = none := Function.update_self x _ _

theorem free_heap_of_ne (h : z ≠ x) : (σ.free x).heap z = σ.heap z := Function.update_of_ne h _ _

end CState

variable (k : ElemKind)

def uint32Max : ℕ := 2 ^ 32 - 1

def newMax (xmax i : ℕ) : ℕ :=
  if xmax < uint32Max / 2 then
    if i < 2 * (xmax + 1) then 2 * (xmax + 1) else (i + 1) % 2 ^ 32
  else uint32Max

/-- The slots that stay when a block grows: where elements are references, those from `size` on are
set to `NULL`. -/
def keptSlots (a : CArray β) : List (Option β) :=
  match k with
  | .ref => a.elems.take a.size
  | _ => a.elems

/-- The block that `safe_realloc` returns; for references the new size is set later. -/
def growArray (a : CArray β) (i : ℕ) : CArray β :=
  let newmax := newMax a.max i
  let kept := keptSlots k a
  let size := match k with
    | .ref => a.size
    | _ => (i + 1) % 2 ^ 32
  ⟨1, size, newmax, (kept ++ List.replicate (newmax - kept.length) none).take newmax⟩

/-- `y = safe_realloc(x, ..)` moves the block, or it grows where it is. -/
def reallocArray (σ : CState β) (x i : ℕ) (a : CArray β) (moved : Bool) : ℕ × CState β :=
  if moved then (σ.next, (σ.free x).alloc (growArray k a i)) else (x, σ.write x (growArray k a i))

variable (same : β → β → Bool)

/-- `while (i < x->size && tmp)`, with `n` rounds left. -/
def equalLoop (xs ys : List (Option β)) : ℕ → ℕ → Option Bool
  | 0, _ => some true
  | n + 1, i => do
    let a ← xs[i]?.join
    let b ← ys[i]?.join
    if same a b then equalLoop xs ys n (i + 1) else some false

/-- `make-array-equal-defn` -/
def equalArray (σ : CState β) (x y : ℕ) : Option Bool := do
  let a ← σ.heap x
  let b ← σ.heap y
  equalLoop same a.elems b.elems a.size 0

variable [DecidableEq β]

/-- The effect on the counts of `tmp->elems[i] = x->elems[i]`, with `x->elems[i]->count++` below
`size`. -/
def copyElem (size i : ℕ) (e : Option β) (c : β → ℕ) : Option (β → ℕ) :=
  match k, e with
  | .fixed, _ => some c
  -- `mpz_set` from a slot that is not initialized
  | .mp, none => none
  | .mp, some _ => some c
  | .ref, none => if i < size then none else some c
  | .ref, some b => some (if i < size then Function.update c b (c b + 1) else c)

/-- The loop of `copy`, up to `max`. -/
def copyElems (size : ℕ) : ℕ → List (Option β) → (β → ℕ) → Option (List (Option β) × (β → ℕ))
  | _, [], c => some ([], c)
  | i, e :: l, c => do
    let c ← copyElem k size i e c
    let (l, c) ← copyElems size (i + 1) l c
    some (e :: l, c)

/-- `make-array-copy-defn` -/
def copyArray (σ : CState β) (x : ℕ) : Option (ℕ × CState β) := do
  let a ← σ.heap x
  let (elems, refs) ← copyElems k a.size 0 a.elems σ.refs
  some (σ.next, { σ.alloc ⟨1, a.max, a.max, elems⟩ with refs := refs })

/-- `{y = copy(x); x->count--;}` -/
def copyShared (σ : CState β) (x : ℕ) : Option (ℕ × CState β) := do
  let (y, σ) ← copyArray k σ x
  let a ← σ.heap x
  some (y, σ.write x { a with count := a.count - 1 })

/-- The counts after `v` is written over `slot`. -/
def assignRefs (slot : Option β) (v : β) (c : β → ℕ) : Option (β → ℕ) :=
  match k, slot with
  | .fixed, _ => some c
  -- `mpz_set` to a slot that is not initialized
  | .mp, none => none
  | .mp, some _ => some c
  | .ref, none => some (Function.update c v (c v + 1))
  | .ref, some e =>
    let c := Function.update c v (c v + 1)
    some (Function.update c e (c e - 1))

/-- `y->elems[i] = v`, with the new size of `y`. -/
def setSlot (σ : CState β) (y i : ℕ) (v : β) (size : ℕ → ℕ) : Option (ℕ × CState β) := do
  let a ← σ.heap y
  let slot ← a.elems[i]?
  let refs ← assignRefs k slot v σ.refs
  some (y, { σ.write y { a with size := size a.size, elems := a.elems.set i (some v) } with
    refs := refs })

/-- `make-array-update-defn` -/
def updateArray (σ : CState β) (x i : ℕ) (v : β) : Option (ℕ × CState β) := do
  let a ← σ.heap x
  let (y, σ) ← if a.count = 1 then some (x, σ) else copyShared k σ x
  setSlot k σ y i v id

/-- `make-array-upgrade-defn` -/
def upgradeArray (σ : CState β) (x i : ℕ) (v : β) (moved : Bool) : Option (ℕ × CState β) := do
  let a ← σ.heap x
  let (y, σ) ←
    if a.count = 1 ∧ i < a.max then some (x, σ)
    else if a.max ≤ i then some (reallocArray k σ x i a moved)
    else copyShared k σ x
  setSlot k σ y i v fun size =>
    match k with
    | .ref => if i < a.size then a.size else (i + 1) % 2 ^ 32
    | _ => size

/-! ### Holders -/

/-- The references held outside the arrays. -/
structure Holders (β : Type) where
  arrays : ℕ → ℕ
  elems : β → ℕ

def Holders.gain (H : Holders β) (x : ℕ) : Holders β :=
  { H with arrays := Function.update H.arrays x (H.arrays x + 1) }

def Holders.drop (H : Holders β) (x : ℕ) : Holders β :=
  { H with arrays := Function.update H.arrays x (H.arrays x - 1) }

/-- The references to an element from the slots of an array. -/
def slotsOf (o : Option (CArray β)) (b : β) : ℕ := o.elim 0 fun a => a.elems.count (some b)

def CState.slotRefs (σ : CState β) (b : β) : ℕ := ∑ x ∈ Finset.range σ.next, slotsOf (σ.heap x) b

/-- An array with `n` holders. -/
structure GoodArray (a : CArray β) (n : ℕ) : Prop where
  length_eq : a.elems.length = a.max
  size_le : a.size ≤ a.max
  max_lt : a.max < 2 ^ 32
  count_eq : a.count = n
  pos : 0 < n
  slack : k = .ref → ∀ i, a.size ≤ i → ∀ b, a.elems[i]? ≠ some (some b)

/-- The reference counts are the numbers of holders. -/
structure Good (σ : CState β) (H : Holders β) : Prop where
  fresh : ∀ x, σ.next ≤ x → σ.heap x = none
  array : ∀ x a, σ.heap x = some a → GoodArray k a (H.arrays x)
  freed : ∀ x, σ.heap x = none → H.arrays x = 0
  refs : k = .ref → ∀ b, σ.refs b = H.elems b + σ.slotRefs b

section Lemmas

variable {k} {σ : CState β} {H : Holders β} {x y i : ℕ} {a : CArray β} {v : β}

theorem Good.lt_next (h : Good k σ H) (ha : σ.heap x = some a) : x < σ.next := by
  by_contra hx
  rw [h.fresh x (Nat.not_lt.1 hx)] at ha
  cases ha

theorem slotRefs_write (hx : x < σ.next) (a : CArray β) (b : β) :
    (σ.write x a).slotRefs b + slotsOf (σ.heap x) b = σ.slotRefs b + a.elems.count (some b) := by
  have hmem : x ∈ Finset.range σ.next := Finset.mem_range.2 hx
  have hrest : ∑ z ∈ (Finset.range σ.next).erase x, slotsOf ((σ.write x a).heap z) b =
      ∑ z ∈ (Finset.range σ.next).erase x, slotsOf (σ.heap z) b := by
    apply Finset.sum_congr rfl
    intro z hz
    rw [CState.write_heap_of_ne σ a (Finset.ne_of_mem_erase hz)]
  have hself : slotsOf ((σ.write x a).heap x) b = a.elems.count (some b) := by
    simp [slotsOf]
  change ∑ z ∈ Finset.range σ.next, _ + _ = ∑ z ∈ Finset.range σ.next, _ + _
  rw [← Finset.add_sum_erase _ _ hmem, ← Finset.add_sum_erase _ (fun z => slotsOf (σ.heap z) b) hmem,
    hrest, hself]
  omega

theorem slotRefs_free (hx : x < σ.next) (b : β) :
    (σ.free x).slotRefs b + slotsOf (σ.heap x) b = σ.slotRefs b := by
  have hmem : x ∈ Finset.range σ.next := Finset.mem_range.2 hx
  have hrest : ∑ z ∈ (Finset.range σ.next).erase x, slotsOf ((σ.free x).heap z) b =
      ∑ z ∈ (Finset.range σ.next).erase x, slotsOf (σ.heap z) b := by
    apply Finset.sum_congr rfl
    intro z hz
    rw [CState.free_heap_of_ne σ (Finset.ne_of_mem_erase hz)]
  have hself : slotsOf ((σ.free x).heap x) b = 0 := by
    simp [slotsOf]
  change ∑ z ∈ Finset.range σ.next, _ + _ = ∑ z ∈ Finset.range σ.next, _
  rw [← Finset.add_sum_erase _ _ hmem, ← Finset.add_sum_erase _ (fun z => slotsOf (σ.heap z) b) hmem,
    hrest, hself]
  omega

theorem slotRefs_alloc (σ : CState β) (a : CArray β) (b : β) :
    (σ.alloc a).slotRefs b = σ.slotRefs b + a.elems.count (some b) := by
  change ∑ z ∈ Finset.range (σ.next + 1), slotsOf ((σ.write σ.next a).heap z) b = _
  rw [Finset.sum_range_succ]
  congr 1
  · apply Finset.sum_congr rfl
    intro z hz
    rw [CState.write_heap_of_ne σ a (Finset.mem_range.1 hz).ne]
  · simp [slotsOf]

/-- One array is written, and the counts of the elements follow its slots. -/
theorem Good.write (h : Good k σ H) (ha : σ.heap x = some a) {a' : CArray β} {n : ℕ}
    (hg : GoodArray k a' n) {c : β → ℕ}
    (hc : k = .ref → ∀ b, c b + a.elems.count (some b) = σ.refs b + a'.elems.count (some b)) :
    Good k { σ.write x a' with refs := c } { H with arrays := Function.update H.arrays x n } := by
  have hx := h.lt_next ha
  refine ⟨?_, ?_, ?_, ?_⟩
  · intro z hz
    have hne : z ≠ x := fun hzx => absurd hx (Nat.not_lt.2 (hzx ▸ hz))
    simp only [CState.write, Function.update_of_ne hne]
    exact h.fresh z hz
  · intro z b hb
    by_cases hz : z = x
    · subst hz
      simp only [CState.write, Function.update_self, Option.some_inj] at hb
      subst hb
      simpa using hg
    · simp only [CState.write, Function.update_of_ne hz] at hb ⊢
      exact h.array z b hb
  · intro z hz
    by_cases hzx : z = x
    · subst hzx
      simp [CState.write] at hz
    · simp only [CState.write, Function.update_of_ne hzx] at hz ⊢
      exact h.freed z hz
  · intro hk b
    have hslots := slotRefs_write hx a' b
    have hold := h.refs hk b
    have hcb := hc hk b
    rw [ha] at hslots
    change c b = H.elems b + (σ.write x a').slotRefs b
    change _ + a.elems.count (some b) = _ at hslots
    omega

theorem Good.alloc (h : Good k σ H) {a' : CArray β} {n : ℕ} (hg : GoodArray k a' n) {c : β → ℕ}
    (hc : k = .ref → ∀ b, c b = σ.refs b + a'.elems.count (some b)) :
    Good k { σ.alloc a' with refs := c }
      { H with arrays := Function.update H.arrays σ.next n } := by
  refine ⟨?_, ?_, ?_, ?_⟩
  · intro z hz
    have hne : z ≠ σ.next := fun hzn => absurd hz (Nat.not_le.2 (hzn ▸ Nat.lt_succ_self _))
    simp only [CState.alloc, CState.write, Function.update_of_ne hne]
    exact h.fresh z (Nat.le_of_succ_le hz)
  · intro z b hb
    by_cases hz : z = σ.next
    · subst hz
      simp only [CState.alloc, CState.write, Function.update_self, Option.some_inj] at hb
      subst hb
      simpa using hg
    · simp only [CState.alloc, CState.write, Function.update_of_ne hz] at hb ⊢
      exact h.array z b hb
  · intro z hz
    by_cases hzn : z = σ.next
    · subst hzn
      simp [CState.alloc, CState.write] at hz
    · simp only [CState.alloc, CState.write, Function.update_of_ne hzn] at hz ⊢
      exact h.freed z hz
  · intro hk b
    change c b = H.elems b + (σ.alloc a').slotRefs b
    rw [slotRefs_alloc, hc hk b, h.refs hk b]
    omega

theorem Good.free (h : Good k σ H) (ha : σ.heap x = some a) {c : β → ℕ}
    (hc : k = .ref → ∀ b, c b + a.elems.count (some b) = σ.refs b) :
    Good k { σ.free x with refs := c } { H with arrays := Function.update H.arrays x 0 } := by
  have hx := h.lt_next ha
  refine ⟨?_, ?_, ?_, ?_⟩
  · intro z hz
    have hne : z ≠ x := fun hzx => absurd hx (Nat.not_lt.2 (hzx ▸ hz))
    simp only [CState.free, Function.update_of_ne hne]
    exact h.fresh z hz
  · intro z b hb
    by_cases hz : z = x
    · subst hz
      simp [CState.free] at hb
    · simp only [CState.free, Function.update_of_ne hz] at hb ⊢
      exact h.array z b hb
  · intro z hz
    by_cases hzx : z = x
    · subst hzx
      simp
    · simp only [CState.free, Function.update_of_ne hzx] at hz ⊢
      exact h.freed z hz
  · intro hk b
    have hslots := slotRefs_free hx b
    have hold := h.refs hk b
    have hcb := hc hk b
    rw [ha] at hslots
    change c b = H.elems b + (σ.free x).slotRefs b
    change _ + a.elems.count (some b) = _ at hslots
    omega

end Lemmas

end PVS.GroundEval
