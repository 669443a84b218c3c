import PVS.GroundEval.CArrayOps

/-! Sequences of operations on generated arrays. -/

namespace PVS.GroundEval

variable {β : Type}

inductive ArrayOp (β : Type)
  | update (x i : ℕ) (v : β)
  /-- The reallocation moves the block or not. -/
  | upgrade (x i : ℕ) (v : β) (moved : Bool)
  | copy (x : ℕ)
  | equal (x y : ℕ)

inductive ArrayResult
  | array (y : ℕ)
  | bool (b : Bool)

def ArrayOp.step [DecidableEq β] (k : ElemKind) (same : β → β → Bool) (σ : CState β) :
    ArrayOp β → Option (ArrayResult × CState β)
  | update x i v => (updateArray k σ x i v).map fun p => (.array p.1, p.2)
  | upgrade x i v moved => (upgradeArray k σ x i v moved).map fun p => (.array p.1, p.2)
  | copy x => (copyArray k σ x).map fun p => (.array p.1, p.2)
  | equal x y => (equalArray same σ x y).map fun b => (.bool b, σ)

/-- The caller holds what it passes, and an updated index is below the size. -/
def ArrayOp.Valid (k : ElemKind) (σ : CState β) (H : Holders β) : ArrayOp β → Prop
  | update x i v =>
    0 < H.arrays x ∧ (∀ a, σ.heap x = some a → i < a.size) ∧ (k = .ref → 0 < H.elems v)
  | upgrade x i v _ => 0 < H.arrays x ∧ i < 2 ^ 32 ∧ (k = .ref → 0 < H.elems v)
  | copy x => 0 < H.arrays x
  | equal x y => 0 < H.arrays x ∧ 0 < H.arrays y

/-- The holders after an operation: an update and an upgrade consume a reference to `x`, and the
caller gets one to the result. A copy and a comparison leave the caller its references. -/
def ArrayOp.after (H : Holders β) : ArrayOp β → ArrayResult → Holders β
  | update x _ _, .array y => (H.drop x).gain y
  | upgrade x _ _ _, .array y => (H.drop x).gain y
  | copy _, .array y => H.gain y
  | _, _ => H

/-! ### What the operations should do -/

/-- The array `y` is `x` with `v` at `i`, and nothing else changes for other holders. -/
structure Written (σ σ' : CState β) (x i : ℕ) (v : β) (y : ℕ) : Prop where
  result : ∃ old new, σ.heap x = some old ∧ σ'.heap y = some new ∧
    new.size = Max.max old.size (i + 1) ∧ new.elems[i]? = some (some v) ∧
      ∀ j < old.size, j ≠ i → new.elems[j]? = old.elems[j]?
  shared : ∀ old, σ.heap x = some old → 1 < old.count →
    ∃ kept, σ'.heap x = some kept ∧ kept.size = old.size ∧
      ∀ j < old.size, kept.elems[j]? = old.elems[j]?
  fresh : y = x ∨ σ.heap y = none
  others : ∀ z, z ≠ x → z ≠ y → σ'.heap z = σ.heap z

structure Copied (σ σ' : CState β) (x y : ℕ) : Prop where
  result : ∃ old new, σ.heap x = some old ∧ σ'.heap y = some new ∧ new.size = old.size ∧
    ∀ j < old.size, new.elems[j]? = old.elems[j]?
  fresh : σ.heap y = none
  others : ∀ z, z ≠ y → σ'.heap z = σ.heap z

def SameAt (same : β → β → Bool) (a b : CArray β) (j : ℕ) : Prop :=
  ∃ u w, a.elems[j]? = some (some u) ∧ b.elems[j]? = some (some w) ∧ same u w = true

def DifferAt (same : β → β → Bool) (a b : CArray β) (j : ℕ) : Prop :=
  ∃ u w, a.elems[j]? = some (some u) ∧ b.elems[j]? = some (some w) ∧ same u w = false

/-- The same size and equal elements. -/
def EqualArrays (same : β → β → Bool) (a b : CArray β) : Prop :=
  a.size = b.size ∧ ∀ j < a.size, SameAt same a b j

def ArrayOp.Right [DecidableEq β] (k : ElemKind) (same : β → β → Bool) (σ : CState β)
    (H : Holders β) (op : ArrayOp β) (r : ArrayResult) (σ' : CState β) : Prop :=
  Good k σ' (op.after H r) ∧
    match op, r with
    | update x i v, .array y => Written σ σ' x i v y
    | upgrade x i v _, .array y => Written σ σ' x i v y
    | copy x, .array y => Copied σ σ' x y
    | equal x y, .bool b => σ' = σ ∧
      ∀ a a', σ.heap x = some a → σ.heap y = some a' → (b = true ↔ EqualArrays same a a')
    | _, _ => False

/-! ### When they do it -/

/-- An unshared array is written where it is; a shared one is copied, and its copy has the size
`max`. -/
def UpdateExact (k : ElemKind) (a : CArray β) (i : ℕ) : Prop :=
  if a.count = 1 then k = .mp → a.elems[i]? ≠ some none
  else a.CopyReady k ∧ a.size = a.max

/-- Only for references the size is set when the capacity suffices, and growing needs an unshared
array. -/
def UpgradeExact (k : ElemKind) (a : CArray β) (i : ℕ) : Prop :=
  if i < a.max then
    match k with
    | .ref => a.count ≠ 1 → a.CopyReady .ref
    | .fixed => if a.count = 1 then i < a.size else a.size = a.max ∨ i + 1 = a.max
    | .mp =>
      if a.count = 1 then i < a.size ∧ a.elems[i]? ≠ some none
      else a.CopyReady .mp ∧ (a.size = a.max ∨ i + 1 = a.max)
  else a.count = 1 ∧ i + 1 < 2 ^ 32 ∧ k ≠ .mp

/-- The arrays differ at an index that the loop reaches, or they have the same size and elements. -/
def EqualExact (same : β → β → Bool) (a b : CArray β) : Prop :=
  (∃ j < a.size, (∀ j' < j, SameAt same a b j') ∧ DifferAt same a b j) ∨ EqualArrays same a b

def ArrayOp.Exact (k : ElemKind) (same : β → β → Bool) (σ : CState β) : ArrayOp β → Prop
  | update x i _ => ∀ a, σ.heap x = some a → UpdateExact k a i
  | upgrade x i _ _ => ∀ a, σ.heap x = some a → UpgradeExact k a i
  | copy x => ∀ a, σ.heap x = some a → a.CopyReady k ∧ a.size = a.max
  | equal x y => ∀ a b, σ.heap x = some a → σ.heap y = some b → EqualExact same a b

section Step

variable [DecidableEq β] {k : ElemKind} {same : β → β → Bool} {σ : CState β} {H : Holders β}
  {x y i : ℕ} {a : CArray β} {v : β}

theorem Good.heap_of_held (h : Good k σ H) (hx : 0 < H.arrays x) : ∃ a, σ.heap x = some a := by
  cases ha : σ.heap x with
  | none =>
    rw [h.freed x ha] at hx
    exact absurd hx (Nat.lt_irrefl 0)
  | some a => exact ⟨a, rfl⟩

/-! #### Writing in place -/

/-- An unshared array is written where it is. -/
theorem written_in_place (h : Good k σ H) (ha : σ.heap x = some a) (hc : a.count = 1)
    (hi : i < a.max) {s : ℕ → ℕ} (hs : s a.size ≤ a.max)
    (hslack : k = .ref → i < s a.size ∧
      ∀ j, s a.size ≤ j → ∀ b, a.elems[j]? ≠ some (some b))
    (hmp : k = .mp → a.elems[i]? ≠ some none) :
    ∃ σ', setSlot k σ x i v s = some (x, σ') ∧ Good k σ' ((H.drop x).gain x) ∧
      (Written σ σ' x i v x ↔ s a.size = Max.max a.size (i + 1)) := by
  have hg := h.array x a ha
  obtain ⟨σ', hset, hheap, -, hgood⟩ := h.setSlot (v := v) ha hi hs hslack hmp
  have hself : σ'.heap x = some { a with size := s a.size, elems := a.elems.set i (some v) } := by
    rw [hheap, Function.update_self]
  refine ⟨σ', hset, ?_, ?_, ?_⟩
  · rw [drop_gain_self (hg.count_eq ▸ hc ▸ Nat.one_pos)]
    exact hgood
  · rintro ⟨⟨old, new, hold, hnew, hsize, -, -⟩, -, -, -⟩
    obtain rfl := Option.some.inj (ha.symm.trans hold)
    obtain rfl := Option.some.inj (hself.symm.trans hnew)
    exact hsize
  · intro hsize
    refine ⟨⟨a, _, ha, hself, hsize, ?_, ?_⟩, ?_, .inl rfl, ?_⟩
    · exact List.getElem?_set_self (hg.length_eq.symm ▸ hi)
    · intro j _ hj
      exact List.getElem?_set_ne (Ne.symm hj)
    · intro old hold hshared
      obtain rfl := Option.some.inj (ha.symm.trans hold)
      exact absurd hc hshared.ne'
    · intro z hz _
      rw [hheap, Function.update_of_ne hz]

/-- A shared array is copied, and the copy is written; before the size is set, it is `max`. -/
theorem written_shared (h : Good k σ H) (ha : σ.heap x = some a) (hr : a.CopyReady k)
    (hc : a.count ≠ 1) (hi : i < a.max) {s : ℕ → ℕ} (hs : s a.max ≤ a.max)
    (hslack : k = .ref → i < s a.max ∧
      ∀ j, s a.max ≤ j → ∀ b, a.elems[j]? ≠ some (some b)) :
    ∃ σ₁ σ', copyShared k σ x = some (σ.next, σ₁) ∧
      setSlot k σ₁ σ.next i v s = some (σ.next, σ') ∧ Good k σ' ((H.drop x).gain σ.next) ∧
        (Written σ σ' x i v σ.next ↔ s a.max = Max.max a.size (i + 1)) := by
  have hg := h.array x a ha
  have hx : x ≠ σ.next := (h.lt_next ha).ne
  obtain ⟨σ₁, hcopy, hheap₁, -, hgood₁⟩ := h.copyShared ha hr hc
  have ha₁ : σ₁.heap σ.next = some ⟨1, a.max, a.max, a.elems⟩ := by
    rw [hheap₁, Function.update_of_ne hx.symm, Function.update_self]
  have hmp : k = .mp → a.elems[i]? ≠ some none := by
    rintro rfl hnone
    exact hr (List.mem_of_getElem? hnone)
  obtain ⟨σ', hset, hheap, -, hgood⟩ := hgood₁.setSlot (v := v) ha₁ hi hs hslack hmp
  have hnew : σ'.heap σ.next = some ⟨1, s a.max, a.max, a.elems.set i (some v)⟩ := by
    rw [hheap, Function.update_self]
  refine ⟨σ₁, σ', hcopy, hset, hgood, ?_, ?_⟩
  · rintro ⟨⟨old, new, hold, hnew', hsize, -, -⟩, -, -, -⟩
    obtain rfl := Option.some.inj (ha.symm.trans hold)
    obtain rfl := Option.some.inj (hnew.symm.trans hnew')
    exact hsize
  · intro hsize
    refine ⟨⟨a, _, ha, hnew, hsize, ?_, ?_⟩, ?_, .inr (h.fresh _ (Nat.le_refl _)), ?_⟩
    · exact List.getElem?_set_self (hg.length_eq.symm ▸ hi)
    · intro j _ hj
      exact List.getElem?_set_ne (Ne.symm hj)
    · intro old hold _
      obtain rfl := Option.some.inj (ha.symm.trans hold)
      refine ⟨{ a with count := a.count - 1 }, ?_, rfl, fun _ _ => rfl⟩
      rw [hheap, Function.update_of_ne hx, hheap₁, Function.update_self]
    · intro z hzx hzn
      rw [hheap, Function.update_of_ne hzn, hheap₁, Function.update_of_ne hzx,
        Function.update_of_ne hzn]

theorem copyShared_of_not_ready (ha : σ.heap x = some a) (hr : ¬a.CopyReady k) :
    copyShared k σ x = none := by
  simp [copyShared, copyArray_of_not_ready ha hr]

/-! #### The four operations -/

theorem update_right_iff (h : Good k σ H) (ha : σ.heap x = some a) (hi : i < a.size) :
    (∃ r σ', (ArrayOp.update x i v).step k same σ = some (r, σ') ∧
      (ArrayOp.update x i v).Right k same σ H r σ') ↔ UpdateExact k a i := by
  have hg := h.array x a ha
  have hmax : i < a.max := Nat.lt_of_lt_of_le hi hg.size_le
  have hsize : Max.max a.size (i + 1) = a.size := Nat.max_eq_left hi
  by_cases hc : a.count = 1
  · have hrun : updateArray k σ x i v = setSlot k σ x i v id := by
      simp [updateArray, ha, hc]
    rw [UpdateExact, if_pos hc]
    constructor
    · rintro ⟨r, σ', hstep, -⟩
      obtain ⟨⟨z, σ₁⟩, hset, -⟩ := Option.map_eq_some_iff.1 hstep
      rw [hrun] at hset
      obtain ⟨-, b, hb, -, hmp, -⟩ := setSlot_cases hset
      obtain rfl := Option.some.inj (ha.symm.trans hb)
      exact hmp
    · intro hmp
      obtain ⟨σ', hset, hgood, hwritten⟩ := written_in_place (v := v) h ha hc hmax (s := id)
        hg.size_le (fun hk => ⟨hi, hg.slack hk⟩) hmp
      refine ⟨.array x, σ', ?_, hgood, hwritten.2 hsize.symm⟩
      simp [ArrayOp.step, hrun, hset]
  · rw [UpdateExact, if_neg hc]
    by_cases hr : a.CopyReady k
    · obtain ⟨σ₁, σ', hcopy, hset, hgood, hwritten⟩ := written_shared (v := v) h ha hr hc hmax
        (s := id) (Nat.le_refl _) (fun hk => ⟨hmax, fun j hj => by
          rw [id, ← hg.length_eq] at hj
          simp [List.getElem?_eq_none hj]⟩)
      have hstep : (ArrayOp.update x i v).step k same σ = some (.array σ.next, σ') := by
        simp [ArrayOp.step, updateArray, ha, hc, hcopy, hset]
      rw [id, hsize] at hwritten
      constructor
      · rintro ⟨r, σ'', hstep', -, hright⟩
        obtain ⟨rfl, rfl⟩ := Prod.mk.inj (Option.some.inj (hstep.symm.trans hstep'))
        exact ⟨hr, (hwritten.1 hright).symm⟩
      · rintro ⟨-, hmaxsize⟩
        exact ⟨_, _, hstep, hgood, hwritten.2 hmaxsize.symm⟩
    · constructor
      · rintro ⟨r, σ', hstep, -⟩
        simp [ArrayOp.step, updateArray, ha, hc, copyShared_of_not_ready ha hr] at hstep
      · rintro ⟨hr', -⟩
        exact absurd hr' hr

theorem copy_right_iff (h : Good k σ H) (ha : σ.heap x = some a) :
    (∃ r σ', (ArrayOp.copy x).step k same σ = some (r, σ') ∧
      (ArrayOp.copy x).Right k same σ H r σ') ↔ a.CopyReady k ∧ a.size = a.max := by
  by_cases hr : a.CopyReady k
  · obtain ⟨σ', hcopy, hheap, -, hgood⟩ := h.copyArray ha hr
    have hstep : (ArrayOp.copy x).step k same σ = some (.array σ.next, σ') := by
      simp [ArrayOp.step, hcopy]
    have hnew : σ'.heap σ.next = some ⟨1, a.max, a.max, a.elems⟩ := by
      rw [hheap, CState.alloc_heap_self]
    constructor
    · rintro ⟨r, σ'', hstep', -, hright⟩
      obtain ⟨rfl, rfl⟩ := Prod.mk.inj (Option.some.inj (hstep.symm.trans hstep'))
      obtain ⟨⟨old, new, hold, hnew', hsize, -⟩, -, -⟩ : Copied σ σ' x σ.next := hright
      obtain rfl := Option.some.inj (ha.symm.trans hold)
      obtain rfl := Option.some.inj (hnew.symm.trans hnew')
      exact ⟨hr, hsize.symm⟩
    · rintro ⟨-, hsize⟩
      refine ⟨_, _, hstep, hgood, ⟨a, _, ha, hnew, hsize.symm, fun _ _ => rfl⟩,
        h.fresh _ (Nat.le_refl _), ?_⟩
      intro z hz
      rw [hheap, CState.alloc_heap_of_ne σ _ hz]
  · constructor
    · rintro ⟨r, σ', hstep, -⟩
      simp [ArrayOp.step, copyArray_of_not_ready ha hr] at hstep
    · rintro ⟨hr', -⟩
      exact absurd hr' hr

/-- The size that `upgrade` sets for references. -/
def upgradeSize (k : ElemKind) (a : CArray β) (i size : ℕ) : ℕ :=
  match k with
  | .ref => if i < a.size then a.size else (i + 1) % 2 ^ 32
  | _ => size

theorem upgradeSize_ref {β : Type} {a : CArray β} {size : ℕ} (hi : i + 1 < 2 ^ 32) :
    upgradeSize .ref a i size = Max.max a.size (i + 1) := by
  rw [upgradeSize, Nat.mod_eq_of_lt hi]
  split <;> omega

theorem upgradeSize_of_ne {β : Type} {a : CArray β} {size : ℕ} (hk : k ≠ .ref) : upgradeSize k a i size = size := by
  cases k with
  | ref => exact absurd rfl hk
  | fixed => rfl
  | mp => rfl

/-- For references the slots from the new size on are empty. -/
theorem upgrade_slack {β : Type} {a : CArray β} {n : ℕ} (hg : GoodArray k a n)
    (hi : i + 1 < 2 ^ 32) (size : ℕ) {elems : List (Option β)}
    (hslack : k = .ref → ∀ j, a.size ≤ j → ∀ b, elems[j]? ≠ some (some b)) :
    k = .ref → i < upgradeSize k a i size ∧
      ∀ j, upgradeSize k a i size ≤ j → ∀ b, elems[j]? ≠ some (some b) := by
  rintro rfl
  rw [upgradeSize_ref hi]
  refine ⟨by omega, ?_⟩
  intro j hj
  exact hslack rfl j (by omega)

theorem upgrade_in_place_iff (h : Good k σ H) (ha : σ.heap x = some a) (hc : a.count = 1)
    (hi : i < a.max) (moved : Bool) :
    (∃ r σ', (ArrayOp.upgrade x i v moved).step k same σ = some (r, σ') ∧
      (ArrayOp.upgrade x i v moved).Right k same σ H r σ') ↔ UpgradeExact k a i := by
  have hg := h.array x a ha
  have hlt : i + 1 < 2 ^ 32 := Nat.lt_of_le_of_lt hi hg.max_lt
  have hrun : upgradeArray k σ x i v moved = setSlot k σ x i v (upgradeSize k a i) := by
    simp [upgradeArray, ha, hc, hi]
    rfl
  have hs : upgradeSize k a i a.size ≤ a.max := by
    have hle := hg.size_le
    by_cases hk : k = .ref
    · subst hk
      rw [upgradeSize_ref hlt]
      omega
    · rwa [upgradeSize_of_ne hk]
  by_cases hmp : k = .mp → a.elems[i]? ≠ some none
  · obtain ⟨σ', hset, hgood, hwritten⟩ := written_in_place (v := v) h ha hc hi hs
      (upgrade_slack hg hlt _ hg.slack) hmp
    have hstep : (ArrayOp.upgrade x i v moved).step k same σ = some (.array x, σ') := by
      simp [ArrayOp.step, hrun, hset]
    have hexact : UpgradeExact k a i ↔ upgradeSize k a i a.size = Max.max a.size (i + 1) := by
      unfold UpgradeExact
      rw [if_pos hi]
      cases k with
      | ref => simp [upgradeSize_ref hlt, hc]
      | fixed =>
        simp only [hc, if_true, upgradeSize]
        omega
      | mp =>
        simp only [hc, if_true, upgradeSize, hmp rfl, ne_eq, not_false_iff, and_true]
        omega
    rw [hexact, ← hwritten]
    constructor
    · rintro ⟨r, σ'', hstep', -, hright⟩
      obtain ⟨rfl, rfl⟩ := Prod.mk.inj (Option.some.inj (hstep.symm.trans hstep'))
      exact hright
    · intro hright
      exact ⟨_, _, hstep, hgood, hright⟩
  · obtain ⟨rfl, hnone⟩ := Classical.not_imp.1 hmp
    rw [not_not] at hnone
    constructor
    · rintro ⟨r, σ', hstep, -⟩
      obtain ⟨⟨z, σ₁⟩, hset, -⟩ := Option.map_eq_some_iff.1 hstep
      rw [hrun] at hset
      obtain ⟨-, b, hb, -, hmp', -⟩ := setSlot_cases hset
      obtain rfl := Option.some.inj (ha.symm.trans hb)
      exact absurd hnone (hmp' rfl)
    · intro hexact
      unfold UpgradeExact at hexact
      rw [if_pos hi] at hexact
      simp only [hc, if_true] at hexact
      exact absurd hnone hexact.2

theorem upgrade_shared_iff (h : Good k σ H) (ha : σ.heap x = some a) (hc : a.count ≠ 1)
    (hi : i < a.max) (moved : Bool) :
    (∃ r σ', (ArrayOp.upgrade x i v moved).step k same σ = some (r, σ') ∧
      (ArrayOp.upgrade x i v moved).Right k same σ H r σ') ↔ UpgradeExact k a i := by
  have hg := h.array x a ha
  have hle := hg.size_le
  have hlt : i + 1 < 2 ^ 32 := Nat.lt_of_le_of_lt hi hg.max_lt
  have hrun : upgradeArray k σ x i v moved = (copyShared k σ x).bind fun p =>
      setSlot k p.2 p.1 i v (upgradeSize k a i) := by
    simp [upgradeArray, ha, hc, Nat.not_le.2 hi]
    rfl
  by_cases hr : a.CopyReady k
  · have hs : upgradeSize k a i a.max ≤ a.max := by
      by_cases hk : k = .ref
      · subst hk
        rw [upgradeSize_ref hlt]
        omega
      · rw [upgradeSize_of_ne hk]
    obtain ⟨σ₁, σ', hcopy, hset, hgood, hwritten⟩ := written_shared (v := v) h ha hr hc hi hs
      (upgrade_slack hg hlt _ hg.slack)
    have hstep : (ArrayOp.upgrade x i v moved).step k same σ = some (.array σ.next, σ') := by
      simp [ArrayOp.step, hrun, hcopy, hset]
    have hexact : UpgradeExact k a i ↔ upgradeSize k a i a.max = Max.max a.size (i + 1) := by
      unfold UpgradeExact
      rw [if_pos hi]
      cases k with
      | ref => simp [upgradeSize_ref hlt, hr]
      | fixed =>
        simp only [hc, if_false, upgradeSize]
        omega
      | mp =>
        simp only [hc, if_false, upgradeSize, hr, true_and]
        omega
    rw [hexact, ← hwritten]
    constructor
    · rintro ⟨r, σ'', hstep', -, hright⟩
      obtain ⟨rfl, rfl⟩ := Prod.mk.inj (Option.some.inj (hstep.symm.trans hstep'))
      exact hright
    · intro hright
      exact ⟨_, _, hstep, hgood, hright⟩
  · constructor
    · rintro ⟨r, σ', hstep, -⟩
      simp [ArrayOp.step, hrun, copyShared_of_not_ready ha hr] at hstep
    · intro hexact
      unfold UpgradeExact at hexact
      rw [if_pos hi] at hexact
      refine absurd ?_ hr
      cases k with
      | ref => exact hexact hc
      | fixed => trivial
      | mp =>
        simp only [hc, if_false] at hexact
        exact hexact.1

/-- Growing an unshared array. -/
theorem upgrade_grow_right (h : Good k σ H) (ha : σ.heap x = some a) (hc : a.count = 1)
    (hi : a.max ≤ i) (hlt : i + 1 < 2 ^ 32) (hk : k ≠ .mp) (moved : Bool) :
    ∃ r σ', (ArrayOp.upgrade x i v moved).step k same σ = some (r, σ') ∧
      (ArrayOp.upgrade x i v moved).Right k same σ H r σ' := by
  have hg := h.array x a ha
  have hle := hg.size_le
  have hgrown := grown_growArray hg hi hlt
  obtain ⟨y, σ₁, hrealloc, hfresh, hy, hothers, hgood₁⟩ := h.reallocArray ha hc hi hlt moved
  have hsize : upgradeSize k a i (growArray k a i).size = Max.max a.size (i + 1) := by
    cases k with
    | ref => exact upgradeSize_ref hlt
    | fixed =>
      simp only [upgradeSize, growArray, Nat.mod_eq_of_lt hlt]
      omega
    | mp => exact absurd rfl hk
  have hs : upgradeSize k a i (growArray k a i).size ≤ (growArray k a i).max := by
    have hlt' := hgrown.lt_max
    rw [hsize]
    omega
  obtain ⟨σ', hset, hheap, -, hgood⟩ := hgood₁.setSlot (v := v) hy hgrown.lt_max hs
    (upgrade_slack hg hlt _ hgrown.slack) (fun hkm => absurd hkm hk)
  have hrun : upgradeArray k σ x i v moved = some (y, σ') := by
    have hnot : ¬(a.count = 1 ∧ i < a.max) := fun hcontra => absurd hcontra.2 (Nat.not_lt.2 hi)
    simp only [upgradeArray, ha, hnot, hi, if_true, if_false, hrealloc, Option.bind_eq_bind,
      Option.bind_some]
    exact hset
  refine ⟨.array y, σ', by simp [ArrayOp.step, hrun], hgood, ?_, ?_, hfresh, ?_⟩
  · refine ⟨a, _, ha, by rw [hheap, Function.update_self], hsize, ?_, ?_⟩
    · exact List.getElem?_set_self (List.getElem?_eq_some_iff.1 hgrown.slot).1
    · intro j hj hne
      exact (List.getElem?_set_ne (Ne.symm hne)).trans (hgrown.old j hj)
  · intro old hold hshared
    obtain rfl := Option.some.inj (ha.symm.trans hold)
    exact absurd hc hshared.ne'
  · intro z hzx hzy
    rw [hheap, Function.update_of_ne hzy, hothers z hzx hzy]

theorem upgrade_grow_iff (h : Good k σ H) (ha : σ.heap x = some a) (hi : a.max ≤ i)
    (hlt : i < 2 ^ 32) (moved : Bool) :
    (∃ r σ', (ArrayOp.upgrade x i v moved).step k same σ = some (r, σ') ∧
      (ArrayOp.upgrade x i v moved).Right k same σ H r σ') ↔ UpgradeExact k a i := by
  have hg := h.array x a ha
  unfold UpgradeExact
  rw [if_neg (Nat.not_lt.2 hi)]
  constructor
  · rintro ⟨r, σ', hstep, hgood, -⟩
    obtain ⟨⟨z, σ₂⟩, hrun, hpair⟩ := Option.map_eq_some_iff.1 hstep
    obtain ⟨rfl, rfl⟩ := Prod.mk.inj hpair
    have hnot : ¬(a.count = 1 ∧ i < a.max) := fun hcontra => absurd hcontra.2 (Nat.not_lt.2 hi)
    simp only [upgradeArray, ha, hnot, hi, if_true, if_false, Option.bind_eq_bind,
      Option.bind_some] at hrun
    obtain ⟨rfl, b, hb, hib, hmp, hheap⟩ := setSlot_cases hrun
    have hgrow : b = growArray k a i := by
      cases moved with
      | true => exact Option.some.inj (hb.symm.trans (CState.alloc_heap_self _ _))
      | false => exact Option.some.inj (hb.symm.trans (CState.write_heap_self _ _))
    subst hgrow
    rw [length_growArray] at hib
    have hlt' : i + 1 < 2 ^ 32 := by
      by_contra hover
      exact absurd hib (Nat.not_lt.2 (newMax_le hi (by omega)))
    have hgrown := grown_growArray hg hi hlt'
    refine ⟨?_, hlt', fun hk => hmp hk hgrown.slot⟩
    -- a second holder of `x` would be lost
    by_contra hc
    have hpos := hg.pos
    rw [hg.count_eq] at hc
    cases moved with
    | true =>
      have hx : x ≠ σ.next := (h.lt_next ha).ne
      have hfree : σ₂.heap x = none := by
        rw [hheap]
        simp only [reallocArray, if_true]
        rw [Function.update_of_ne hx, CState.alloc_heap_of_ne (σ.free x) _ hx, CState.free_heap_self]
      have hzero := hgood.freed x hfree
      simp only [ArrayOp.after, reallocArray, if_true, Holders.gain, Holders.drop,
        Function.update_of_ne hx, Function.update_self] at hzero
      omega
    | false =>
      have hcount := (hgood.array x _ (by rw [hheap]; exact Function.update_self _ _ _)).count_eq
      simp only [ArrayOp.after, reallocArray, Bool.false_eq_true, if_false,
        drop_gain_self hpos] at hcount
      exact hc hcount.symm
  · rintro ⟨hc, hlt', hk⟩
    exact upgrade_grow_right h ha hc hi hlt' hk moved

/-! #### Comparisons -/

theorem SameAt.not_differAt {β : Type} {same : β → β → Bool} {a b : CArray β} {j : ℕ}
    (hs : SameAt same a b j) :
    ¬DifferAt same a b j := by
  rintro ⟨u, w, hu, hw, hd⟩
  obtain ⟨u', w', hu', hw', hs⟩ := hs
  obtain rfl : u = u' := by simpa using hu.symm.trans hu'
  obtain rfl : w = w' := by simpa using hw.symm.trans hw'
  exact Bool.false_ne_true (hd.symm.trans hs)

theorem equalLoop_eq_some_iff {β : Type} {same : β → β → Bool} {a b : CArray β} {n j : ℕ}
    {r : Bool} :
    equalLoop same a.elems b.elems n j = some r ↔
      if r then ∀ d < n, SameAt same a b (j + d)
      else ∃ d < n, (∀ d' < d, SameAt same a b (j + d')) ∧ DifferAt same a b (j + d) := by
  induction n generalizing j with
  | zero => cases r <;> simp [equalLoop]
  | succ n ih =>
    have hnext : ∀ d, j + 1 + d = j + (d + 1) := by
      intro d
      omega
    have hsplit : (∃ u w, a.elems[j]? = some (some u) ∧ b.elems[j]? = some (some w)) ∨
        equalLoop same a.elems b.elems (n + 1) j = none ∧ ¬SameAt same a b j ∧
          ¬DifferAt same a b j := by
      rw [equalLoop]
      rcases ha : a.elems[j]? with _ | _ | u <;> rcases hb : b.elems[j]? with _ | _ | w <;>
        simp [SameAt, DifferAt, ha, hb]
    rcases hsplit with ⟨u, w, hu, hw⟩ | ⟨hnone, hsame, hdiffer⟩
    · have hloop : equalLoop same a.elems b.elems (n + 1) j =
          if same u w then equalLoop same a.elems b.elems n (j + 1) else some false := by
        simp [equalLoop, hu, hw]
      rw [hloop]
      cases hs : same u w with
      | true =>
        have hat : SameAt same a b j := ⟨u, w, hu, hw, hs⟩
        rw [if_pos rfl, ih]
        cases r with
        | true =>
          simp only [if_true, hnext]
          constructor
          · intro h d hd
            cases d with
            | zero => exact hat
            | succ d => exact h d (Nat.lt_of_succ_lt_succ hd)
          · intro h d hd
            exact h (d + 1) (Nat.succ_lt_succ hd)
        | false =>
          simp only [Bool.false_eq_true, if_false, hnext]
          constructor
          · rintro ⟨d, hd, hbefore, hdiffer⟩
            refine ⟨d + 1, Nat.succ_lt_succ hd, ?_, hdiffer⟩
            intro d' hd'
            cases d' with
            | zero => exact hat
            | succ d' => exact hbefore d' (Nat.lt_of_succ_lt_succ hd')
          · rintro ⟨d, hd, hbefore, hdiffer⟩
            cases d with
            | zero => exact absurd hdiffer hat.not_differAt
            | succ d =>
              exact ⟨d, Nat.lt_of_succ_lt_succ hd,
                fun d' hd' => hbefore (d' + 1) (Nat.succ_lt_succ hd'), hdiffer⟩
      | false =>
        have hat : DifferAt same a b j := ⟨u, w, hu, hw, hs⟩
        cases r with
        | true =>
          simp only [Bool.false_eq_true, if_false, Option.some_inj, false_iff, if_true, not_forall]
          exact ⟨0, Nat.succ_pos n, fun hsame => hsame.not_differAt hat⟩
        | false =>
          simp only [Bool.false_eq_true, if_false, true_iff]
          exact ⟨0, Nat.succ_pos n, fun d' hd' => absurd hd' (Nat.not_lt_zero d'), hat⟩
    · rw [hnone]
      cases r with
      | true =>
        simp only [reduceCtorEq, false_iff, if_true]
        exact fun h => hsame (h 0 (Nat.succ_pos n))
      | false =>
        simp only [reduceCtorEq, false_iff, Bool.false_eq_true, if_false]
        rintro ⟨d, -, hbefore, hat⟩
        cases d with
        | zero => exact hdiffer hat
        | succ d => exact hsame (hbefore 0 (Nat.succ_pos d))

theorem equal_right_iff (h : Good k σ H) {b : CArray β} (ha : σ.heap x = some a)
    (hb : σ.heap y = some b) :
    (∃ r σ', (ArrayOp.equal x y).step k same σ = some (r, σ') ∧
      (ArrayOp.equal x y).Right k same σ H r σ') ↔ EqualExact same a b := by
  have hrun : equalArray same σ x y = equalLoop same a.elems b.elems a.size 0 := by
    simp [equalArray, ha, hb]
  constructor
  · rintro ⟨r, σ', hstep, -, hright⟩
    obtain ⟨c, hloop, hpair⟩ := Option.map_eq_some_iff.1 hstep
    obtain ⟨rfl, rfl⟩ := Prod.mk.inj hpair
    rw [hrun, equalLoop_eq_some_iff] at hloop
    cases c with
    | true => exact .inr ((hright.2 a b ha hb).1 rfl)
    | false =>
      simp only [Bool.false_eq_true, if_false, Nat.zero_add] at hloop
      exact .inl hloop
  · intro hexact
    obtain ⟨c, hloop, hc⟩ : ∃ c, equalLoop same a.elems b.elems a.size 0 = some c ∧
        (c = true ↔ EqualArrays same a b) := by
      rcases hexact with ⟨j, hj, hbefore, hdiffer⟩ | hequal
      · refine ⟨false, equalLoop_eq_some_iff.2 ?_, ?_⟩
        · simp only [Bool.false_eq_true, if_false, Nat.zero_add]
          exact ⟨j, hj, hbefore, hdiffer⟩
        · simp only [Bool.false_eq_true, false_iff]
          exact fun hequal => (hequal.2 j hj).not_differAt hdiffer
      · refine ⟨true, equalLoop_eq_some_iff.2 ?_, iff_of_true rfl hequal⟩
        simp only [if_true, Nat.zero_add]
        exact hequal.2
    refine ⟨.bool c, σ, ?_, h, rfl, ?_⟩
    · simp [ArrayOp.step, hrun, hloop]
    · intro a' b' ha' hb'
      obtain rfl := Option.some.inj (ha.symm.trans ha')
      obtain rfl := Option.some.inj (hb.symm.trans hb')
      exact hc

end Step

variable [DecidableEq β] {k : ElemKind} {same : β → β → Bool} {σ : CState β} {H : Holders β}

/-- One operation is right just when it is exact in the state before. -/
theorem step_right_iff (h : Good k σ H) {op : ArrayOp β} (hv : op.Valid k σ H) :
    (∃ r σ', op.step k same σ = some (r, σ') ∧ op.Right k same σ H r σ') ↔ op.Exact k same σ := by
  cases op with
  | update x i v =>
    obtain ⟨a, ha⟩ := h.heap_of_held hv.1
    rw [update_right_iff h ha (hv.2.1 a ha)]
    simp [ArrayOp.Exact, ha]
  | upgrade x i v moved =>
    obtain ⟨a, ha⟩ := h.heap_of_held hv.1
    have hexact : (ArrayOp.upgrade x i v moved).Exact k same σ ↔ UpgradeExact k a i := by
      simp [ArrayOp.Exact, ha]
    rw [hexact]
    rcases Nat.lt_or_ge i a.max with hi | hi
    · by_cases hc : a.count = 1
      · exact upgrade_in_place_iff h ha hc hi moved
      · exact upgrade_shared_iff h ha hc hi moved
    · exact upgrade_grow_iff h ha hi hv.2.1 moved
  | copy x =>
    obtain ⟨a, ha⟩ := h.heap_of_held hv
    rw [copy_right_iff h ha]
    simp [ArrayOp.Exact, ha]
  | equal x y =>
    obtain ⟨a, ha⟩ := h.heap_of_held hv.1
    obtain ⟨b, hb⟩ := h.heap_of_held hv.2
    rw [equal_right_iff h ha hb]
    simp [ArrayOp.Exact, ha, hb]

/-- Every operation of a sequence, as long as they are valid, does what it should. -/
def RunRight (k : ElemKind) (same : β → β → Bool) : CState β → Holders β → List (ArrayOp β) → Prop
  | _, _, [] => True
  | σ, H, op :: ops => op.Valid k σ H → ∃ r σ', op.step k same σ = some (r, σ') ∧
      op.Right k same σ H r σ' ∧ RunRight k same σ' (op.after H r) ops

/-- Every operation of a sequence is exact in the state before it. -/
def RunExact (k : ElemKind) (same : β → β → Bool) : CState β → Holders β → List (ArrayOp β) → Prop
  | _, _, [] => True
  | σ, H, op :: ops => op.Valid k σ H → op.Exact k same σ ∧
      ∀ r σ', op.step k same σ = some (r, σ') → RunExact k same σ' (op.after H r) ops

/-- One array with the element 7. -/
def oneArray : CState ℕ :=
  ⟨fun x => if x = 0 then some ⟨1, 1, 1, [some 7]⟩ else none, 1, fun _ => 0⟩

def oneHolder : Holders ℕ := ⟨fun x => if x = 0 then 1 else 0, fun _ => 0⟩

theorem good_oneArray : Good .fixed oneArray oneHolder := by
  refine ⟨?_, ?_, ?_, fun hk => by cases hk⟩
  · intro x hx
    exact if_neg (Nat.ne_of_gt hx)
  · intro x a ha
    by_cases hx : x = 0
    · subst hx
      obtain rfl : (⟨1, 1, 1, [some 7]⟩ : CArray ℕ) = a := Option.some.inj ha
      exact ⟨rfl, Nat.le_refl _, by decide, rfl, Nat.one_pos, fun hk => by cases hk⟩
    · simp [oneArray, hx] at ha
  · intro x hx
    by_cases hx0 : x = 0
    · subst hx0
      cases hx
    · exact if_neg hx0

/-- The array grows to the capacity 4, and then is written beyond its size. -/
def growAndWrite : List (ArrayOp ℕ) := [.upgrade 0 1 8 false, .upgrade 0 2 9 false]

end PVS.GroundEval
