import Mathlib.Algebra.Order.BigOperators.Group.Finset
import PVS.GroundEval.CArray

/-! What the operations on generated arrays do, and when they are right. -/

namespace PVS.GroundEval

variable {β : Type} [DecidableEq β] {k : ElemKind} {σ : CState β} {H : Holders β} {x y i : ℕ}
  {a : CArray β} {v : β}

/-! ### Copies -/

/-- No slot that the copy dereferences is `none`. -/
def CopyReady (k : ElemKind) (size : ℕ) (l : List (Option β)) : Prop :=
  match k with
  | .fixed => True
  | .mp => none ∉ l
  | .ref => none ∉ l.take size

def CArray.CopyReady (k : ElemKind) (a : CArray β) : Prop := GroundEval.CopyReady k a.size a.elems

theorem copyElems_of_ready {size : ℕ} {l : List (Option β)} {c : β → ℕ}
    (h : CopyReady k (size - i) l) :
    copyElems k size i l c = some (l, fun b =>
      c b + if k = .ref then (l.take (size - i)).count (some b) else 0) := by
  induction l generalizing i c with
  | nil => simp [copyElems]
  | cons e l ih =>
    cases k with
    | fixed => simp [copyElems, copyElem, ih (i := i + 1) (c := c) trivial]
    | mp =>
      obtain ⟨he, hl⟩ := not_or.1 (List.mem_cons.not.1 h)
      cases e with
      | none => exact absurd rfl he
      | some b => simp [copyElems, copyElem, ih (i := i + 1) (c := c) hl]
    | ref =>
      by_cases hi : i < size
      · have hsub : size - i = size - (i + 1) + 1 := by omega
        rw [CopyReady, hsub, List.take_succ_cons, List.mem_cons, not_or] at h
        cases e with
        | none => exact absurd rfl h.1
        | some b =>
          simp only [copyElems, copyElem, hi, if_true, Option.bind_eq_bind, Option.bind_some,
            ih (i := i + 1) (c := Function.update c b (c b + 1)) h.2, hsub, List.take_succ_cons,
            Option.some_inj, Prod.mk.injEq, true_and]
          funext b'
          by_cases hb : b' = b
          · subst hb
            simp
            omega
          · simp [hb, Ne.symm hb]
      · have hsub : size - i = 0 := by omega
        have hsub' : size - (i + 1) = 0 := by omega
        have hready : CopyReady .ref (size - (i + 1)) l := by
          rw [CopyReady, hsub']
          simp
        cases e <;> simp [copyElems, copyElem, hi, ih (i := i + 1) (c := c) hready, hsub, hsub']

theorem copyElems_of_not_ready {size : ℕ} {l : List (Option β)} {c : β → ℕ}
    (h : ¬CopyReady k (size - i) l) : copyElems k size i l c = none := by
  induction l generalizing i c with
  | nil =>
    refine absurd ?_ h
    cases k <;> simp [CopyReady]
  | cons e l ih =>
    cases k with
    | fixed => exact absurd trivial h
    | mp =>
      cases e with
      | none => rfl
      | some b =>
        have hl : ¬CopyReady .mp (size - (i + 1)) l := by
          simpa [CopyReady] using h
        simp [copyElems, copyElem, ih hl]
    | ref =>
      by_cases hi : i < size
      · have hsub : size - i = size - (i + 1) + 1 := by omega
        rw [CopyReady, hsub, List.take_succ_cons, List.mem_cons] at h
        cases e with
        | none => simp [copyElems, copyElem, hi]
        | some b =>
          have hl : ¬CopyReady .ref (size - (i + 1)) l := by
            simpa [CopyReady] using h
          simp [copyElems, copyElem, hi, ih hl]
      · refine absurd ?_ h
        have hsub : size - i = 0 := by omega
        rw [CopyReady, hsub]
        simp

theorem copyArray_of_ready (ha : σ.heap x = some a) (hr : a.CopyReady k) :
    copyArray k σ x = some (σ.next, { σ.alloc ⟨1, a.max, a.max, a.elems⟩ with
      refs := fun b => σ.refs b + if k = .ref then (a.elems.take a.size).count (some b) else 0 }) := by
  have hready : CopyReady k (a.size - 0) a.elems := hr
  simp only [copyArray, ha, copyElems_of_ready hready, Nat.sub_zero, Option.bind_eq_bind,
    Option.bind_some]

theorem copyArray_of_not_ready (ha : σ.heap x = some a) (hr : ¬a.CopyReady k) :
    copyArray k σ x = none := by
  have hready : ¬CopyReady k (a.size - 0) a.elems := hr
  simp only [copyArray, ha, copyElems_of_not_ready hready, Option.bind_eq_bind, Option.bind_some,
    Option.bind_none]

theorem GoodArray.count_take {n : ℕ} (h : GoodArray k a n) (hk : k = .ref) (b : β) :
    (a.elems.take a.size).count (some b) = a.elems.count (some b) := by
  have hdrop : (a.elems.drop a.size).count (some b) = 0 := by
    apply List.count_eq_zero.2
    intro hmem
    obtain ⟨j, hj⟩ := List.getElem?_of_mem hmem
    rw [List.getElem?_drop] at hj
    exact h.slack hk _ (Nat.le_add_right _ _) b hj
  have hsplit := congrArg (List.count (some b)) (List.take_append_drop a.size a.elems)
  rw [List.count_append, hdrop, Nat.add_zero] at hsplit
  exact hsplit

theorem GoodArray.copied {β : Type} {a : CArray β} {n : ℕ} (h : GoodArray k a n) :
    GoodArray k ⟨1, a.max, a.max, a.elems⟩ 1 := by
  refine ⟨h.length_eq, Nat.le_refl _, h.max_lt, rfl, Nat.one_pos, ?_⟩
  intro _ j hj b hb
  rw [List.getElem?_eq_none (h.length_eq.trans_le hj)] at hb
  cases hb

theorem Good.not_held (h : Good k σ H) : H.arrays σ.next = 0 :=
  h.freed _ (h.fresh _ (Nat.le_refl _))

theorem Good.copyArray (h : Good k σ H) (ha : σ.heap x = some a) (hr : a.CopyReady k) :
    ∃ σ', copyArray k σ x = some (σ.next, σ') ∧
      σ'.heap = (σ.alloc ⟨1, a.max, a.max, a.elems⟩).heap ∧ σ'.next = σ.next + 1 ∧
        Good k σ' (H.gain σ.next) := by
  refine ⟨_, copyArray_of_ready ha hr, rfl, rfl, ?_⟩
  rw [Holders.gain, h.not_held]
  apply h.alloc (h.array x a ha).copied
  intro hk b
  rw [if_pos hk, (h.array x a ha).count_take hk]

theorem Good.copyShared (h : Good k σ H) (ha : σ.heap x = some a) (hr : a.CopyReady k)
    (hc : a.count ≠ 1) :
    ∃ σ', copyShared k σ x = some (σ.next, σ') ∧
      σ'.heap = Function.update (Function.update σ.heap σ.next (some ⟨1, a.max, a.max, a.elems⟩)) x
        (some { a with count := a.count - 1 }) ∧ σ'.next = σ.next + 1 ∧
          Good k σ' ((H.drop x).gain σ.next) := by
  obtain ⟨σ₁, hcopy, hheap, hnext, hgood⟩ := h.copyArray ha hr
  have hg := h.array x a ha
  have hx : x ≠ σ.next := (h.lt_next ha).ne
  have ha₁ : σ₁.heap x = some a := by
    rw [hheap, CState.alloc_heap_of_ne σ _ hx, ha]
  have hgx : (H.gain σ.next).arrays x = H.arrays x := Function.update_of_ne hx _ _
  have hg' : GoodArray k { a with count := a.count - 1 } (H.arrays x - 1) := by
    refine ⟨hg.length_eq, hg.size_le, hg.max_lt, ?_, ?_, hg.slack⟩
    · exact congrArg (· - 1) hg.count_eq
    · have hpos := hg.pos
      rw [hg.count_eq] at hc
      omega
  refine ⟨σ₁.write x { a with count := a.count - 1 }, ?_, ?_, hnext, ?_⟩
  · simp only [GroundEval.copyShared, hcopy, ha₁, Option.bind_eq_bind, Option.bind_some]
  · rw [CState.write, hheap]
    rfl
  · have hwrite := hgood.write ha₁ hg' (c := σ₁.refs) fun _ _ => rfl
    have hH : ({ H.gain σ.next with
        arrays := Function.update (H.gain σ.next).arrays x (H.arrays x - 1) } : Holders β) =
        (H.drop x).gain σ.next := by
      simp only [Holders.gain, Holders.drop, Holders.mk.injEq, and_true, Function.update_of_ne hx.symm]
      rw [Function.update_comm hx]
    rw [hH] at hwrite
    exact hwrite

/-! ### Assignments -/

theorem assignRefs_spec {slot : Option β} (hmp : k = .mp → slot ≠ none) {c : β → ℕ}
    (hpos : k = .ref → ∀ e, slot = some e → 0 < c e) :
    ∃ c', assignRefs k slot v c = some c' ∧ (k = .ref → ∀ b,
      c' b + (if slot = some b then 1 else 0) = c b + if v = b then 1 else 0) := by
  cases k with
  | fixed => exact ⟨c, rfl, fun hk => by cases hk⟩
  | mp =>
    cases slot with
    | none => exact absurd rfl (hmp rfl)
    | some e => exact ⟨c, rfl, fun hk => by cases hk⟩
  | ref =>
    cases slot with
    | none =>
      refine ⟨_, rfl, ?_⟩
      intro _ b
      by_cases hb : b = v
      · simp [hb]
      · simp [hb, Ne.symm hb]
    | some e =>
      have he := hpos rfl e rfl
      refine ⟨_, rfl, ?_⟩
      intro _ b
      by_cases hbv : b = v <;> by_cases hbe : b = e
      · subst hbv hbe
        simp
      · subst hbv
        simp [hbe, Ne.symm hbe]
      · subst hbe
        simp [hbv, Ne.symm hbv]
        omega
      · simp [hbv, hbe, Ne.symm hbv, Ne.symm hbe]

theorem Good.count_le_refs (h : Good k σ H) (hk : k = .ref) (ha : σ.heap x = some a) (b : β) :
    a.elems.count (some b) ≤ σ.refs b := by
  have hterm : slotsOf (σ.heap x) b ≤ σ.slotRefs b :=
    Finset.single_le_sum (f := fun z => slotsOf (σ.heap z) b) (fun _ _ => Nat.zero_le _)
      (Finset.mem_range.2 (h.lt_next ha))
  rw [ha] at hterm
  rw [h.refs hk]
  exact Nat.le_trans hterm (Nat.le_add_left _ _)

theorem Good.refs_pos (h : Good k σ H) (hk : k = .ref) (ha : σ.heap x = some a) {e : β}
    (he : some e ∈ a.elems) : 0 < σ.refs e :=
  Nat.lt_of_lt_of_le (List.count_pos_iff.2 he) (h.count_le_refs hk ha e)

theorem Good.setSlot (h : Good k σ H) (ha : σ.heap y = some a) (hi : i < a.max) {size : ℕ → ℕ}
    (hs : size a.size ≤ a.max) (hslack : k = .ref → i < size a.size ∧
      ∀ j, size a.size ≤ j → ∀ b, a.elems[j]? ≠ some (some b))
    (hmp : k = .mp → a.elems[i]? ≠ some none) :
    ∃ σ', setSlot k σ y i v size = some (y, σ') ∧
      σ'.heap = Function.update σ.heap y
        (some { a with size := size a.size, elems := a.elems.set i (some v) }) ∧
      σ'.next = σ.next ∧ Good k σ' H := by
  have hg := h.array y a ha
  have hlen : i < a.elems.length := hg.length_eq.symm ▸ hi
  have hslot : a.elems[i]? = some a.elems[i] := List.getElem?_eq_getElem hlen
  have hmp' : k = .mp → a.elems[i] ≠ none := by
    intro hk hnone
    rw [hslot, hnone] at hmp
    exact hmp hk rfl
  have hpos : k = .ref → ∀ e, a.elems[i] = some e → 0 < σ.refs e := by
    intro hk e he
    apply h.refs_pos hk ha
    rw [← he]
    exact List.getElem_mem hlen
  obtain ⟨c, hc, hcount⟩ := assignRefs_spec (v := v) hmp' hpos
  refine ⟨{ σ.write y { a with size := size a.size, elems := a.elems.set i (some v) } with
    refs := c }, ?_, rfl, rfl, ?_⟩
  · simp only [GroundEval.setSlot, ha, hslot, hc, Option.bind_eq_bind, Option.bind_some]
  · have hg' : GoodArray k { a with size := size a.size, elems := a.elems.set i (some v) }
        (H.arrays y) := by
      refine ⟨?_, hs, hg.max_lt, hg.count_eq, hg.pos, ?_⟩
      · rw [List.length_set, hg.length_eq]
      · intro hk j hj b hb
        obtain ⟨hlt, hnone⟩ := hslack hk
        rw [List.getElem?_set_ne (Nat.lt_of_lt_of_le hlt hj).ne] at hb
        exact hnone j hj b hb
    have hwrite := h.write ha hg' (c := c) ?_
    · rw [Function.update_eq_self] at hwrite
      exact hwrite
    · intro hk b
      have hset := List.count_set (a := some v) (b := some b) hlen
      have hin : a.elems[i] = some b → 0 < a.elems.count (some b) := by
        intro he
        rw [← he]
        exact List.count_pos_iff.2 (List.getElem_mem hlen)
      have hcb := hcount hk b
      change c b + a.elems.count (some b) = σ.refs b + (a.elems.set i (some v)).count (some b)
      simp only [beq_iff_eq, Option.some_inj] at hset
      by_cases he : a.elems[i] = some b
      · have hp := hin he
        simp only [he, if_true] at hset hcb
        omega
      · simp only [he, if_false] at hset hcb
        omega

theorem setSlot_cases {size : ℕ → ℕ} {z : ℕ} {σ' : CState β}
    (h : setSlot k σ y i v size = some (z, σ')) :
    z = y ∧ ∃ b, σ.heap y = some b ∧ i < b.elems.length ∧ (k = .mp → b.elems[i]? ≠ some none) ∧
      σ'.heap = Function.update σ.heap y
        (some { b with size := size b.size, elems := b.elems.set i (some v) }) := by
  obtain ⟨b, hb, h⟩ := Option.bind_eq_some_iff.1 h
  obtain ⟨slot, hslot, h⟩ := Option.bind_eq_some_iff.1 h
  obtain ⟨c, hc, h⟩ := Option.bind_eq_some_iff.1 h
  obtain ⟨rfl, rfl⟩ := Prod.mk.inj (Option.some.inj h)
  refine ⟨rfl, b, hb, (List.getElem?_eq_some_iff.1 hslot).1, ?_, rfl⟩
  rintro rfl hnone
  rw [hslot, Option.some_inj] at hnone
  subst hnone
  cases hc

/-! ### Growing -/

theorem newMax_lt {m : ℕ} (h : m < 2 ^ 32) : newMax m i < 2 ^ 32 := by
  unfold newMax uint32Max
  split
  · split <;> omega
  · decide

theorem lt_newMax {m : ℕ} (h : i + 1 < 2 ^ 32) : i < newMax m i := by
  unfold newMax uint32Max
  split
  · split <;> omega
  · omega

theorem newMax_le {m : ℕ} (hm : m ≤ i) (h : i + 1 = 2 ^ 32) : newMax m i ≤ i := by
  unfold newMax uint32Max
  split
  · split <;> omega
  · omega

section Grow

variable {β : Type} {a : CArray β}

theorem length_keptSlots_le {n : ℕ} (h : GoodArray k a n) : (keptSlots k a).length ≤ a.max := by
  have hlen := h.length_eq
  have hle := h.size_le
  cases k <;> simp [keptSlots] <;> omega

theorem getElem?_keptSlots {n j : ℕ} (h : GoodArray k a n) (hj : j < a.size) :
    (keptSlots k a)[j]? = a.elems[j]? := by
  cases k <;> simp [keptSlots, List.getElem?_take_of_lt hj]

theorem length_growArray (a : CArray β) (i : ℕ) :
    (growArray k a i).elems.length = newMax a.max i := by
  simp [growArray]
  omega

theorem growArray_elems {n : ℕ} (h : GoodArray k a n) (hi : a.max ≤ i) (hlt : i + 1 < 2 ^ 32) :
    (growArray k a i).elems =
      keptSlots k a ++ List.replicate (newMax a.max i - (keptSlots k a).length) none := by
  have hnew := lt_newMax (m := a.max) hlt
  have hkept := length_keptSlots_le h
  apply List.take_of_length_le
  rw [List.length_append, List.length_replicate]
  omega

/-- The array after it has grown for the index `i`. -/
structure Grown (k : ElemKind) (a : CArray β) (i : ℕ) (b : CArray β) : Prop where
  good : GoodArray k b 1
  lt_max : i < b.max
  old : ∀ j < a.size, b.elems[j]? = a.elems[j]?
  slot : b.elems[i]? = some none
  slack : k = .ref → ∀ j, a.size ≤ j → ∀ e, b.elems[j]? ≠ some (some e)

theorem grown_growArray {n : ℕ} (h : GoodArray k a n) (hi : a.max ≤ i) (hlt : i + 1 < 2 ^ 32) :
    Grown k a i (growArray k a i) := by
  have hnew := lt_newMax (m := a.max) hlt
  have hkept := length_keptSlots_le h
  have helems := growArray_elems h hi hlt
  have hslack : k = .ref → ∀ j, a.size ≤ j → ∀ e, (growArray k a i).elems[j]? ≠ some (some e) := by
    rintro rfl j hj e he
    have hle : (keptSlots .ref a).length ≤ j := by
      simp only [keptSlots, List.length_take]
      omega
    rw [helems, List.getElem?_append_right hle] at he
    have hmem := List.mem_of_getElem? he
    rw [List.mem_replicate] at hmem
    cases hmem.2
  refine ⟨⟨length_growArray a i, ?_, newMax_lt h.max_lt, rfl, Nat.one_pos, ?_⟩, hnew, ?_, ?_, hslack⟩
  · have hsize := h.size_le
    change (growArray k a i).size ≤ newMax a.max i
    cases k <;> simp only [growArray, Nat.mod_eq_of_lt hlt] <;> omega
  · rintro rfl
    exact hslack rfl
  · intro j hj
    have hlen := h.length_eq
    have hsize := h.size_le
    have hjk := getElem?_keptSlots h hj
    have hlt : j < (keptSlots k a).length := by
      apply (List.getElem?_eq_some_iff.1 (hjk.trans (List.getElem?_eq_getElem (by omega)))).1
    rw [helems, List.getElem?_append_left hlt, hjk]
  · rw [helems, List.getElem?_append_right (Nat.le_trans hkept hi), List.getElem?_replicate, if_pos]
    omega

end Grow

theorem count_growArray {n : ℕ} (h : GoodArray k a n) (hi : a.max ≤ i) (hlt : i + 1 < 2 ^ 32)
    (hk : k = .ref) (b : β) :
    (growArray k a i).elems.count (some b) = a.elems.count (some b) := by
  have hkept : keptSlots k a = a.elems.take a.size := by
    subst hk
    rfl
  rw [growArray_elems h hi hlt, List.count_append, hkept, h.count_take hk]
  simp [List.count_replicate]

theorem drop_gain_self {β : Type} {H : Holders β} (h : 0 < H.arrays x) :
    (H.drop x).gain x = H := by
  have hx : H.arrays x - 1 + 1 = H.arrays x := Nat.sub_add_cancel h
  simp [Holders.gain, Holders.drop, hx]

theorem Good.reallocArray (h : Good k σ H) (ha : σ.heap x = some a) (hc : a.count = 1)
    (hi : a.max ≤ i) (hlt : i + 1 < 2 ^ 32) (moved : Bool) :
    ∃ y σ', reallocArray k σ x i a moved = (y, σ') ∧ (y = x ∨ σ.heap y = none) ∧
      σ'.heap y = some (growArray k a i) ∧ (∀ z, z ≠ x → z ≠ y → σ'.heap z = σ.heap z) ∧
        Good k σ' ((H.drop x).gain y) := by
  have hg := h.array x a ha
  have hgrown := (grown_growArray hg hi hlt).good
  have hone : H.arrays x = 1 := hg.count_eq.symm.trans hc
  have hcount := count_growArray hg hi hlt
  cases moved with
  | true =>
    have hx : x ≠ σ.next := (h.lt_next ha).ne
    refine ⟨_, _, rfl, .inr (h.fresh _ (Nat.le_refl _)), CState.alloc_heap_self _ _, ?_, ?_⟩
    · intro z hzx hzy
      have hz := CState.alloc_heap_of_ne (σ.free x) (growArray k a i) hzy
      rw [CState.free_heap_of_ne σ hzx] at hz
      exact hz
    · have hfree := h.free ha (c := fun b => σ.refs b - a.elems.count (some b)) ?_
      · have halloc := hfree.alloc hgrown (c := σ.refs) ?_
        · have hH : ({ H with arrays := Function.update (Function.update H.arrays x 0) σ.next 1 } :
              Holders β) = (H.drop x).gain σ.next := by
            simp [Holders.gain, Holders.drop, hone, hx.symm, h.not_held]
          rw [← hH]
          exact halloc
        · intro hk b
          have hle := h.count_le_refs hk ha b
          rw [hcount hk]
          exact (Nat.sub_add_cancel hle).symm
      · intro hk b
        exact Nat.sub_add_cancel (h.count_le_refs hk ha b)
  | false =>
    refine ⟨_, _, rfl, .inl rfl, CState.write_heap_self _ _, ?_, ?_⟩
    · intro z hzx _
      exact CState.write_heap_of_ne σ _ hzx
    · have hwrite := h.write ha hgrown (c := σ.refs) fun hk b => by rw [hcount hk]
      rw [drop_gain_self (hone ▸ Nat.one_pos)]
      have hH : ({ H with arrays := Function.update H.arrays x 1 } : Holders β) = H := by
        rw [← hone, Function.update_eq_self]
      rw [hH] at hwrite
      exact hwrite

end PVS.GroundEval
