import PVS.GroundEval.ClosureHash

/-! Updates of a closure up to the first resize, and what the resize does. -/

namespace PVS.GroundEval

open PVS.Library PVS.Library.CInt

variable {K V : Type} [DecidableEq K] {D : KeyType K}

/-! ### Where a resize puts the entries -/

theorem xor_63 {y : ℕ} (hy : y < 64) : y ^^^ 63 = 63 - y := by
  revert y
  decide

theorem lt_of_xor_63_lt {h : ℕ} (hx : h ^^^ 63 < 64) : h < 64 := by
  have hlt : (h ^^^ 63) ^^^ 63 < 2 ^ 6 := Nat.xor_lt_two_pow hx (by decide)
  rwa [Nat.xor_assoc, Nat.xor_self, Nat.xor_zero] at hlt

/-- The slots that the loop can try for a hash `h` below 64. -/
def TransferSlot (h j : ℕ) : Prop := h < 64 ∧ j < 64 ∧ (j + h = 63 ∨ j + 1 = h)

theorem TransferSlot.start {h : ℕ} (hx : h ^^^ 63 < 64) : TransferSlot h (h ^^^ 63) := by
  have hh := lt_of_xor_63_lt hx
  refine ⟨hh, hx, .inl ?_⟩
  rw [xor_63 hh]
  omega

theorem TransferSlot.next {h j : ℕ} (ht : TransferSlot h j) (hx : (j + 1) ^^^ 63 < 64) :
    TransferSlot h ((j + 1) ^^^ 63) := by
  obtain ⟨hh, hj, hs⟩ := ht
  have hj' := lt_of_xor_63_lt hx
  refine ⟨hh, hx, ?_⟩
  rw [xor_63 hj']
  omega

theorem newStop_lt {newData : List (HashEntry K V)} {j : ℕ} {b : Bool}
    (h : newStop D newData j = some b) : j < newData.length := by
  by_contra hj
  rw [newStop, List.getElem?_eq_none (Nat.not_lt.1 hj)] at h
  cases h

theorem transferSlot_of_search {newData : List (HashEntry K V)} (hlen : newData.length = 64)
    {h j : ℕ} (hs : search (fun newLoc => (newLoc + 1) ^^^ 63) (newStop D newData) 64 (h ^^^ 63) =
      some j) : TransferSlot h j := by
  obtain ⟨d, -, rfl, hstop, hbefore⟩ := search_eq_some_iff.1 hs
  have hlt : ∀ c ≤ d, (fun newLoc => (newLoc + 1) ^^^ 63)^[c] (h ^^^ 63) < 64 := by
    intro c hc
    rw [← hlen]
    rcases Nat.lt_or_eq_of_le hc with hc | rfl
    · exact newStop_lt (hbefore c hc)
    · exact newStop_lt hstop
  have hall : ∀ c ≤ d, TransferSlot h ((fun newLoc => (newLoc + 1) ^^^ 63)^[c] (h ^^^ 63)) := by
    intro c
    induction c with
    | zero =>
      intro hc
      exact TransferSlot.start (hlt 0 hc)
    | succ c ih =>
      intro hc
      have hnext := hlt (c + 1) hc
      rw [Function.iterate_succ_apply'] at hnext ⊢
      exact (ih (Nat.le_of_succ_le hc)).next hnext
  exact hall d (Nat.le_refl d)

/-- The table of 64 slots while entries are transferred. -/
def TransferInv (D : KeyType K) (newData : List (HashEntry K V)) : Prop :=
  newData.length = 64 ∧ ∀ (j : ℕ) (e : HashEntry K V), newData[j]? = some e → Occupied D e →
    TransferSlot e.keyhash.toNat j

theorem TransferInv.transferEntry {newData newData' : List (HashEntry K V)}
    (h : TransferInv D newData) {e : HashEntry K V}
    (ht : transferEntry D 64 newData e = some newData') : TransferInv D newData' := by
  simp only [GroundEval.transferEntry, isEmpty_eq, Option.bind_eq_bind, Option.bind_some,
    decide_eq_true_eq] at ht
  by_cases ho : Occupied D e
  · simp only [ho, not_true, if_false] at ht
    obtain ⟨j, hj, hset⟩ := Option.bind_eq_some_iff.1 ht
    rw [Option.some_inj] at hset
    subst hset
    refine ⟨by rw [List.length_set, h.1], ?_⟩
    intro j' e' he' ho'
    rcases getElem?_set_cases he' with ⟨rfl, rfl⟩ | ⟨-, he'⟩
    · exact transferSlot_of_search h.1 hj
    · exact h.2 j' e' he' ho'
  · simp only [ho, not_false_iff, if_true, Option.some_inj] at ht
    exact ht ▸ h

theorem TransferInv.foldlM {l : List (HashEntry K V)} {newData newData' : List (HashEntry K V)}
    (h : TransferInv D newData) (hl : l.foldlM (GroundEval.transferEntry D 64) newData = some newData') :
    TransferInv D newData' := by
  induction l generalizing newData with
  | nil =>
    obtain rfl : newData = newData' := Option.some.inj hl
    exact h
  | cons e l ih =>
    rw [List.foldlM_cons] at hl
    obtain ⟨newData₁, h₁, hl⟩ := Option.bind_eq_some_iff.1 hl
    exact ih (h.transferEntry h₁) hl

theorem resize_spec {t t' : Htbl K V} (hs : t.size = 32) (h : resize D t = some t') :
    t'.size = 64 ∧ t'.numEntries = t.numEntries ∧ TransferInv D t'.data := by
  have hmax : ¬htblMaxSize ≤ 32 := by decide
  simp only [resize, hs, hmax, if_false] at h
  obtain ⟨data, hdata, h⟩ := Option.bind_eq_some_iff.1 h
  obtain rfl := Option.some.inj h
  refine ⟨rfl, rfl, TransferInv.foldlM ⟨by simp, ?_⟩ hdata⟩
  intro j e he ho
  have hmem := List.mem_of_getElem? he
  rw [List.mem_replicate] at hmem
  rw [hmem.2] at ho
  exact absurd ⟨rfl, rfl⟩ ho

/-- The write after the resize changes one slot, which gets the key `i`. -/
theorem setEntry_cases {t t' : Htbl K V} {p : ℕ} (hp : t.size = 2 ^ p) {i : K} {v : V}
    (h : setEntry D t i v = some t') :
    ∃ j e, t'.data = t.data.set j e ∧ e.key = i ∧ t'.size = t.size ∧
      t'.numEntries ≤ t.numEntries + 1 := by
  obtain ⟨j, hl, h⟩ := Option.bind_eq_some_iff.1 h
  obtain ⟨e, he, h⟩ := Option.bind_eq_some_iff.1 h
  obtain ⟨-, -, -, hstop, -⟩ := (lookupHtbl_eq_some_iff hp i (D.hash i) j).1 hl
  rw [lookupStop_eq he, Option.some_inj, decide_eq_true_iff] at hstop
  simp only [isEmpty_eq, Option.bind_eq_bind, Option.bind_some, decide_eq_true_eq] at h
  by_cases ho : Occupied D e
  · simp only [ho, not_true, if_false, Option.some_inj] at h
    subst h
    exact ⟨j, _, rfl, (hstop.resolve_left (not_not.2 ho)).2, rfl, Nat.le_succ _⟩
  · simp only [ho, not_false_iff, if_true, Option.some_inj] at h
    subst h
    exact ⟨j, _, rfl, rfl, rfl, Nat.le_refl _⟩

/-! ### The slots are not reached -/

/-- Twenty entries in slots of the transfer are not all reached when at most 22 slots are full. -/
theorem not_all_reached {full U : Finset ℕ} (hfull : full.card ≤ 22) (hused : 20 ≤ U.card)
    (hsub : U ⊆ full)
    (hreach : ∀ u ∈ U, ∃ h, TransferSlot h u ∧ ∃ d < 64, (h + d) % 64 = u ∧
      ∀ c < d, (h + c) % 64 ∈ full) : False := by
  -- a slot that is U is the complement of its hash
  have hcompl : ∀ u ∈ U, u < 64 ∧ ∃ d < 64, (63 - u + d) % 64 = u ∧
      ∀ c < d, (63 - u + c) % 64 ∈ full := by
    intro u hu
    obtain ⟨h, ⟨hh, hu64, hs⟩, d, hd, hdu, hc⟩ := hreach u hu
    refine ⟨hu64, ?_⟩
    rcases hs with hs | hs
    · obtain rfl : h = 63 - u := by omega
      exact ⟨d, hd, hdu, hc⟩
    · have hall : (Finset.range 64).erase u ⊆ full := by
        intro j hj
        rw [Finset.mem_erase, Finset.mem_range] at hj
        have hmem := hc ((j + 64 - h) % 64) (by omega)
        rwa [show (h + (j + 64 - h) % 64) % 64 = j by omega] at hmem
      have hcard := Finset.card_le_card hall
      rw [Finset.card_erase_of_mem (Finset.mem_range.2 hu64), Finset.card_range] at hcard
      omega
  -- at most two full slots are not U
  have hrest : ∀ a b c : ℕ, a ∈ full → b ∈ full → c ∈ full → a < b → b < c →
      a ∈ U ∨ b ∈ U ∨ c ∈ U := by
    intro a b c ha hb hc hab hbc
    by_contra hne
    have hsdiff : ({a, b, c} : Finset ℕ) ⊆ full \ U := by
      intro x hx
      simp only [Finset.mem_insert, Finset.mem_singleton] at hx
      rw [Finset.mem_sdiff]
      rcases hx with rfl | rfl | rfl <;> tauto
    have hthree : ({a, b, c} : Finset ℕ).card = 3 := by
      rw [Finset.card_eq_three]
      exact ⟨a, b, c, hab.ne, (hab.trans hbc).ne, hbc.ne, rfl⟩
    have hcard := Finset.card_le_card hsdiff
    rw [hthree, Finset.card_sdiff_of_subset hsub] at hcard
    omega
  -- a U slot in the middle needs half of the table
  have hmiddle : ∀ w ∈ U, ¬(29 ≤ w ∧ w ≤ 31) := by
    rintro w hw ⟨hw₁, hw₂⟩
    obtain ⟨-, d, hd, hdw, hc⟩ := hcompl w hw
    have hall : Finset.range 29 ⊆ full := by
      intro j hj
      rw [Finset.mem_range] at hj
      have hmem := hc (1 + w + j) (by omega)
      rwa [show (63 - w + (1 + w + j)) % 64 = j by omega] at hmem
    have hcard := Finset.card_le_card hall
    rw [Finset.card_range] at hcard
    omega
  have hhigh : ∀ w ∈ U, ¬34 ≤ w := by
    intro w hw hw₁
    obtain ⟨hw64, d, hd, hdw, hc⟩ := hcompl w hw
    have hmem : ∀ j, 29 ≤ j → j ≤ 31 → j ∈ full := by
      intro j hj₁ hj₂
      have hmem := hc (j - (63 - w)) (by omega)
      rwa [show (63 - w + (j - (63 - w))) % 64 = j by omega] at hmem
    rcases hrest 29 30 31 (hmem 29 (by decide) (by decide)) (hmem 30 (by decide) (by decide))
      (hmem 31 (by decide) (by decide)) (by decide) (by decide) with h | h | h
    · exact hmiddle 29 h (by decide)
    · exact hmiddle 30 h (by decide)
    · exact hmiddle 31 h (by decide)
  have hlow : ∀ w ∈ U, ¬(2 ≤ w ∧ w ≤ 31) := by
    rintro w hw ⟨hw₁, hw₂⟩
    obtain ⟨-, d, hd, hdw, hc⟩ := hcompl w hw
    have hmem : ∀ j, 61 ≤ j → j ≤ 63 → j ∈ full := by
      intro j hj₁ hj₂
      have hmem := hc (j - (63 - w)) (by omega)
      rwa [show (63 - w + (j - (63 - w))) % 64 = j by omega] at hmem
    rcases hrest 61 62 63 (hmem 61 (by decide) (by decide)) (hmem 62 (by decide) (by decide))
      (hmem 63 (by decide) (by decide)) (by decide) (by decide) with h | h | h
    · exact hhigh 61 h (by decide)
    · exact hhigh 62 h (by decide)
    · exact hhigh 63 h (by decide)
  have hfew : U ⊆ {0, 1, 32, 33} := by
    intro w hw
    have h₁ := hlow w hw
    have h₂ := hhigh w hw
    simp only [Finset.mem_insert, Finset.mem_singleton]
    omega
  have hcard := Finset.card_le_card hfew
  simp at hcard
  omega

/-- After the resize of a table with 21 keys and the write that follows, a key is not found. -/
theorem not_right_of_resize {t t₁ t₂ : Htbl K V} {m : K → Option V} (hs : t.size = 32)
    (hn : t.numEntries = 21) {keys : Finset K} (hkeys : keys.card = 21)
    (hm : ∀ k ∈ keys, (m k).isSome) (h₁ : resize D t = some t₁) {i : K} {v : V}
    (h₂ : setEntry D t₁ i v = some t₂) (hinv : TableInv D t₂ (Function.update m i (some v)))
    (hfinds : ∀ k, Finds D t₂ k (Function.update m i (some v) k)) : False := by
  classical
  obtain ⟨hsize₁, hnum₁, hlen₁, hslots⟩ := resize_spec hs h₁
  have hp₁ : t₁.size = 2 ^ 6 := hsize₁
  obtain ⟨j₀, e₀, hdata, hkey₀, hsize₂, hnum₂⟩ := setEntry_cases hp₁ h₂
  have hsize : t₂.size = 64 := hsize₂.trans hsize₁
  have hp₂ : t₂.size = 2 ^ 6 := hsize
  -- where the lookups of the old keys end
  have hslot : ∀ k ∈ keys.erase i, ∃ j e, t₂.data[j]? = some e ∧ Occupied D e ∧ e.key = k ∧
      TransferSlot (D.hash k).toNat j ∧ ∃ d < 64, ((D.hash k).toNat + d) % 64 = j ∧
        ∀ c < d, Full D t₂ (((D.hash k).toNat + c) % 64) := by
    intro k hk
    obtain ⟨hki, hk⟩ := Finset.mem_erase.1 hk
    obtain ⟨w, hw⟩ := Option.isSome_iff_exists.1 (hm k hk)
    obtain ⟨j, e, hl, he, ho, hv⟩ := hfinds k
    rw [Function.update_of_ne hki, hw] at ho hv
    have hocc : Occupied D e := ho.2 rfl
    obtain ⟨hek, -⟩ := hv w rfl
    obtain ⟨d, hd, hj, -, hbefore⟩ := (lookupHtbl_eq_some_iff hp₂ k (D.hash k) j).1 hl
    rw [hsize] at hd hj
    refine ⟨j, e, he, hocc, hek, ?_, d, hd, hj, ?_⟩
    · have hold : t₁.data[j]? = some e := by
        rw [hdata] at he
        rcases getElem?_set_cases he with ⟨-, rfl⟩ | ⟨-, he⟩
        · exact absurd (hek.symm.trans hkey₀) hki
        · exact he
      rw [← hek, ← (hinv.reach j e he hocc).1]
      exact hslots j e hold hocc
    · intro c hc
      have hstop := hbefore c hc
      rw [hsize] at hstop
      cases hec : t₂.data[((D.hash k).toNat + c) % 64]? with
      | none =>
        rw [lookupStop, hec] at hstop
        cases hstop
      | some e' =>
        rw [lookupStop_eq hec, Option.some_inj, decide_eq_false_iff_not] at hstop
        exact ⟨e', hec, not_not.1 fun hne => hstop (.inl hne)⟩
  have : Nonempty (HashEntry K V) := ⟨emptyEntry D⟩
  choose! slot entry hentry hocc hkey hts hreach using hslot
  have hfullcard : ((Finset.range 64).filter fun j => Full D t₂ j).card ≤ 22 := by
    have hcount := card_filter_range_eq_countP (fun e => decide (Occupied D e)) t₂.data
    rw [hinv.length_eq, hsize, ← hinv.count] at hcount
    have hcongr : ((Finset.range 64).filter fun j => Full D t₂ j) =
        (Finset.range 64).filter fun j =>
          (t₂.data[j]?.any fun e => decide (Occupied D e)) = true := by
      apply Finset.filter_congr
      intro j _
      simp [Full, Option.any_eq_true]
    rw [hcongr, hcount]
    omega
  apply not_all_reached hfullcard (U := (keys.erase i).image slot)
  · rw [Finset.card_image_of_injOn]
    · have hcard := Finset.pred_card_le_card_erase (a := i) (s := keys)
      omega
    · intro k hk k' hk' heq
      have he := hentry k hk
      rw [show slot k = slot k' from heq, hentry k' hk', Option.some_inj] at he
      rw [← hkey k hk, ← hkey k' hk', he]
  · intro u hu
    obtain ⟨k, hk, rfl⟩ := Finset.mem_image.1 hu
    rw [Finset.mem_filter, Finset.mem_range]
    exact ⟨(hts k hk).2.1, entry k, hentry k hk, hocc k hk⟩
  · intro u hu
    obtain ⟨k, hk, rfl⟩ := Finset.mem_image.1 hu
    obtain ⟨d, hd, hdu, hc⟩ := hreach k hk
    refine ⟨(D.hash k).toNat, hts k hk, d, hd, hdu, ?_⟩
    intro c hcd
    rw [Finset.mem_filter, Finset.mem_range]
    exact ⟨Nat.mod_lt _ (by decide), hc c hcd⟩

/-! ### Runs -/

def keysOf (ops : List (K × V)) : Finset K := (ops.map Prod.fst).toFinset

theorem keysOf_concat (ops : List (K × V)) (op : K × V) :
    keysOf (ops ++ [op]) = insert op.1 (keysOf ops) := by
  simp [keysOf, Finset.union_comm]

theorem lastValue_concat (ops : List (K × V)) (op : K × V) :
    lastValue (ops ++ [op]) = Function.update (lastValue ops) op.1 (some op.2) := by
  simp [lastValue]

theorem lastValue_isSome_iff (ops : List (K × V)) (k : K) :
    (lastValue ops k).isSome ↔ k ∈ keysOf ops := by
  induction ops using List.reverseRecOn with
  | nil => simp [lastValue, keysOf]
  | append_singleton ops op ih =>
    rw [lastValue_concat, keysOf_concat, Finset.mem_insert, ← ih]
    by_cases hk : k = op.1
    · simp [hk]
    · simp [hk]

theorem card_keysOf_concat (ops : List (K × V)) (op : K × V) :
    (keysOf (ops ++ [op])).card =
      (keysOf ops).card + if lastValue ops op.1 = none then 1 else 0 := by
  rw [keysOf_concat]
  by_cases hk : op.1 ∈ keysOf ops
  · have hsome := (lastValue_isSome_iff ops op.1).2 hk
    rw [Finset.insert_eq_of_mem hk, if_neg (Option.isSome_iff_ne_none.1 hsome)]
    rfl
  · have hnone : lastValue ops op.1 = none := by
      rw [← lastValue_isSome_iff] at hk
      simpa using hk
    rw [Finset.card_insert_of_notMem hk, if_pos hnone]

/-- The table of a closure that was not resized. -/
structure SmallInv (D : KeyType K) (f : K → V) (ops : List (K × V)) (a : Closure K V) : Prop where
  hptr_eq : a.hptr = f
  size_eq : (a.htbl.getD (newHtbl D)).size = 32
  num_eq : (a.htbl.getD (newHtbl D)).numEntries = (keysOf ops).card
  inv : TableInv D (a.htbl.getD (newHtbl D)) (lastValue ops)
  htbl_none : a.htbl = none → ops = []

theorem SmallInv.refines {f : K → V} {ops : List (K × V)} {a : Closure K V}
    (h : SmallInv D f ops a) : Refines D f (lastValue ops) a := by
  have hfinds : ∀ i, Finds D (a.htbl.getD (newHtbl D)) i (lastValue ops i) := by
    have hp : (a.htbl.getD (newHtbl D)).size = 2 ^ 5 := h.size_eq
    exact h.inv.finds hp
  refine ⟨?_, ?_⟩
  · intro i
    cases ha : a.htbl with
    | none =>
      rw [h.htbl_none ha, closureFptr, ha, h.hptr_eq]
      rfl
    | some t =>
      have hf := hfinds i
      rw [ha] at hf
      rw [closureFptr_eq ha hf, h.hptr_eq]
  · intro t ha
    have hinv := h.inv
    rw [ha] at hinv hfinds
    exact ⟨hinv, hfinds⟩

theorem SmallInv.dupdate {f : K → V} {ops : List (K × V)} {a : Closure K V}
    (h : SmallInv D f ops a) (hk : (keysOf ops).card ≤ 20) (op : K × V) :
    ∃ a', dupdate D a op.1 op.2 = some a' ∧ SmallInv D f (ops ++ [op]) a' := by
  have hp : (a.htbl.getD (newHtbl D)).size = 2 ^ 5 := h.size_eq
  have hlt : (a.htbl.getD (newHtbl D)).numEntries + 1 < (a.htbl.getD (newHtbl D)).size := by
    rw [h.num_eq, h.size_eq]
    omega
  have hsmall : ¬(a.htbl.getD (newHtbl D)).size / 5 < (a.htbl.getD (newHtbl D)).numEntries / 3 := by
    rw [h.num_eq, h.size_eq]
    omega
  obtain ⟨t', ht', hsize, hnum, hinv⟩ := h.inv.setEntry hp op.1 op.2 hlt
  refine ⟨{ a with htbl := some t' }, ?_, h.hptr_eq, hsize.trans h.size_eq, ?_, ?_, ?_⟩
  · simp [GroundEval.dupdate, hsmall, ht']
  · rw [card_keysOf_concat, ← h.num_eq]
    exact hnum
  · rw [lastValue_concat]
    exact hinv
  · intro hnone
    cases hnone

theorem dupdates_concat (f : K → V) (ops : List (K × V)) (op : K × V) :
    dupdates D f (ops ++ [op]) = (dupdates D f ops).bind fun a => dupdate D a op.1 op.2 := by
  rw [dupdates, List.foldlM_append]
  cases h : dupdates D f ops with
  | none =>
    rw [dupdates] at h
    simp [h]
  | some a =>
    rw [dupdates] at h
    simp [h]

theorem card_keysOf_le {ops ops' : List (K × V)} (h : ops' <+: ops) :
    (keysOf ops').card ≤ (keysOf ops).card := by
  apply Finset.card_le_card
  intro k hk
  simp only [keysOf, List.mem_toFinset, List.mem_map] at hk ⊢
  obtain ⟨op, hop, rfl⟩ := hk
  exact ⟨op, h.subset hop, rfl⟩

theorem dropLast_prefix_dropLast {β : Type} {ops ops' : List β} (h : ops' <+: ops) :
    ops'.dropLast <+: ops.dropLast := by
  cases ops using List.reverseRecOn with
  | nil =>
    rw [List.prefix_nil] at h
    rw [h]
  | append_singleton ops op =>
    rw [List.dropLast_concat]
    rcases List.prefix_concat_iff.1 h with rfl | h
    · rw [List.dropLast_concat]
    · exact (List.dropLast_prefix ops').trans h

theorem dupdates_small (f : K → V) (ops : List (K × V)) (h : (keysOf ops.dropLast).card ≤ 20) :
    ∃ a, dupdates D f ops = some a ∧ SmallInv D f ops a := by
  induction ops using List.reverseRecOn with
  | nil => exact ⟨⟨f, none⟩, rfl, rfl, rfl, rfl, newHtbl_inv, fun _ => rfl⟩
  | append_singleton ops op ih =>
    rw [List.dropLast_concat] at h
    obtain ⟨a, ha, hinv⟩ := ih (Nat.le_trans (card_keysOf_le (List.dropLast_prefix ops)) h)
    obtain ⟨a', ha', hinv'⟩ := hinv.dupdate h op
    refine ⟨a', ?_, hinv'⟩
    rw [dupdates_concat, ha]
    exact ha'

/-- The update that finds 21 keys in the table resizes it and loses one. -/
theorem not_refines_of_resize (f : K → V) {ops : List (K × V)} (h : (keysOf ops.dropLast).card ≤ 20)
    (h21 : (keysOf ops).card = 21) (op : K × V) :
    ¬∃ a, dupdates D f (ops ++ [op]) = some a ∧ Refines D f (lastValue (ops ++ [op])) a := by
  rintro ⟨a', ha', href⟩
  obtain ⟨a, ha, hinv⟩ := dupdates_small (D := D) f ops h
  rw [dupdates_concat, ha, Option.bind_some, dupdate] at ha'
  have hlarge : (a.htbl.getD (newHtbl D)).size / 5 < (a.htbl.getD (newHtbl D)).numEntries / 3 := by
    rw [hinv.num_eq, hinv.size_eq, h21]
    decide
  simp only [hlarge, if_true] at ha'
  obtain ⟨t₁, h₁, ha'⟩ := Option.bind_eq_some_iff.1 ha'
  obtain ⟨t₂, h₂, ha'⟩ := Option.bind_eq_some_iff.1 ha'
  obtain rfl := Option.some.inj ha'
  obtain ⟨htable, hfinds⟩ := href.table t₂ rfl
  rw [lastValue_concat] at htable hfinds
  exact not_right_of_resize hinv.size_eq (hinv.num_eq.trans h21) h21
    (fun k hk => (lastValue_isSome_iff ops k).2 hk) h₁ h₂ htable hfinds

/-- A run that resizes has a first resize. -/
theorem exists_first_resize (ops : List (K × V)) (h : 20 < (keysOf ops.dropLast).card) :
    ∃ ops' op, ops' ++ [op] <+: ops ∧ (keysOf ops'.dropLast).card ≤ 20 ∧
      (keysOf ops').card = 21 := by
  induction ops using List.reverseRecOn with
  | nil => simp [keysOf] at h
  | append_singleton ops op ih =>
    rw [List.dropLast_concat] at h
    rcases Nat.lt_or_ge 20 (keysOf ops.dropLast).card with hlt | hle
    · obtain ⟨ops', op', hpre, hsmall⟩ := ih hlt
      exact ⟨ops', op', hpre.trans (List.prefix_append ops [op]), hsmall⟩
    · refine ⟨ops, op, List.prefix_refl _, hle, ?_⟩
      cases ops using List.reverseRecOn with
      | nil => simp [keysOf] at h
      | append_singleton ops op' =>
        rw [List.dropLast_concat] at hle
        rw [card_keysOf_concat] at h ⊢
        split at h <;> simp_all <;> omega

theorem refines_of_small (f : K → V) (ops : List (K × V)) :
    (∀ ops', ops' <+: ops → ∃ a, dupdates D f ops' = some a ∧ Refines D f (lastValue ops') a) ↔
      (keysOf ops.dropLast).card ≤ 20 := by
  constructor
  · intro h
    by_contra hlt
    obtain ⟨ops', op, hpre, hsmall, h21⟩ := exists_first_resize ops (Nat.not_le.1 hlt)
    exact not_refines_of_resize f hsmall h21 op (h _ hpre)
  · intro h ops' hpre
    have hmono := card_keysOf_le (dropLast_prefix_dropLast hpre)
    obtain ⟨a, ha, hinv⟩ := dupdates_small (D := D) f ops' (Nat.le_trans hmono h)
    exact ⟨a, ha, hinv.refines⟩

/-- The `uint32` keys `0, .., n - 1`, each with itself as its value. -/
def firstKeys (n : ℕ) : List (Key (.fix (.uint .w32)) × ℕ) :=
  (List.range n).map fun (k : ℕ) =>
    (⟨.fix ⟨.uint .w32, (IntType.uint .w32).wrap k, IntType.wrap_inRange _ _⟩, rfl⟩, k)

end PVS.GroundEval
