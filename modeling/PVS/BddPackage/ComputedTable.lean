import Mathlib
import PVS.BddPackage.UniqueTable

/-! The computed table, and what is done for the nodes that are dead. -/

namespace PVS.BddPackage

open Library

variable {cfg : Config} {s : Store} {c : Counters} {σ σ' : Package} {ext : ℕ → ℤ}
  {F G H R : BddPtr} {f g k : Bdd} {key : CacheKey}

/-- `BITS` of an edge or of the address of a function -/
def CacheKey.bits (cfg : Config) : CacheKey → ℕ
  | .edge F => F.bits
  | .func f => cfg.funcBits f

/-- `hash_C`, computed in 32 bits. -/
def hashC (cfg : Config) (F : CacheKey) (G H : BddPtr) (log2size : ℕ) : ℕ :=
  (0x9E3779B1 * (F.bits cfg ^^^ (G.bits <<< 7) ^^^ (H.bits <<< 9)) % 2 ^ 32) >>> (32 - log2size)

namespace Package

/-! ### Look-up and insertion -/

/-- `bdd_lookup_computed_table_no_reclaim` -/
def lookupNoReclaim (cfg : Config) (σ : Package) (F : CacheKey) (G H : BddPtr) : Option BddPtr :=
  let t := σ.computedTable
  (t.entries (hashC cfg F G H t.log2size)).bind fun e =>
    if F = e.F ∧ G = e.G ∧ H = e.H then some e.R else none

/-- The rest of `bdd_lookup_computed_table` -/
def reclaimDead (σ : Package) (R : BddPtr) : Option Package :=
  if σ.refcounts R.addr = 0 ∧ σ.heap.internP R = true then
    (Counters.reclaim σ.heap (bddTermid + 1) σ.toCounters R).map fun c => { σ with toCounters := c }
  else some σ

/-- `bdd_insert_computed_table` -/
def insertComputedTable (cfg : Config) (σ : Package) (F : CacheKey) (G H R : BddPtr) : Package :=
  let t := σ.computedTable
  { σ with
    computedTable :=
      { t with
        entries := Function.update t.entries (hashC cfg F G H t.log2size) (some ⟨F, G, H, R⟩) } }

/-- An entry that names no dead node -/
def liveEntry (c : Counters) (e : ComputedTableEntry) : Bool :=
  (match e.F with
    | .edge F => decide (c.refcounts F.addr ≠ 0)
    | .func _ => true) &&
  decide (c.refcounts e.G.addr ≠ 0 ∧ c.refcounts e.H.addr ≠ 0 ∧ c.refcounts e.R.addr ≠ 0)

/-- `bdd_flush_computed_table` -/
def flushComputedTable (σ : Package) : Package :=
  { σ with
    computedTable :=
      { σ.computedTable with
        entries := fun i => (σ.computedTable.entries i).filter (liveEntry σ.toCounters) } }

/-- `bdd_extend_computed_table` -/
def extendComputedTable (cfg : Config) (σ : Package) : Package :=
  let t := σ.computedTable
  if 2 * 2 ^ t.log2size < σ.nrEntries ∧ t.log2size < 20 then
    ((List.range (2 ^ t.log2size)).filterMap fun i =>
        (t.entries i).filter (liveEntry σ.toCounters)).foldl
      (fun σ e => σ.insertComputedTable cfg e.F e.G e.H e.R)
      { σ with computedTable := ⟨t.log2size + 1, fun _ => none⟩ }
  else σ

/-! ### Garbage collection -/

def deadP (c : Counters) (a : ℕ) : Bool := decide (c.refcounts a = 0)

/-- The dead nodes of a table are taken out, and the table may shrink. -/
def sweepTable (cfg : Config) (σ : Package) (t : ChainedTable ℕ) : ChainedTable ℕ :=
  let t' := t.filter fun a => !deadP σ.toCounters a
  if t'.items.length < (t.size >>> 2) * cfg.loadFactor then Store.resize σ.hash t' false else t'

/-- The dead nodes, in the order in which they are freed -/
def freed (σ : Package) : List ℕ :=
  (List.range σ.count).flatMap fun i => (σ.tables (σ.space i)).items.filter (deadP σ.toCounters)

/-- `bdd_gc_aux` -/
def bddGcAux (cfg : Config) (σ : Package) : Package :=
  { σ with
    tables := fun v => if v < σ.count then σ.sweepTable cfg (σ.tables v) else σ.tables v
    freeList := σ.freed.reverse ++ σ.freeList
    nrItems := σ.nrItems - σ.freed.length
    nrDeadNodes := σ.nrDeadNodes - σ.freed.length }

/-- `bdd_gc` -/
def bddGc (cfg : Config) (σ : Package) : Package := σ.flushComputedTable.bddGcAux cfg

/-! ### What is kept in the table is valid -/

theorem mem_of_lookupNoReclaim (h : σ.lookupNoReclaim cfg key G H = some R) :
    ∃ i, σ.computedTable.entries i = some ⟨key, G, H, R⟩ := by
  obtain ⟨⟨F', G', H', R'⟩, hentry, hmatch⟩ := Option.bind_eq_some_iff.1 h
  dsimp only at hmatch
  split at hmatch
  · rename_i heq
    obtain ⟨rfl, rfl, rfl⟩ := heq
    cases hmatch
    exact ⟨_, hentry⟩
  · cases hmatch

namespace Inv

variable (hi : σ.Inv cfg ext)
include hi

theorem lookup (h : σ.lookupNoReclaim cfg key G H = some R) :
    EntryOk cfg σ.toStore ⟨key, G, H, R⟩ := by
  obtain ⟨i, hentry⟩ := mem_of_lookupNoReclaim h
  exact hi.cache i _ hentry

theorem setComputedTable {t : ComputedTable}
    (ht : ∀ i e, t.entries i = some e → EntryOk cfg σ.toStore e) :
    ({ σ with computedTable := t } : Package).Inv cfg ext :=
  ⟨hi.shape, hi.counted, hi.nonneg, ht⟩

theorem insertComputedTable (he : EntryOk cfg σ.toStore ⟨key, G, H, R⟩) :
    (σ.insertComputedTable cfg key G H R).Inv cfg ext := by
  refine hi.setComputedTable fun i e hentry => ?_
  dsimp only at hentry
  by_cases hindex : i = hashC cfg key G H σ.computedTable.log2size
  · rw [hindex, Function.update_self] at hentry
    cases hentry
    exact he
  · rw [Function.update_of_ne hindex] at hentry
    exact hi.cache i e hentry

theorem foldl_insert {l : List ComputedTableEntry} (hl : ∀ e ∈ l, EntryOk cfg σ.toStore e) :
    (l.foldl (fun σ e => σ.insertComputedTable cfg e.F e.G e.H e.R) σ).Inv cfg ext ∧
      (l.foldl (fun σ e => σ.insertComputedTable cfg e.F e.G e.H e.R) σ).toStore = σ.toStore := by
  induction l generalizing σ with
  | nil => exact ⟨hi, rfl⟩
  | cons e l ih =>
    exact ih (hi.insertComputedTable (hl e List.mem_cons_self))
      fun d hd => hl d (List.mem_cons_of_mem _ hd)

theorem extendComputedTable : (σ.extendComputedTable cfg).Inv cfg ext ∧
    (σ.extendComputedTable cfg).toStore = σ.toStore := by
  unfold Package.extendComputedTable
  dsimp only
  split
  · have hempty := hi.setComputedTable (t := ⟨σ.computedTable.log2size + 1, fun _ => none⟩)
      fun _ _ h => absurd h (by simp)
    refine hempty.foldl_insert fun e he => ?_
    obtain ⟨i, _, hentry⟩ := List.mem_filterMap.1 he
    exact hi.cache i e (Option.filter_eq_some_iff.1 hentry).1
  · exact ⟨hi, rfl⟩

/-- A result from the table gets a reference; what is below it comes to life again. -/
theorem reclaimDead (hR : σ.IsEdge cfg R) : ∃ σ', σ.reclaimDead R = some σ' ∧
    (σ'.incrRef R).Inv cfg (ext + refTo R.addr) ∧ σ'.toStore = σ.toStore := by
  unfold Package.reclaimDead
  split
  · rename_i h
    obtain ⟨c, hreclaim, hc⟩ := hi.counted.reclaim hi.shape hR
      ((hi.shape.internP_iff hR).1 h.2) h.1 (n := bddTermid + 1) (by omega)
    rw [hreclaim]
    exact ⟨_, rfl, ⟨hi.shape, hc, add_refTo_nonneg hi.nonneg _, hi.cache⟩, rfl⟩
  · rename_i h
    have hlive : R.addr = cfg.addr1 ∨ σ.refcounts R.addr ≠ 0 := by
      by_contra hno
      rw [not_or, not_not] at hno
      exact h ⟨hno.2, (hi.shape.internP_iff hR).2 hno.1⟩
    exact ⟨σ, rfl, ⟨hi.shape, hi.counted.incrRef hi.shape hR hlive, add_refTo_nonneg hi.nonneg _,
      hi.cache⟩, rfl⟩

end Inv

/-! ### Collection -/

theorem sum_map_filter_of_eq_zero {l : List ℕ} {p : ℕ → Bool} {w : ℕ → ℤ}
    (h : ∀ a ∈ l, p a = false → w a = 0) : ((l.filter p).map w).sum = (l.map w).sum := by
  induction l with
  | nil => rfl
  | cons a l ih =>
    have htail := ih fun b hb => h b (List.mem_cons_of_mem _ hb)
    rw [List.map_cons, List.sum_cons, List.filter_cons]
    split
    · rw [List.map_cons, List.sum_cons, htail]
    · rename_i ha
      rw [htail, h a List.mem_cons_self (by simpa using ha), zero_add]

section Collect

variable (hs : σ.Shape cfg)
include hs

/-- The dead nodes are freed rank by rank, whatever the order of the variables is. -/
theorem freed_perm : σ.freed.Perm (σ.nodes.filter (deadP σ.toCounters)) := by
  have hspace : ∀ i < σ.count, σ.space i < σ.count := by
    intro i hlt
    by_contra hle
    have heq := hs.ranks_ge _ (Nat.not_lt.1 hle)
    rw [hs.ranks_space] at heq
    omega
  have hinj : Function.Injective σ.space := Function.LeftInverse.injective hs.ranks_space
  have hperm : ((List.range σ.count).map σ.space).Perm (List.range σ.count) := by
    refine (List.perm_ext_iff_of_nodup (List.nodup_range.map hinj) List.nodup_range).2 fun v => ?_
    rw [List.mem_map, List.mem_range]
    constructor
    · rintro ⟨i, hlt, rfl⟩
      exact hspace i (List.mem_range.1 hlt)
    · exact fun hv => ⟨σ.ranks v, List.mem_range.2 (hs.ranks_lt hv), hs.space_ranks v⟩
  have h := hperm.flatMap_right fun v => (σ.tables v).items.filter (deadP σ.toCounters)
  rw [List.flatMap_map] at h
  rw [Store.nodes, List.filter_flatMap]
  exact h

omit hs in
theorem nodes_bddGcAux (cfg : Config) (σ : Package) : (σ.bddGcAux cfg).nodes.Perm
    (σ.nodes.filter fun a => !deadP σ.toCounters a) := by
  rw [Store.nodes, Store.nodes, List.filter_flatMap]
  refine List.Perm.flatMap_left _ fun v hv => ?_
  have hv' : v < σ.count := List.mem_range.1 hv
  have htable : (σ.bddGcAux cfg).tables v = σ.sweepTable cfg (σ.tables v) := if_pos hv'
  rw [htable, sweepTable]
  split
  · exact (σ.resize_perm _ _).trans (by rw [ChainedTable.items_filter])
  · rw [ChainedTable.items_filter]

end Collect

namespace Inv

variable (hi : σ.Inv cfg ext)
include hi

/-- What is below a live node lives. -/
theorem refcounts_link {a : ℕ} (ha : a ∈ σ.nodes) (hlive : σ.refcounts a ≠ 0) :
    ((σ.heap a).thenLink.addr = cfg.addr1 ∨ σ.refcounts (σ.heap a).thenLink.addr ≠ 0) ∧
      ((σ.heap a).elseLink.addr = cfg.addr1 ∨ σ.refcounts (σ.heap a).elseLink.addr ≠ 0) := by
  have hlinks : ∀ F : BddPtr, σ.IsEdge cfg F → 0 < (σ.heap a).linksTo F.addr →
      F.addr = cfg.addr1 ∨ σ.refcounts F.addr ≠ 0 := by
    intro F hF hpos
    refine .inr (hi.counted.ne_zero hF.mem_cells ?_)
    have hle := Store.linksTo_le_inDegree ha hlive F.addr
    have := hi.nonneg F.addr
    omega
  have hnode := hi.shape.node a ha
  constructor
  · refine hlinks _ hnode.thenEdge ?_
    rw [Node.linksTo, if_pos rfl]
    split <;> decide
  · refine hlinks _ hnode.elseEdge ?_
    rw [Node.linksTo, if_pos (show (σ.heap a).elseLink.addr = _ from rfl)]
    split <;> decide

theorem flush : σ.flushComputedTable.Inv cfg ext :=
  hi.setComputedTable fun i e h => hi.cache i e (Option.filter_eq_some_iff.1 h).1

theorem bddGcAux (hlive : ∀ i e, σ.computedTable.entries i = some e →
    liveEntry σ.toCounters e = true) : (σ.bddGcAux cfg).Inv cfg ext := by
  have hs := hi.shape
  have hfreed := freed_perm hs
  have hperm := nodes_bddGcAux cfg σ
  have hmem : ∀ a, a ∈ (σ.bddGcAux cfg).nodes ↔ a ∈ σ.nodes ∧ σ.refcounts a ≠ 0 := fun a => by
    rw [hperm.mem_iff, List.mem_filter]
    simp [deadP]
  have hmemFreed : ∀ a, a ∈ σ.freed ↔ a ∈ σ.nodes ∧ σ.refcounts a = 0 := fun a => by
    rw [hfreed.mem_iff, List.mem_filter]
    simp [deadP]
  have hedge : ∀ F : BddPtr, σ.IsEdge cfg F → F.addr = cfg.addr1 ∨ σ.refcounts F.addr ≠ 0 →
      (σ.bddGcAux cfg).IsEdge cfg F := fun F hF h =>
    ⟨hF.const, fun haddr => (hmem _).2 ⟨hF.mem haddr, h.resolve_left haddr⟩, hF.inv⟩
  have htables : ∀ v < σ.count, (σ.bddGcAux cfg).tables v = σ.sweepTable cfg (σ.tables v) :=
    fun v hv => if_pos hv
  have hlength : σ.freed.length + (σ.bddGcAux cfg).nodes.length = σ.nodes.length := by
    rw [hfreed.length_eq, hperm.length_eq, ← List.countP_eq_length_filter,
      ← List.countP_eq_length_filter, List.length_eq_countP_add_countP (deadP σ.toCounters)]
    simp
  have hdegree : ∀ a, (σ.bddGcAux cfg).inDegree (σ.bddGcAux cfg).toCounters a =
      σ.inDegree σ.toCounters a := fun a => by
    rw [Store.inDegree, (hperm.map _).sum_eq]
    refine sum_map_filter_of_eq_zero fun b _ hb => if_pos ?_
    change σ.refcounts b = 0
    simpa [deadP] using hb
  constructor
  · exact {
      constVarid := hs.constVarid
      const_notMem := fun h => hs.const_notMem ((hmem _).1 h).1
      space_ranks := hs.space_ranks
      ranks_space := hs.ranks_space
      ranks_ge := hs.ranks_ge
      count_le := hs.count_le
      varid := fun v hv a ha => by
        have hin := ((hmem a).1 (Store.mem_nodes.2 ⟨v, hv, ha⟩)).1
        rw [htables v hv, sweepTable] at ha
        refine hs.varid v hv a ?_
        split at ha
        · rw [(σ.resize_perm _ _).mem_iff, ChainedTable.items_filter, List.mem_filter] at ha
          exact ha.1
        · rw [ChainedTable.items_filter, List.mem_filter] at ha
          exact ha.1
      node := fun a ha => by
        obtain ⟨hin, hne⟩ := (hmem a).1 ha
        have hn := hs.node a hin
        obtain ⟨hthen, helse⟩ := hi.refcounts_link hin hne
        exact ⟨hedge _ hn.thenEdge hthen, hedge _ hn.elseEdge helse, hn.rank_then, hn.rank_else,
          hn.pos, hn.ne, hn.lt⟩
      unique := fun a ha b hb => hs.unique a ((hmem a).1 ha).1 b ((hmem b).1 hb).1
      hashed := fun v hv => by
        rw [htables v hv, sweepTable]
        split
        · exact Store.hashed_resize ((hs.hashed v hv).filter _) _
        · exact (hs.hashed v hv).filter _
      nodup := hperm.nodup_iff.2 (hs.nodup.filter _)
      nrItems := by
        change σ.nrItems - σ.freed.length = _
        have := hs.nrItems
        omega
      freeList_nodup := by
        refine List.Nodup.append (List.nodup_reverse.2 (hfreed.nodup_iff.2 (hs.nodup.filter _)))
          hs.freeList_nodup fun a ha hfree => ?_
        exact (hs.freeList a hfree).2.1 ((hmemFreed a).1 (List.mem_reverse.1 ha)).1
      freeList := fun a ha => by
        rcases List.mem_append.1 ha with ha | ha
        · obtain ⟨hin, hzero⟩ := (hmemFreed a).1 (List.mem_reverse.1 ha)
          refine ⟨?_, fun h => ((hmem a).1 h).2 hzero, hs.block a hin⟩
          rintro rfl
          exact hs.const_notMem hin
        · exact (hs.freeList a ha).imp_right
            fun h => h.imp_left fun hnot hin => hnot ((hmem a).1 hin).1
      block := fun a ha => hs.block a ((hmem a).1 ha).1
      nrBlocks := hs.nrBlocks }
  · have hc := hi.counted
    have hcells : ∀ a, a ∈ cfg.addr1 :: (σ.bddGcAux cfg).nodes → a ∈ cfg.addr1 :: σ.nodes :=
      fun a ha => List.mem_cons.2 ((List.mem_cons.1 ha).imp_right fun h => ((hmem a).1 h).1)
    constructor
    · exact fun a ha => hc.le a (hcells a ha)
    · intro a ha
      rw [hdegree]
      exact hc.eq a (hcells a ha)
    · intro a ha
      rcases List.mem_cons.1 (hc.support a ha) with rfl | hin
      · exact List.mem_cons_self
      · refine List.mem_cons_of_mem _ ((hmem a).2 ⟨hin, hc.ne_zero (hc.support a ha) ?_⟩)
        have hpos := hi.nonneg a
        have := Store.inDegree_nonneg σ.toStore σ.toCounters a
        omega
    · have hdead := hc.dead
      have hzero : (σ.bddGcAux cfg).nodes.countP (fun a => decide (σ.refcounts a = 0)) = 0 :=
        List.countP_eq_zero.2 fun a ha => by simpa using ((hmem a).1 ha).2
      have hlen : σ.freed.length = σ.nodes.countP fun a => decide (σ.refcounts a = 0) := by
        rw [hfreed.length_eq, ← List.countP_eq_length_filter]
        rfl
      rw [List.countP_cons] at hdead ⊢
      change σ.nrDeadNodes - σ.freed.length = _
      rw [show (σ.bddGcAux cfg).refcounts = σ.refcounts from rfl, hzero]
      omega
  · exact hi.nonneg
  · intro i e he
    have hok := hi.cache i e he
    have hl := hlive i e he
    rw [liveEntry, Bool.and_eq_true, decide_eq_true_iff] at hl
    refine ⟨fun F hF => hedge F (hok.edgeF F hF) (.inr ?_), hedge _ hok.edgeG (.inr hl.2.1),
      hedge _ hok.edgeH (.inr hl.2.2.1), hedge _ hok.edgeR (.inr hl.2.2.2), hok.value⟩
    simpa [hF] using hl.1

/-- A collection frees no node that is reached from outside. -/
theorem bddGc : (σ.bddGc cfg).Inv cfg ext ∧ (σ.bddGc cfg).heap = σ.heap ∧
    (σ.bddGc cfg).ranks = σ.ranks :=
  ⟨hi.flush.bddGcAux fun _ _ h => (Option.filter_eq_some_iff.1 h).2, rfl, rfl⟩

end Inv

end Package

end PVS.BddPackage
