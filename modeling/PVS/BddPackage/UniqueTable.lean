import Mathlib
import PVS.BddPackage.Invariant

/-! The unique table grows by ranks, by lists and by nodes. -/

namespace PVS.BddPackage

open Library

variable {cfg : Config} {s s' : Store} {c : Counters} {σ : Package} {ext : ℕ → ℤ} {F T E : BddPtr}
  {a b v : ℕ}

namespace Store

/-! ### Tables -/

/-- The table that `bdd_resize_hash_table` makes; dummy tables are not made by shrinking. -/
def resize (hash : ℕ → ℕ → ℕ) (t : ChainedTable ℕ) (extend : Bool) : ChainedTable ℕ :=
  if extend then t.rehash hash (t.log2size + 1)
  else if t.log2size ≤ 1 then t
  else t.rehash hash (t.log2size - 1)

/-- `bdd_resize_hash_table` -/
def resizeHashTable (s : Store) (v : ℕ) (extend : Bool) : Store :=
  { s with tables := Function.update s.tables v (resize s.hash (s.tables v) extend) }

/-- The next variable, with a dummy table -/
def addRank (s : Store) : Store :=
  { s with
    tables := Function.update s.tables s.count (.empty 0)
    ranks := Function.update s.ranks s.count s.count
    space := Function.update s.space s.count s.count
    count := s.count + 1 }

def addRanks : ℕ → Store → Store
  | 0, s => s
  | n + 1, s => addRanks n s.addRank

/-- `bdd_make_fit_unique_table` -/
def makeFitUniqueTable (s : Store) (v : ℕ) : Store :=
  let s' := s.addRanks (v + 1 - s.count)
  if (s'.tables v).log2size = 0 then s'.resizeHashTable v true else s'

/-! ### Nodes -/

/-- The node that `BDD_MALLOC` takes, the free nodes then, and the number of blocks; `bdd_alloc` gets the
next block when no node is free. -/
def malloc (cfg : Config) (s : Store) : Option (ℕ × List ℕ × ℕ) :=
  match s.freeList with
  | a :: rest => some (a, rest, s.nrBlocks)
  | [] =>
    match cfg.block s.nrBlocks with
    | a :: rest => some (a, rest, s.nrBlocks + 1)
    | [] => none

/-- The fields of a new node are set and it is linked to the unique table. -/
def link (s : Store) (v : ℕ) (T E : BddPtr) (m : ℕ × List ℕ × ℕ) : Store :=
  { s with
    heap := Function.update s.heap m.1 ⟨v, T, E⟩
    freeList := m.2.1
    nrBlocks := m.2.2
    tables := Function.update s.tables v ((s.tables v).insert (fun k _ => hashU T E k) m.1)
    nrItems := s.nrItems + 1 }

/-- The search of a bucket of the unique table -/
def lookup (s : Store) (v : ℕ) (T E : BddPtr) : Option ℕ :=
  ((s.tables v).entries (hashU T E (s.tables v).log2size)).find? fun a =>
    decide ((s.heap a).thenLink = T ∧ (s.heap a).elseLink = E)

theorem hash_lt (s : Store) (k a : ℕ) : s.hash k a < 2 ^ k := hashU_lt _ _ _

theorem resize_perm (s : Store) (t : ChainedTable ℕ) (extend : Bool) :
    (resize s.hash t extend).items.Perm t.items := by
  unfold resize
  split_ifs
  · exact ChainedTable.items_rehash s.hash_lt t _
  · exact .refl _
  · exact ChainedTable.items_rehash s.hash_lt t _

theorem hashed_resize {t : ChainedTable ℕ} (ht : t.Hashed s.hash) (extend : Bool) :
    (resize s.hash t extend).Hashed s.hash := by
  unfold resize
  split_ifs
  · exact ChainedTable.hashed_rehash t _
  · exact ht
  · exact ChainedTable.hashed_rehash t _

/-! ### Stores with the same nodes -/

structure Alike (s s' : Store) : Prop where
  heap : s'.heap = s.heap
  ranks : s'.ranks = s.ranks
  nodes : s'.nodes.Perm s.nodes

theorem Alike.refl (s : Store) : s.Alike s := ⟨rfl, rfl, .refl _⟩

theorem Alike.trans {s'' : Store} (h : s.Alike s') (h' : s'.Alike s'') : s.Alike s'' :=
  ⟨h'.heap.trans h.heap, h'.ranks.trans h.ranks, h'.nodes.trans h.nodes⟩

theorem Alike.keeps (h : s.Alike s') : s.Keeps cfg ext s' := ⟨h.ranks, fun a _ => by rw [h.heap]⟩

theorem Alike.isEdge (h : s.Alike s') (hF : s.IsEdge cfg F) : s'.IsEdge cfg F :=
  hF.mono fun a ha => ⟨h.nodes.mem_iff.2 ha, by rw [h.heap]⟩

theorem Alike.rank (h : s.Alike s') (F : BddPtr) : s'.rank F = s.rank F := by
  rw [Store.rank, Store.rank, varRank, varRank, h.heap, h.ranks]

theorem Alike.nodeShape (h : s.Alike s') {n : Node} (hn : s.NodeShape cfg n) :
    s'.NodeShape cfg n where
  thenEdge := h.isEdge hn.thenEdge
  elseEdge := h.isEdge hn.elseEdge
  rank_then := by rw [h.rank, h.ranks]; exact hn.rank_then
  rank_else := by rw [h.rank, h.ranks]; exact hn.rank_else
  pos := hn.pos
  ne := hn.ne
  lt := hn.lt

theorem Alike.counted (h : s.Alike s') (hc : s.Counted cfg c ext) : s'.Counted cfg c ext := by
  have hmem : ∀ a, a ∈ cfg.addr1 :: s'.nodes ↔ a ∈ cfg.addr1 :: s.nodes :=
    fun a => (h.nodes.cons _).mem_iff
  have hdegree : ∀ a, s'.inDegree c a = s.inDegree c a := fun a => by
    rw [inDegree, inDegree, h.heap]
    exact (h.nodes.map _).sum_eq
  constructor
  · exact fun a ha => hc.le a ((hmem a).1 ha)
  · intro a ha
    rw [hdegree]
    exact hc.eq a ((hmem a).1 ha)
  · exact fun a ha => (hmem a).2 (hc.support a ha)
  · rw [hc.dead]
    exact congrArg _ ((h.nodes.cons _).countP_eq _).symm

theorem Alike.inv (h : s.Alike s') (hσ : σ.toStore = s) (hi : σ.Inv cfg ext) (hs' : s'.Shape cfg) :
    ({ σ with toStore := s' } : Package).Inv cfg ext := by
  subst hσ
  exact {
    shape := hs'
    counted := h.counted hi.counted
    nonneg := hi.nonneg
    cache := fun i e he => (hi.cache i e he).mono hi.shape
      fun a ha => ⟨h.nodes.mem_iff.2 ha, by rw [h.heap]⟩ }

/-- A free node: it is in no table, and the others that are free stay so. -/
structure Fresh (cfg : Config) (s : Store) (m : ℕ × List ℕ × ℕ) : Prop where
  ne : m.1 ≠ cfg.addr1
  notMem : m.1 ∉ s.nodes
  nodup : (m.1 :: m.2.1).Nodup
  le : s.nrBlocks ≤ m.2.2
  block : ∃ k < m.2.2, m.1 ∈ cfg.block k
  freeList : ∀ a ∈ m.2.1, a ≠ cfg.addr1 ∧ a ∉ s.nodes ∧ ∃ k < m.2.2, a ∈ cfg.block k

namespace Shape

variable (hs : s.Shape cfg)
include hs

/-- Tables with the same items make the same unique table. -/
theorem setTables {t : ℕ → ChainedTable ℕ} (h : ∀ v, (t v).items.Perm (s.tables v).items)
    (hhash : ∀ v < s.count, (t v).Hashed s.hash) :
    ({ s with tables := t } : Store).Shape cfg ∧ s.Alike { s with tables := t } := by
  have hperm : ({ s with tables := t } : Store).nodes.Perm s.nodes :=
    List.Perm.flatMap_left _ fun v _ => h v
  have halike : s.Alike { s with tables := t } := ⟨rfl, rfl, hperm⟩
  have hmem : ∀ a, a ∈ ({ s with tables := t } : Store).nodes ↔ a ∈ s.nodes := fun a => hperm.mem_iff
  refine ⟨?_, halike⟩
  exact {
    constVarid := hs.constVarid
    const_notMem := fun h1 => hs.const_notMem ((hmem _).1 h1)
    space_ranks := hs.space_ranks
    ranks_space := hs.ranks_space
    ranks_ge := hs.ranks_ge
    count_le := hs.count_le
    varid := fun v hv a ha => hs.varid v hv a ((h v).mem_iff.1 ha)
    node := fun a ha => halike.nodeShape (hs.node a ((hmem a).1 ha))
    unique := fun a ha b hb => hs.unique a ((hmem a).1 ha) b ((hmem b).1 hb)
    hashed := hhash
    nodup := hperm.nodup_iff.2 hs.nodup
    nrItems := hs.nrItems.trans hperm.length_eq.symm
    freeList_nodup := hs.freeList_nodup
    freeList := fun a ha => (hs.freeList a ha).imp_right
      fun h => h.imp_left fun hnot hin => hnot ((hmem a).1 hin)
    block := fun a ha => hs.block a ((hmem a).1 ha)
    nrBlocks := hs.nrBlocks }

theorem resizeHashTable (hv : v < s.count) (extend : Bool) :
    (s.resizeHashTable v extend).Shape cfg ∧ s.Alike (s.resizeHashTable v extend) := by
  refine hs.setTables (fun u => ?_) fun u hu => ?_
  · by_cases huv : u = v
    · rw [huv, Function.update_self]
      exact s.resize_perm _ _
    · rw [Function.update_of_ne huv]
  · by_cases huv : u = v
    · rw [huv, Function.update_self]
      exact hashed_resize (hs.hashed v hv) _
    · rw [Function.update_of_ne huv]
      exact hs.hashed u hu

theorem addRank (hcount : s.count < bddTermid) : s.addRank.Shape cfg ∧ s.Alike s.addRank := by
  have hranks : Function.update s.ranks s.count s.count = s.ranks :=
    Function.update_eq_self_iff.2 (hs.ranks_ge _ le_rfl).symm
  have hspace : Function.update s.space s.count s.count = s.space :=
    Function.update_eq_self_iff.2 (by
      have h := hs.space_ranks s.count
      rw [hs.ranks_ge _ le_rfl] at h
      exact h.symm)
  have htable : ∀ u < s.count, s.addRank.tables u = s.tables u :=
    fun u hu => Function.update_of_ne hu.ne _ _
  have hempty : s.addRank.tables s.count = .empty 0 := Function.update_self _ _ _
  have hnodes : s.addRank.nodes = s.nodes := by
    rw [nodes, nodes, show s.addRank.count = s.count + 1 from rfl, List.range_succ,
      List.flatMap_append, List.flatMap_singleton, hempty, ChainedTable.items_empty, List.append_nil]
    exact List.flatMap_congr fun u hu => by rw [htable u (List.mem_range.1 hu)]
  have halike : s.Alike s.addRank := ⟨rfl, hranks, by rw [hnodes]⟩
  refine ⟨?_, halike⟩
  exact {
    constVarid := hs.constVarid
    const_notMem := by rw [hnodes]; exact hs.const_notMem
    space_ranks := fun v => by
      change Function.update s.space _ _ (Function.update s.ranks _ _ v) = v
      rw [hspace, hranks, hs.space_ranks]
    ranks_space := fun i => by
      change Function.update s.ranks _ _ (Function.update s.space _ _ i) = i
      rw [hspace, hranks, hs.ranks_space]
    ranks_ge := fun v hv => by
      change Function.update s.ranks _ _ v = v
      rw [hranks]
      exact hs.ranks_ge v (Nat.le_of_succ_le hv)
    count_le := hcount
    varid := fun v hv a ha => by
      rcases Nat.lt_succ_iff_lt_or_eq.1 hv with hlt | rfl
      · rw [htable v hlt] at ha
        exact hs.varid v hlt a ha
      · rw [hempty, ChainedTable.items_empty] at ha
        exact absurd ha List.not_mem_nil
    node := fun a ha => halike.nodeShape (hs.node a (hnodes ▸ ha))
    unique := fun a ha b hb => hs.unique a (hnodes ▸ ha) b (hnodes ▸ hb)
    hashed := fun v hv => by
      rcases Nat.lt_succ_iff_lt_or_eq.1 hv with hlt | rfl
      · rw [htable v hlt]
        exact hs.hashed v hlt
      · rw [hempty]
        exact ChainedTable.hashed_empty 0
    nodup := by rw [hnodes]; exact hs.nodup
    nrItems := by rw [hnodes]; exact hs.nrItems
    freeList_nodup := hs.freeList_nodup
    freeList := by rw [hnodes]; exact hs.freeList
    block := by rw [hnodes]; exact hs.block
    nrBlocks := hs.nrBlocks }

theorem addRanks {n : ℕ} (hn : s.count + n ≤ bddTermid) :
    (s.addRanks n).Shape cfg ∧ s.Alike (s.addRanks n) ∧ (s.addRanks n).count = s.count + n := by
  induction n generalizing s with
  | zero => exact ⟨hs, .refl _, rfl⟩
  | succ n ih =>
    obtain ⟨hs₁, halike₁⟩ := hs.addRank (by omega)
    have hcount : s.addRank.count = s.count + 1 := rfl
    obtain ⟨hs₂, halike₂, hcount₂⟩ := ih hs₁ (by omega)
    exact ⟨hs₂, halike₁.trans halike₂, by rw [Store.addRanks, hcount₂, hcount]; omega⟩

/-- The variable then has a rank and a table. -/
theorem makeFitUniqueTable (hv : v < bddTermid) :
    (s.makeFitUniqueTable v).Shape cfg ∧ s.Alike (s.makeFitUniqueTable v) ∧
      v < (s.makeFitUniqueTable v).count := by
  have hle := hs.count_le
  obtain ⟨hs₁, halike₁, hcount₁⟩ := hs.addRanks (n := v + 1 - s.count) (by omega)
  have hlt : v < (s.addRanks (v + 1 - s.count)).count := by omega
  unfold Store.makeFitUniqueTable
  dsimp only
  split
  · obtain ⟨hs₂, halike₂⟩ := hs₁.resizeHashTable hlt true
    exact ⟨hs₂, halike₁.trans halike₂, hlt⟩
  · exact ⟨hs₁, halike₁, hlt⟩

/-! ### Finding and adding a node -/

theorem lookup_some (hv : v < s.count) (h : s.lookup v T E = some a) :
    a ∈ s.nodes ∧ s.heap a = ⟨v, T, E⟩ := by
  have hmem := List.mem_of_find?_eq_some h
  have hlinks := List.find?_some h
  rw [decide_eq_true_iff] at hlinks
  have hitem : a ∈ (s.tables v).items := ChainedTable.mem_items.2 ⟨_, hashU_lt _ _ _, hmem⟩
  have hvarid := hs.varid v hv a hitem
  refine ⟨mem_nodes.2 ⟨v, hv, hitem⟩, ?_⟩
  cases hn : s.heap a with
  | mk w T' E' =>
    simp only [hn] at hlinks hvarid
    rw [hvarid, hlinks.1, hlinks.2]

theorem lookup_none (hv : v < s.count) (h : s.lookup v T E = none) :
    ∀ a ∈ s.nodes, s.heap a ≠ ⟨v, T, E⟩ := by
  intro a ha heq
  obtain ⟨_, hitem⟩ := hs.mem_tables ha
  rw [heq] at hitem
  have hentry := ((hs.hashed v hv).mem_items_iff s.hash_lt).1 hitem
  rw [Store.hash, heq] at hentry
  have := List.find?_eq_none.1 h a hentry
  simp [heq] at this

theorem malloc : ∃ m, s.malloc cfg = some m ∧ Fresh cfg s m := by
  unfold Store.malloc
  cases hfree : s.freeList with
  | cons a rest =>
    have hnodup := hs.freeList_nodup
    have hmem := hs.freeList
    rw [hfree] at hnodup hmem
    obtain ⟨hne, hnot, hblock⟩ := hmem a List.mem_cons_self
    exact ⟨_, rfl, hne, hnot, hnodup, le_rfl, hblock,
      fun b hb => hmem b (List.mem_cons_of_mem _ hb)⟩
  | nil =>
    have hfresh : ∀ a ∈ cfg.block s.nrBlocks, a ≠ cfg.addr1 ∧ a ∉ s.nodes ∧
        ∃ k < s.nrBlocks + 1, a ∈ cfg.block k := by
      intro a ha
      refine ⟨?_, fun hin => ?_, s.nrBlocks, Nat.lt_succ_self _, ha⟩
      · rintro rfl
        obtain ⟨rest, hfirst⟩ := cfg.first
        have h1 : cfg.addr1 ∈ cfg.block 0 := by simp [hfirst]
        exact absurd (cfg.disjoint h1 ha) hs.nrBlocks.ne
      · obtain ⟨k, hk, hmem⟩ := hs.block a hin
        exact absurd (cfg.disjoint hmem ha) hk.ne
    cases hblock : cfg.block s.nrBlocks with
    | nil => exact absurd hblock (cfg.nonempty _)
    | cons a rest =>
      have hnodup := cfg.nodup s.nrBlocks
      rw [hblock] at hnodup hfresh
      obtain ⟨hne, hnot, hin⟩ := hfresh a List.mem_cons_self
      exact ⟨_, rfl, hne, hnot, hnodup, Nat.le_succ _, hin,
        fun b hb => hfresh b (List.mem_cons_of_mem _ hb)⟩

end Shape

section Link

variable {m : ℕ × List ℕ × ℕ}

theorem heap_link (hne : b ≠ m.1) : (s.link v T E m).heap b = s.heap b :=
  Function.update_of_ne hne _ _

theorem heap_link_self : (s.link v T E m).heap m.1 = ⟨v, T, E⟩ := Function.update_self _ _ _

theorem nodes_link (hv : v < s.count) : (s.link v T E m).nodes.Perm (m.1 :: s.nodes) := by
  refine ChainedTable.flatMap_perm_cons List.nodup_range (List.mem_range.2 hv) ?_ fun u _ hu => ?_
  · simp only [link, Function.update_self]
    exact ChainedTable.items_insert _ _ (hashU_lt _ _ _)
  · simp only [link, Function.update_of_ne hu]

variable (hs : s.Shape cfg) (hm : s.Fresh cfg m)
include hs hm

omit hs in
theorem Fresh.keeps_nodes (hv : v < s.count) : ∀ a ∈ s.nodes,
    a ∈ (s.link v T E m).nodes ∧ (s.link v T E m).heap a = s.heap a := by
  intro a ha
  refine ⟨(nodes_link hv).mem_iff.2 (List.mem_cons_of_mem _ ha), heap_link ?_⟩
  rintro rfl
  exact hm.notMem ha

theorem Shape.link (hv : v < s.count) (hn : s.NodeShape cfg ⟨v, T, E⟩)
    (hnone : ∀ a ∈ s.nodes, s.heap a ≠ ⟨v, T, E⟩) : (s.link v T E m).Shape cfg := by
  have hperm := nodes_link (T := T) (E := E) (m := m) hv
  have hmem : ∀ a, a ∈ (s.link v T E m).nodes ↔ a = m.1 ∨ a ∈ s.nodes := fun a => by
    rw [hperm.mem_iff, List.mem_cons]
  have hkeep := hm.keeps_nodes (T := T) (E := E) hv
  have hconst : (s.link v T E m).heap cfg.addr1 = s.heap cfg.addr1 := heap_link (Ne.symm hm.ne)
  have hrank : ∀ F : BddPtr, s.IsEdge cfg F → (s.link v T E m).rank F = s.rank F := by
    intro F hF
    have hheap : (s.link v T E m).heap F.addr = s.heap F.addr := by
      by_cases haddr : F.addr = cfg.addr1
      · rw [haddr, hconst]
      · exact (hkeep _ (hF.mem haddr)).2
    rw [Store.rank, Store.rank, Heap.varid, Heap.varid, hheap]
    rfl
  have hnode : ∀ n : Node, s.NodeShape cfg n → (s.link v T E m).NodeShape cfg n := fun n h => {
    thenEdge := h.thenEdge.mono hkeep
    elseEdge := h.elseEdge.mono hkeep
    rank_then := by rw [hrank _ h.thenEdge]; exact h.rank_then
    rank_else := by rw [hrank _ h.elseEdge]; exact h.rank_else
    pos := h.pos
    ne := h.ne
    lt := h.lt }
  have hitems : ∀ u < s.count, ∀ a, a ∈ ((s.link v T E m).tables u).items ↔
      (u = v ∧ a = m.1) ∨ a ∈ (s.tables u).items := by
    intro u hu a
    by_cases huv : u = v
    · subst huv
      simp only [Store.link, Function.update_self, true_and]
      rw [(ChainedTable.items_insert (fun k (_ : ℕ) => hashU T E k) _ (hashU_lt _ _ _)).mem_iff,
        List.mem_cons]
    · simp only [Store.link, Function.update_of_ne huv, huv, false_and, false_or]
  exact {
    constVarid := by rw [hconst]; exact hs.constVarid
    const_notMem := by
      rw [hmem, not_or]
      exact ⟨Ne.symm hm.ne, hs.const_notMem⟩
    space_ranks := hs.space_ranks
    ranks_space := hs.ranks_space
    ranks_ge := hs.ranks_ge
    count_le := hs.count_le
    varid := fun u hu a ha => by
      rcases (hitems u hu a).1 ha with ⟨rfl, rfl⟩ | ha
      · rw [heap_link_self]
      · rw [(hkeep a (mem_nodes.2 ⟨u, hu, ha⟩)).2]
        exact hs.varid u hu a ha
    node := fun a ha => by
      rcases (hmem a).1 ha with rfl | ha
      · rw [heap_link_self]
        exact hnode _ hn
      · rw [(hkeep a ha).2]
        exact hnode _ (hs.node a ha)
    unique := fun a ha b hb hab => by
      rcases (hmem a).1 ha with rfl | ha <;> rcases (hmem b).1 hb with rfl | hb
      · rfl
      · rw [heap_link_self, (hkeep b hb).2] at hab
        exact absurd hab.symm (hnone b hb)
      · rw [heap_link_self, (hkeep a ha).2] at hab
        exact absurd hab (hnone a ha)
      · rw [(hkeep a ha).2, (hkeep b hb).2] at hab
        exact hs.unique a ha b hb hab
    hashed := fun u hu => by
      have hold : (s.tables u).Hashed (s.link v T E m).hash := by
        refine (hs.hashed u hu).congr fun i b hb => ?_
        have hitem : b ∈ (s.tables u).items := ChainedTable.mem_items.2
          ⟨i, by rw [← hs.hashed u hu i b hb]; exact s.hash_lt _ _, hb⟩
        rw [Store.hash, Store.hash, (hkeep b (mem_nodes.2 ⟨u, hu, hitem⟩)).2]
      by_cases huv : u = v
      · subst huv
        have hself : (s.link u T E m).hash (s.tables u).log2size m.1 =
            hashU T E (s.tables u).log2size := by rw [Store.hash, heap_link_self]
        have htable : (s.link u T E m).tables u = (s.tables u).insert (s.link u T E m).hash m.1 := by
          rw [ChainedTable.insert, hself]
          exact Function.update_self _ _ _
        rw [htable]
        exact hold.insert m.1
      · have htable : (s.link v T E m).tables u = s.tables u := Function.update_of_ne huv _ _
        rwa [htable]
    nodup := hperm.nodup_iff.2 (List.nodup_cons.2 ⟨hm.notMem, hs.nodup⟩)
    nrItems := by
      rw [hperm.length_eq, List.length_cons, ← hs.nrItems]
      rfl
    freeList_nodup := (List.nodup_cons.1 hm.nodup).2
    freeList := fun a ha => by
      obtain ⟨hne, hnot, hblock⟩ := hm.freeList a ha
      refine ⟨hne, fun hin => ?_, hblock⟩
      rcases (hmem a).1 hin with rfl | hin
      · exact (List.nodup_cons.1 hm.nodup).1 ha
      · exact hnot hin
    block := fun a ha => by
      rcases (hmem a).1 ha with rfl | ha
      · exact hm.block
      · obtain ⟨k, hk, hin⟩ := hs.block a ha
        exact ⟨k, hk.trans_le hm.le, hin⟩
    nrBlocks := hs.nrBlocks.trans_le hm.le }

end Link

end Store

end PVS.BddPackage
