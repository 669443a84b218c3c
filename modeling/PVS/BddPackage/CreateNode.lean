import Mathlib
import PVS.BddPackage.ComputedTable

/-! Nodes are made so that the unique table stays well formed. -/

namespace PVS.BddPackage

open Library

variable {cfg : Config} {s : Store} {c : Counters} {σ σ' : Package} {ext : ℕ → ℤ}
  {F T E : BddPtr} {p n : Bdd} {a v : ℕ} {m : ℕ × List ℕ × ℕ}

/-! ### The links of a node -/

/-- A node to be found or made, and the bits of the edge to it. -/
structure NodeForm where
  inv : Bool
  neg : Bool
  thenLink : BddPtr
  elseLink : BddPtr

namespace NodeForm

/-- The then link appears positive. -/
def positive (T E : BddPtr) : NodeForm :=
  if T.neg then ⟨false, true, T.oOff, E.compl⟩ else ⟨false, false, T, E⟩

/-- Positive links appear in the order of their values. -/
def ordered (cfg : Config) (N : NodeForm) : NodeForm :=
  if cfg.useInvEdges = true ∧ N.elseLink.neg = false ∧ N.elseLink.bits < N.thenLink.bits then
    ⟨!N.inv, N.neg, N.elseLink, N.thenLink⟩
  else N

/-- The links of `bdd_create_node` for two functions that differ -/
def make (cfg : Config) (T E : BddPtr) : NodeForm := (positive T E).ordered cfg

/-- The edge to the node -/
def edge (N : NodeForm) (a : ℕ) : BddPtr := ⟨a, N.inv, N.neg⟩

/-- What holds of the links that `make` chooses for `T` and `E`. -/
structure Canonical (cfg : Config) (N : NodeForm) (T E : BddPtr) : Prop where
  pos : N.thenLink.neg = false
  ne : N.thenLink ≠ N.elseLink
  lt : cfg.useInvEdges = true → N.elseLink.neg = false → N.thenLink.bits < N.elseLink.bits
  inv : N.inv = true → cfg.useInvEdges = true ∧ N.elseLink.neg = false
  cofactorPos : (if N.inv then N.elseLink else N.thenLink).complIf N.neg = T
  cofactorNeg : (if N.inv then N.thenLink else N.elseLink).complIf N.neg = E

theorem make_canonical (hne : T ≠ E) : (make cfg T E).Canonical cfg T E := by
  have hpos : (positive T E).thenLink.neg = false ∧
      (positive T E).thenLink ≠ (positive T E).elseLink ∧ (positive T E).inv = false ∧
      (positive T E).thenLink.complIf (positive T E).neg = T ∧
      (positive T E).elseLink.complIf (positive T E).neg = E := by
    unfold positive
    split
    · rename_i hneg
      rw [BddPtr.oOff_of_neg hneg]
      refine ⟨by simp [hneg], BddPtr.compl_injective.ne hne, rfl, ?_, ?_⟩
      · simp
      · simp
    · rename_i hneg
      exact ⟨by simpa using hneg, hne, rfl, by simp, by simp⟩
  obtain ⟨hthen, hlinks, hinv, hT, hE⟩ := hpos
  unfold make ordered
  split
  · rename_i h
    exact ⟨h.2.1, hlinks.symm, fun _ _ => h.2.2, fun _ => ⟨h.1, hthen⟩, by simpa [hinv] using hT,
      by simpa [hinv] using hE⟩
  · rename_i h
    refine ⟨hthen, hlinks, fun huse hneg => ?_, fun hi => ?_, by simpa [hinv] using hT,
      by simpa [hinv] using hE⟩
    · have hle : (positive T E).thenLink.bits ≤ (positive T E).elseLink.bits := by
        by_contra hgt
        exact h ⟨huse, hneg, Nat.not_le.1 hgt⟩
      exact hle.lt_of_ne (BddPtr.bits_injective.ne hlinks)
    · rw [hinv] at hi
      cases hi

/-- The links are `T` and `E` or their complements. -/
theorem Canonical.links {N : NodeForm} (h : N.Canonical cfg T E) {P : BddPtr → Prop}
    (hcompl : ∀ F, P F → P F.compl) (hT : P T) (hE : P E) : P N.thenLink ∧ P N.elseLink := by
  have hback : ∀ (F G : BddPtr) (b : Bool), F.complIf b = G → P G → P F := by
    rintro F G b rfl hG
    cases b with
    | false => simpa using hG
    | true => simpa using hcompl _ hG
  have hpos := hback _ _ _ h.cofactorPos hT
  have hneg := hback _ _ _ h.cofactorNeg hE
  cases hi : N.inv with
  | false => exact ⟨by simpa [hi] using hpos, by simpa [hi] using hneg⟩
  | true => exact ⟨by simpa [hi] using hneg, by simpa [hi] using hpos⟩

end NodeForm

/-! ### `bdd_create_node` -/

namespace Package

/-- Dead nodes are collected when there are many. -/
def collect (cfg : Config) (σ : Package) : Package :=
  if σ.nrItems >>> 3 < σ.nrDeadNodes ∧ 4096 < σ.nrItems ∧ cfg.doGc = true then σ.bddGc cfg else σ

/-- The table of the variable is extended when its lists are long. -/
def enlarge (cfg : Config) (σ : Package) (v : ℕ) : Package :=
  if cfg.loadFactor * (σ.tables v).size < (σ.tables v).items.length then
    ({ σ with toStore := σ.resizeHashTable v true } : Package).extendComputedTable cfg
  else σ

/-- A node of the unique table is used, dead or not. -/
def useNode (σ : Package) (N : NodeForm) (a : ℕ) : Package :=
  { σ with
    toCounters :=
      (if σ.refcounts a = 0 then
        (σ.toCounters.incrRef N.thenLink).incrRef N.elseLink
      else σ.toCounters).incrRef (N.edge a) }

/-- A new node -/
def newNode (σ : Package) (v : ℕ) (N : NodeForm) (m : ℕ × List ℕ × ℕ) : Package :=
  { σ with
    toStore := σ.link v N.thenLink N.elseLink m
    toCounters :=
      (({ σ.toCounters with
          refcounts := Function.update σ.refcounts m.1 1 } : Counters).incrRef N.thenLink).incrRef
        N.elseLink }

/-- The node for links that differ; where the ranks do not increase there is no node to make. -/
def findNode (cfg : Config) (σ : Package) (v : ℕ) (N : NodeForm) : Option (BddPtr × Package) :=
  if σ.varRank v < σ.rank N.thenLink ∧ σ.varRank v < σ.rank N.elseLink then
    match σ.lookup v N.thenLink N.elseLink with
    | some a => some (N.edge a, σ.useNode N a)
    | none => (σ.malloc cfg).map fun m =>
        (N.edge m.1, ((σ.newNode v N m).collect cfg).enlarge cfg v)
  else none

/-- `bdd_create_node` -/
def createNode (cfg : Config) (σ : Package) (v : ℤ) (T E : BddPtr) : Option (BddPtr × Package) :=
  if T = E then some (T, σ.incrRef T)
  else
    let N := if v < 0 then NodeForm.make cfg E T else NodeForm.make cfg T E
    ({ σ with toStore := σ.makeFitUniqueTable v.natAbs } : Package).findNode cfg v.natAbs N

/-- A negative variable is the one with its links the other way around. -/
theorem createNode_neg (hv : 0 < v) (T E : BddPtr) :
    σ.createNode cfg (-v) T E = σ.createNode cfg v E T := by
  unfold createNode
  by_cases h : T = E
  · rw [if_pos h, if_pos h.symm, h]
  · rw [if_neg h, if_neg (Ne.symm h), if_pos (by omega), if_neg (by omega), Int.natAbs_neg]

end Package

/-! ### The counts of a new node -/

theorem Node.linksTo_eq (N : Node) (a : ℕ) :
    N.linksTo a = refTo N.thenLink.addr a + refTo N.elseLink.addr a := rfl

section Count

variable (hs : s.Shape cfg) (hc : s.Counted cfg c ext)
include hs hc

/-- A node that was just linked, before it has a reference -/
theorem Store.Counted.link (hm : s.Fresh cfg m) (hv : v < s.count) :
    (s.link v T E m).Counted cfg
      ⟨Function.update c.refcounts m.1 0, c.nrDeadNodes + 1⟩ ext := by
  have hperm := Store.nodes_link (T := T) (E := E) (m := m) hv
  have hkeep := hm.keeps_nodes (T := T) (E := E) hv
  have hother : ∀ b, b ≠ m.1 → Function.update c.refcounts m.1 0 b = c.refcounts b :=
    fun b hb => Function.update_of_ne hb _ _
  have hne : ∀ b ∈ cfg.addr1 :: s.nodes, b ≠ m.1 := by
    rintro b hb rfl
    rcases List.mem_cons.1 hb with h1 | hin
    · exact hm.ne h1
    · exact hm.notMem hin
  have hmem : ∀ b, b ∈ cfg.addr1 :: (s.link v T E m).nodes ↔ b = m.1 ∨ b ∈ cfg.addr1 :: s.nodes :=
    fun b => by
      rw [List.mem_cons, hperm.mem_iff, List.mem_cons, List.mem_cons]
      tauto
  have hdegree : ∀ b, (s.link v T E m).inDegree ⟨Function.update c.refcounts m.1 0,
      c.nrDeadNodes + 1⟩ b = s.inDegree c b := by
    intro b
    rw [Store.inDegree, (hperm.map _).sum_eq, List.map_cons, List.sum_cons,
      if_pos (Function.update_self _ _ _), zero_add]
    refine congrArg List.sum (List.map_congr_left fun d hd => ?_)
    rw [(hkeep d hd).2]
    simp only [hother d (hne d (List.mem_cons_of_mem _ hd))]
  have hzero : s.inDegree c m.1 = 0 := by
    refine List.sum_eq_zero fun x hx => ?_
    obtain ⟨b, hb, rfl⟩ := List.mem_map.1 hx
    have hnode := hs.node b hb
    have hthen := hne _ hnode.thenEdge.mem_cells
    have helse := hne _ hnode.elseEdge.mem_cells
    rw [Node.linksTo, if_neg hthen, if_neg helse]
    simp
  have hext : ext m.1 = 0 := by
    by_contra h
    exact hne _ (hc.support _ h) rfl
  constructor
  · intro b hb
    rcases (hmem b).1 hb with rfl | hb
    · simp
    · simp only [hother b (hne b hb)]
      exact hc.le b hb
  · intro b hb
    rw [hdegree]
    rcases (hmem b).1 hb with rfl | hb
    · right
      simp [hext, hzero]
    · simp only [hother b (hne b hb)]
      exact hc.eq b hb
  · exact fun b hb => (hmem b).2 (.inr (hc.support b hb))
  · have hp : (cfg.addr1 :: (s.link v T E m).nodes).Perm (m.1 :: cfg.addr1 :: s.nodes) :=
      (hperm.cons _).trans (.swap _ _ _)
    rw [hp.countP_eq, List.countP_cons, hc.dead]
    have hsame : (cfg.addr1 :: s.nodes).countP
        (fun b => decide (Function.update c.refcounts m.1 0 b = 0)) =
        (cfg.addr1 :: s.nodes).countP fun b => decide (c.refcounts b = 0) :=
      List.countP_congr fun b hb => by rw [hother b (hne b hb)]
    simp [hsame]
    omega

end Count

namespace Counters

theorem refcounts_incrRef_of_ne {F : BddPtr} (h : a ≠ F.addr) :
    (c.incrRef F).refcounts a = c.refcounts a := by
  unfold incrRef
  split
  · exact Function.update_of_ne h _ _
  · rfl

theorem refcounts_incrRef_ne_zero {F : BddPtr} (h : c.refcounts a ≠ 0) :
    (c.incrRef F).refcounts a ≠ 0 := by
  unfold incrRef
  split
  · by_cases heq : a = F.addr
    · rw [heq]
      simp [setRefcount]
    · rw [setRefcount]
      simpa only [Function.update_of_ne heq] using h
  · exact h

theorem setRefcount_one (c : Counters) (a : ℕ) :
    (⟨Function.update c.refcounts a 0, c.nrDeadNodes + 1⟩ : Counters).setRefcount a 1 =
      { c with refcounts := Function.update c.refcounts a 1 } := by
  simp [setRefcount]

end Counters

/-- The references of two links are taken, one after the other. -/
theorem Store.Counted.incrLinks (hs : s.Shape cfg) (hc : s.Counted cfg c ext)
    (hT : s.IsEdge cfg T) (hE : s.IsEdge cfg E) (hlT : T.addr = cfg.addr1 ∨ c.refcounts T.addr ≠ 0)
    (hlE : E.addr = cfg.addr1 ∨ c.refcounts E.addr ≠ 0) :
    s.Counted cfg ((c.incrRef T).incrRef E) (ext + refTo T.addr + refTo E.addr) :=
  (hc.incrRef hs hT hlT).incrRef hs hE (hlE.imp_right Counters.refcounts_incrRef_ne_zero)

/-! ### What `bdd_create_node` does -/

namespace Package

theorem keeps_of_eq {s' : Store} (hheap : s'.heap = s.heap) (hranks : s'.ranks = s.ranks) :
    s.Keeps cfg ext s' := ⟨hranks, fun a _ => by rw [hheap]⟩

theorem Inv.collect (hi : σ.Inv cfg ext) : (σ.collect cfg).Inv cfg ext ∧
    (σ.collect cfg).heap = σ.heap ∧ (σ.collect cfg).ranks = σ.ranks ∧
    (σ.collect cfg).count = σ.count := by
  unfold Package.collect
  split
  · exact ⟨hi.bddGc.1, rfl, rfl, rfl⟩
  · exact ⟨hi, rfl, rfl, rfl⟩

theorem Inv.enlarge (hi : σ.Inv cfg ext) (hv : v < σ.count) : (σ.enlarge cfg v).Inv cfg ext ∧
    (σ.enlarge cfg v).heap = σ.heap ∧ (σ.enlarge cfg v).ranks = σ.ranks := by
  unfold Package.enlarge
  split
  · obtain ⟨hs, halike⟩ := hi.shape.resizeHashTable hv true
    obtain ⟨hinv, hstore⟩ := (halike.inv rfl hi hs).extendComputedTable
    exact ⟨hinv, by rw [hstore]; rfl, by rw [hstore]; rfl⟩
  · exact ⟨hi, rfl, rfl⟩

section Node

variable {N : NodeForm} (hN : N.Canonical cfg T E)
include hN

theorem isEdge_edge (ha : a ∈ s.nodes) (h1 : a ≠ cfg.addr1)
    (hheap : s.heap a = ⟨v, N.thenLink, N.elseLink⟩) : s.IsEdge cfg (N.edge a) where
  const h := absurd h h1
  mem _ := ha
  inv hinv := by
    rw [Heap.elseLink, NodeForm.edge, hheap]
    exact hN.inv hinv

/-- The edge to the node has the cofactors `T` and `E`. -/
theorem denotes_edge (hs : s.Shape cfg) (ha : a ∈ s.nodes)
    (hheap : s.heap a = ⟨v, N.thenLink, N.elseLink⟩) (hT : Denotes cfg s.heap T p)
    (hE : Denotes cfg s.heap E n) : Denotes cfg s.heap (N.edge a) (.node v p n) := by
  have h1 : a ≠ cfg.addr1 := by
    rintro rfl
    exact hs.const_notMem ha
  have hterm := hs.termP_eq_false (isEdge_edge hN ha h1 hheap) h1
  have hvarid : s.heap.varid (N.edge a) = v := by rw [Heap.varid, NodeForm.edge, hheap]
  rw [← hvarid]
  refine .node h1 ?_ ?_
  · rw [Heap.cofactorPos_eq hterm, Heap.thenLink, Heap.elseLink, NodeForm.edge, hheap,
      hN.cofactorPos]
    exact hT
  · rw [Heap.cofactorNeg_eq hterm, Heap.thenLink, Heap.elseLink, NodeForm.edge, hheap,
      hN.cofactorNeg]
    exact hE

variable (hi : σ.Inv cfg ext) (hT : σ.Alive cfg ext T) (hE : σ.Alive cfg ext E)
include hi hT hE

theorem Inv.useNode (ha : a ∈ σ.nodes) (hheap : σ.heap a = ⟨v, N.thenLink, N.elseLink⟩) :
    (σ.useNode N a).Inv cfg (ext + refTo a) := by
  have h1 : a ≠ cfg.addr1 := by
    rintro rfl
    exact hi.shape.const_notMem ha
  have hedge := isEdge_edge hN ha h1 hheap
  obtain ⟨hthen, helse⟩ := hN.links (fun F (h : σ.Alive cfg ext F) => h.compl) hT hE
  refine ⟨hi.shape, ?_, add_refTo_nonneg hi.nonneg _, hi.cache⟩
  unfold Package.useNode
  dsimp only
  split
  · rename_i hdead
    have hlT := hi.refcounts_ne_zero hthen
    have hlE := hi.refcounts_ne_zero helse
    have hc := hi.counted.incrLinks hi.shape hthen.edge helse.edge hlT hlE
    have hneT : a ≠ N.thenLink.addr := by
      rintro rfl
      exact hlT.elim h1 fun h => h hdead
    have hneE : a ≠ N.elseLink.addr := by
      rintro rfl
      exact hlE.elim h1 fun h => h hdead
    have hzero : ((σ.toCounters.incrRef N.thenLink).incrRef N.elseLink).refcounts a = 0 := by
      rw [Counters.refcounts_incrRef_of_ne hneE, Counters.refcounts_incrRef_of_ne hneT, hdead]
    have hset := hc.set hi.shape hedge.mem_cells (by rw [NodeForm.edge, hzero]; decide) (r := 1)
      (by decide)
    rw [Counters.incrRef, NodeForm.edge, hzero, if_pos (by decide)]
    refine cast (congrArg _ (funext fun b => ?_)) hset
    simp only [NodeForm.edge, hzero, h1, hheap, Node.linksTo_eq, Pi.add_apply, if_false, if_true,
      one_ne_zero]
    push_cast
    ring
  · rename_i hlive
    exact hi.counted.incrRef hi.shape hedge (.inr hlive)

theorem Inv.newNode (hv : v < σ.count) (hm : σ.Fresh cfg m)
    (hrT : σ.ranks v < σ.rank T) (hrE : σ.ranks v < σ.rank E)
    (hnone : σ.lookup v N.thenLink N.elseLink = none) :
    (σ.newNode v N m).Inv cfg (ext + refTo m.1) := by
  obtain ⟨hthen, helse⟩ := hN.links (fun F (h : σ.Alive cfg ext F) => h.compl) hT hE
  obtain ⟨hrthen, hrelse⟩ := hN.links (P := fun F => σ.ranks v < σ.rank F) (fun _ h => h) hrT hrE
  have hs := hi.shape
  have hshape : (σ.link v N.thenLink N.elseLink m).Shape cfg := hs.link hm hv
    ⟨hthen.edge, helse.edge, hrthen, hrelse, hN.pos, hN.ne, hN.lt⟩ (hs.lookup_none hv hnone)
  have hkeep := hm.keeps_nodes (T := N.thenLink) (E := N.elseLink) hv
  refine ⟨hshape, ?_, add_refTo_nonneg hi.nonneg _, fun i e he => (hi.cache i e he).mono hs hkeep⟩
  have hmem : m.1 ∈ cfg.addr1 :: (σ.link v N.thenLink N.elseLink m).nodes :=
    List.mem_cons_of_mem _ ((Store.nodes_link hv).mem_iff.2 List.mem_cons_self)
  have hset := (hi.counted.link (T := N.thenLink) (E := N.elseLink) hs hm hv).set hshape hmem
    (by simp [bddMaxrefcount]) (r := 1) (by decide)
  rw [Counters.setRefcount_one] at hset
  have hlive : ∀ F : BddPtr, σ.Alive cfg ext F → F.addr = cfg.addr1 ∨
      Function.update σ.refcounts m.1 1 F.addr ≠ 0 := by
    intro F hF
    refine (hi.refcounts_ne_zero hF).imp_right fun h => ?_
    by_cases heq : F.addr = m.1
    · rw [heq, Function.update_self]
      exact one_ne_zero
    · rwa [Function.update_of_ne heq]
  refine cast (congrArg _ (funext fun b => ?_)) (hset.incrLinks hshape (hthen.edge.mono hkeep)
    (helse.edge.mono hkeep) (hlive _ hthen) (hlive _ helse))
  simp only [Function.update_self, hm.ne, Store.heap_link_self, Node.linksTo_eq, Pi.add_apply,
    if_false, if_true, one_ne_zero]
  push_cast
  ring

/-- The node is found or made where the ranks increase. -/
theorem Inv.findNode (hv : v < σ.count) (hrT : σ.ranks v < σ.rank T) (hrE : σ.ranks v < σ.rank E)
    (hp : Denotes cfg σ.heap T p) (hn : Denotes cfg σ.heap E n) :
    ∃ q, σ.findNode cfg v N = some q ∧ Returns cfg σ ext (· = .node v p n) q := by
  have hs := hi.shape
  obtain ⟨hrthen, hrelse⟩ := hN.links (P := fun F => σ.ranks v < σ.rank F) (fun _ h => h) hrT hrE
  rw [Package.findNode, if_pos (by rw [hs.varRank_eq hv]; exact ⟨hrthen, hrelse⟩)]
  cases hlookup : σ.lookup v N.thenLink N.elseLink with
  | some a =>
    obtain ⟨ha, hheap⟩ := hs.lookup_some hv hlookup
    have h1 : a ≠ cfg.addr1 := by
      rintro rfl
      exact hs.const_notMem ha
    exact ⟨_, rfl, hi.useNode hN hT hE ha hheap, .refl _, isEdge_edge hN ha h1 hheap, _,
      denotes_edge hN hs ha hheap hp hn, rfl⟩
  | none =>
    obtain ⟨m, hmalloc, hm⟩ := hs.malloc
    have hnew := hi.newNode hN hT hE hv hm hrT hrE hlookup
    obtain ⟨hcollect, hheap₁, hranks₁, hcount₁⟩ := hnew.collect
    obtain ⟨henlarge, hheap₂, hranks₂⟩ := hcollect.enlarge (v := v) (by rw [hcount₁]; exact hv)
    have hkeep := hm.keeps_nodes (T := N.thenLink) (E := N.elseLink) hv
    have hmem : m.1 ∈ (σ.newNode v N m).nodes :=
      (Store.nodes_link hv).mem_iff.2 List.mem_cons_self
    have hlink : (σ.newNode v N m).heap m.1 = ⟨v, N.thenLink, N.elseLink⟩ := Store.heap_link_self
    have hdenotes := denotes_edge hN hnew.shape hmem hlink
      (hs.denotes_mono hT.edge hp fun a ha => (hkeep a ha).2)
      (hs.denotes_mono hE.edge hn fun a ha => (hkeep a ha).2)
    have hheap := hheap₂.trans hheap₁
    -- the new node is held, so that it is kept when others are collected
    have halive : (σ.newNode v N m).Alive cfg (ext + refTo m.1) (N.edge m.1) := by
      refine ⟨isEdge_edge hN hmem hm.ne hlink, .inr (.root ?_)⟩
      have := hi.nonneg m.1
      simp only [NodeForm.edge, Pi.add_apply, refTo, if_true]
      omega
    have hkeeps : σ.Keeps cfg ext (σ.newNode v N m).toStore := ⟨rfl, fun b hb => by
      refine Store.heap_link ?_
      rintro rfl
      rcases hb with h1 | hreach
      · exact hm.ne h1
      · exact (List.mem_cons.1 (hreach.alive hs hi.counted hi.nonneg).1).elim hm.ne hm.notMem⟩
    have hkeeps' : (σ.newNode v N m).Keeps cfg (ext + refTo m.1)
        (((σ.newNode v N m).collect cfg).enlarge cfg v).toStore :=
      keeps_of_eq hheap (hranks₂.trans hranks₁)
    have hq : Returns cfg σ ext (· = .node v p n)
        (N.edge m.1, ((σ.newNode v N m).collect cfg).enlarge cfg v) :=
      .intro henlarge (hkeeps.trans (hkeeps'.mono (le_add_refTo ext _)))
        (henlarge.alive_keeps (fun _ => le_rfl) hkeeps' halive).edge ⟨_, by rwa [hheap], rfl⟩
    refine ⟨_, ?_, hq⟩
    simp only [hmalloc, Option.map_some]

end Node

/-- `bdd_create_node` returns the edge to the diagram of `v`, `T` and `E`. -/
theorem Inv.createNode (hi : σ.Inv cfg ext) (hT : σ.Alive cfg ext T) (hE : σ.Alive cfg ext E)
    (hv : v < bddTermid) (hrT : σ.ranks v < σ.rank T) (hrE : σ.ranks v < σ.rank E)
    (hp : Denotes cfg σ.heap T p) (hn : Denotes cfg σ.heap E n) :
    ∃ q, σ.createNode cfg v T E = some q ∧ Returns cfg σ ext (· = Bdd.mk v p n) q := by
  unfold Package.createNode
  by_cases h : T = E
  · subst h
    rw [if_pos rfl, hp.functional hn]
    exact ⟨_, rfl, hi.returns hT hn (by rw [Bdd.mk, if_pos rfl])⟩
  · rw [if_neg h, if_neg (by omega), Int.natAbs_natCast]
    obtain ⟨hs, halike, hv'⟩ := hi.shape.makeFitUniqueTable hv
    have hi' := halike.inv rfl hi hs
    have hk : σ.Keeps cfg ext (σ.makeFitUniqueTable v) := halike.keeps
    obtain ⟨q, hfind, hq⟩ := hi'.findNode (NodeForm.make_canonical h)
      (hi'.alive_keeps (fun _ => le_rfl) hk hT) (hi'.alive_keeps (fun _ => le_rfl) hk hE) hv'
      (by rw [halike.rank]; simpa only [halike.ranks] using hrT)
      (by rw [halike.rank]; simpa only [halike.ranks] using hrE)
      (hk.denotes hT hp) (hk.denotes hE hn)
    refine ⟨q, hfind, (hq.imp ?_).of_keeps hk⟩
    rintro r rfl
    rw [Bdd.mk, if_neg]
    rintro rfl
    exact h (hi.shape.eq_of_denotes hT.edge hE.edge hp hn)

end Package

end PVS.BddPackage
