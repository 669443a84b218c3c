import Mathlib
import PVS.BddPackage.Shape

/-! What reference counts count, and how nodes die and are reclaimed. -/

namespace PVS.BddPackage

open Library

variable {cfg : Config} {s s' : Store} {c c' : Counters} {ext ext' : ℕ → ℤ} {F G : BddPtr} {a b : ℕ}

/-! ### Counts -/

namespace Node

/-- How many of the links of a node lead to `a`. -/
def linksTo (n : Node) (a : ℕ) : ℤ :=
  (if n.thenLink.addr = a then 1 else 0) + (if n.elseLink.addr = a then 1 else 0)

theorem linksTo_nonneg (n : Node) (a : ℕ) : 0 ≤ n.linksTo a := by
  unfold linksTo
  split <;> split <;> decide

end Node

/-- One reference to `a`. -/
def refTo (a : ℕ) : ℕ → ℤ := fun b => if a = b then 1 else 0

namespace Store

/-- The links of live nodes to `a`. -/
def inDegree (s : Store) (c : Counters) (a : ℕ) : ℤ :=
  (s.nodes.map fun b => if c.refcounts b = 0 then 0 else (s.heap b).linksTo a).sum

/-- Every count is that of the links of live nodes and of the `ext` references from outside, unless the
node is frozen. -/
structure Counted (cfg : Config) (s : Store) (c : Counters) (ext : ℕ → ℤ) : Prop where
  le : ∀ a ∈ cfg.addr1 :: s.nodes, c.refcounts a ≤ bddMaxrefcount
  eq : ∀ a ∈ cfg.addr1 :: s.nodes,
    c.refcounts a = bddMaxrefcount ∨ (c.refcounts a : ℤ) = ext a + s.inDegree c a
  support : ∀ a, ext a ≠ 0 → a ∈ cfg.addr1 :: s.nodes
  /-- The node of `BDD_X` is dead too. -/
  dead : c.nrDeadNodes = 1 + (cfg.addr1 :: s.nodes).countP fun a => decide (c.refcounts a = 0)

end Store

/-! ### Changing one count -/

theorem sum_map_of_eq_off {l : List ℕ} (hl : l.Nodup) (ha : a ∈ l) {p q : ℕ → ℤ}
    (h : ∀ b ∈ l, b ≠ a → q b = p b) : (l.map q).sum = (l.map p).sum + (q a - p a) := by
  induction l with
  | nil => cases ha
  | cons b l ih =>
    rw [List.nodup_cons] at hl
    rw [List.map_cons, List.map_cons, List.sum_cons, List.sum_cons]
    by_cases hab : a = b
    · subst hab
      have htail : l.map q = l.map p := List.map_congr_left fun b hb => by
        refine h b (List.mem_cons_of_mem _ hb) ?_
        rintro rfl
        exact hl.1 hb
      rw [htail]
      ring
    · rw [ih hl.2 (List.mem_of_ne_of_mem hab ha) fun b hb => h b (List.mem_cons_of_mem _ hb),
        h b List.mem_cons_self (Ne.symm hab)]
      ring

theorem countP_of_eq_off {l : List ℕ} (hl : l.Nodup) (ha : a ∈ l) {p q : ℕ → Bool}
    (h : ∀ b ∈ l, b ≠ a → q b = p b) :
    l.countP q + (p a).toNat = l.countP p + (q a).toNat := by
  induction l with
  | nil => cases ha
  | cons b l ih =>
    rw [List.nodup_cons] at hl
    by_cases hab : a = b
    · subst hab
      have htail : l.countP q = l.countP p := List.countP_congr fun b hb => by
        have hne : b ≠ a := by
          rintro rfl
          exact hl.1 hb
        rw [h b (List.mem_cons_of_mem _ hb) hne]
      rw [List.countP_cons, List.countP_cons, htail]
      cases p a <;> cases q a <;> rfl
    · have hrest := ih hl.2 (List.mem_of_ne_of_mem hab ha)
        fun b hb => h b (List.mem_cons_of_mem _ hb)
      rw [List.countP_cons, List.countP_cons, h b List.mem_cons_self (Ne.symm hab)]
      omega

namespace Counters

/-- A change of the count of `a`; `nrDeadNodes` follows it. -/
def setRefcount (c : Counters) (a r : ℕ) : Counters where
  refcounts := Function.update c.refcounts a r
  nrDeadNodes :=
    if c.refcounts a = 0 then (if r = 0 then c.nrDeadNodes else c.nrDeadNodes - 1)
    else (if r = 0 then c.nrDeadNodes + 1 else c.nrDeadNodes)

end Counters

namespace Store

section Set

variable (hs : s.Shape cfg) (hc : s.Counted cfg c ext)
include hs hc

omit hc in
theorem cells_nodup : (cfg.addr1 :: s.nodes).Nodup := List.nodup_cons.2 ⟨hs.const_notMem, hs.nodup⟩

/-- A node that dies gives up its links, one that comes to life has them. -/
theorem Counted.set (ha : a ∈ cfg.addr1 :: s.nodes) (hfrozen : c.refcounts a ≠ bddMaxrefcount)
    {r : ℕ} (hr : r ≤ bddMaxrefcount) :
    s.Counted cfg (c.setRefcount a r) fun b =>
      ext b + (r - c.refcounts a) * refTo a b -
        ((if r = 0 then 0 else 1) - (if c.refcounts a = 0 then 0 else 1)) *
          (if a = cfg.addr1 then 0 else (s.heap a).linksTo b) := by
  have hself : (c.setRefcount a r).refcounts a = r := Function.update_self _ _ _
  have hother : ∀ b, b ≠ a → (c.setRefcount a r).refcounts b = c.refcounts b :=
    fun b hb => Function.update_of_ne hb _ _
  have hdegree : ∀ b, s.inDegree (c.setRefcount a r) b = s.inDegree c b +
      ((if r = 0 then 0 else 1) - (if c.refcounts a = 0 then 0 else 1)) *
        (if a = cfg.addr1 then 0 else (s.heap a).linksTo b) := by
    intro b
    by_cases h1 : a = cfg.addr1
    · rw [if_pos h1, mul_zero, add_zero]
      refine congrArg List.sum (List.map_congr_left fun d hd => ?_)
      rw [hother]
      rintro rfl
      exact hs.const_notMem (h1 ▸ hd)
    · have hmem := (List.mem_cons.1 ha).resolve_left h1
      rw [Store.inDegree, sum_map_of_eq_off hs.nodup hmem fun d _ hd => by rw [hother d hd], hself,
        if_neg h1]
      rw [Store.inDegree]
      split_ifs <;> ring
  constructor
  · intro b hb
    by_cases hba : b = a
    · rw [hba, hself]
      exact hr
    · rw [hother b hba]
      exact hc.le b hb
  · intro b hb
    rw [hdegree]
    by_cases hba : b = a
    · subst hba
      right
      have heq := (hc.eq b hb).resolve_left hfrozen
      rw [hself, refTo, if_pos rfl]
      linarith
    · rw [hother b hba, refTo, if_neg (Ne.symm hba)]
      refine (hc.eq b hb).imp_right fun heq => ?_
      linarith
  · intro b hne
    by_cases hba : b = a
    · exact hba ▸ ha
    · rw [refTo, if_neg (Ne.symm hba)] at hne
      by_cases hext : ext b = 0
      · by_cases h1 : a = cfg.addr1
        · simp [hext, h1] at hne
        · have hmem := (List.mem_cons.1 ha).resolve_left h1
          have hlinks : (s.heap a).linksTo b ≠ 0 := by
            intro h0
            simp [hext, h0] at hne
          have hnode := hs.node a hmem
          have htarget : ∀ F : BddPtr, s.IsEdge cfg F → F.addr = b → b ∈ cfg.addr1 :: s.nodes := by
            rintro F hF rfl
            by_cases hF1 : F.addr = cfg.addr1
            · exact hF1 ▸ List.mem_cons_self
            · exact List.mem_cons_of_mem _ (hF.mem hF1)
          unfold Node.linksTo at hlinks
          split at hlinks
          · exact htarget _ hnode.thenEdge ‹_›
          · split at hlinks
            · exact htarget _ hnode.elseEdge ‹_›
            · exact absurd rfl hlinks
      · exact hc.support b hext
  · have hcount := countP_of_eq_off (cells_nodup hs) ha
      (p := fun b => decide (c.refcounts b = 0))
      (q := fun b => decide ((c.setRefcount a r).refcounts b = 0))
      fun b _ hb => by rw [hother b hb]
    have hdead := hc.dead
    rw [hself] at hcount
    simp only [Counters.setRefcount] at hcount ⊢
    by_cases h0 : c.refcounts a = 0 <;> by_cases hr0 : r = 0 <;>
      simp [h0, hr0] at hcount ⊢ <;> omega

omit hs in
/-- The count of a frozen node is not kept. -/
theorem Counted.frozen (ha : a ∈ cfg.addr1 :: s.nodes) (hfrozen : c.refcounts a = bddMaxrefcount)
    (hext : ∀ b, b ≠ a → ext' b = ext b) : s.Counted cfg c ext' where
  le := hc.le
  eq b hb := by
    by_cases hba : b = a
    · exact .inl (hba ▸ hfrozen)
    · rw [hext b hba]
      exact hc.eq b hb
  support b hb := by
    by_cases hba : b = a
    · exact hba ▸ ha
    · exact hc.support b (hext b hba ▸ hb)
  dead := hc.dead

end Set

end Store

/-! ### Counting references -/

namespace Counters

variable (h : Heap)

/-- `BDD_INCR_REF` -/
def incrRef (c : Counters) (F : BddPtr) : Counters :=
  if c.refcounts F.addr < bddMaxrefcount then c.setRefcount F.addr (c.refcounts F.addr + 1) else c

/-- `bdd_free` -/
def bddFree : ℕ → Counters → BddPtr → Option Counters
  | 0, _, _ => none
  | n + 1, c, f =>
    if c.refcounts f.addr ≠ 0 ∧ c.refcounts f.addr ≠ bddMaxrefcount then
      let c' := c.setRefcount f.addr (c.refcounts f.addr - 1)
      if c'.refcounts f.addr = 0 ∧ h.internP f = true then
        (bddFree n c' (h.thenLink f)).bind fun c'' => bddFree n c'' (h.elseLink f)
      else some c'
    else some c

/-- `reclaim_aux` -/
def reclaimAux : ℕ → Counters → BddPtr → Option Counters
  | 0, _, _ => none
  | n + 1, c, f =>
    if c.refcounts f.addr ≠ bddMaxrefcount then
      if c.refcounts f.addr = 0 then
        let c' := c.setRefcount f.addr 1
        if h.internP f then
          (reclaimAux n c' (h.thenLink f)).bind fun c'' => reclaimAux n c'' (h.elseLink f)
        else some c'
      else some (c.setRefcount f.addr (c.refcounts f.addr + 1))
    else some c

/-- `reclaim` -/
def reclaim (n : ℕ) (c : Counters) (f : BddPtr) : Option Counters :=
  (reclaimAux h n c (h.thenLink f)).bind fun c' => reclaimAux h n c' (h.elseLink f)

end Counters

namespace Store

section Steps

variable (hs : s.Shape cfg) (hF : s.IsEdge cfg F)
include hs

theorem Shape.internP_iff (hF : s.IsEdge cfg F) : s.heap.internP F = true ↔ F.addr ≠ cfg.addr1 := by
  rw [Heap.internP, decide_eq_true_iff]
  constructor
  · intro hlt haddr
    rw [Heap.varid, haddr, hs.constVarid] at hlt
    exact hlt.false
  · intro haddr
    exact (hs.varid_lt hF haddr).trans_le hs.count_le

omit hs in
theorem IsEdge.mem_cells (hF : s.IsEdge cfg F) : F.addr ∈ cfg.addr1 :: s.nodes := by
  by_cases haddr : F.addr = cfg.addr1
  · exact haddr ▸ List.mem_cons_self
  · exact List.mem_cons_of_mem _ (hF.mem haddr)

omit hs in
theorem inDegree_nonneg (s : Store) (c : Counters) (a : ℕ) : 0 ≤ s.inDegree c a := by
  refine List.sum_nonneg fun x hx => ?_
  obtain ⟨b, _, rfl⟩ := List.mem_map.1 hx
  split
  · exact le_rfl
  · exact Node.linksTo_nonneg _ _

include hF

/-- A reference to a live node or to the constant is added. -/
theorem Counted.incrRef (hc : s.Counted cfg c ext)
    (hlive : F.addr = cfg.addr1 ∨ c.refcounts F.addr ≠ 0) :
    s.Counted cfg (c.incrRef F) (ext + refTo F.addr) := by
  unfold Counters.incrRef
  split
  · rename_i hlt
    have hset := hc.set hs hF.mem_cells hlt.ne hlt
    refine cast (congrArg _ (funext fun b => ?_)) hset
    rw [if_neg (Nat.succ_ne_zero _)]
    rcases hlive with haddr | hlive
    · simp [haddr]
    · simp [hlive]
  · rename_i hge
    have hfrozen := le_antisymm (hc.le _ hF.mem_cells) (Nat.not_lt.1 hge)
    refine hc.frozen hF.mem_cells hfrozen fun b hb => ?_
    simp [refTo, Ne.symm hb]

/-- `bdd_free` gives back a reference. -/
theorem Counted.bddFree (hc : s.Counted cfg c (ext + refTo F.addr)) (hext : ∀ a, 0 ≤ ext a) {n : ℕ}
    (hn : bddTermid < n + s.rank F) :
    ∃ c', Counters.bddFree s.heap n c F = some c' ∧ s.Counted cfg c' ext := by
  induction n generalizing F c ext with
  | zero =>
    have := hs.rank_le hF
    omega
  | succ n ih =>
    have hmem := hF.mem_cells
    rw [Counters.bddFree]
    split
    · rename_i hlive
      obtain ⟨hne, hfrozen⟩ := hlive
      have hle := hc.le _ hmem
      have hset := hc.set hs hmem hfrozen (r := c.refcounts F.addr - 1) (by omega)
      have hself : (c.setRefcount F.addr (c.refcounts F.addr - 1)).refcounts F.addr =
          c.refcounts F.addr - 1 := Function.update_self _ _ _
      have hcast : ((c.refcounts F.addr - 1 : ℕ) : ℤ) = c.refcounts F.addr - 1 := by omega
      simp only [hself]
      split
      · rename_i hdies
        obtain ⟨hzero, hintern⟩ := hdies
        have haddr := (hs.internP_iff hF).1 hintern
        have hnode := hs.nodeShape hF haddr
        have hthen : s.rank F < s.rank (s.heap F.addr).thenLink := by
          rw [hs.rank_eq hF haddr]
          exact hnode.rank_then
        have helse : s.rank F < s.rank (s.heap F.addr).elseLink := by
          rw [hs.rank_eq hF haddr]
          exact hnode.rank_else
        -- the links of `F` are now references from outside, which are given back in turn
        have hc' : s.Counted cfg (c.setRefcount F.addr (c.refcounts F.addr - 1))
            (ext + refTo (s.heap.elseLink F).addr + refTo (s.heap.thenLink F).addr) := by
          refine cast (congrArg _ (funext fun b => ?_)) hset
          have hone : c.refcounts F.addr = 1 := by omega
          simp only [hone, haddr, if_true, if_false, Pi.add_apply, Node.linksTo, refTo,
            Heap.thenLink, Heap.elseLink, one_ne_zero]
          push_cast
          ring
        have hext' : ∀ a, 0 ≤ (ext + refTo (s.heap.elseLink F).addr) a := fun a => by
          have := hext a
          simp only [Pi.add_apply, refTo]
          split <;> omega
        obtain ⟨c₁, hfree₁, hc₁⟩ := ih hnode.thenEdge hc' hext' (by omega)
        obtain ⟨c₂, hfree₂, hc₂⟩ := ih hnode.elseEdge hc₁ hext (by omega)
        refine ⟨c₂, ?_, hc₂⟩
        rw [Heap.thenLink, hfree₁]
        exact hfree₂
      · rename_i hlives
        refine ⟨_, rfl, cast (congrArg _ (funext fun b => ?_)) hset⟩
        simp only [hcast, Pi.add_apply, refTo]
        by_cases haddr : F.addr = cfg.addr1
        · rw [if_pos haddr, mul_zero, sub_zero]
          ring
        · have hpos : c.refcounts F.addr - 1 ≠ 0 := fun h0 =>
            hlives ⟨h0, (hs.internP_iff hF).2 haddr⟩
          rw [if_neg hpos, if_neg hne]
          ring
    · rename_i hdead
      refine ⟨c, rfl, ?_⟩
      by_cases hfrozen : c.refcounts F.addr = bddMaxrefcount
      · exact hc.frozen hmem hfrozen fun b hb => by simp [refTo, Ne.symm hb]
      · -- a node with a reference from outside is not dead
        have hzero : c.refcounts F.addr = 0 := by
          by_contra h0
          exact hdead ⟨h0, hfrozen⟩
        have heq := (hc.eq _ hmem).resolve_left hfrozen
        have hpos := hext F.addr
        have hdegree := inDegree_nonneg s c F.addr
        simp only [Pi.add_apply, refTo, if_true, hzero] at heq
        omega

/-- `reclaim_aux` takes a reference, also to a dead node. -/
theorem Counted.reclaimAux (hc : s.Counted cfg c ext) {n : ℕ} (hn : bddTermid < n + s.rank F) :
    ∃ c', Counters.reclaimAux s.heap n c F = some c' ∧ s.Counted cfg c' (ext + refTo F.addr) := by
  induction n generalizing F c ext with
  | zero =>
    have := hs.rank_le hF
    omega
  | succ n ih =>
    have hmem := hF.mem_cells
    rw [Counters.reclaimAux]
    split
    · rename_i hfrozen
      have hle := hc.le _ hmem
      split
      · rename_i hzero
        have hset := hc.set hs hmem hfrozen (r := 1) (by decide)
        split
        · rename_i hintern
          have haddr := (hs.internP_iff hF).1 hintern
          have hnode := hs.nodeShape hF haddr
          have hthen : s.rank F < s.rank (s.heap F.addr).thenLink := by
            rw [hs.rank_eq hF haddr]
            exact hnode.rank_then
          have helse : s.rank F < s.rank (s.heap F.addr).elseLink := by
            rw [hs.rank_eq hF haddr]
            exact hnode.rank_else
          have hc' : s.Counted cfg (c.setRefcount F.addr 1)
              (ext + refTo F.addr - refTo (s.heap.thenLink F).addr -
                refTo (s.heap.elseLink F).addr) := by
            refine cast (congrArg _ (funext fun b => ?_)) hset
            simp only [hzero, haddr, if_true, if_false, Pi.add_apply, Pi.sub_apply, Node.linksTo,
              refTo, Heap.thenLink, Heap.elseLink, one_ne_zero]
            push_cast
            ring
          obtain ⟨c₁, hreclaim₁, hc₁⟩ := ih hnode.thenEdge hc' (by omega)
          obtain ⟨c₂, hreclaim₂, hc₂⟩ := ih hnode.elseEdge hc₁ (by omega)
          refine ⟨c₂, ?_, ?_⟩
          · change (Counters.reclaimAux s.heap n _ (s.heap F.addr).thenLink).bind _ = some c₂
            rw [hreclaim₁]
            exact hreclaim₂
          · refine cast (congrArg _ ?_) hc₂
            change _ - refTo (s.heap.thenLink F).addr - refTo (s.heap.elseLink F).addr +
              refTo (s.heap.thenLink F).addr + refTo (s.heap.elseLink F).addr = _
            abel
        · rename_i hintern
          have haddr : F.addr = cfg.addr1 := by
            by_contra haddr
            exact hintern ((hs.internP_iff hF).2 haddr)
          refine ⟨_, rfl, cast (congrArg _ (funext fun b => ?_)) hset⟩
          rw [if_pos haddr, mul_zero, sub_zero, hzero]
          simp
      · rename_i hlive
        have hset := hc.set hs hmem hfrozen (r := c.refcounts F.addr + 1) (by omega)
        refine ⟨_, rfl, cast (congrArg _ (funext fun b => ?_)) hset⟩
        simp [hlive]
    · rename_i hfrozen
      refine ⟨c, rfl, hc.frozen hmem (not_not.1 hfrozen) fun b hb => ?_⟩
      simp [refTo, Ne.symm hb]

omit hF in
/-- What is reclaimed does not come before `F`. -/
theorem Shape.refcounts_reclaimAux (hF : s.IsEdge cfg F) {n : ℕ}
    (hreclaim : Counters.reclaimAux s.heap n c F = some c') (hG : s.rank G < s.rank F) :
    c'.refcounts G.addr = c.refcounts G.addr := by
  have hne : G.addr ≠ F.addr := by
    intro haddr
    rw [rank, rank, Heap.varid, Heap.varid, haddr] at hG
    exact hG.false
  induction n generalizing F c c' with
  | zero => cases hreclaim
  | succ n ih =>
    have hset : ∀ r, (c.setRefcount F.addr r).refcounts G.addr = c.refcounts G.addr :=
      fun r => Function.update_of_ne hne _ _
    rw [Counters.reclaimAux] at hreclaim
    split at hreclaim
    · split at hreclaim
      · dsimp only at hreclaim
        split at hreclaim
        · rename_i hintern
          have haddr := (hs.internP_iff hF).1 hintern
          have hnode := hs.nodeShape hF haddr
          have hrank := hs.rank_eq hF haddr
          have hthen : s.rank G < s.rank (s.heap.thenLink F) := hG.trans (hrank ▸ hnode.rank_then)
          have helse : s.rank G < s.rank (s.heap.elseLink F) := hG.trans (hrank ▸ hnode.rank_else)
          have hneOf : ∀ {H : BddPtr}, s.rank G < s.rank H → G.addr ≠ H.addr := by
            intro H hlt haddr
            rw [rank, rank, Heap.varid, Heap.varid, haddr] at hlt
            exact hlt.false
          obtain ⟨c₁, h₁, h₂⟩ := Option.bind_eq_some_iff.1 hreclaim
          rw [ih hnode.elseEdge h₂ helse (hneOf helse), ih hnode.thenEdge h₁ hthen (hneOf hthen),
            hset]
        · cases hreclaim
          exact hset 1
      · cases hreclaim
        exact hset _
    · cases hreclaim
      rfl

/-- A dead node is reclaimed with a first reference to it. -/
theorem Counted.reclaim (hc : s.Counted cfg c ext) (haddr : F.addr ≠ cfg.addr1)
    (hdead : c.refcounts F.addr = 0) {n : ℕ} (hn : bddTermid < n + (s.rank F + 1)) :
    ∃ c', Counters.reclaim s.heap n c F = some c' ∧
      s.Counted cfg (c'.incrRef F) (ext + refTo F.addr) := by
  have hnode := hs.nodeShape hF haddr
  have hrank := hs.rank_eq hF haddr
  have hthen : s.rank F < s.rank (s.heap.thenLink F) := hrank ▸ hnode.rank_then
  have helse : s.rank F < s.rank (s.heap.elseLink F) := hrank ▸ hnode.rank_else
  obtain ⟨c₁, hreclaim₁, hc₁⟩ := hc.reclaimAux hs hnode.thenEdge (n := n)
    (by have : s.rank F < s.rank (s.heap F.addr).thenLink := hthen; omega)
  obtain ⟨c₂, hreclaim₂, hc₂⟩ := hc₁.reclaimAux hs hnode.elseEdge (n := n)
    (by have : s.rank F < s.rank (s.heap F.addr).elseLink := helse; omega)
  have hdead₂ : c₂.refcounts F.addr = 0 := by
    rw [hs.refcounts_reclaimAux hnode.elseEdge hreclaim₂ helse,
      hs.refcounts_reclaimAux hnode.thenEdge hreclaim₁ hthen, hdead]
  refine ⟨c₂, ?_, ?_⟩
  · rw [Counters.reclaim, Heap.thenLink, hreclaim₁]
    exact hreclaim₂
  · have hset := hc₂.set hs hF.mem_cells (by rw [hdead₂]; decide) (r := 1) (by decide)
    rw [Counters.incrRef, hdead₂, if_pos (by decide)]
    refine cast (congrArg _ (funext fun b => ?_)) hset
    simp only [hdead₂, haddr, if_true, if_false, Pi.add_apply, Node.linksTo, refTo, one_ne_zero]
    push_cast
    ring

end Steps

/-! ### What is reached from outside -/

/-- The nodes below those with references from outside. -/
inductive Reach (cfg : Config) (s : Store) (ext : ℕ → ℤ) : ℕ → Prop
  | root {a : ℕ} : 0 < ext a → Reach cfg s ext a
  | thenLink {a : ℕ} : Reach cfg s ext a → a ≠ cfg.addr1 → Reach cfg s ext (s.heap a).thenLink.addr
  | elseLink {a : ℕ} : Reach cfg s ext a → a ≠ cfg.addr1 → Reach cfg s ext (s.heap a).elseLink.addr

theorem linksTo_le_inDegree (hb : b ∈ s.nodes) (hlive : c.refcounts b ≠ 0) (a : ℕ) :
    (s.heap b).linksTo a ≤ s.inDegree c a := by
  have hmem : (if c.refcounts b = 0 then 0 else (s.heap b).linksTo a) ∈
      s.nodes.map fun b => if c.refcounts b = 0 then 0 else (s.heap b).linksTo a :=
    List.mem_map_of_mem hb
  rw [if_neg hlive] at hmem
  refine List.single_le_sum (fun x hx => ?_) _ hmem
  obtain ⟨d, _, rfl⟩ := List.mem_map.1 hx
  split
  · exact le_rfl
  · exact Node.linksTo_nonneg _ _

theorem Counted.ne_zero (hc : s.Counted cfg c ext) (ha : a ∈ cfg.addr1 :: s.nodes)
    (hpos : 0 < ext a + s.inDegree c a) : c.refcounts a ≠ 0 := by
  intro hzero
  rcases hc.eq a ha with hfrozen | heq
  · rw [hzero] at hfrozen
    exact absurd hfrozen (by decide)
  · rw [hzero] at heq
    omega

/-- What is reached is in the unique table and alive. -/
theorem Reach.alive (hs : s.Shape cfg) (hc : s.Counted cfg c ext) (hext : ∀ a, 0 ≤ ext a)
    (ha : s.Reach cfg ext a) : a ∈ cfg.addr1 :: s.nodes ∧ c.refcounts a ≠ 0 := by
  induction ha with
  | @root a hpos =>
    have hmem := hc.support a hpos.ne'
    exact ⟨hmem, hc.ne_zero hmem (by have := inDegree_nonneg s c a; omega)⟩
  | @thenLink a _ h1 ih =>
    have hmem := (List.mem_cons.1 ih.1).resolve_left h1
    have htarget := (hs.node a hmem).thenEdge.mem_cells
    refine ⟨htarget, hc.ne_zero htarget ?_⟩
    have hle := linksTo_le_inDegree hmem ih.2 (s.heap a).thenLink.addr
    have hpos := hext (s.heap a).thenLink.addr
    rw [Node.linksTo, if_pos rfl] at hle
    split at hle <;> omega
  | @elseLink a _ h1 ih =>
    have hmem := (List.mem_cons.1 ih.1).resolve_left h1
    have htarget := (hs.node a hmem).elseEdge.mem_cells
    refine ⟨htarget, hc.ne_zero htarget ?_⟩
    have hle := linksTo_le_inDegree hmem ih.2 (s.heap a).elseLink.addr
    have hpos := hext (s.heap a).elseLink.addr
    rw [Node.linksTo, if_pos (show (s.heap a).elseLink.addr = (s.heap a).elseLink.addr from rfl)]
      at hle
    split at hle <;> omega

end Store

end PVS.BddPackage
