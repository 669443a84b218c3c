import Mathlib
import PVS.BddPackage.Package

/-! The unique table is well formed, so that an edge stands for one function and a function has one
edge. -/

namespace PVS.BddPackage

open Library

variable (cfg : Config)

/-- `hash_U`, computed in 32 bits. -/
def hashU (T E : BddPtr) (log2size : ℕ) : ℕ :=
  (0x9E3779B1 * ((T.bits >>> 2) ^^^ (E.bits <<< 3)) % 2 ^ 32) >>> (32 - log2size)

theorem hashU_lt (T E : BddPtr) (k : ℕ) : hashU T E k < 2 ^ k := by
  unfold hashU
  have hlt := Nat.mod_lt (0x9E3779B1 * ((T.bits >>> 2) ^^^ (E.bits <<< 3))) (Nat.two_pow_pos 32)
  rw [Nat.shiftRight_eq_div_pow]
  rcases Nat.le_total k 32 with hk | hk
  · rw [Nat.div_lt_iff_lt_mul (Nat.two_pow_pos _), ← Nat.pow_add, Nat.add_sub_cancel' hk]
    exact hlt
  · rw [Nat.sub_eq_zero_of_le hk, Nat.pow_zero, Nat.div_one]
    exact hlt.trans_le (Nat.pow_le_pow_right (by decide) hk)

namespace Store

def hash (s : Store) (log2size : ℕ) (a : ℕ) : ℕ := hashU (s.heap a).thenLink (s.heap a).elseLink log2size

/-- An edge to the constant node or to a node of the unique table; only some edges may have an
inverted input. -/
structure IsEdge (s : Store) (F : BddPtr) : Prop where
  const : F.addr = cfg.addr1 → F.inv = false
  mem : F.addr ≠ cfg.addr1 → F.addr ∈ s.nodes
  inv : F.inv = true → cfg.useInvEdges = true ∧ (s.heap.elseLink F).neg = false

/-- What holds of the fields of a node in the unique table. -/
structure NodeShape (s : Store) (n : Node) : Prop where
  thenEdge : s.IsEdge cfg n.thenLink
  elseEdge : s.IsEdge cfg n.elseLink
  rank_then : s.ranks n.varid < s.rank n.thenLink
  rank_else : s.ranks n.varid < s.rank n.elseLink
  pos : n.thenLink.neg = false
  ne : n.thenLink ≠ n.elseLink
  lt : cfg.useInvEdges = true → n.elseLink.neg = false → n.thenLink.bits < n.elseLink.bits

structure Shape (s : Store) : Prop where
  constVarid : (s.heap cfg.addr1).varid = bddTermid
  const_notMem : cfg.addr1 ∉ s.nodes
  space_ranks : ∀ v, s.space (s.ranks v) = v
  ranks_space : ∀ i, s.ranks (s.space i) = i
  ranks_ge : ∀ v, s.count ≤ v → s.ranks v = v
  count_le : s.count ≤ bddTermid
  varid : ∀ v < s.count, ∀ a ∈ (s.tables v).items, (s.heap a).varid = v
  node : ∀ a ∈ s.nodes, s.NodeShape cfg (s.heap a)
  unique : ∀ a ∈ s.nodes, ∀ b ∈ s.nodes, s.heap a = s.heap b → a = b
  hashed : ∀ v < s.count, (s.tables v).Hashed s.hash
  nodup : s.nodes.Nodup
  nrItems : s.nrItems = s.nodes.length
  freeList_nodup : s.freeList.Nodup
  freeList : ∀ a ∈ s.freeList, a ≠ cfg.addr1 ∧ a ∉ s.nodes ∧ ∃ k < s.nrBlocks, a ∈ cfg.block k
  block : ∀ a ∈ s.nodes, ∃ k < s.nrBlocks, a ∈ cfg.block k
  nrBlocks : 0 < s.nrBlocks

end Store

namespace BddPtr

/-- The complement of an edge when `b`. -/
def complIf (b : Bool) (F : BddPtr) : BddPtr := { F with neg := F.neg ^^ b }

@[simp]
theorem complIf_false (F : BddPtr) : F.complIf false = F := by simp [complIf]

@[simp]
theorem complIf_true (F : BddPtr) : F.complIf true = F.compl := by simp [complIf, compl]

@[simp]
theorem addr_complIf (b : Bool) (F : BddPtr) : (F.complIf b).addr = F.addr := rfl

theorem complIf_injective (b : Bool) : Function.Injective (complIf b) := by
  intro F G h
  cases b with
  | false => simpa using h
  | true => exact compl_injective (by simpa using h)

/-- Of positive edges only equal ones have equal complements, and under the same bit. -/
theorem eq_of_complIf {F G : BddPtr} {b c : Bool} (hF : F.neg = false) (hG : G.neg = false)
    (h : F.complIf b = G.complIf c) : b = c ∧ F = G := by
  have hbc : b = c := by simpa [complIf, hF, hG] using congrArg neg h
  subst hbc
  exact ⟨rfl, complIf_injective b h⟩

end BddPtr

namespace Heap

variable {h : Heap} {F : BddPtr}

theorem cofactorPos_eq (hF : h.termP F = false) :
    h.cofactorPos F = (if F.inv then h.elseLink F else h.thenLink F).complIf F.neg := by
  unfold cofactorPos
  cases F.inv <;> cases F.neg <;> simp [hF]

theorem cofactorNeg_eq (hF : h.termP F = false) :
    h.cofactorNeg F = (if F.inv then h.thenLink F else h.elseLink F).complIf F.neg := by
  unfold cofactorNeg
  cases F.inv <;> cases F.neg <;> simp [hF]

end Heap

namespace Store

variable {cfg} {s : Store} {F G : BddPtr} {f g : Bdd} {φ : (ℕ → Bool) → Bool}

theorem mem_nodes {a : ℕ} : a ∈ s.nodes ↔ ∃ v < s.count, a ∈ (s.tables v).items := by
  simp [nodes, List.mem_flatMap]

theorem isEdge_compl (hF : s.IsEdge cfg F) : s.IsEdge cfg F.compl := ⟨hF.const, hF.mem, hF.inv⟩

theorem isEdge_complIf (hF : s.IsEdge cfg F) (b : Bool) : s.IsEdge cfg (F.complIf b) :=
  ⟨hF.const, hF.mem, hF.inv⟩

theorem isEdge_bdd1 : s.IsEdge cfg cfg.bdd1 := ⟨fun _ => rfl, fun h => absurd rfl h, fun h => Bool.noConfusion h⟩

theorem isEdge_bdd0 : s.IsEdge cfg cfg.bdd0 := isEdge_compl isEdge_bdd1

theorem IsEdge.eq_const (hF : s.IsEdge cfg F) (haddr : F.addr = cfg.addr1) :
    F = cfg.bdd1 ∨ F = cfg.bdd0 := by
  obtain ⟨a, i, n⟩ := F
  obtain rfl : i = false := hF.const haddr
  obtain rfl : a = cfg.addr1 := haddr
  cases n with
  | false => exact .inl rfl
  | true => exact .inr rfl

namespace Shape

variable (hs : s.Shape cfg)
include hs

theorem ranks_injective : Function.Injective s.ranks :=
  Function.LeftInverse.injective hs.space_ranks

theorem ranks_lt {v : ℕ} (hv : v < s.count) : s.ranks v < s.count := by
  by_contra hle
  have heq := hs.ranks_injective (hs.ranks_ge _ (Nat.not_lt.1 hle))
  omega

theorem varRank_eq {v : ℕ} (hv : v < s.count) : s.varRank v = s.ranks v := by
  have := hs.count_le
  exact if_neg (by omega)

theorem mem_tables {a : ℕ} (ha : a ∈ s.nodes) :
    (s.heap a).varid < s.count ∧ a ∈ (s.tables (s.heap a).varid).items := by
  obtain ⟨v, hv, hmem⟩ := mem_nodes.1 ha
  obtain rfl := hs.varid v hv a hmem
  exact ⟨hv, hmem⟩

theorem varid_lt (hF : s.IsEdge cfg F) (haddr : F.addr ≠ cfg.addr1) :
    s.heap.varid F < s.count := (hs.mem_tables (hF.mem haddr)).1

theorem rank_eq (hF : s.IsEdge cfg F) (haddr : F.addr ≠ cfg.addr1) :
    s.rank F = s.ranks (s.heap.varid F) := hs.varRank_eq (hs.varid_lt hF haddr)

theorem rank_const (haddr : F.addr = cfg.addr1) : s.rank F = bddTermid := by
  rw [rank, Heap.varid, haddr, hs.constVarid, varRank, if_pos rfl]

theorem rank_lt (hF : s.IsEdge cfg F) (haddr : F.addr ≠ cfg.addr1) : s.rank F < bddTermid := by
  rw [hs.rank_eq hF haddr]
  exact (hs.ranks_lt (hs.varid_lt hF haddr)).trans_le hs.count_le

theorem rank_le (hF : s.IsEdge cfg F) : s.rank F ≤ bddTermid := by
  by_cases haddr : F.addr = cfg.addr1
  · exact (hs.rank_const haddr).le
  · exact (hs.rank_lt hF haddr).le

theorem addr_ne_of_rank_lt (hlt : s.rank F < bddTermid) : F.addr ≠ cfg.addr1 :=
  fun haddr => absurd (hs.rank_const haddr) hlt.ne

theorem termP_iff (hF : s.IsEdge cfg F) : s.heap.termP F = true ↔ F.addr = cfg.addr1 := by
  rw [Heap.termP, decide_eq_true_iff]
  constructor
  · intro hterm
    by_contra haddr
    have hlt := hs.varid_lt hF haddr
    have := hs.count_le
    omega
  · intro haddr
    rw [Heap.varid, haddr, hs.constVarid]

theorem termP_eq_false (hF : s.IsEdge cfg F) (haddr : F.addr ≠ cfg.addr1) :
    s.heap.termP F = false := by
  rw [← Bool.not_eq_true, hs.termP_iff hF]
  exact haddr

theorem nodeShape (hF : s.IsEdge cfg F) (haddr : F.addr ≠ cfg.addr1) :
    s.NodeShape cfg (s.heap F.addr) := hs.node _ (hF.mem haddr)

/-! ### Cofactors -/

theorem isEdge_cofactorPos (hF : s.IsEdge cfg F) : s.IsEdge cfg (s.heap.cofactorPos F) := by
  by_cases haddr : F.addr = cfg.addr1
  · rwa [Heap.cofactorPos, if_pos ((hs.termP_iff hF).2 haddr)]
  · rw [Heap.cofactorPos_eq (hs.termP_eq_false hF haddr)]
    have hnode := hs.nodeShape hF haddr
    cases F.inv with
    | false => exact isEdge_complIf hnode.thenEdge _
    | true => exact isEdge_complIf hnode.elseEdge _

theorem isEdge_cofactorNeg (hF : s.IsEdge cfg F) : s.IsEdge cfg (s.heap.cofactorNeg F) := by
  by_cases haddr : F.addr = cfg.addr1
  · rwa [Heap.cofactorNeg, if_pos ((hs.termP_iff hF).2 haddr)]
  · rw [Heap.cofactorNeg_eq (hs.termP_eq_false hF haddr)]
    have hnode := hs.nodeShape hF haddr
    cases F.inv with
    | false => exact isEdge_complIf hnode.elseEdge _
    | true => exact isEdge_complIf hnode.thenEdge _

theorem rank_cofactorPos (hF : s.IsEdge cfg F) (haddr : F.addr ≠ cfg.addr1) :
    s.rank F < s.rank (s.heap.cofactorPos F) := by
  have hnode := hs.nodeShape hF haddr
  rw [hs.rank_eq hF haddr, Heap.cofactorPos_eq (hs.termP_eq_false hF haddr)]
  cases F.inv with
  | false => exact hnode.rank_then
  | true => exact hnode.rank_else

theorem rank_cofactorNeg (hF : s.IsEdge cfg F) (haddr : F.addr ≠ cfg.addr1) :
    s.rank F < s.rank (s.heap.cofactorNeg F) := by
  have hnode := hs.nodeShape hF haddr
  rw [hs.rank_eq hF haddr, Heap.cofactorNeg_eq (hs.termP_eq_false hF haddr)]
  cases F.inv with
  | false => exact hnode.rank_else
  | true => exact hnode.rank_then

/-! ### One edge for a diagram -/

/-- Nodes with equal cofactors are one node, under the same bits. -/
theorem eq_of_cofactors (hF : s.IsEdge cfg F) (hG : s.IsEdge cfg G) (hFaddr : F.addr ≠ cfg.addr1)
    (hGaddr : G.addr ≠ cfg.addr1) (hvarid : s.heap.varid F = s.heap.varid G)
    (hpos : s.heap.cofactorPos F = s.heap.cofactorPos G)
    (hneg : s.heap.cofactorNeg F = s.heap.cofactorNeg G) : F = G := by
  have hnF := hs.nodeShape hF hFaddr
  have hnG := hs.nodeShape hG hGaddr
  rw [Heap.cofactorPos_eq (hs.termP_eq_false hF hFaddr),
    Heap.cofactorPos_eq (hs.termP_eq_false hG hGaddr)] at hpos
  rw [Heap.cofactorNeg_eq (hs.termP_eq_false hF hFaddr),
    Heap.cofactorNeg_eq (hs.termP_eq_false hG hGaddr)] at hneg
  have hunique : s.heap.thenLink F = s.heap.thenLink G → s.heap.elseLink F = s.heap.elseLink G →
      F.inv = G.inv → F.neg = G.neg → F = G := by
    intro hthen helse hi hn
    have haddr : F.addr = G.addr := by
      refine hs.unique _ (hF.mem hFaddr) _ (hG.mem hGaddr) ?_
      cases hf : s.heap F.addr with
      | mk v T E =>
        simp only [Heap.varid, Heap.thenLink, Heap.elseLink, hf] at hvarid hthen helse
        rw [hvarid, hthen, helse]
    cases F
    cases G
    simp_all
  cases hi : F.inv with
  | false =>
    cases hj : G.inv with
    | false =>
      simp only [hi, hj, Bool.false_eq_true, if_false] at hpos hneg
      obtain ⟨hbit, hthen⟩ := BddPtr.eq_of_complIf hnF.pos hnG.pos hpos
      rw [hbit] at hneg
      exact hunique hthen (BddPtr.complIf_injective _ hneg) (hi.trans hj.symm) hbit
    | true =>
      simp only [hi, hj, Bool.false_eq_true, if_false, if_true] at hpos hneg
      obtain ⟨huse, hpositive⟩ := hG.inv hj
      -- the two links of `G` are those of `F` the other way around, which orders them twice
      obtain ⟨hbit, hthen⟩ := BddPtr.eq_of_complIf hnF.pos hpositive hpos
      rw [hbit] at hneg
      have helse := BddPtr.complIf_injective _ hneg
      have hlt := hnG.lt huse hpositive
      have hgt := hnF.lt huse (by
        change (s.heap.elseLink F).neg = false
        rw [helse]
        exact hnG.pos)
      have hthen' : (s.heap F.addr).thenLink = (s.heap G.addr).elseLink := hthen
      have helse' : (s.heap F.addr).elseLink = (s.heap G.addr).thenLink := helse
      rw [hthen', helse'] at hgt
      exact absurd hlt hgt.asymm
  | true =>
    obtain ⟨huse, hpositive⟩ := hF.inv hi
    cases hj : G.inv with
    | false =>
      simp only [hi, hj, Bool.false_eq_true, if_false, if_true] at hpos hneg
      obtain ⟨hbit, helse⟩ := BddPtr.eq_of_complIf hpositive hnG.pos hpos
      rw [hbit] at hneg
      have hthen := BddPtr.complIf_injective _ hneg
      have hlt := hnF.lt huse hpositive
      have hgt := hnG.lt huse (by
        change (s.heap.elseLink G).neg = false
        rw [← hthen]
        exact hnF.pos)
      have hthen' : (s.heap F.addr).thenLink = (s.heap G.addr).elseLink := hthen
      have helse' : (s.heap F.addr).elseLink = (s.heap G.addr).thenLink := helse
      rw [← hthen', ← helse'] at hgt
      exact absurd hlt hgt.asymm
    | true =>
      simp only [hi, hj, if_true] at hpos hneg
      obtain ⟨hbit, hthen⟩ := BddPtr.eq_of_complIf hnF.pos hnG.pos hneg
      rw [hbit] at hpos
      exact hunique hthen (BddPtr.complIf_injective _ hpos) (hi.trans hj.symm) hbit

/-- A diagram has one edge. -/
theorem eq_of_denotes (hF : s.IsEdge cfg F) (hG : s.IsEdge cfg G) (hFf : Denotes cfg s.heap F f)
    (hGf : Denotes cfg s.heap G f) : F = G := by
  induction hFf generalizing G with
  | one => cases hGf with
    | one => rfl
  | zero => cases hGf with
    | zero => rfl
  | @node F p n hFaddr _ _ ihp ihn =>
    have hGaddr : G.addr ≠ cfg.addr1 := by
      intro haddr
      rcases hGf.eq_of_addr haddr with ⟨_, h⟩ | ⟨_, h⟩
      · cases h
      · cases h
    obtain ⟨p', n', heq, hp, hn⟩ := hGf.exists_node hGaddr
    injection heq with hvarid hpeq hneq
    subst hpeq hneq
    exact hs.eq_of_cofactors hF hG hFaddr hGaddr hvarid
      (ihp (hs.isEdge_cofactorPos hF) (hs.isEdge_cofactorPos hG) hp)
      (ihn (hs.isEdge_cofactorNeg hF) (hs.isEdge_cofactorNeg hG) hn)

theorem cofactors_ne (hF : s.IsEdge cfg F) (haddr : F.addr ≠ cfg.addr1) :
    s.heap.cofactorPos F ≠ s.heap.cofactorNeg F := by
  have hne : s.heap.thenLink F ≠ s.heap.elseLink F := (hs.nodeShape hF haddr).ne
  rw [Heap.cofactorPos_eq (hs.termP_eq_false hF haddr),
    Heap.cofactorNeg_eq (hs.termP_eq_false hF haddr)]
  cases F.inv with
  | false => exact (BddPtr.complIf_injective _).ne hne
  | true => exact (BddPtr.complIf_injective _).ne hne.symm

theorem exists_denotes (hF : s.IsEdge cfg F) : ∃ f, Denotes cfg s.heap F f := by
  induction hn : bddTermid - s.rank F using Nat.strong_induction_on generalizing F with
  | _ n ih =>
    by_cases haddr : F.addr = cfg.addr1
    · rcases hF.eq_const haddr with rfl | rfl
      · exact ⟨_, .one⟩
      · exact ⟨_, .zero⟩
    · have hlt := hs.rank_lt hF haddr
      have hpos := hs.rank_cofactorPos hF haddr
      have hneg := hs.rank_cofactorNeg hF haddr
      obtain ⟨p, hp⟩ := ih _ (by omega) (hs.isEdge_cofactorPos hF) rfl
      obtain ⟨m, hm⟩ := ih _ (by omega) (hs.isEdge_cofactorNeg hF) rfl
      exact ⟨_, .node haddr hp hm⟩

/-- What an edge stands for is reduced. -/
theorem isReduced (hF : s.IsEdge cfg F) (hFf : Denotes cfg s.heap F f) :
    f.IsReduced s.ranks (s.rank F) := by
  induction hFf with
  | one => exact .one
  | zero => exact .zero
  | @node F p n haddr hp hn ihp ihn =>
    have hpos := hs.isEdge_cofactorPos hF
    have hneg := hs.isEdge_cofactorNeg hF
    have hrank := hs.rank_eq hF haddr
    refine .node hrank.le ((ihp hpos).mono ?_) ((ihn hneg).mono ?_) ?_
    · rw [← hrank]
      exact hs.rank_cofactorPos hF haddr
    · rw [← hrank]
      exact hs.rank_cofactorNeg hF haddr
    · rintro rfl
      exact hs.cofactors_ne hF haddr (hs.eq_of_denotes hpos hneg hp hn)

end Shape

/-! ### The function of an edge -/

/-- The edge `F` stands for the Boolean function `φ`. -/
def Computes (cfg : Config) (s : Store) (F : BddPtr) (φ : (ℕ → Bool) → Bool) : Prop :=
  ∃ f, Denotes cfg s.heap F f ∧ ∀ ρ, f.eval ρ = φ ρ

theorem computes_bdd1 : s.Computes cfg cfg.bdd1 fun _ => true := ⟨_, .one, fun _ => rfl⟩

theorem computes_bdd0 : s.Computes cfg cfg.bdd0 fun _ => false := ⟨_, .zero, fun _ => rfl⟩

theorem Computes.compl (hF : s.Computes cfg F φ) : s.Computes cfg F.compl fun ρ => !φ ρ := by
  obtain ⟨f, hf, heval⟩ := hF
  exact ⟨_, hf.compl, fun ρ => by rw [Bdd.eval_compl, heval]⟩

theorem Computes.congr {φ' : (ℕ → Bool) → Bool} (hF : s.Computes cfg F φ)
    (h : ∀ ρ, φ ρ = φ' ρ) : s.Computes cfg F φ' := by
  obtain ⟨f, hf, heval⟩ := hF
  exact ⟨f, hf, fun ρ => (heval ρ).trans (h ρ)⟩

namespace Shape

variable (hs : s.Shape cfg)
include hs

/-- A function has one edge. -/
theorem eq_of_computes (hF : s.IsEdge cfg F) (hG : s.IsEdge cfg G) (hFφ : s.Computes cfg F φ)
    (hGφ : s.Computes cfg G φ) : F = G := by
  obtain ⟨f, hf, hfeval⟩ := hFφ
  obtain ⟨g, hg, hgeval⟩ := hGφ
  obtain rfl := (hs.isReduced hF hf).eq_of_eval hs.ranks_injective (hs.isReduced hG hg)
    fun ρ => (hfeval ρ).trans (hgeval ρ).symm
  exact hs.eq_of_denotes hF hG hf hg

/-- The function does not depend on the variables before the top one. -/
theorem eval_update (hF : s.IsEdge cfg F) (hFφ : s.Computes cfg F φ) {v : ℕ}
    (hv : s.ranks v < s.rank F) (ρ : ℕ → Bool) (b : Bool) :
    φ (Function.update ρ v b) = φ ρ := by
  obtain ⟨f, hf, heval⟩ := hFφ
  rw [← heval, ← heval, Bdd.eval_update_of_notMem ((hs.isReduced hF hf).notMem_vars hv)]

theorem computes_cofactorPos (hF : s.IsEdge cfg F) (haddr : F.addr ≠ cfg.addr1)
    (hFφ : s.Computes cfg F φ) :
    s.Computes cfg (s.heap.cofactorPos F) fun ρ => φ (Function.update ρ (s.heap.varid F) true) := by
  obtain ⟨f, hf, heval⟩ := hFφ
  obtain ⟨p, n, rfl, hp, hn⟩ := hf.exists_node haddr
  cases hs.isReduced hF hf with
  | node _ hpos hneg _ =>
    refine ⟨p, hp, fun ρ => ?_⟩
    change p.eval ρ = φ (Function.update ρ (s.heap.varid F) true)
    rw [← heval, Bdd.eval_node_update (hpos.notMem_vars (Nat.lt_succ_self _))
      (hneg.notMem_vars (Nat.lt_succ_self _)), if_pos rfl]

theorem computes_cofactorNeg (hF : s.IsEdge cfg F) (haddr : F.addr ≠ cfg.addr1)
    (hFφ : s.Computes cfg F φ) :
    s.Computes cfg (s.heap.cofactorNeg F) fun ρ => φ (Function.update ρ (s.heap.varid F) false) := by
  obtain ⟨f, hf, heval⟩ := hFφ
  obtain ⟨p, n, rfl, hp, hn⟩ := hf.exists_node haddr
  cases hs.isReduced hF hf with
  | node _ hpos hneg _ =>
    refine ⟨n, hn, fun ρ => ?_⟩
    change n.eval ρ = φ (Function.update ρ (s.heap.varid F) false)
    rw [← heval, Bdd.eval_node_update (hpos.notMem_vars (Nat.lt_succ_self _))
      (hneg.notMem_vars (Nat.lt_succ_self _)), if_neg (by simp)]

end Shape

end Store

end PVS.BddPackage
