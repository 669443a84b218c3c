import Mathlib
import PVS.Library.ChainedTable
import PVS.Library.ReducedBdd

/-! The nodes, edges and tables of the BDD package. -/

namespace PVS.BddPackage

open Library

/-! ### Edges and nodes -/

/-- `BDD_TERMID`; 16 bits of a node are for its variable. -/
def bddTermid : ℕ := 2 ^ 16 - 1

/-- `BDD_MAXREFCOUNT`; a node with this count is frozen. -/
def bddMaxrefcount : ℕ := 2 ^ 14 - 1

/-- A `BDDPTR`: the address of a node in words, and the bits for an inverted input and for a
complemented output. -/
structure BddPtr where
  addr : ℕ
  inv : Bool
  neg : Bool
  deriving DecidableEq

namespace BddPtr

/-- `BITS` -/
def bits (F : BddPtr) : ℕ := 4 * F.addr + 2 * F.inv.toNat + F.neg.toNat

/-- `BDD_COMPL` -/
def compl (F : BddPtr) : BddPtr := { F with neg := !F.neg }

/-- `BDD_O_OFF` -/
def oOff (F : BddPtr) : BddPtr := { F with neg := false }

/-- `BDD_COMPL_P` -/
def complP (F G : BddPtr) : Bool := decide (G = F.compl)

@[simp]
theorem compl_compl (F : BddPtr) : F.compl.compl = F := by simp [compl]

@[simp]
theorem addr_compl (F : BddPtr) : F.compl.addr = F.addr := rfl

@[simp]
theorem inv_compl (F : BddPtr) : F.compl.inv = F.inv := rfl

@[simp]
theorem neg_compl (F : BddPtr) : F.compl.neg = !F.neg := rfl

theorem compl_injective : Function.Injective compl := by
  intro F G h
  rw [← compl_compl F, h, compl_compl]

theorem complP_iff {F G : BddPtr} : F.complP G = true ↔ G = F.compl := decide_eq_true_iff

theorem oOff_of_neg {F : BddPtr} (h : F.neg = true) : F.oOff = F.compl := by
  simp [oOff, compl, h]

theorem bits_injective : Function.Injective bits := by
  rintro ⟨a, i, n⟩ ⟨b, j, m⟩ h
  cases i <;> cases n <;> cases j <;> cases m <;> simp [bits] at h ⊢ <;> omega

end BddPtr

/-- A node without its reference count, which is kept in `Counters`. -/
structure Node where
  varid : ℕ
  thenLink : BddPtr
  elseLink : BddPtr

abbrev Heap := ℕ → Node

/-- The functions whose address is kept in the computed table. -/
inductive CacheFn
  | bddConstrain
  | bddRestrict
  deriving DecidableEq

/-- The field `F` of an entry of the computed table, an edge or a function. -/
inductive CacheKey
  | edge (F : BddPtr)
  | func (f : CacheFn)
  deriving DecidableEq

structure ComputedTableEntry where
  F : CacheKey
  G : BddPtr
  H : BddPtr
  R : BddPtr

structure ComputedTable where
  log2size : ℕ
  entries : ℕ → Option ComputedTableEntry

/-! ### The state of the package -/

/-- What is fixed before the package is used: the options, the blocks of memory that it is given, and the
addresses of its functions. -/
structure Config where
  useInvEdges : Bool
  doGc : Bool
  loadFactor : ℕ
  funcBits : CacheFn → ℕ
  /-- The addresses of the nodes in each block. -/
  block : ℕ → List ℕ
  addrX : ℕ
  addr1 : ℕ
  first : ∃ rest, block 0 = addrX :: addr1 :: rest
  nonempty : ∀ k, block k ≠ []
  nodup : ∀ k, (block k).Nodup
  disjoint : ∀ {j k a}, a ∈ block j → a ∈ block k → j = k

/-- The memory of the nodes and the unique table: `tables` has the hash table of each variable, `space`
the variable of each rank. -/
structure Store where
  heap : Heap
  freeList : List ℕ
  nrBlocks : ℕ
  tables : ℕ → ChainedTable ℕ
  ranks : ℕ → ℕ
  space : ℕ → ℕ
  count : ℕ
  nrItems : ℕ

structure Counters where
  refcounts : ℕ → ℕ
  nrDeadNodes : ℕ

structure Package extends Store, Counters where
  computedTable : ComputedTable

namespace Config

variable (cfg : Config)

/-- `BDD_1` -/
def bdd1 : BddPtr := ⟨cfg.addr1, false, false⟩

/-- `BDD_0` -/
def bdd0 : BddPtr := cfg.bdd1.compl

@[simp]
theorem addr_bdd1 : cfg.bdd1.addr = cfg.addr1 := rfl

@[simp]
theorem addr_bdd0 : cfg.bdd0.addr = cfg.addr1 := rfl

@[simp]
theorem compl_bdd1 : cfg.bdd1.compl = cfg.bdd0 := rfl

@[simp]
theorem compl_bdd0 : cfg.bdd0.compl = cfg.bdd1 := BddPtr.compl_compl _

theorem bdd1_ne_bdd0 : cfg.bdd1 ≠ cfg.bdd0 := by simp [bdd0, bdd1, BddPtr.compl]

end Config

/-! ### Access to the fields of nodes -/

namespace Heap

variable (h : Heap) (F : BddPtr)

/-- `BDD_VARID` -/
def varid : ℕ := (h F.addr).varid

/-- `BDD_THEN` -/
def thenLink : BddPtr := (h F.addr).thenLink

/-- `BDD_ELSE` -/
def elseLink : BddPtr := (h F.addr).elseLink

/-- `BDD_TERM_P` -/
def termP : Bool := decide (h.varid F = bddTermid)

/-- `BDD_INTERN_P` -/
def internP : Bool := decide (h.varid F < bddTermid)

/-- `BDD_COFACTOR_POS` -/
def cofactorPos : BddPtr :=
  if h.termP F then F
  else if F.inv then (if F.neg then (h.elseLink F).compl else h.elseLink F)
  else (if F.neg then (h.thenLink F).compl else h.thenLink F)

/-- `BDD_COFACTOR_NEG` -/
def cofactorNeg : BddPtr :=
  if h.termP F then F
  else if F.inv then (if F.neg then (h.thenLink F).compl else h.thenLink F)
  else (if F.neg then (h.elseLink F).compl else h.elseLink F)

@[simp]
theorem varid_compl : h.varid F.compl = h.varid F := rfl

@[simp]
theorem termP_compl : h.termP F.compl = h.termP F := rfl

theorem cofactorPos_compl : h.cofactorPos F.compl = (h.cofactorPos F).compl := by
  unfold cofactorPos
  cases hinv : F.inv <;> cases hneg : F.neg <;>
    simp [hinv, hneg, apply_ite BddPtr.compl, thenLink, elseLink]

theorem cofactorNeg_compl : h.cofactorNeg F.compl = (h.cofactorNeg F).compl := by
  unfold cofactorNeg
  cases hinv : F.inv <;> cases hneg : F.neg <;>
    simp [hinv, hneg, apply_ite BddPtr.compl, thenLink, elseLink]

end Heap

namespace Store

variable (s : Store)

/-- `BDD_VAR_RANK` -/
def varRank (v : ℕ) : ℕ := if v = bddTermid then bddTermid else s.ranks v

/-- `BDD_RANK` -/
def rank (F : BddPtr) : ℕ := s.varRank (s.heap.varid F)

/-- The lists in all tables; the source keeps this sum in a counter. -/
def nrEntries : ℕ := ((List.range s.count).map fun v => (s.tables v).size).sum

/-- The nodes in the unique table. -/
def nodes : List ℕ := (List.range s.count).flatMap fun v => (s.tables v).items

@[simp]
theorem rank_compl (F : BddPtr) : s.rank F.compl = s.rank F := rfl

end Store

/-! ### The function of an edge -/

/-- The edge `F` stands for a diagram without complements and inverters. -/
inductive Denotes (cfg : Config) (h : Heap) : BddPtr → Bdd → Prop
  | one : Denotes cfg h cfg.bdd1 .one
  | zero : Denotes cfg h cfg.bdd0 .zero
  | node {F : BddPtr} {f g : Bdd} : F.addr ≠ cfg.addr1 → Denotes cfg h (h.cofactorPos F) f →
      Denotes cfg h (h.cofactorNeg F) g → Denotes cfg h F (.node (h.varid F) f g)

variable {cfg : Config} {h h' : Heap} {F G : BddPtr} {f g : Bdd}

theorem Denotes.compl (hF : Denotes cfg h F f) : Denotes cfg h F.compl f.compl := by
  induction hF with
  | one => exact .zero
  | zero =>
    rw [Config.compl_bdd0]
    exact .one
  | @node F f g haddr _ _ ihf ihg =>
    rw [Bdd.compl, ← h.varid_compl F]
    refine .node haddr ?_ ?_
    · rwa [Heap.cofactorPos_compl]
    · rwa [Heap.cofactorNeg_compl]

theorem Denotes.eq_of_addr (hF : Denotes cfg h F f) (haddr : F.addr = cfg.addr1) :
    (F = cfg.bdd1 ∧ f = .one) ∨ (F = cfg.bdd0 ∧ f = .zero) := by
  cases hF with
  | one => exact .inl ⟨rfl, rfl⟩
  | zero => exact .inr ⟨rfl, rfl⟩
  | node hne _ _ => exact absurd haddr hne

theorem Denotes.exists_node (hF : Denotes cfg h F f) (haddr : F.addr ≠ cfg.addr1) :
    ∃ p n, f = .node (h.varid F) p n ∧ Denotes cfg h (h.cofactorPos F) p ∧
      Denotes cfg h (h.cofactorNeg F) n := by
  cases hF with
  | one => exact absurd rfl haddr
  | zero => exact absurd rfl haddr
  | node _ hp hn => exact ⟨_, _, rfl, hp, hn⟩

/-- An edge stands for one diagram. -/
theorem Denotes.functional (hF : Denotes cfg h F f) (hG : Denotes cfg h F g) : f = g := by
  induction hF generalizing g with
  | one =>
    rcases hG.eq_of_addr rfl with ⟨_, rfl⟩ | ⟨heq, _⟩
    · rfl
    · exact absurd heq cfg.bdd1_ne_bdd0
  | zero =>
    rcases hG.eq_of_addr rfl with ⟨heq, _⟩ | ⟨_, rfl⟩
    · exact absurd heq.symm cfg.bdd1_ne_bdd0
    · rfl
  | node haddr _ _ ihf ihg =>
    obtain ⟨p, n, rfl, hp, hn⟩ := hG.exists_node haddr
    rw [ihf hp, ihg hn]

/-- The nodes below an edge decide what it stands for. -/
theorem Denotes.congr {S : Set ℕ} (hF : Denotes cfg h F f) (hS : F.addr = cfg.addr1 ∨ F.addr ∈ S)
    (hclosed : ∀ a ∈ S, a ≠ cfg.addr1 →
      ((h a).thenLink.addr = cfg.addr1 ∨ (h a).thenLink.addr ∈ S) ∧
        ((h a).elseLink.addr = cfg.addr1 ∨ (h a).elseLink.addr ∈ S))
    (hagree : ∀ a ∈ S, a ≠ cfg.addr1 → h' a = h a) : Denotes cfg h' F f := by
  induction hF with
  | one => exact .one
  | zero => exact .zero
  | @node F f g haddr hpos hneg ihf ihg =>
    have hmem := hS.resolve_left haddr
    have heq := hagree _ hmem haddr
    obtain ⟨hthen, helse⟩ := hclosed _ hmem haddr
    have hvarid : h'.varid F = h.varid F := by rw [Heap.varid, heq, Heap.varid]
    have hp : h'.cofactorPos F = h.cofactorPos F := by
      unfold Heap.cofactorPos Heap.termP Heap.varid Heap.thenLink Heap.elseLink
      rw [heq]
    have hn : h'.cofactorNeg F = h.cofactorNeg F := by
      unfold Heap.cofactorNeg Heap.termP Heap.varid Heap.thenLink Heap.elseLink
      rw [heq]
    have hposS : (h.cofactorPos F).addr = cfg.addr1 ∨ (h.cofactorPos F).addr ∈ S := by
      unfold Heap.cofactorPos
      split_ifs
      · exact hS
      all_goals first | exact hthen | exact helse
    have hnegS : (h.cofactorNeg F).addr = cfg.addr1 ∨ (h.cofactorNeg F).addr ∈ S := by
      unfold Heap.cofactorNeg
      split_ifs
      · exact hS
      all_goals first | exact hthen | exact helse
    rw [← hvarid]
    refine .node haddr ?_ ?_
    · rw [hp]
      exact ihf hposS
    · rw [hn]
      exact ihg hnegS

end PVS.BddPackage
