import Mathlib
import PVS.BddPackage.Constrain

/-! A client creates, combines and frees functions; what it holds is right in every run. -/

namespace PVS.BddPackage

open Library

variable {cfg : Config} {s : Store} {σ : Package} {ext : ℕ → ℤ} {F G : BddPtr} {a : ℕ}

/-! ### The operations of the package -/

namespace Package

/-- `bdd_init`; the nodes of `BDD_X` and `BDD_1` are the first ones. -/
def init (cfg : Config) (log2size : ℕ) : Package where
  heap := fun _ => ⟨bddTermid, cfg.bdd1, cfg.bdd1⟩
  freeList := (cfg.block 0).drop 2
  nrBlocks := 1
  tables := fun _ => .empty 0
  ranks := id
  space := id
  count := 0
  nrItems := 0
  refcounts := fun _ => 0
  nrDeadNodes := 2
  computedTable := ⟨log2size, fun _ => none⟩

/-- `bdd_create_var`, which exits where the number is too large; the sign is dropped. -/
def createVar (cfg : Config) (σ : Package) (v : ℤ) : Option (BddPtr × Package) :=
  if v = -bddTermid then some (cfg.bdd0, σ.incrRef cfg.bdd0)
  else if v = bddTermid then some (cfg.bdd1, σ.incrRef cfg.bdd1)
  else if bddTermid < v.natAbs then none
  else σ.createNode cfg v.natAbs cfg.bdd1 cfg.bdd0

/-- The function of the variable, or of a constant; it is not that of a negative literal. -/
def literal (v : ℤ) (ρ : ℕ → Bool) : Bool :=
  if v.natAbs = bddTermid then decide (0 < v) else ρ v.natAbs

/-- `bdd_freeze` -/
def bddFreeze (σ : Package) (F : BddPtr) : Package :=
  if σ.refcounts F.addr < bddMaxrefcount then
    { σ with toCounters := σ.toCounters.setRefcount F.addr bddMaxrefcount }
  else σ

end Package

/-- The functions of two arguments -/
inductive Connective
  | and
  | greater
  | less
  | xor
  | or
  | nor
  | equiv
  | implied
  | implies
  | nand

namespace Connective

/-- Those that need the complement of the second argument -/
def needsNot : Connective → Bool
  | xor | nor | equiv | implied | nand => true
  | _ => false

/-- The arguments of `bdd_ite` -/
def triple (cfg : Config) (c : Connective) (F G : BddPtr) : Triple :=
  match c with
  | and => ⟨F, G, cfg.bdd0⟩
  | greater => ⟨G, cfg.bdd0, F⟩
  | less => ⟨F, cfg.bdd0, G⟩
  | xor => ⟨F, G.compl, G⟩
  | or => ⟨F, cfg.bdd1, G⟩
  | nor => ⟨F, cfg.bdd0, G.compl⟩
  | equiv => ⟨F, G, G.compl⟩
  | implied => ⟨F, cfg.bdd1, G.compl⟩
  | implies => ⟨F, G, cfg.bdd1⟩
  | nand => ⟨F, G.compl, cfg.bdd1⟩

def eval : Connective → Bool → Bool → Bool
  | and, x, y => x && y
  | greater, x, y => x && !y
  | less, x, y => !x && y
  | xor, x, y => x ^^ y
  | or, x, y => x || y
  | nor, x, y => !(x || y)
  | equiv, x, y => x == y
  | implied, x, y => x || !y
  | implies, x, y => !x || y
  | nand, x, y => !(x && y)

theorem value_triple {E : BddPtr → Bool} (hc : ∀ F, E F.compl = !E F) (h1 : E cfg.bdd1 = true)
    (c : Connective) (F G : BddPtr) : (c.triple cfg F G).value E = c.eval (E F) (E G) := by
  have h0 : E cfg.bdd0 = false := by rw [← Config.compl_bdd1, hc, h1]; rfl
  cases c <;> simp only [triple, Triple.value, eval, hc, h0, h1] <;>
    cases E F <;> cases E G <;> rfl

end Connective

namespace Package

/-- `bdd_and`, `bdd_xor` and the others; a complement that is needed is held meanwhile. -/
def connective (cfg : Config) (σ : Package) (c : Connective) (F G : BddPtr) :
    Option (BddPtr × Package) :=
  if c.needsNot then
    ((σ.incrRef G.compl).iteAux cfg (bddTermid + 1) (c.triple cfg F G)).bind fun R =>
      (R.2.bddFree G.compl).map fun σ' => (R.1, σ')
  else σ.iteAux cfg (bddTermid + 1) (c.triple cfg F G)

/-! ### They keep the invariant -/

theorem inv_init (cfg : Config) (log2size : ℕ) : (init cfg log2size).Inv cfg 0 := by
  have hnodes : (init cfg log2size).nodes = [] := rfl
  obtain ⟨rest, hfirst⟩ := cfg.first
  have hnodup := cfg.nodup 0
  have hblock : ∀ a ∈ rest, a ∈ cfg.block 0 := fun a ha => by simp [hfirst, ha]
  have hfree : (init cfg log2size).freeList = rest := by simp [init, hfirst]
  rw [hfirst, List.nodup_cons, List.nodup_cons] at hnodup
  constructor
  · exact {
      constVarid := rfl
      const_notMem := by rw [hnodes]; exact List.not_mem_nil
      space_ranks := fun _ => rfl
      ranks_space := fun _ => rfl
      ranks_ge := fun _ _ => rfl
      count_le := Nat.zero_le _
      varid := fun v hv => absurd hv (Nat.not_lt_zero v)
      node := by rw [hnodes]; exact fun _ h => absurd h List.not_mem_nil
      unique := by rw [hnodes]; exact fun _ h => absurd h List.not_mem_nil
      hashed := fun v hv => absurd hv (Nat.not_lt_zero v)
      nodup := by rw [hnodes]; exact List.nodup_nil
      nrItems := by rw [hnodes]; rfl
      freeList_nodup := by rw [hfree]; exact hnodup.2.2
      freeList := by
        rw [hfree, hnodes]
        refine fun a ha => ⟨?_, List.not_mem_nil, 0, Nat.zero_lt_one, hblock a ha⟩
        rintro rfl
        exact hnodup.2.1 ha
      block := by rw [hnodes]; exact fun _ h => absurd h List.not_mem_nil
      nrBlocks := Nat.zero_lt_one }
  · constructor
    · exact fun _ _ => Nat.zero_le _
    · intro a ha
      right
      rw [Store.inDegree, hnodes]
      rfl
    · exact fun a h => absurd rfl h
    · rw [hnodes]
      rfl
  · exact fun _ => le_rfl
  · exact fun i e h => absurd h (by simp [init])

namespace Inv

variable (hi : σ.Inv cfg ext)
include hi

theorem createVar (v : ℤ) (hv : v.natAbs ≤ bddTermid) :
    ∃ q, σ.createVar cfg v = some q ∧
      Returns cfg σ ext (fun r => ∀ ρ, r.eval ρ = literal v ρ) q := by
  have hpos : (0 : ℤ) < bddTermid := by decide
  unfold Package.createVar
  split_ifs with h0 h1 hgt
  · refine ⟨_, rfl, hi.returns Store.alive_bdd0 .zero fun ρ => ?_⟩
    rw [literal, if_pos (by omega), decide_eq_false (by omega)]
    rfl
  · refine ⟨_, rfl, hi.returns Store.alive_bdd1 .one fun ρ => ?_⟩
    rw [literal, if_pos (by omega), decide_eq_true (by omega)]
    rfl
  · omega
  · have hlt : v.natAbs < bddTermid := by omega
    have hrank : ∀ F : BddPtr, F.addr = cfg.addr1 → σ.ranks v.natAbs < σ.rank F := by
      intro F hF
      rw [hi.shape.rank_const hF]
      by_cases hcount : v.natAbs < σ.count
      · exact (hi.shape.ranks_lt hcount).trans_le hi.shape.count_le
      · rwa [hi.shape.ranks_ge _ (Nat.not_lt.1 hcount)]
    obtain ⟨q, hq, hspec⟩ := hi.createNode Store.alive_bdd1 Store.alive_bdd0 hlt (hrank _ rfl)
      (hrank _ rfl) .one .zero
    refine ⟨q, hq, hspec.imp ?_⟩
    rintro r rfl ρ
    rw [Bdd.eval_mk, literal, if_neg hlt.ne]
    cases ρ v.natAbs <;> rfl

theorem bddFreeze (hF : σ.Alive cfg ext F) : (σ.bddFreeze F).Inv cfg ext := by
  unfold Package.bddFreeze
  split
  · rename_i hlt
    refine ⟨hi.shape, ?_, hi.nonneg, hi.cache⟩
    have hset := hi.counted.set hi.shape hF.edge.mem_cells hlt.ne (le_refl bddMaxrefcount)
    refine hset.frozen hF.edge.mem_cells (Function.update_self _ _ _) fun b hb => ?_
    rw [refTo, if_neg (Ne.symm hb), mul_zero, add_zero]
    rcases hi.refcounts_ne_zero hF with h1 | hlive
    · rw [if_pos h1, mul_zero, sub_zero]
    · rw [if_neg (by decide), if_neg hlive, sub_self, zero_mul, sub_zero]
  · exact hi

theorem connective (c : Connective) (hF : σ.Alive cfg ext F) (hG : σ.Alive cfg ext G) :
    ∃ q, σ.connective cfg c F G = some q ∧ Returns cfg σ ext (fun r => ∀ ρ, r.eval ρ =
      c.eval (valueOf cfg σ.heap ρ F) (valueOf cfg σ.heap ρ G)) q := by
  have hall : ∀ {σ' : Package} {ext' : ℕ → ℤ}, σ'.Alive cfg ext' F → σ'.Alive cfg ext' G →
      (c.triple cfg F G).All fun F => σ'.Alive cfg ext' F ∧ 0 ≤ σ'.rank F := by
    intro σ' ext' hF hG
    cases c <;>
      exact ⟨⟨by first | exact hF | exact hG, Nat.zero_le _⟩,
        ⟨by first | exact hG | exact Store.alive_bdd0 | exact Store.alive_bdd1 | exact hG.compl,
          Nat.zero_le _⟩,
        by first | exact hF | exact hG | exact Store.alive_bdd0 | exact Store.alive_bdd1 | exact hG.compl,
        Nat.zero_le _⟩
  have hvalue : ∀ ρ, (c.triple cfg F G).value (valueOf cfg σ.heap ρ) =
      c.eval (valueOf cfg σ.heap ρ F) (valueOf cfg σ.heap ρ G) := fun ρ =>
    Connective.value_triple (valueOf_compl _ _ _) (valueOf_bdd1 _ _ _) c F G
  unfold Package.connective
  split
  · have hi' := hi.incrRef hG.compl
    obtain ⟨R, hite, hR⟩ := hi'.iteAux (n := bddTermid + 1) (k := 0)
      (hall (hF.mono (le_add_refTo ext _)) (hG.mono (le_add_refTo ext _))) (by omega)
    have hGedge : R.2.IsEdge cfg G.compl :=
      (hR.alive_of_alive (hG.compl.mono (le_add_refTo ext G.compl.addr))).edge
    obtain ⟨σ', hfree, hi₂, hstore⟩ := hR.inv.bddFree (F := G.compl)
      (e := ext + refTo R.1.addr) (by abel) (add_refTo_nonneg hi.nonneg _) hGedge
    refine ⟨(R.1, σ'), ?_, .intro hi₂ ?_ ?_ ?_⟩
    · simp only [hite, Option.bind_some, hfree, Option.map_some]
    · rw [hstore]
      exact hR.keeps.mono (le_add_refTo ext _)
    · rw [hstore]
      exact hR.edge
    · rw [hstore]
      obtain ⟨r, hr, heval⟩ := hR.value
      exact ⟨r, hr, fun ρ => (heval ρ).trans (hvalue ρ)⟩
  · obtain ⟨R, hite, hR⟩ := hi.iteAux (n := bddTermid + 1) (k := 0) (hall hF hG) (by omega)
    exact ⟨R, hite, hR.imp fun r hr ρ => (hr ρ).trans (hvalue ρ)⟩

end Inv

end Package

end PVS.BddPackage
