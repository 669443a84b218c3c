import Mathlib
import PVS.BddPackage.CreateNode

/-! The arguments of `bdd_ite` are made into standard triples. -/

namespace PVS.BddPackage

open Library

variable {cfg : Config} {s s' : Store} {ext : ℕ → ℤ} {F G H R : BddPtr} {f g : Bdd}
  {ρ : ℕ → Bool} {v : ℕ}

/-! ### The value of an edge -/

open Classical in
/-- The value at `ρ` of what an edge stands for; other edges have values that are complements too. -/
noncomputable def valueOf (cfg : Config) (h : Heap) (ρ : ℕ → Bool) (F : BddPtr) : Bool :=
  if hf : ∃ f, Denotes cfg h F f then hf.choose.eval ρ else F.neg

theorem Denotes.valueOf {h : Heap} (hf : Denotes cfg h F f) : valueOf cfg h ρ F = f.eval ρ := by
  have hex : ∃ f, Denotes cfg h F f := ⟨f, hf⟩
  rw [BddPackage.valueOf, dif_pos hex, hex.choose_spec.functional hf]

theorem valueOf_compl (cfg : Config) (h : Heap) (ρ : ℕ → Bool) (F : BddPtr) :
    valueOf cfg h ρ F.compl = !valueOf cfg h ρ F := by
  by_cases hex : ∃ f, Denotes cfg h F f
  · obtain ⟨f, hf⟩ := hex
    rw [hf.compl.valueOf, hf.valueOf, Bdd.eval_compl]
  · have hex' : ¬∃ f, Denotes cfg h F.compl f := by
      rintro ⟨f, hf⟩
      exact hex ⟨_, by simpa using hf.compl⟩
    rw [valueOf, valueOf, dif_neg hex, dif_neg hex', BddPtr.neg_compl]

theorem valueOf_bdd1 (cfg : Config) (h : Heap) (ρ : ℕ → Bool) :
    valueOf cfg h ρ cfg.bdd1 = true := Denotes.valueOf .one

theorem Store.Keeps.valueOf (hk : s.Keeps cfg ext s') (hs : s.Shape cfg) (hF : s.Alive cfg ext F) :
    valueOf cfg s'.heap ρ F = valueOf cfg s.heap ρ F := by
  obtain ⟨f, hf⟩ := hs.exists_denotes hF.edge
  rw [hf.valueOf, (hk.denotes hF hf).valueOf]

namespace Store

/-- `IS_SMALLER_F` -/
def isSmaller (s : Store) (F G : BddPtr) : Bool :=
  decide (s.rank F < s.rank G ∨ (s.rank F = s.rank G ∧ F.bits < G.bits))

namespace Shape

variable (hs : s.Shape cfg)
include hs

theorem valueOf_update (hF : s.IsEdge cfg F) (hv : s.ranks v < s.rank F) (b : Bool) :
    valueOf cfg s.heap (Function.update ρ v b) F = valueOf cfg s.heap ρ F := by
  obtain ⟨f, hf⟩ := hs.exists_denotes hF
  rw [hf.valueOf, hf.valueOf, Bdd.eval_update_of_notMem ((hs.isReduced hF hf).notMem_vars hv)]

/-- An edge is at least at the rank from which on its function depends on variables. -/
theorem le_rank (hF : s.IsEdge cfg F) (hf : Denotes cfg s.heap F f) {k : ℕ} (hk : k ≤ bddTermid)
    (h : ∀ v, s.ranks v < k → ∀ ρ b, f.eval (Function.update ρ v b) = f.eval ρ) :
    k ≤ s.rank F := by
  by_cases haddr : F.addr = cfg.addr1
  · rwa [hs.rank_const haddr]
  · obtain ⟨p, n, rfl, -, -⟩ := hf.exists_node haddr
    rw [hs.rank_eq hF haddr]
    by_contra hlt
    have hmem : s.heap.varid F ∈ (Bdd.node (s.heap.varid F) p n).vars := by simp [Bdd.vars]
    obtain ⟨ρ, b, hne⟩ := ((hs.isReduced hF hf).mem_vars_iff hs.ranks_injective).1 hmem
    exact hne (h _ (Nat.not_le.1 hlt) ρ b)

/-! ### Expansion at a variable -/

theorem varid_eq_of_rank (hF : s.IsEdge cfg F) (hG : s.IsEdge cfg G) (h : s.rank F = s.rank G)
    (hlt : s.rank F < bddTermid) : s.heap.varid F = s.heap.varid G := by
  have hFaddr := hs.addr_ne_of_rank_lt hlt
  have hGaddr := hs.addr_ne_of_rank_lt (h ▸ hlt)
  rw [hs.rank_eq hF hFaddr, hs.rank_eq hG hGaddr] at h
  exact hs.ranks_injective h

theorem ranks_varid (hF : s.IsEdge cfg F) (hlt : s.rank F < bddTermid) :
    s.ranks (s.heap.varid F) = s.rank F :=
  (hs.rank_eq hF (hs.addr_ne_of_rank_lt hlt)).symm

theorem valueOf_cofactorPos (hF : s.IsEdge cfg F) (haddr : F.addr ≠ cfg.addr1) :
    valueOf cfg s.heap ρ (s.heap.cofactorPos F) =
      valueOf cfg s.heap (Function.update ρ (s.heap.varid F) true) F := by
  obtain ⟨f, hf⟩ := hs.exists_denotes hF
  obtain ⟨p, n, rfl, hp, hn⟩ := hf.exists_node haddr
  cases hs.isReduced hF hf with
  | node _ hpos hneg _ =>
    rw [hp.valueOf, hf.valueOf, Bdd.eval_node_update (hpos.notMem_vars (Nat.lt_succ_self _))
      (hneg.notMem_vars (Nat.lt_succ_self _)), if_pos rfl]

theorem valueOf_cofactorNeg (hF : s.IsEdge cfg F) (haddr : F.addr ≠ cfg.addr1) :
    valueOf cfg s.heap ρ (s.heap.cofactorNeg F) =
      valueOf cfg s.heap (Function.update ρ (s.heap.varid F) false) F := by
  obtain ⟨f, hf⟩ := hs.exists_denotes hF
  obtain ⟨p, n, rfl, hp, hn⟩ := hf.exists_node haddr
  cases hs.isReduced hF hf with
  | node _ hpos hneg _ =>
    rw [hn.valueOf, hf.valueOf, Bdd.eval_node_update (hpos.notMem_vars (Nat.lt_succ_self _))
      (hneg.notMem_vars (Nat.lt_succ_self _)), if_neg (by simp)]

end Shape

end Store

/-! ### Standard triples -/

structure Triple where
  F : BddPtr
  G : BddPtr
  H : BddPtr

namespace Triple

variable (cfg : Config) (lt : BddPtr → BddPtr → Bool) (t : Triple)

/-- Constants are introduced where `F` decides `G` or `H`. -/
def introduce : Triple where
  F := t.F
  G := if t.F = t.G then cfg.bdd1 else if t.F.complP t.G then cfg.bdd0 else t.G
  H := if t.F = t.H then cfg.bdd0 else if t.F.complP t.H then cfg.bdd1 else t.H

/-- The results that need no recursion -/
def terminal : Option BddPtr :=
  if t.F = cfg.bdd0 then some t.H
  else if t.F = cfg.bdd1 then some t.G
  else if (t.introduce cfg).G = cfg.bdd1 ∧ (t.introduce cfg).H = cfg.bdd0 then some t.F
  else if (t.introduce cfg).G = cfg.bdd0 ∧ (t.introduce cfg).H = cfg.bdd1 then some t.F.compl
  else if (t.introduce cfg).G = (t.introduce cfg).H then some (t.introduce cfg).G
  else none

/-- `(F,1,H) => (H,1,F)` -/
def swapOr : Triple := if t.G = cfg.bdd1 ∧ lt t.H t.F = true then ⟨t.H, t.G, t.F⟩ else t

/-- `(F,G,0) => (G,F,0)` -/
def swapAnd : Triple := if t.H = cfg.bdd0 ∧ lt t.G t.F = true then ⟨t.G, t.F, t.H⟩ else t

/-- `(F,G,1) => (G',F',1)` -/
def swapImplies : Triple :=
  if t.H = cfg.bdd1 ∧ lt t.G t.F = true then ⟨t.G.compl, t.F.compl, t.H⟩ else t

/-- `(F,0,H) => (H',0,F')` -/
def swapLess : Triple :=
  if t.G = cfg.bdd0 ∧ lt t.H t.F = true then ⟨t.H.compl, t.G, t.F.compl⟩ else t

/-- `(F,G,G') => (G,F,F')` -/
def swapXor : Triple :=
  if t.G.complP t.H = true ∧ lt t.G t.F = true then ⟨t.G, t.F, t.F.compl⟩ else t

/-- `(F',G,H) => (F,H,G)` -/
def posF : Triple := if t.F.neg = true then ⟨t.F.oOff, t.H, t.G⟩ else t

/-- `(F,G',H) => (F,G,H')'`, before the complement of the result -/
def posG : Triple := if t.G.neg = true then ⟨t.F, t.G.oOff, t.H.compl⟩ else t

/-- The triple with a smallest top variable first, and that positive -/
def standard : Triple :=
  ((((((t.introduce cfg).swapOr cfg lt).swapAnd cfg lt).swapImplies cfg lt).swapLess cfg lt).swapXor
    lt).posF

/-- The value where the edges have the values `E` -/
def value (E : BddPtr → Bool) : Bool := if E t.F then E t.G else E t.H

/-- What `P` holds of -/
def All (P : BddPtr → Prop) : Prop := P t.F ∧ P t.G ∧ P t.H

/-- A triple for the same function, of the same edges and their complements. -/
structure Equiv (t' : Triple) : Prop where
  value : ∀ E : BddPtr → Bool, (∀ F, E F.compl = !E F) → E cfg.bdd1 = true → t'.value E = t.value E
  all : ∀ P : BddPtr → Prop, (∀ F, P F → P F.compl) → t.All P → t'.All P
  any : ∀ P : BddPtr → Prop, (∀ F, P F → P F.compl) → t'.All P → t.All P

variable {cfg lt t} {t' t'' : Triple}

theorem Equiv.refl (t : Triple) : t.Equiv cfg t :=
  ⟨fun _ _ _ => rfl, fun _ _ h => h, fun _ _ h => h⟩

theorem Equiv.trans (h : t.Equiv cfg t') (h' : t'.Equiv cfg t'') : t.Equiv cfg t'' :=
  ⟨fun E hc h1 => (h'.value E hc h1).trans (h.value E hc h1), fun P hP ht => h'.all P hP (h.all P hP ht),
    fun P hP ht => h.any P hP (h'.any P hP ht)⟩

theorem compl_of_compl {P : BddPtr → Prop} (hP : ∀ F, P F → P F.compl) (h : P F.compl) : P F := by
  simpa using hP _ h

theorem equiv_swapOr (t : Triple) : t.Equiv cfg (t.swapOr cfg lt) := by
  unfold swapOr
  split
  · rename_i h
    refine ⟨fun E _ h1 => ?_, fun P _ ht => ⟨ht.2.2, ht.2.1, ht.1⟩, fun P _ ht => ⟨ht.2.2, ht.2.1, ht.1⟩⟩
    simp only [value, h.1, h1]
    cases E t.F <;> cases E t.H <;> rfl
  · exact .refl t

theorem equiv_swapAnd (t : Triple) : t.Equiv cfg (t.swapAnd cfg lt) := by
  unfold swapAnd
  split
  · rename_i h
    refine ⟨fun E hc h1 => ?_, fun P _ ht => ⟨ht.2.1, ht.1, ht.2.2⟩, fun P _ ht => ⟨ht.2.1, ht.1, ht.2.2⟩⟩
    simp only [value, h.1, ← Config.compl_bdd1, hc, h1]
    cases E t.F <;> cases E t.G <;> rfl
  · exact .refl t

theorem equiv_swapImplies (t : Triple) : t.Equiv cfg (t.swapImplies cfg lt) := by
  unfold swapImplies
  split
  · rename_i h
    refine ⟨fun E hc h1 => ?_, fun P hP ht => ⟨hP _ ht.2.1, hP _ ht.1, ht.2.2⟩,
      fun P hP ht => ⟨compl_of_compl hP ht.2.1, compl_of_compl hP ht.1, ht.2.2⟩⟩
    simp only [value, h.1, hc, h1]
    cases E t.F <;> cases E t.G <;> rfl
  · exact .refl t

theorem equiv_swapLess (t : Triple) : t.Equiv cfg (t.swapLess cfg lt) := by
  unfold swapLess
  split
  · rename_i h
    refine ⟨fun E hc h1 => ?_, fun P hP ht => ⟨hP _ ht.2.2, ht.2.1, hP _ ht.1⟩,
      fun P hP ht => ⟨compl_of_compl hP ht.2.2, ht.2.1, compl_of_compl hP ht.1⟩⟩
    simp only [value, h.1, ← Config.compl_bdd1, hc, h1]
    cases E t.F <;> cases E t.H <;> rfl
  · exact .refl t

theorem equiv_swapXor (t : Triple) : t.Equiv cfg (t.swapXor lt) := by
  unfold swapXor
  split
  · rename_i h
    have hH := BddPtr.complP_iff.1 h.1
    refine ⟨fun E hc _ => ?_, fun P hP ht => ⟨ht.2.1, ht.1, hP _ ht.1⟩,
      fun P hP ht => ⟨ht.2.1, ht.1, by rw [hH]; exact hP _ ht.1⟩⟩
    simp only [value, hH, hc]
    cases E t.F <;> cases E t.G <;> rfl
  · exact .refl t

theorem equiv_posF (t : Triple) : t.Equiv cfg t.posF := by
  unfold posF
  split
  · rename_i h
    rw [BddPtr.oOff_of_neg h]
    refine ⟨fun E hc _ => ?_, fun P hP ht => ⟨hP _ ht.1, ht.2.2, ht.2.1⟩,
      fun P hP ht => ⟨compl_of_compl hP ht.1, ht.2.2, ht.2.1⟩⟩
    simp only [value, hc]
    cases E t.F <;> rfl
  · exact .refl t

theorem equiv_standard (t : Triple) : (t.introduce cfg).Equiv cfg (t.standard cfg lt) :=
  (equiv_swapOr _).trans <| (equiv_swapAnd _).trans <| (equiv_swapImplies _).trans <|
    (equiv_swapLess _).trans <| (equiv_swapXor _).trans (equiv_posF _)

section Introduce

variable {E : BddPtr → Bool} (hc : ∀ F, E F.compl = !E F) (h1 : E cfg.bdd1 = true)
include hc h1

theorem value_introduce (t : Triple) : (t.introduce cfg).value E = t.value E := by
  have h0 : E cfg.bdd0 = false := by rw [← Config.compl_bdd1, hc, h1]; rfl
  unfold value introduce
  dsimp only
  split_ifs with hF hFG hFG' hFH hFH'
  · rw [h1, ← hFG, hF]
  · rw [h0, BddPtr.complP_iff.1 hFG', hc, hF]
    rfl
  · rfl
  · rw [h0, ← hFH, Bool.eq_false_of_not_eq_true hF]
  · rw [h1, BddPtr.complP_iff.1 hFH', hc, Bool.eq_false_of_not_eq_true hF]
    rfl
  · rfl

/-- A result without recursion is right. -/
theorem value_terminal (h : t.terminal cfg = some R) : E R = t.value E := by
  have h0 : E cfg.bdd0 = false := by rw [← Config.compl_bdd1, hc, h1]; rfl
  unfold terminal at h
  split_ifs at h with hF0 hF1 h10 h01 hGH
  · cases h
    rw [value, hF0, h0]
    rfl
  · cases h
    rw [value, hF1, h1, if_pos rfl]
  · cases h
    rw [← value_introduce hc h1, value, h10.1, h10.2, h1, h0]
    change E t.F = if E t.F = true then true else false
    cases E t.F <;> rfl
  · cases h
    rw [← value_introduce hc h1, value, h01.1, h01.2, h1, h0, hc]
    change (!E t.F) = if E t.F = true then false else true
    cases E t.F <;> rfl
  · cases h
    rw [← value_introduce hc h1, value, hGH, ite_self]

end Introduce

theorem value_posG {E : BddPtr → Bool} (hc : ∀ F, E F.compl = !E F) (t : Triple) :
    (t.posG.value E ^^ t.G.neg) = t.value E := by
  unfold posG
  split
  · rename_i h
    rw [BddPtr.oOff_of_neg h]
    simp only [value, hc, h]
    cases E t.F <;> simp
  · rename_i h
    rw [Bool.not_eq_true] at h
    rw [h, Bool.xor_false]

theorem all_introduce {P : BddPtr → Prop} (h1 : P cfg.bdd1) (h0 : P cfg.bdd0) (ht : t.All P) :
    (t.introduce cfg).All P := by
  refine ⟨ht.1, ?_, ?_⟩
  · dsimp only [introduce]
    split_ifs
    · exact h1
    · exact h0
    · exact ht.2.1
  · dsimp only [introduce]
    split_ifs
    · exact h0
    · exact h1
    · exact ht.2.2

theorem all_terminal {P : BddPtr → Prop} (hP : ∀ F, P F → P F.compl) (h1 : P cfg.bdd1)
    (h0 : P cfg.bdd0) (ht : t.All P) (h : t.terminal cfg = some R) : P R := by
  have hi := all_introduce h1 h0 ht
  unfold terminal at h
  split_ifs at h
  · exact Option.some.inj h ▸ ht.2.2
  · exact Option.some.inj h ▸ ht.2.1
  · exact Option.some.inj h ▸ ht.1
  · exact Option.some.inj h ▸ hP _ ht.1
  · exact Option.some.inj h ▸ hi.2.1

theorem all_posG {P : BddPtr → Prop} (hP : ∀ F, P F → P F.compl) (ht : t.All P) : t.posG.All P := by
  unfold posG
  split
  · rename_i h
    rw [BddPtr.oOff_of_neg h]
    exact ⟨ht.1, hP _ ht.2.1, hP _ ht.2.2⟩
  · exact ht

theorem neg_posG (t : Triple) : t.posG.G.neg = false := by
  unfold posG
  split
  · rfl
  · rename_i h
    simpa using h

theorem neg_standard (t : Triple) : (t.standard cfg lt).F.neg = false := by
  unfold standard posF
  split
  · rfl
  · rename_i h
    simpa using h

end Triple

end PVS.BddPackage
