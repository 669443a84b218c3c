import Mathlib
import PVS.BddPackage.Triple

/-! `bdd_ite` makes the edge to the function of its arguments. -/

namespace PVS.BddPackage

open Library

variable {cfg : Config} {s s' : Store} {σ σ' : Package} {ext : ℕ → ℤ} {F G H T E R : BddPtr}
  {f g p m : Bdd} {ρ : ℕ → Bool} {t : Triple} {key : CacheKey} {n k v : ℕ}

/-! ### Results from the computed table or from a computation -/

namespace Package

/-- The computed table has the result or gets it. -/
def cached (cfg : Config) (σ : Package) (key : CacheKey) (G H : BddPtr)
    (compute : Package → Option (BddPtr × Package)) : Option (BddPtr × Package) :=
  match σ.lookupNoReclaim cfg key G H with
  | some R => (σ.reclaimDead R).map fun σ' => (R, σ'.incrRef R)
  | none => (compute σ).map fun q => (q.1, q.2.insertComputedTable cfg key G H q.1)

/-- `bdd_create_node`, and the references to its arguments are given back. -/
def makeNode (cfg : Config) (σ : Package) (v : ℕ) (T E : BddPtr) : Option (BddPtr × Package) :=
  (σ.createNode cfg v T E).bind fun R =>
    (R.2.bddFree T).bind fun σ' => (σ'.bddFree E).map fun σ'' => (R.1, σ'')

end Package

theorem CacheKey.Meets.keeps (hk : s.Keeps cfg ext s') {r : Bdd}
    (hkey : ∀ F, key = .edge F → s.Alive cfg ext F) (hG : s.Alive cfg ext G)
    (hH : s.Alive cfg ext H) (h : key.Meets cfg s.heap G H r) : key.Meets cfg s'.heap G H r := by
  cases key with
  | edge F =>
    obtain ⟨f, g, k, hf, hg, hk', heval⟩ := h
    exact ⟨f, g, k, hk.denotes (hkey F rfl) hf, hk.denotes hG hg, hk.denotes hH hk', heval⟩
  | func fn =>
    obtain ⟨f, c, hf, hc, hmeets⟩ := h
    exact ⟨f, c, hk.denotes hG hf, hk.denotes hH hc, hmeets⟩

namespace Package.Inv

theorem cached (hi : σ.Inv cfg ext) {K : CacheKey} (hkey : ∀ F, K = .edge F → σ.Alive cfg ext F)
    (hG : σ.Alive cfg ext G) (hH : σ.Alive cfg ext H) {C : Package → Option (BddPtr × Package)}
    (h : ∃ q, C σ = some q ∧ Returns cfg σ ext (K.Meets cfg σ.heap G H) q) :
    ∃ q, σ.cached cfg K G H C = some q ∧ Returns cfg σ ext (K.Meets cfg σ.heap G H) q := by
  unfold Package.cached
  cases hlookup : σ.lookupNoReclaim cfg K G H with
  | some R =>
    have hentry := hi.lookup hlookup
    obtain ⟨σ', hreclaim, hi', hstore⟩ := hi.reclaimDead hentry.edgeR
    have hedge := hentry.edgeR
    have hvalue := hentry.value
    refine ⟨(R, σ'.incrRef R), by simp only [hreclaim, Option.map_some], .intro hi' ?_ ?_ ?_⟩
    · exact keeps_of_eq (congrArg Store.heap hstore) (congrArg Store.ranks hstore)
    · change σ'.toStore.IsEdge cfg R
      rwa [hstore]
    · change ∃ r, Denotes cfg σ'.toStore.heap R r ∧ _
      rwa [hstore]
  | none =>
    obtain ⟨q, hcompute, hq⟩ := h
    refine ⟨(q.1, q.2.insertComputedTable cfg K G H q.1),
      by simp only [hcompute, Option.map_some], ?_⟩
    obtain ⟨r, hr, hmeets⟩ := hq.value
    have hentry : EntryOk cfg q.2.toStore ⟨K, G, H, q.1⟩ :=
      ⟨fun F hF => (hq.alive_of_alive (hkey F hF)).edge, (hq.alive_of_alive hG).edge,
        (hq.alive_of_alive hH).edge, hq.edge, r, hr, hmeets.keeps hq.keeps hkey hG hH⟩
    exact .intro (hq.inv.insertComputedTable hentry) hq.keeps hq.edge hq.value

theorem makeNode (hi : σ.Inv cfg (ext + refTo T.addr + refTo E.addr)) (hext : ∀ a, 0 ≤ ext a)
    (hT : σ.IsEdge cfg T) (hE : σ.IsEdge cfg E) (hv : v < bddTermid)
    (hrT : σ.ranks v < σ.rank T) (hrE : σ.ranks v < σ.rank E)
    (hp : Denotes cfg σ.heap T p) (hm : Denotes cfg σ.heap E m) :
    ∃ q, σ.makeNode cfg v T E = some q ∧ Returns cfg σ ext (· = Bdd.mk v p m) q := by
  have haT : σ.Alive cfg (ext + refTo T.addr + refTo E.addr) T := by
    refine ⟨hT, .inr (.root ?_)⟩
    have := hext T.addr
    have := refTo_nonneg E.addr T.addr
    have hone : refTo T.addr T.addr = 1 := if_pos rfl
    simp only [Pi.add_apply, hone]
    omega
  have haE : σ.Alive cfg (ext + refTo T.addr + refTo E.addr) E := by
    refine ⟨hE, .inr (.root ?_)⟩
    have := hext E.addr
    have := refTo_nonneg T.addr E.addr
    have hone : refTo E.addr E.addr = 1 := if_pos rfl
    simp only [Pi.add_apply, hone]
    omega
  obtain ⟨q, hcreate, hq⟩ := hi.createNode haT haE hv hrT hrE hp hm
  have hextR := add_refTo_nonneg hext q.1.addr
  obtain ⟨σ₁, hfree₁, hi₁, hstore₁⟩ := hq.inv.bddFree (F := T)
    (e := ext + refTo q.1.addr + refTo E.addr) (by abel) (add_refTo_nonneg hextR _)
    (hq.alive_of_alive haT).edge
  obtain ⟨σ₂, hfree₂, hi₂, hstore₂⟩ := hi₁.bddFree (F := E) (e := ext + refTo q.1.addr) rfl
    hextR (by rw [hstore₁]; exact (hq.alive_of_alive haE).edge)
  have hstore := hstore₂.trans hstore₁
  refine ⟨(q.1, σ₂), ?_, .intro hi₂ ?_ ?_ ?_⟩
  · simp only [Package.makeNode, hcreate, Option.bind_some, hfree₁, hfree₂, Option.map_some]
  · rw [hstore]
    exact hq.keeps.mono fun a => (le_add_refTo ext _ a).trans (le_add_refTo _ _ a)
  · rw [hstore]
    exact hq.edge
  · rw [hstore]
    exact hq.value

end Package.Inv

namespace Returns

variable {P Q : Bdd → Prop} {q : BddPtr × Package} (hq : Returns cfg σ ext P q)
include hq

theorem complIf (b : Bool) (h : ∀ r, P r → Q (if b then r.compl else r)) :
    Returns cfg σ ext Q (q.1.complIf b, q.2) := by
  obtain ⟨r, hr, hP⟩ := hq.value
  refine .intro hq.inv hq.keeps (Store.isEdge_complIf hq.edge b) ⟨_, ?_, h r hP⟩
  cases b with
  | false => simpa using hr
  | true => simpa using hr.compl

/-- The result is at least at the rank from which on it depends on variables. -/
theorem le_rank (hk : k ≤ bddTermid)
    (h : ∀ r, P r → ∀ v, σ.ranks v < k → ∀ ρ b, r.eval (Function.update ρ v b) = r.eval ρ) :
    k ≤ q.2.rank q.1 := by
  obtain ⟨r, hr, hP⟩ := hq.value
  refine hq.inv.shape.le_rank hq.edge hr hk ?_
  rw [hq.keeps.ranks]
  exact h r hP

/-- The node for two results, of which the first was held while the second was computed -/
theorem makeNode (hext : ∀ a, 0 ≤ ext a) {q' : BddPtr × Package}
    (hq' : Returns cfg q.2 (ext + refTo q.1.addr) Q q') (hv : v < bddTermid)
    (hrank : σ.ranks v < q.2.rank q.1) (hrank' : σ.ranks v < q'.2.rank q'.1) :
    ∃ o, q'.2.makeNode cfg v q.1 q'.1 = some o ∧
      Returns cfg σ ext (fun r => ∃ p m, P p ∧ Q m ∧ r = Bdd.mk v p m) o := by
  have halive := hq.alive hext
  obtain ⟨p, hp, hP⟩ := hq.value
  obtain ⟨m, hm, hQ⟩ := hq'.value
  have hranks : q'.2.ranks = σ.ranks := hq'.keeps.ranks.trans hq.keeps.ranks
  obtain ⟨o, hmake, ho⟩ := hq'.inv.makeNode hext (hq'.alive_of_alive halive).edge hq'.edge hv
    (by rwa [hranks, hq'.keeps.rank halive]) (by rwa [hranks]) (hq'.keeps.denotes halive hp) hm
  refine ⟨o, hmake, (ho.of_keeps (hq.keeps.trans (hq'.keeps.mono (le_add_refTo ext _)))).imp ?_⟩
  rintro r rfl
  exact ⟨p, m, hP, hQ, rfl⟩

end Returns

/-! ### Expansion of a triple -/

namespace Heap

variable (h : Heap) (F : BddPtr) (v w : ℕ)

/-- `EXP_POS_F` -/
def expPos : BddPtr := if v < w then F else if F.inv then h.elseLink F else h.thenLink F

/-- `EXP_NEG_F` -/
def expNeg : BddPtr := if v < w then F else if F.inv then h.thenLink F else h.elseLink F

/-- `EXP_POS2_F` -/
def expPos2 : BddPtr :=
  if v < w then F
  else if F.inv then (if F.neg then (h.elseLink F).compl else h.elseLink F)
  else (if F.neg then (h.thenLink F).compl else h.thenLink F)

/-- `EXP_NEG2_F` -/
def expNeg2 : BddPtr :=
  if v < w then F
  else if F.inv then (if F.neg then (h.thenLink F).compl else h.thenLink F)
  else (if F.neg then (h.elseLink F).compl else h.elseLink F)

variable {h F v w}

theorem expPos_eq (hF : F.neg = false) : h.expPos F v w = h.expPos2 F v w := by
  simp [expPos, expPos2, hF]

theorem expNeg_eq (hF : F.neg = false) : h.expNeg F v w = h.expNeg2 F v w := by
  simp [expNeg, expNeg2, hF]

end Heap

namespace Store

/-- An edge with the smallest rank -/
def top (s : Store) (t : Triple) : BddPtr :=
  let X := if s.rank t.G < s.rank t.H then t.G else t.H
  if s.rank t.F < s.rank X then t.F else X

def pos (s : Store) (t : Triple) : Triple where
  F := s.heap.expPos t.F (s.rank (s.top t)) (s.rank t.F)
  G := s.heap.expPos t.G (s.rank (s.top t)) (s.rank t.G)
  H := s.heap.expPos2 t.H (s.rank (s.top t)) (s.rank t.H)

def neg (s : Store) (t : Triple) : Triple where
  F := s.heap.expNeg t.F (s.rank (s.top t)) (s.rank t.F)
  G := s.heap.expNeg t.G (s.rank (s.top t)) (s.rank t.G)
  H := s.heap.expNeg2 t.H (s.rank (s.top t)) (s.rank t.H)

theorem top_spec (s : Store) (t : Triple) {P : BddPtr → Prop} (ht : t.All P) :
    P (s.top t) ∧ t.All fun F => s.rank (s.top t) ≤ s.rank F := by
  unfold top
  dsimp only [Triple.All]
  split_ifs with h1 h2 h2
  · exact ⟨ht.1, le_rfl, h2.le, h2.le.trans h1.le⟩
  · exact ⟨ht.2.1, Nat.not_lt.1 h2, le_rfl, h1.le⟩
  · exact ⟨ht.1, le_rfl, h2.le.trans (Nat.not_lt.1 h1), h2.le⟩
  · exact ⟨ht.2.2, Nat.not_lt.1 h2, Nat.not_lt.1 h1, le_rfl⟩

/-- `F'` is the cofactor of `F` where the variable `v` is `b`. -/
structure Expands (cfg : Config) (s : Store) (ext : ℕ → ℤ) (v : ℕ) (b : Bool) (F F' : BddPtr) :
    Prop where
  alive : s.Alive cfg ext F'
  rank : s.ranks v < s.rank F'
  value : ∀ ρ, valueOf cfg s.heap ρ F' = valueOf cfg s.heap (Function.update ρ v b) F

namespace Shape

variable (hs : s.Shape cfg) (hF : s.Alive cfg ext F)
include hs hF

theorem expands_of_lt (hv : s.ranks v < s.rank F) (b : Bool) : s.Expands cfg ext v b F F :=
  ⟨hF, hv, fun _ => (hs.valueOf_update hF.edge hv b).symm⟩

theorem expands_cofactorPos (hv : s.ranks v = s.rank F) (hlt : s.rank F < bddTermid) :
    s.Expands cfg ext v true F (s.heap.cofactorPos F) := by
  have haddr := hs.addr_ne_of_rank_lt hlt
  obtain rfl := hs.ranks_injective (hv.trans (hs.rank_eq hF.edge haddr))
  exact ⟨hF.cofactorPos hs, hv ▸ hs.rank_cofactorPos hF.edge haddr,
    fun _ => hs.valueOf_cofactorPos hF.edge haddr⟩

theorem expands_cofactorNeg (hv : s.ranks v = s.rank F) (hlt : s.rank F < bddTermid) :
    s.Expands cfg ext v false F (s.heap.cofactorNeg F) := by
  have haddr := hs.addr_ne_of_rank_lt hlt
  obtain rfl := hs.ranks_injective (hv.trans (hs.rank_eq hF.edge haddr))
  exact ⟨hF.cofactorNeg hs, hv ▸ hs.rank_cofactorNeg hF.edge haddr,
    fun _ => hs.valueOf_cofactorNeg hF.edge haddr⟩

theorem expands_expPos2 {r : ℕ} (hr : s.ranks v = r) (hle : r ≤ s.rank F) (hlt : r < bddTermid) :
    s.Expands cfg ext v true F (s.heap.expPos2 F r (s.rank F)) := by
  subst hr
  rcases hle.lt_or_eq with hv | hv
  · rw [Heap.expPos2, if_pos hv]
    exact hs.expands_of_lt hF hv _
  · have hterm := hs.termP_eq_false hF.edge (hs.addr_ne_of_rank_lt (hv ▸ hlt))
    have h := hs.expands_cofactorPos hF hv (hv ▸ hlt)
    rw [Heap.cofactorPos, hterm, if_neg (by simp)] at h
    rwa [Heap.expPos2, if_neg (by omega)]

theorem expands_expNeg2 {r : ℕ} (hr : s.ranks v = r) (hle : r ≤ s.rank F) (hlt : r < bddTermid) :
    s.Expands cfg ext v false F (s.heap.expNeg2 F r (s.rank F)) := by
  subst hr
  rcases hle.lt_or_eq with hv | hv
  · rw [Heap.expNeg2, if_pos hv]
    exact hs.expands_of_lt hF hv _
  · have hterm := hs.termP_eq_false hF.edge (hs.addr_ne_of_rank_lt (hv ▸ hlt))
    have h := hs.expands_cofactorNeg hF hv (hv ▸ hlt)
    rw [Heap.cofactorNeg, hterm, if_neg (by simp)] at h
    rwa [Heap.expNeg2, if_neg (by omega)]

omit hF in
theorem pos_spec (ht : t.All (s.Alive cfg ext)) (hF : t.F.neg = false) (hG : t.G.neg = false)
    (hv : s.ranks v = s.rank (s.top t)) (hlt : s.rank (s.top t) < bddTermid) :
    ((s.pos t).All fun F => s.Alive cfg ext F ∧ s.rank (s.top t) < s.rank F) ∧
      ∀ ρ, (s.pos t).value (valueOf cfg s.heap ρ) =
        t.value (valueOf cfg s.heap (Function.update ρ v true)) := by
  have hle := (s.top_spec t ht).2
  have h1 := hs.expands_expPos2 ht.1 hv hle.1 hlt
  have h2 := hs.expands_expPos2 ht.2.1 hv hle.2.1 hlt
  have h3 := hs.expands_expPos2 ht.2.2 hv hle.2.2 hlt
  have heq : s.pos t = ⟨s.heap.expPos2 t.F (s.rank (s.top t)) (s.rank t.F),
      s.heap.expPos2 t.G (s.rank (s.top t)) (s.rank t.G),
      s.heap.expPos2 t.H (s.rank (s.top t)) (s.rank t.H)⟩ := by
    rw [pos, Heap.expPos_eq hF, Heap.expPos_eq hG]
  rw [heq]
  refine ⟨⟨⟨h1.alive, hv ▸ h1.rank⟩, ⟨h2.alive, hv ▸ h2.rank⟩, h3.alive, hv ▸ h3.rank⟩, fun ρ => ?_⟩
  rw [Triple.value, Triple.value, h1.value, h2.value, h3.value]

omit hF in
theorem neg_spec (ht : t.All (s.Alive cfg ext)) (hF : t.F.neg = false) (hG : t.G.neg = false)
    (hv : s.ranks v = s.rank (s.top t)) (hlt : s.rank (s.top t) < bddTermid) :
    ((s.neg t).All fun F => s.Alive cfg ext F ∧ s.rank (s.top t) < s.rank F) ∧
      ∀ ρ, (s.neg t).value (valueOf cfg s.heap ρ) =
        t.value (valueOf cfg s.heap (Function.update ρ v false)) := by
  have hle := (s.top_spec t ht).2
  have h1 := hs.expands_expNeg2 ht.1 hv hle.1 hlt
  have h2 := hs.expands_expNeg2 ht.2.1 hv hle.2.1 hlt
  have h3 := hs.expands_expNeg2 ht.2.2 hv hle.2.2 hlt
  have heq : s.neg t = ⟨s.heap.expNeg2 t.F (s.rank (s.top t)) (s.rank t.F),
      s.heap.expNeg2 t.G (s.rank (s.top t)) (s.rank t.G),
      s.heap.expNeg2 t.H (s.rank (s.top t)) (s.rank t.H)⟩ := by
    rw [neg, Heap.expNeg_eq hF, Heap.expNeg_eq hG]
  rw [heq]
  refine ⟨⟨⟨h1.alive, hv ▸ h1.rank⟩, ⟨h2.alive, hv ▸ h2.rank⟩, h3.alive, hv ▸ h3.rank⟩, fun ρ => ?_⟩
  rw [Triple.value, Triple.value, h1.value, h2.value, h3.value]

end Shape

end Store

/-! ### `bdd_ite` -/

namespace Package

/-- The node for the top variable, after the results for its two values -/
def iteNew (cfg : Config) (rec : Package → Triple → Option (BddPtr × Package)) (t : Triple)
    (σ : Package) : Option (BddPtr × Package) :=
  if σ.heap.thenLink t.F = cfg.bdd1 ∧ σ.heap.elseLink t.F = cfg.bdd0 ∧
      σ.rank t.F < σ.rank t.G ∧ σ.rank t.F < σ.rank t.H then
    if t.F.inv then σ.createNode cfg (σ.heap.varid t.F) t.H t.G
    else σ.createNode cfg (σ.heap.varid t.F) t.G t.H
  else
    (rec σ (σ.pos t)).bind fun T => (rec T.2 (σ.neg t)).bind fun E =>
      E.2.makeNode cfg (σ.heap.varid (σ.top t)) T.1 E.1

/-- `bdd_ite_aux` -/
def iteAux (cfg : Config) : ℕ → Package → Triple → Option (BddPtr × Package)
  | 0, _, _ => none
  | n + 1, σ, t =>
    match t.terminal cfg with
    | some R => some (R, σ.incrRef R)
    | none =>
      let t' := t.standard cfg σ.isSmaller
      (σ.cached cfg (.edge t'.posG.F) t'.posG.G t'.posG.H (iteNew cfg (iteAux cfg n) t'.posG)).map
        fun q => (q.1.complIf t'.G.neg, q.2)

attribute [local simp] iteAux

/-- `bdd_ite`; no two variables have one rank. -/
def ite (cfg : Config) (σ : Package) (F G H : BddPtr) : Option (BddPtr × Package) :=
  σ.iteAux cfg (bddTermid + 1) ⟨F, G, H⟩

end Package

namespace Triple

theorem any_posG {P : BddPtr → Prop} (hP : ∀ F, P F → P F.compl) (h : t.posG.All P) : t.All P := by
  unfold posG at h
  split at h
  · rename_i hneg
    rw [BddPtr.oOff_of_neg hneg] at h
    exact ⟨h.1, compl_of_compl hP h.2.1, compl_of_compl hP h.2.2⟩
  · exact h

theorem value_congr {E E' : BddPtr → Bool} (h : t.All fun F => E F = E' F) :
    t.value E = t.value E' := by
  rw [value, value, h.1, h.2.1, h.2.2]

/-- A triple of constants has a result without recursion. -/
theorem exists_rank_lt (hs : s.Shape cfg) (hF : s.IsEdge cfg t.F) (h : t.terminal cfg = none)
    {lt : BddPtr → BddPtr → Bool} :
    ¬(t.standard cfg lt).posG.All fun F => bddTermid ≤ s.rank F := by
  intro hall
  have hle : bddTermid ≤ s.rank t.F := ((equiv_standard t).any _ (fun _ h => h)
    (any_posG (fun _ h => h) hall)).1
  have haddr : t.F.addr = cfg.addr1 := by
    by_contra haddr
    exact absurd (hs.rank_lt hF haddr) (Nat.not_lt.2 hle)
  unfold terminal at h
  rcases hF.eq_const haddr with h1 | h0
  · rw [if_neg (by rw [h1]; exact cfg.bdd1_ne_bdd0), if_pos h1] at h
    cases h
  · rw [if_pos h0] at h
    cases h

end Triple

/-- What `bdd_ite_aux` returns for a triple -/
def IteSpec (cfg : Config) (σ : Package) (ext : ℕ → ℤ) (t : Triple)
    (o : Option (BddPtr × Package)) : Prop :=
  ∃ q, o = some q ∧
    Returns cfg σ ext (fun r => ∀ ρ, r.eval ρ = t.value (valueOf cfg σ.heap ρ)) q

namespace Package.Inv

variable (hi : σ.Inv cfg ext)
include hi

theorem meets_iff (ht : t.All (σ.Alive cfg ext)) (r : Bdd) :
    (CacheKey.edge t.F).Meets cfg σ.heap t.G t.H r ↔
      ∀ ρ, r.eval ρ = t.value (valueOf cfg σ.heap ρ) := by
  obtain ⟨f, hf⟩ := hi.shape.exists_denotes ht.1.edge
  obtain ⟨g, hg⟩ := hi.shape.exists_denotes ht.2.1.edge
  obtain ⟨k, hk⟩ := hi.shape.exists_denotes ht.2.2.edge
  have hvalue : ∀ ρ, t.value (valueOf cfg σ.heap ρ) = if f.eval ρ then g.eval ρ else k.eval ρ :=
    fun ρ => by rw [Triple.value, hf.valueOf, hg.valueOf, hk.valueOf]
  constructor
  · rintro ⟨f', g', k', hf', hg', hk', heval⟩ ρ
    rw [heval, hvalue, hf.functional hf', hg.functional hg', hk.functional hk']
  · exact fun h => ⟨f, g, k, hf, hg, hk, fun ρ => (h ρ).trans (hvalue ρ)⟩

/-- A literal as first argument gives the node at once. -/
theorem iteLiteral (ht : t.All (σ.Alive cfg ext)) (hneg : t.F.neg = false)
    (hthen : σ.heap.thenLink t.F = cfg.bdd1) (helse : σ.heap.elseLink t.F = cfg.bdd0)
    (hG : σ.rank t.F < σ.rank t.G) (hH : σ.rank t.F < σ.rank t.H) :
    IteSpec cfg σ ext t (if t.F.inv then σ.createNode cfg (σ.heap.varid t.F) t.H t.G
      else σ.createNode cfg (σ.heap.varid t.F) t.G t.H) := by
  have hs := hi.shape
  have hlt : σ.rank t.F < bddTermid := hG.trans_le (hs.rank_le ht.2.1.edge)
  have haddr := hs.addr_ne_of_rank_lt hlt
  have hterm := hs.termP_eq_false ht.1.edge haddr
  have hv : σ.heap.varid t.F < bddTermid := (hs.varid_lt ht.1.edge haddr).trans_le hs.count_le
  have hranks := hs.ranks_varid ht.1.edge hlt
  obtain ⟨g, hg⟩ := hs.exists_denotes ht.2.1.edge
  obtain ⟨k, hk⟩ := hs.exists_denotes ht.2.2.edge
  have hpos : ∀ ρ, ρ (σ.heap.varid t.F) = true →
      valueOf cfg σ.heap ρ t.F = !t.F.inv := by
    intro ρ hρ
    have h := hs.valueOf_cofactorPos (ρ := ρ) ht.1.edge haddr
    rw [← hρ, Function.update_eq_self, Heap.cofactorPos_eq hterm, hneg, BddPtr.complIf_false] at h
    rw [← h, hthen, helse]
    cases t.F.inv with
    | false => exact valueOf_bdd1 _ _ _
    | true =>
      rw [if_pos rfl, ← Config.compl_bdd1, valueOf_compl, valueOf_bdd1]
  have hneg' : ∀ ρ, ρ (σ.heap.varid t.F) = false →
      valueOf cfg σ.heap ρ t.F = t.F.inv := by
    intro ρ hρ
    have h := hs.valueOf_cofactorNeg (ρ := ρ) ht.1.edge haddr
    rw [← hρ, Function.update_eq_self, Heap.cofactorNeg_eq hterm, hneg, BddPtr.complIf_false] at h
    rw [← h, hthen, helse]
    cases t.F.inv with
    | false =>
      rw [if_neg (by simp), ← Config.compl_bdd1, valueOf_compl, valueOf_bdd1]
      rfl
    | true => exact valueOf_bdd1 _ _ _
  have hvalue : ∀ ρ, t.value (valueOf cfg σ.heap ρ) =
      if (ρ (σ.heap.varid t.F) ^^ t.F.inv) = true then g.eval ρ else k.eval ρ := by
    intro ρ
    rw [Triple.value, hg.valueOf, hk.valueOf]
    cases hρ : ρ (σ.heap.varid t.F) with
    | true => rw [hpos ρ hρ, Bool.true_xor]
    | false => rw [hneg' ρ hρ, Bool.false_xor]
  cases hinv : t.F.inv with
  | false =>
    obtain ⟨q, hcreate, hq⟩ := hi.createNode ht.2.1 ht.2.2 hv (by rwa [hranks]) (by rwa [hranks]) hg hk
    refine ⟨q, by rw [if_neg (by simp), hcreate], hq.imp ?_⟩
    rintro r rfl ρ
    rw [hvalue, hinv, Bdd.eval_mk, Bool.xor_false]
  | true =>
    obtain ⟨q, hcreate, hq⟩ := hi.createNode ht.2.2 ht.2.1 hv (by rwa [hranks]) (by rwa [hranks]) hk hg
    refine ⟨q, by rw [if_pos rfl, hcreate], hq.imp ?_⟩
    rintro r rfl ρ
    rw [hvalue, hinv, Bdd.eval_mk]
    cases ρ (σ.heap.varid t.F) <;> rfl

/-- One step: where the results for the cofactors are right, so is that for the triple. -/
theorem iteNew {I : Package → Triple → Option (BddPtr × Package)}
    (hrec : ∀ {σ' : Package} {ext' : ℕ → ℤ} {t' : Triple}, σ'.Inv cfg ext' →
      t'.All (fun F => σ'.Alive cfg ext' F ∧ σ.rank (σ.top t) < σ'.rank F) →
      IteSpec cfg σ' ext' t' (I σ' t'))
    (ht : t.All (σ.Alive cfg ext)) (hF : t.F.neg = false) (hG : t.G.neg = false)
    (htop : ¬t.All fun F => bddTermid ≤ σ.rank F) :
    IteSpec cfg σ ext t (Package.iteNew cfg I t σ) := by
  have hs := hi.shape
  unfold Package.iteNew
  split
  · rename_i h
    exact hi.iteLiteral ht hF h.1 h.2.1 h.2.2.1 h.2.2.2
  · obtain ⟨halive, hle⟩ := σ.top_spec t ht
    have hlt : σ.rank (σ.top t) < bddTermid := by
      by_contra hge
      have hge := Nat.not_lt.1 hge
      exact htop ⟨hge.trans hle.1, hge.trans hle.2.1, hge.trans hle.2.2⟩
    have hranks := hs.ranks_varid halive.edge hlt
    have haddr := hs.addr_ne_of_rank_lt hlt
    have hv : σ.heap.varid (σ.top t) < bddTermid :=
      (hs.varid_lt halive.edge haddr).trans_le hs.count_le
    obtain ⟨hpall, hpvalue⟩ := hs.pos_spec ht hF hG hranks hlt
    obtain ⟨hnall, hnvalue⟩ := hs.neg_spec ht hF hG hranks hlt
    -- the function of a triple does not depend on the variables before its edges
    have hindep : ∀ t' : Triple, (t'.All fun F => σ.Alive cfg ext F ∧ σ.rank (σ.top t) < σ.rank F) →
        ∀ w, σ.ranks w < σ.rank (σ.top t) + 1 → ∀ ρ b,
          t'.value (valueOf cfg σ.heap (Function.update ρ w b)) =
            t'.value (valueOf cfg σ.heap ρ) := fun t' ht' w hw ρ b =>
      Triple.value_congr
        ⟨hs.valueOf_update ht'.1.1.edge (by have := ht'.1.2; omega) b,
          hs.valueOf_update ht'.2.1.1.edge (by have := ht'.2.1.2; omega) b,
          hs.valueOf_update ht'.2.2.1.edge (by have := ht'.2.2.2; omega) b⟩
    obtain ⟨T, hT, hTspec⟩ := hrec hi hpall
    have hTrank : σ.rank (σ.top t) + 1 ≤ T.2.rank T.1 := hTspec.le_rank hlt fun r hr w hw ρ b => by
      rw [hr, hr, hindep _ hpall w hw]
    have hkeep : ∀ F, σ.Alive cfg ext F ∧ σ.rank (σ.top t) < σ.rank F →
        T.2.Alive cfg (ext + refTo T.1.addr) F ∧ σ.rank (σ.top t) < T.2.rank F := fun F h =>
      ⟨(hTspec.alive_of_alive h.1).mono (le_add_refTo ext _), by rw [hTspec.keeps.rank h.1]; exact h.2⟩
    obtain ⟨E, hE, hEspec⟩ := hrec hTspec.inv
      (show (σ.neg t).All _ from ⟨hkeep _ hnall.1, hkeep _ hnall.2.1, hkeep _ hnall.2.2⟩)
    have hEvalue : ∀ ρ, (σ.neg t).value (valueOf cfg T.2.heap ρ) =
        (σ.neg t).value (valueOf cfg σ.heap ρ) := fun ρ =>
      Triple.value_congr ⟨hTspec.keeps.valueOf hs hnall.1.1, hTspec.keeps.valueOf hs hnall.2.1.1,
        hTspec.keeps.valueOf hs hnall.2.2.1⟩
    have hErank : σ.rank (σ.top t) + 1 ≤ E.2.rank E.1 := hEspec.le_rank hlt fun r hr w hw ρ b => by
      rw [hr, hr, hEvalue, hEvalue, hindep _ hnall w (by rwa [← hTspec.keeps.ranks])]
    obtain ⟨q, hmake, hq⟩ := hTspec.makeNode hi.nonneg hEspec hv (by rw [hranks]; exact hTrank)
      (by rw [hranks]; exact hErank)
    refine ⟨q, by rw [hT, Option.bind_some, hE, Option.bind_some, hmake], hq.imp ?_⟩
    rintro r ⟨p, m, hpeval, hmeval, rfl⟩ ρ
    rw [Bdd.eval_mk, hpeval, hmeval, hEvalue, hpvalue, hnvalue]
    cases hρ : ρ (σ.heap.varid (σ.top t)) with
    | true => rw [if_pos rfl, ← hρ, Function.update_eq_self]
    | false => rw [if_neg (by simp), ← hρ, Function.update_eq_self]

/-- `bdd_ite_aux` needs as many steps as there are ranks after those of its arguments. -/
theorem iteAux (ht : t.All fun F => σ.Alive cfg ext F ∧ k ≤ σ.rank F) (hn : bddTermid < n + k) :
    IteSpec cfg σ ext t (σ.iteAux cfg n t) := by
  induction n generalizing σ ext t k with
  | zero =>
    have := hi.shape.rank_le ht.1.1.edge
    have := ht.1.2
    omega
  | succ n ih =>
    have hs := hi.shape
    rw [Package.iteAux]
    cases hterm : t.terminal cfg with
    | some R =>
      have hR := Triple.all_terminal (fun F (h : σ.Alive cfg ext F) => h.compl) Store.alive_bdd1
        Store.alive_bdd0 ⟨ht.1.1, ht.2.1.1, ht.2.2.1⟩ hterm
      obtain ⟨r, hr⟩ := hs.exists_denotes hR.edge
      refine ⟨_, rfl, hi.returns hR hr fun ρ => ?_⟩
      rw [← hr.valueOf, Triple.value_terminal (valueOf_compl _ _ _) (valueOf_bdd1 _ _ _) hterm]
    | none =>
      dsimp only
      set t' := t.standard cfg σ.isSmaller with ht'
      have hP : ∀ F, σ.Alive cfg ext F ∧ k ≤ σ.rank F → σ.Alive cfg ext F.compl ∧ k ≤ σ.rank F.compl :=
        fun F h => ⟨h.1.compl, h.2⟩
      have hk : k ≤ bddTermid := ht.1.2.trans (hs.rank_le ht.1.1.edge)
      have hconst : ∀ F : BddPtr, F.addr = cfg.addr1 → k ≤ σ.rank F := fun F h => by
        rw [hs.rank_const h]
        exact hk
      have hall := Triple.all_posG hP ((@Triple.equiv_standard cfg σ.isSmaller t).all _ hP
        (Triple.all_introduce ⟨Store.alive_bdd1, hconst _ rfl⟩ ⟨Store.alive_bdd0, hconst _ rfl⟩ ht))
      rw [← ht'] at hall
      have halive : t'.posG.All (σ.Alive cfg ext) := ⟨hall.1.1, hall.2.1.1, hall.2.2.1⟩
      have hpos : t'.posG.F.neg = false := by
        have h : t'.posG.F = t'.F := by
          unfold Triple.posG
          split <;> rfl
        rw [h]
        exact Triple.neg_standard t
      have hle : k ≤ σ.rank (σ.top t'.posG) := (σ.top_spec _ hall).1.2
      have hnew := hi.iteNew (I := Package.iteAux cfg n) (fun hi' ht'' =>
        ih hi' (k := σ.rank (σ.top t'.posG) + 1)
          ⟨⟨ht''.1.1, ht''.1.2⟩, ⟨ht''.2.1.1, ht''.2.1.2⟩, ht''.2.2.1, ht''.2.2.2⟩ (by omega))
        halive hpos t'.neg_posG (Triple.exists_rank_lt hs ht.1.1.edge hterm)
      obtain ⟨q, hq, hspec⟩ := hi.cached (K := .edge t'.posG.F)
        (fun F hF => by cases hF; exact halive.1) halive.2.1 halive.2.2
        (C := Package.iteNew cfg (Package.iteAux cfg n) t'.posG) (by
          obtain ⟨q, hq, hspec⟩ := hnew
          exact ⟨q, hq, hspec.imp fun r => (hi.meets_iff halive r).2⟩)
      refine ⟨_, by rw [hq, Option.map_some], hspec.complIf _ fun r hr ρ => ?_⟩
      have hr := (hi.meets_iff halive r).1 hr ρ
      have hvalue := Triple.value_posG (valueOf_compl cfg σ.heap ρ) t'
      rw [ht', (Triple.equiv_standard t).value _ (valueOf_compl _ _ _) (valueOf_bdd1 _ _ _),
        Triple.value_introduce (valueOf_compl _ _ _) (valueOf_bdd1 _ _ _), ← ht', ← hr] at hvalue
      rw [← hvalue]
      cases t'.G.neg with
      | false => simp
      | true => simp

/-- `bdd_ite` of live edges returns the edge to the function of its arguments. -/
theorem ite (hF : σ.Alive cfg ext F) (hG : σ.Alive cfg ext G) (hH : σ.Alive cfg ext H) :
    ∃ q, σ.ite cfg F G H = some q ∧ Returns cfg σ ext (fun r => ∀ ρ, r.eval ρ =
      if valueOf cfg σ.heap ρ F then valueOf cfg σ.heap ρ G else valueOf cfg σ.heap ρ H) q :=
  hi.iteAux (t := ⟨F, G, H⟩) (k := 0) ⟨⟨hF, Nat.zero_le _⟩, ⟨hG, Nat.zero_le _⟩, hH, Nat.zero_le _⟩
    (by omega)

end Package.Inv

end PVS.BddPackage
