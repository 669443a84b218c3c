import Mathlib
import PVS.BddPackage.Counts
import PVS.Library.NearestPoint

/-! The invariant of the package, and what an operation leaves as it was. -/

namespace PVS.BddPackage

open Library

variable {cfg : Config} {s s' s'' : Store} {c c' : Counters} {σ σ' : Package} {ext ext' : ℕ → ℤ}
  {F G H : BddPtr} {f g : Bdd} {a : ℕ}

theorem refTo_nonneg (a b : ℕ) : 0 ≤ refTo a b := by
  unfold refTo
  split <;> decide

theorem le_add_refTo (ext : ℕ → ℤ) (a : ℕ) : ∀ b, ext b ≤ (ext + refTo a) b :=
  fun b => le_add_of_nonneg_right (refTo_nonneg a b)

theorem add_refTo_nonneg (hext : ∀ b, 0 ≤ ext b) (a : ℕ) : ∀ b, 0 ≤ (ext + refTo a) b :=
  fun b => (hext b).trans (le_add_refTo ext a b)

namespace Store

/-! ### Live edges -/

/-- An edge that is held outside, or below one that is. -/
structure Alive (cfg : Config) (s : Store) (ext : ℕ → ℤ) (F : BddPtr) : Prop where
  edge : s.IsEdge cfg F
  reach : F.addr = cfg.addr1 ∨ s.Reach cfg ext F.addr

theorem Reach.mono (hle : ∀ b, ext b ≤ ext' b) (ha : s.Reach cfg ext a) : s.Reach cfg ext' a := by
  induction ha with
  | root hpos => exact .root (hpos.trans_le (hle _))
  | thenLink _ h1 ih => exact .thenLink ih h1
  | elseLink _ h1 ih => exact .elseLink ih h1

theorem Alive.mono (hle : ∀ b, ext b ≤ ext' b) (hF : s.Alive cfg ext F) : s.Alive cfg ext' F :=
  ⟨hF.edge, hF.reach.imp_right fun h => h.mono hle⟩

theorem Alive.compl (hF : s.Alive cfg ext F) : s.Alive cfg ext F.compl :=
  ⟨isEdge_compl hF.edge, hF.reach⟩

theorem alive_bdd1 : s.Alive cfg ext cfg.bdd1 := ⟨isEdge_bdd1, .inl rfl⟩

theorem alive_bdd0 : s.Alive cfg ext cfg.bdd0 := ⟨isEdge_bdd0, .inl rfl⟩

theorem Alive.cofactorPos (hs : s.Shape cfg) (hF : s.Alive cfg ext F) :
    s.Alive cfg ext (s.heap.cofactorPos F) := by
  refine ⟨hs.isEdge_cofactorPos hF.edge, ?_⟩
  by_cases haddr : F.addr = cfg.addr1
  · rw [Heap.cofactorPos, if_pos ((hs.termP_iff hF.edge).2 haddr)]
    exact .inl haddr
  · have hreach := hF.reach.resolve_left haddr
    rw [Heap.cofactorPos_eq (hs.termP_eq_false hF.edge haddr)]
    cases F.inv with
    | false => exact .inr (hreach.thenLink haddr)
    | true => exact .inr (hreach.elseLink haddr)

theorem Alive.cofactorNeg (hs : s.Shape cfg) (hF : s.Alive cfg ext F) :
    s.Alive cfg ext (s.heap.cofactorNeg F) := by
  refine ⟨hs.isEdge_cofactorNeg hF.edge, ?_⟩
  by_cases haddr : F.addr = cfg.addr1
  · rw [Heap.cofactorNeg, if_pos ((hs.termP_iff hF.edge).2 haddr)]
    exact .inl haddr
  · have hreach := hF.reach.resolve_left haddr
    rw [Heap.cofactorNeg_eq (hs.termP_eq_false hF.edge haddr)]
    cases F.inv with
    | false => exact .inr (hreach.elseLink haddr)
    | true => exact .inr (hreach.thenLink haddr)

/-! ### What is left as it was -/

/-- The variables keep their ranks, and what is reached from outside its nodes. -/
structure Keeps (cfg : Config) (ext : ℕ → ℤ) (s s' : Store) : Prop where
  ranks : s'.ranks = s.ranks
  heap : ∀ a, a = cfg.addr1 ∨ s.Reach cfg ext a → s'.heap a = s.heap a

theorem Keeps.refl (s : Store) : s.Keeps cfg ext s := ⟨rfl, fun _ _ => rfl⟩

theorem Keeps.reach (hk : s.Keeps cfg ext s') (ha : s.Reach cfg ext a) : s'.Reach cfg ext a := by
  induction ha with
  | root hpos => exact .root hpos
  | @thenLink a ha h1 ih =>
    rw [← hk.heap a (.inr ha)]
    exact ih.thenLink h1
  | @elseLink a ha h1 ih =>
    rw [← hk.heap a (.inr ha)]
    exact ih.elseLink h1

theorem Keeps.trans (h : s.Keeps cfg ext s') (h' : s'.Keeps cfg ext s'') : s.Keeps cfg ext s'' where
  ranks := h'.ranks.trans h.ranks
  heap a ha := (h'.heap a (ha.imp_right h.reach)).trans (h.heap a ha)

theorem Keeps.mono (hle : ∀ b, ext b ≤ ext' b) (h : s.Keeps cfg ext' s') : s.Keeps cfg ext s' :=
  ⟨h.ranks, fun a ha => h.heap a (ha.imp_right fun hr => hr.mono hle)⟩

theorem Keeps.denotes (hk : s.Keeps cfg ext s') (hF : s.Alive cfg ext F)
    (hf : Denotes cfg s.heap F f) : Denotes cfg s'.heap F f :=
  hf.congr (S := {a | s.Reach cfg ext a}) hF.reach
    (fun _ ha h1 => ⟨.inr (ha.thenLink h1), .inr (ha.elseLink h1)⟩)
    fun a ha _ => hk.heap a (.inr ha)

theorem Keeps.rank (hk : s.Keeps cfg ext s') (hF : s.Alive cfg ext F) : s'.rank F = s.rank F := by
  rw [Store.rank, Store.rank, varRank, varRank, hk.ranks, Heap.varid, Heap.varid,
    hk.heap _ hF.reach]

theorem Keeps.alive (hk : s.Keeps cfg ext s') (hs' : s'.Shape cfg) (hc' : s'.Counted cfg c' ext')
    (hext' : ∀ b, 0 ≤ ext' b) (hle : ∀ b, ext b ≤ ext' b) (hF : s.Alive cfg ext F) :
    s'.Alive cfg ext F := by
  have hreach : F.addr = cfg.addr1 ∨ s'.Reach cfg ext F.addr := hF.reach.imp_right hk.reach
  refine ⟨⟨hF.edge.const, fun haddr => ?_, fun hinv => ?_⟩, hreach⟩
  · have hmem := (((hreach.resolve_left haddr).mono hle).alive hs' hc' hext').1
    exact (List.mem_cons.1 hmem).resolve_left haddr
  · rw [Heap.elseLink, hk.heap _ hF.reach]
    exact hF.edge.inv hinv

end Store

/-! ### The computed table -/

/-- What the functions that use the computed table return for `f` and `c`. -/
def CacheFn.Meets : CacheFn → Bdd → Bdd → Bdd → Prop
  | .bddConstrain, f, c, r => ∀ ρ, r.eval ρ = f.eval (c.nearest ρ)
  | .bddRestrict, f, c, r => (∀ ρ, ∃ y, c.IsChoice ρ y ∧ r.eval ρ = f.eval y) ∧ r.vars ⊆ f.vars

def CacheKey.Meets (cfg : Config) (h : Heap) : CacheKey → BddPtr → BddPtr → Bdd → Prop
  | .edge F, G, H, r => ∃ f g k, Denotes cfg h F f ∧ Denotes cfg h G g ∧ Denotes cfg h H k ∧
      ∀ ρ, r.eval ρ = if f.eval ρ then g.eval ρ else k.eval ρ
  | .func fn, G, H, r => ∃ f c, Denotes cfg h G f ∧ Denotes cfg h H c ∧ fn.Meets f c r

/-- An entry has a result of its arguments; all of them are in the unique table. -/
structure EntryOk (cfg : Config) (s : Store) (e : ComputedTableEntry) : Prop where
  edgeF : ∀ F, e.F = .edge F → s.IsEdge cfg F
  edgeG : s.IsEdge cfg e.G
  edgeH : s.IsEdge cfg e.H
  edgeR : s.IsEdge cfg e.R
  value : ∃ r, Denotes cfg s.heap e.R r ∧ e.F.Meets cfg s.heap e.G e.H r

/-- `ext` counts the references that are held outside. -/
structure Package.Inv (cfg : Config) (σ : Package) (ext : ℕ → ℤ) : Prop where
  shape : σ.Shape cfg
  counted : σ.Counted cfg σ.toCounters ext
  nonneg : ∀ a, 0 ≤ ext a
  cache : ∀ i e, σ.computedTable.entries i = some e → EntryOk cfg σ.toStore e

/-- The operation returned a protected edge to a diagram with `P`. -/
structure Returns (cfg : Config) (σ : Package) (ext : ℕ → ℤ) (P : Bdd → Prop)
    (q : BddPtr × Package) : Prop where
  inv : q.2.Inv cfg (ext + refTo q.1.addr)
  keeps : σ.Keeps cfg ext q.2.toStore
  edge : q.2.IsEdge cfg q.1
  value : ∃ r, Denotes cfg q.2.heap q.1 r ∧ P r

/-! ### More edges -/

theorem Store.IsEdge.mono (hF : s.IsEdge cfg F)
    (h : ∀ a ∈ s.nodes, a ∈ s'.nodes ∧ s'.heap a = s.heap a) : s'.IsEdge cfg F where
  const := hF.const
  mem haddr := (h _ (hF.mem haddr)).1
  inv hinv := by
    have haddr : F.addr ≠ cfg.addr1 := fun haddr => by
      rw [hF.const haddr] at hinv
      cases hinv
    rw [Heap.elseLink, (h _ (hF.mem haddr)).2]
    exact hF.inv hinv

theorem Store.Shape.denotes_mono (hs : s.Shape cfg) (hF : s.IsEdge cfg F)
    (hf : Denotes cfg s.heap F f) (h : ∀ a ∈ s.nodes, s'.heap a = s.heap a) :
    Denotes cfg s'.heap F f := by
  have htarget : ∀ G : BddPtr, s.IsEdge cfg G → G.addr = cfg.addr1 ∨ G.addr ∈ s.nodes :=
    fun G hG => or_iff_not_imp_left.2 hG.mem
  exact hf.congr (S := {a | a ∈ s.nodes}) (htarget F hF)
    (fun a ha _ => ⟨htarget _ (hs.node a ha).thenEdge, htarget _ (hs.node a ha).elseEdge⟩)
    fun a ha _ => h a ha

/-- An entry stays valid where nodes are added. -/
theorem EntryOk.mono (hs : s.Shape cfg) {e : ComputedTableEntry} (he : EntryOk cfg s e)
    (h : ∀ a ∈ s.nodes, a ∈ s'.nodes ∧ s'.heap a = s.heap a) : EntryOk cfg s' e where
  edgeF F hF := (he.edgeF F hF).mono h
  edgeG := he.edgeG.mono h
  edgeH := he.edgeH.mono h
  edgeR := he.edgeR.mono h
  value := by
    have hheap : ∀ a ∈ s.nodes, s'.heap a = s.heap a := fun a ha => (h a ha).2
    obtain ⟨r, hr, hmeets⟩ := he.value
    refine ⟨r, hs.denotes_mono he.edgeR hr hheap, ?_⟩
    cases hkey : e.F with
    | edge F =>
      rw [hkey] at hmeets
      obtain ⟨f, g, k, hf, hg, hk, heval⟩ := hmeets
      exact ⟨f, g, k, hs.denotes_mono (he.edgeF F hkey) hf hheap,
        hs.denotes_mono he.edgeG hg hheap, hs.denotes_mono he.edgeH hk hheap, heval⟩
    | func fn =>
      rw [hkey] at hmeets
      obtain ⟨f, k, hf, hk, hfn⟩ := hmeets
      exact ⟨f, k, hs.denotes_mono he.edgeG hf hheap, hs.denotes_mono he.edgeH hk hheap, hfn⟩

/-! ### Taking and giving back references -/

namespace Package

/-- `BDD_INCR_REF` -/
def incrRef (σ : Package) (F : BddPtr) : Package :=
  { σ with toCounters := σ.toCounters.incrRef F }

/-- `bdd_free`; no chain of links is longer than there are ranks. -/
def bddFree (σ : Package) (F : BddPtr) : Option Package :=
  (Counters.bddFree σ.heap (bddTermid + 1) σ.toCounters F).map fun c => { σ with toCounters := c }

namespace Inv

variable (hi : σ.Inv cfg ext)
include hi

theorem alive_keeps {ext' : ℕ → ℤ} (hle : ∀ b, ext' b ≤ ext b) (hk : s.Keeps cfg ext' σ.toStore)
    (hF : s.Alive cfg ext' F) : σ.Alive cfg ext' F :=
  hk.alive hi.shape hi.counted hi.nonneg hle hF

theorem refcounts_ne_zero (hF : σ.Alive cfg ext F) :
    F.addr = cfg.addr1 ∨ σ.refcounts F.addr ≠ 0 :=
  hF.reach.imp_right fun h => (h.alive hi.shape hi.counted hi.nonneg).2

theorem incrRef (hF : σ.Alive cfg ext F) : (σ.incrRef F).Inv cfg (ext + refTo F.addr) where
  shape := hi.shape
  counted := hi.counted.incrRef hi.shape hF.edge (hi.refcounts_ne_zero hF)
  nonneg := add_refTo_nonneg hi.nonneg _
  cache := hi.cache

theorem bddFree {e : ℕ → ℤ} (hext : ext = e + refTo F.addr) (he : ∀ a, 0 ≤ e a)
    (hF : σ.IsEdge cfg F) :
    ∃ σ', σ.bddFree F = some σ' ∧ σ'.Inv cfg e ∧ σ'.toStore = σ.toStore := by
  subst hext
  obtain ⟨c, hfree, hc⟩ := hi.counted.bddFree hi.shape hF he (n := bddTermid + 1) (by omega)
  refine ⟨{ σ with toCounters := c }, ?_, ⟨hi.shape, hc, he, hi.cache⟩, rfl⟩
  rw [Package.bddFree, hfree]
  rfl

end Inv

end Package

/-- An edge that lives is returned with a reference. -/
theorem Package.Inv.returns (hi : σ.Inv cfg ext) (hF : σ.Alive cfg ext F) {P : Bdd → Prop}
    (hf : Denotes cfg σ.heap F f) (hP : P f) : Returns cfg σ ext P (F, σ.incrRef F) :=
  ⟨hi.incrRef hF, .refl _, hF.edge, f, hf, hP⟩

theorem Returns.intro {P : Bdd → Prop} (hinv : σ'.Inv cfg (ext + refTo F.addr))
    (hk : σ.Keeps cfg ext σ'.toStore) (hF : σ'.IsEdge cfg F)
    (hf : ∃ r, Denotes cfg σ'.heap F r ∧ P r) : Returns cfg σ ext P (F, σ') := ⟨hinv, hk, hF, hf⟩

namespace Returns

variable {P Q : Bdd → Prop} {q : BddPtr × Package} (hq : Returns cfg σ ext P q)
include hq

theorem imp (h : ∀ r, P r → Q r) : Returns cfg σ ext Q q :=
  ⟨hq.inv, hq.keeps, hq.edge, hq.value.imp fun r hr => hr.imp_right (h r)⟩

theorem alive (hext : ∀ b, 0 ≤ ext b) : q.2.Alive cfg (ext + refTo q.1.addr) q.1 := by
  refine ⟨hq.edge, .inr (.root ?_)⟩
  have h := hext q.1.addr
  simp only [Pi.add_apply, refTo, if_true]
  omega

/-- What was alive before the operation still is. -/
theorem alive_of_alive (hF : σ.Alive cfg ext F) : q.2.Alive cfg ext F :=
  hq.inv.alive_keeps (le_add_refTo ext _) hq.keeps hF

theorem of_keeps {σ₀ : Package} (hk : σ₀.Keeps cfg ext σ.toStore) : Returns cfg σ₀ ext P q :=
  ⟨hq.inv, hk.trans hq.keeps, hq.edge, hq.value⟩

end Returns

end PVS.BddPackage
