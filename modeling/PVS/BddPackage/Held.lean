import Mathlib
import PVS.BddPackage.Client

/-! Rules for functions that take edges from the package, hold them for a while and free them. -/

namespace PVS.BddPackage

open Library

variable {cfg : Config} {σ₀ σ : Package} {ext : ℕ → ℤ} {own rest : List (BddPtr × Bdd)}
  {F G H : BddPtr} {f g k r : Bdd} {a v : ℕ}

/-! ### The references of a list of edges -/

/-- The references that are held -/
def refs (own : List BddPtr) : ℕ → ℤ := (own.map fun F => refTo F.addr).sum

@[simp]
theorem refs_nil : refs [] = 0 := rfl

@[simp]
theorem refs_cons (F : BddPtr) (own : List BddPtr) : refs (F :: own) = refTo F.addr + refs own :=
  List.sum_cons

theorem refs_perm {l l' : List BddPtr} (h : l.Perm l') : refs l = refs l' := (h.map _).sum_eq

theorem refs_nonneg (own : List BddPtr) (a : ℕ) : 0 ≤ refs own a := by
  induction own with
  | nil => exact le_rfl
  | cons F own ih =>
    have := refTo_nonneg F.addr a
    rw [refs_cons, Pi.add_apply]
    omega

theorem refs_pos {own : List BddPtr} (hF : F ∈ own) : 0 < refs own F.addr := by
  induction own with
  | nil => cases hF
  | cons G own ih =>
    have := refTo_nonneg G.addr F.addr
    have := refs_nonneg own F.addr
    rw [refs_cons, Pi.add_apply]
    rcases List.mem_cons.1 hF with rfl | hF
    · have hone : refTo F.addr F.addr = 1 := if_pos rfl
      omega
    · have := ih hF
      omega

theorem le_add_refs (ext : ℕ → ℤ) (own : List BddPtr) (a : ℕ) : ext a ≤ (ext + refs own) a :=
  le_add_of_nonneg_right (refs_nonneg own a)

/-! ### What a function holds -/

/-- From `σ₀` on the function came to hold the edges of `own` to the diagrams given with them. -/
structure Holds (cfg : Config) (σ₀ : Package) (ext : ℕ → ℤ) (own : List (BddPtr × Bdd))
    (σ : Package) : Prop where
  nonneg : ∀ a, 0 ≤ ext a
  inv : σ.Inv cfg (ext + refs (own.map Prod.fst))
  keeps : σ₀.Keeps cfg ext σ.toStore
  stands : ∀ e ∈ own, σ.IsEdge cfg e.1 ∧ Denotes cfg σ.heap e.1 e.2

/-- An edge that lives, to the diagram `f` -/
structure Stands (cfg : Config) (σ : Package) (ext : ℕ → ℤ) (F : BddPtr) (f : Bdd) : Prop where
  alive : σ.Alive cfg ext F
  denotes : Denotes cfg σ.heap F f

namespace Stands

theorem compl (h : Stands cfg σ ext F f) : Stands cfg σ ext F.compl f.compl :=
  ⟨h.alive.compl, h.denotes.compl⟩

theorem bdd1 : Stands cfg σ ext cfg.bdd1 .one := ⟨Store.alive_bdd1, .one⟩

theorem bdd0 : Stands cfg σ ext cfg.bdd0 .zero := ⟨Store.alive_bdd0, .zero⟩

theorem mono {ext' : ℕ → ℤ} (h : Stands cfg σ ext F f) (hle : ∀ b, ext b ≤ ext' b) :
    Stands cfg σ ext' F f := ⟨h.alive.mono hle, h.denotes⟩

theorem incrRef {own : List BddPtr} (h : Stands cfg σ (ext + refs own) F f) (G : BddPtr) :
    Stands cfg (σ.incrRef G) (ext + refs (G :: own)) F f := by
  refine ⟨h.alive.mono fun b => ?_, h.denotes⟩
  have := refTo_nonneg G.addr b
  rw [refs_cons]
  simp only [Pi.add_apply]
  omega

theorem isReduced (hs : σ.Shape cfg) (h : Stands cfg σ ext F f) :
    Bdd.IsReduced σ.ranks (σ.rank F) f := hs.isReduced h.alive.edge h.denotes

end Stands

namespace Holds

theorem start (hi : σ.Inv cfg ext) : Holds cfg σ ext [] σ where
  nonneg := hi.nonneg
  inv := by
    rw [List.map_nil, refs_nil, add_zero]
    exact hi
  keeps := .refl _
  stands := fun _ h => absurd h List.not_mem_nil

variable (h : Holds cfg σ₀ ext own σ)
include h

theorem ranks : σ.ranks = σ₀.ranks := h.keeps.ranks

theorem mem {e : BddPtr × Bdd} (he : e ∈ own) :
    Stands cfg σ (ext + refs (own.map Prod.fst)) e.1 e.2 := by
  refine ⟨⟨(h.stands e he).1, .inr (.root ?_)⟩, (h.stands e he).2⟩
  have := h.nonneg e.1.addr
  have := refs_pos (List.mem_map_of_mem (f := Prod.fst) he)
  rw [Pi.add_apply]
  omega

/-- What lived from the beginning still does. -/
theorem base (hF : Stands cfg σ₀ ext F f) : Stands cfg σ (ext + refs (own.map Prod.fst)) F f :=
  ⟨(h.inv.alive_keeps (le_add_refs ext _) h.keeps hF.alive).mono (le_add_refs ext _), h.keeps.denotes hF.alive hF.denotes⟩

theorem base_rank (hF : Stands cfg σ₀ ext F f) : σ.rank F = σ₀.rank F := h.keeps.rank hF.alive

theorem perm (hperm : own.Perm rest) : Holds cfg σ₀ ext rest σ where
  nonneg := h.nonneg
  inv := by
    rw [← refs_perm (hperm.map Prod.fst)]
    exact h.inv
  keeps := h.keeps
  stands e he := h.stands e (hperm.mem_iff.2 he)

/-- An edge that was returned is held. -/
theorem push {P : Bdd → Prop} {q : BddPtr × Package}
    (hq : Returns cfg σ (ext + refs (own.map Prod.fst)) P q) :
    ∃ r, P r ∧ Holds cfg σ₀ ext ((q.1, r) :: own) q.2 := by
  obtain ⟨r, hr, hP⟩ := hq.value
  refine ⟨r, hP, h.nonneg, ?_, h.keeps.trans (hq.keeps.mono (le_add_refs ext _)), ?_⟩
  · rw [List.map_cons, refs_cons]
    have hinv := hq.inv
    rwa [add_assoc, add_comm (refs _)] at hinv
  · intro e he
    rcases List.mem_cons.1 he with rfl | he
    · exact ⟨hq.edge, hr⟩
    · have he' := h.mem he
      exact ⟨(hq.alive_of_alive he'.alive).edge, hq.keeps.denotes he'.alive he'.denotes⟩

theorem call {P : Bdd → Prop} {o : Option (BddPtr × Package)}
    (ho : ∃ q, o = some q ∧ Returns cfg σ (ext + refs (own.map Prod.fst)) P q) :
    ∃ q r, o = some q ∧ P r ∧ Holds cfg σ₀ ext ((q.1, r) :: own) q.2 := by
  obtain ⟨q, hq, hspec⟩ := ho
  obtain ⟨r, hr, h'⟩ := h.push hspec
  exact ⟨q, r, hq, hr, h'⟩

theorem free (hperm : own.Perm ((F, f) :: rest)) :
    ∃ σ', σ.bddFree F = some σ' ∧ Holds cfg σ₀ ext rest σ' := by
  have h' := h.perm hperm
  have hinv := h'.inv
  rw [List.map_cons, refs_cons, add_comm (refTo _), ← add_assoc] at hinv
  obtain ⟨σ', hfree, hi, hstore⟩ := hinv.bddFree (F := F) rfl
    (fun a => add_nonneg (h.nonneg a) (refs_nonneg _ a)) (h'.stands _ List.mem_cons_self).1
  refine ⟨σ', hfree, h.nonneg, hi, ?_, fun e he => ?_⟩
  · rw [hstore]
    exact h.keeps
  · rw [hstore]
    exact h'.stands e (List.mem_cons_of_mem _ he)

theorem free_second {d : BddPtr × Bdd} (hown : own = d :: (F, f) :: rest) :
    ∃ σ', σ.bddFree F = some σ' ∧ Holds cfg σ₀ ext (d :: rest) σ' :=
  h.free (by rw [hown]; exact .swap _ _ _)

theorem free_third {d e : BddPtr × Bdd} (hown : own = d :: e :: (F, f) :: rest) :
    ∃ σ', σ.bddFree F = some σ' ∧ Holds cfg σ₀ ext (d :: e :: rest) σ' :=
  h.free (by rw [hown]; exact ((List.Perm.swap _ _ _).cons _).trans (.swap _ _ _))

theorem free_fourth {c d e : BddPtr × Bdd} (hown : own = c :: d :: e :: (F, f) :: rest) :
    ∃ σ', σ.bddFree F = some σ' ∧ Holds cfg σ₀ ext (c :: d :: e :: rest) σ' :=
  h.free (by
    rw [hown]
    exact (((List.Perm.swap _ _ _).cons _).trans (.swap _ _ _)).cons _ |>.trans (.swap _ _ _))

/-- Another reference is taken to an edge that lives. -/
theorem incrRef (hF : Stands cfg σ (ext + refs (own.map Prod.fst)) F f) :
    Holds cfg σ₀ ext ((F, f) :: own) (σ.incrRef F) := by
  obtain ⟨r, rfl, h'⟩ := h.push (h.inv.returns hF.alive hF.denotes (P := (· = f)) rfl)
  exact h'

theorem ite {F G H : BddPtr} (hF : Stands cfg σ (ext + refs (own.map Prod.fst)) F f)
    (hG : Stands cfg σ (ext + refs (own.map Prod.fst)) G g)
    (hH : Stands cfg σ (ext + refs (own.map Prod.fst)) H k) :
    ∃ q r, σ.ite cfg F G H = some q ∧
      (∀ ρ, r.eval ρ = if f.eval ρ then g.eval ρ else k.eval ρ) ∧
      Holds cfg σ₀ ext ((q.1, r) :: own) q.2 := by
  obtain ⟨q, r, hq, hr, h'⟩ := h.call (h.inv.ite hF.alive hG.alive hH.alive)
  refine ⟨q, r, hq, fun ρ => ?_, h'⟩
  rw [hr, hF.denotes.valueOf, hG.denotes.valueOf, hH.denotes.valueOf]

theorem connective (c : Connective) (hF : Stands cfg σ (ext + refs (own.map Prod.fst)) F f)
    (hG : Stands cfg σ (ext + refs (own.map Prod.fst)) G g) :
    ∃ q r, σ.connective cfg c F G = some q ∧ (∀ ρ, r.eval ρ = c.eval (f.eval ρ) (g.eval ρ)) ∧
      Holds cfg σ₀ ext ((q.1, r) :: own) q.2 := by
  obtain ⟨q, r, hq, hr, h'⟩ := h.call (h.inv.connective c hF.alive hG.alive)
  refine ⟨q, r, hq, fun ρ => ?_, h'⟩
  rw [hr, hF.denotes.valueOf, hG.denotes.valueOf]

theorem createVar (hv : v < bddTermid) :
    ∃ q r, σ.createVar cfg v = some q ∧ (∀ ρ, r.eval ρ = ρ v) ∧
      Holds cfg σ₀ ext ((q.1, r) :: own) q.2 := by
  obtain ⟨q, r, hq, hr, h'⟩ := h.call
    (h.inv.createVar (v : ℤ) (by rw [Int.natAbs_natCast]; exact hv.le))
  refine ⟨q, r, hq, fun ρ => ?_, h'⟩
  rw [hr, Package.literal, Int.natAbs_natCast, if_neg hv.ne]

/-- The function ends with its result. -/
theorem finish {R : BddPtr} (hown : own = [(R, r)]) {P : Bdd → Prop} (hP : P r) :
    Returns cfg σ₀ ext P (R, σ) := by
  subst hown
  have hinv := h.inv
  rw [List.map_cons, List.map_nil, refs_cons, refs_nil, add_zero] at hinv
  have hR := h.stands _ (List.mem_singleton.2 rfl)
  exact .intro hinv h.keeps hR.1 ⟨r, hR.2, hP⟩

end Holds

end PVS.BddPackage
