import Mathlib
import PVS.BddPackage.Ite

/-! `bdd_constrain` and `bdd_restrict` make a function smaller where only some points matter. -/

namespace PVS.BddPackage

open Library

variable {cfg : Config} {s : Store} {σ : Package} {ext : ℕ → ℤ} {F C F₁ C₁ F₂ C₂ : BddPtr}
  {f c d r t e f₁ c₁ f₂ c₂ cp cn : Bdd} {fn : CacheFn} {n k v : ℕ}

/-! ### The results for a variable -/

/-- `g` is `f` where `v` is `b`. -/
structure IsCofactor (v : ℕ) (b : Bool) (f g : Bdd) : Prop where
  eval : ∀ ρ, f.eval (Function.update ρ v b) = g.eval ρ
  vars : g.vars ⊆ f.vars

theorem IsCofactor.self (hv : v ∉ f.vars) (b : Bool) : IsCofactor v b f f :=
  ⟨fun ρ => Bdd.eval_update_of_notMem hv ρ b, fun _ h => h⟩

theorem IsCofactor.eval_of_eq {b : Bool} (h : IsCofactor v b f c) {ρ : ℕ → Bool} (hρ : ρ v = b) :
    f.eval ρ = c.eval ρ := by
  rw [← h.eval, ← hρ, Function.update_eq_self]

theorem isCofactor_pos (hp : v ∉ cp.vars) (hn : v ∉ cn.vars) :
    IsCofactor v true (.node v cp cn) cp :=
  ⟨fun ρ => by rw [Bdd.eval_node_update hp hn, if_pos rfl], fun u hu => by simp [Bdd.vars, hu]⟩

theorem isCofactor_neg (hp : v ∉ cp.vars) (hn : v ∉ cn.vars) :
    IsCofactor v false (.node v cp cn) cn :=
  ⟨fun ρ => by rw [Bdd.eval_node_update hp hn, if_neg (by simp)], fun u hu => by simp [Bdd.vars, hu]⟩

theorem vars_mk (v : ℕ) (f g : Bdd) : (Bdd.mk v f g).vars ⊆ v :: (f.vars ++ g.vars) := by
  unfold Bdd.mk
  split
  · intro u hu
    simp [hu]
  · exact fun u hu => hu

namespace CacheFn

/-- The result for a constant, and for all points. -/
theorem Meets.self (hc : ∀ ρ, c.IsChoice ρ (c.nearest ρ)) (h : c = .one ∨ f = .one ∨ f = .zero) :
    fn.Meets f c f := by
  have heval : ∀ ρ, f.eval ρ = f.eval (c.nearest ρ) := by
    rcases h with rfl | rfl | rfl <;> exact fun _ => rfl
  cases fn with
  | bddConstrain => exact heval
  | bddRestrict => exact ⟨fun ρ => ⟨_, hc ρ, heval ρ⟩, fun _ h => h⟩

/-- Where `c` holds on one side only, the other side does not matter. -/
theorem Meets.pos (hp : v ∉ cp.vars) (hf : IsCofactor v true f f₁) (h : fn.Meets f₁ cp r) :
    fn.Meets f (.node v cp .zero) r := by
  cases fn with
  | bddConstrain =>
    intro ρ
    rw [Bdd.nearest, if_pos (.inl rfl), hf.eval]
    exact h ρ
  | bddRestrict =>
    refine ⟨fun ρ => ?_, fun u hu => hf.vars (h.2 hu)⟩
    obtain ⟨y, hy, hr⟩ := h.1 ρ
    exact ⟨_, hy.node_pos hp (by simp [Bdd.vars]) (.inl rfl), by rw [hr, hf.eval]⟩

theorem Meets.neg (hn : v ∉ cn.vars) (hf : IsCofactor v false f f₁) (hne : cn ≠ .zero)
    (h : fn.Meets f₁ cn r) : fn.Meets f (.node v .zero cn) r := by
  cases fn with
  | bddConstrain =>
    intro ρ
    rw [Bdd.nearest, if_neg (by simp [hne]), hf.eval]
    exact h ρ
  | bddRestrict =>
    refine ⟨fun ρ => ?_, fun u hu => hf.vars (h.2 hu)⟩
    obtain ⟨y, hy, hr⟩ := h.1 ρ
    exact ⟨_, hy.node_neg (by simp [Bdd.vars]) hn (.inl rfl), by rw [hr, hf.eval]⟩

theorem Meets.node (hvp : v ∉ cp.vars) (hvn : v ∉ cn.vars) (hf₁ : IsCofactor v true f f₁)
    (hf₂ : IsCofactor v false f f₂) (hv : fn = .bddRestrict → v ∈ f.vars) (hp : cp ≠ .zero)
    (hn : cn ≠ .zero) (ht : fn.Meets f₁ cp t) (he : fn.Meets f₂ cn e) :
    fn.Meets f (.node v cp cn) (Bdd.mk v t e) := by
  cases fn with
  | bddConstrain =>
    intro ρ
    rw [Bdd.eval_mk, Bdd.nearest]
    cases hρ : ρ v with
    | true => rw [if_pos rfl, if_pos (.inr ⟨hp, rfl⟩), hf₁.eval, ht ρ]
    | false => rw [if_neg (by simp), if_neg (by simp [hn]), hf₂.eval, he ρ]
  | bddRestrict =>
    refine ⟨fun ρ => ?_, fun u hu => ?_⟩
    · rw [Bdd.eval_mk]
      cases hρ : ρ v with
      | true =>
        obtain ⟨y, hy, hr⟩ := ht.1 ρ
        exact ⟨_, hy.node_pos hvp hvn (.inr hρ), by rw [if_pos rfl, hr, hf₁.eval]⟩
      | false =>
        obtain ⟨y, hy, hr⟩ := he.1 ρ
        exact ⟨_, hy.node_neg hvp hvn (.inr hρ), by rw [if_neg (by simp), hr, hf₂.eval]⟩
    · rcases List.mem_cons.1 (vars_mk v t e hu) with rfl | hu
      · exact hv rfl
      · exact (List.mem_append.1 hu).elim (fun h => hf₁.vars (ht.2 h)) fun h => hf₂.vars (he.2 h)

theorem Meets.split (hf₁ : IsCofactor v true f f₁) (hf₂ : IsCofactor v false f f₂)
    (hv : v ∈ f.vars) (hc : v ∉ c.vars) (ht : fn.Meets f₁ c t) (he : fn.Meets f₂ c e) :
    fn.Meets f c (Bdd.mk v t e) := by
  cases fn with
  | bddConstrain =>
    intro ρ
    have hnear := Bdd.nearest_apply hc ρ
    rw [Bdd.eval_mk]
    cases hρ : ρ v with
    | true => rw [if_pos rfl, hf₁.eval_of_eq (hnear.trans hρ), ht ρ]
    | false => rw [if_neg (by simp), hf₂.eval_of_eq (hnear.trans hρ), he ρ]
  | bddRestrict =>
    refine ⟨fun ρ => ?_, fun u hu => ?_⟩
    · rw [Bdd.eval_mk]
      cases hρ : ρ v with
      | true =>
        obtain ⟨y, hy, hr⟩ := ht.1 ρ
        exact ⟨y, hy, by rw [if_pos rfl, hr, hf₁.eval_of_eq ((hy.apply v hc).trans hρ)]⟩
      | false =>
        obtain ⟨y, hy, hr⟩ := he.1 ρ
        exact ⟨y, hy, by rw [if_neg (by simp), hr, hf₂.eval_of_eq ((hy.apply v hc).trans hρ)]⟩
    · rcases List.mem_cons.1 (vars_mk v t e hu) with rfl | hu
      · exact hv
      · exact (List.mem_append.1 hu).elim (fun h => hf₁.vars (ht.2 h)) fun h => hf₂.vars (he.2 h)

/-- A variable that is not in `f` may be taken out of `c`. -/
theorem Meets.exists (hp : v ∉ cp.vars) (hn : v ∉ cn.vars) (hf : v ∉ f.vars)
    (hd : ∀ ρ, d.eval ρ = (cp.eval ρ || cn.eval ρ))
    (hvars : ∀ u ∈ d.vars, u ∈ cp.vars ∨ u ∈ cn.vars) (h : CacheFn.bddRestrict.Meets f d r) :
    CacheFn.bddRestrict.Meets f (.node v cp cn) r := by
  refine ⟨fun ρ => ?_, h.2⟩
  obtain ⟨y, hy, hr⟩ := h.1 ρ
  obtain ⟨b, hb⟩ := hy.exists hp hn hd hvars
  exact ⟨_, hb, by rw [hr, Bdd.eval_update_of_notMem hf]⟩

/-- The result depends on no other variables than the arguments. -/
theorem Meets.eval_update (h : fn.Meets f c r) (hf : v ∉ f.vars) (hc : v ∉ c.vars) (ρ : ℕ → Bool)
    (b : Bool) : r.eval (Function.update ρ v b) = r.eval ρ := by
  cases fn with
  | bddConstrain => rw [h, h, Bdd.nearest_update hc, Bdd.eval_update_of_notMem hf]
  | bddRestrict => exact Bdd.eval_update_of_notMem (fun hv => hf (h.2 hv)) ρ b

end CacheFn

/-! ### `bdd_constrain_aux` and `bdd_restrict_aux` -/

namespace Package

section Reduce

variable (cfg : Config) (rec : Package → BddPtr → BddPtr → Option (BddPtr × Package))

/-- The node of the results for both values of a variable -/
def branch (σ : Package) (v : ℕ) (F₁ C₁ F₂ C₂ : BddPtr) : Option (BddPtr × Package) :=
  (rec σ F₁ C₁).bind fun T => (rec T.2 F₂ C₂).bind fun E => E.2.makeNode cfg v T.1 E.1

/-- Only one side is needed where `c` is false on the other one. -/
def sides (σ : Package) (v : ℕ) (F₁ F₂ C : BddPtr) : Option (BddPtr × Package) :=
  if σ.heap.cofactorNeg C = cfg.bdd0 then rec σ F₁ (σ.heap.cofactorPos C)
  else if σ.heap.cofactorPos C = cfg.bdd0 then rec σ F₂ (σ.heap.cofactorNeg C)
  else branch cfg rec σ v F₁ (σ.heap.cofactorPos C) F₂ (σ.heap.cofactorNeg C)

/-- The top variable of `c` is not one of `f`; `bdd_restrict_aux` takes it out of `c`. -/
def above : CacheFn → Package → BddPtr → BddPtr → Option (BddPtr × Package)
  | .bddConstrain, σ, F, C => sides cfg rec σ (σ.heap.varid C) F F C
  | .bddRestrict, σ, F, C =>
    (σ.ite cfg (σ.heap.cofactorPos C) cfg.bdd1 (σ.heap.cofactorNeg C)).bind fun T =>
      (rec T.2 F T.1).bind fun R => (R.2.bddFree T.1).map fun σ' => (R.1, σ')

def reduceNew (fn : CacheFn) (F C : BddPtr) (σ : Package) : Option (BddPtr × Package) :=
  if σ.rank F = σ.rank C then
    sides cfg rec σ (σ.heap.varid F) (σ.heap.cofactorPos F) (σ.heap.cofactorNeg F) C
  else if σ.rank F < σ.rank C then
    branch cfg rec σ (σ.heap.varid F) (σ.heap.cofactorPos F) C (σ.heap.cofactorNeg F) C
  else above cfg rec fn σ F C

end Reduce

def reduceAux (cfg : Config) (fn : CacheFn) : ℕ → Package → BddPtr → BddPtr →
    Option (BddPtr × Package)
  | 0, _, _, _ => none
  | n + 1, σ, F, C =>
    if C = cfg.bdd1 ∨ σ.heap.termP F = true then some (F, σ.incrRef F)
    else if σ.heap.termP C then none
    else σ.cached cfg (.func fn) F C (reduceNew cfg (reduceAux cfg fn n) fn F C)

attribute [local simp] reduceAux

/-- `bdd_constrain` -/
def constrain (cfg : Config) (σ : Package) (F C : BddPtr) : Option (BddPtr × Package) :=
  if C = cfg.bdd0 then none else σ.reduceAux cfg .bddConstrain (bddTermid + 1) F C

/-- `bdd_restrict` -/
def restrict (cfg : Config) (σ : Package) (F C : BddPtr) : Option (BddPtr × Package) :=
  if C = cfg.bdd0 then none else σ.reduceAux cfg .bddRestrict (bddTermid + 1) F C

end Package

/-! ### The results meet their purpose -/

/-- What `bdd_constrain_aux` and `bdd_restrict_aux` return -/
def ReduceSpec (cfg : Config) (fn : CacheFn) (σ : Package) (ext : ℕ → ℤ) (f c : Bdd)
    (o : Option (BddPtr × Package)) : Prop :=
  ∃ q, o = some q ∧ Returns cfg σ ext (fn.Meets f c) q

/-- A live edge to `f`, after the rank `k` -/
structure Later (cfg : Config) (σ : Package) (ext : ℕ → ℤ) (k : ℕ) (F : BddPtr) (f : Bdd) : Prop where
  alive : σ.Alive cfg ext F
  rank : k < σ.rank F
  denotes : Denotes cfg σ.heap F f

/-- The results are right for arguments after the rank `k`. -/
def RecOk (cfg : Config) (fn : CacheFn) (k : ℕ)
    (rec : Package → BddPtr → BddPtr → Option (BddPtr × Package)) : Prop :=
  ∀ {σ : Package} {ext : ℕ → ℤ} {F C : BddPtr} {f c : Bdd}, σ.Inv cfg ext →
    Later cfg σ ext k F f → Later cfg σ ext k C c → c ≠ .zero →
      ReduceSpec cfg fn σ ext f c (rec σ F C)

theorem Later.returns {P : Bdd → Prop} {q : BddPtr × Package} (h : Later cfg σ ext k F f)
    (hq : Returns cfg σ ext P q) : Later cfg q.2 (ext + refTo q.1.addr) k F f :=
  ⟨(hq.alive_of_alive h.alive).mono (le_add_refTo ext _), by rw [hq.keeps.rank h.alive]; exact h.rank,
    hq.keeps.denotes h.alive h.denotes⟩

theorem Later.notMem_vars (hs : σ.Shape cfg) (h : Later cfg σ ext k F f) (hv : σ.ranks v ≤ k) :
    v ∉ f.vars :=
  (hs.isReduced h.alive.edge h.denotes).notMem_vars (hv.trans_lt h.rank)

namespace Package.Inv

section Branch

variable {rec : Package → BddPtr → BddPtr → Option (BddPtr × Package)} (hrec : RecOk cfg fn k rec)
  (hi : σ.Inv cfg ext)
include hrec hi

/-- A result comes after the rank of the arguments too. -/
theorem rank_result (h₁ : Later cfg σ ext k F f) (h₂ : Later cfg σ ext k C c) (hne : c ≠ .zero) :
    ∃ q, rec σ F C = some q ∧ Returns cfg σ ext (fn.Meets f c) q ∧ k < q.2.rank q.1 := by
  obtain ⟨q, hq, hspec⟩ := hrec hi h₁ h₂ hne
  have hk : k + 1 ≤ bddTermid := h₁.rank.trans_le (hi.shape.rank_le h₁.alive.edge)
  refine ⟨q, hq, hspec, hspec.le_rank hk fun r hr w hw => ?_⟩
  exact hr.eval_update (h₁.notMem_vars hi.shape (Nat.le_of_lt_succ hw))
    (h₂.notMem_vars hi.shape (Nat.le_of_lt_succ hw))

theorem branch (hv : v < bddTermid) (hk : σ.ranks v = k) (hF₁ : Later cfg σ ext k F₁ f₁)
    (hC₁ : Later cfg σ ext k C₁ c₁) (hF₂ : Later cfg σ ext k F₂ f₂)
    (hC₂ : Later cfg σ ext k C₂ c₂) (hne₁ : c₁ ≠ .zero) (hne₂ : c₂ ≠ .zero) :
    ∃ q, Package.branch cfg rec σ v F₁ C₁ F₂ C₂ = some q ∧ Returns cfg σ ext
      (fun r => ∃ t e, fn.Meets f₁ c₁ t ∧ fn.Meets f₂ c₂ e ∧ r = Bdd.mk v t e) q := by
  obtain ⟨T, hT, hTspec, hTrank⟩ := hi.rank_result hrec hF₁ hC₁ hne₁
  obtain ⟨E, hE, hEspec, hErank⟩ := hTspec.inv.rank_result hrec (hF₂.returns hTspec)
    (hC₂.returns hTspec) hne₂
  obtain ⟨q, hmake, hq⟩ := hTspec.makeNode hi.nonneg hEspec hv (hk ▸ hTrank) (hk ▸ hErank)
  exact ⟨q, by rw [Package.branch, hT, Option.bind_some, hE, Option.bind_some, hmake], hq⟩

theorem sides (hC : σ.Alive cfg ext C) (hc : Denotes cfg σ.heap C (.node v cp cn))
    (hk : σ.rank C = k) (hne : cp ≠ cn) (hv : fn = .bddRestrict → v ∈ f.vars)
    (hF₁ : Later cfg σ ext k F₁ f₁) (hF₂ : Later cfg σ ext k F₂ f₂)
    (hf₁ : IsCofactor v true f f₁) (hf₂ : IsCofactor v false f f₂) :
    ReduceSpec cfg fn σ ext f (.node v cp cn) (Package.sides cfg rec σ v F₁ F₂ C) := by
  have hs := hi.shape
  have haddr : C.addr ≠ cfg.addr1 := by
    intro haddr
    rcases hc.eq_of_addr haddr with ⟨_, h⟩ | ⟨_, h⟩
    · cases h
    · cases h
  obtain ⟨p, n, heq, hp, hn⟩ := hc.exists_node haddr
  injection heq with hvarid hpeq hneq
  subst hpeq hneq
  have hranks : σ.ranks v = k := by rw [hvarid, ← hs.rank_eq hC.edge haddr, hk]
  have hlt : v < bddTermid := by
    rw [hvarid]
    exact (hs.varid_lt hC.edge haddr).trans_le hs.count_le
  have hT : Later cfg σ ext k (σ.heap.cofactorPos C) cp :=
    ⟨hC.cofactorPos hs, hk ▸ hs.rank_cofactorPos hC.edge haddr, hp⟩
  have hE : Later cfg σ ext k (σ.heap.cofactorNeg C) cn :=
    ⟨hC.cofactorNeg hs, hk ▸ hs.rank_cofactorNeg hC.edge haddr, hn⟩
  have hzero : ∀ {G : BddPtr} {g : Bdd}, Later cfg σ ext k G g → G ≠ cfg.bdd0 → g ≠ .zero := by
    rintro G g hG h0 rfl
    exact h0 (hs.eq_of_denotes hG.alive.edge Store.isEdge_bdd0 hG.denotes .zero)
  unfold Package.sides
  split_ifs with h0 h1
  · rw [h0] at hn
    obtain rfl := hn.functional .zero
    obtain ⟨q, hq, hspec⟩ := hrec hi hF₁ hT hne
    exact ⟨q, hq, hspec.imp fun r => CacheFn.Meets.pos (hT.notMem_vars hs hranks.le) hf₁⟩
  · rw [h1] at hp
    obtain rfl := hp.functional .zero
    obtain ⟨q, hq, hspec⟩ := hrec hi hF₂ hE hne.symm
    exact ⟨q, hq, hspec.imp fun r =>
      CacheFn.Meets.neg (hE.notMem_vars hs hranks.le) hf₂ hne.symm⟩
  · obtain ⟨q, hq, hspec⟩ := hi.branch hrec hlt hranks hF₁ hT hF₂ hE (hzero hT h1) (hzero hE h0)
    refine ⟨q, hq, hspec.imp ?_⟩
    rintro r ⟨t, e, ht, he, rfl⟩
    exact .node (hT.notMem_vars hs hranks.le) (hE.notMem_vars hs hranks.le) hf₁ hf₂ hv
      (hzero hT h1) (hzero hE h0) ht he

theorem above (hF : Later cfg σ ext k F f) (hC : σ.Alive cfg ext C)
    (hc : Denotes cfg σ.heap C (.node v cp cn)) (hk : σ.rank C = k) (hne : cp ≠ cn) :
    ReduceSpec cfg fn σ ext f (.node v cp cn) (Package.above cfg rec fn σ F C) := by
  have hs := hi.shape
  have haddr : C.addr ≠ cfg.addr1 := by
    intro haddr
    rcases hc.eq_of_addr haddr with ⟨_, h⟩ | ⟨_, h⟩
    · cases h
    · cases h
  obtain ⟨p, n, heq, hp, hn⟩ := hc.exists_node haddr
  injection heq with hvarid hpeq hneq
  subst hpeq hneq
  have hranks : σ.ranks v = k := by rw [hvarid, ← hs.rank_eq hC.edge haddr, hk]
  have hnot := hF.notMem_vars hs hranks.le
  cases fn with
  | bddConstrain =>
    rw [Package.above, ← hvarid]
    exact hi.sides hrec hC hc hk hne (fun h => absurd h (by simp)) hF hF (.self hnot _) (.self hnot _)
  | bddRestrict =>
    have hT := hC.cofactorPos hs
    have hE := hC.cofactorNeg hs
    have hindep : ∀ {G : BddPtr} {g : Bdd}, σ.IsEdge cfg G → Denotes cfg σ.heap G g →
        k < σ.rank G → ∀ w, σ.ranks w < k + 1 → ∀ ρ b,
          g.eval (Function.update ρ w b) = g.eval ρ := fun hG hg hlt w hw ρ b =>
      Bdd.eval_update_of_notMem
        ((hs.isReduced hG hg).notMem_vars (by omega)) ρ b
    have hrT := hk ▸ hs.rank_cofactorPos hC.edge haddr
    have hrE := hk ▸ hs.rank_cofactorNeg hC.edge haddr
    obtain ⟨T, hite, hTspec⟩ := hi.ite hT Store.alive_bdd1 hE
    have hTspec' : Returns cfg σ ext (fun d => ∀ ρ, d.eval ρ = (cp.eval ρ || cn.eval ρ)) T := by
      refine hTspec.imp fun d hd ρ => ?_
      rw [hd, hp.valueOf, hn.valueOf, valueOf_bdd1]
      cases cp.eval ρ <;> rfl
    have hkle : k + 1 ≤ bddTermid := hrT.trans_le (hs.rank_le hT.edge)
    have hTrank : k < T.2.rank T.1 := hTspec'.le_rank hkle fun d hd w hw ρ b => by
      rw [hd, hd, hindep hT.edge hp hrT w hw, hindep hE.edge hn hrE w hw]
    obtain ⟨d, hd, hdeval⟩ := hTspec'.value
    have hdne : d ≠ .zero := by
      rintro rfl
      have hzero : ∀ {G : BddPtr} {g : Bdd}, σ.IsEdge cfg G → Denotes cfg σ.heap G g →
          (∀ ρ, g.eval ρ = false) → g = .zero := fun hG hg h =>
        (hs.isReduced hG hg).eq_of_eval hs.ranks_injective
          (show Bdd.IsReduced σ.ranks 0 .zero from .zero) h
      have hor : ∀ ρ, cp.eval ρ = false ∧ cn.eval ρ = false := fun ρ => by
        have := hdeval ρ
        rw [Bdd.eval, eq_comm, Bool.or_eq_false_iff] at this
        exact this
      exact hne ((hzero hT.edge hp fun ρ => (hor ρ).1).trans
        (hzero hE.edge hn fun ρ => (hor ρ).2).symm)
    have hTalive := hTspec.alive hi.nonneg
    obtain ⟨R, hR, hRspec⟩ := hrec hTspec.inv (hF.returns hTspec) ⟨hTalive, hTrank, hd⟩ hdne
    obtain ⟨σ', hfree, hi', hstore⟩ := hRspec.inv.bddFree (F := T.1)
      (e := ext + refTo R.1.addr) (by abel) (add_refTo_nonneg hi.nonneg _)
      (hRspec.alive_of_alive hTalive).edge
    obtain ⟨r, hr, hmeets⟩ := hRspec.value
    have hvars : ∀ u ∈ d.vars, u ∈ cp.vars ∨ u ∈ cn.vars := by
      intro u hu
      obtain ⟨ρ, b, hchange⟩ := ((hTspec.inv.shape.isReduced hTspec.edge hd).mem_vars_iff
        hTspec.inv.shape.ranks_injective).1 hu
      by_contra hno
      rw [not_or] at hno
      refine hchange ?_
      rw [hdeval, hdeval, Bdd.eval_update_of_notMem hno.1, Bdd.eval_update_of_notMem hno.2]
    have hvp := (hs.isReduced hT.edge hp).notMem_vars (hranks.le.trans_lt hrT)
    have hvn := (hs.isReduced hE.edge hn).notMem_vars (hranks.le.trans_lt hrE)
    refine ⟨(R.1, σ'), ?_, .intro hi' ?_ ?_ ⟨r, ?_, hmeets.exists hvp hvn hnot hdeval hvars⟩⟩
    · simp only [Package.above, hite, Option.bind_some, hR, hfree, Option.map_some]
    · rw [hstore]
      exact hTspec.keeps.trans (hRspec.keeps.mono (le_add_refTo ext _))
    · rw [hstore]
      exact hRspec.edge
    · rw [hstore]
      exact hr

end Branch

variable (hi : σ.Inv cfg ext)
include hi

theorem reduceNew {rec : Package → BddPtr → BddPtr → Option (BddPtr × Package)}
    (hrec : RecOk cfg fn (min (σ.rank F) (σ.rank C)) rec) (hF : σ.Alive cfg ext F)
    (hC : σ.Alive cfg ext C) (hf : Denotes cfg σ.heap F f) (hc : Denotes cfg σ.heap C c)
    (hFaddr : F.addr ≠ cfg.addr1) (hCaddr : C.addr ≠ cfg.addr1) (hne : c ≠ .zero) :
    ReduceSpec cfg fn σ ext f c (Package.reduceNew cfg rec fn F C σ) := by
  have hs := hi.shape
  have hred := hs.isReduced hF.edge hf
  have hredC := hs.isReduced hC.edge hc
  have hkF := hs.rank_eq hF.edge hFaddr
  obtain ⟨fp, fm, rfl, hfp, hfm⟩ := hf.exists_node hFaddr
  obtain ⟨cp, cn, rfl, hcp, hcn⟩ := hc.exists_node hCaddr
  have hmem : σ.heap.varid F ∈ (Bdd.node (σ.heap.varid F) fp fm).vars := by simp [Bdd.vars]
  cases hred with
  | node _ hp hn _ =>
    cases hredC with
    | node _ _ _ hcne =>
      have hnp := hp.notMem_vars (Nat.lt_succ_self _)
      have hnn := hn.notMem_vars (Nat.lt_succ_self _)
      have hposF : ∀ {k : ℕ}, σ.rank F = k → Later cfg σ ext k (σ.heap.cofactorPos F) fp :=
        fun hk => ⟨hF.cofactorPos hs, hk ▸ hs.rank_cofactorPos hF.edge hFaddr, hfp⟩
      have hnegF : ∀ {k : ℕ}, σ.rank F = k → Later cfg σ ext k (σ.heap.cofactorNeg F) fm :=
        fun hk => ⟨hF.cofactorNeg hs, hk ▸ hs.rank_cofactorNeg hF.edge hFaddr, hfm⟩
      unfold Package.reduceNew
      split_ifs with heq hlt
      · rw [heq, min_self] at hrec
        have hvarid := hs.varid_eq_of_rank hF.edge hC.edge heq (hs.rank_lt hF.edge hFaddr)
        rw [← hvarid] at hc ⊢
        exact hi.sides hrec hC hc rfl hcne (fun _ => hmem) (hposF heq) (hnegF heq)
          (isCofactor_pos hnp hnn) (isCofactor_neg hnp hnn)
      · rw [min_eq_left hlt.le] at hrec
        have hC' : Later cfg σ ext (σ.rank F) C (.node (σ.heap.varid C) cp cn) := ⟨hC, hlt, hc⟩
        have hv : σ.heap.varid F < bddTermid := (hs.varid_lt hF.edge hFaddr).trans_le hs.count_le
        obtain ⟨q, hq, hspec⟩ := hi.branch hrec hv hkF.symm (hposF rfl) hC' (hnegF rfl) hC' hne hne
        refine ⟨q, hq, hspec.imp ?_⟩
        rintro r ⟨t, e, ht, he, rfl⟩
        exact .split (isCofactor_pos hnp hnn) (isCofactor_neg hnp hnn) hmem
          (hC'.notMem_vars hs hkF.symm.le) ht he
      · have hgt : σ.rank C < σ.rank F := by omega
        rw [min_eq_right hgt.le] at hrec
        exact hi.above hrec ⟨hF, hgt, hf⟩ hC hc rfl hcne

theorem reduceAux (hF : σ.Alive cfg ext F) (hC : σ.Alive cfg ext C)
    (hf : Denotes cfg σ.heap F f) (hc : Denotes cfg σ.heap C c) (hne : c ≠ .zero)
    (hkF : k ≤ σ.rank F) (hkC : k ≤ σ.rank C) (hn : bddTermid < n + k) :
    ReduceSpec cfg fn σ ext f c (σ.reduceAux cfg fn n F C) := by
  induction n generalizing σ ext F C f c k with
  | zero =>
    have := hi.shape.rank_le hF.edge
    omega
  | succ n ih =>
    have hs := hi.shape
    rw [Package.reduceAux]
    by_cases hbase : C = cfg.bdd1 ∨ σ.heap.termP F = true
    · rw [if_pos hbase]
      refine ⟨_, rfl, hi.returns hF hf
        (CacheFn.Meets.self (fun ρ => (hs.isReduced hC.edge hc).isChoice_nearest hne ρ) ?_)⟩
      rcases hbase with rfl | hterm
      · exact .inl (hc.functional .one)
      · rcases hf.eq_of_addr ((hs.termP_iff hF.edge).1 hterm) with ⟨_, h⟩ | ⟨_, h⟩
        · exact .inr (.inl h)
        · exact .inr (.inr h)
    · rw [if_neg hbase]
      rw [not_or] at hbase
      have hFaddr : F.addr ≠ cfg.addr1 := fun h => hbase.2 ((hs.termP_iff hF.edge).2 h)
      have hCaddr : C.addr ≠ cfg.addr1 := by
        intro h
        rcases hC.edge.eq_const h with rfl | rfl
        · exact hbase.1 rfl
        · exact hne (hc.functional .zero)
      rw [if_neg (by rw [hs.termP_eq_false hC.edge hCaddr]; simp)]
      have hrec : RecOk cfg fn (min (σ.rank F) (σ.rank C)) (Package.reduceAux cfg fn n) :=
        fun hi' hF' hC' hne' => ih hi' hF'.alive hC'.alive hF'.denotes hC'.denotes hne'
          (k := min (σ.rank F) (σ.rank C) + 1) hF'.rank hC'.rank (by omega)
      obtain ⟨q, hnew, hq⟩ := hi.reduceNew hrec hF hC hf hc hFaddr hCaddr hne
      obtain ⟨o, hcached, ho⟩ := hi.cached (K := .func fn) (fun F h => by cases h) hF hC
        (C := Package.reduceNew cfg (Package.reduceAux cfg fn n) fn F C)
        ⟨q, hnew, hq.imp fun r hr => ⟨f, c, hf, hc, hr⟩⟩
      refine ⟨o, hcached, ho.imp ?_⟩
      rintro r ⟨f', c', hf', hc', hr⟩
      rwa [hf.functional hf', hc.functional hc']

/-- `bdd_constrain` returns the function of the nearest points where `c` holds. -/
theorem constrain (hF : σ.Alive cfg ext F) (hC : σ.Alive cfg ext C)
    (hf : Denotes cfg σ.heap F f) (hc : Denotes cfg σ.heap C c) (hne : C ≠ cfg.bdd0) :
    ReduceSpec cfg .bddConstrain σ ext f c (σ.constrain cfg F C) := by
  rw [Package.constrain, if_neg hne]
  refine hi.reduceAux hF hC hf hc ?_ (Nat.zero_le _) (Nat.zero_le _) (by omega)
  rintro rfl
  exact hne (hi.shape.eq_of_denotes hC.edge Store.isEdge_bdd0 hc .zero)

/-- `bdd_restrict` returns a function that is right where `c` holds. -/
theorem restrict (hF : σ.Alive cfg ext F) (hC : σ.Alive cfg ext C)
    (hf : Denotes cfg σ.heap F f) (hc : Denotes cfg σ.heap C c) (hne : C ≠ cfg.bdd0) :
    ReduceSpec cfg .bddRestrict σ ext f c (σ.restrict cfg F C) := by
  rw [Package.restrict, if_neg hne]
  refine hi.reduceAux hF hC hf hc ?_ (Nat.zero_le _) (Nat.zero_le _) (by omega)
  rintro rfl
  exact hne (hi.shape.eq_of_denotes hC.edge Store.isEdge_bdd0 hc .zero)

end Package.Inv

end PVS.BddPackage
