import Mathlib
import PVS.BddPackage.MarkedPass
import PVS.Library.BooleanQuantifier

/-! `bdd_quantify` quantifies a function over a list of variables. -/

namespace PVS.BddPackage

open Library

/-- What `bdd_cofactors` returns -/
structure Cofactors where
  var : BddPtr
  pos : BddPtr
  neg : BddPtr

namespace Package

/-- `bdd_cofactors` -/
def cofactors (cfg : Config) (σ : Package) (f : BddPtr) : Option (Cofactors × Package) :=
  if σ.heap.termP f then
    some (⟨f, cfg.bdd1, cfg.bdd0⟩, ((σ.incrRef f).incrRef cfg.bdd1).incrRef cfg.bdd0)
  else (σ.createVar cfg (σ.heap.varid f)).map fun v =>
    (⟨v.1, v.2.heap.cofactorPos f, v.2.heap.cofactorNeg f⟩,
      (v.2.incrRef (v.2.heap.cofactorPos f)).incrRef (v.2.heap.cofactorNeg f))

/-- `bdd_invert_input_top` -/
def invertInputTop (cfg : Config) (σ : Package) (f : BddPtr) : Option (BddPtr × Package) :=
  (σ.cofactors cfg f).bind fun c =>
    (c.2.ite cfg c.1.var c.1.neg c.1.pos).bind fun R =>
      (R.2.bddFree c.1.var).bind fun σ₁ => (σ₁.bddFree c.1.pos).bind fun σ₂ =>
        (σ₂.bddFree c.1.neg).map fun σ₃ => (R.1, σ₃)

/-- `quantify_interpret_mod_bits` -/
def quantifyInterpretModBits (cfg : Config) (existential : Bool) (aux : Aux) (f : BddPtr)
    (σ : Package) : Option (BddPtr × Package) :=
  (aux.fields f.addr).bind fun p => p.2.bind fun Af =>
    let R := if existential then (if f.neg then Af.compl else p.1)
      else if f.neg then p.1.compl else Af
    if f.inv ∧ σ.heap.varid f = σ.heap.varid R then σ.invertInputTop cfg R
    else some (R, σ.incrRef R)

/-- Both branches are read, their results joined and freed. -/
def joined (readT readE : Package → Option (BddPtr × Package))
    (join : Package → BddPtr → BddPtr → Option (BddPtr × Package)) (σ : Package) :
    Option (BddPtr × Package) :=
  (readT σ).bind fun R₁ => (readE R₁.2).bind fun R₂ => (join R₂.2 R₁.1 R₂.1).bind fun R =>
    (R.2.bddFree R₁.1).bind fun σ₁ => (σ₁.bddFree R₂.1).map fun σ₂ => (R.1, σ₂)

end Package

/-- Duplicates of the first variable are skipped. -/
def skipDuplicates : List ℤ → List ℤ
  | x :: y :: rest => if y.natAbs = x.natAbs then skipDuplicates (y :: rest) else x :: y :: rest
  | vars => vars

attribute [local simp] skipDuplicates

/-- The first variable in the list has the rank `k`. -/
def startsAt (s : Store) (k : ℕ) (vars : List ℤ) : Bool :=
  vars.head?.any fun x => decide (s.varRank x.natAbs = k)

/-- A partial result of `bdd_quantify_aux` -/
def quantifyPart (cfg : Config) (existential : Bool) (aux : Aux) (T E : BddPtr)
    (join : Package → BddPtr → BddPtr → Option (BddPtr × Package)) :
    Package → Option (BddPtr × Package) :=
  Package.joined (Package.quantifyInterpretModBits cfg existential aux T)
    (Package.quantifyInterpretModBits cfg existential aux E) join

/-- The fields that `bdd_quantify_aux` sets at a node whose branches were visited -/
def quantifyFields (cfg : Config) (σ : Package) (aux : Aux) (f : BddPtr) (vars : List ℤ) :
    Option (Fields × Package) :=
  let T := σ.heap.thenLink f
  let E := σ.heap.elseLink f
  if startsAt σ.toStore (σ.rank f) vars then
    (quantifyPart cfg true aux T E (fun σ R₁ R₂ => σ.connective cfg .or R₁ R₂) σ).bind fun e =>
      (quantifyPart cfg false aux T E (fun σ R₁ R₂ => σ.connective cfg .and R₁ R₂) e.2).map fun a =>
        ((e.1, some a.1), a.2)
  else
    (σ.createVar cfg (σ.heap.varid f)).bind fun v =>
      (quantifyPart cfg true aux T E (fun σ R₁ R₂ => σ.ite cfg v.1 R₁ R₂) v.2).bind fun e =>
        (quantifyPart cfg false aux T E (fun σ R₁ R₂ => σ.ite cfg v.1 R₁ R₂) e.2).bind fun a =>
          (a.2.bddFree v.1).map fun σ' => ((e.1, some a.1), σ')

/-- `bdd_quantify_aux`; with a variable that is skipped its duplicates are. -/
def quantifyPass (cfg : Config) : Pass (List ℤ) where
  skip s k vars := skipDuplicates (vars.dropWhile fun x => decide (s.varRank x.natAbs < k))
  stops s f vars := vars.isEmpty || s.heap.termP f
  leaf σ f := some ((f.ptr, some f.ptr), (σ.incrRef f.ptr).incrRef f.ptr)
  below s f vars := if startsAt s (s.rank f) vars then vars.tail else vars
  fields σ aux f vars := quantifyFields cfg σ aux f vars

/-- `bdd_quantify` -/
def Package.quantify (cfg : Config) (σ : Package) (existential : Bool) (f : BddPtr) (vars : List ℤ) :
    Option (BddPtr × Package) :=
  if vars = [] ∨ σ.heap.termP f = true then some (f, σ.incrRef f)
  else (quantifyPass cfg).result
    (fun σ' aux f' => σ'.quantifyInterpretModBits cfg existential aux f') σ f vars

variable {cfg : Config} {σ₀ σ : Package} {ext : ℕ → ℤ} {own base : List (BddPtr × Bdd)}
  {F G : BddPtr} {f g p m r t e : Bdd} {ρ : ℕ → Bool} {v k : ℕ} {b : Bool} {S : Set ℕ}

/-! ### The inverted input -/

theorem eval_swap (hp : Ignores p.eval v) (hm : Ignores m.eval v) (ρ : ℕ → Bool) :
    (Bdd.node v p m).swap.eval ρ = (Bdd.node v p m).eval (flipAt v ρ) := by
  rw [Bdd.swap, Bdd.eval, Bdd.eval, flipAt_apply, hp.flipAt, hm.flipAt]
  cases ρ v <;> rfl

theorem Store.Shape.ignores (hs : σ.Shape cfg) (hF : Stands cfg σ ext F f)
    (hv : σ.ranks v < σ.rank F) : Ignores f.eval v := fun ρ c =>
  Bdd.eval_update_of_notMem ((hF.isReduced hs).notMem_vars hv) ρ c

/-- The branches do not depend on the variable of the node. -/
theorem Stands.branches (hs : σ.Shape cfg) (hF : Stands cfg σ ext F f) (haddr : F.addr ≠ cfg.addr1) :
    ∃ p m, f = .node (σ.heap.varid F) p m ∧ Ignores p.eval (σ.heap.varid F) ∧
      Ignores m.eval (σ.heap.varid F) ∧ Stands cfg σ ext (σ.heap.cofactorPos F) p ∧
        Stands cfg σ ext (σ.heap.cofactorNeg F) m := by
  obtain ⟨p, m, rfl, hp, hm⟩ := hF.denotes.exists_node haddr
  have hpos : Stands cfg σ ext (σ.heap.cofactorPos F) p := ⟨hF.alive.cofactorPos hs, hp⟩
  have hneg : Stands cfg σ ext (σ.heap.cofactorNeg F) m := ⟨hF.alive.cofactorNeg hs, hm⟩
  have hrank := hs.rank_eq hF.alive.edge haddr
  refine ⟨p, m, rfl, ?_, ?_, hpos, hneg⟩
  · exact hs.ignores hpos (hrank ▸ hs.rank_cofactorPos hF.alive.edge haddr)
  · exact hs.ignores hneg (hrank ▸ hs.rank_cofactorNeg hF.alive.edge haddr)

/-- A constant is complemented, although it is said to be returned without change. -/
theorem Package.Inv.invertInputTop (hi : σ.Inv cfg ext) (hF : Stands cfg σ ext F f) :
    ∃ q, σ.invertInputTop cfg F = some q ∧ Returns cfg σ ext (fun r => ∀ ρ, r.eval ρ =
      if F.addr = cfg.addr1 then !f.eval ρ else f.eval (flipAt (σ.heap.varid F) ρ)) q := by
  have hs := hi.shape
  have h := Holds.start hi
  have hF' := h.base hF
  -- the cofactors are held in the order in which they were taken
  have hend : ∀ {σ' : Package} {c : Cofactors} {w x y : Bdd},
      Holds cfg σ ext [(c.neg, y), (c.pos, x), (c.var, w)] σ' →
      ∃ q, ((σ'.ite cfg c.var c.neg c.pos).bind fun R =>
        (R.2.bddFree c.var).bind fun σ₁ => (σ₁.bddFree c.pos).bind fun σ₂ =>
          (σ₂.bddFree c.neg).map fun σ₃ => (R.1, σ₃)) = some q ∧
        Returns cfg σ ext (fun r => ∀ ρ, r.eval ρ = if w.eval ρ then y.eval ρ else x.eval ρ) q := by
    intro σ' c w x y h'
    obtain ⟨R, r, hR, hr, h₁⟩ := h'.ite (h'.mem (e := (c.var, w)) (by simp))
      (h'.mem (e := (c.neg, y)) (by simp)) (h'.mem (e := (c.pos, x)) (by simp))
    obtain ⟨σ₁, hfree₁, h₂⟩ := h₁.free_fourth rfl
    obtain ⟨σ₂, hfree₂, h₃⟩ := h₂.free_third rfl
    obtain ⟨σ₃, hfree₃, h₄⟩ := h₃.free_second rfl
    refine ⟨(R.1, σ₃), ?_, h₄.finish rfl hr⟩
    simp only [hR, Option.bind_some, hfree₁, hfree₂, hfree₃, Option.map_some]
  unfold Package.invertInputTop Package.cofactors
  by_cases haddr : F.addr = cfg.addr1
  · have h₁ := h.incrRef hF'
    have h₂ := h₁.incrRef (F := cfg.bdd1) .bdd1
    have h₃ := h₂.incrRef (F := cfg.bdd0) .bdd0
    obtain ⟨q, hq, hspec⟩ := hend (c := ⟨F, cfg.bdd1, cfg.bdd0⟩) h₃
    rw [if_pos ((hs.termP_iff hF.alive.edge).2 haddr), Option.bind_some]
    refine ⟨q, hq, hspec.imp fun r hr ρ => ?_⟩
    rw [hr, if_pos haddr]
    cases f.eval ρ <;> rfl
  · have hterm := hs.termP_eq_false hF.alive.edge haddr
    have hvarid := (hs.varid_lt hF.alive.edge haddr).trans_le hs.count_le
    obtain ⟨V, w, hV, hw, h₁⟩ := h.createVar hvarid
    have hheap : V.2.heap F.addr = σ.heap F.addr := h₁.keeps.heap _ hF.alive.reach
    have hvarid' : V.2.heap.varid F = σ.heap.varid F := congrArg Node.varid hheap
    obtain ⟨p, m, rfl, hp, hm, hpos, hneg⟩ := (h₁.base hF).branches h₁.inv.shape haddr
    have h₂ := h₁.incrRef hpos
    have h₃ := h₂.incrRef (hneg.incrRef _)
    obtain ⟨q, hq, hspec⟩ := hend (c := ⟨V.1, V.2.heap.cofactorPos F, V.2.heap.cofactorNeg F⟩) h₃
    rw [if_neg (by rw [hterm]; simp), hV, Option.map_some, Option.bind_some]
    refine ⟨q, hq, hspec.imp fun r hr ρ => ?_⟩
    rw [hvarid'] at hp hm ⊢
    rw [hr, if_neg haddr, hw, ← eval_swap hp hm]
    rfl

/-! ### Partial results -/

/-- The fields have the node's function quantified existentially and universally. -/
def QuantifyMeets (S : Set ℕ) (f r : Bdd) (o : Option Bdd) : Prop :=
  Quantifies true S f.eval r.eval ∧ ∃ a, o = some a ∧ Quantifies false S f.eval a.eval

theorem eval_compl_eq (f : Bdd) : f.compl.eval = fun ρ => !f.eval ρ := funext (Bdd.eval_compl f)

/-- An inverted input of a result matters only where the variable is left in it. -/
theorem Store.Shape.quantifies_flip (hs : σ.Shape cfg) {R : BddPtr} (hG : Stands cfg σ ext G f)
    (hR : Stands cfg σ ext R r) (hGaddr : G.addr ≠ cfg.addr1) (hq : Quantifies b S g.eval r.eval)
    (hg : ∀ w, Ignores f.eval w → Ignores g.eval w) (hne : σ.heap.varid G ≠ σ.heap.varid R) :
    Ignores r.eval (σ.heap.varid G) := by
  have hlt := hs.rank_lt hG.alive.edge hGaddr
  have hle : σ.rank G ≤ σ.rank R := hs.le_rank hR.alive.edge hR.denotes hlt.le
    fun w hw => hq.ignores (hg w (hs.ignores hG hw))
  have hrank : σ.rank G ≠ σ.rank R := fun h =>
    hne (hs.varid_eq_of_rank hG.alive.edge hR.alive.edge h hlt)
  refine hs.ignores hR ?_
  rw [hs.ranks_varid hG.alive.edge hlt]
  omega

section Read

variable {visited : List Visited} {q : Package × Aux}

/-- The fields are read with the bits of the edge. -/
theorem Passing.quantifyInterpretModBits (h : Passing cfg σ₀ ext (QuantifyMeets S) visited q)
    (hs : σ₀.Shape cfg) (hsub : visited.flatMap Visited.owned ⊆ own) (hσ : Holds cfg σ₀ ext own σ)
    (hG : Stands cfg σ₀ ext G g) (hmem : G.addr ∈ visited.map Visited.addr) (b : Bool) :
    ∃ Q r, σ.quantifyInterpretModBits cfg b q.2 G = some Q ∧ Quantifies b S g.eval r.eval ∧
      Holds cfg σ₀ ext ((Q.1, r) :: own) Q.2 := by
  obtain ⟨x, hx, hxG, hfields⟩ := h.lookup hmem
  have hok := h.ok x hx
  obtain ⟨hexists, a, ha, hforall⟩ := hok.meets
  have hptr : Stands cfg σ₀ ext G.ptr x.diagram := by
    have hst := hok.stands
    rwa [hxG] at hst
  have hg : g = x.diagram.turn G.inv G.neg :=
    hG.denotes.functional (hs.denotes_turn hG.alive.edge hptr.denotes)
  obtain ⟨second, hsecond, rfl⟩ := Option.map_eq_some_iff.1 ha
  have howned : ∀ e ∈ x.owned, e ∈ own := fun e he => hsub (List.mem_flatMap.2 ⟨x, hx, he⟩)
  have hE := hσ.mem (howned x.first List.mem_cons_self)
  have hA := hσ.mem (howned second (by simp [Visited.owned, hsecond]))
  have hentry : x.entry.2 = (x.first.1, some second.1) := by
    rw [Visited.entry, hsecond]
    rfl
  set f := if G.neg then x.diagram.compl else x.diagram with hf
  -- the field for the quantifier that is left under the complement
  set R := if b then (if G.neg then second.1.compl else x.first.1)
    else if G.neg then x.first.1.compl else second.1 with hR
  obtain ⟨k, hk, hquant⟩ : ∃ k, Stands cfg σ (ext + refs (own.map Prod.fst)) R k ∧
      Quantifies b S f.eval k.eval := by
    rw [hf, hR]
    cases b <;> cases G.neg
    · exact ⟨_, hA, hforall⟩
    · refine ⟨_, hE.compl, ?_⟩
      rw [if_pos rfl, eval_compl_eq, eval_compl_eq]
      exact hexists.compl
    · exact ⟨_, hE, hexists⟩
    · refine ⟨_, hA.compl, ?_⟩
      rw [if_pos rfl, eval_compl_eq, eval_compl_eq]
      exact hforall.compl
  rw [Package.quantifyInterpretModBits, hfields, Option.bind_some, hentry, Option.bind_some]
  dsimp only
  rw [← hR]
  have hσG := hσ.base hG
  have hσptr := hσ.base hptr
  by_cases hinv : G.inv = true
  · have haddr : G.addr ≠ cfg.addr1 := fun h1 => by
      rw [hG.alive.edge.const h1] at hinv
      cases hinv
    obtain ⟨p, m, hdiagram, hp, hm, -, -⟩ := hσptr.branches hσ.inv.shape haddr
    have hvarid : σ.heap.varid G.ptr = σ.heap.varid G := rfl
    rw [hvarid] at hdiagram hp hm
    have hgeval : ∀ ρ, g.eval ρ = f.eval (flipAt (σ.heap.varid G) ρ) := by
      intro ρ
      rw [hg, hf, Bdd.turn, if_pos hinv, hdiagram]
      cases G.neg with
      | false => exact eval_swap hp hm ρ
      | true =>
        rw [if_pos rfl, if_pos rfl, Bdd.eval_compl, Bdd.eval_compl, eval_swap hp hm]
    have hflip := hquant.flip (σ.heap.varid G)
    split_ifs with htop
    · obtain ⟨Q, r, hQ, hr, h'⟩ := hσ.call (hσ.inv.invertInputTop hk)
      have hRaddr : R.addr ≠ cfg.addr1 := by
        intro h1
        have hlt := (hσ.inv.shape.varid_lt hσG.alive.edge haddr).trans_le hσ.inv.shape.count_le
        rw [htop.2, Heap.varid, h1, hσ.inv.shape.constVarid] at hlt
        exact lt_irrefl _ hlt
      refine ⟨Q, r, hQ, (hflip.congr fun ρ => ?_).congr_left hgeval, h'⟩
      rw [hr, if_neg hRaddr, ← htop.2]
    · have hne : σ.heap.varid G ≠ σ.heap.varid R := fun heq => htop ⟨hinv, heq⟩
      have hign := hσ.inv.shape.quantifies_flip hσptr hk haddr hquant (fun w hw => by
        rw [hf]
        split
        · rw [eval_compl_eq]
          exact fun ρ c => congrArg (!·) (hw ρ c)
        · exact hw) hne
      exact ⟨_, k, rfl, (hflip.congr fun ρ => (hign.flipAt ρ).symm).congr_left hgeval,
        hσ.incrRef hk⟩
  · rw [if_neg fun h' => hinv h'.1]
    refine ⟨_, k, rfl, ?_, hσ.incrRef hk⟩
    rw [Bool.not_eq_true] at hinv
    rw [hg, Bdd.turn, hinv]
    exact hquant

/-- Both branches give a partial result of the node. -/
theorem Passing.quantifyPart (h : Passing cfg σ₀ ext (QuantifyMeets S) visited q)
    (hs : σ₀.Shape cfg) (hsub : visited.flatMap Visited.owned ⊆ own) (hσ : Holds cfg σ₀ ext own σ)
    {T E : BddPtr} {p m : Bdd} (hT : Stands cfg σ₀ ext T p) (hE : Stands cfg σ₀ ext E m)
    (hTmem : T.addr ∈ visited.map Visited.addr) (hEmem : E.addr ∈ visited.map Visited.addr)
    {join : Package → BddPtr → BddPtr → Option (BddPtr × Package)} {P : Bdd → Prop}
    (hjoin : ∀ {σ : Package} {R₁ R₂ : BddPtr} {t e : Bdd},
      Holds cfg σ₀ ext ((R₂, e) :: (R₁, t) :: own) σ → Quantifies b S p.eval t.eval →
        Quantifies b S m.eval e.eval → ∃ Q r, join σ R₁ R₂ = some Q ∧ P r ∧
          Holds cfg σ₀ ext ((Q.1, r) :: (R₂, e) :: (R₁, t) :: own) Q.2) :
    ∃ Q r, quantifyPart cfg b q.2 T E join σ = some Q ∧ P r ∧
      Holds cfg σ₀ ext ((Q.1, r) :: own) Q.2 := by
  obtain ⟨Q₁, t, hQ₁, ht, h₁⟩ := h.quantifyInterpretModBits hs hsub hσ hT hTmem b
  obtain ⟨Q₂, e, hQ₂, he, h₂⟩ := h.quantifyInterpretModBits hs
    (List.subset_cons_of_subset _ hsub) h₁ hE hEmem b
  obtain ⟨R, r, hR, hr, h₃⟩ := hjoin h₂ ht he
  obtain ⟨σ₁, hfree₁, h₄⟩ := h₃.free_third rfl
  obtain ⟨σ₂, hfree₂, h₅⟩ := h₄.free_second rfl
  refine ⟨(R.1, σ₂), r, ?_, hr, h₅⟩
  simp only [BddPackage.quantifyPart, Package.joined, hQ₁, Option.bind_some, hQ₂, hR, hfree₁, hfree₂,
    Option.map_some]

end Read

/-! ### The list of variables -/

/-- The variables of the list are those of `S` from the rank `k` on, and earlier ones, in order. -/
structure VarsFrom (ranks : ℕ → ℕ) (S : Set ℕ) (k : ℕ) (vars : List ℤ) : Prop where
  lt : ∀ x ∈ vars, x.natAbs < bddTermid
  mem : ∀ x ∈ vars, x.natAbs ∈ S
  sorted : vars.Pairwise fun x y => ranks x.natAbs ≤ ranks y.natAbs
  all : ∀ v ∈ S, k ≤ ranks v → ∃ x ∈ vars, x.natAbs = v

/-- Those from the rank `k` on, the first one once -/
structure VarsAt (ranks : ℕ → ℕ) (S : Set ℕ) (k : ℕ) (vars : List ℤ) : Prop extends
    VarsFrom ranks S k vars where
  ge : ∀ x ∈ vars, k ≤ ranks x.natAbs
  once : ∀ x rest, vars = x :: rest → ∀ y ∈ rest, y.natAbs ≠ x.natAbs

variable {ranks : ℕ → ℕ} {vars : List ℤ} {x : ℤ} {s : Store}

theorem skipDuplicates_suffix (vars : List ℤ) : skipDuplicates vars <:+ vars := by
  fun_induction skipDuplicates vars with
  | case1 x y rest _ ih => exact ih.trans (List.suffix_cons _ _)
  | case2 x y rest _ => exact List.suffix_rfl
  | case3 vars _ => exact List.suffix_rfl

theorem mem_skipDuplicates (hx : x ∈ vars) : ∃ y ∈ skipDuplicates vars, y.natAbs = x.natAbs := by
  fun_induction skipDuplicates vars generalizing x with
  | case1 z y rest heq ih =>
    rcases List.mem_cons.1 hx with rfl | hx
    · obtain ⟨w, hw, hwy⟩ := ih List.mem_cons_self
      exact ⟨w, hw, hwy.trans heq⟩
    · exact ih hx
  | case2 z y rest _ => exact ⟨x, hx, rfl⟩
  | case3 vars _ => exact ⟨x, hx, rfl⟩

theorem skipDuplicates_once (hinj : Function.Injective ranks)
    (hsorted : vars.Pairwise fun x y => ranks x.natAbs ≤ ranks y.natAbs) (x : ℤ) (rest : List ℤ)
    (heq : skipDuplicates vars = x :: rest) : ∀ y ∈ rest, y.natAbs ≠ x.natAbs := by
  fun_induction skipDuplicates vars with
  | case1 z y rest' _ ih => exact ih hsorted.of_cons heq
  | case2 z y rest' hne =>
    injection heq with hz hrest
    subst hz
    subst hrest
    intro w hw hwz
    rw [List.pairwise_cons] at hsorted
    have hzy := hsorted.1 y List.mem_cons_self
    have hyz : ranks y.natAbs ≤ ranks z.natAbs := by
      rcases List.mem_cons.1 hw with rfl | hw
      · rw [hwz]
      · rw [← hwz]
        exact List.rel_of_pairwise_cons hsorted.2 hw
    exact hne (hinj (hyz.antisymm hzy))
  | case3 vars hno =>
    intro y hy
    subst heq
    cases rest with
    | nil => cases hy
    | cons z rest => exact absurd rfl (hno x z rest)

/-- Variables before the rank `k` are dropped. -/
theorem VarsFrom.drop (h : VarsFrom ranks S k vars) (hranks : s.ranks = ranks) :
    VarsFrom ranks S k (vars.dropWhile fun x => decide (s.varRank x.natAbs < k)) ∧
      ∀ x ∈ vars.dropWhile (fun x => decide (s.varRank x.natAbs < k)), k ≤ ranks x.natAbs := by
  have hvarRank : ∀ y ∈ vars, s.varRank y.natAbs = ranks y.natAbs := fun y hy => by
    rw [Store.varRank, if_neg (h.lt y hy).ne, hranks]
  set l := vars.dropWhile fun x => decide (s.varRank x.natAbs < k) with hl
  have hsuffix : l <:+ vars := List.dropWhile_suffix _
  have hsorted := h.sorted.sublist hsuffix.sublist
  have hdrop : ∀ y ∈ vars, k ≤ ranks y.natAbs → y ∈ l := by
    intro y hy hk
    rw [← List.takeWhile_append_dropWhile (p := fun x : ℤ => decide (s.varRank x.natAbs < k))
      (l := vars)] at hy
    rcases List.mem_append.1 hy with hy | hy
    · have hlt := List.mem_takeWhile_imp hy
      rw [decide_eq_true_iff, hvarRank y (List.takeWhile_subset _ hy)] at hlt
      omega
    · exact hy
  refine ⟨⟨fun y hy => h.lt y (hsuffix.subset hy), fun y hy => h.mem y (hsuffix.subset hy), hsorted,
    fun v hv hk => ?_⟩, ?_⟩
  · obtain ⟨y, hy, rfl⟩ := h.all v hv hk
    exact ⟨y, hdrop y hy hk, rfl⟩
  · cases hcase : l with
    | nil => exact fun y hy => absurd hy List.not_mem_nil
    | cons z rest =>
      have hz : ¬s.varRank z.natAbs < k := by
        have hhead := List.head?_dropWhile_not (fun x : ℤ => decide (s.varRank x.natAbs < k)) vars
        rw [← hl, hcase] at hhead
        simpa using hhead
      rw [hvarRank z (hsuffix.subset (by simp [hcase]))] at hz
      intro y hy
      rcases List.mem_cons.1 hy with rfl | hy
      · exact Nat.not_lt.1 hz
      · rw [hcase] at hsorted
        exact (Nat.not_lt.1 hz).trans (List.rel_of_pairwise_cons hsorted hy)

theorem VarsFrom.skip (h : VarsFrom ranks S k vars) (hinj : Function.Injective ranks)
    (hranks : s.ranks = ranks) : VarsAt ranks S k ((quantifyPass cfg).skip s k vars) := by
  obtain ⟨hl, hge⟩ := h.drop hranks
  set l := vars.dropWhile fun x => decide (s.varRank x.natAbs < k) with hdef
  have hsuffix : skipDuplicates l <:+ l := skipDuplicates_suffix l
  exact {
    lt := fun y hy => hl.lt y (hsuffix.subset hy)
    mem := fun y hy => hl.mem y (hsuffix.subset hy)
    sorted := hl.sorted.sublist hsuffix.sublist
    all := fun v hv hk => by
      obtain ⟨y, hy, rfl⟩ := hl.all v hv hk
      exact mem_skipDuplicates hy
    ge := fun y hy => hge y (hsuffix.subset hy)
    once := skipDuplicates_once hinj hl.sorted }

/-- The list starts at the rank of a variable that is in `S`, and at no other. -/
theorem VarsFrom.startsAt_iff (h : VarsFrom ranks S k vars) (hge : ∀ x ∈ vars, k ≤ ranks x.natAbs)
    (hinj : Function.Injective ranks) (hranks : s.ranks = ranks) (hvars : vars ≠ [])
    (hv : ranks v = k) : startsAt s k vars = true ↔ v ∈ S := by
  obtain ⟨x, rest, rfl⟩ := List.exists_cons_of_ne_nil hvars
  have hvarRank : s.varRank x.natAbs = ranks x.natAbs := by
    rw [Store.varRank, if_neg (h.lt x List.mem_cons_self).ne, hranks]
  have htop : startsAt s k (x :: rest) = true ↔ x.natAbs = v := by
    rw [startsAt, List.head?_cons, Option.any_some, decide_eq_true_iff, hvarRank, ← hv]
    exact hinj.eq_iff
  rw [htop]
  constructor
  · rintro rfl
    exact h.mem x List.mem_cons_self
  · intro hS
    obtain ⟨y, hy, rfl⟩ := h.all v hS hv.ge
    rcases List.mem_cons.1 hy with rfl | hy
    · rfl
    · have hle := List.rel_of_pairwise_cons h.sorted hy
      have := hge x List.mem_cons_self
      exact hinj (by omega)

/-! ### The pass -/

theorem Heap.cofactorPos_ptr {h : Heap} (hterm : h.termP F = false) :
    h.cofactorPos F.ptr = h.thenLink F := by
  rw [Heap.cofactorPos_eq (F := F.ptr) hterm]
  exact BddPtr.complIf_false _

theorem Heap.cofactorNeg_ptr {h : Heap} (hterm : h.termP F = false) :
    h.cofactorNeg F.ptr = h.elseLink F := by
  rw [Heap.cofactorNeg_eq (F := F.ptr) hterm]
  exact BddPtr.complIf_false _

/-- A node has the links that it had at the beginning. -/
theorem Holds.node_eq (h : Holds cfg σ₀ ext own σ) (hF : Stands cfg σ₀ ext F.ptr f) :
    σ.heap F.addr = σ₀.heap F.addr := h.keeps.heap _ hF.alive.reach

theorem stops_iff (hs : σ₀.Shape cfg) (hσ : Holds cfg σ₀ ext own σ) (hF : Stands cfg σ₀ ext F.ptr f) :
    (quantifyPass cfg).stops σ.toStore F vars = true ↔ vars = [] ∨ F.addr = cfg.addr1 := by
  have hterm : σ.heap.termP F = σ₀.heap.termP F.ptr := by
    rw [Heap.termP, Heap.varid, hσ.node_eq hF]
    rfl
  change (vars.isEmpty || σ.heap.termP F) = true ↔ _
  rw [Bool.or_eq_true, List.isEmpty_iff, hterm, hs.termP_iff hF.alive.edge]
  rfl

/-- A node that depends on no variable of the list is its own result. -/
theorem quantifyMeets_self (hs : σ₀.Shape cfg) (hF : Stands cfg σ₀ ext F.ptr f)
    (h : VarsAt σ₀.ranks S (σ₀.rank F) vars) (hstop : vars = [] ∨ F.addr = cfg.addr1) :
    QuantifyMeets S f f (some f) := by
  have hnot : ∀ w ∈ f.vars, w ∉ S := by
    rcases hstop with rfl | haddr
    · intro w hw hS
      obtain ⟨x, hx, _⟩ := h.all w hS ((hF.isReduced hs).le_rank hw)
      cases hx
    · rcases hF.denotes.eq_of_addr haddr with ⟨_, rfl⟩ | ⟨_, rfl⟩ <;>
        exact fun w hw => absurd hw List.not_mem_nil
  have hself : ∀ b, Quantifies b S f.eval f.eval := fun b =>
    .self fun ρ y hy => Bdd.eval_congr f fun w hw => hy w (hnot w hw)
  exact ⟨hself true, f, rfl, hself false⟩

theorem quantifyPass_spec (hs : σ₀.Shape cfg) : PassSpec (quantifyPass cfg) cfg σ₀ ext
    (QuantifyMeets S) (VarsFrom σ₀.ranks S) (VarsAt σ₀.ranks S) where
  mono h hle := ⟨h.lt, h.mem, h.sorted, fun v hv hk => h.all v hv (hle.trans hk)⟩
  skip hranks h := h.skip hs.ranks_injective hranks
  leaf := by
    intro σ own F f vars hσ hF h hstops
    have hf := hσ.base hF
    exact ⟨_, ⟨F.addr, f, (F.ptr, f), some (F.ptr, f)⟩, rfl, rfl, rfl,
      quantifyMeets_self hs hF h ((stops_iff hs hσ hF).1 hstops),
      (hσ.incrRef hf).incrRef (hf.incrRef _)⟩
  below := by
    intro σ own F f vars hσ hF h hstops
    have hno : ¬(vars = [] ∨ F.addr = cfg.addr1) := fun hor => by
      rw [(stops_iff hs hσ hF).2 hor] at hstops
      cases hstops
    rw [not_or] at hno
    refine ⟨hno.2, ?_⟩
    have hrankF : σ₀.rank F = σ₀.ranks (σ₀.heap.varid F) :=
      hs.rank_eq (F := F.ptr) hF.alive.edge hno.2
    have htop := h.startsAt_iff h.ge hs.ranks_injective hσ.ranks hno.1 hrankF.symm
    have hrank : σ.rank F = σ₀.rank F := hσ.base_rank (F := F.ptr) hF
    change VarsFrom σ₀.ranks S _ (if startsAt σ.toStore (σ.rank F) vars then vars.tail else vars)
    rw [hrank]
    split
    · rename_i hin
      have hsub : vars.tail ⊆ vars := List.tail_subset vars
      refine ⟨fun x hx => h.lt x (hsub hx), fun x hx => h.mem x (hsub hx), h.sorted.tail,
        fun v hv hk => ?_⟩
      obtain ⟨y, hy, rfl⟩ := h.all v hv (Nat.le_of_succ_le hk)
      obtain ⟨x, rest, rfl⟩ := List.exists_cons_of_ne_nil hno.1
      refine ⟨y, (List.mem_cons.1 hy).resolve_left ?_, rfl⟩
      -- the first variable is that of the node
      rintro rfl
      obtain ⟨z, hz, hzF⟩ := h.all _ (htop.1 hin) hrankF.le
      rcases List.mem_cons.1 hz with rfl | hz
      · rw [hzF, ← hrankF] at hk
        exact absurd hk (Nat.not_succ_le_self _)
      · have hle := List.rel_of_pairwise_cons h.sorted hz
        rw [hzF, ← hrankF] at hle
        omega
    · exact ⟨h.lt, h.mem, h.sorted, fun v hv hk => h.all v hv (Nat.le_of_succ_le hk)⟩
  fields := by
    rintro q visited F f vars hpass hF h haddr ⟨σ', own', hσ', hstops⟩ hT hE
    have hvars : vars ≠ [] := fun hnil => by
      rw [(stops_iff hs hσ' hF).2 (.inl hnil)] at hstops
      cases hstops
    have hσ := hpass.holds
    have hnode := hσ.node_eq hF
    have hthen : q.1.heap.thenLink F = σ₀.heap.thenLink F := congrArg Node.thenLink hnode
    have helse : q.1.heap.elseLink F = σ₀.heap.elseLink F := congrArg Node.elseLink hnode
    have hvarid : q.1.heap.varid F = σ₀.heap.varid F := congrArg Node.varid hnode
    have hterm : σ₀.heap.termP F = false := hs.termP_eq_false (F := F.ptr) hF.alive.edge haddr
    obtain ⟨p, m, rfl, hp, hm, hTp, hEm⟩ := hF.branches hs haddr
    have hv : σ₀.heap.varid F.ptr = σ₀.heap.varid F := rfl
    rw [hv] at hp hm
    rw [Heap.cofactorPos_ptr hterm] at hTp
    rw [Heap.cofactorNeg_ptr hterm] at hEm
    have hlt : σ₀.heap.varid F < bddTermid :=
      (hs.varid_lt (F := F.ptr) hF.alive.edge haddr).trans_le hs.count_le
    have hrankF : σ₀.rank F = σ₀.ranks (σ₀.heap.varid F) :=
      hs.rank_eq (F := F.ptr) hF.alive.edge haddr
    have hrank : q.1.rank F = σ₀.rank F := hσ.base_rank (F := F.ptr) hF
    have htop := h.startsAt_iff h.ge hs.ranks_injective hσ.ranks hvars hrankF.symm
    have hself : visited.flatMap Visited.owned ⊆ visited.flatMap Visited.owned := List.Subset.refl _
    change Gives cfg σ₀ ext _ _ F _ (quantifyFields cfg q.1 q.2 F vars)
    rw [quantifyFields, hthen, helse, hvarid, hrank]
    by_cases hin : startsAt q.1.toStore (σ₀.rank F) vars = true
    · have hS := htop.1 hin
      -- the connective joins the partial results as the quantifier does
      have hjoin : ∀ {own : List (BddPtr × Bdd)} (b : Bool) (c : Connective),
          (∀ x y, c.eval x y = b ↔ x = b ∨ y = b) → visited.flatMap Visited.owned ⊆ own →
          ∀ {σ : Package}, Holds cfg σ₀ ext own σ → ∃ Q r,
            quantifyPart cfg b q.2 (σ₀.heap.thenLink F) (σ₀.heap.elseLink F)
              (fun σ R₁ R₂ => σ.connective cfg c R₁ R₂) σ = some Q ∧
            Quantifies b S (Bdd.node (σ₀.heap.varid F) p m).eval r.eval ∧
            Holds cfg σ₀ ext ((Q.1, r) :: own) Q.2 := by
        intro own b c hc hsub σ hown
        refine hpass.quantifyPart hs hsub hown hTp hEm hT hE fun h' ht he => ?_
        obtain ⟨Q, r, hQ, hr, h''⟩ := h'.connective c (h'.mem (List.mem_cons_of_mem _ List.mem_cons_self))
          (h'.mem List.mem_cons_self)
        exact ⟨Q, r, hQ, .mem hS (fun _ => rfl) hp hm ht he fun ρ => by rw [hr, hc], h''⟩
      obtain ⟨Q₁, r₁, hQ₁, hr₁, h₁⟩ := hjoin true .or (by decide) hself hσ
      obtain ⟨Q₂, r₂, hQ₂, hr₂, h₂⟩ := hjoin false .and (by decide) (List.subset_cons_of_subset _ hself) h₁
      refine ⟨((Q₁.1, some Q₂.1), Q₂.2), ⟨F.addr, _, (Q₁.1, r₁), some (Q₂.1, r₂)⟩, ?_, rfl, rfl,
        ⟨hr₁, r₂, rfl, hr₂⟩, h₂.perm (.swap _ _ _)⟩
      rw [if_pos hin, hQ₁, Option.bind_some, hQ₂, Option.map_some]
    · have hS : σ₀.heap.varid F ∉ S := fun hS => hin (htop.2 hS)
      obtain ⟨V, w, hV, hw, h₀⟩ := hσ.createVar hlt
      have hjoin : ∀ {own : List (BddPtr × Bdd)} (b : Bool), (V.1, w) ∈ own →
          visited.flatMap Visited.owned ⊆ own → ∀ {σ : Package}, Holds cfg σ₀ ext own σ → ∃ Q r,
            quantifyPart cfg b q.2 (σ₀.heap.thenLink F) (σ₀.heap.elseLink F)
              (fun σ R₁ R₂ => σ.ite cfg V.1 R₁ R₂) σ = some Q ∧
            Quantifies b S (Bdd.node (σ₀.heap.varid F) p m).eval r.eval ∧
            Holds cfg σ₀ ext ((Q.1, r) :: own) Q.2 := by
        intro own b hVin hsub σ hown
        refine hpass.quantifyPart hs hsub hown hTp hEm hT hE fun h' ht he => ?_
        obtain ⟨Q, r, hQ, hr, h''⟩ := h'.ite
          (h'.mem (List.mem_cons_of_mem _ (List.mem_cons_of_mem _ hVin)))
          (h'.mem (List.mem_cons_of_mem _ List.mem_cons_self)) (h'.mem List.mem_cons_self)
        exact ⟨Q, r, hQ, .notMem hS (fun _ => rfl) ht he fun ρ => by rw [hr, hw], h''⟩
      have hsub := List.subset_cons_of_subset (V.1, w) hself
      obtain ⟨Q₁, r₁, hQ₁, hr₁, h₁⟩ := hjoin true List.mem_cons_self hsub h₀
      obtain ⟨Q₂, r₂, hQ₂, hr₂, h₂⟩ := hjoin false (List.mem_cons_of_mem _ List.mem_cons_self)
        (List.subset_cons_of_subset _ hsub) h₁
      obtain ⟨σ₁, hfree, h₃⟩ := h₂.free_third rfl
      refine ⟨((Q₁.1, some Q₂.1), σ₁), ⟨F.addr, _, (Q₁.1, r₁), some (Q₂.1, r₂)⟩, ?_, rfl, rfl,
        ⟨hr₁, r₂, rfl, hr₂⟩, h₃.perm (.swap _ _ _)⟩
      rw [if_neg hin, hV, Option.bind_some, hQ₁, Option.bind_some, hQ₂, Option.bind_some, hfree,
        Option.map_some]

/-- The pass of `bdd_quantify_aux` and what is read after it -/
theorem Package.Inv.quantifyResult (hi : σ.Inv cfg ext) (hF : Stands cfg σ ext F f) (b : Bool)
    (hvars : VarsFrom σ.ranks S (σ.rank F) vars) :
    ∃ q, (quantifyPass cfg).result
        (fun σ' aux f' => σ'.quantifyInterpretModBits cfg b aux f') σ F vars = some q ∧
      Returns cfg σ ext (fun r => Quantifies b S f.eval r.eval) q :=
  (quantifyPass_spec hi.shape).result hi hF.alive hvars fun hpass hmem =>
    hpass.quantifyInterpretModBits hi.shape (List.Subset.refl _) hpass.holds hF hmem b

/-- `bdd_quantify` quantifies over the variables of a list that is in the order of the ranks. -/
theorem Package.Inv.quantify (hi : σ.Inv cfg ext) (hF : Stands cfg σ ext F f) (b : Bool)
    {vars : List ℤ} (hlt : ∀ x ∈ vars, x.natAbs < bddTermid)
    (hsorted : vars.Pairwise fun x y => σ.ranks x.natAbs ≤ σ.ranks y.natAbs) :
    ∃ q, σ.quantify cfg b F vars = some q ∧
      Returns cfg σ ext (fun r => Quantifies b {v | ∃ x ∈ vars, x.natAbs = v} f.eval r.eval) q := by
  have hs := hi.shape
  unfold Package.quantify
  split_ifs with hbase
  · refine ⟨_, rfl, hi.returns hF.alive hF.denotes (.self fun ρ y hy => ?_)⟩
    rcases hbase with rfl | hterm
    · rw [funext fun u => hy u (by simp)]
    · rcases hF.denotes.eq_of_addr ((hs.termP_iff hF.alive.edge).1 hterm) with ⟨_, rfl⟩ | ⟨_, rfl⟩ <;> rfl
  · have hvalid : VarsFrom σ.ranks {v | ∃ x ∈ vars, x.natAbs = v} (σ.rank F) vars :=
      ⟨hlt, fun x hx => ⟨x, hx, rfl⟩, hsorted, fun v hv _ => hv⟩
    exact hi.quantifyResult hF b hvalid

end PVS.BddPackage
