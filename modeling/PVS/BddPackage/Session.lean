import Mathlib
import PVS.BddPackage.Quantify

/-! A client calls the package again and again; in every run it computes what it should. -/

namespace PVS.BddPackage

open Library

/-! ### The calls of a client -/

/-- An edge that a client can name: one that it holds, by its place, or `BDD_1`, and their
complements. -/
structure Operand where
  place : ℕ
  neg : Bool

namespace Operand

def edge (cfg : Config) (held : List BddPtr) (x : Operand) : BddPtr :=
  (held.getD x.place cfg.bdd1).complIf x.neg

def diagram (ds : List Bdd) (x : Operand) : Bdd :=
  if x.neg then (ds.getD x.place .one).compl else ds.getD x.place .one

end Operand

/-- A list of variables "in an increasing order according their rank numbers", which are those of
`bdd_init` -/
structure VarList where
  vars : List ℤ
  lt : ∀ x ∈ vars, x.natAbs < bddTermid
  sorted : vars.Pairwise fun x y => x.natAbs ≤ y.natAbs

def VarList.set (l : VarList) : Set ℕ := {v | ∃ x ∈ l.vars, x.natAbs = v}

/-- A call that returns an edge. -/
inductive Call
  | createVar (v : ℤ) (hv : v.natAbs ≤ bddTermid)
  | ite (F G H : Operand)
  | connective (c : Connective) (F G : Operand)
  | constrain (F C : Operand)
  | restrict (F C : Operand)
  | quantify (existential : Bool) (F : Operand) (l : VarList)
  | assign (F : Operand)

namespace Call

def run (cfg : Config) (σ : Package) (held : List BddPtr) : Call → Option (BddPtr × Package)
  | createVar v _ => σ.createVar cfg v
  | ite F G H => σ.ite cfg (F.edge cfg held) (G.edge cfg held) (H.edge cfg held)
  | connective c F G => σ.connective cfg c (F.edge cfg held) (G.edge cfg held)
  | constrain F C => σ.constrain cfg (F.edge cfg held) (C.edge cfg held)
  | restrict F C => σ.restrict cfg (F.edge cfg held) (C.edge cfg held)
  | quantify b F l => σ.quantify cfg b (F.edge cfg held) l.vars
  | assign F => some (F.edge cfg held, σ.incrRef (F.edge cfg held))

/-- The calls that return `BDD_VOID`: restriction to an empty set yields no function. -/
def void (cfg : Config) (held : List BddPtr) : Call → Bool
  | constrain _ C => decide (C.edge cfg held = cfg.bdd0)
  | restrict _ C => decide (C.edge cfg held = cfg.bdd0)
  | _ => false

/-- The purpose of a call: `r` is right for the diagrams that are held. -/
def Meets (ds : List Bdd) (r : Bdd) : Call → Prop
  | createVar v _ => ∀ ρ, r.eval ρ = Package.literal v ρ
  | ite F G H => ∀ ρ, r.eval ρ =
      if (F.diagram ds).eval ρ then (G.diagram ds).eval ρ else (H.diagram ds).eval ρ
  | connective c F G => ∀ ρ, r.eval ρ = c.eval ((F.diagram ds).eval ρ) ((G.diagram ds).eval ρ)
  | constrain F C => CacheFn.bddConstrain.Meets (F.diagram ds) (C.diagram ds) r
  | restrict F C => CacheFn.bddRestrict.Meets (F.diagram ds) (C.diagram ds) r
  | quantify b F l => Quantifies b l.set (F.diagram ds).eval r.eval
  | assign F => r = F.diagram ds

def OnEmpty (ds : List Bdd) : Call → Prop
  | constrain _ C => C.diagram ds = .zero
  | restrict _ C => C.diagram ds = .zero
  | _ => False

end Call

inductive Command
  | call (c : Call)
  | bddFree (i : ℕ)
  | bddGc

/-- The package and the edges that its client holds, the newest first -/
structure Session where
  package : Package
  held : List BddPtr

namespace Session

def start (cfg : Config) (log2size : ℕ) : Session := ⟨Package.init cfg log2size, []⟩

/-- What is returned is held, until it is freed. -/
def step (cfg : Config) (s : Session) : Command → Option Session
  | .call c =>
      if c.void cfg s.held = true then some s
      else (c.run cfg s.package s.held).map fun q => ⟨q.2, q.1 :: s.held⟩
  | .bddFree i => s.held[i]?.elim (some s) fun F =>
      (s.package.bddFree F).map fun σ => ⟨σ, s.held.eraseIdx i⟩
  | .bddGc => some ⟨s.package.bddGc cfg, s.held⟩

def run (cfg : Config) (s : Session) (commands : List Command) : Option Session :=
  commands.foldlM (step cfg) s

theorem run_append (cfg : Config) (s : Session) (commands commands' : List Command) :
    s.run cfg (commands ++ commands') =
      (s.run cfg commands).bind fun s' => s'.run cfg commands' := List.foldlM_append

end Session

/-- A step on the diagrams that are held. -/
inductive Steps : Command → List Bdd → List Bdd → Prop
  | call {c : Call} {ds : List Bdd} {r : Bdd} : c.Meets ds r → Steps (.call c) ds (r :: ds)
  | void {c : Call} {ds : List Bdd} : c.OnEmpty ds → Steps (.call c) ds ds
  | bddFree {i : ℕ} {ds : List Bdd} : Steps (.bddFree i) ds (ds.eraseIdx i)
  | bddGc {ds : List Bdd} : Steps .bddGc ds ds

/-- A run on the diagrams that are held. -/
inductive Runs : List Command → List Bdd → List Bdd → Prop
  | nil {ds : List Bdd} : Runs [] ds ds
  | cons {c : Command} {commands : List Command} {ds ds' ds'' : List Bdd} :
      Steps c ds ds' → Runs commands ds' ds'' → Runs (c :: commands) ds ds''

theorem Runs.free_all {ds ds' : List Bdd}
    (h : Runs (List.replicate ds.length (.bddFree 0)) ds ds') : ds' = [] := by
  induction ds with
  | nil =>
    cases h
    rfl
  | cons d ds ih =>
    rw [List.length_cons, List.replicate_succ] at h
    cases h with
    | cons hstep hruns =>
      cases hstep
      exact ih hruns

variable {cfg : Config} {σ₀ σ : Package} {ext : ℕ → ℤ} {own : List (BddPtr × Bdd)}

/-! ### Nodes without a client -/

theorem Package.refcounts_ne_zero_of_bddGc (σ : Package) {a : ℕ} (ha : a ∈ (σ.bddGc cfg).nodes) :
    (σ.bddGc cfg).refcounts a ≠ 0 := by
  have hmem := (Package.nodes_bddGcAux cfg σ.flushComputedTable).mem_iff.1 ha
  have hlive : (!deadP σ.toCounters a) = true := (List.mem_filter.1 hmem).2
  change σ.refcounts a ≠ 0
  simpa [deadP] using hlive

theorem Package.Inv.exists_frozen (hi : σ.Inv cfg 0) (hlive : ∀ a ∈ σ.nodes, σ.refcounts a ≠ 0)
    (hne : σ.nodes ≠ []) : ∃ a ∈ σ.nodes, σ.refcounts a = bddMaxrefcount := by
  have hs := hi.shape
  obtain ⟨a, ha, hleast⟩ := σ.nodes.toFinset.exists_min_image (fun a => σ.ranks (σ.heap a).varid)
    (List.toFinset_nonempty_iff _ |>.2 hne)
  have ha := List.mem_toFinset.1 ha
  refine ⟨a, ha, (hi.counted.eq a (List.mem_cons_of_mem _ ha)).resolve_right fun heq => ?_⟩
  -- a link to `a` comes from a node of a smaller rank
  have hlink : ∀ b ∈ σ.nodes, ∀ F : BddPtr, σ.IsEdge cfg F →
      σ.ranks (σ.heap b).varid < σ.rank F → F.addr ≠ a := by
    rintro b hb F hF hlt rfl
    have haddr : F.addr ≠ cfg.addr1 := fun h => hs.const_notMem (h ▸ ha)
    rw [hs.rank_eq hF haddr] at hlt
    exact absurd (hleast b (List.mem_toFinset.2 hb)) (Nat.not_le.2 hlt)
  have hzero : σ.inDegree σ.toCounters a = 0 := by
    refine List.sum_eq_zero fun x hx => ?_
    obtain ⟨b, hb, rfl⟩ := List.mem_map.1 hx
    have hn := hs.node b hb
    rw [if_neg (hlive b hb), Node.linksTo, if_neg (hlink b hb _ hn.thenEdge hn.rank_then),
      if_neg (hlink b hb _ hn.elseEdge hn.rank_else), add_zero]
  rw [hzero, Pi.zero_apply, add_zero] at heq
  exact hlive a ha (by exact_mod_cast heq)

/-! ### A step of the package is one on the diagrams -/

namespace Holds

variable (h : Holds cfg σ₀ ext own σ)
include h

theorem operand (x : Operand) : Stands cfg σ (ext + refs (own.map Prod.fst))
    (x.edge cfg (own.map Prod.fst)) (x.diagram (own.map Prod.snd)) := by
  have hplace : Stands cfg σ (ext + refs (own.map Prod.fst))
      ((own.map Prod.fst).getD x.place cfg.bdd1) ((own.map Prod.snd).getD x.place .one) := by
    by_cases hx : x.place < own.length
    · have hmem := h.mem (List.getElem_mem hx)
      simpa [List.getD_eq_getElem?_getD, hx] using hmem
    · simpa [List.getD_eq_getElem?_getD, hx] using Stands.bdd1
  unfold Operand.edge Operand.diagram
  cases x.neg with
  | false => simpa using hplace
  | true => simpa using hplace.compl

/-- A function has one edge among those that a client can name. -/
theorem edge_eq_iff (x y : Operand) :
    x.edge cfg (own.map Prod.fst) = y.edge cfg (own.map Prod.fst) ↔
      ∀ ρ, (x.diagram (own.map Prod.snd)).eval ρ = (y.diagram (own.map Prod.snd)).eval ρ := by
  have hx := h.operand x
  have hy := h.operand y
  constructor
  · intro heq ρ
    have hdenotes := hx.denotes
    rw [heq] at hdenotes
    rw [hdenotes.functional hy.denotes]
  · intro heval
    exact h.inv.shape.eq_of_computes hx.alive.edge hy.alive.edge ⟨_, hx.denotes, heval⟩
      ⟨_, hy.denotes, fun _ => rfl⟩

theorem sorted (hranks : σ₀.ranks = id) (l : VarList) :
    l.vars.Pairwise fun x y => σ.ranks x.natAbs ≤ σ.ranks y.natAbs := by
  rw [h.ranks, hranks]
  exact l.sorted

theorem run_call (hranks : σ₀.ranks = id) (c : Call)
    (hvoid : c.void cfg (own.map Prod.fst) = false) :
    ∃ q r, c.run cfg σ (own.map Prod.fst) = some q ∧ c.Meets (own.map Prod.snd) r ∧
      Holds cfg σ₀ ext ((q.1, r) :: own) q.2 := by
  cases c with
  | createVar v hv => exact h.call (h.inv.createVar v hv)
  | ite F G H => exact h.ite (h.operand F) (h.operand G) (h.operand H)
  | connective c F G => exact h.connective c (h.operand F) (h.operand G)
  | constrain F C =>
    have hF := h.operand F
    have hC := h.operand C
    exact h.call (h.inv.constrain hF.alive hC.alive hF.denotes hC.denotes (of_decide_eq_false hvoid))
  | restrict F C =>
    have hF := h.operand F
    have hC := h.operand C
    exact h.call (h.inv.restrict hF.alive hC.alive hF.denotes hC.denotes (of_decide_eq_false hvoid))
  | quantify b F l => exact h.call (h.inv.quantify (h.operand F) b l.lt (h.sorted hranks l))
  | assign F => exact ⟨_, _, rfl, rfl, h.incrRef (h.operand F)⟩

theorem onEmpty {c : Call} (hvoid : c.void cfg (own.map Prod.fst) = true) :
    c.OnEmpty (own.map Prod.snd) := by
  have hzero : ∀ C : Operand, C.edge cfg (own.map Prod.fst) = cfg.bdd0 →
      C.diagram (own.map Prod.snd) = .zero := by
    intro C hC
    have hdenotes := (h.operand C).denotes
    rw [hC] at hdenotes
    exact hdenotes.functional .zero
  cases c with
  | constrain F C => exact hzero C (of_decide_eq_true hvoid)
  | restrict F C => exact hzero C (of_decide_eq_true hvoid)
  | createVar | ite | connective | quantify | assign => cases hvoid

theorem bddGc : Holds cfg σ₀ ext own (σ.bddGc cfg) := by
  obtain ⟨hi, hheap, hranks⟩ := h.inv.bddGc
  have hkeeps : σ.Keeps cfg (ext + refs (own.map Prod.fst)) (σ.bddGc cfg).toStore :=
    ⟨hranks, fun a _ => by rw [hheap]⟩
  refine ⟨h.nonneg, hi, h.keeps.trans (hkeeps.mono (le_add_refs ext _)), fun e he => ?_⟩
  have he := h.mem he
  exact ⟨(hi.alive_keeps (fun _ => le_rfl) hkeeps he.alive).edge, hkeeps.denotes he.alive he.denotes⟩

theorem step (hranks : σ₀.ranks = id) (c : Command) :
    ∃ own' σ', Session.step cfg ⟨σ, own.map Prod.fst⟩ c = some ⟨σ', own'.map Prod.fst⟩ ∧
      Steps c (own.map Prod.snd) (own'.map Prod.snd) ∧ Holds cfg σ₀ ext own' σ' := by
  cases c with
  | call c =>
    cases hvoid : c.void cfg (own.map Prod.fst) with
    | false =>
      obtain ⟨q, r, hrun, hmeets, h'⟩ := h.run_call hranks c hvoid
      exact ⟨(q.1, r) :: own, q.2, by simp [Session.step, hvoid, hrun], .call hmeets, h'⟩
    | true => exact ⟨own, σ, by simp [Session.step, hvoid], .void (h.onEmpty hvoid), h⟩
  | bddFree i =>
    by_cases hlt : i < own.length
    · obtain ⟨σ', hfree, h'⟩ := h.free (List.getElem_cons_eraseIdx_perm hlt).symm
      have hget : (own.map Prod.fst)[i]? = some own[i].1 := by simp [hlt]
      refine ⟨own.eraseIdx i, σ', ?_, ?_, h'⟩
      · simp only [Session.step, hget, Option.elim_some, List.eraseIdx_map]
        exact congrArg (Option.map _) hfree
      · rw [← List.eraseIdx_map]
        exact .bddFree
    · refine ⟨own, σ, by simp [Session.step, hlt], ?_, h⟩
      have herase : (own.map Prod.snd).eraseIdx i = own.map Prod.snd :=
        List.eraseIdx_of_length_le (by simpa using hlt)
      have hfree : Steps (.bddFree i) (own.map Prod.snd) ((own.map Prod.snd).eraseIdx i) := .bddFree
      rwa [herase] at hfree
  | bddGc => exact ⟨own, _, rfl, .bddGc, h.bddGc⟩

theorem run (hranks : σ₀.ranks = id) (commands : List Command) :
    ∃ own' σ', Session.run cfg ⟨σ, own.map Prod.fst⟩ commands = some ⟨σ', own'.map Prod.fst⟩ ∧
      Runs commands (own.map Prod.snd) (own'.map Prod.snd) ∧ Holds cfg σ₀ ext own' σ' := by
  induction commands generalizing own σ with
  | nil => exact ⟨own, σ, rfl, .nil, h⟩
  | cons c commands ih =>
    obtain ⟨own₁, σ₁, hstep, hsteps, h₁⟩ := h.step hranks c
    obtain ⟨own₂, σ₂, hrun, hruns, h₂⟩ := ih h₁
    refine ⟨own₂, σ₂, ?_, .cons hsteps hruns, h₂⟩
    rw [Session.run, List.foldlM_cons, hstep]
    exact hrun

end Holds

/-! ### Whole runs -/

theorem holds_start (cfg : Config) (log2size : ℕ) :
    Holds cfg (Package.init cfg log2size) 0 [] (Package.init cfg log2size) :=
  .start (Package.inv_init cfg log2size)

end PVS.BddPackage
