import Mathlib
import PVS.Library.Bdd

/-! Reduced ordered diagrams: a function has one of them, and its variables are those the function
depends on. -/

namespace PVS.Library.Bdd

/-! ### Complements and nodes -/

def compl : Bdd → Bdd
  | zero => one
  | one => zero
  | node v pos neg => node v (compl pos) (compl neg)

@[simp]
theorem eval_compl (f : Bdd) (ρ : ℕ → Bool) : f.compl.eval ρ = !f.eval ρ := by
  induction f with
  | zero => rfl
  | one => rfl
  | node v pos neg ihp ihn =>
    rw [compl, eval, eval, ihp, ihn]
    cases ρ v <;> rfl

@[simp]
theorem compl_compl (f : Bdd) : f.compl.compl = f := by
  induction f with
  | zero => rfl
  | one => rfl
  | node v pos neg ihp ihn => rw [compl, compl, ihp, ihn]

theorem compl_injective : Function.Injective compl := by
  intro f g h
  rw [← compl_compl f, h, compl_compl]

/-- The node for a variable, unless it would have equal branches. -/
def mk (v : ℕ) (pos neg : Bdd) : Bdd := if pos = neg then pos else node v pos neg

@[simp]
theorem eval_mk (v : ℕ) (pos neg : Bdd) (ρ : ℕ → Bool) :
    (mk v pos neg).eval ρ = if ρ v then pos.eval ρ else neg.eval ρ := by
  unfold mk
  split
  · rename_i h
    rw [h, ite_self]
  · rfl

/-! ### Values at changed points -/

theorem eval_update_of_notMem {f : Bdd} {v : ℕ} (hv : v ∉ f.vars) (ρ : ℕ → Bool) (b : Bool) :
    f.eval (Function.update ρ v b) = f.eval ρ := by
  refine eval_congr f fun u hu => ?_
  have hne : u ≠ v := by
    rintro rfl
    exact hv hu
  exact Function.update_of_ne hne _ _

theorem eval_node_update {v : ℕ} {pos neg : Bdd} (hpos : v ∉ pos.vars) (hneg : v ∉ neg.vars)
    (ρ : ℕ → Bool) (b : Bool) :
    (node v pos neg).eval (Function.update ρ v b) = if b then pos.eval ρ else neg.eval ρ := by
  rw [eval, Function.update_self, eval_update_of_notMem hpos, eval_update_of_notMem hneg]

/-! ### Reduced ordered diagrams -/

/-- The ranks of the variables increase from `lo` on, and no node has equal branches. -/
inductive IsReduced (rank : ℕ → ℕ) : ℕ → Bdd → Prop
  | zero {lo : ℕ} : IsReduced rank lo zero
  | one {lo : ℕ} : IsReduced rank lo one
  | node {lo v : ℕ} {pos neg : Bdd} : lo ≤ rank v → IsReduced rank (rank v + 1) pos →
      IsReduced rank (rank v + 1) neg → pos ≠ neg → IsReduced rank lo (node v pos neg)

variable {rank : ℕ → ℕ} {lo hi : ℕ} {f g : Bdd}

theorem IsReduced.mono (h : IsReduced rank hi f) (hlo : lo ≤ hi) : IsReduced rank lo f := by
  cases h with
  | zero => exact .zero
  | one => exact .one
  | node hv hpos hneg hne => exact .node (hlo.trans hv) hpos hneg hne

theorem IsReduced.le_rank (h : IsReduced rank lo f) {v : ℕ} (hv : v ∈ f.vars) : lo ≤ rank v := by
  induction h with
  | zero => cases hv
  | one => cases hv
  | node hle _ _ _ ihp ihn =>
    simp only [vars, List.mem_cons, List.mem_append] at hv
    rcases hv with rfl | hv | hv
    · exact hle
    · exact hle.trans (Nat.le_of_succ_le (ihp hv))
    · exact hle.trans (Nat.le_of_succ_le (ihn hv))

theorem IsReduced.notMem_vars (h : IsReduced rank lo f) {v : ℕ} (hv : rank v < lo) : v ∉ f.vars :=
  fun hmem => absurd (h.le_rank hmem) (Nat.not_le.2 hv)

theorem IsReduced.compl (h : IsReduced rank lo f) : IsReduced rank lo f.compl := by
  induction h with
  | zero => exact .one
  | one => exact .zero
  | node hv _ _ hne ihp ihn => exact .node hv ihp ihn (compl_injective.ne hne)

theorem IsReduced.mk {v : ℕ} {pos neg : Bdd} (hv : lo ≤ rank v)
    (hpos : IsReduced rank (rank v + 1) pos) (hneg : IsReduced rank (rank v + 1) neg) :
    IsReduced rank lo (mk v pos neg) := by
  unfold Bdd.mk
  split
  · exact hpos.mono (Nat.le_succ_of_le hv)
  · exact .node hv hpos hneg ‹_›

/-- A function that does not depend on the variable of a node is that of both branches. -/
theorem IsReduced.eval_branches {v : ℕ} {pos neg : Bdd} (hpos : IsReduced rank (rank v + 1) pos)
    (hneg : IsReduced rank (rank v + 1) neg) (hf : v ∉ f.vars)
    (h : ∀ ρ, f.eval ρ = (Bdd.node v pos neg).eval ρ) :
    (∀ ρ, f.eval ρ = pos.eval ρ) ∧ ∀ ρ, f.eval ρ = neg.eval ρ := by
  have hp := hpos.notMem_vars (Nat.lt_succ_self _)
  have hn := hneg.notMem_vars (Nat.lt_succ_self _)
  constructor
  · intro ρ
    rw [← eval_update_of_notMem hf ρ true, h, eval_node_update hp hn, if_pos rfl]
  · intro ρ
    rw [← eval_update_of_notMem hf ρ false, h, eval_node_update hp hn, if_neg (by simp)]

/-- Reduced ordered diagrams of one function are equal. -/
theorem IsReduced.eq_of_eval (hrank : Function.Injective rank) (hf : IsReduced rank lo f)
    (hg : IsReduced rank hi g) (h : ∀ ρ, f.eval ρ = g.eval ρ) : f = g := by
  induction hf generalizing g hi with
  | zero =>
    induction hg with
    | zero => rfl
    | one => exact absurd (h fun _ => true) (by simp [eval])
    | node _ hpos hneg hne ihp ihn =>
      obtain ⟨hp, hn⟩ := hpos.eval_branches hneg (by simp [vars]) h
      exact absurd ((ihp hp).symm.trans (ihn hn)) hne
  | one =>
    induction hg with
    | zero => exact absurd (h fun _ => true) (by simp [eval])
    | one => rfl
    | node _ hpos hneg hne ihp ihn =>
      obtain ⟨hp, hn⟩ := hpos.eval_branches hneg (by simp [vars]) h
      exact absurd ((ihp hp).symm.trans (ihn hn)) hne
  | @node lo v pos neg hle hpos hneg hne ihp ihn =>
    -- where `g` does not depend on `v`, both branches have its function
    have below : ∀ {m : ℕ} {k : Bdd}, IsReduced rank m k → v ∉ k.vars →
        (∀ ρ, (Bdd.node v pos neg).eval ρ = k.eval ρ) → False := by
      intro m k hk hv hfk
      obtain ⟨hp, hn⟩ := hpos.eval_branches hneg hv fun ρ => (hfk ρ).symm
      exact hne ((ihp hk fun ρ => (hp ρ).symm).trans (ihn hk fun ρ => (hn ρ).symm).symm)
    have hfv : ∀ {u : ℕ}, u ∈ (Bdd.node v pos neg).vars → rank v ≤ rank u :=
      (IsReduced.node (Nat.le_refl _) hpos hneg hne).le_rank
    induction hg with
    | zero => exact (below (m := 0) .zero (by simp [vars]) h).elim
    | one => exact (below (m := 0) .one (by simp [vars]) h).elim
    | @node hi w pos' neg' hle' hpos' hneg' hne' ihp' ihn' =>
      rcases Nat.lt_trichotomy (rank v) (rank w) with hlt | heq | hgt
      · have hw := (IsReduced.node (Nat.le_refl _) hpos' hneg' hne').notMem_vars hlt
        exact (below (.node (Nat.le_refl _) hpos' hneg' hne') hw h).elim
      · obtain rfl := hrank heq
        have hv := hpos.notMem_vars (Nat.lt_succ_self _)
        have hv' := hneg.notMem_vars (Nat.lt_succ_self _)
        have hw := hpos'.notMem_vars (Nat.lt_succ_self _)
        have hw' := hneg'.notMem_vars (Nat.lt_succ_self _)
        have hp : pos = pos' := ihp hpos' fun ρ => by
          have := h (Function.update ρ v true)
          rwa [eval_node_update hv hv', eval_node_update hw hw', if_pos rfl, if_pos rfl] at this
        have hn : neg = neg' := ihn hneg' fun ρ => by
          have := h (Function.update ρ v false)
          rwa [eval_node_update hv hv', eval_node_update hw hw', if_neg (by simp),
            if_neg (by simp)] at this
        rw [hp, hn]
      · have hw : w ∉ (Bdd.node v pos neg).vars := fun hmem =>
          absurd (hfv hmem) (Nat.not_le.2 hgt)
        obtain ⟨hp, hn⟩ := hpos'.eval_branches hneg' hw h
        exact absurd ((ihp' hp).symm.trans (ihn' hn)) hne'

/-- The variables of a reduced ordered diagram are those its function depends on. -/
theorem IsReduced.mem_vars_iff (hrank : Function.Injective rank) (hf : IsReduced rank lo f)
    {v : ℕ} : v ∈ f.vars ↔ ∃ ρ b, f.eval (Function.update ρ v b) ≠ f.eval ρ := by
  constructor
  · intro hv
    by_contra hno
    push Not at hno
    induction hf with
    | zero => cases hv
    | one => cases hv
    | @node lo u pos neg hle hpos hneg hne ihp ihn =>
      have hp := hpos.notMem_vars (Nat.lt_succ_self _)
      have hn := hneg.notMem_vars (Nat.lt_succ_self _)
      -- at a value of `u`, the change of `v` is one of a branch
      have hbranch : ∀ c : Bool, u ≠ v → ∀ ρ b,
          (if c then pos else neg).eval (Function.update ρ v b) =
            (if c then pos else neg).eval ρ := by
        intro c huv ρ b
        have := hno (Function.update ρ u c) b
        rw [Function.update_comm huv, eval_node_update hp hn, eval_node_update hp hn] at this
        cases c <;> simpa using this
      simp only [vars, List.mem_cons, List.mem_append] at hv
      by_cases huv : u = v
      · subst huv
        refine hne (hpos.eq_of_eval hrank hneg fun ρ => ?_)
        have htrue := hno ρ true
        rw [eval_node_update hp hn, if_pos rfl, ← hno ρ false, eval_node_update hp hn,
          if_neg (by simp)] at htrue
        exact htrue
      · rcases hv with rfl | hv | hv
        · exact huv rfl
        · exact ihp hv fun ρ b => by simpa using hbranch true huv ρ b
        · exact ihn hv fun ρ b => by simpa using hbranch false huv ρ b
  · rintro ⟨ρ, b, hne⟩
    by_contra hv
    exact hne (eval_update_of_notMem hv ρ b)

/-! ### The bits of edges -/

/-- The branches of the top node change places. -/
def swap : Bdd → Bdd
  | node v pos neg => node v neg pos
  | f => f

/-- What the bits of an edge make of the diagram of the node -/
def turn (inv neg : Bool) (f : Bdd) : Bdd :=
  if neg then (if inv then f.swap else f).compl else if inv then f.swap else f

end PVS.Library.Bdd
