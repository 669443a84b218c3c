import PVS.GroundEval.PreprocessOwnership

/-! References are owned linearly in preprocessed expressions. -/

namespace PVS.GroundEval.IR

open PVS.Library

variable {T : VarTypes} {B : Bindings} {scope E L : Finset Var} {size : List Var} {x y v : Var}

/-! ### What is known on the way down -/

/-- What is known where an expression is preprocessed: its variables are bound once and are not live,
and the references in the size of the array that is expected are owned. -/
structure Owning (T : VarTypes) (scope E L : Finset Var) (B : Bindings) (size : List Var)
    (e : Expr) : Prop where
  wellScoped : e.WellScoped scope
  wellTyped : e.WellTyped T E
  expected : E ⊆ scope
  renames : Renames scope B
  nodup : e.binders.Nodup
  notLive : ∀ v ∈ e.binders, v ∉ L
  size_owned : ∀ v ∈ size, T.isRef v = true → v ∈ (applyBindings B E ∪ L) ∩ scope

namespace Owning

variable {lett : Bool} {xs : List Var} {high : Option Bound} {low hi : Bound} {a b : Expr} {c : Var}

theorem freevars_subset {e : Expr} (h : Owning T scope E L B size e) : e.freevars T E ⊆ scope :=
  e.freevars_subset_scope h.wellScoped h.expected

theorem high_owned (hB : Renames scope B) (hhigh : arrayExpected high ⊆ scope) :
    ∀ v ∈ highVars (high.map (Bound.preprocess B)), T.isRef v = true →
      v ∈ (applyBindings B (arrayExpected high) ∪ L) ∩ scope := by
  intro v hv _
  rw [mem_highVars, arrayExpected_preprocess] at hv
  exact Finset.mem_inter.2 ⟨Finset.mem_union_left _ hv, hB.apply_mem_scope hhigh hv⟩

theorem size_insert (h : ∀ v ∈ size, T.isRef v = true → v ∈ (applyBindings B E ∪ L) ∩ scope) :
    ∀ v ∈ size, T.isRef v = true → v ∈ (applyBindings B E ∪ L) ∩ insert x scope := by
  intro v hv href
  obtain ⟨hmem, hscope⟩ := Finset.mem_inter.1 (h v hv href)
  exact Finset.mem_inter.2 ⟨hmem, Finset.mem_insert_of_mem hscope⟩

theorem letIn_body (h : Owning T scope E L B size (.letIn lett x high a b)) :
    Owning T (insert x scope) E L B size b where
  wellScoped := h.wellScoped.2.2.2
  wellTyped := h.wellTyped.2.2
  expected := h.expected.trans (Finset.subset_insert x scope)
  renames := h.renames.insert h.wellScoped.1
  nodup := (List.nodup_append.1 (List.nodup_cons.1 h.nodup).2).2.1
  notLive v hv := h.notLive v (List.mem_cons_of_mem x (List.mem_append_right _ hv))
  size_owned := size_insert h.size_owned

/-- The variables that are bound in the value of a variable are not live there. -/
theorem letIn_notLive (h : Owning T scope E L B size (.letIn lett x high a b)) :
    ∀ v ∈ a.binders, v ∉ applyBindings B (b.freevars T E) ∪ L := by
  intro v hv hmem
  obtain ⟨hx, -, ha, -⟩ := h.wellScoped
  rcases Finset.mem_union.1 hmem with hmem | hmem
  · have hsub := h.letIn_body.freevars_subset
    have hscope := (h.renames.insert hx).apply_mem_scope hsub hmem
    rcases Finset.mem_insert.1 hscope with rfl | hscope
    · exact (List.nodup_cons.1 h.nodup).1 (List.mem_append_left _ hv)
    · exact a.binders_notMem ha v hv hscope
  · exact h.notLive v (List.mem_cons_of_mem x (List.mem_append_left _ hv)) hmem

theorem letIn_bind (h : Owning T scope E L B size (.letIn lett x high a b)) :
    Owning T scope (arrayExpected high) (applyBindings B (b.freevars T E) ∪ L) B
      (highVars (high.map (Bound.preprocess B))) a where
  wellScoped := h.wellScoped.2.2.1
  wellTyped := h.wellTyped.2.1
  expected := h.wellScoped.2.1
  renames := h.renames
  nodup := (List.nodup_append.1 (List.nodup_cons.1 h.nodup).2).1
  notLive := h.letIn_notLive
  size_owned := high_owned h.renames h.wellScoped.2.1

/-- The free variables of a variable that is the body of its own binding. -/
theorem self_freevars (x : Var) :
    (Expr.flat (.operand x)).freevars T E = insert x (if T.isFuntype x then E else ∅) := by
  cases hx : T.isFuntype x <;>
    simp [Expr.freevars, Flat.freevars, Flat.converts, Flat.expectedOperands, Flat.operands, hx]

theorem letIn_self (h : Owning T scope E L B size (.letIn lett x high a b))
    (hbody : b = .flat (.operand x)) :
    Owning T scope (arrayExpected high) (applyBindings B (b.freevars T E) ∪ L) B size a where
  wellScoped := h.wellScoped.2.2.1
  wellTyped := h.wellTyped.2.1
  expected := h.wellScoped.2.1
  renames := h.renames
  nodup := (List.nodup_append.1 (List.nodup_cons.1 h.nodup).2).1
  notLive := h.letIn_notLive
  size_owned := by
    intro v hv href
    obtain ⟨hmem, hscope⟩ := Finset.mem_inter.1 (h.size_owned v hv href)
    refine Finset.mem_inter.2 ⟨?_, hscope⟩
    rcases Finset.mem_union.1 hmem with hmem | hmem
    · rcases h.wellTyped.1 hbody with hhigh | ⟨hfun, -⟩
      · exact Finset.mem_union_left _ (hhigh ▸ hmem)
      · rw [hbody, self_freevars, if_pos hfun]
        apply Finset.mem_union_right
        exact Finset.mem_union_left _ (applyBindings_subset (Finset.subset_insert x E) hmem)
    · exact Finset.mem_union_right _ (Finset.mem_union_right _ hmem)

theorem letIn_copied (h : Owning T scope E L B size (.letIn lett x high a b))
    (hy : y ∈ applyBindings B scope) :
    Owning T (insert x scope) E L ((x, y) :: B) size b where
  wellScoped := h.wellScoped.2.2.2
  wellTyped := h.wellTyped.2.2
  expected := h.expected.trans (Finset.subset_insert x scope)
  renames := h.renames.cons h.wellScoped.1 (h.renames.subset hy) (h.renames.fixed hy)
  nodup := h.letIn_body.nodup
  notLive := h.letIn_body.notLive
  size_owned := by
    have hE : applyBindings ((x, y) :: B) E = applyBindings B E := by
      apply Finset.image_congr
      intro v hv
      have hne : v ≠ x := fun hvx => h.wellScoped.1 (h.expected (hvx ▸ hv))
      show getAssoc ((x, y) :: B) v = getAssoc B v
      rw [getAssoc_cons, if_neg hne]
    rw [hE]
    exact h.letIn_body.size_owned

theorem lambda_body (h : Owning T scope E L B size (.lambda xs high b)) :
    Owning T (scope ∪ xs.toFinset) (arrayExpected high)
      (applyBindings B ((Expr.lambda xs high b).freevars T E) ∪ L) B
      (highVars (high.map (Bound.preprocess B))) b where
  wellScoped := h.wellScoped.2.2.2
  wellTyped := h.wellTyped
  expected := h.wellScoped.2.2.1
  renames := h.renames.union h.wellScoped.2.1
  nodup := (List.nodup_append.1 h.nodup).2.1
  notLive := by
    intro v hv hmem
    rcases Finset.mem_union.1 hmem with hmem | hmem
    · have hscope := h.renames.apply_mem_scope h.freevars_subset hmem
      exact b.binders_notMem h.wellScoped.2.2.2 v hv (Finset.mem_union_left _ hscope)
    · exact h.notLive v (List.mem_append_right _ hv) hmem
  size_owned := high_owned (h.renames.union h.wellScoped.2.1) h.wellScoped.2.2.1

theorem forAll_body {size' : List Var} (h : Owning T scope E L B size (.forAll x low hi b))
    (hsize : size' = [] ∨ size' = size) : Owning T (insert x scope) E L B size' b where
  wellScoped := h.wellScoped.2.2.2
  wellTyped := h.wellTyped
  expected := h.expected.trans (Finset.subset_insert x scope)
  renames := h.renames.insert h.wellScoped.1
  nodup := (List.nodup_cons.1 h.nodup).2
  notLive v hv := h.notLive v (List.mem_cons_of_mem x hv)
  size_owned := by
    rcases hsize with rfl | rfl
    · exact fun v hv => absurd hv List.not_mem_nil
    · exact size_insert h.size_owned

theorem ift_thn (h : Owning T scope E L B size (.ift c a b)) : Owning T scope E L B size a :=
  ⟨h.wellScoped.2.1, h.wellTyped.1, h.expected, h.renames, (List.nodup_append.1 h.nodup).1,
    fun v hv => h.notLive v (List.mem_append_left _ hv), h.size_owned⟩

theorem ift_els (h : Owning T scope E L B size (.ift c a b)) : Owning T scope E L B size b :=
  ⟨h.wellScoped.2.2, h.wellTyped.2, h.expected, h.renames, (List.nodup_append.1 h.nodup).2.1,
    fun v hv => h.notLive v (List.mem_append_right _ hv), h.size_owned⟩

end Owning

/-! ### What happens on paths -/

/-- On each path, what is owned before it and not live after it is consumed once, and so is what is
bound on it. -/
def OwnedOnce (T : VarTypes) (scope E L : Finset Var) (B : Bindings) (size : List Var) (v : Var)
    (e : Expr) : Prop :=
  ∀ t, (preprocessIr T E L B e).Path T size t →
    ownRun v (decide (v ∈ (applyBindings B (e.freevars T E) ∪ L) ∩ scope)) t =
      some (decide (v ∈ L ∩ scope))

variable {lett : Bool} {xs : List Var} {high : Option Bound} {low hi : Bound} {a b : Expr} {c : Var}

theorem ownedOnce_flat {n : Flat Var} (h : Owning T scope E L B size (.flat n))
    (hcond : n.ConsumesOnce T E L B) (hv : T.isRef v = true) :
    OwnedOnce T scope E L B size v (.flat n) := by
  intro t ht
  rw [preprocessIr, Marked.Path, Flat.preprocess_var] at ht
  subst ht
  have hfree : v ∈ (applyBindings B ((Expr.flat n).freevars T E) ∪ L) ∩ scope ↔
      v ∈ n.operands.map (getAssoc B) ∨ v ∈ L ∩ scope := by
    have hops : v ∈ n.operands.map (getAssoc B) → v ∈ scope := by
      intro hmem
      exact h.renames.apply_mem_scope h.wellScoped (mem_applyBindings_toFinset.2 hmem)
    have hexp : n.converts T = true → v ∈ applyBindings B E →
        v ∈ n.operands.map (getAssoc B) ∨ v ∈ L := by
      intro hconv hE
      have hmem := hcond.1 (.inl hconv) v hE hv
      rwa [Finset.mem_union, mem_applyBindings_toFinset] at hmem
    rw [Expr.freevars, Flat.freevars, applyBindings_union]
    simp only [Finset.mem_inter, Finset.mem_union, mem_applyBindings_toFinset]
    cases hconv : n.converts T with
    | true =>
      simp only [hconv, if_true, true_implies] at hexp ⊢
      grind
    | false =>
      simp only [Bool.false_eq_true, if_false, applyBindings_empty, Finset.notMem_empty]
      grind
  apply ownRun_trans
  · split
    · rename_i hconv
      apply ownRun_uses
      intro hmem
      obtain ⟨hown, hscope⟩ := Finset.mem_inter.1 (h.size_owned v hmem hv)
      rw [decide_eq_true_iff, hfree]
      rcases Finset.mem_union.1 hown with hE | hL
      · have hconsumed := hcond.1 (.inr hconv) v hE hv
        rw [Finset.mem_union, mem_applyBindings_toFinset] at hconsumed
        exact hconsumed.imp_right fun hL => Finset.mem_inter.2 ⟨hL, hscope⟩
      · exact .inr (Finset.mem_inter.2 ⟨hL, hscope⟩)
    · rfl
  · apply Flat.ownRun_operands hcond hv
    · intro hmem
      have hscope := h.renames.apply_mem_scope h.wellScoped (mem_applyBindings_toFinset.2 hmem)
      rw [decide_eq_true_iff, Finset.mem_inter]
      exact and_iff_left hscope
    · rw [decide_eq_true_iff, decide_eq_true_iff]
      exact hfree

theorem mem_inter_insert_iff {s : Finset Var} (hx : x ∉ s) :
    v ∈ s ∩ insert x scope ↔ v ∈ s ∩ scope := by
  rw [Finset.inter_insert_of_notMem hx]

/-- A variable that is not owned and not bound does not matter. -/
theorem ownRun_outside {s l : Finset Var} {t : List (OwnEvent Var)} (hs : x ∉ s) (hl : x ∉ l)
    (ht : ownRun v (decide (v ∈ s ∩ insert x scope)) t = some (decide (v ∈ l ∩ insert x scope))) :
    ownRun v (decide (v ∈ s ∩ scope)) t = some (decide (v ∈ l ∩ scope)) := by
  rwa [decide_eq_decide.2 (mem_inter_insert_iff hs), decide_eq_decide.2 (mem_inter_insert_iff hl)]
    at ht

/-- What is not free and not in scope is not renamed to either. -/
theorem notMem_applyBindings {s : Finset Var} (hB : Renames scope B) (hx : x ∉ scope)
    (hs : s ⊆ insert x scope) (hfree : x ∉ s) : x ∉ applyBindings B s := by
  intro hmem
  exact hx (hB.apply_mem_scope ((Finset.subset_insert_iff_of_notMem hfree).1 hs) hmem)

theorem ownedOnce_discarded (h : Owning T scope E L B size (.letIn lett x high a b))
    (hfree : x ∉ b.freevars T E) (hb : OwnedOnce T (insert x scope) E L B size v b) :
    OwnedOnce T scope E L B size v (.letIn lett x high a b) := by
  intro t ht
  rw [preprocessIr, if_neg hfree] at ht
  rw [Expr.freevars, if_neg hfree]
  have hx := h.wellScoped.1
  have hL : x ∉ L := h.notLive x List.mem_cons_self
  have hxb := notMem_applyBindings h.renames hx h.letIn_body.freevars_subset hfree
  apply ownRun_outside _ hL (hb t ht)
  rw [Finset.mem_union, not_or]
  exact ⟨hxb, hL⟩

/-- A variable that is the body of its own binding. -/
theorem ownedOnce_self (h : Owning T scope E L B size (.letIn lett x high a b))
    (hbody : b = .flat (.operand x) ∧ T.isArraytype x = false)
    (hcond : T.isFuntype x = true → RefSubset T (applyBindings B E) L) (hv : T.isRef v = true)
    (ha : OwnedOnce T scope (arrayExpected high) (applyBindings B (b.freevars T E) ∪ L) B size v a) :
    OwnedOnce T scope E L B size v (.letIn lett x high a b) := by
  intro t ht
  have hx := h.wellScoped.1
  have hfreevars : b.freevars T E = insert x (if T.isFuntype x then E else ∅) := by
    rw [hbody.1, Owning.self_freevars]
  have hfree : x ∈ b.freevars T E := hfreevars ▸ Finset.mem_insert_self x _
  simp only [preprocessIr, if_pos hfree, if_pos hbody] at ht
  replace ha := ha t ht
  -- only the variables of an expected array are free besides `x`
  have hrest : v ∈ applyBindings B ((b.freevars T E).erase x) → v ∈ L := by
    rw [hfreevars]
    intro hmem
    have hsub := applyBindings_subset (Finset.erase_insert_subset x _) hmem
    split at hsub
    · rename_i hfun
      exact hcond hfun v hsub hv
    · exact absurd hsub (Finset.notMem_empty v)
  have hbx := h.renames.mem_apply_erase (v := v) (s := b.freevars T E) hx
  have hlive : v ∈ (applyBindings B (b.freevars T E) ∪ L) ∩ scope ↔ v ∈ L ∩ scope := by
    simp only [Finset.mem_inter, Finset.mem_union]
    grind
  rw [decide_eq_decide.2 hlive] at ha
  apply ownRun_of_iff _ ha
  rw [Expr.freevars, if_pos hfree, applyBindings_union]
  simp only [Finset.mem_inter, Finset.mem_union]
  grind

/-- A variable that is replaced by the one it is bound to. -/
theorem ownedOnce_copied (h : Owning T scope E L B size (.letIn lett x high a b))
    (hfree : x ∈ b.freevars T E) (hbody : ¬(b = .flat (.operand x) ∧ T.isArraytype x = false))
    (hrep : replacement T lett x (a.copyOf T (arrayExpected high)
      (applyBindings B (b.freevars T E) ∪ L) B) = some y)
    (hcond : RefSubset T (applyBindings B (a.freevars T (arrayExpected high)))
      (applyBindings ((x, y) :: B) (b.freevars T E) ∪ L)) (hv : T.isRef v = true)
    (hb : OwnedOnce T (insert x scope) E L ((x, y) :: B) size v b) :
    OwnedOnce T scope E L B size v (.letIn lett x high a b) := by
  intro t ht
  obtain ⟨hx, hhigh, ha, -⟩ := h.wellScoped
  obtain ⟨hya, hyscope⟩ := replacement_mem ha hhigh hrep
  have hL : x ∉ L := h.notLive x List.mem_cons_self
  simp only [preprocessIr, if_pos hfree, if_neg hbody, operand?_preprocessIr, hrep] at ht
  have hnew := (h.letIn_copied hyscope).freevars_subset
  have hsub : applyBindings ((x, y) :: B) (b.freevars T E) ⊆ scope := by
    apply (applyBindings_subset hnew).trans
    rw [Renames.apply_cons hx hyscope]
    exact h.renames.subset
  have hout : x ∉ applyBindings ((x, y) :: B) (b.freevars T E) ∪ L := by
    rw [Finset.mem_union, not_or]
    exact ⟨fun hmem => hx (hsub hmem), hL⟩
  -- the free variables of the body but `x`, and what `x` stands for
  have hmem : v ∈ applyBindings ((x, y) :: B) (b.freevars T E) ↔
      v = y ∨ v ∈ applyBindings B ((b.freevars T E).erase x) := by
    rw [mem_applyBindings, mem_applyBindings]
    constructor
    · rintro ⟨w, hw, rfl⟩
      rw [getAssoc_cons]
      split
      · exact .inl rfl
      · rename_i hne
        exact .inr ⟨w, Finset.mem_erase.2 ⟨hne, hw⟩, rfl⟩
    · rintro (rfl | ⟨w, hw, rfl⟩)
      · exact ⟨x, hfree, by rw [getAssoc_cons, if_pos rfl]⟩
      · obtain ⟨hne, hw⟩ := Finset.mem_erase.1 hw
        exact ⟨w, hw, by rw [getAssoc_cons, if_neg hne]⟩
  apply ownRun_of_iff _ (ownRun_outside hout hL (hb t ht))
  have hcond' := fun hva => hcond v hva hv
  rw [Expr.freevars, if_pos hfree, applyBindings_union]
  simp only [Finset.mem_inter, Finset.mem_union] at hcond' ⊢
  grind

/-- A binding that remains. -/
theorem ownedOnce_kept (h : Owning T scope E L B size (.letIn lett x high a b))
    (hfree : x ∈ b.freevars T E) (hbody : ¬(b = .flat (.operand x) ∧ T.isArraytype x = false))
    (hrep : replacement T lett x (a.copyOf T (arrayExpected high)
      (applyBindings B (b.freevars T E) ∪ L) B) = none)
    (ha : OwnedOnce T scope (arrayExpected high) (applyBindings B (b.freevars T E) ∪ L) B
      (highVars (high.map (Bound.preprocess B))) v a)
    (hb : OwnedOnce T (insert x scope) E L B size v b) :
    OwnedOnce T scope E L B size v (.letIn lett x high a b) := by
  intro t ht
  have hx := h.wellScoped.1
  simp only [preprocessIr, if_pos hfree, if_neg hbody, operand?_preprocessIr, hrep] at ht
  obtain ⟨r, s, hr, hs, rfl⟩ := ht
  have hbx := h.renames.mem_apply_erase (v := v) (s := b.freevars T E) hx
  apply ownRun_trans
  · apply ownRun_of_iff _ (ha r hr)
    rw [Expr.freevars, if_pos hfree, applyBindings_union]
    simp only [Finset.mem_inter, Finset.mem_union]
    grind
  · apply ownRun_bind hx _ (h.notLive x List.mem_cons_self) (hb s hs)
    intro hv
    exact Finset.mem_union_left _ (hbx.2 (.inl ⟨hv, hfree⟩))

theorem ownedOnce_lambda (h : Owning T scope E L B size (.lambda xs high b))
    (hcond : RefSubset T xs.toFinset (b.freevars T (arrayExpected high))) (hv : T.isRef v = true)
    (hb : OwnedOnce T (scope ∪ xs.toFinset) (arrayExpected high)
      (applyBindings B ((Expr.lambda xs high b).freevars T E) ∪ L) B
      (highVars (high.map (Bound.preprocess B))) v b) :
    OwnedOnce T scope E L B size v (.lambda xs high b) := by
  intro t ht
  obtain ⟨hnodup, hdisj, -, -⟩ := h.wellScoped
  obtain ⟨s, l, hs, hl, hlast, rfl⟩ := ht
  have hscope : applyBindings B ((Expr.lambda xs high b).freevars T E) ⊆ scope :=
    fun w hw => h.renames.apply_mem_scope h.freevars_subset hw
  have hfree : applyBindings B ((Expr.lambda xs high b).freevars T E) =
      applyBindings B E ∪ applyBindings B (b.freevars T (arrayExpected high) \ xs.toFinset) := by
    rw [Expr.freevars, applyBindings_union]
  have hbx := h.renames.mem_apply_iff (v := v) (s := b.freevars T (arrayExpected high)) hdisj
  have hout : v ∈ xs → v ∉ applyBindings B ((Expr.lambda xs high b).freevars T E) ∪ L := by
    intro hmem hmem'
    rcases Finset.mem_union.1 hmem' with hmem' | hmem'
    · exact Finset.disjoint_left.1 hdisj (List.mem_toFinset.2 hmem) (hscope hmem')
    · exact h.notLive v (List.mem_append_left _ hmem) hmem'
  apply ownRun_trans
  · apply ownRun_uses
    intro hmem
    obtain ⟨hown, hin⟩ := Finset.mem_inter.1 (h.size_owned v hmem hv)
    rw [decide_eq_true_iff, hfree]
    simp only [Finset.mem_inter, Finset.mem_union] at hown ⊢
    exact ⟨hown.imp_left .inl, hin⟩
  · apply ownRun_trans (s := s)
      (m := decide (v ∈ (applyBindings B ((Expr.lambda xs high b).freevars T E) ∪ L) ∩ scope))
    · refine ownRun_repeated ?_ hs
      rintro _ ⟨q, hq, rfl⟩
      -- the variables of the lambda are consumed in each round, and nothing else is
      have hround : v ∈ (applyBindings B ((Expr.lambda xs high b).freevars T E) ∪ L) ∩ scope ↔
          v ∈ (applyBindings B (b.freevars T (arrayExpected high)) ∪
            (applyBindings B ((Expr.lambda xs high b).freevars T E) ∪ L)) ∩ scope := by
        have hnotscope : v ∈ xs.toFinset → v ∉ scope := fun hmem => Finset.disjoint_left.1 hdisj hmem
        rw [hfree]
        simp only [Finset.mem_inter, Finset.mem_union]
        clear hb
        grind
      apply ownRun_of_iff hround
      refine ownRun_binds hnodup hdisj ?_ hout (hb q hq)
      intro hmem
      have hmem' := List.mem_toFinset.2 hmem
      exact Finset.mem_union_left _ (hbx.2 (.inl ⟨hmem', hcond v hmem' hv⟩))
    · rw [← List.append_nil (l.map OwnEvent.consume)]
      refine ownRun_release hl ?_ ?_ rfl
      · rw [hlast]
        simp only [Finset.mem_inter, Finset.mem_union, Finset.mem_sdiff]
        have hin := @hscope v
        grind
      · rw [hlast]
        simp only [Finset.mem_inter, Finset.mem_sdiff]
        grind

theorem forAll_freevars (h : Owning T scope E L B size (.forAll x low hi b)) :
    applyBindings B ((Expr.forAll x low hi b).freevars T E) =
      applyBindings B low.freevars ∪ applyBindings B hi.freevars ∪
        applyBindings B ((b.freevars T E).erase x) := by
  obtain ⟨hx, hlow, hhigh, -⟩ := h.wellScoped
  rw [Expr.freevars, Finset.erase_union_distrib, Finset.erase_union_distrib,
    Finset.erase_eq_of_notMem fun hmem => hx (hlow hmem),
    Finset.erase_eq_of_notMem fun hmem => hx (hhigh hmem), applyBindings_union,
    applyBindings_union]

/-- A loop has no reference of its own that is not live after it. -/
theorem ownedOnce_forAll (h : Owning T scope E L B size (.forAll x low hi b))
    (hfree : x ∈ b.freevars T ∅)
    (hcond : RefSubset T (applyBindings B ((Expr.forAll x low hi b).freevars T E)) L)
    (hv : T.isRef v = true) (hb : OwnedOnce T (insert x scope) E L B [] v b) :
    OwnedOnce T scope E L B size v (.forAll x low hi b) := by
  intro t ht
  obtain ⟨hx, hlow, hhigh, -⟩ := h.wellScoped
  have hbx := h.renames.mem_apply_erase (v := v) (s := b.freevars T E) hx
  have hlive := fun hmem => hcond v hmem hv
  rw [forAll_freevars h] at hlive ⊢
  simp only [Finset.mem_union] at hlive
  rw [preprocessIr, if_pos hfree] at ht
  obtain ⟨s, hs, rfl⟩ := ht
  have hstart : v ∈ (applyBindings B low.freevars ∪ applyBindings B hi.freevars ∪
      applyBindings B ((b.freevars T E).erase x) ∪ L) ∩ scope ↔ v ∈ L ∩ scope := by
    simp only [Finset.mem_inter, Finset.mem_union]
    grind
  have hbound : ∀ {d : Bound}, d.freevars ⊆ scope → (v ∈ applyBindings B d.freevars → v ∈ L) →
      ownRun v (decide (v ∈ L ∩ scope)) ((d.preprocess B).vars.map .use) =
        some (decide (v ∈ L ∩ scope)) := by
    intro d hd hL
    apply ownRun_uses
    intro hmem
    have hmem' : v ∈ applyBindings B d.freevars := by
      rw [← Bound.freevars_preprocess]
      exact List.mem_toFinset.2 hmem
    rw [decide_eq_true_iff]
    exact Finset.mem_inter.2 ⟨hL hmem', h.renames.apply_mem_scope hd hmem'⟩
  apply ownRun_of_iff hstart
  apply ownRun_trans (hbound hlow fun hmem => hlive (.inl (.inl hmem)))
  apply ownRun_trans (hbound hhigh fun hmem => hlive (.inl (.inr hmem)))
  refine ownRun_repeated ?_ hs
  rintro _ ⟨q, hq, rfl⟩
  have hround : v ∈ L ∩ scope ↔ v ∈ (applyBindings B (b.freevars T E) ∪ L) ∩ scope := by
    simp only [Finset.mem_inter, Finset.mem_union]
    clear hb
    grind
  apply ownRun_of_iff hround
  apply ownRun_bind hx _ (h.notLive x List.mem_cons_self) (hb q hq)
  intro hvx
  exact Finset.mem_union_left _ (hbx.2 (.inl ⟨hvx, b.freevars_empty_subset E hfree⟩))

/-- A loop that is replaced by its body. -/
theorem ownedOnce_body (h : Owning T scope E L B size (.forAll x low hi b))
    (hfree : x ∉ b.freevars T ∅)
    (hcond : RefSubset T (applyBindings B (low.freevars ∪ hi.freevars))
      (applyBindings B (b.freevars T E) ∪ L))
    (hv : T.isRef v = true) (hb : OwnedOnce T (insert x scope) E L B size v b) :
    OwnedOnce T scope E L B size v (.forAll x low hi b) := by
  intro t ht
  rw [preprocessIr, if_neg hfree] at ht
  have hx := h.wellScoped.1
  have hL : x ∉ L := h.notLive x List.mem_cons_self
  have hfreeE : x ∉ b.freevars T E := fun hmem =>
    hfree ((mem_freevars_iff hx h.expected h.wellScoped.2.2.2).1 hmem)
  have hbody := h.forAll_body (.inr rfl)
  have hxb := notMem_applyBindings h.renames hx hbody.freevars_subset hfreeE
  have hlive := fun hmem => hcond v hmem hv
  rw [applyBindings_union] at hlive
  refine ownRun_of_iff ?_ (ownRun_outside ?_ hL (hb t ht))
  · rw [forAll_freevars h, Finset.erase_eq_of_notMem hfreeE]
    simp only [Finset.mem_inter, Finset.mem_union] at hlive ⊢
    grind
  · rw [Finset.mem_union, not_or]
    exact ⟨hxb, hL⟩

/-- An expression that is left as it was only uses what is live after it. -/
theorem ownedOnce_exist (h : Owning T scope E L B size (.exist x low hi b))
    (hcond : (Expr.exist x low hi b).ConsumesOnce T E L B) (hv : T.isRef v = true) :
    OwnedOnce T scope E L B size v (.exist x low hi b) := by
  intro t ht
  obtain ⟨hfree, hused, hbind⟩ := hcond
  have hlive := hfree v
  have hstart : v ∈ (applyBindings B ((Expr.exist x low hi b).freevars T E) ∪ L) ∩ scope ↔
      v ∈ L ∩ scope := by
    simp only [Finset.mem_inter, Finset.mem_union]
    grind
  apply ownRun_of_iff hstart
  refine Expr.ownRun_path (T := T) (.exist x low hi b) ?_ ?_ ?_ ht
  · intro hmem
    exact Finset.notMem_empty v (hbind v (List.mem_toFinset.2 hmem) hv)
  · exact fun hmem => absurd hmem List.not_mem_nil
  · intro hmem
    rw [decide_eq_true_iff]
    exact Finset.mem_inter.2 ⟨hused v hmem hv, Expr.free_subset_scope _ h.wellScoped hmem⟩

theorem mem_union_iff {s r : Finset Var} (hsr : RefSubset T s (r ∪ L) ∧ RefSubset T r (s ∪ L))
    (hv : T.isRef v = true) : v ∈ r ∪ L ↔ v ∈ s ∪ L := by
  constructor
  · intro hmem
    exact (Finset.mem_union.1 hmem).elim (fun hr => hsr.2 v hr hv) (Finset.mem_union_right s)
  · intro hmem
    exact (Finset.mem_union.1 hmem).elim (fun hs => hsr.1 v hs hv) (Finset.mem_union_right r)

/-- One branch of an `ift`, where `s` are the free variables of it and `u` those of the other one, and
`r` and `w` are what they are counted as. -/
theorem ownRun_branch {s u r w : Finset Var} {l : List Var} {q : List (OwnEvent Var)}
    (hs : s ⊆ scope) (hu : u ⊆ scope) (hv : T.isRef v = true)
    (hsr : RefSubset T s (r ∪ L) ∧ RefSubset T r (s ∪ L))
    (huw : RefSubset T u (w ∪ L) ∧ RefSubset T w (u ∪ L))
    (hl : l.Nodup) (hmarked : l.toFinset = (w \ L) \ (r \ L))
    (hq : ownRun v (decide (v ∈ (s ∪ L) ∩ scope)) q = some (decide (v ∈ L ∩ scope))) :
    ownRun v (decide (v ∈ (s ∪ (u ∪ L)) ∩ scope)) (l.map .consume ++ q) =
      some (decide (v ∈ L ∩ scope)) := by
  have hr := mem_union_iff hsr hv
  have hw := mem_union_iff huw hv
  have hin := @hs v
  have hinu := @hu v
  simp only [Finset.mem_union] at hr hw
  clear hs hu hsr huw
  refine ownRun_release hl ?_ ?_ hq
  · rw [hmarked]
    simp only [Finset.mem_inter, Finset.mem_union, Finset.mem_sdiff]
    clear hq hmarked
    grind
  · rw [hmarked]
    simp only [Finset.mem_inter, Finset.mem_union, Finset.mem_sdiff]
    clear hq hmarked
    grind

/-- The branches of an `ift` release what only the other one consumes. -/
theorem ownedOnce_ift (h : Owning T scope E L B size (.ift c a b))
    (hcond : (Expr.ift c a b).ConsumesOnce T E L B) (hv : T.isRef v = true)
    (ha : OwnedOnce T scope E L B size v a) (hb : OwnedOnce T scope E L B size v b) :
    OwnedOnce T scope E L B size v (.ift c a b) := by
  intro t ht
  obtain ⟨hthen, helse, -, -⟩ := hcond
  have hc : getAssoc B c ∈ scope := h.renames.mem c h.wellScoped.1
  have hina : applyBindings B (a.freevars T E) ⊆ scope := fun w hw =>
    h.renames.apply_mem_scope h.ift_thn.freevars_subset hw
  have hinb : applyBindings B (b.freevars T E) ⊆ scope := fun w hw =>
    h.renames.apply_mem_scope h.ift_els.freevars_subset hw
  obtain ⟨s, hs, rfl⟩ := ht
  simp only [freevars_preprocessIr] at hs ⊢
  apply ownRun_trans (s := [_]) (m := decide (v ∈ (applyBindings B (a.freevars T E) ∪
    (applyBindings B (b.freevars T E) ∪ L)) ∩ scope))
  · have hmarked : v ∈ applyBindings B (a.remaining T E E L B) ∪
        (applyBindings B (b.remaining T E E L B) ∪ L) ↔
        v ∈ applyBindings B (a.freevars T E) ∪ (applyBindings B (b.freevars T E) ∪ L) := by
      have ha := mem_union_iff hthen hv
      have hb := mem_union_iff helse hv
      rw [Finset.mem_union] at ha hb
      grind
    apply ownRun_preprocessVar
    · rintro rfl
      rw [decide_eq_true_iff, hmarked, Finset.mem_inter]
      exact and_iff_left hc
    · rw [Expr.freevars, applyBindings_union, applyBindings_union]
      simp only [decide_eq_true_iff, Finset.mem_inter, Finset.mem_union, mem_applyBindings_singleton]
      clear ha hb hmarked
      grind
  · rcases hs with hs | hs
    · obtain ⟨l, q, hq, hl, hmarked, rfl⟩ := path_mkIrRelease hs
      exact ownRun_branch hina hinb hv hthen helse hl hmarked (ha q hq)
    · obtain ⟨l, q, hq, hl, hmarked, rfl⟩ := path_mkIrRelease hs
      rw [Finset.union_left_comm]
      exact ownRun_branch hinb hina hv helse hthen hl hmarked (hb q hq)

/-- Each reference is consumed once on each path. -/
theorem ownedOnce (e : Expr) (h : Owning T scope E L B size e) (hcond : e.ConsumesOnce T E L B)
    (hv : T.isRef v = true) : OwnedOnce T scope E L B size v e := by
  induction e generalizing scope E L B size with
  | flat n => exact ownedOnce_flat h hcond hv
  | letIn lett x high a b iha ihb =>
    rw [Expr.ConsumesOnce] at hcond
    by_cases hfree : x ∈ b.freevars T E
    · simp only [if_pos hfree] at hcond
      by_cases hbody : b = .flat (.operand x) ∧ T.isArraytype x = false
      · rw [if_pos hbody] at hcond
        exact ownedOnce_self h hbody hcond.1 hv (iha (h.letIn_self hbody.1) hcond.2)
      · rw [if_neg hbody] at hcond
        cases hrep : replacement T lett x (a.copyOf T (arrayExpected high)
            (applyBindings B (b.freevars T E) ∪ L) B) with
        | some y =>
          rw [hrep] at hcond
          have hy := (replacement_mem h.wellScoped.2.2.1 h.wellScoped.2.1 hrep).2
          exact ownedOnce_copied h hfree hbody hrep hcond.1 hv (ihb (h.letIn_copied hy) hcond.2)
        | none =>
          rw [hrep] at hcond
          exact ownedOnce_kept h hfree hbody hrep (iha h.letIn_bind hcond.1)
            (ihb h.letIn_body hcond.2)
    · rw [if_neg hfree] at hcond
      exact ownedOnce_discarded h hfree (ihb h.letIn_body hcond)
  | lambda xs high b ih => exact ownedOnce_lambda h hcond.1 hv (ih h.lambda_body hcond.2)
  | forAll x low high b ih =>
    obtain ⟨hloop, hcond⟩ := hcond
    by_cases hfree : x ∈ b.freevars T ∅
    · rw [if_pos hfree] at hloop
      exact ownedOnce_forAll h hfree hloop hv (ih (h.forAll_body (.inl rfl)) hcond)
    · rw [if_neg hfree] at hloop
      exact ownedOnce_body h hfree hloop hv (ih (h.forAll_body (.inr rfl)) hcond)
  | exist x low high b ih => exact ownedOnce_exist h hcond hv
  | ift c a b iha ihb =>
    have hbranches := hcond.2.2
    exact ownedOnce_ift h hcond hv (iha h.ift_thn hbranches.1) (ihb h.ift_els hbranches.2)

/-! ### Linear ownership -/

/-- On each path through what an expression is preprocessed to, each reference that is free or bound is
consumed once, and does not occur after that; `size` are the variables of the array that is returned. -/
def LinearPaths (T : VarTypes) (exp : Finset Var) (size : List Var) (e : Expr) : Prop :=
  ∀ t, (e.preprocess T exp).Path T size t → ∀ v, T.isRef v = true →
    ownRun v (decide (v ∈ e.freevars T exp)) t = some false

theorem preprocess_linear (T : VarTypes) (exp : Finset Var) (size : List Var) (e : Expr)
    (hws : e.WellScoped (e.free ∪ exp)) (hwt : e.WellTyped T exp) (hnodup : e.binders.Nodup)
    (hsize : size.toFinset = exp) (hcond : e.ConsumesOnce T exp ∅ []) :
    LinearPaths T exp size e := by
  intro t ht v hv
  have hexp : exp ⊆ e.free ∪ exp := Finset.subset_union_right
  have howning : Owning T (e.free ∪ exp) exp ∅ [] size e := by
    refine ⟨hws, hwt, hexp, Renames.nil _, hnodup, fun v _ => Finset.notMem_empty v, ?_⟩
    intro w hw _
    rw [applyBindings_nil, Finset.union_empty]
    have hw' : w ∈ exp := hsize ▸ List.mem_toFinset.2 hw
    exact Finset.mem_inter.2 ⟨hw', hexp hw'⟩
  have hrun := ownedOnce e howning hcond hv t ht
  rwa [applyBindings_nil, Finset.union_empty, Finset.empty_inter,
    Finset.inter_eq_left.2 howning.freevars_subset] at hrun

/-- The variables `x0` and `x2` are references. -/
def referenceTypes : VarTypes :=
  ⟨fun v => v == 0 || v == 2, fun _ => false, fun _ => false, fun _ _ => false⟩

/-- `let x2 = g(x0) in if x1 then h(x2) else 0` -/
def releaseInElse : Expr :=
  .letIn false 2 none (.flat (.apply (.fn "g") [] [0]))
    (.ift 1 (.flat (.apply (.fn "h") [] [2])) (.flat (.literal (.integer 0))))

/-- `forall x1 in 0 .. 9: x0(x1)` -/
def lookupUnderForAll : Expr :=
  .forAll 1 ⟨"0", [], 0⟩ ⟨"9", [], 0⟩ (.flat (.lookup 0 1))

/-- The reference `x2` is consumed by `h` or released. -/
theorem preprocess_linear_releaseInElse : LinearPaths referenceTypes ∅ [] releaseInElse :=
  preprocess_linear referenceTypes ∅ [] releaseInElse (by decide) (by decide) (by decide) rfl
    (by decide)

/-- The array is consumed in each round of the loop. -/
theorem not_linear_lookupUnderForAll :
    lookupUnderForAll.WellScoped (lookupUnderForAll.free ∪ ∅) ∧
      lookupUnderForAll.WellTyped referenceTypes ∅ ∧ lookupUnderForAll.binders.Nodup ∧
      ¬LinearPaths referenceTypes ∅ [] lookupUnderForAll := by
  refine ⟨by decide, by decide, by decide, ?_⟩
  intro h
  have hpath : (lookupUnderForAll.preprocess referenceTypes ∅).Path referenceTypes []
      [.bind 1, .consume 0, .consume 1, .bind 1, .consume 0, .consume 1] := by
    have hround : ∃ q, (preprocessIr referenceTypes ∅ ∅ [] (.flat (.lookup 0 1))).Path
        referenceTypes [] q ∧ [.bind 1, .consume 0, .consume 1] = .bind 1 :: q := ⟨_, rfl, rfl⟩
    exact ⟨_, .cons hround (.cons hround .nil), rfl⟩
  have hrun := h _ hpath 0 rfl
  revert hrun
  decide

end PVS.GroundEval.IR
