import PVS.GroundEval.PreprocessValue

/-! Scoping of preprocessed expressions, and what preprocessing preserves. -/

namespace PVS.GroundEval.IR

variable {T : VarTypes} {B : Bindings} {scope kept E F livevars : Finset Var} {x y v : Var}

/-! ### Scoping -/

theorem mem_operands_preprocess {n : Flat Var}
    (hv : v ∈ ((n.preprocess T E livevars B).operands.map Operand.var).toFinset) :
    v ∈ applyBindings B n.operands.toFinset := by
  rw [← Flat.operands_map, Flat.preprocess_var, Flat.operands_map] at hv
  obtain ⟨w, hw, rfl⟩ := List.mem_map.1 (List.mem_toFinset.1 hv)
  exact mem_applyBindings.2 ⟨w, List.mem_toFinset.2 hw, rfl⟩

theorem freevars_mkIrRelease (s : Finset Var) (p : Marked) :
    (mkIrRelease s p).freevars T F = p.freevars T F := by
  rw [mkIrRelease]
  split <;> rfl

theorem free_mkIrRelease (s : Finset Var) (p : Marked) :
    (mkIrRelease s p).free = s ∪ p.free := by
  rw [mkIrRelease]
  split
  · rename_i h
    rw [h, Finset.empty_union]
  · rw [Marked.free, Finset.union_empty]

theorem Renames.apply_kept (hB : Renames scope B) (hkept : kept ⊆ applyBindings B scope) :
    applyBindings B kept = kept := by
  rw [applyBindings, Finset.image_congr (g := id), Finset.image_id]
  intro v hv
  exact hB.fixed (hkept hv)

theorem Renames.apply_cons_subset {s : Finset Var} (hs : applyBindings B (s.erase x) ⊆ kept)
    (hy : y ∈ kept) : applyBindings ((x, y) :: B) s ⊆ kept := by
  intro w hw
  obtain ⟨v, hv, rfl⟩ := mem_applyBindings.1 hw
  rw [getAssoc_cons]
  split
  · exact hy
  · rename_i hne
    exact hs (mem_applyBindings.2 ⟨v, Finset.mem_erase.2 ⟨hne, hv⟩, rfl⟩)

/-- What is known where an expression is preprocessed: `kept` are the variables that are bound in the
result, and those that are counted as free are among them. -/
structure Scoped (T : VarTypes) (scope kept E : Finset Var) (B : Bindings) (e : Expr) : Prop where
  wellScoped : e.WellScoped scope
  wellTyped : e.WellTyped T E
  expected : E ⊆ scope
  renames : Renames scope B
  subset : kept ⊆ applyBindings B scope
  expected_kept : applyBindings B E ⊆ kept
  freevars_kept : applyBindings B (e.freevars T E) ⊆ kept

namespace Scoped

variable {lett : Bool} {xs : List Var} {high : Option Bound} {low hi : Bound} {a b : Expr} {c : Var}

theorem letIn_discarded (h : Scoped T scope kept E B (.letIn lett x high a b))
    (hfree : x ∉ b.freevars T E) : Scoped T (insert x scope) kept E B b where
  wellScoped := h.wellScoped.2.2.2
  wellTyped := h.wellTyped.2.2
  expected := h.expected.trans (Finset.subset_insert x scope)
  renames := h.renames.insert h.wellScoped.1
  subset := h.subset.trans (applyBindings_subset (Finset.subset_insert x scope))
  expected_kept := h.expected_kept
  freevars_kept := by
    have hkept := h.freevars_kept
    rwa [Expr.freevars, if_neg hfree] at hkept

theorem letIn_freevars (h : Scoped T scope kept E B (.letIn lett x high a b))
    (hfree : x ∈ b.freevars T E) : applyBindings B (a.freevars T (arrayExpected high)) ⊆ kept ∧
      applyBindings B ((b.freevars T E).erase x) ⊆ kept := by
  have hkept := h.freevars_kept
  rw [Expr.freevars, if_pos hfree, applyBindings_union] at hkept
  exact Finset.union_subset_iff.1 hkept

theorem letIn_bind (h : Scoped T scope kept E B (.letIn lett x high a b))
    (hfree : x ∈ b.freevars T E) (hhigh : applyBindings B (arrayExpected high) ⊆ kept) :
    Scoped T scope kept (arrayExpected high) B a where
  wellScoped := h.wellScoped.2.2.1
  wellTyped := h.wellTyped.2.1
  expected := h.wellScoped.2.1
  renames := h.renames
  subset := h.subset
  expected_kept := hhigh
  freevars_kept := (h.letIn_freevars hfree).1

theorem letIn_self (h : Scoped T scope kept E B (.letIn lett x high a b))
    (hfree : x ∈ b.freevars T E) (hbody : b = .flat (.operand x)) :
    Scoped T scope kept (arrayExpected high) B a := by
  apply h.letIn_bind hfree
  rcases h.wellTyped.1 hbody with hhigh | ⟨-, rfl⟩
  · rw [hhigh]
    exact h.expected_kept
  · exact Finset.empty_subset kept

theorem letIn_copied (h : Scoped T scope kept E B (.letIn lett x high a b))
    (hfree : x ∈ b.freevars T E)
    (hy : replacement T lett x (a.copyOf T (arrayExpected high) livevars B) = some y) :
    Scoped T (insert x scope) kept E ((x, y) :: B) b := by
  obtain ⟨hx, hhigh, ha, hb⟩ := h.wellScoped
  obtain ⟨hyfree, hyscope⟩ := replacement_mem ha hhigh hy
  obtain ⟨hbind, hbody⟩ := h.letIn_freevars hfree
  refine ⟨hb, h.wellTyped.2.2, h.expected.trans (Finset.subset_insert x scope), ?_, ?_, ?_, ?_⟩
  · exact h.renames.cons hx (h.renames.subset hyscope) (h.renames.fixed hyscope)
  · rw [Renames.apply_cons hx hyscope]
    exact h.subset
  · apply Renames.apply_cons_subset _ (hbind hyfree)
    exact (applyBindings_subset (Finset.erase_subset x E)).trans h.expected_kept
  · exact Renames.apply_cons_subset hbody (hbind hyfree)

theorem subset_insert_kept {s : Finset Var} (hB : Renames scope B) (hx : x ∉ scope)
    (hs : applyBindings B (s.erase x) ⊆ kept) : applyBindings B s ⊆ insert x kept := by
  intro w hw
  obtain ⟨v, hv, rfl⟩ := mem_applyBindings.1 hw
  by_cases hvx : v = x
  · rw [hvx, hB.outside x hx]
    exact Finset.mem_insert_self x kept
  · apply Finset.mem_insert_of_mem
    exact hs (mem_applyBindings.2 ⟨v, Finset.mem_erase.2 ⟨hvx, hv⟩, rfl⟩)

theorem insert_kept (h : kept ⊆ applyBindings B scope) (hB : Renames scope B) (hx : x ∉ scope) :
    insert x kept ⊆ applyBindings B (insert x scope) := by
  rw [hB.apply_insert hx]
  exact Finset.insert_subset_insert x h

theorem letIn_body (h : Scoped T scope kept E B (.letIn lett x high a b))
    (hfree : x ∈ b.freevars T E) : Scoped T (insert x scope) (insert x kept) E B b where
  wellScoped := h.wellScoped.2.2.2
  wellTyped := h.wellTyped.2.2
  expected := h.expected.trans (Finset.subset_insert x scope)
  renames := h.renames.insert h.wellScoped.1
  subset := insert_kept h.subset h.renames h.wellScoped.1
  expected_kept := h.expected_kept.trans (Finset.subset_insert x kept)
  freevars_kept := subset_insert_kept h.renames h.wellScoped.1 (h.letIn_freevars hfree).2

theorem lambda_body (h : Scoped T scope kept E B (.lambda xs high b))
    (hhigh : applyBindings B (arrayExpected high) ⊆ kept ∪ xs.toFinset) :
    Scoped T (scope ∪ xs.toFinset) (kept ∪ xs.toFinset) (arrayExpected high) B b := by
  obtain ⟨-, hdisj, hsub, hb⟩ := h.wellScoped
  refine ⟨hb, h.wellTyped, hsub, h.renames.union hdisj, ?_, hhigh, ?_⟩
  · rw [h.renames.apply_union hdisj]
    exact Finset.union_subset_union_left h.subset
  · intro w hw
    obtain ⟨v, hv, rfl⟩ := mem_applyBindings.1 hw
    by_cases hvx : v ∈ xs.toFinset
    · rw [h.renames.outside v (Finset.disjoint_left.1 hdisj hvx)]
      exact Finset.mem_union_right _ hvx
    · apply Finset.mem_union_left
      apply h.freevars_kept
      refine mem_applyBindings.2 ⟨v, ?_, rfl⟩
      rw [Expr.freevars]
      exact Finset.mem_union_right _ (Finset.mem_sdiff.2 ⟨hv, hvx⟩)

theorem forAll_freevars (h : Scoped T scope kept E B (.forAll x low hi b)) :
    applyBindings B low.freevars ⊆ kept ∧ applyBindings B hi.freevars ⊆ kept ∧
      applyBindings B ((b.freevars T E).erase x) ⊆ kept := by
  obtain ⟨hx, hlow, hhigh, hb⟩ := h.wellScoped
  have hkept := h.freevars_kept
  rw [Expr.freevars, Finset.erase_union_distrib, Finset.erase_union_distrib,
    Finset.erase_eq_of_notMem fun hmem => hx (hlow hmem),
    Finset.erase_eq_of_notMem fun hmem => hx (hhigh hmem), applyBindings_union,
    applyBindings_union] at hkept
  obtain ⟨hbounds, hbody⟩ := Finset.union_subset_iff.1 hkept
  exact ⟨(Finset.union_subset_iff.1 hbounds).1, (Finset.union_subset_iff.1 hbounds).2, hbody⟩

theorem forAll_body (h : Scoped T scope kept E B (.forAll x low hi b)) :
    Scoped T (insert x scope) (insert x kept) E B b where
  wellScoped := h.wellScoped.2.2.2
  wellTyped := h.wellTyped
  expected := h.expected.trans (Finset.subset_insert x scope)
  renames := h.renames.insert h.wellScoped.1
  subset := insert_kept h.subset h.renames h.wellScoped.1
  expected_kept := h.expected_kept.trans (Finset.subset_insert x kept)
  freevars_kept := subset_insert_kept h.renames h.wellScoped.1 h.forAll_freevars.2.2

theorem forAll_discarded (h : Scoped T scope kept E B (.forAll x low hi b))
    (hfree : x ∉ b.freevars T ∅) : Scoped T (insert x scope) kept E B b where
  wellScoped := h.wellScoped.2.2.2
  wellTyped := h.wellTyped
  expected := h.expected.trans (Finset.subset_insert x scope)
  renames := h.renames.insert h.wellScoped.1
  subset := h.subset.trans (applyBindings_subset (Finset.subset_insert x scope))
  expected_kept := h.expected_kept
  freevars_kept := by
    have hkept := h.forAll_freevars.2.2
    have hx := h.wellScoped.1
    rwa [Finset.erase_eq_of_notMem
      fun hmem => hfree ((mem_freevars_iff hx h.expected h.wellScoped.2.2.2).1 hmem)] at hkept

theorem ift_freevars (h : Scoped T scope kept E B (.ift c a b)) :
    getAssoc B c ∈ kept ∧ applyBindings B (a.freevars T E) ⊆ kept ∧
      applyBindings B (b.freevars T E) ⊆ kept := by
  have hkept := h.freevars_kept
  rw [Expr.freevars, applyBindings_union, applyBindings_union] at hkept
  obtain ⟨hc, hbranches⟩ := Finset.union_subset_iff.1 hkept
  refine ⟨hc (mem_applyBindings.2 ⟨c, Finset.mem_singleton_self c, rfl⟩), ?_⟩
  exact Finset.union_subset_iff.1 hbranches

theorem ift_thn (h : Scoped T scope kept E B (.ift c a b)) : Scoped T scope kept E B a :=
  ⟨h.wellScoped.2.1, h.wellTyped.1, h.expected, h.renames, h.subset, h.expected_kept,
    h.ift_freevars.2.1⟩

theorem ift_els (h : Scoped T scope kept E B (.ift c a b)) : Scoped T scope kept E B b :=
  ⟨h.wellScoped.2.2, h.wellTyped.2, h.expected, h.renames, h.subset, h.expected_kept,
    h.ift_freevars.2.2⟩

end Scoped

theorem Scoped.operands_kept {n : Flat Var} (h : Scoped T scope kept E B (.flat n)) :
    ((n.preprocess T E livevars B).operands.map Operand.var).toFinset ⊆ kept := by
  intro v hv
  apply h.freevars_kept
  exact applyBindings_subset Finset.subset_union_left (mem_operands_preprocess hv)

/-- What is counted as free in the result is bound in it. -/
theorem freevars_preprocessIr_subset (e : Expr) (h : Scoped T scope kept E B e)
    (hkeep : e.KeepsScope T kept E livevars B) (F : Finset Var) :
    (preprocessIr T E livevars B e).freevars T F ⊆ kept ∪ F := by
  induction e generalizing scope kept E livevars B F with
  | flat n =>
    intro v hv
    rw [preprocessIr, Marked.freevars, Flat.freevars, Flat.operands_map] at hv
    rcases Finset.mem_union.1 hv with hv | hv
    · exact Finset.mem_union_left _ (h.operands_kept hv)
    · apply Finset.mem_union_right
      split at hv
      · exact hv
      · simp at hv
  | letIn lett x high a b iha ihb =>
    by_cases hfree : x ∈ b.freevars T E
    · simp only [Expr.KeepsScope, if_pos hfree] at hkeep
      simp only [preprocessIr, if_pos hfree, operand?_preprocessIr]
      by_cases hbody : b = .flat (.operand x) ∧ T.isArraytype x = false
      · rw [if_pos hbody] at hkeep ⊢
        exact iha (h.letIn_self hfree hbody.1) hkeep F
      · rw [if_neg hbody] at hkeep ⊢
        cases hrep : replacement T lett x (a.copyOf T (arrayExpected high)
            (applyBindings B (b.freevars T E) ∪ livevars) B) with
        | some y =>
          rw [hrep] at hkeep
          exact ihb (h.letIn_copied hfree hrep) hkeep F
        | none =>
          rw [hrep] at hkeep
          obtain ⟨hhigh, hkeepa, hkeepb⟩ := hkeep
          have hbind := iha (h.letIn_bind hfree hhigh) hkeepa (applyBindings B (arrayExpected high))
          have hrest := ihb (h.letIn_body hfree) hkeepb F
          clear iha ihb
          intro v hv
          simp only [Marked.freevars, arrayExpected_preprocess] at hv
          grind
    · rw [preprocessIr, if_neg hfree]
      rw [Expr.KeepsScope, if_neg hfree] at hkeep
      exact ihb (h.letIn_discarded hfree) hkeep F
  | lambda xs high b ih =>
    obtain ⟨hhigh, hkeep⟩ := hkeep
    have hbody := ih (h.lambda_body hhigh) hkeep (applyBindings B (arrayExpected high))
    clear ih
    intro v hv
    simp only [preprocessIr, Marked.freevars, arrayExpected_preprocess] at hv
    grind
  | forAll x low high b ih =>
    rw [Expr.KeepsScope] at hkeep
    rw [preprocessIr]
    by_cases hfree : x ∈ b.freevars T ∅
    · rw [if_pos hfree] at hkeep ⊢
      obtain ⟨hlow, hhigh, -⟩ := h.forAll_freevars
      have hbody := ih h.forAll_body hkeep F
      clear ih
      intro v hv
      simp only [Marked.freevars, Bound.freevars_preprocess] at hv
      grind
    · rw [if_neg hfree] at hkeep ⊢
      exact ih (h.forAll_discarded hfree) hkeep F
  | exist x low high b ih => exact h.freevars_kept.trans Finset.subset_union_left
  | ift c a b iha ihb =>
    obtain ⟨hkeepa, hkeepb⟩ := hkeep
    have hc := h.ift_freevars.1
    replace iha := iha h.ift_thn hkeepa F
    replace ihb := ihb h.ift_els hkeepb F
    intro v hv
    simp only [preprocessIr, Marked.freevars, freevars_mkIrRelease, preprocessVar] at hv
    grind

/-- The variables released in one branch are bound. -/
theorem Scoped.released_kept {e : Expr} {s : Finset Var} (h : Scoped T scope kept E B e)
    (hs : s ⊆ kept ∪ E) : applyBindings B s ⊆ kept := by
  apply (applyBindings_subset hs).trans
  rw [applyBindings_union, h.renames.apply_kept h.subset]
  exact Finset.union_subset (Finset.Subset.refl kept) h.expected_kept

theorem free_preprocessIr_subset (e : Expr) (h : Scoped T scope kept E B e)
    (hkeep : e.KeepsScope T kept E livevars B) : (preprocessIr T E livevars B e).free ⊆ kept := by
  induction e generalizing scope kept E livevars B with
  | flat n => exact h.operands_kept
  | letIn lett x high a b iha ihb =>
    by_cases hfree : x ∈ b.freevars T E
    · simp only [Expr.KeepsScope, if_pos hfree] at hkeep
      simp only [preprocessIr, if_pos hfree, operand?_preprocessIr]
      by_cases hbody : b = .flat (.operand x) ∧ T.isArraytype x = false
      · rw [if_pos hbody] at hkeep ⊢
        exact iha (h.letIn_self hfree hbody.1) hkeep
      · rw [if_neg hbody] at hkeep ⊢
        cases hrep : replacement T lett x (a.copyOf T (arrayExpected high)
            (applyBindings B (b.freevars T E) ∪ livevars) B) with
        | some y =>
          rw [hrep] at hkeep
          exact ihb (h.letIn_copied hfree hrep) hkeep
        | none =>
          rw [hrep] at hkeep
          obtain ⟨hhigh, hkeepa, hkeepb⟩ := hkeep
          have hbind := iha (h.letIn_bind hfree hhigh) hkeepa
          have hrest := ihb (h.letIn_body hfree) hkeepb
          simp only [Marked.free, arrayExpected_preprocess]
          grind
    · rw [preprocessIr, if_neg hfree]
      rw [Expr.KeepsScope, if_neg hfree] at hkeep
      exact ihb (h.letIn_discarded hfree) hkeep
  | lambda xs high b ih =>
    obtain ⟨hhigh, hkeep⟩ := hkeep
    have hbody := ih (h.lambda_body hhigh) hkeep
    have hlast := h.freevars_kept
    simp only [preprocessIr, Marked.free, arrayExpected_preprocess]
    grind
  | forAll x low high b ih =>
    rw [Expr.KeepsScope] at hkeep
    rw [preprocessIr]
    by_cases hfree : x ∈ b.freevars T ∅
    · rw [if_pos hfree] at hkeep ⊢
      obtain ⟨hlow, hhigh, -⟩ := h.forAll_freevars
      have hbody := ih h.forAll_body hkeep
      simp only [Marked.free, Bound.freevars_preprocess]
      grind
    · rw [if_neg hfree] at hkeep ⊢
      exact ih (h.forAll_discarded hfree) hkeep
  | exist x low high b ih => exact hkeep
  | ift c a b iha ihb =>
    obtain ⟨hkeepa, hkeepb⟩ := hkeep
    have hc := h.ift_freevars.1
    have hthn := h.released_kept (freevars_preprocessIr_subset a h.ift_thn hkeepa E)
    have hels := h.released_kept (freevars_preprocessIr_subset b h.ift_els hkeepb E)
    replace iha := iha h.ift_thn hkeepa
    replace ihb := ihb h.ift_els hkeepb
    simp only [preprocessIr, Marked.free, free_mkIrRelease, preprocessVar]
    grind

/-- Where the result is well scoped, so is each `exist` and each type in it. -/
theorem keepsScope_of_free_subset (e : Expr) (h : (preprocessIr T E livevars B e).free ⊆ kept) :
    e.KeepsScope T kept E livevars B := by
  induction e generalizing kept E livevars B with
  | flat n => trivial
  | letIn lett x high a b iha ihb =>
    by_cases hfree : x ∈ b.freevars T E
    · simp only [preprocessIr, if_pos hfree, operand?_preprocessIr] at h
      simp only [Expr.KeepsScope, if_pos hfree]
      by_cases hbody : b = .flat (.operand x) ∧ T.isArraytype x = false
      · rw [if_pos hbody] at h ⊢
        exact iha h
      · rw [if_neg hbody] at h ⊢
        cases hrep : replacement T lett x (a.copyOf T (arrayExpected high)
            (applyBindings B (b.freevars T E) ∪ livevars) B) with
        | some y =>
          rw [hrep] at h
          exact ihb h
        | none =>
          rw [hrep] at h
          simp only [Marked.free, arrayExpected_preprocess, Finset.union_subset_iff] at h
          obtain ⟨⟨hhigh, hbind⟩, hrest⟩ := h
          exact ⟨hhigh, iha hbind, ihb (Finset.subset_insert_iff.2 hrest)⟩
    · rw [preprocessIr, if_neg hfree] at h
      rw [Expr.KeepsScope, if_neg hfree]
      exact ihb h
  | lambda xs high b ih =>
    simp only [preprocessIr, Marked.free, arrayExpected_preprocess, Finset.union_subset_iff] at h
    have hunion : ∀ s : Finset Var, s \ xs.toFinset ⊆ kept → s ⊆ kept ∪ xs.toFinset := by
      intro s hs
      rw [Finset.union_comm]
      exact sdiff_le_iff.1 hs
    rw [Finset.union_sdiff_distrib, Finset.union_subset_iff] at h
    exact ⟨hunion _ h.2.1, ih (hunion _ h.2.2)⟩
  | forAll x low high b ih =>
    rw [preprocessIr] at h
    rw [Expr.KeepsScope]
    by_cases hfree : x ∈ b.freevars T ∅
    · rw [if_pos hfree] at h ⊢
      simp only [Marked.free, Finset.union_subset_iff] at h
      exact ih (Finset.subset_insert_iff.2 h.2)
    · rw [if_neg hfree] at h ⊢
      exact ih h
  | exist x low high b ih => exact h
  | ift c a b iha ihb =>
    simp only [preprocessIr, Marked.free, free_mkIrRelease, Finset.union_subset_iff] at h
    exact ⟨iha h.2.1.2, ihb h.2.2.2⟩

/-! ### What preprocessing preserves -/

/-- `preprocess-ir`; `exp` are the variables of the array type that is returned. -/
def Expr.preprocess (T : VarTypes) (exp : Finset Var) (e : Expr) : Marked :=
  preprocessIr T exp ∅ [] e

/-- Each variable of the result is bound or in scope, and the value is that of `e`. -/
structure Preserved (T : VarTypes) (exp : Finset Var) {V : Type} (ops : Ops V) (env : Var → V)
    (e : Expr) : Prop where
  scope : (e.preprocess T exp).free ⊆ e.free ∪ exp
  value : (e.preprocess T exp).value ops env = e.value ops env

/-- Scopes are preserved just when no `exist` and no type has a variable whose binding does not
remain, and values where no `forall` over an empty range is discarded. -/
theorem preprocess_preserves (T : VarTypes) (exp : Finset Var) (e : Expr)
    (hws : e.WellScoped (e.free ∪ exp)) (hwt : e.WellTyped T exp) :
    ((e.preprocess T exp).free ⊆ e.free ∪ exp ↔ e.KeepsScope T (e.free ∪ exp) exp ∅ []) ∧
      ∀ (V : Type) (ops : Ops V) (env : Var → V), e.KeepsScope T (e.free ∪ exp) exp ∅ [] →
        e.DroppedRun T ops exp env → Preserved T exp ops env e := by
  have hexp : exp ⊆ e.free ∪ exp := Finset.subset_union_right
  have hsub : e.free ∪ exp ⊆ applyBindings [] (e.free ∪ exp) := (applyBindings_nil _).ge
  have hscoped : Scoped T (e.free ∪ exp) (e.free ∪ exp) exp [] e := by
    refine ⟨hws, hwt, hexp, Renames.nil _, hsub, ?_, ?_⟩
    · rw [applyBindings_nil]
      exact hexp
    · rw [applyBindings_nil]
      exact e.freevars_subset_scope hws hexp
  refine ⟨⟨keepsScope_of_free_subset e, free_preprocessIr_subset e hscoped⟩, ?_⟩
  intro V ops env hkeep hrun
  refine ⟨free_preprocessIr_subset e hscoped hkeep, ?_⟩
  exact value_preprocessIr e hws hexp (Renames.nil _) (fun _ _ => rfl) hsub hkeep hrun

/-- All variables have one type, of numbers. -/
def numberTypes : VarTypes := ⟨fun _ => false, fun _ => false, fun _ => false, fun _ _ => true⟩

/-- `let x1 = x0 in exists x2 in 0 .. 9: p(x1, x2)` -/
def copyUnderExist : Expr :=
  .letIn false 1 none (.flat (.operand 0))
    (.exist 2 ⟨"0", [], 0⟩ ⟨"9", [], 0⟩ (.flat (.apply (.fn "p") [] [1, 2])))

/-- `let x1 = g(x0) in exists x2 in 0 .. 9: p(x1, x2)` -/
def valueUnderExist : Expr :=
  .letIn false 1 none (.flat (.apply (.fn "g") [] [0]))
    (.exist 2 ⟨"0", [], 0⟩ ⟨"9", [], 0⟩ (.flat (.apply (.fn "p") [] [1, 2])))

/-- The binding remains, and so do scopes and values. -/
theorem preprocess_preserves_valueUnderExist :
    valueUnderExist.KeepsScope numberTypes (valueUnderExist.free ∪ ∅) ∅ ∅ [] ∧
      ∀ (V : Type) (ops : Ops V) (env : Var → V), Preserved numberTypes ∅ ops env valueUnderExist := by
  obtain ⟨hscope, hpreserved⟩ :=
    preprocess_preserves numberTypes ∅ valueUnderExist (by decide) (by decide)
  have hkeep := hscope.1 (by decide)
  exact ⟨hkeep, fun V ops env => hpreserved V ops env hkeep ⟨fun _ => trivial, trivial⟩⟩

/-- The binding is replaced, and the variable is left under the `exist`. -/
theorem not_preserved_copyUnderExist :
    copyUnderExist.WellScoped (copyUnderExist.free ∪ ∅) ∧ copyUnderExist.WellTyped numberTypes ∅ ∧
      ∀ (V : Type) (ops : Ops V) (env : Var → V), ¬Preserved numberTypes ∅ ops env copyUnderExist := by
  refine ⟨by decide, by decide, ?_⟩
  intro V ops env h
  have hscope := h.scope
  revert hscope
  decide

end PVS.GroundEval.IR
