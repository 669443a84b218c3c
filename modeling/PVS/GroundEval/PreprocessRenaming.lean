import PVS.GroundEval.PreprocessIr

/-! Renaming of variables in scope, and what values depend on. -/

namespace PVS.GroundEval.IR

variable {T : VarTypes} {B : Bindings} {scope E livevars : Finset Var} {x y v : Var}

attribute [local simp] preprocessVar preprocessVars preprocessFields

/-! ### Renaming -/

theorem getAssoc_cons (B : Bindings) (x y v : Var) :
    getAssoc ((x, y) :: B) v = if v = x then y else getAssoc B v := by
  by_cases h : v = x
  · simp [getAssoc, h]
  · simp [getAssoc, List.lookup_cons, beq_eq_false_iff_ne.2 h, h]

@[simp] theorem getAssoc_nil (v : Var) : getAssoc [] v = v := rfl

theorem mem_applyBindings {s : Finset Var} {w : Var} :
    w ∈ applyBindings B s ↔ ∃ v ∈ s, getAssoc B v = w := by
  simp [applyBindings]

theorem applyBindings_subset {s t : Finset Var} (h : s ⊆ t) :
    applyBindings B s ⊆ applyBindings B t := Finset.image_subset_image h

@[simp] theorem applyBindings_union (s t : Finset Var) :
    applyBindings B (s ∪ t) = applyBindings B s ∪ applyBindings B t := Finset.image_union s t

@[simp] theorem applyBindings_empty : applyBindings B ∅ = ∅ := rfl

theorem applyBindings_nil (s : Finset Var) : applyBindings [] s = s := by
  ext v
  simp [mem_applyBindings]

@[simp] theorem Bound.freevars_preprocess (b : Bound) :
    (b.preprocess B).freevars = applyBindings B b.freevars := by
  ext v
  simp [Bound.preprocess, Bound.freevars, mem_applyBindings]

@[simp] theorem arrayExpected_preprocess (high : Option Bound) :
    arrayExpected (high.map (Bound.preprocess B)) = applyBindings B (arrayExpected high) := by
  cases high <;> simp [arrayExpected]

theorem preprocessVars_var (livevars : Finset Var) (xs : List Var) :
    (preprocessVars livevars B xs).map Operand.var = xs.map (getAssoc B) := by
  induction xs with
  | nil => rfl
  | cons x xs ih => simp [preprocessVars, preprocessVar, ih]

theorem preprocessFields_var (livevars : Finset Var) (fs : List (Name × Var)) :
    (preprocessFields livevars B fs).map (fun p => (p.1, p.2.var)) =
      fs.map fun p => (p.1, getAssoc B p.2) := by
  induction fs with
  | nil => rfl
  | cons f fs ih => simp [preprocessFields, preprocessVar, ih]

/-- Without the marks, the variables are renamed. -/
theorem Flat.preprocess_var (n : Flat Var) :
    (n.preprocess T E livevars B).map Operand.var = n.map (getAssoc B) := by
  cases n with
  | apply f params args =>
    cases f <;> simp [Flat.preprocess, Flat.map, Head.map, preprocessVars_var, preprocessVar]
  | record fields => simp [Flat.preprocess, Flat.map, preprocessFields_var]
  | arrayLiteral xs => simp [Flat.preprocess, Flat.map, preprocessVars_var]
  | update t l r => cases l <;> rfl
  | _ => rfl

/-- Variables in scope are renamed to variables in scope, once and for all. -/
structure Renames (scope : Finset Var) (B : Bindings) : Prop where
  mem : ∀ v ∈ scope, getAssoc B v ∈ scope
  idem : ∀ v ∈ scope, getAssoc B (getAssoc B v) = getAssoc B v
  outside : ∀ v ∉ scope, getAssoc B v = v

namespace Renames

theorem nil (scope : Finset Var) : Renames scope [] := ⟨fun _ h => h, fun _ _ => rfl, fun _ _ => rfl⟩

theorem fixed (h : Renames scope B) (hv : v ∈ applyBindings B scope) : getAssoc B v = v := by
  obtain ⟨w, hw, rfl⟩ := mem_applyBindings.1 hv
  exact h.idem w hw

theorem subset (h : Renames scope B) : applyBindings B scope ⊆ scope := by
  intro v hv
  obtain ⟨w, hw, rfl⟩ := mem_applyBindings.1 hv
  exact h.mem w hw

theorem union (h : Renames scope B) {s : Finset Var} (hs : Disjoint s scope) :
    Renames (scope ∪ s) B := by
  have hfix : ∀ v ∈ s, getAssoc B v = v := fun v hv => h.outside v (Finset.disjoint_left.1 hs hv)
  refine ⟨?_, ?_, ?_⟩
  · intro v hv
    rcases Finset.mem_union.1 hv with hv | hv
    · exact Finset.mem_union_left _ (h.mem v hv)
    · rw [hfix v hv]
      exact Finset.mem_union_right _ hv
  · intro v hv
    rcases Finset.mem_union.1 hv with hv | hv
    · exact h.idem v hv
    · rw [hfix v hv, hfix v hv]
  · intro v hv
    exact h.outside v fun hmem => hv (Finset.mem_union_left _ hmem)

theorem insert (h : Renames scope B) (hx : x ∉ scope) : Renames (insert x scope) B := by
  rw [Finset.insert_eq, Finset.union_comm]
  exact h.union (Finset.disjoint_singleton_left.2 hx)

theorem cons (h : Renames scope B) (hx : x ∉ scope) (hy : y ∈ scope) (hfix : getAssoc B y = y) :
    Renames (Insert.insert x scope) ((x, y) :: B) := by
  have hyx : y ≠ x := fun he => hx (he ▸ hy)
  refine ⟨?_, ?_, ?_⟩
  · intro v hv
    rw [getAssoc_cons]
    split
    · exact Finset.mem_insert_of_mem hy
    · rename_i hne
      exact Finset.mem_insert_of_mem (h.mem v (Finset.mem_of_mem_insert_of_ne hv hne))
  · intro v hv
    rw [getAssoc_cons B x y v]
    split
    · rw [getAssoc_cons, if_neg hyx, hfix]
    · rename_i hne
      have hmem := Finset.mem_of_mem_insert_of_ne hv hne
      have hne' : getAssoc B v ≠ x := fun he => hx (he ▸ h.mem v hmem)
      rw [getAssoc_cons, if_neg hne', h.idem v hmem]
  · intro v hv
    rw [Finset.mem_insert, not_or] at hv
    rw [getAssoc_cons, if_neg hv.1, h.outside v hv.2]

theorem apply_union (h : Renames scope B) {s : Finset Var} (hs : Disjoint s scope) :
    applyBindings B (scope ∪ s) = applyBindings B scope ∪ s := by
  have hfix : applyBindings B s = s := by
    rw [applyBindings, Finset.image_congr (g := id), Finset.image_id]
    intro v hv
    exact h.outside v (Finset.disjoint_left.1 hs hv)
  rw [applyBindings_union, hfix]

theorem apply_insert (h : Renames scope B) (hx : x ∉ scope) :
    applyBindings B (Insert.insert x scope) = Insert.insert x (applyBindings B scope) := by
  rw [Finset.insert_eq, Finset.union_comm, h.apply_union (Finset.disjoint_singleton_left.2 hx),
    Finset.union_comm, ← Finset.insert_eq]

theorem apply_cons (hx : x ∉ scope) (hy : y ∈ applyBindings B scope) :
    applyBindings ((x, y) :: B) (Insert.insert x scope) = applyBindings B scope := by
  have hrest : applyBindings ((x, y) :: B) scope = applyBindings B scope := by
    apply Finset.image_congr
    intro v hv
    show getAssoc ((x, y) :: B) v = getAssoc B v
    rw [getAssoc_cons, if_neg]
    rintro rfl
    exact hx hv
  rw [applyBindings, Finset.image_insert, getAssoc_cons, if_pos rfl]
  exact (congrArg _ hrest).trans (Finset.insert_eq_of_mem hy)

end Renames

/-! ### Free variables -/

theorem Flat.freevars_subset_expected (n : Flat Var) :
    n.freevars T E ⊆ n.freevars T ∅ ∪ E := by
  intro v hv
  simp only [Flat.freevars, Finset.mem_union] at hv ⊢
  rcases hv with hv | hv
  · exact .inl (.inl hv)
  · split at hv
    · exact .inr hv
    · simp at hv

theorem Expr.freevars_subset_expected (e : Expr) (hws : e.WellScoped scope) (hexp : E ⊆ scope) :
    e.freevars T E ⊆ e.freevars T ∅ ∪ E := by
  induction e generalizing scope with
  | flat n => exact n.freevars_subset_expected
  | letIn lett x high a b _ ihb =>
    obtain ⟨hx, -, -, hb⟩ := hws
    replace ihb := ihb hb (hexp.trans (Finset.subset_insert x scope))
    have hiff : x ∈ b.freevars T E → x ∈ b.freevars T ∅ := by
      intro h
      exact (Finset.mem_union.1 (ihb h)).resolve_right fun hmem => hx (hexp hmem)
    intro v hv
    simp only [Expr.freevars] at hv ⊢
    grind
  | lambda xs high b _ =>
    intro v hv
    simp only [Expr.freevars, Finset.mem_union, Finset.notMem_empty, false_or] at hv ⊢
    exact hv.symm
  | forAll x low high b ih =>
    replace ih := ih hws.2.2.2 (hexp.trans (Finset.subset_insert x scope))
    intro v hv
    simp only [Expr.freevars] at hv ⊢
    grind
  | exist x low high b ih =>
    replace ih := ih hws.2.2.2 (hexp.trans (Finset.subset_insert x scope))
    intro v hv
    simp only [Expr.freevars] at hv ⊢
    grind
  | ift c a b iha ihb =>
    replace iha := iha hws.2.1 hexp
    replace ihb := ihb hws.2.2 hexp
    intro v hv
    simp only [Expr.freevars] at hv ⊢
    grind

/-- With the variables of the expected type come only more free variables. -/
theorem Expr.freevars_empty_subset (e : Expr) (E : Finset Var) :
    e.freevars T ∅ ⊆ e.freevars T E := by
  induction e with
  | flat n =>
    intro v hv
    simp only [Expr.freevars, Flat.freevars] at hv ⊢
    grind
  | letIn lett x high a b _ ihb =>
    intro v hv
    simp only [Expr.freevars] at hv ⊢
    grind
  | lambda xs high b _ =>
    intro v hv
    simp only [Expr.freevars, Finset.mem_union, Finset.notMem_empty, false_or] at hv ⊢
    exact .inr hv
  | forAll x low high b ih =>
    intro v hv
    simp only [Expr.freevars] at hv ⊢
    grind
  | exist x low high b ih =>
    intro v hv
    simp only [Expr.freevars] at hv ⊢
    grind
  | ift c a b iha ihb =>
    intro v hv
    simp only [Expr.freevars] at hv ⊢
    grind

theorem Expr.freevars_subset_scope (e : Expr) (hws : e.WellScoped scope) (hexp : E ⊆ scope) :
    e.freevars T E ⊆ scope := by
  induction e generalizing scope E with
  | flat n =>
    intro v hv
    simp only [Expr.freevars, Flat.freevars] at hv
    simp only [Expr.WellScoped] at hws
    grind
  | letIn lett x high a b iha ihb =>
    obtain ⟨hx, hhigh, ha, hb⟩ := hws
    replace iha := iha ha hhigh
    replace ihb := ihb hb (hexp.trans (Finset.subset_insert x scope))
    intro v hv
    simp only [Expr.freevars] at hv
    grind
  | lambda xs high b ih =>
    obtain ⟨-, -, hhigh, hb⟩ := hws
    replace ih := ih hb hhigh
    intro v hv
    simp only [Expr.freevars] at hv
    grind
  | forAll x low high b ih =>
    obtain ⟨hx, hlow, hhigh, hb⟩ := hws
    replace ih := ih hb (hexp.trans (Finset.subset_insert x scope))
    intro v hv
    simp only [Expr.freevars] at hv
    grind
  | exist x low high b ih =>
    obtain ⟨hx, hlow, hhigh, hb⟩ := hws
    replace ih := ih hb (hexp.trans (Finset.subset_insert x scope))
    intro v hv
    simp only [Expr.freevars] at hv
    grind
  | ift c a b iha ihb =>
    obtain ⟨hc, ha, hb⟩ := hws
    replace iha := iha ha hexp
    replace ihb := ihb hb hexp
    intro v hv
    simp only [Expr.freevars] at hv
    grind

theorem Expr.freevars_subset_free (e : Expr) (E : Finset Var) :
    e.freevars T E ⊆ e.free ∪ E := by
  induction e generalizing E with
  | flat n =>
    intro v hv
    simp only [Expr.freevars, Flat.freevars] at hv
    simp only [Expr.free]
    grind
  | letIn lett x high a b iha ihb =>
    replace iha := iha (arrayExpected high)
    replace ihb := ihb E
    intro v hv
    simp only [Expr.freevars] at hv
    simp only [Expr.free]
    grind
  | lambda xs high b ih =>
    replace ih := ih (arrayExpected high)
    intro v hv
    simp only [Expr.freevars] at hv
    simp only [Expr.free]
    grind
  | forAll x low high b ih =>
    replace ih := ih E
    intro v hv
    simp only [Expr.freevars] at hv
    simp only [Expr.free]
    grind
  | exist x low high b ih =>
    replace ih := ih E
    intro v hv
    simp only [Expr.freevars] at hv
    simp only [Expr.free]
    grind
  | ift c a b iha ihb =>
    replace iha := iha E
    replace ihb := ihb E
    intro v hv
    simp only [Expr.freevars] at hv
    simp only [Expr.free]
    grind

theorem Expr.free_subset_scope (e : Expr) (hws : e.WellScoped scope) : e.free ⊆ scope := by
  induction e generalizing scope with
  | flat n => exact hws
  | letIn lett x high a b iha ihb =>
    obtain ⟨hx, hhigh, ha, hb⟩ := hws
    replace iha := iha ha
    replace ihb := ihb hb
    intro v hv
    simp only [Expr.free] at hv
    grind
  | lambda xs high b ih =>
    obtain ⟨-, -, hhigh, hb⟩ := hws
    replace ih := ih hb
    intro v hv
    simp only [Expr.free] at hv
    grind
  | forAll x low high b ih =>
    obtain ⟨hx, hlow, hhigh, hb⟩ := hws
    replace ih := ih hb
    intro v hv
    simp only [Expr.free] at hv
    grind
  | exist x low high b ih =>
    obtain ⟨hx, hlow, hhigh, hb⟩ := hws
    replace ih := ih hb
    intro v hv
    simp only [Expr.free] at hv
    grind
  | ift c a b iha ihb =>
    obtain ⟨hc, ha, hb⟩ := hws
    replace iha := iha ha
    replace ihb := ihb hb
    intro v hv
    simp only [Expr.free] at hv
    grind

/-! ### Values -/

section Values

variable {V : Type} {ops : Ops V} {env env' : Var → V}

/-- The indices for which the body of a quantifier is evaluated. -/
def reached (go : V → Bool) (body : V → V) : List V → List V
  | [] => []
  | i :: is => i :: if go (body i) then reached go body is else []

theorem loopWhile_congr {go : V → Bool} {f g : V → V} {is : List V} (r : V)
    (h : ∀ i ∈ reached go f is, f i = g i) : loopWhile go f r is = loopWhile go g r is := by
  induction is generalizing r with
  | nil => rfl
  | cons i is ih =>
    simp only [reached, List.forall_mem_cons] at h
    simp only [loopWhile, ← h.1]
    split
    · rename_i hgo
      rw [if_pos hgo] at h
      exact ih _ h.2
    · rfl

theorem loopWhile_const {go : V → Bool} {v r : V} {is : List V} (h : is ≠ [] ∨ v = r) :
    loopWhile go (fun _ => v) r is = v := by
  induction is generalizing r with
  | nil => exact (h.resolve_left (not_not.2 rfl)).symm
  | cons i is ih =>
    simp only [loopWhile]
    split
    · exact ih (.inr rfl)
    · rfl

theorem bindAll_of_mem {xs : List Var} {args : ℕ → V} (h : v ∈ xs) :
    bindAll env xs args v = args (xs.idxOf v) := if_pos h

theorem bindAll_of_notMem {xs : List Var} {args : ℕ → V} (h : v ∉ xs) :
    bindAll env xs args v = env v := if_neg h

theorem Flat.value_congr {n : Flat Var} (h : ∀ v ∈ n.operands, env v = env' v) :
    n.value ops env = n.value ops env' := by
  cases n with
  | operand x => exact h x (by simp [operands])
  | literal c => rfl
  | apply g params args =>
    have hparams : params.map env = params.map env' :=
      List.map_congr_left fun v hv => h v (by simp [operands, hv])
    have hargs : args.map env = args.map env' :=
      List.map_congr_left fun v hv => h v (by simp [operands, hv])
    cases g with
    | var f =>
      have hf : env f = env' f := h f (by simp [operands, Head.operands])
      rw [value, value, hparams, hargs, hf]
    | fn f => rw [value, value, hparams, hargs]
  | record fields =>
    have hfields : (fields.map fun p => (p.1, env p.2)) = fields.map fun p => (p.1, env' p.2) := by
      apply List.map_congr_left
      intro p hp
      rw [h p.2 (List.mem_map_of_mem hp)]
    rw [value, value, hfields]
  | arrayLiteral xs =>
    have hxs : xs.map env = xs.map env' := List.map_congr_left h
    rw [value, value, hxs]
  | get r g => rw [value, value, h r (by simp [operands])]
  | lookup a i => rw [value, value, h a (by simp [operands]), h i (by simp [operands])]
  | update t l r =>
    have ht : env t = env' t := h t (by simp [operands])
    have hr : env r = env' r := h r (by simp [operands])
    cases l with
    | index i => rw [value, value, ht, hr, h i (by simp [operands, Lhs.operands])]
    | field f => rw [value, value, ht, hr]

theorem Bound.value_congr {b : Bound} (h : ∀ v ∈ b.freevars, env v = env' v) :
    b.value ops env = b.value ops env' := by
  have hvars : b.vars.map env = b.vars.map env' :=
    List.map_congr_left fun v hv => h v (List.mem_toFinset.2 hv)
  rw [Bound.value, Bound.value, hvars]

theorem Bound.value_preprocess (b : Bound) :
    (b.preprocess B).value ops env' = b.value ops fun v => env' (getAssoc B v) := by
  simp [Bound.value, Bound.preprocess, Function.comp_def]

/-- The bounds of a loop are outside of the scope of its variable. -/
theorem mem_freevars_bounds {low high : Bound} {s : Finset Var} (hx : x ∉ scope)
    (hlow : low.freevars ⊆ scope) (hhigh : high.freevars ⊆ scope)
    (h : ∀ v ∈ (low.freevars ∪ high.freevars ∪ s).erase x, env v = env' v) :
    (∀ v ∈ low.freevars, env v = env' v) ∧ (∀ v ∈ high.freevars, env v = env' v) ∧
      ∀ v ∈ s, v ≠ x → env v = env' v := by
  refine ⟨?_, ?_, ?_⟩
  · intro v hv
    apply h
    grind
  · intro v hv
    apply h
    grind
  · intro v hv hne
    apply h
    grind

/-- The value depends on the variables that are counted as free only. -/
theorem Expr.value_congr (e : Expr) (hws : e.WellScoped scope)
    (h : ∀ v ∈ e.freevars T E, env v = env' v) : e.value ops env = e.value ops env' := by
  induction e generalizing scope E env env' with
  | flat n =>
    apply Flat.value_congr
    intro v hv
    exact h v (Finset.mem_union_left _ (List.mem_toFinset.2 hv))
  | letIn lett x high a b iha ihb =>
    obtain ⟨-, -, ha, hb⟩ := hws
    rw [Expr.value, Expr.value]
    apply ihb (E := E) hb
    intro v hv
    by_cases hvx : v = x
    · subst hvx
      rw [Function.update_self, Function.update_self]
      apply iha (E := arrayExpected high) ha
      intro w hw
      apply h
      rw [Expr.freevars, if_pos hv]
      exact Finset.mem_union_left _ hw
    · rw [Function.update_of_ne hvx, Function.update_of_ne hvx]
      apply h
      rw [Expr.freevars]
      split
      · exact Finset.mem_union_right _ (Finset.mem_erase.2 ⟨hvx, hv⟩)
      · exact hv
  | lambda xs high b ih =>
    rw [Expr.value, Expr.value]
    congr 1
    funext args
    apply ih (E := arrayExpected high) hws.2.2.2
    intro v hv
    by_cases hvx : v ∈ xs
    · rw [bindAll_of_mem hvx, bindAll_of_mem hvx]
    · rw [bindAll_of_notMem hvx, bindAll_of_notMem hvx]
      apply h
      rw [Expr.freevars]
      exact Finset.mem_union_right _ (Finset.mem_sdiff.2 ⟨hv, by simpa using hvx⟩)
  | forAll x low high b ih =>
    obtain ⟨hx, hlow, hhigh, hb⟩ := hws
    obtain ⟨hl, hh, hbody⟩ := mem_freevars_bounds hx hlow hhigh h
    rw [Expr.value, Expr.value, Bound.value_congr hl, Bound.value_congr hh]
    congr 1
    funext i
    apply ih (E := E) hb
    intro v hv
    by_cases hvx : v = x
    · simp [hvx]
    · rw [Function.update_of_ne hvx, Function.update_of_ne hvx, hbody v hv hvx]
  | exist x low high b ih =>
    obtain ⟨hx, hlow, hhigh, hb⟩ := hws
    obtain ⟨hl, hh, hbody⟩ := mem_freevars_bounds hx hlow hhigh h
    rw [Expr.value, Expr.value, Bound.value_congr hl, Bound.value_congr hh]
    congr 1
    funext i
    apply ih (E := E) hb
    intro v hv
    by_cases hvx : v = x
    · simp [hvx]
    · rw [Function.update_of_ne hvx, Function.update_of_ne hvx, hbody v hv hvx]
  | ift c a b iha ihb =>
    have hc : env c = env' c := h c (by simp [Expr.freevars])
    have ha := iha (E := E) hws.2.1 fun v hv => h v (by simp [Expr.freevars, hv])
    have hb := ihb (E := E) hws.2.2 fun v hv => h v (by simp [Expr.freevars, hv])
    rw [Expr.value, Expr.value, hc, ha, hb]

end Values

end PVS.GroundEval.IR
