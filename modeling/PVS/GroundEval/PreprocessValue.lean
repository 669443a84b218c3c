import PVS.GroundEval.PreprocessRenaming

/-! Preprocessing keeps scopes and values, but for variables under `exist` and loops that do not run. -/

namespace PVS.GroundEval.IR

variable {T : VarTypes} {B : Bindings} {scope kept E livevars : Finset Var} {x y v : Var}

/-! ### When it does -/

section

variable (T)

/-- The variable that an expression is after preprocessing. -/
def Expr.copyOf (exp livevars : Finset Var) (bindings : Bindings) : Expr → Option Operand
  | .flat (.operand x) => some (preprocessVar livevars bindings x)
  | .letIn lett x high a b =>
    if x ∈ b.freevars T exp then
      let copied := a.copyOf (arrayExpected high)
        (applyBindings bindings (b.freevars T exp) ∪ livevars) bindings
      if b = .flat (.operand x) ∧ T.isArraytype x = false then copied
      else (replacement T lett x copied).bind fun y => b.copyOf exp livevars ((x, y) :: bindings)
    else b.copyOf exp livevars bindings
  | .forAll x _ _ b => if x ∈ b.freevars T ∅ then none else b.copyOf exp livevars bindings
  | _ => none

/-- No type of an array that remains, and no `exist`, has a variable whose binding does not remain.
The variables that do are `kept`. -/
def Expr.KeepsScope (kept exp livevars : Finset Var) (bindings : Bindings) : Expr → Prop
  | .flat _ => True
  | .letIn lett x high a b =>
    if x ∈ b.freevars T exp then
      let livevarsWithBody := applyBindings bindings (b.freevars T exp) ∪ livevars
      if b = .flat (.operand x) ∧ T.isArraytype x = false then
        a.KeepsScope kept (arrayExpected high) livevarsWithBody bindings
      else
        match replacement T lett x (a.copyOf T (arrayExpected high) livevarsWithBody bindings) with
        | some y => b.KeepsScope kept exp livevars ((x, y) :: bindings)
        | none => applyBindings bindings (arrayExpected high) ⊆ kept ∧
            a.KeepsScope kept (arrayExpected high) livevarsWithBody bindings ∧
            b.KeepsScope (insert x kept) exp livevars bindings
    else b.KeepsScope kept exp livevars bindings
  | .lambda xs high b =>
    applyBindings bindings (arrayExpected high) ⊆ kept ∪ xs.toFinset ∧
      b.KeepsScope (kept ∪ xs.toFinset) (arrayExpected high)
        (applyBindings bindings ((Expr.lambda xs high b).freevars T exp) ∪ livevars) bindings
  | .forAll x _ _ b =>
    if x ∈ b.freevars T ∅ then b.KeepsScope (insert x kept) exp livevars bindings
    else b.KeepsScope kept exp livevars bindings
  | .exist x low high b => (Expr.exist x low high b).free ⊆ kept
  | .ift _ a b => a.KeepsScope kept exp livevars bindings ∧ b.KeepsScope kept exp livevars bindings

/-- A `forall` whose variable does not occur is evaluated only where its range is not empty or its
body is true. -/
def Expr.DroppedRun {V : Type} (ops : Ops V) (exp : Finset Var) (env : Var → V) : Expr → Prop
  | .flat _ => True
  | .letIn _ x high a b =>
    (x ∈ b.freevars T exp → a.DroppedRun ops (arrayExpected high) env) ∧
      b.DroppedRun ops exp (Function.update env x (a.value ops env))
  | .lambda xs high b => ∀ args, b.DroppedRun ops (arrayExpected high) (bindAll env xs args)
  | .forAll x low high b =>
    let is := ops.indices (low.value ops env) (high.value ops env)
    if x ∈ b.freevars T ∅ then
      ∀ i ∈ reached ops.isTrue (fun i => b.value ops (Function.update env x i)) is,
        b.DroppedRun ops exp (Function.update env x i)
    else (is ≠ [] ∨ b.value ops env = ops.literal (.bool true)) ∧ b.DroppedRun ops exp env
  | .exist .. => True
  | .ift c a b => if ops.isTrue (env c) then a.DroppedRun ops exp env else b.DroppedRun ops exp env

end

/-! ### Variables that are copied -/

theorem operand?_preprocessIr (e : Expr) (E livevars : Finset Var) (B : Bindings) :
    (preprocessIr T E livevars B e).operand? = e.copyOf T E livevars B := by
  induction e generalizing E livevars B with
  | flat n => cases n <;> rfl
  | letIn lett x high a b iha ihb =>
    rw [preprocessIr, Expr.copyOf]
    split
    · simp only [iha]
      split
      · exact iha _ _ _
      · cases replacement T lett x (a.copyOf T (arrayExpected high)
            (applyBindings B (b.freevars T E) ∪ livevars) B) with
        | none => rfl
        | some y => exact ihb _ _ _
    · exact ihb _ _ _
  | lambda xs high b ih => rfl
  | forAll x low high b ih =>
    rw [preprocessIr, Expr.copyOf]
    split
    · rfl
    · exact ih _ _ _
  | exist x low high b ih => rfl
  | ift c a b iha ihb => rfl

theorem replacement_eq_some {lett : Bool} {o : Option Operand} (h : replacement T lett x o = some y) :
    ∃ p, o = some p ∧ p.var = y := by
  cases o with
  | none => cases h
  | some p =>
    rw [replacement, Option.bind_some] at h
    split at h
    · exact ⟨p, rfl, Option.some.inj h⟩
    · cases h

/-- A variable that is bound outside is free with an expected array just when it is without. -/
theorem mem_freevars_iff {b : Expr} (hx : x ∉ scope) (hexp : E ⊆ scope)
    (hb : b.WellScoped (insert x scope)) : x ∈ b.freevars T E ↔ x ∈ b.freevars T ∅ := by
  constructor
  · intro h
    have hsub := b.freevars_subset_expected hb (hexp.trans (Finset.subset_insert x scope)) h
    exact (Finset.mem_union.1 hsub).resolve_right fun hmem => hx (hexp hmem)
  · intro h
    exact b.freevars_empty_subset E h

/-- A copy is of a free variable. -/
theorem copyOf_mem (e : Expr) (hws : e.WellScoped scope) (hexp : E ⊆ scope) {o : Operand}
    (h : e.copyOf T E livevars B = some o) : o.var ∈ applyBindings B (e.freevars T E) := by
  induction e generalizing scope E livevars B o with
  | flat n =>
    cases n with
    | operand x =>
      obtain rfl := Option.some.inj h
      exact mem_applyBindings.2 ⟨x, by simp [Expr.freevars, Flat.freevars, Flat.operands], rfl⟩
    | _ => cases h
  | letIn lett x high a b iha ihb =>
    obtain ⟨hx, hhigh, ha, hb⟩ := hws
    have hexp' := hexp.trans (Finset.subset_insert x scope)
    rw [Expr.copyOf] at h
    rw [Expr.freevars]
    split at h
    · rename_i hfree
      rw [if_pos hfree, applyBindings_union, Finset.mem_union]
      split at h
      · exact .inl (iha ha hhigh h)
      · obtain ⟨y, hy, hcopy⟩ := Option.bind_eq_some_iff.1 h
        obtain ⟨p, hp, rfl⟩ := replacement_eq_some hy
        obtain ⟨v, hv, hvo⟩ := mem_applyBindings.1 (ihb hb hexp' hcopy)
        rw [getAssoc_cons] at hvo
        split at hvo
        · exact .inl (hvo ▸ iha ha hhigh hp)
        · rename_i hne
          exact .inr (mem_applyBindings.2 ⟨v, Finset.mem_erase.2 ⟨hne, hv⟩, hvo⟩)
    · rename_i hfree
      rw [if_neg hfree]
      exact ihb hb hexp' h
  | lambda xs high b ih => cases h
  | forAll x low high b ih =>
    obtain ⟨hx, -, -, hb⟩ := hws
    rw [Expr.copyOf] at h
    split at h
    · cases h
    · rename_i hfree
      obtain ⟨v, hv, hvo⟩ := mem_applyBindings.1 (ih hb (hexp.trans (Finset.subset_insert x scope)) h)
      have hne : v ≠ x := by
        rintro rfl
        exact hfree ((mem_freevars_iff hx hexp hb).1 hv)
      refine mem_applyBindings.2 ⟨v, ?_, hvo⟩
      rw [Expr.freevars]
      exact Finset.mem_erase.2 ⟨hne, Finset.mem_union_right _ hv⟩
  | exist x low high b ih => cases h
  | ift c a b iha ihb => cases h

/-- The replacement of a variable is in scope and is not renamed any more. -/
theorem replacement_mem {lett : Bool} {a : Expr} (hws : a.WellScoped scope) (hexp : E ⊆ scope)
    (h : replacement T lett x (a.copyOf T E livevars B) = some y) :
    y ∈ applyBindings B (a.freevars T E) ∧ y ∈ applyBindings B scope := by
  obtain ⟨p, hp, rfl⟩ := replacement_eq_some h
  have hmem := copyOf_mem a hws hexp hp
  exact ⟨hmem, applyBindings_subset (a.freevars_subset_scope hws hexp) hmem⟩

/-- Nothing remains of an expression that is a copy. -/
theorem keepsScope_of_copyOf (e : Expr) {o : Operand} (h : e.copyOf T E livevars B = some o) :
    e.KeepsScope T kept E livevars B := by
  induction e generalizing E livevars B o with
  | flat n => trivial
  | letIn lett x high a b iha ihb =>
    rw [Expr.copyOf] at h
    rw [Expr.KeepsScope]
    split at h
    · rename_i hfree
      rw [if_pos hfree]
      split at h
      · rename_i hbody
        simp only [if_pos hbody]
        exact iha h
      · rename_i hbody
        obtain ⟨y, hy, hcopy⟩ := Option.bind_eq_some_iff.1 h
        simp only [if_neg hbody, hy]
        exact ihb hcopy
    · rename_i hfree
      rw [if_neg hfree]
      exact ihb h
  | lambda xs high b ih => cases h
  | forAll x low high b ih =>
    rw [Expr.copyOf] at h
    rw [Expr.KeepsScope]
    split at h
    · cases h
    · rename_i hfree
      rw [if_neg hfree]
      exact ih h
  | exist x low high b ih => cases h
  | ift c a b iha ihb => cases h

/-! ### Values -/

section Values

variable {V : Type} {ops : Ops V} {env env' : Var → V}

theorem update_getAssoc (hB : Renames scope B) (hx : x ∉ scope) {s : Finset Var}
    (hs : s ⊆ insert x scope) (henv : ∀ v ∈ s, v ≠ x → env' (getAssoc B v) = env v) {w w' : V}
    (hw : w' = w) :
    ∀ v ∈ s, Function.update env' x w' (getAssoc B v) = Function.update env x w v := by
  intro v hv
  by_cases hvx : v = x
  · subst hvx
    rw [hB.outside v hx, Function.update_self, Function.update_self, hw]
  · have hmem := Finset.mem_of_mem_insert_of_ne (hs hv) hvx
    have hne : getAssoc B v ≠ x := fun he => hx (he ▸ hB.mem v hmem)
    rw [Function.update_of_ne hne, Function.update_of_ne hvx, henv v hv hvx]

theorem value_mkIrRelease (s : Finset Var) (p : Marked) :
    (mkIrRelease s p).value ops env = p.value ops env := by
  rw [mkIrRelease]
  split <;> rfl

theorem value_of_operand? (ops : Ops V) (env : Var → V) {p : Marked} {o : Operand}
    (h : p.operand? = some o) :
    p.value ops env = env o.var := by
  cases p with
  | flat n =>
    cases n with
    | operand x =>
      obtain rfl := Option.some.inj h
      rfl
    | _ => cases h
  | _ => cases h

/-- Preprocessing keeps the value. -/
theorem value_preprocessIr (e : Expr) (hws : e.WellScoped scope) (hexp : E ⊆ scope)
    (hB : Renames scope B) (henv : ∀ v ∈ e.freevars T E, env' (getAssoc B v) = env v)
    (hkept : kept ⊆ applyBindings B scope) (hex : e.KeepsScope T kept E livevars B)
    (hrun : e.DroppedRun T ops E env) :
    (preprocessIr T E livevars B e).value ops env' = e.value ops env := by
  induction e generalizing scope kept E livevars B env env' with
  | flat n =>
    rw [preprocessIr, Marked.value, ← Flat.value_map, Flat.preprocess_var, Flat.value_map, Expr.value]
    apply Flat.value_congr
    intro v hv
    exact henv v (Finset.mem_union_left _ (List.mem_toFinset.2 hv))
  | letIn lett x high a b iha ihb =>
    obtain ⟨hx, hhigh, ha, hb⟩ := hws
    obtain ⟨hruna, hrunb⟩ := hrun
    have hexp' := hexp.trans (Finset.subset_insert x scope)
    have hkept' := hkept.trans (applyBindings_subset (Finset.subset_insert x scope))
    rw [Expr.value]
    by_cases hfree : x ∈ b.freevars T E
    · simp only [Expr.freevars, if_pos hfree, Finset.mem_union] at henv
      have henva : ∀ v ∈ a.freevars T (arrayExpected high), env' (getAssoc B v) = env v :=
        fun v hv => henv v (.inl hv)
      have henvb : ∀ v ∈ b.freevars T E, v ≠ x → env' (getAssoc B v) = env v :=
        fun v hv hne => henv v (.inr (Finset.mem_erase.2 ⟨hne, hv⟩))
      simp only [Expr.KeepsScope, if_pos hfree] at hex
      simp only [preprocessIr, if_pos hfree, operand?_preprocessIr]
      by_cases hbody : b = .flat (.operand x) ∧ T.isArraytype x = false
      · rw [if_pos hbody] at hex ⊢
        rw [iha ha hhigh hB henva hkept hex (hruna hfree), hbody.1, Expr.value, Flat.value,
          Function.update_self]
      · rw [if_neg hbody] at hex ⊢
        cases hrep : replacement T lett x (a.copyOf T (arrayExpected high)
            (applyBindings B (b.freevars T E) ∪ livevars) B) with
        | some y =>
          rw [hrep] at hex
          obtain ⟨-, hy⟩ := replacement_mem ha hhigh hrep
          obtain ⟨o, ho, rfl⟩ := replacement_eq_some hrep
          have hcopy : env' o.var = a.value ops env := by
            rw [← value_of_operand? ops env' ((operand?_preprocessIr a _ _ _).trans ho)]
            exact iha ha hhigh hB henva hkept (keepsScope_of_copyOf a ho) (hruna hfree)
          apply ihb hb hexp' (hB.cons hx (hB.subset hy) (hB.fixed hy)) ?_ ?_ hex hrunb
          swap
          · rw [Renames.apply_cons hx hy]
            exact hkept
          intro v hv
          rw [getAssoc_cons]
          by_cases hvx : v = x
          · rw [if_pos hvx, hvx, Function.update_self, hcopy]
          · rw [if_neg hvx, Function.update_of_ne hvx, henvb v hv hvx]
        | none =>
          rw [hrep] at hex
          have hval := iha ha hhigh hB henva hkept hex.2.1 (hruna hfree)
          have hinsert : insert x kept ⊆ applyBindings B (insert x scope) := by
            rw [hB.apply_insert hx]
            exact Finset.insert_subset_insert x hkept
          apply ihb hb hexp' (hB.insert hx) ?_ hinsert hex.2.2 hrunb
          exact update_getAssoc hB hx (b.freevars_subset_scope hb hexp') henvb hval
    · rw [preprocessIr, if_neg hfree]
      rw [Expr.KeepsScope, if_neg hfree] at hex
      rw [Expr.freevars, if_neg hfree] at henv
      apply ihb hb hexp' (hB.insert hx) ?_ hkept' hex hrunb
      intro v hv
      have hne : v ≠ x := fun he => hfree (he ▸ hv)
      rw [Function.update_of_ne hne, henv v hv]
  | lambda xs high b ih =>
    obtain ⟨hnodup, hdisj, hhigh, hb⟩ := hws
    rw [preprocessIr, Marked.value, Expr.value]
    congr 1
    funext args
    have hunion : kept ∪ xs.toFinset ⊆ applyBindings B (scope ∪ xs.toFinset) := by
      rw [hB.apply_union hdisj]
      exact Finset.union_subset_union_left hkept
    apply ih hb hhigh (hB.union hdisj) ?_ hunion hex.2 (hrun args)
    intro v hv
    by_cases hvx : v ∈ xs
    · have hfix := hB.outside v (Finset.disjoint_left.1 hdisj (List.mem_toFinset.2 hvx))
      rw [hfix, bindAll_of_mem hvx, bindAll_of_mem hvx]
    · have hmem := b.freevars_subset_scope hb hhigh hv
      have hscope : v ∈ scope := by
        rcases Finset.mem_union.1 hmem with h | h
        · exact h
        · exact absurd (List.mem_toFinset.1 h) hvx
      have hout : getAssoc B v ∉ xs := fun h =>
        Finset.disjoint_left.1 hdisj (List.mem_toFinset.2 h) (hB.mem v hscope)
      rw [bindAll_of_notMem hvx, bindAll_of_notMem hout]
      apply henv
      rw [Expr.freevars]
      exact Finset.mem_union_right _ (Finset.mem_sdiff.2 ⟨hv, by simpa using hvx⟩)
  | forAll x low high b ih =>
    obtain ⟨hx, hlow, hhigh, hb⟩ := hws
    have hexp' := hexp.trans (Finset.subset_insert x scope)
    have hbounds : (∀ v ∈ low.freevars, env' (getAssoc B v) = env v) ∧
        (∀ v ∈ high.freevars, env' (getAssoc B v) = env v) ∧
          ∀ v ∈ b.freevars T E, v ≠ x → env' (getAssoc B v) = env v :=
      mem_freevars_bounds hx hlow hhigh henv
    obtain ⟨hl, hh, hbody⟩ := hbounds
    have hkept' := hkept.trans (applyBindings_subset (Finset.subset_insert x scope))
    rw [Expr.KeepsScope] at hex
    rw [Expr.DroppedRun] at hrun
    rw [preprocessIr, Expr.value]
    by_cases hfree : x ∈ b.freevars T ∅
    · rw [if_pos hfree] at hrun hex ⊢
      have hinsert : insert x kept ⊆ applyBindings B (insert x scope) := by
        rw [hB.apply_insert hx]
        exact Finset.insert_subset_insert x hkept
      rw [Marked.value, Bound.value_preprocess, Bound.value_preprocess, Bound.value_congr hl,
        Bound.value_congr hh]
      symm
      apply loopWhile_congr
      intro i hi
      symm
      exact ih hb hexp' (hB.insert hx)
        (update_getAssoc hB hx (b.freevars_subset_scope hb hexp') hbody rfl) hinsert hex
        (hrun i hi)
    · rw [if_neg hfree] at hrun hex ⊢
      have hfreeE : x ∉ b.freevars T E := fun h => hfree ((mem_freevars_iff hx hexp hb).1 h)
      have hconst : (fun i => b.value ops (Function.update env x i)) = fun _ => b.value ops env := by
        funext i
        apply b.value_congr hb (T := T) (E := E)
        intro v hv
        have hne : v ≠ x := fun he => hfreeE (he ▸ hv)
        rw [Function.update_of_ne hne]
      rw [hconst, loopWhile_const hrun.1]
      apply ih hb hexp' (hB.insert hx) ?_ hkept' hex hrun.2
      intro v hv
      exact hbody v hv fun he => hfreeE (he ▸ hv)
  | exist x low high b ih =>
    rw [preprocessIr, Marked.value]
    symm
    apply Expr.value_congr _ hws (T := T) (E := ∅)
    intro v hv
    have hmem := Expr.freevars_subset_free _ ∅ hv
    rw [Finset.union_empty] at hmem
    rw [← henv v (Expr.freevars_empty_subset _ E hv), hB.fixed (hkept (hex hmem))]
  | ift c a b iha ihb =>
    obtain ⟨hc, ha, hb⟩ := hws
    obtain ⟨hexa, hexb⟩ := hex
    have hcond : env' (getAssoc B c) = env c := henv c (by simp [Expr.freevars])
    rw [preprocessIr, Marked.value, Expr.value, value_mkIrRelease, value_mkIrRelease]
    rw [Expr.DroppedRun] at hrun
    simp only [preprocessVar, hcond]
    split
    · rename_i htrue
      rw [if_pos htrue] at hrun
      exact iha ha hexp hB (fun v hv => henv v (by simp [Expr.freevars, hv])) hkept hexa hrun
    · rename_i hfalse
      rw [if_neg hfalse] at hrun
      exact ihb hb hexp hB (fun v hv => henv v (by simp [Expr.freevars, hv])) hkept hexb hrun

end Values

end PVS.GroundEval.IR
