import PVS.GroundEval.Pvs2irBindings

/-! The translation of an update expression evaluates its assignments in order. -/

namespace PVS.GroundEval.Pvs2ir

open IR

variable {V N : Type} {T : VarTypes} {ops : Ops V}

/-! ### Translations -/

/-- The right sides, `rhs-list`. -/
def Assignments.rhsList : Assignments T ops N → List (PvsExpr T ops N)
  | .nil => []
  | .cons _ e rest => e :: rest.rhsList

section Translates

variable (arities : Name → ℕ) (bindings : N → Var)

/-- The expression is well translated, to the first component of `r`. -/
structure Translates (counter : ℕ) (e : PvsExpr T ops N) (r : Expr × ℕ) : Prop where
  counter_le : counter ≤ r.2
  localValue : LocalValue T ops r.1
  value : ∀ env, r.1.value ops env = e.value fun y => env (bindings y)
  fits : ∀ type, e.Fits arities type → FitsType arities type r.1

/-- The right sides are well translated, for variables of the types. -/
inductive RhsTranslated : Assignments T ops N → List IrType → List Expr → Prop
  | nil : RhsTranslated .nil [] []
  | cons {lhs e rest t ts ir irs} (hlocal : LocalValue T ops ir)
      (hvalue : ∀ env, ir.value ops env = e.value fun y => env (bindings y))
      (hfit : FitsType arities t ir) (hrest : RhsTranslated rest ts irs) :
      RhsTranslated (.cons lhs e rest) (t :: ts) (ir :: irs)

variable (T ops) in
/-- The updates are well translated: where the pending bindings hold, `spec` is true of the value. -/
structure Assigns (s : State) (spec : (N → V) → (Var → V) → V → Prop) (r : Expr × State) :
    Prop where
  localValue : LocalValue T ops r.1
  value : ∃ pending, Pushed T ops arities bindings s r.2 pending ∧ ∀ env, Holds ops env pending →
    spec (fun y => env (bindings y)) env (r.1.value ops env)
  notFunction : ∀ f, r.1 ≠ .flat (.literal (.function f))

/-- Each assignment to the variable `x`, with the right sides in `rhsVars`. -/
def OverridesBy (as : Assignments T ops N) (rhsVars : List IrVariable) (x : IrVariable)
    (ρ : N → V) (env : Var → V) (v : V) : Prop :=
  (rhsVars.map fun r => env r.name) = as.rhsList.map (fun e => e.value ρ) →
    v = as.override ρ (env x.name)

end Translates

variable {arities : Name → ℕ} {bindings : N → Var}

theorem Translates.bindable {counter : ℕ} {e : PvsExpr T ops N} {r : Expr × ℕ} {x : IrVariable}
    (h : Translates arities bindings counter e r) (hfit : e.Fits arities x.vtype) :
    Bindable T ops arities bindings (x, r.1) where
  localValue := h.localValue
  value_congr := by
    intro env env' hb
    rw [h.value, h.value, funext hb]
  fits := h.fits _ hfit

theorem RhsTranslated.exists_pending {as : Assignments T ops N} {ts : List IrType}
    {irs : List Expr} (h : RhsTranslated arities bindings as ts irs) (start : ℕ) :
    ∃ pending : List (IrVariable × Expr),
      pending.map Prod.fst = List.zipWith IrVariable.mk (List.range' start ts.length) ts ∧
      pending.map Prod.snd = irs ∧ names pending = List.range' start ts.length ∧
      (∀ p ∈ pending, Bindable T ops arities bindings p) ∧
      ∀ env, Holds ops env pending → (names pending).map env =
        as.rhsList.map fun e => e.value fun y => env (bindings y) := by
  induction h generalizing start with
  | nil => exact ⟨[], rfl, rfl, rfl, by simp, fun _ _ => rfl⟩
  | @cons lhs e rest t ts ir irs hlocal hvalue hfit _ ih =>
    obtain ⟨pending, hvars, hexprs, hnames, hp, hvalues⟩ := ih (start + 1)
    refine ⟨(⟨start, t⟩, ir) :: pending, ?_, ?_, ?_, ?_, ?_⟩
    · rw [List.map_cons, hvars]
      rfl
    · rw [List.map_cons, hexprs]
    · rw [names, List.map_cons, ← names, hnames]
      rfl
    · rw [List.forall_mem_cons]
      refine ⟨⟨hlocal, ?_, hfit⟩, hp⟩
      intro env env' hb
      rw [hvalue, hvalue, funext hb]
    · intro env hholds
      rw [Holds, List.forall_mem_cons] at hholds
      have hhead : env start = e.value fun y => env (bindings y) := hholds.1.trans (hvalue env)
      have htail := hvalues env hholds.2
      rw [names] at htail
      rw [names, List.map_cons, List.map_cons, Assignments.rhsList, List.map_cons, htail, hhead]

theorem translates_pvs2irUpdate (laws : LawfulUpdates arities ops) {counter : ℕ}
    {e : PvsExpr T ops N} {type : IrType} {as : Assignments T ops N} {r : Expr × ℕ}
    (hb : ∀ y, bindings y < counter) (he : Translates arities bindings counter e r)
    (hfit : e.Fits arities type)
    (hrhs : ∃ ts, as.irRhsTypes type = some ts ∧ ts.length = as.rhsList.length ∧
      ∀ counter' ≥ counter, ∃ irs c, as.irRhsList bindings counter' = some (irs, c) ∧
        counter' ≤ c ∧ RhsTranslated arities bindings as ts irs)
    (has : ∀ rhsVars x s, counter ≤ s.counter → x.name < s.counter →
      rhsVars.length = as.rhsList.length → (∀ v ∈ rhsVars, v.name < s.counter) →
      ∃ r, as.pvs2irAssignments bindings type rhsVars x s = some r ∧
        Assigns T ops arities bindings s (OverridesBy as rhsVars x) r) :
    ∃ r', pvs2irUpdate T (as.irRhsTypes type) (as.irRhsList bindings)
        (as.pvs2irAssignments bindings type) r.1 type r.2 = some r' ∧
      Translates arities bindings counter (.update e type as) r' := by
  obtain ⟨ts, hts, hlength, hrhs⟩ := hrhs
  obtain ⟨irs, c, hirs, hc, htranslated⟩ :=
    hrhs (r.2 + ts.length) (he.counter_le.trans (Nat.le_add_right _ _))
  obtain ⟨rhsPending, hvars, hexprs, hnames, hbindable, hvalues⟩ :=
    htranslated.exists_pending r.2
  have hrhsNames : rhsPending.map (fun p => p.1.name) = List.range' r.2 ts.length := hnames
  have hrhsLt : ∀ v ∈ names rhsPending, r.2 ≤ v ∧ v < c := by
    intro v hv
    rw [hnames, List.mem_range'_1] at hv
    exact ⟨hv.1, hv.2.trans_le hc⟩
  have hcounter : counter ≤ c := he.counter_le.trans ((Nat.le_add_right _ _).trans hc)
  obtain ⟨⟨irUpdateExpr, s⟩, hassign, hlocal, ⟨lhsPending, hpushed, hspec⟩, hnotFunction⟩ :=
    has (List.zipWith IrVariable.mk (List.range' r.2 ts.length) ts) ⟨c, type⟩ ⟨c + 1, [], []⟩
      (hcounter.trans (Nat.le_succ c)) (Nat.lt_succ_self c) (by simpa using hlength) (by
        intro x hx
        rw [← hvars] at hx
        obtain ⟨p, hp, rfl⟩ := List.mem_map.1 hx
        exact (hrhsLt _ (List.mem_map_of_mem hp)).2.trans (Nat.lt_succ_self c))
  -- all bindings, in the order in which they are evaluated
  let pending := lhsPending ++ (rhsPending ++ [(⟨c, type⟩, r.1)])
  have hmem : ∀ v, v ∈ names pending ↔ v ∈ names lhsPending ∨ v ∈ names rhsPending ∨ v = c := by
    intro v
    simp [pending, names]
  have hnodup : (names pending).Nodup := by
    simp only [pending, names, List.map_append, List.map_cons, List.map_nil]
    apply List.Nodup.append hpushed.nodup
    · apply List.Nodup.append
      · rw [hrhsNames]
        exact List.nodup_range'
      · exact List.nodup_singleton c
      · intro v hv hvc
        exact (hrhsLt v hv).2.ne (List.mem_singleton.1 hvc)
    · intro v hv hv'
      apply Nat.not_le.2 (Nat.lt_succ_self c)
      apply (hpushed.fresh v hv).1.trans
      cases List.mem_append.1 hv' with
      | inl hv' => exact (hrhsLt v hv').2.le
      | inr hv' => exact (List.mem_singleton.1 hv').le
  have hpending : ∀ p ∈ pending, Bindable T ops arities bindings p := by
    intro p hp
    simp only [pending, List.mem_append, List.mem_singleton] at hp
    obtain hp | hp | rfl := hp
    · exact hpushed.bindable p hp
    · exact hbindable p hp
    · exact he.bindable hfit
  have hfresh : ∀ y, bindings y ∉ names pending := by
    intro y hy
    apply Nat.not_le.2 (hb y)
    rw [hmem] at hy
    obtain hy | hy | hy := hy
    · exact hcounter.trans ((Nat.le_succ c).trans (hpushed.fresh _ hy).1)
    · exact he.counter_le.trans (hrhsLt _ hy).1
    · exact hcounter.trans_eq hy.symm
  have hresult : pvs2irUpdate T (as.irRhsTypes type) (as.irRhsList bindings)
      (as.pvs2irAssignments bindings type) r.1 type r.2 =
      some (makeIrLets T (pending.map Prod.fst) (pending.map Prod.snd) irUpdateExpr s.counter) := by
    have hlhsVars : s.updateLhsVars.reverse = lhsPending.map Prod.fst := hpushed.vars
    have hlhsExprs : s.updateLhsBindings.reverse = lhsPending.map Prod.snd := hpushed.exprs
    rw [pvs2irUpdate, hts]
    simp only [Option.bind_eq_bind, Option.bind_some, hirs, hassign, hlhsVars, hlhsExprs, pending,
      List.map_append]
    rw [makeIrLets_append (by simp), makeIrLets_append (by simp), hvars, hexprs]
    rfl
  refine ⟨_, hresult, ?_, ?_, ?_, ?_⟩
  · exact hcounter.trans ((Nat.le_succ c).trans
      (hpushed.counter_le.trans (counter_le_makeIrLets _ _)))
  · apply LocalValue.makeIrLets _ hlocal
    intro e he
    obtain ⟨p, hp, rfl⟩ := List.mem_map.1 he
    exact (hpending p hp).localValue
  · intro env
    obtain ⟨env', hsame, hholds, hvalue⟩ :=
      exists_value_makeIrLets laws s.counter hpending hnodup hfresh hlocal env
    rw [Holds, List.forall_mem_append, List.forall_mem_append, List.forall_mem_singleton] at hholds
    have henv : (fun y => env' (bindings y)) = fun y => env (bindings y) :=
      funext fun y => hsame _ (hfresh y)
    have hoverrides := hspec env' hholds.1
    rw [henv] at hoverrides
    rw [hvalue, hoverrides _, PvsExpr.value]
    · dsimp only
      rw [hholds.2.2, he.value, henv]
    · rw [← hvars, List.map_map, ← henv, ← hvalues env' hholds.2.1, names, List.map_map]
      rfl
  · intro t _
    exact FitsType.makeIrLets hnotFunction

section Component

variable {s s₁ s₂ : State} {type : IrType} {x rhs x11 : IrVariable} {steps : (N → V) → List (IR.Lhs V)}

variable (T ops arities bindings) in
/-- The update of the variable `x`, at a path, by `rhs`. -/
abbrev AssignsPath (s : State) (steps : (N → V) → List (IR.Lhs V)) (x rhs : IrVariable)
    (r : Expr × State) : Prop :=
  Assigns T ops arities bindings s
    (fun ρ env v => v = override ops (steps ρ) (env x.name) (env rhs.name)) r

theorem assignsPath_nil : AssignsPath T ops arities bindings s (fun _ => []) x rhs
    (operand rhs, s) where
  localValue := localValue_flat _
  value := ⟨[], Pushed.nil le_rfl, fun _ _ => rfl⟩
  notFunction := by simp [operand]

theorem AssignsPath.cons (laws : LawfulUpdates arities ops) {rest : Expr} {lhs : IR.Lhs Var}
    {l : (N → V) → IR.Lhs V} {pushed : List (IrVariable × Expr)}
    (hrest : AssignsPath T ops arities bindings { s with counter := s.counter + 1 } steps x11 rhs
      (rest, s₁))
    (hb : ∀ y, bindings y < s.counter) (hx : x.name < s.counter) (hrhs : rhs.name < s.counter)
    (hx11 : x11.name = s.counter) (hpushed : Pushed T ops arities bindings s₁ s₂ pushed)
    (hlhs : ∀ v ∈ lhs.operands, s₁.counter ≤ v ∧ v < s₂.counter)
    (hvalue : ∀ env, Holds ops env pushed → lhs.map env = l fun y => env (bindings y)) :
    AssignsPath T ops arities bindings s (fun ρ => l ρ :: steps ρ) x rhs
      (assignComponent type x x11 lhs rest s₂) where
  localValue := localValue_assignComponent hrest.localValue
  value := by
    obtain ⟨-, ⟨pending, hpending, hspec⟩, -⟩ := hrest
    have hle₁ : s.counter + 1 ≤ s₁.counter := hpending.counter_le
    have hle₂ := hpushed.counter_le
    have hfirst : Pushed T ops arities bindings s { s with counter := s.counter + 1 } [] :=
      Pushed.nil (Nat.le_succ _)
    have hlast : Pushed T ops arities bindings s₂ (assignComponent type x x11 lhs rest s₂).2 [] :=
      Pushed.nil (assignComponent_counter_le type x x11 lhs rest s₂)
    refine ⟨_, (hfirst.trans (hpending.trans hpushed)).trans hlast, ?_⟩
    intro env hholds
    rw [List.nil_append, List.append_nil, Holds, List.forall_mem_append] at hholds
    have hlt₂ : s.counter < s₂.counter := hle₁.trans hle₂
    have hne : ∀ {v}, s.counter < v → v ≠ x11.name := fun hv => hx11 ▸ hv.ne'
    obtain ⟨env', hsame, h11, hstore⟩ := value_assignComponent laws (hx11 ▸ hx) (hx11 ▸ hlt₂)
      (fun v hv => ⟨hne (hle₁.trans (hlhs v hv).1), (hlhs v hv).2⟩) env
    have hsameBelow : ∀ {v}, v < s.counter → env' v = env v :=
      fun hv => hsame _ (hx11 ▸ hv.ne) (hv.trans hlt₂)
    have henv : (fun y => env' (bindings y)) = fun y => env (bindings y) :=
      funext fun y => hsameBelow (hb y)
    have hholds' : Holds ops env' pending := by
      apply Holds.congr hpending.bindable hholds.1 (fun y => hsameBelow (hb y))
      intro v hv
      obtain ⟨hge, hlt⟩ := hpending.fresh v hv
      exact hsame v (hne hge) (hlt.trans_le hle₂)
    have hpath := hspec env' hholds'
    rw [henv, h11, hsameBelow hrhs] at hpath
    rw [hstore, override, ← hvalue env hholds.2, ← hpath]
  notFunction := by simp [assignComponent, mkIrLet]

end Component

theorem Arguments.exists_getComponentIrType : ∀ (lhs : Arguments T ops N) {type : IrType},
    lhs.Typechecks arities type → ∃ t, lhs.getComponentIrType type = some t
  | .nil, type, _ => ⟨type, by rw [getComponentIrType]⟩
  | .args index rest, type, h => by
    rw [Typechecks] at h
    rw [getComponentIrType]
    split at h
    · rename_i htype
      simp only [htype]
      exact rest.exists_getComponentIrType h.2.2
    · rename_i htype
      simp only [htype]
      exact rest.exists_getComponentIrType h.2.2
    · exact h.elim
  | .field id accessorRange rest, type, h => by
    rw [Typechecks] at h
    rw [getComponentIrType]
    split at h
    · rename_i htype
      obtain ⟨rfl, t, hfield, hrest⟩ := h
      simp only [htype, hfield]
      exact rest.exists_getComponentIrType hrest
    · rename_i htype
      obtain ⟨rfl, t, hfield, hrest⟩ := h
      simp only [htype, hfield]
      exact rest.exists_getComponentIrType hrest
    · rename_i htype
      obtain ⟨t, rfl, hrest⟩ := h
      simp only [htype]
      exact rest.exists_getComponentIrType hrest
    · exact h.elim

theorem overridesBy_nil {x : IrVariable} {s : State} :
    Assigns T ops arities bindings s (OverridesBy (.nil : Assignments T ops N) [] x)
      (operand x, s) where
  localValue := localValue_flat _
  value := ⟨[], Pushed.nil le_rfl, fun _ _ _ => rfl⟩
  notFunction := by simp [operand]

theorem overridesBy_cons {lhs : Arguments T ops N} {e : PvsExpr T ops N}
    {rest : Assignments T ops N} {rhs x : IrVariable} {rhsVars : List IrVariable} {type : IrType}
    {s s₁ s₂ : State} {assignment1 body : Expr} (hb : ∀ y, bindings y < s.counter)
    (hrhsVars : ∀ v ∈ rhsVars, v.name < s.counter)
    (h : AssignsPath T ops arities bindings s (fun ρ => lhs.steps ρ) x rhs (assignment1, s₁))
    (hrest : Assigns T ops arities bindings { s₁ with counter := s₁.counter + 1 }
      (OverridesBy rest rhsVars ⟨s₁.counter, type⟩) (body, s₂)) :
    Assigns T ops arities bindings s (OverridesBy (.cons lhs e rest) (rhs :: rhsVars) x)
      (mkIrLet ⟨s₁.counter, type⟩ assignment1 body, s₂) where
  localValue := h.localValue.mkIrLet hrest.localValue
  value := by
    obtain ⟨-, ⟨pending, hpending, hspec⟩, -⟩ := h
    obtain ⟨-, ⟨pending', hpending', hspec'⟩, -⟩ := hrest
    have hnext : Pushed T ops arities bindings s₁ { s₁ with counter := s₁.counter + 1 } [] :=
      Pushed.nil (Nat.le_succ _)
    refine ⟨_, (hpending.trans hnext).trans hpending', ?_⟩
    intro env hholds hvalues
    rw [List.append_nil, Holds, List.forall_mem_append] at hholds
    rw [List.map_cons, Assignments.rhsList, List.map_cons, List.cons.injEq] at hvalues
    have hle : s.counter ≤ s₁.counter := hpending.counter_le
    have hassign := hspec env hholds.1
    rw [hvalues.1] at hassign
    rw [value_mkIrLet, hassign, Assignments.override]
    generalize Pvs2ir.override ops _ _ _ = a
    have hbelow : ∀ {v}, v < s.counter → Function.update env s₁.counter a v = env v :=
      fun hv => Function.update_of_ne (hv.trans_le hle).ne _ _
    have henv : (fun y => Function.update env s₁.counter a (bindings y)) =
        fun y => env (bindings y) := funext fun y => hbelow (hb y)
    have hholds' : Holds ops (Function.update env s₁.counter a) pending' := by
      apply Holds.congr hpending'.bindable hholds.2 (fun y => hbelow (hb y))
      intro v hv
      exact Function.update_of_ne (Nat.ne_of_gt (hpending'.fresh v hv).1) _ _
    have hvalue := hspec' _ hholds'
    rw [henv] at hvalue
    rw [hvalue]
    · dsimp only
      rw [Function.update_self]
    · rw [← hvalues.2]
      apply List.map_congr_left
      intro v hv
      exact hbelow (hrhsVars v hv)
  notFunction := by simp [mkIrLet]

mutual

theorem PvsExpr.exists_translates (laws : LawfulUpdates arities ops) :
    ∀ (e : PvsExpr T ops N) {counter : ℕ}, e.Typechecks arities → (∀ y, bindings y < counter) →
      ∃ r, e.pvs2ir bindings counter = some r ∧ Translates arities bindings counter e r
  | .other e, counter, _, hb => by
    refine ⟨e.pvs2ir bindings counter, by rw [PvsExpr.pvs2ir], ?_, e.localValue _ _, ?_, ?_⟩
    · exact e.counter_le _ _
    · intro env
      rw [e.value_pvs2ir _ _ _ hb, PvsExpr.value]
    · intro type h
      exact h bindings counter
  | .update e type assignments, counter, h, hb => by
    rw [PvsExpr.Typechecks] at h
    obtain ⟨he, hfit, has⟩ := h
    obtain ⟨r, hr, htranslates⟩ := e.exists_translates laws he hb
    have hrhs := assignments.exists_irRhsList laws has
    obtain ⟨ts, hts, hlength, hirs⟩ := hrhs
    rw [PvsExpr.pvs2ir, hr]
    apply translates_pvs2irUpdate laws hb htranslates hfit
    · refine ⟨ts, hts, hlength, ?_⟩
      intro counter' hle
      exact hirs fun y => (hb y).trans_le hle
    · intro rhsVars x s hle hx hlen hvars
      exact assignments.exists_assigns laws has (fun y => (hb y).trans_le hle) hx hlen hvars

theorem Assignments.exists_irRhsList (laws : LawfulUpdates arities ops) :
    ∀ (as : Assignments T ops N) {type : IrType}, as.Typechecks arities type →
      ∃ ts, as.irRhsTypes type = some ts ∧ ts.length = as.rhsList.length ∧
        ∀ {counter : ℕ}, (∀ y, bindings y < counter) →
          ∃ irs c, as.irRhsList bindings counter = some (irs, c) ∧ counter ≤ c ∧
            RhsTranslated arities bindings as ts irs
  | .nil, type, _ => ⟨[], by rw [Assignments.irRhsTypes], rfl, fun {counter} _ =>
      ⟨[], counter, by rw [Assignments.irRhsList], le_rfl, .nil⟩⟩
  | .cons lhs e rest, type, h => by
    rw [Assignments.Typechecks] at h
    obtain ⟨-, hlhs, he, hfit, hrest⟩ := h
    obtain ⟨t, ht⟩ := lhs.exists_getComponentIrType hlhs
    obtain ⟨ts, hts, hlength, hirs⟩ := rest.exists_irRhsList laws hrest
    refine ⟨t :: ts, by simp [Assignments.irRhsTypes, ht, hts], by simp [hlength, Assignments.rhsList], ?_⟩
    intro counter hb
    obtain ⟨r, hr, htranslates⟩ := e.exists_translates laws he hb
    obtain ⟨irs, c, hc, hle, htranslated⟩ :=
      hirs fun y => (hb y).trans_le htranslates.counter_le
    refine ⟨r.1 :: irs, c, by simp [Assignments.irRhsList, hr, hc], htranslates.counter_le.trans hle, ?_⟩
    exact .cons htranslates.localValue htranslates.value (htranslates.fits t (hfit t ht))
      htranslated

theorem Assignments.exists_assigns (laws : LawfulUpdates arities ops) :
    ∀ (as : Assignments T ops N) {type : IrType} {rhsVars : List IrVariable} {x : IrVariable}
      {s : State}, as.Typechecks arities type → (∀ y, bindings y < s.counter) →
      x.name < s.counter → rhsVars.length = as.rhsList.length →
      (∀ v ∈ rhsVars, v.name < s.counter) →
      ∃ r, as.pvs2irAssignments bindings type rhsVars x s = some r ∧
        Assigns T ops arities bindings s (OverridesBy as rhsVars x) r
  | .nil, type, rhsVars, x, s, _, _, _, hlen, _ => by
    obtain rfl := List.length_eq_zero_iff.1 hlen
    exact ⟨(operand x, s), by rw [Assignments.pvs2irAssignments], overridesBy_nil⟩
  | .cons lhs e rest, type, [], x, s, _, _, _, hlen, _ => by cases hlen
  | .cons lhs e rest, type, rhs :: rhsVars, x, s, h, hb, hx, hlen, hvars => by
    rw [Assignments.Typechecks] at h
    obtain ⟨hconsp, hlhs, -, -, hrest⟩ := h
    rw [List.forall_mem_cons] at hvars
    obtain ⟨⟨assignment1, s₁⟩, hassign, hpath⟩ := lhs.exists_assigns laws hlhs hb hx hvars.1
    rw [if_pos hconsp] at hassign
    have hle : s.counter ≤ s₁.counter := by
      obtain ⟨-, ⟨pending, hpending, -⟩, -⟩ := hpath
      exact hpending.counter_le
    have hlt : ∀ {v}, v < s.counter → v < s₁.counter + 1 :=
      fun hv => (hv.trans_le hle).trans (Nat.lt_succ_self _)
    have hexists : ∃ r, rest.pvs2irAssignments bindings type rhsVars ⟨s₁.counter, type⟩
        { s₁ with counter := s₁.counter + 1 } = some r ∧ Assigns T ops arities bindings
          { s₁ with counter := s₁.counter + 1 } (OverridesBy rest rhsVars ⟨s₁.counter, type⟩) r :=
      rest.exists_assigns laws hrest (fun y => hlt (hb y)) (Nat.lt_succ_self _) (Nat.succ.inj hlen)
        fun v hv => hlt (hvars.2 v hv)
    obtain ⟨⟨body, s₂⟩, hbody, hassigns⟩ := hexists
    refine ⟨(mkIrLet ⟨s₁.counter, type⟩ assignment1 body, s₂), ?_, ?_⟩
    · simp [Assignments.pvs2irAssignments, hassign, hbody]
    · exact overridesBy_cons hb hvars.2 hpath hassigns

theorem Arguments.exists_assigns (laws : LawfulUpdates arities ops) :
    ∀ (lhs : Arguments T ops N) {type : IrType} {rhs x : IrVariable} {s : State},
      lhs.Typechecks arities type → (∀ y, bindings y < s.counter) → x.name < s.counter →
      rhs.name < s.counter →
      ∃ r, (if lhs.consp then lhs.pvs2irAssignment1 bindings type rhs x s
          else some (operand rhs, s)) = some r ∧
        AssignsPath T ops arities bindings s (fun ρ => lhs.steps ρ) x rhs r
  | .nil, type, rhs, x, s, _, _, _, _ => ⟨(operand rhs, s), rfl, assignsPath_nil⟩
  | .args index rest, type, rhs, x, s, h, hb, hx, hrhs => by
    rw [Arguments.Typechecks] at h
    rw [Arguments.consp_args, if_pos rfl, Arguments.pvs2irAssignment1]
    have hlt : ∀ {v}, v < s.counter → v < s.counter + 1 := fun hv => hv.trans (Nat.lt_succ_self _)
    have key : ∀ {t domain range : IrType}, index.Typechecks arities → index.Fits arities domain →
        rest.Typechecks arities range → ∃ restAssignment s₁ lhs1Ir counter,
          (if rest.consp then rest.pvs2irAssignment1 bindings range rhs ⟨s.counter, range⟩
            { s with counter := s.counter + 1 } else some (operand rhs,
              { s with counter := s.counter + 1 })) = some (restAssignment, s₁) ∧
          index.pvs2ir bindings (s₁.counter + 1) = some (lhs1Ir, counter) ∧
          AssignsPath T ops arities bindings s
            (fun ρ => .index (index.value ρ) :: rest.steps ρ) x rhs
            (assignComponent t x ⟨s.counter, range⟩ (.index s₁.counter) restAssignment
              ⟨counter, ⟨s₁.counter, domain⟩ :: s₁.updateLhsVars,
                lhs1Ir :: s₁.updateLhsBindings⟩) := by
      intro t domain range hindex hfit hrest
      obtain ⟨⟨restAssignment, s₁⟩, hassign, hpath⟩ := rest.exists_assigns laws hrest
        (x := ⟨s.counter, range⟩) (s := { s with counter := s.counter + 1 })
        (fun y => hlt (hb y)) (Nat.lt_succ_self _) (hlt hrhs)
      have hle : s.counter + 1 ≤ s₁.counter := by
        obtain ⟨-, ⟨pending, hpending, -⟩, -⟩ := hpath
        exact hpending.counter_le
      have hle' : s.counter ≤ s₁.counter + 1 := ((Nat.le_succ _).trans hle).trans (Nat.le_succ _)
      obtain ⟨⟨lhs1Ir, counter⟩, hir, htranslates⟩ :=
        index.exists_translates laws hindex fun y => (hb y).trans_le hle'
      refine ⟨restAssignment, s₁, lhs1Ir, counter, hassign, hir, ?_⟩
      apply hpath.cons laws hb hx hrhs rfl
      · exact Pushed.single le_rfl (htranslates.counter_le)
          (htranslates.bindable (x := ⟨s₁.counter, domain⟩) hfit)
      · intro v hv
        obtain rfl := List.mem_singleton.1 hv
        exact ⟨le_rfl, htranslates.counter_le⟩
      · intro env hholds
        rw [Holds, List.forall_mem_singleton] at hholds
        rw [IR.Lhs.map, ← htranslates.value]
        exact congrArg IR.Lhs.index hholds
    split at h
    · rename_i htype
      obtain ⟨restAssignment, s₁, lhs1Ir, counter, hassign, hir, hpath⟩ := key h.1 h.2.1 h.2.2
      exact ⟨_, by simp only [htype, Option.bind_eq_bind, hassign, hir, Option.bind_some]; rfl,
        hpath⟩
    · rename_i htype
      obtain ⟨restAssignment, s₁, lhs1Ir, counter, hassign, hir, hpath⟩ := key h.1 h.2.1 h.2.2
      exact ⟨_, by simp only [htype, Option.bind_eq_bind, hassign, hir, Option.bind_some]; rfl,
        hpath⟩
    · exact h.elim
  | .field id accessorRange rest, type, rhs, x, s, h, hb, hx, hrhs => by
    obtain ⟨t, hfield, hrest⟩ : ∃ t, type.typeDefn.fieldType id accessorRange = some t ∧
        rest.Typechecks arities t := by
      rw [Arguments.Typechecks] at h
      split at h
      · rename_i htype
        obtain ⟨-, t, hfield, hrest⟩ := h
        exact ⟨t, by rw [htype, IrType.fieldType, hfield], hrest⟩
      · rename_i htype
        obtain ⟨-, t, hfield, hrest⟩ := h
        exact ⟨t, by rw [htype, IrType.fieldType, hfield], hrest⟩
      · rename_i htype
        obtain ⟨t, hfield, hrest⟩ := h
        exact ⟨t, by rw [htype, IrType.fieldType, hfield], hrest⟩
      · exact h.elim
    have hlt : ∀ {v}, v < s.counter → v < s.counter + 1 := fun hv => hv.trans (Nat.lt_succ_self _)
    obtain ⟨⟨restAssignment, s₁⟩, hassign, hpath⟩ := rest.exists_assigns laws hrest
      (x := ⟨s.counter, t⟩) (s := { s with counter := s.counter + 1 })
      (fun y => hlt (hb y)) (Nat.lt_succ_self _) (hlt hrhs)
    rw [Arguments.consp_field, if_pos rfl, Arguments.pvs2irAssignment1, hfield]
    refine ⟨_, by simp only [Option.bind_eq_bind, hassign, Option.bind_some]; rfl, ?_⟩
    apply hpath.cons laws hb hx hrhs rfl (Pushed.nil (le_refl s₁.counter))
    · intro v hv
      cases hv
    · intro env _
      rfl

end

/-- The translation of an update exists, and its value is the value of the expression with the
assignments made in order, every index and right side evaluated where the update is. -/
theorem pvs2irUpdate_overrides (laws : LawfulUpdates arities ops) (expression : PvsExpr T ops N)
    (type : IrType) (assignments : Assignments T ops N)
    (h : (PvsExpr.update expression type assignments).Typechecks arities) (bindings : N → Var)
    (counter : ℕ) (hb : ∀ y, bindings y < counter) :
    ∃ ir counter', (PvsExpr.update expression type assignments).pvs2ir bindings counter =
        some (ir, counter') ∧
      ∀ env : Var → V, ir.value ops env =
        assignments.override (fun y => env (bindings y))
          (expression.value fun y => env (bindings y)) := by
  obtain ⟨r, hr, htranslates⟩ := PvsExpr.exists_translates laws _ h hb
  refine ⟨r.1, r.2, hr, ?_⟩
  intro env
  rw [htranslates.value, PvsExpr.value]

/-! ### A nested update -/

/-- Values with functions of integers, and records. -/
inductive Val
  | nil
  | num (z : ℤ)
  | fn (f : ℤ → Val)
  | record (f : Name → Val)

def Val.toInt : Val → ℤ
  | .num z => z
  | _ => 0

/-- Every function of the code is the identity. -/
def valOps : Ops Val where
  literal
    | .integer z => .num z
    | .function _ => .fn .num
    | _ => .nil
  fn _ args := args.headD .nil
  app
    | .fn f, args => f (args.headD .nil).toInt
    | _, _ => .nil
  lambda _ g := .fn fun z => g fun _ => .num z
  record fields := .record fun g => (fields.lookup g).getD .nil
  array xs := .fn fun z => xs.getD z.toNat .nil
  get
    | .record f, g => f g
    | _, _ => .nil
  lookup
    | .fn f, i => f i.toInt
    | _, _ => .nil
  update
    | .fn f, i, r => .fn (Function.update f i.toInt r)
    | a, _, _ => a
  updateField
    | .record f, g, r => .record (Function.update f g r)
    | a, _, _ => a
  offset a z := .num (a.toInt + z)
  indices _ _ := []
  isTrue _ := true

theorem lawfulUpdates_valOps : LawfulUpdates (fun _ => 1) valOps where
  store_store := by
    intro a l r r'
    cases a with
    | fn f => cases l <;> simp [store, valOps]
    | record f => cases l <;> simp [store, valOps]
    | _ => cases l <;> rfl
  eta f := rfl

def Other.variable (T : VarTypes) (ops : Ops V) (x : N) : Other T ops N where
  value env := env x
  pvs2ir bindings counter := (.flat (.operand (bindings x)), counter)
  counter_le _ _ := le_rfl
  localValue _ _ := localValue_flat _
  value_pvs2ir _ _ _ _ := rfl

def Other.integer (T : VarTypes) (ops : Ops V) (N : Type) (z : ℤ) : Other T ops N where
  value _ := ops.literal (.integer z)
  pvs2ir _ counter := (.flat (.literal (.integer z)), counter)
  counter_le _ _ := le_rfl
  localValue _ _ := localValue_flat _
  value_pvs2ir _ _ _ _ := rfl

def valTypes : VarTypes := ⟨fun _ => true, fun _ => false, fun _ => false, fun _ _ => true⟩

def integerExpr (z : ℤ) : PvsExpr valTypes valOps Unit := .other (.integer _ _ _ z)

/-- `(0)(1) := 5, (0)(2) := 6` -/
def rowAssignments : Assignments valTypes valOps Unit :=
  .cons (.args (integerExpr 0) (.args (integerExpr 1) .nil)) (integerExpr 5)
    (.cons (.args (integerExpr 0) (.args (integerExpr 2) .nil)) (integerExpr 6) .nil)

def rowType : IrType := .funtype (.scalar "int") (.funtype (.scalar "int") (.scalar "int"))

theorem integerExpr_fits (type : IrType) (z : ℤ) : (integerExpr z).Fits (fun _ => 1) type := by
  intro _ _ f _ _ hf
  cases hf

theorem typechecks_integerExpr (z : ℤ) : (integerExpr z).Typechecks (fun _ => 1) := trivial

theorem pvs2irUpdate_overrides_rows :
    ∃ ir counter', (PvsExpr.update (.other (.variable valTypes valOps ())) rowType
        rowAssignments).pvs2ir (fun _ => 0) 1 = some (ir, counter') ∧
      ∀ env : Var → Val, ir.value valOps env =
        rowAssignments.override (fun _ => env 0) (env 0) := by
  apply pvs2irUpdate_overrides lawfulUpdates_valOps (.other (.variable valTypes valOps ())) rowType
    rowAssignments _ (fun _ => 0) 1 fun _ => Nat.one_pos
  rw [PvsExpr.Typechecks]
  refine ⟨trivial, ?_, ?_⟩
  · intro _ _ f _ _ hf
    cases hf
  · simp [rowAssignments, rowType, Assignments.Typechecks, Arguments.Typechecks, IrType.typeDefn,
      integerExpr_fits, typechecks_integerExpr]

example (f : ℤ → ℤ → Val) :
    valOps.app (valOps.app (rowAssignments.override (fun _ => .nil) (.fn fun i => .fn (f i)))
      [.num 0]) [.num 1] = .num 5 := rfl

end PVS.GroundEval.Pvs2ir
