import PVS.GroundEval.Pvs2irUpdate

/-! Bindings of fresh variables, and the update of one component, keep values. -/

namespace PVS.GroundEval.Pvs2ir

open IR

variable {V N : Type} {T : VarTypes} {ops : Ops V}

/-! ### Bindings keep values -/

theorem localValue_flat (n : Flat Var) : LocalValue T ops (.flat n) := by
  intro env env' h
  apply Flat.value_congr
  intro v hv
  exact h v (Finset.mem_union_left _ (List.mem_toFinset.2 hv))

theorem LocalValue.mkIrLet {x : IrVariable} {expr body : Expr} (hexpr : LocalValue T ops expr)
    (hbody : LocalValue T ops body) : LocalValue T ops (mkIrLet x expr body) := by
  intro env env' h
  apply hbody
  intro v hv
  by_cases hvx : v = x.name
  · subst hvx
    rw [Function.update_self, Function.update_self]
    apply hexpr
    intro w hw
    apply h
    rw [Pvs2ir.mkIrLet, Expr.freevars, if_pos hv]
    exact Finset.mem_union_left _ (expr.freevars_empty_subset _ hw)
  · rw [Function.update_of_ne hvx, Function.update_of_ne hvx]
    apply h
    rw [Pvs2ir.mkIrLet, Expr.freevars]
    split
    · exact Finset.mem_union_right _ (Finset.mem_erase.2 ⟨hvx, hv⟩)
    · exact hv

theorem LocalValue.lambda {xs : List Var} {high : Option Bound} {body : Expr}
    (hbody : LocalValue T ops body) : LocalValue T ops (.lambda xs high body) := by
  intro env env' h
  rw [Expr.value, Expr.value]
  congr 1
  funext args
  apply hbody
  intro v hv
  by_cases hvx : v ∈ xs
  · rw [bindAll_of_mem hvx, bindAll_of_mem hvx]
  · rw [bindAll_of_notMem hvx, bindAll_of_notMem hvx]
    apply h
    rw [Expr.freevars]
    exact Finset.mem_union_right _
      (Finset.mem_sdiff.2 ⟨body.freevars_empty_subset _ hv, by simpa using hvx⟩)

@[simp] theorem value_mkIrLet (x : IrVariable) (expr body : Expr) (env : Var → V) :
    (mkIrLet x expr body).value ops env =
      body.value ops (Function.update env x.name (expr.value ops env)) := rfl

theorem LocalValue.update_of_notMem {e : Expr} {x : Var} (h : LocalValue T ops e)
    (hx : x ∉ e.freevars T ∅) (env : Var → V) (a : V) :
    e.value ops (Function.update env x a) = e.value ops env := by
  apply h
  intro v hv
  apply Function.update_of_ne
  rintro rfl
  exact hx hv

section MakeIrLet

variable {arities : Name → ℕ} {x : IrVariable} {expr body : Expr} {counter : ℕ}

theorem value_etaExpansion (laws : LawfulUpdates arities ops) {f : Name} {n start : ℕ}
    (high : Option Bound) (hn : n = arities f) (env : Var → V) :
    (Expr.lambda (List.range' start n) high
      (.flat (.apply (.fn f) [] (List.range' start n)))).value ops env =
      ops.literal (.function f) := by
  subst hn
  rw [← laws.eta f, Expr.value, List.length_range']
  congr 1
  funext args
  rw [Expr.value, Flat.value, List.map_nil, List.nil_append]
  congr 1
  apply List.ext_getElem
  · simp
  · intro i hi hi'
    have hlt : i < arities f := by simpa using hi
    have hidx : (List.range' start (arities f)).idxOf (start + i) = i := by
      have hnodup : (List.range' start (arities f)).Nodup := List.nodup_range'
      have hget := hnodup.idxOf_getElem i (by simpa using hlt)
      simpa using hget
    simp [bindAll_of_mem, hidx, hlt]

theorem value_makeIrLet (laws : LawfulUpdates arities ops) (hbody : LocalValue T ops body)
    (hfit : FitsType arities x.vtype expr) (env : Var → V) :
    (makeIrLet T x expr body counter).1.value ops env =
      body.value ops (Function.update env x.name (expr.value ops env)) := by
  rw [makeIrLet.eq_def]
  split
  · split
    · rename_i f domain range htype
      rw [value_mkIrLet, value_etaExpansion laws _ (hfit f domain range rfl htype)]
      rfl
    · rfl
  · rename_i hx
    exact (hbody.update_of_notMem hx env _).symm

theorem LocalValue.makeIrLet (hexpr : LocalValue T ops expr) (hbody : LocalValue T ops body) :
    LocalValue T ops (makeIrLet T x expr body counter).1 := by
  rw [Pvs2ir.makeIrLet.eq_def]
  split
  · split
    · exact ((localValue_flat _).lambda).mkIrLet hbody
    · exact hexpr.mkIrLet hbody
  · exact hbody

theorem counter_le_makeIrLet : counter ≤ (makeIrLet T x expr body counter).2 := by
  rw [makeIrLet.eq_def]
  split
  · split
    · exact Nat.le_add_right _ _
    · exact le_rfl
  · exact le_rfl

theorem LocalValue.makeIrLets {xs : List IrVariable} {exprs : List Expr}
    (hexprs : ∀ e ∈ exprs, LocalValue T ops e) (hbody : LocalValue T ops body) :
    LocalValue T ops (makeIrLets T xs exprs body counter).1 := by
  induction xs generalizing exprs with
  | nil => exact hbody
  | cons x xs ih =>
    cases exprs with
    | nil => exact hbody
    | cons e exprs =>
      rw [List.forall_mem_cons] at hexprs
      exact hexprs.1.makeIrLet (ih hexprs.2)

theorem counter_le_makeIrLets (xs : List IrVariable) (exprs : List Expr) :
    counter ≤ (makeIrLets T xs exprs body counter).2 := by
  induction xs generalizing exprs with
  | nil => exact le_rfl
  | cons x xs ih =>
    cases exprs with
    | nil => exact le_rfl
    | cons e exprs => exact (ih exprs).trans counter_le_makeIrLet

theorem makeIrLets_append {xs ys : List IrVariable} {exprs exprs' : List Expr}
    (h : xs.length = exprs.length) :
    makeIrLets T (xs ++ ys) (exprs ++ exprs') body counter =
      makeIrLets T xs exprs (makeIrLets T ys exprs' body counter).1
        (makeIrLets T ys exprs' body counter).2 := by
  induction xs generalizing exprs with
  | nil =>
    cases exprs with
    | nil => rfl
    | cons e exprs => cases h
  | cons x xs ih =>
    cases exprs with
    | nil => cases h
    | cons e exprs => simp only [List.cons_append, makeIrLets, ih (Nat.succ.inj h)]

/-- Nothing that binds a variable is a function. -/
theorem FitsType.makeIrLets {type : IrType} {xs : List IrVariable} {exprs : List Expr}
    (h : ∀ f, body ≠ .flat (.literal (.function f))) :
    FitsType arities type (makeIrLets T xs exprs body counter).1 := by
  intro f domain range hf
  exfalso
  induction xs generalizing exprs with
  | nil => exact h f hf
  | cons x xs ih =>
    cases exprs with
    | nil => exact h f hf
    | cons e exprs =>
      rw [Pvs2ir.makeIrLets, makeIrLet.eq_def] at hf
      split at hf
      · split at hf
        · cases hf
        · cases hf
      · exact ih hf

end MakeIrLet

section Pending

variable (T ops)

/-- An expression that may be bound to a variable in front of an update. -/
structure Bindable (arities : Name → ℕ) (bindings : N → Var) (p : IrVariable × Expr) : Prop where
  localValue : LocalValue T ops p.2
  value_congr : ∀ env env' : Var → V, (∀ y, env (bindings y) = env' (bindings y)) →
    p.2.value ops env = p.2.value ops env'
  fits : FitsType arities p.1.vtype p.2

def Holds (env : Var → V) (pending : List (IrVariable × Expr)) : Prop :=
  ∀ p ∈ pending, env p.1.name = p.2.value ops env

end Pending

def names (pending : List (IrVariable × Expr)) : List Var := pending.map fun p => p.1.name

section Pending

variable {arities : Name → ℕ} {bindings : N → Var} {pending pending' : List (IrVariable × Expr)}

theorem Holds.congr {env env' : Var → V} (hp : ∀ p ∈ pending, Bindable T ops arities bindings p)
    (h : Holds ops env pending) (hb : ∀ y, env' (bindings y) = env (bindings y))
    (hnames : ∀ v ∈ names pending, env' v = env v) : Holds ops env' pending := by
  intro p hmem
  rw [hnames _ (List.mem_map_of_mem hmem), h p hmem]
  exact (hp p hmem).value_congr env env' fun y => (hb y).symm

theorem exists_value_makeIrLets (laws : LawfulUpdates arities ops) {body : Expr} (counter : ℕ)
    (hp : ∀ p ∈ pending, Bindable T ops arities bindings p) (hnodup : (names pending).Nodup)
    (hfresh : ∀ y, bindings y ∉ names pending) (hbody : LocalValue T ops body) (env : Var → V) :
    ∃ env', (∀ v ∉ names pending, env' v = env v) ∧ Holds ops env' pending ∧
      (makeIrLets T (pending.map Prod.fst) (pending.map Prod.snd) body counter).1.value ops env =
        body.value ops env' := by
  induction pending generalizing env with
  | nil => exact ⟨env, fun _ _ => rfl, by simp [Holds], rfl⟩
  | cons p pending ih =>
    simp only [names, List.map_cons, List.nodup_cons, List.mem_cons, not_or] at hnodup hfresh
    rw [List.forall_mem_cons] at hp
    obtain ⟨env', hrest, hholds, hvalue⟩ := ih hp.2 hnodup.2 (fun y => (hfresh y).2)
      (Function.update env p.1.name (p.2.value ops env))
    have hb : ∀ y, env' (bindings y) = env (bindings y) := by
      intro y
      rw [hrest _ (hfresh y).2, Function.update_of_ne (hfresh y).1]
    refine ⟨env', ?_, ?_, ?_⟩
    · intro v hv
      simp only [names, List.map_cons, List.mem_cons, not_or] at hv
      rw [hrest v hv.2, Function.update_of_ne hv.1]
    · rw [Holds, List.forall_mem_cons]
      refine ⟨?_, hholds⟩
      rw [hrest _ hnodup.1, Function.update_self]
      exact (hp.1.value_congr env' env hb).symm
    · have hlocal : LocalValue T ops (makeIrLets T (pending.map Prod.fst) (pending.map Prod.snd)
          body counter).1 := by
        apply LocalValue.makeIrLets _ hbody
        intro e he
        obtain ⟨q, hq, rfl⟩ := List.mem_map.1 he
        exact (hp.2 q hq).localValue
      rw [← hvalue, List.map_cons, List.map_cons, makeIrLets,
        value_makeIrLet laws hlocal hp.1.fits]

variable (T ops arities bindings) in
/-- The bindings that are pushed between two states. -/
structure Pushed (s s' : State) (pending : List (IrVariable × Expr)) : Prop where
  vars : s'.updateLhsVars.reverse = s.updateLhsVars.reverse ++ pending.map Prod.fst
  exprs : s'.updateLhsBindings.reverse = s.updateLhsBindings.reverse ++ pending.map Prod.snd
  counter_le : s.counter ≤ s'.counter
  fresh : ∀ v ∈ names pending, s.counter ≤ v ∧ v < s'.counter
  nodup : (names pending).Nodup
  bindable : ∀ p ∈ pending, Bindable T ops arities bindings p

theorem Pushed.nil {s : State} {counter : ℕ} (h : s.counter ≤ counter) :
    Pushed T ops arities bindings s { s with counter := counter } [] where
  vars := by simp
  exprs := by simp
  counter_le := h
  fresh := by simp [names]
  nodup := List.nodup_nil
  bindable := by simp

theorem Pushed.trans {s s' s'' : State} (h : Pushed T ops arities bindings s s' pending)
    (h' : Pushed T ops arities bindings s' s'' pending') :
    Pushed T ops arities bindings s s'' (pending ++ pending') where
  vars := by rw [h'.vars, h.vars, List.map_append, List.append_assoc]
  exprs := by rw [h'.exprs, h.exprs, List.map_append, List.append_assoc]
  counter_le := h.counter_le.trans h'.counter_le
  fresh := by
    intro v hv
    rw [names, List.map_append, List.mem_append] at hv
    cases hv with
    | inl hv => exact ⟨(h.fresh v hv).1, (h.fresh v hv).2.trans_le h'.counter_le⟩
    | inr hv => exact ⟨h.counter_le.trans (h'.fresh v hv).1, (h'.fresh v hv).2⟩
  nodup := by
    rw [names, List.map_append]
    apply h.nodup.append h'.nodup
    intro v hv hv'
    exact absurd (h'.fresh v hv').1 (Nat.not_le.2 (h.fresh v hv).2)
  bindable := by
    intro p hp
    cases List.mem_append.1 hp with
    | inl hp => exact h.bindable p hp
    | inr hp => exact h'.bindable p hp

theorem Pushed.single {s : State} {x : IrVariable} {e : Expr} {counter : ℕ}
    (hx : s.counter ≤ x.name) (hcounter : x.name < counter)
    (he : Bindable T ops arities bindings (x, e)) :
    Pushed T ops arities bindings s
      ⟨counter, x :: s.updateLhsVars, e :: s.updateLhsBindings⟩ [(x, e)] where
  vars := by simp
  exprs := by simp
  counter_le := hx.trans hcounter.le
  fresh := by simpa [names] using ⟨hx, hcounter⟩
  nodup := by simp [names]
  bindable := by simpa using he

end Pending

/-! ### One component -/

@[simp] theorem value_mkIrFetch (x : IrVariable) (lhs : IR.Lhs Var) (env : Var → V) :
    (mkIrFetch x lhs).value ops env = fetch ops (env x.name) (lhs.map env) := by
  cases lhs <;> rfl

@[simp] theorem value_mkIrUpdate (x rhs : IrVariable) (lhs : IR.Lhs Var) (env : Var → V) :
    (mkIrUpdate x lhs rhs).value ops env = store ops (env x.name) (lhs.map env) (env rhs.name) := by
  cases lhs <;> rfl

theorem Lhs.map_congr {lhs : IR.Lhs Var} {env env' : Var → V}
    (h : ∀ v ∈ lhs.operands, env v = env' v) : lhs.map env = lhs.map env' := by
  cases lhs with
  | index i => rw [IR.Lhs.map, IR.Lhs.map, h i (by simp [IR.Lhs.operands])]
  | field g => rfl

theorem localValue_assignComponent {type : IrType} {x x11 : IrVariable} {lhs : IR.Lhs Var}
    {rest : Expr} {s : State} (h : LocalValue T ops rest) :
    LocalValue T ops (assignComponent type x x11 lhs rest s).1 := by
  have hfetch : LocalValue T ops (mkIrFetch x lhs) := by cases lhs <;> exact localValue_flat _
  apply hfetch.mkIrLet
  apply LocalValue.mkIrLet _ (h.mkIrLet (localValue_flat _))
  split
  · exact (localValue_flat _).mkIrLet (localValue_flat _)
  · exact localValue_flat _

theorem assignComponent_counter_le (type : IrType) (x x11 : IrVariable) (lhs : IR.Lhs Var)
    (rest : Expr) (s : State) :
    s.counter ≤ (assignComponent type x x11 lhs rest s).2.counter := by
  simp only [assignComponent]
  split <;> omega

/-- The component is fetched before it is replaced by `nil`, and the update puts it back. -/
theorem value_assignComponent {arities : Name → ℕ} (laws : LawfulUpdates arities ops)
    {type : IrType} {x x11 : IrVariable} {lhs : IR.Lhs Var} {rest : Expr} {s : State}
    (hx : x.name < x11.name) (hx11 : x11.name < s.counter)
    (hlhs : ∀ v ∈ lhs.operands, v ≠ x11.name ∧ v < s.counter) (env : Var → V) :
    ∃ env', (∀ v, v ≠ x11.name → v < s.counter → env' v = env v) ∧
      env' x11.name = fetch ops (env x.name) (lhs.map env) ∧
      (assignComponent type x x11 lhs rest s).1.value ops env =
        store ops (env x.name) (lhs.map env) (rest.value ops env') := by
  generalize hi : lhs.map env = i
  generalize henv : Function.update env x11.name (fetch ops (env x.name) i) = env11
  have h11 : env11 x11.name = fetch ops (env x.name) i := by rw [← henv, Function.update_self]
  have hother : ∀ v, v ≠ x11.name → env11 v = env v := by
    intro v hv
    rw [← henv, Function.update_of_ne hv]
  have hbelow : ∀ (env' : Var → V), (∀ v < s.counter, env' v = env11 v) →
      env' x.name = env x.name ∧ lhs.map env' = i := by
    intro env' h
    refine ⟨by rw [h _ (hx.trans hx11), hother _ hx.ne], ?_⟩
    rw [← hi]
    apply Lhs.map_congr
    intro v hv
    rw [h v (hlhs v hv).2, hother v (hlhs v hv).1]
  have hfresh : ∀ (env' : Var → V) {c : Var} (a : V), s.counter ≤ c → ∀ v < s.counter,
      Function.update env' c a v = env' v :=
    fun _ _ _ hc v hv => Function.update_of_ne (hv.trans_le hc).ne _ _
  -- whether or not the component is replaced by `nil`, storing to it gives the same
  obtain ⟨a1, ha1, hstore⟩ : ∃ a1, (if x11.vtype.isReferenceType then
      mkIrLet ⟨s.counter + 2, x11.vtype⟩ (.flat (.literal .nil))
        (mkIrUpdate x lhs ⟨s.counter + 2, x11.vtype⟩) else operand x).value ops env11 = a1 ∧
      ∀ r, store ops a1 i r = store ops (env x.name) i r := by
    split
    · obtain ⟨hxval, hlhsval⟩ := hbelow _
        (hfresh env11 (ops.literal .nil) (Nat.le_add_right s.counter 2))
      refine ⟨_, rfl, ?_⟩
      intro r
      rw [value_mkIrLet, value_mkIrUpdate]
      dsimp only
      rw [show (Expr.flat (.literal .nil)).value ops env11 = ops.literal .nil from rfl, hxval,
        hlhsval, laws.store_store]
    · refine ⟨_, rfl, ?_⟩
      intro r
      rw [show (operand x).value ops env11 = env11 x.name from rfl, hother _ hx.ne]
  refine ⟨Function.update env11 s.counter a1, ?_, ?_, ?_⟩
  · intro v hne hlt
    rw [hfresh _ _ le_rfl v hlt, hother v hne]
  · rw [hfresh _ _ le_rfl _ hx11, h11]
  · rw [assignComponent, value_mkIrLet, value_mkIrFetch, hi, henv, value_mkIrLet, ha1,
      value_mkIrLet, value_mkIrUpdate]
    dsimp only
    generalize rest.value ops (Function.update env11 s.counter a1) = r
    have hlhsval := (hbelow (Function.update (Function.update env11 s.counter a1) (s.counter + 1) r)
      fun v hv => by rw [hfresh _ _ (Nat.le_succ _) v hv, hfresh _ _ le_rfl v hv]).2
    rw [hlhsval, Function.update_of_ne (Nat.ne_of_lt (Nat.lt_succ_self _)), Function.update_self,
      Function.update_self, hstore]

end PVS.GroundEval.Pvs2ir
