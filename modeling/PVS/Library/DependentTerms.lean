import Mathlib

/-! Terms with dependent binders, and the substitution of closed terms -/

namespace PVS.Library.Dependent

inductive Kind
  | expr
  | type
  | bindings

inductive Quantifier
  | forAll
  | exist
  deriving DecidableEq

/-- Terms over variables `ν`, constants `κ` and names `τ` of types -/
inductive Node (ν κ τ : Type) : Kind → Type
  | var (x : ν) : Node ν κ τ .expr
  | constant (c : κ) : Node ν κ τ .expr
  | truth (b : Bool) : Node ν κ τ .expr
  | negation (argument : Node ν κ τ .expr) : Node ν κ τ .expr
  | application (operator argument : Node ν κ τ .expr) : Node ν κ τ .expr
  | lambda (x : ν) (domain : Node ν κ τ .type) (body : Node ν κ τ .expr) : Node ν κ τ .expr
  | quant (q : Quantifier) (bindings : Node ν κ τ .bindings) (body : Node ν κ τ .expr) :
    Node ν κ τ .expr
  | name (t : τ) : Node ν κ τ .type
  | subtype (x : ν) (supertype : Node ν κ τ .type) (predicate : Node ν κ τ .expr) :
    Node ν κ τ .type
  | funtype (x : ν) (domain range : Node ν κ τ .type) : Node ν κ τ .type
  | nil : Node ν κ τ .bindings
  | cons (x : ν) (type : Node ν κ τ .type) (rest : Node ν κ τ .bindings) : Node ν κ τ .bindings
  deriving DecidableEq

variable {ν κ τ : Type}

abbrev Expr (ν κ τ : Type) := Node ν κ τ .expr

abbrev TypeExpr (ν κ τ : Type) := Node ν κ τ .type

abbrev Bindings (ν κ τ : Type) := Node ν κ τ .bindings

/-- The variables of bindings -/
def bound : {k : Kind} → Node ν κ τ k → List ν
  | _, .cons x _ rest => x :: bound rest
  | _, _ => []

@[simp] theorem bound_nil : bound (.nil : Bindings ν κ τ) = [] := by
  simp [bound]

@[simp] theorem bound_cons (x : ν) (type : TypeExpr ν κ τ) (rest : Bindings ν κ τ) :
    bound (.cons x type rest) = x :: bound rest := by
  simp [bound]

theorem bindings_induction {motive : Bindings ν κ τ → Prop} (nil : motive .nil)
    (cons : ∀ x type rest, motive rest → motive (.cons x type rest)) (bs : Bindings ν κ τ) :
    motive bs := by
  suffices h : ∀ {k : Kind} (n : Node ν κ τ k) (hk : k = .bindings),
      motive (cast (congrArg (Node ν κ τ) hk) n) from h bs rfl
  intro k n hk
  induction n with
  | nil => exact nil
  | cons x type rest _ ih => exact cons x type rest (ih rfl)
  | _ => cases hk

/-- Induction over the bodies of quantifiers -/
theorem expr_induction {motive : Expr ν κ τ → Prop}
    (quant : ∀ q bindings e, motive e → motive (.quant q bindings e))
    (other : ∀ e, (∀ q bindings e', e ≠ .quant q bindings e') → motive e) (e : Expr ν κ τ) :
    motive e := by
  suffices h : ∀ {k : Kind} (n : Node ν κ τ k) (hk : k = .expr),
      motive (cast (congrArg (Node ν κ τ) hk) n) from h e rfl
  intro k n hk
  induction n with
  | quant q bindings body _ ih => exact quant q bindings body (ih rfl)
  | name | subtype | funtype | nil | cons => cases hk
  | _ => exact other _ nofun

/-- The constants that occur -/
def constants : {k : Kind} → Node ν κ τ k → List κ
  | _, .var _ => []
  | _, .constant c => [c]
  | _, .truth _ => []
  | _, .negation argument => constants argument
  | _, .application operator argument => constants operator ++ constants argument
  | _, .lambda _ domain body => constants domain ++ constants body
  | _, .quant _ bindings body => constants bindings ++ constants body
  | _, .name _ => []
  | _, .subtype _ supertype predicate => constants supertype ++ constants predicate
  | _, .funtype _ domain range => constants domain ++ constants range
  | _, .nil => []
  | _, .cons _ type rest => constants type ++ constants rest

variable [DecidableEq ν]

def freevars : {k : Kind} → Node ν κ τ k → List ν
  | _, .var x => [x]
  | _, .constant _ => []
  | _, .truth _ => []
  | _, .negation argument => freevars argument
  | _, .application operator argument => freevars operator ++ freevars argument
  | _, .lambda x domain body => freevars domain ++ (freevars body).filter (· ≠ x)
  | _, .quant _ bindings body => freevars bindings ++ (freevars body).filter (· ∉ bound bindings)
  | _, .name _ => []
  | _, .subtype x supertype predicate => freevars supertype ++ (freevars predicate).filter (· ≠ x)
  | _, .funtype x domain range => freevars domain ++ (freevars range).filter (· ≠ x)
  | _, .nil => []
  | _, .cons x type rest => freevars type ++ (freevars rest).filter (· ≠ x)

/-! ### Substitution -/

abbrev Subst (ν κ τ : Type) := ν → Option (Expr ν κ τ)

def Subst.without (σ : Subst ν κ τ) (xs : List ν) : Subst ν κ τ :=
  fun x => if x ∈ xs then none else σ x

def Subst.or (σ σ' : Subst ν κ τ) : Subst ν κ τ := fun x => (σ x).or (σ' x)

def Subst.Closed (σ : Subst ν κ τ) : Prop := ∀ x t, σ x = some t → freevars t = []

def substit (σ : Subst ν κ τ) : {k : Kind} → Node ν κ τ k → Node ν κ τ k
  | _, .var x => (σ x).getD (.var x)
  | _, .constant c => .constant c
  | _, .truth b => .truth b
  | _, .negation argument => .negation (substit σ argument)
  | _, .application operator argument =>
    .application (substit σ operator) (substit σ argument)
  | _, .lambda x domain body => .lambda x (substit σ domain) (substit (σ.without [x]) body)
  | _, .quant q bindings body =>
    .quant q (substit σ bindings) (substit (σ.without (bound bindings)) body)
  | _, .name t => .name t
  | _, .subtype x supertype predicate =>
    .subtype x (substit σ supertype) (substit (σ.without [x]) predicate)
  | _, .funtype x domain range =>
    .funtype x (substit σ domain) (substit (σ.without [x]) range)
  | _, .nil => .nil
  | _, .cons x type rest => .cons x (substit σ type) (substit (σ.without [x]) rest)

attribute [local simp] freevars substit

namespace Subst

variable {σ σ' : Subst ν κ τ}

theorem Closed.without (h : σ.Closed) (xs : List ν) : (σ.without xs).Closed := by
  intro x t ht
  rw [Subst.without] at ht
  split at ht
  · exact nomatch ht
  · exact h x t ht

theorem Closed.or (h : σ.Closed) (h' : σ'.Closed) : (σ.or σ').Closed := by
  intro x t ht
  obtain ht | ⟨-, ht⟩ := Option.or_eq_some_iff.1 ht
  · exact h x t ht
  · exact h' x t ht

theorem or_without (σ σ' : Subst ν κ τ) (xs : List ν) :
    (σ.or σ').without xs = (σ.without xs).or (σ'.without xs) := by
  funext x
  by_cases h : x ∈ xs <;> simp [Subst.without, Subst.or, h]

theorem without_cons (σ : Subst ν κ τ) (x : ν) (xs : List ν) :
    (σ.without [x]).without xs = σ.without (x :: xs) := by
  funext y
  by_cases hx : y = x <;> by_cases hxs : y ∈ xs <;> simp [Subst.without, hx, hxs]

theorem without_of_disjoint {xs : List ν} (h : ∀ x ∈ xs, σ x = none) : σ.without xs = σ := by
  funext x
  by_cases hx : x ∈ xs <;> simp [Subst.without, hx, h]

end Subst

@[simp] theorem bound_substit {σ : Subst ν κ τ} {bs : Bindings ν κ τ} :
    bound (substit σ bs) = bound bs := by
  induction bs using bindings_induction generalizing σ with
  | nil => simp [substit]
  | cons x type rest ih => simp [substit, ih]

theorem filter_ne (x : ν) (xs : List ν) : xs.filter (· ≠ x) = xs.filter (· ∉ [x]) := by
  simp

theorem Subst.without_agree {σ σ' : Subst ν κ τ} {xs ys : List ν}
    (h : ∀ x ∈ ys.filter (· ∉ xs), σ x = σ' x) :
    ∀ x ∈ ys, σ.without xs x = σ'.without xs x := by
  intro x hx
  by_cases hxs : x ∈ xs
  · simp [Subst.without, hxs]
  · simpa [Subst.without, hxs] using h x (by simp [hx, hxs])

/-- Variables that do not occur free may be added or left out. -/
theorem substit_congr {k : Kind} (n : Node ν κ τ k) {σ σ' : Subst ν κ τ}
    (h : ∀ x ∈ freevars n, σ x = σ' x) : substit σ n = substit σ' n := by
  induction n generalizing σ σ' with
  | var x => simp [substit, h x (by simp [freevars])]
  | constant | truth | name | nil => simp [substit]
  | negation argument ih => simp only [substit, ih h]
  | application operator argument ihop iharg =>
    simp only [freevars, List.forall_mem_append] at h
    simp only [substit, ihop h.1, iharg h.2]
  | lambda x domain body ihdomain ihbody | subtype x domain body ihdomain ihbody
  | funtype x domain body ihdomain ihbody | cons x domain body ihdomain ihbody =>
    simp only [freevars, List.forall_mem_append, filter_ne] at h
    simp only [substit, ihdomain h.1, ihbody (Subst.without_agree h.2)]
  | quant q bindings body ihbs ihbody =>
    simp only [freevars, List.forall_mem_append] at h
    simp only [substit, ihbs h.1, ihbody (Subst.without_agree h.2)]

theorem substit_none {k : Kind} (n : Node ν κ τ k) : substit (fun _ => none) n = n := by
  have hwithout (xs : List ν) : Subst.without (fun _ => none : Subst ν κ τ) xs = fun _ => none :=
    Subst.without_of_disjoint fun _ _ => rfl
  induction n with
  | _ => simp_all [substit]

theorem substit_of_none {k : Kind} {n : Node ν κ τ k} {σ : Subst ν κ τ}
    (h : ∀ x ∈ freevars n, σ x = none) : substit σ n = n :=
  (substit_congr n h).trans (substit_none n)

/-- Substitutions of closed terms one after the other are one. -/
theorem substit_substit {k : Kind} (n : Node ν κ τ k) {σ : Subst ν κ τ} (h : σ.Closed)
    (σ' : Subst ν κ τ) : substit σ' (substit σ n) = substit (σ.or σ') n := by
  induction n generalizing σ σ' with
  | var x =>
    cases hx : σ x with
    | none => simp [substit, Subst.or, hx]
    | some t =>
      have ht : substit σ' t = t := substit_of_none (by simp [h x t hx])
      simp [substit, Subst.or, hx, ht]
  | constant | truth | name | nil => simp [substit]
  | negation argument ih => simp only [substit, ih h]
  | application operator argument ihop iharg => simp only [substit, ihop h, iharg h]
  | lambda x domain body ihdomain ihbody | subtype x domain body ihdomain ihbody
  | funtype x domain body ihdomain ihbody | cons x domain body ihdomain ihbody =>
    simp only [substit, ihdomain h, ihbody (h.without _), Subst.or_without]
  | quant q bindings body ihbs ihbody =>
    simp only [substit, ihbs h, ihbody (h.without _), bound_substit, Subst.or_without]

theorem Subst.mem_without {σ : Subst ν κ τ} {xs ys zs : List ν} {y : ν}
    (h : y ∈ zs → y ∈ ys ∧ σ.without xs y = none) (hy : y ∈ zs.filter (· ∉ xs)) :
    y ∈ ys.filter (· ∉ xs) ∧ σ y = none := by
  simp only [List.mem_filter, decide_eq_true_eq] at hy ⊢
  obtain ⟨hys, hnone⟩ := h hy.1
  rw [Subst.without, if_neg hy.2] at hnone
  exact ⟨⟨hys, hy.2⟩, hnone⟩

/-- What is free after a substitution of closed terms was so before and is not substituted. -/
theorem freevars_substit {k : Kind} {n : Node ν κ τ k} {σ : Subst ν κ τ} {y : ν} (h : σ.Closed)
    (hy : y ∈ freevars (substit σ n)) : y ∈ freevars n ∧ σ y = none := by
  induction n generalizing σ with
  | var x =>
    cases hx : σ x with
    | none =>
      simp only [substit, hx, Option.getD_none, freevars, List.mem_singleton] at hy ⊢
      exact ⟨hy, hy ▸ hx⟩
    | some t => simp [substit, hx, h x t hx] at hy
  | constant | truth | name | nil => simp [substit, freevars] at hy
  | negation argument ih =>
    simp only [substit, freevars] at hy ⊢
    exact ih h hy
  | application operator argument ihop iharg =>
    simp only [substit, freevars, List.mem_append] at hy ⊢
    obtain hy | hy := hy
    · exact ⟨.inl (ihop h hy).1, (ihop h hy).2⟩
    · exact ⟨.inr (iharg h hy).1, (iharg h hy).2⟩
  | lambda x domain body ihdomain ihbody | subtype x domain body ihdomain ihbody
  | funtype x domain body ihdomain ihbody | cons x domain body ihdomain ihbody =>
    simp only [substit, freevars, List.mem_append, filter_ne] at hy ⊢
    obtain hy | hy := hy
    · exact ⟨.inl (ihdomain h hy).1, (ihdomain h hy).2⟩
    · have hbody := Subst.mem_without (ihbody (h.without [x])) hy
      exact ⟨.inr hbody.1, hbody.2⟩
  | quant q bindings body ihbs ihbody =>
    simp only [substit, freevars, List.mem_append, bound_substit] at hy ⊢
    obtain hy | hy := hy
    · exact ⟨.inl (ihbs h hy).1, (ihbs h hy).2⟩
    · have hbody := Subst.mem_without (ihbody (h.without (bound bindings))) hy
      exact ⟨.inr hbody.1, hbody.2⟩

/-! ### Meaning -/

def Quantifier.range {D : Type} : Quantifier → (D → Prop) → (D → Prop) → Prop
  | .forAll, A, P => ∀ d, A d → P d
  | .exist, A, P => ∃ d, A d ∧ P d

structure Model (κ τ D : Type) where
  constant : κ → D
  name : τ → D → Prop
  app : D → D → D
  lambda : (D → Prop) → (D → D) → D
  funtype : (D → Prop) → (D → D → Prop) → D → Prop
  ofProp : Prop → D
  IsTrue : D → Prop
  isTrue_ofProp : ∀ p, IsTrue (ofProp p) ↔ p

abbrev Kind.Value (ν D : Type) : Kind → Type
  | .expr => D
  | .type => D → Prop
  | .bindings => Quantifier → ((ν → D) → Prop) → Prop

variable {D : Type}

def eval (M : Model κ τ D) : {k : Kind} → Node ν κ τ k → (ν → D) → k.Value ν D
  | _, .var x, ρ => ρ x
  | _, .constant c, _ => M.constant c
  | _, .truth b, _ => M.ofProp (b = true)
  | _, .negation argument, ρ => M.ofProp (¬ M.IsTrue (eval M argument ρ))
  | _, .application operator argument, ρ => M.app (eval M operator ρ) (eval M argument ρ)
  | _, .lambda x domain body, ρ =>
    M.lambda (eval M domain ρ) fun d => eval M body (Function.update ρ x d)
  | _, .quant q bindings body, ρ =>
    M.ofProp (eval M bindings ρ q fun ρ' => M.IsTrue (eval M body ρ'))
  | _, .name t, _ => M.name t
  | _, .subtype x supertype predicate, ρ => fun d =>
    eval M supertype ρ d ∧ M.IsTrue (eval M predicate (Function.update ρ x d))
  | _, .funtype x domain range, ρ =>
    M.funtype (eval M domain ρ) fun d => eval M range (Function.update ρ x d)
  | _, .nil, ρ => fun _ P => P ρ
  | _, .cons x type rest, ρ => fun q P =>
    q.range (eval M type ρ) fun d => eval M rest (Function.update ρ x d) q P

/-! ### Coincidence -/

/-- Equal values, where those of bindings are so for bodies that agree on related assignments -/
abbrev Kind.Same (R : (ν → D) → (ν → D) → Prop) : {k : Kind} → k.Value ν D → k.Value ν D → Prop
  | .expr => fun v v' => v = v'
  | .type => fun v v' => v = v'
  | .bindings => fun v v' => ∀ q P P', (∀ ρ ρ', R ρ ρ' → (P ρ ↔ P' ρ')) → (v q P ↔ v' q P')

theorem Quantifier.range_congr (q : Quantifier) (A : D → Prop) {P P' : D → Prop}
    (h : ∀ d, P d ↔ P' d) : q.range A P ↔ q.range A P' := by
  rw [funext fun d => propext (h d)]

theorem update_agree {ρ ρ' : ν → D} {x : ν} {xs : List ν}
    (h : ∀ y ∈ xs.filter (· ≠ x), ρ y = ρ' y) (d : D) :
    ∀ y ∈ xs, Function.update ρ x d y = Function.update ρ' x d y := by
  intro y hy
  by_cases hyx : y = x
  · rw [hyx, Function.update_self, Function.update_self]
  · rw [Function.update_of_ne hyx, Function.update_of_ne hyx]
    exact h y (by simp [hy, hyx])

theorem eval_same (M : Model κ τ D) {k : Kind} (n : Node ν κ τ k) {ρ ρ' : ν → D}
    (h : ∀ x ∈ freevars n, ρ x = ρ' x) :
    Kind.Same (fun σ σ' => ∀ x, x ∈ bound n ∨ ρ x = ρ' x → σ x = σ' x) (eval M n ρ)
      (eval M n ρ') := by
  induction n generalizing ρ ρ' with
  | var x => exact h x (by simp [freevars])
  | constant | truth | name => simp [eval]
  | negation argument ih => simp only [Kind.Same, eval, ih h]
  | application operator argument ihop iharg =>
    simp only [freevars, List.forall_mem_append] at h
    simp only [Kind.Same, eval, ihop h.1, iharg h.2]
  | lambda x domain body ihdomain ihbody | funtype x domain body ihdomain ihbody
  | subtype x domain body ihdomain ihbody =>
    simp only [freevars, List.forall_mem_append] at h
    have hbody := fun d => ihbody (update_agree h.2 d)
    simp only [Kind.Same, eval, ihdomain h.1, hbody]
  | quant q bindings body ihbs ihbody =>
    simp only [freevars, List.forall_mem_append] at h
    simp only [Kind.Same, eval]
    refine congrArg M.ofProp (propext (ihbs h.1 q _ _ fun σ σ' hσ => ?_))
    have hbody : ∀ x ∈ freevars body, σ x = σ' x := by
      intro x hx
      by_cases hbound : x ∈ bound bindings
      · exact hσ x (.inl hbound)
      · exact hσ x (.inr (h.2 x (by simp [hx, hbound])))
    rw [ihbody hbody]
  | nil =>
    intro q P P' hP
    simp only [eval]
    exact hP _ _ fun x hx => hx.resolve_left List.not_mem_nil
  | cons x type rest ihtype ihrest =>
    simp only [freevars, List.forall_mem_append] at h
    intro q P P' hP
    simp only [eval]
    rw [ihtype h.1]
    refine q.range_congr _ fun d => ihrest (update_agree h.2 d) q P P' fun σ σ' hσ => ?_
    refine hP σ σ' fun y hy => hσ y ?_
    by_cases hyx : y = x
    · exact .inr (by rw [hyx, Function.update_self, Function.update_self])
    · rw [Function.update_of_ne hyx, Function.update_of_ne hyx]
      exact hy.imp_left fun hy => (List.mem_cons.1 hy).resolve_left hyx

theorem eval_of_freevars_eq_nil (M : Model κ τ D) {t : Expr ν κ τ} (h : freevars t = [])
    (ρ ρ' : ν → D) : eval M t ρ = eval M t ρ' :=
  eval_same M t (by simp [h])

theorem evalType_of_freevars_eq_nil (M : Model κ τ D) {t : TypeExpr ν κ τ} (h : freevars t = [])
    (ρ ρ' : ν → D) : eval M t ρ = eval M t ρ' :=
  eval_same M t (by simp [h])

/-- A model in which some constants have other values -/
def Model.withConstants (M : Model κ τ D) (values : κ → D) : Model κ τ D :=
  { M with constant := values }

theorem eval_withConstants (M : Model κ τ D) {k : Kind} (n : Node ν κ τ k) {values : κ → D}
    (h : ∀ c ∈ constants n, M.constant c = values c) (ρ : ν → D) :
    Kind.Same Eq (eval M n ρ) (eval (M.withConstants values) n ρ) := by
  induction n generalizing ρ with
  | var | truth | name => simp [eval, Model.withConstants]
  | constant c => exact h c (by simp [constants])
  | negation argument ih => 
    simp only [Kind.Same, eval, ih h]
    rfl
  | application operator argument ihop iharg =>
    simp only [constants, List.forall_mem_append] at h
    simp only [Kind.Same, eval, ihop h.1, iharg h.2]
    rfl
  | lambda x domain body ihdomain ihbody | funtype x domain body ihdomain ihbody
  | subtype x domain body ihdomain ihbody =>
    simp only [constants, List.forall_mem_append] at h
    simp only [Kind.Same, eval, ihdomain h.1, ihbody h.2]
    rfl
  | quant q bindings body ihbs ihbody =>
    simp only [constants, List.forall_mem_append] at h
    simp only [Kind.Same, eval]
    refine congrArg M.ofProp (propext (ihbs h.1 ρ q _ _ ?_))
    rintro σ _ rfl
    rw [ihbody h.2]
    rfl
  | nil =>
    intro q P P' hP
    exact hP _ _ rfl
  | cons x type rest ihtype ihrest =>
    simp only [constants, List.forall_mem_append] at h
    intro q P P' hP
    simp only [eval]
    rw [ihtype h.1]
    exact q.range_congr _ fun d => ihrest h.2 _ q P P' hP

/-! ### Substitution and meaning -/

/-- The values that a substitution gives to variables -/
def Subst.assign (σ : Subst ν κ τ) (M : Model κ τ D) (ρ : ν → D) : ν → D :=
  fun x => ((σ x).map (eval M · ρ)).getD (ρ x)

theorem Subst.assign_of_none {σ : Subst ν κ τ} {M : Model κ τ D} {ρ : ν → D} {x : ν}
    (h : σ x = none) : σ.assign M ρ x = ρ x := by
  simp [Subst.assign, h]

theorem Subst.assign_of_some {σ : Subst ν κ τ} {M : Model κ τ D} {ρ : ν → D} {x : ν}
    {t : Expr ν κ τ} (h : σ x = some t) : σ.assign M ρ x = eval M t ρ := by
  simp [Subst.assign, h]

theorem Subst.assign_update {σ : Subst ν κ τ} (h : σ.Closed) (M : Model κ τ D) (ρ : ν → D) (x : ν)
    (d : D) : (σ.without [x]).assign M (Function.update ρ x d) =
      Function.update (σ.assign M ρ) x d := by
  funext y
  by_cases hyx : y = x
  · subst hyx
    rw [Function.update_self, Subst.assign_of_none (by simp [Subst.without]),
      Function.update_self]
  · rw [Function.update_of_ne hyx]
    cases hy : σ y with
    | none =>
      rw [Subst.assign_of_none hy, Subst.assign_of_none (by simp [Subst.without, hyx, hy]),
        Function.update_of_ne hyx]
    | some t =>
      rw [Subst.assign_of_some hy, Subst.assign_of_some (by simp [Subst.without, hyx, hy]; rfl)]
      exact eval_of_freevars_eq_nil M (h y t hy) _ _

theorem eval_substit (M : Model κ τ D) {k : Kind} (n : Node ν κ τ k) {σ : Subst ν κ τ}
    (h : σ.Closed) (ρ : ν → D) :
    Kind.Same (fun ρ₁ ρ₂ => ρ₂ = (σ.without (bound n)).assign M ρ₁) (eval M (substit σ n) ρ)
      (eval M n (σ.assign M ρ)) := by
  induction n generalizing σ ρ with
  | var x =>
    cases hx : σ x with
    | none => simp [substit, eval, Subst.assign_of_none hx, hx]
    | some t => simp [substit, eval, Subst.assign_of_some hx, hx]
  | constant | truth | name => simp [substit, eval]
  | negation argument ih => simp only [Kind.Same, substit, eval, ih h]
  | application operator argument ihop iharg =>
    simp only [Kind.Same, substit, eval, ihop h, iharg h]
  | lambda x domain body ihdomain ihbody | funtype x domain body ihdomain ihbody
  | subtype x domain body ihdomain ihbody =>
    have hbody := fun d => ihbody (h.without [x]) (Function.update ρ x d)
    simp only [Subst.assign_update h] at hbody
    simp only [Kind.Same, substit, eval, ihdomain h, hbody]
  | quant q bindings body ihbs ihbody =>
    simp only [Kind.Same, substit, eval]
    refine congrArg M.ofProp (propext (ihbs h ρ q _ _ ?_))
    rintro σ₁ _ rfl
    rw [ihbody (h.without _)]
  | nil =>
    intro q P P' hP
    simp only [substit, eval]
    refine hP _ _ ?_
    rw [bound_nil, Subst.without_of_disjoint nofun]
  | cons x type rest ihtype ihrest =>
    intro q P P' hP
    simp only [substit, eval]
    rw [ihtype h]
    refine q.range_congr _ fun d => ?_
    rw [← Subst.assign_update h]
    refine ihrest (h.without [x]) _ q P P' ?_
    rintro ρ₁ _ rfl
    exact hP _ _ (by rw [Subst.without_cons, bound_cons])

end PVS.Library.Dependent
