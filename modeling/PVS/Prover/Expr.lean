import Mathlib

/-! Expressions with declared bindings, and their values. -/

namespace PVS.Prover

structure Constant where
  id : String
  uid : ℕ
  deriving DecidableEq

/-- `bind-decl`; the number stands for the object. -/
structure BindDecl where
  id : String
  type : ℕ
  uid : ℕ
  deriving DecidableEq

/-- The bindings of one binder are different objects. -/
structure Bindings where
  decls : List BindDecl
  nodup : (decls.map BindDecl.uid).Nodup
  deriving DecidableEq

namespace Bindings

def uids (bs : Bindings) : List ℕ := bs.decls.map BindDecl.uid

def types (bs : Bindings) : List ℕ := bs.decls.map BindDecl.type

end Bindings

inductive Binder
  | lambda | forAll | exists
  deriving DecidableEq

inductive UnaryOp
  | projection (i : ℕ)
  | injection (i : ℕ)
  | isInjection (i : ℕ)
  | extraction (i : ℕ)
  | field (id : String)
  deriving DecidableEq

/-- The operators whose applications have classes of their own. `boolEquation` is an equation of
booleans. -/
inductive Connective
  | equation | boolEquation | conjunction | disjunction | implication | negation
  deriving DecidableEq

/-- The operators of `number_fields`. -/
inductive ArithOp
  | plus | minus | times | divide
  deriving DecidableEq

/-- Lists are expressions, as the methods on them are those of one generic function. The arguments
of an assignment are a list of lists; `projAssign`, `fieldAssign` and `accessorAssign` are what
selects a component of a tuple, a record or an element of a datatype. -/
inductive Expr
  | nil
  | cons (a d : Expr)
  | bool (b : Bool)
  | const (c : Constant)
  | var (x : BindDecl)
  | number (q : ℚ)
  | arith (op : ArithOp)
  | iff
  | projAssign (i : ℕ)
  | fieldAssign (id : String)
  | accessorAssign (c : Constant)
  | app (operator argument : Expr)
  | connective (k : Connective) (argument : Expr)
  | branch (condition thenPart elsePart : Expr)
  | unary (u : UnaryOp) (argument : Expr)
  | tuple (exprs : Expr)
  | record (assignments : Expr)
  | update (expression assignments : Expr)
  | assignment (arguments expression : Expr)
  | binding (k : Binder) (bindings : Bindings) (expression : Expr)
  | cases (expression selections elsePart : Expr)
  | selection (constructor : Constant) (args : Bindings) (expression : Expr)
  deriving DecidableEq

namespace Expr

def isNegation : Expr → Bool
  | connective .negation _ => true
  | _ => false

/-- The free variables. -/
def frees : Expr → Set ℕ
  | var x => {x.uid}
  | cons a d => a.frees ∪ d.frees
  | app op arg => op.frees ∪ arg.frees
  | connective _ arg => arg.frees
  | branch c f g => c.frees ∪ (f.frees ∪ g.frees)
  | unary _ arg => arg.frees
  | tuple es => es.frees
  | record as => as.frees
  | update e as => e.frees ∪ as.frees
  | assignment args e => args.frees ∪ e.frees
  | binding _ bs e => e.frees \ { u | u ∈ bs.uids }
  | cases e sels els => e.frees ∪ (sels.frees ∪ els.frees)
  | selection _ bs e => e.frees \ { u | u ∈ bs.uids }
  | _ => ∅

/-- The variables that are bound somewhere. -/
def bound : Expr → Set ℕ
  | cons a d => a.bound ∪ d.bound
  | app op arg => op.bound ∪ arg.bound
  | connective _ arg => arg.bound
  | branch c f g => c.bound ∪ (f.bound ∪ g.bound)
  | unary _ arg => arg.bound
  | tuple es => es.bound
  | record as => as.bound
  | update e as => e.bound ∪ as.bound
  | assignment args e => args.bound ∪ e.bound
  | binding _ bs e => { u | u ∈ bs.uids } ∪ e.bound
  | cases e sels els => e.bound ∪ (sels.bound ∪ els.bound)
  | selection _ bs e => { u | u ∈ bs.uids } ∪ e.bound
  | _ => ∅

def Closed (e : Expr) : Prop := e.frees = ∅

end Expr

/-! ### Values -/

def ArithOp.apply : ArithOp → List ℚ → ℚ
  | plus, qs => qs.sum
  | times, qs => qs.prod
  | minus, [q] => -q
  | minus, qs => qs.headI - qs.tail.sum
  | divide, [q] => q⁻¹
  | divide, qs => qs.headI / qs.tail.prod

/-- What the symbols mean. A list is coded by `cons` and `nil`; a binder gets the values of its body
as a function of those of the bindings. -/
structure Model (D : Type) where
  bool : Bool → D
  bool_ne : bool true ≠ bool false
  const : Constant → D
  number : ℚ → D
  arith : ArithOp → D
  iff : D
  projAssign : ℕ → D
  fieldAssign : String → D
  accessorAssign : Constant → D
  nil : D
  cons : D → D → D
  app : D → D → D
  unary : UnaryOp → D → D
  tuple : D → D
  record : D → D
  update : D → D → D
  assignment : D → D → D
  binding : Binder → List ℕ → ((ℕ → D) → D) → D
  cases : D → D → D → D
  selection : Constant → ℕ → ((ℕ → D) → D) → D
  projection_fst : ∀ a d, unary (.projection 1) (tuple (cons a d)) = a
  projection_snd : ∀ a b d, unary (.projection 2) (tuple (cons a (cons b d))) = b
  app_iff : ∀ v, app iff v = bool true → unary (.projection 1) v = unary (.projection 2) v
  app_number : ∀ op q, op ≠ .divide → app (arith op) (number q) = number (op.apply [q])
  app_numbers : ∀ op qs, (op = .divide → ∃ q, qs[1]? = some q ∧ q ≠ 0) →
    app (arith op) (tuple ((qs.map number).foldr cons nil)) = number (op.apply qs)

namespace Model

variable {D : Type} (M : Model D)

abbrev tt : D := M.bool true
abbrev ff : D := M.bool false

section

open Classical

/-! The connectives on the truth values. On anything else, which no argument of a connective is,
they are such that what simplifies there keeps its value. -/

noncomputable def negation (a : D) : D := Equiv.swap M.tt M.ff a

variable {M} in
theorem negation_negation (a : D) : M.negation (M.negation a) = a := Equiv.swap_apply_self ..

variable {M} in
@[simp] theorem negation_true : M.negation (M.bool true) = M.bool false := Equiv.swap_apply_left ..

variable {M} in
@[simp] theorem negation_false : M.negation (M.bool false) = M.bool true :=
  Equiv.swap_apply_right ..

variable {M} in
theorem negation_eq_false {a : D} : M.negation a = M.bool false ↔ a = M.bool true := by
  rw [← negation_true, negation, negation, Equiv.apply_eq_iff_eq]

noncomputable def connective : Connective → D → D → D
  | .equation, a, b => if a = b then M.tt else M.ff
  | .boolEquation, a, b =>
    if a = M.tt then b else if b = M.tt then a else if a = b then M.tt else M.ff
  | .conjunction, a, b => if a = M.tt then b else if b = M.tt then a else M.ff
  | .disjunction, a, b => if a = M.ff then b else if b = M.ff then a else M.tt
  | .implication, a, b => if a = M.tt then b else if b = M.ff then M.negation a else M.tt
  | .negation, a, _ => M.negation a

section

variable {M} (a : D)

@[simp] theorem equation_self : M.connective .equation a a = M.bool true := if_pos rfl

@[simp] theorem boolEquation_true_left : M.connective .boolEquation (M.bool true) a = a :=
  if_pos rfl

@[simp] theorem boolEquation_true_right : M.connective .boolEquation a (M.bool true) = a := by
  rw [connective, if_pos rfl]
  split
  · rename_i h
    exact h.symm
  · rfl

@[simp] theorem boolEquation_self : M.connective .boolEquation a a = M.bool true := by
  rw [connective]
  split
  · rename_i h
    exact h
  · rw [if_pos rfl]

@[simp] theorem conjunction_true_left : M.connective .conjunction (M.bool true) a = a := if_pos rfl

@[simp] theorem conjunction_true_right : M.connective .conjunction a (M.bool true) = a := by
  rw [connective, if_pos rfl]
  split
  · rename_i h
    exact h.symm
  · rfl

@[simp] theorem conjunction_false_left :
    M.connective .conjunction (M.bool false) a = M.bool false := by
  rw [connective, if_neg M.bool_ne.symm]
  split <;> rfl

@[simp] theorem conjunction_false_right :
    M.connective .conjunction a (M.bool false) = M.bool false := by
  rw [connective, if_neg M.bool_ne.symm]
  split <;> rfl

@[simp] theorem disjunction_false_left : M.connective .disjunction (M.bool false) a = a :=
  if_pos rfl

@[simp] theorem disjunction_false_right : M.connective .disjunction a (M.bool false) = a := by
  rw [connective, if_pos rfl]
  split
  · rename_i h
    exact h.symm
  · rfl

@[simp] theorem disjunction_true_left :
    M.connective .disjunction (M.bool true) a = M.bool true := by
  rw [connective, if_neg M.bool_ne]
  split <;> rfl

@[simp] theorem disjunction_true_right :
    M.connective .disjunction a (M.bool true) = M.bool true := by
  rw [connective, if_neg M.bool_ne]
  split <;> rfl

@[simp] theorem implication_true_left : M.connective .implication (M.bool true) a = a := if_pos rfl

@[simp] theorem implication_false_left :
    M.connective .implication (M.bool false) a = M.bool true := by
  rw [connective, if_neg M.bool_ne.symm, negation_false]
  split <;> rfl

@[simp] theorem implication_true_right :
    M.connective .implication a (M.bool true) = M.bool true := by
  rw [connective, if_neg M.bool_ne]
  split <;> rfl

@[simp] theorem implication_false_right :
    M.connective .implication a (M.bool false) = M.negation a := by
  rw [connective, if_pos rfl]
  split
  · rename_i h
    rw [h, negation_true]
  · rfl

end

/-- The value of an application of a connective to an argument that need not be a tuple. -/
noncomputable def applyConnective (k : Connective) (v : D) : D :=
  if k = .negation then M.negation v
  else M.connective k (M.unary (.projection 1) v) (M.unary (.projection 2) v)

noncomputable def branch (c a b : D) : D := if c = M.tt then a else b

end

end Model

/-- The environment where the bindings have the values. -/
def bindEnv {D : Type} (ρ : ℕ → D) : List ℕ → (ℕ → D) → ℕ → D
  | [], _, v => ρ v
  | u :: us, vals, v => if v = u then vals 0 else bindEnv ρ us (fun i => vals (i + 1)) v

noncomputable def Expr.eval {D : Type} (M : Model D) : Expr → (ℕ → D) → D
  | nil, _ => M.nil
  | cons a d, ρ => M.cons (a.eval M ρ) (d.eval M ρ)
  | bool b, _ => M.bool b
  | const c, _ => M.const c
  | var x, ρ => ρ x.uid
  | number q, _ => M.number q
  | arith op, _ => M.arith op
  | iff, _ => M.iff
  | projAssign i, _ => M.projAssign i
  | fieldAssign id, _ => M.fieldAssign id
  | accessorAssign c, _ => M.accessorAssign c
  | app op arg, ρ => M.app (op.eval M ρ) (arg.eval M ρ)
  | connective k arg, ρ => M.applyConnective k (arg.eval M ρ)
  | branch c f g, ρ => M.branch (c.eval M ρ) (f.eval M ρ) (g.eval M ρ)
  | unary u arg, ρ => M.unary u (arg.eval M ρ)
  | tuple es, ρ => M.tuple (es.eval M ρ)
  | record as, ρ => M.record (as.eval M ρ)
  | update e as, ρ => M.update (e.eval M ρ) (as.eval M ρ)
  | assignment args e, ρ => M.assignment (args.eval M ρ) (e.eval M ρ)
  | binding k bs e, ρ => M.binding k bs.types fun vals => e.eval M (bindEnv ρ bs.uids vals)
  | cases e sels els, ρ => M.cases (e.eval M ρ) (sels.eval M ρ) (els.eval M ρ)
  | selection c bs e, ρ => M.selection c bs.uids.length fun vals => e.eval M (bindEnv ρ bs.uids vals)

section Values

variable {D : Type} {M : Model D}

theorem bindEnv_congr {us : List ℕ} {S : Set ℕ} {ρ ρ' : ℕ → D}
    (h : ∀ u ∈ S \ { u | u ∈ us }, ρ u = ρ' u) (vals : ℕ → D) :
    ∀ u ∈ S, bindEnv ρ us vals u = bindEnv ρ' us vals u := by
  induction us generalizing S vals with
  | nil => exact fun u hu => h u ⟨hu, List.not_mem_nil⟩
  | cons w us ih =>
    intro u hu
    unfold bindEnv
    split
    · rfl
    · rename_i hne
      apply ih (S := S \ {w}) _ _ u ⟨hu, hne⟩
      rintro v ⟨⟨hv, hvw⟩, hvs⟩
      apply h v ⟨hv, _⟩
      rintro (_ | ⟨_, hmem⟩)
      · exact hvw rfl
      · exact hvs hmem

/-- Only the free variables matter. -/
theorem Expr.eval_congr (e : Expr) {ρ ρ' : ℕ → D} (h : ∀ u ∈ e.frees, ρ u = ρ' u) :
    e.eval M ρ = e.eval M ρ' := by
  induction e generalizing ρ ρ' with
  | nil | bool | const | number | arith | iff | projAssign | fieldAssign | accessorAssign => rfl
  | var x => exact h x.uid rfl
  | cons a d iha ihd =>
    simp only [eval, iha fun u hu => h u (.inl hu), ihd fun u hu => h u (.inr hu)]
  | app op arg ihop iharg =>
    simp only [eval, ihop fun u hu => h u (.inl hu), iharg fun u hu => h u (.inr hu)]
  | connective k arg ih | unary k arg ih => simp only [eval, ih h]
  | tuple es ih | record as ih => simp only [eval, ih h]
  | branch c f g ihc ihf ihg =>
    simp only [eval, ihc fun u hu => h u (.inl hu), ihf fun u hu => h u (.inr (.inl hu)),
      ihg fun u hu => h u (.inr (.inr hu))]
  | update e as ihe ihas =>
    simp only [eval, ihe fun u hu => h u (.inl hu), ihas fun u hu => h u (.inr hu)]
  | assignment args e ihargs ihe =>
    simp only [eval, ihargs fun u hu => h u (.inl hu), ihe fun u hu => h u (.inr hu)]
  | binding k bs e ih =>
    simp only [eval]
    congr 1
    funext vals
    apply ih
    apply bindEnv_congr h vals
  | cases e sels els ihe ihsels ihels =>
    simp only [eval, ihe fun u hu => h u (.inl hu), ihsels fun u hu => h u (.inr (.inl hu)),
      ihels fun u hu => h u (.inr (.inr hu))]
  | selection c bs e ih =>
    simp only [eval]
    congr 1
    funext vals
    apply ih
    apply bindEnv_congr h vals

theorem Expr.Closed.eval_eq {e : Expr} (h : e.Closed) (ρ ρ' : ℕ → D) : e.eval M ρ = e.eval M ρ' := by
  apply e.eval_congr
  intro u hu
  rw [h] at hu
  cases hu

end Values

end PVS.Prover
