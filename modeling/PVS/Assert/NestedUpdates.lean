import Mathlib.Data.List.Basic
import Mathlib.Tactic.Common
import PVS.Library.Components

/-! Updates of updates, and of expressions that are written out. -/

namespace PVS.Assert

open Library

/-- An argument list on the left of an assignment: a field or an accessor, a projection, or the
arguments of a function. -/
inductive Arg (I : Type) where
  | name (id : ℕ)
  | proj (number : ℕ)
  | index (i : I)

/-- The arguments are `first` and `rest`. -/
structure Assignment (I E : Type) where
  first : Arg I
  rest : List (Arg I)
  expression : E

/-- The constructor applications have their arguments written out. -/
inductive UpdExpr (I C B : Type) where
  | other (b : B)
  | record (assignments : List (ℕ × UpdExpr I C B))
  | tuple (exprs : List (UpdExpr I C B))
  | constructor (c : C) (arguments : List (UpdExpr I C B))
  | update (expression : UpdExpr I C B) (assignments : List (Assignment I (UpdExpr I C B)))

/-- The value of an argument. -/
inductive Key (W : Type) where
  | name (id : ℕ)
  | proj (number : ℕ)
  | index (w : W)
  deriving DecidableEq

variable {I C B V W R Env : Type}

namespace Assignment

def arguments {E : Type} (a : Assignment I E) : List (Arg I) := a.first :: a.rest

end Assignment

/-- What expressions mean. -/
structure UpdMeaning (I C B V W R Env : Type) where
  comps : Components V (Key W) R
  accessors : C → List ℕ
  index : Env → I → W
  other : Env → B → V
  emptyRecord : V
  tuple : List V → V
  construct : C → List V → V
  put_tuple : ∀ {l : List V} {i} (x : V), i < l.length →
    comps.put (tuple l) (.proj (i + 1)) x = tuple (l.set i x)
  put_construct : ∀ {c} {l : List V} {acc i} (x : V), (accessors c).idxOf? acc = some i →
    i < l.length → comps.put (construct c l) (.name acc) x = construct c (l.set i x)

namespace UpdMeaning

variable (M : UpdMeaning I C B V W R Env) (ρ : Env)

def key : Arg I → Key W
  | .name id => .name id
  | .proj number => .proj number
  | .index i => .index (M.index ρ i)

mutual

def eval : UpdExpr I C B → V
  | .other b => M.other ρ b
  | .record as => M.comps.override M.emptyRecord (evalFields as)
  | .tuple es => M.tuple (evalList es)
  | .constructor c es => M.construct c (evalList es)
  | .update e as => M.comps.override (eval e) (evalAssignments as)

def evalFields : List (ℕ × UpdExpr I C B) → List (List (Key W) × V)
  | [] => []
  | (f, e) :: l => ([.name f], eval e) :: evalFields l

def evalList : List (UpdExpr I C B) → List V
  | [] => []
  | e :: l => eval e :: evalList l

def evalAssignments : List (Assignment I (UpdExpr I C B)) → List (List (Key W) × V)
  | [] => []
  | ⟨a, p, e⟩ :: l => (M.key ρ a :: p.map (M.key ρ), eval e) :: evalAssignments l

end

end UpdMeaning

/-- `tc-eq`, on arguments of functions and on expressions. -/
structure TcEq (M : UpdMeaning I C B V W R Env) where
  index : I → I → Bool
  expr : UpdExpr I C B → UpdExpr I C B → Bool
  index_sound : ∀ {i j}, index i j = true → ∀ ρ, M.index ρ i = M.index ρ j
  expr_sound : ∀ {e e'}, expr e e' = true → ∀ ρ, M.eval ρ e = M.eval ρ e'

namespace TcEq

variable {M : UpdMeaning I C B V W R Env} (T : TcEq M)

def arg : Arg I → Arg I → Bool
  | .name id, .name id' => id = id'
  | .proj n, .proj n' => n = n'
  | .index i, .index j => T.index i j
  | _, _ => false

/-- `match-update-args-prefix?`, where `t` is the empty remainder. -/
def matchUpdateArgsPrefix : List (Arg I) → List (Arg I) → Option (List (Arg I))
  | a :: args1, b :: args2 => if T.arg a b then matchUpdateArgsPrefix args1 args2 else none
  | [], args2 => some args2
  | _ :: _, [] => none

/-- The assignments that begin with the argument, without it, in their order. -/
def matching (b : Arg I) (outer : List (Assignment I (UpdExpr I C B))) :
    List (List (Arg I) × UpdExpr I C B) :=
  outer.filterMap fun a => (T.matchUpdateArgsPrefix [b] a.arguments).map (·, a.expression)

end TcEq

/-- `final-override`: `accum-assignments` has the last assignment first. -/
def finalOverride {E : Type} (accum : List (List (Arg I) × E)) : Option E :=
  (accum.find? fun x => x.1.isEmpty).map (·.2)

/-- `make-assignment`, for remainders that are not `t` -/
def makeAssignments {E : Type} (l : List (List (Arg I) × E)) : List (Assignment I E) :=
  l.filterMap fun x =>
    match x.1 with
    | [] => none
    | a :: p => some ⟨a, p, x.2⟩

/-- Assignments to whole fields, as those of a record. -/
def fieldAssigns {E : Type} : List (Assignment I E) → Option (List (ℕ × E))
  | [] => some []
  | ⟨.name f, _, e⟩ :: l => (fieldAssigns l).map ((f, e) :: ·)
  | _ :: _ => none

/-- `partition-tup-assignments`; there is none when an argument is not a projection. -/
def partitionTupAssignments {E : Type} :
    List (Assignment I E) → List (ℕ × List (Assignment I E)) →
      Option (List (ℕ × List (Assignment I E)))
  | [], parts => some parts
  | a :: assignments, parts =>
    match a.first with
    | .proj (index + 1) =>
      partitionTupAssignments assignments
        (if parts.any fun p => p.1 = index then
          parts.map fun p => if p.1 = index then (p.1, p.2 ++ [a]) else p
        else (index, [a]) :: parts)
    | _ => none

/-- `create-tup-nested-update` without assignments -/
def tupUpdate (expr : UpdExpr I C B) (newAssigns : List (Assignment I (UpdExpr I C B))) :
    UpdExpr I C B :=
  if newAssigns.isEmpty then expr else .update expr newAssigns.reverse

/-- `create-tup-nested-update` -/
def createTupNestedUpdate : List (Assignment I (UpdExpr I C B)) → UpdExpr I C B →
    List (Assignment I (UpdExpr I C B)) → UpdExpr I C B
  | [], expr, newAssigns => tupUpdate expr newAssigns
  | ⟨_, args, aexpr⟩ :: assigns, expr, newAssigns =>
    match args with
    | [] => tupUpdate aexpr newAssigns
    | b :: p => createTupNestedUpdate assigns expr (⟨b, p, aexpr⟩ :: newAssigns)

/-- The new expressions of a tuple; there are none when an index is too large. -/
def setParts (exprs : List (UpdExpr I C B)) :
    List (ℕ × List (Assignment I (UpdExpr I C B))) → List (UpdExpr I C B) →
      Option (List (UpdExpr I C B))
  | [], newExprs => some newExprs
  | (index, assigns) :: parts, newExprs =>
    match exprs[index]? with
    | some tupexpr =>
      setParts exprs parts (newExprs.set index (createTupNestedUpdate assigns tupexpr []))
    | none => none

namespace TcEq

variable {M : UpdMeaning I C B V W R Env} (T : TcEq M)

/-- `merge-assignments` -/
def mergeAssignments : List (Assignment I (UpdExpr I C B)) → List (Assignment I (UpdExpr I C B))
  | [] => []
  | assgn1 :: assignments =>
    if assignments.any fun a => (T.matchUpdateArgsPrefix a.arguments assgn1.arguments).isSome then
      mergeAssignments assignments
    else assgn1 :: mergeAssignments assignments

end TcEq

namespace TcEq

variable {M : UpdMeaning I C B V W R Env} (T : TcEq M)

/-- `collect-new-outer-assigns`, for the assignments of a record -/
def collectNewOuterAssigns (assignments : List (ℕ × UpdExpr I C B))
    (outer : List (Assignment I (UpdExpr I C B))) : List (Assignment I (UpdExpr I C B)) :=
  outer.filter fun a =>
    !assignments.any fun f => (T.matchUpdateArgsPrefix [.name f.1] a.arguments).isSome

end TcEq

/-- The length of the longest left side. -/
def depth {E : Type} (outer : List (Assignment I E)) : ℕ :=
  (outer.map fun a => a.rest.length + 1).foldr max 0

theorem depth_cons {E : Type} (a : Assignment I E) (l : List (Assignment I E)) :
    depth (a :: l) = max (a.rest.length + 1) (depth l) := rfl

theorem length_lt_depth {E : Type} {a : Assignment I E} {l : List (Assignment I E)} (h : a ∈ l) :
    a.rest.length < depth l := by
  induction l with
  | nil => cases h
  | cons b l ih =>
    rw [depth_cons]
    obtain rfl | h := List.mem_cons.1 h
    · exact Nat.le_max_left _ _
    · exact Nat.lt_of_lt_of_le (ih h) (Nat.le_max_right _ _)

namespace TcEq

variable {M : UpdMeaning I C B V W R Env} (T : TcEq M)

theorem matching_cons (b : Arg I) (a : Assignment I (UpdExpr I C B))
    (outer : List (Assignment I (UpdExpr I C B))) :
    T.matching b (a :: outer) =
      if T.arg b a.first then (a.rest, a.expression) :: T.matching b outer
      else T.matching b outer := by
  rw [matching, List.filterMap_cons, Assignment.arguments, matchUpdateArgsPrefix]
  split <;> rename_i h <;> split at h
  · cases h
  · rw [if_neg (by assumption)]
    rfl
  · rw [if_pos (by assumption)]
    rw [matchUpdateArgsPrefix, Option.map_some, Option.some.injEq] at h
    rw [← h]
    rfl
  · cases h

theorem depth_makeAssignments_matching (b : Arg I)
    (outer : List (Assignment I (UpdExpr I C B))) :
    depth (makeAssignments (T.matching b outer)) ≤ depth outer - 1 := by
  induction outer with
  | nil => exact Nat.le_refl _
  | cons a outer ih =>
    rw [matching_cons, depth_cons]
    split
    · cases hrest : a.rest with
      | nil =>
        rw [makeAssignments, List.filterMap_cons_none (by rfl)]
        exact Nat.le_trans ih (Nat.sub_le_sub_right (Nat.le_max_right _ _) 1)
      | cons c p =>
        rw [makeAssignments, List.filterMap_cons_some (by rfl), depth_cons, List.length_cons]
        refine Nat.max_le.2 ⟨Nat.le_sub_one_of_lt (Nat.le_max_left _ _), ?_⟩
        exact Nat.le_trans ih (Nat.sub_le_sub_right (Nat.le_max_right _ _) 1)
    · exact Nat.le_trans ih (Nat.sub_le_sub_right (Nat.le_max_right _ _) 1)

theorem depth_makeAssignments_matching_lt (b : Arg I)
    {outer : List (Assignment I (UpdExpr I C B))} (h : T.matching b outer ≠ []) :
    depth (makeAssignments (T.matching b outer)) < depth outer := by
  have hpos : 0 < depth outer := by
    cases outer with
    | nil => exact absurd rfl h
    | cons a outer => exact Nat.lt_of_lt_of_le (Nat.succ_pos _) (Nat.le_max_left _ _)
  have hle := T.depth_makeAssignments_matching b outer
  omega

mutual

/-- `simplify-nested-updates`; nothing is returned where the source signals an error. -/
def simplifyNestedUpdates (expr : UpdExpr I C B)
    (outer : List (Assignment I (UpdExpr I C B))) : Option (UpdExpr I C B) :=
  match expr with
  | .record assignments =>
    match updateAssigns assignments outer with
    | none => none
    | some newExprAssigns =>
      let newOuterAssigns := T.collectNewOuterAssigns assignments outer
      let outerToInner := newOuterAssigns.filter fun a => a.rest.isEmpty
      let outerOuter := newOuterAssigns.filter fun a => !a.rest.isEmpty
      match fieldAssigns outerToInner with
      | none => none
      | some inner =>
        let newExpr : UpdExpr I C B := .record (newExprAssigns ++ inner)
        if outerOuter.isEmpty then some newExpr else some (.update newExpr outerOuter)
  | .tuple exprs =>
    match partitionTupAssignments outer [] with
    | none => none
    | some parts => (setParts exprs parts exprs).map .tuple
  | .constructor c arguments => simplifyConstructorNestedUpdate c outer arguments
  | .update expression assignments =>
    some (.update expression (T.mergeAssignments (assignments ++ outer)))
  | .other b => some (.update (.other b) outer)
termination_by (depth outer, 2, 0)

/-- `make-updated-assign`, with `make-updated-assign-expr` -/
def updateAssigns (assignments : List (ℕ × UpdExpr I C B))
    (outer : List (Assignment I (UpdExpr I C B))) : Option (List (ℕ × UpdExpr I C B)) :=
  match assignments with
  | [] => some []
  | (f, e) :: l =>
    let accum := (T.matching (.name f) outer).reverse
    let newExpr :=
      if _h : accum.isEmpty then some e
      else match finalOverride accum with
        | some x => some x
        | none => simplifyNestedUpdates e (makeAssignments accum.reverse)
    match newExpr, updateAssigns l outer with
    | some x, some l' => some ((f, x) :: l')
    | _, _ => none
termination_by (depth outer, 1, assignments.length)
decreasing_by
  · rw [List.reverse_reverse]
    exact .left _ _ (T.depth_makeAssignments_matching_lt _ (by simpa [accum] using _h))
  · exact .right _ (.right _ (Nat.lt_succ_self _))

/-- `simplify-constructor-nested-update` -/
def simplifyConstructorNestedUpdate (c : C) (assigns : List (Assignment I (UpdExpr I C B)))
    (arguments : List (UpdExpr I C B)) : Option (UpdExpr I C B) :=
  match assigns with
  | [] => some (.constructor c arguments)
  | ⟨.name acc, assArgs, value⟩ :: assigns =>
    match (M.accessors c).idxOf? acc with
    | none => none
    | some pos =>
      match arguments[pos]? with
      | none => none
      | some exprArg =>
        let newArg :=
          match assArgs with
          | [] => some value
          | b :: p => simplifyNestedUpdates exprArg [⟨b, p, value⟩]
        match newArg with
        | none => none
        | some newArg =>
          simplifyConstructorNestedUpdate c assigns
            (if T.expr exprArg newArg then arguments else arguments.set pos newArg)
  | ⟨_, _, _⟩ :: _ => none
termination_by (depth assigns, 1, assigns.length)
decreasing_by
  · rw [depth_cons]
    exact .left _ _ (Nat.lt_of_lt_of_le (by simp [depth]) (Nat.le_max_left _ _))
  · rw [depth_cons]
    obtain hlt | heq := Nat.lt_or_eq_of_le (Nat.le_max_right (assArgs.length + 1) (depth assigns))
    · exact .left _ _ hlt
    · rw [← heq]
      exact .right _ (.right _ (Nat.lt_succ_self _))

end

end TcEq

end PVS.Assert
