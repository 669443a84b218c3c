import PVS.Judgements.LetTypesTable

/-! The values of expressions are in their judgement types. -/

namespace PVS.Judgements

/-- The values of operators and tuples -/
structure ExprValues (K V : Type) where
  evalNode : K → List V → V
  mkTuple : List V → V
  untuple : V → List V
  untuple_mkTuple : ∀ vs, untuple (mkTuple vs) = vs

/-- The variables get the values in turn. -/
def bindValues {X V : Type} [DecidableEq X] : List X → List V → (X → V) → X → V
  | b :: bindings, v :: vs, ρ => bindValues bindings vs (Function.update ρ b v)
  | _, _, ρ => ρ

theorem bindValues_of_not_mem {X V : Type} [DecidableEq X] {bindings : List X} {x : X}
    (hx : x ∉ bindings) (vs : List V) (ρ : X → V) : bindValues bindings vs ρ x = ρ x := by
  induction bindings generalizing vs ρ with
  | nil => cases vs <;> rfl
  | cons b bindings ih =>
    rw [List.mem_cons, not_or] at hx
    cases vs with
    | nil => rfl
    | cons v vs => rw [bindValues, ih hx.2, Function.update_of_ne hx.1]

theorem bindValues_of_mem_zip {X V : Type} [DecidableEq X] {bindings : List X}
    (hnodup : bindings.Nodup) {vs : List V} {p : X × V} (hp : p ∈ bindings.zip vs) (ρ : X → V) :
    bindValues bindings vs ρ p.1 = p.2 := by
  induction bindings generalizing vs ρ with
  | nil => simp at hp
  | cons b bindings ih =>
    rw [List.nodup_cons] at hnodup
    cases vs with
    | nil => simp at hp
    | cons v vs =>
      rw [List.zip_cons_cons, List.mem_cons] at hp
      obtain rfl | hp := hp
      · rw [bindValues, bindValues_of_not_mem hnodup.1, Function.update_self]
      · exact ih hnodup.2 hp _

theorem map_fst_zip_sublist {α β : Type} (l : List α) (l' : List β) :
    ((l.zip l').map (·.1)).Sublist l := by
  induction l generalizing l' with
  | nil => simp
  | cons a l ih =>
    cases l' with
    | nil => simp
    | cons b l' => exact (ih l').cons_cons a

namespace ExprValues

variable {X K V : Type} [DecidableEq X] (M : ExprValues K V)

/-- The values of the bindings -/
def letValues (bindings : List X) (v : V) : List V :=
  if bindings.tail.isEmpty then [v] else M.untuple v

mutual

def eval : LExpr X K → (X → V) → V
  | .var x, ρ => ρ x
  | .node k args, ρ => M.evalNode k (evalList args ρ)
  | .tuple exprs, ρ => M.mkTuple (evalList exprs ρ)
  | .letApp bindings body arg, ρ =>
    eval body (bindValues bindings (M.letValues bindings (eval arg ρ)) ρ)

def evalList : List (LExpr X K) → (X → V) → List V
  | [], _ => []
  | e :: es, ρ => eval e ρ :: evalList es ρ

end

/-- The values of the variables of the lambdas that are passed -/
def passedEnv : LExpr X K → (X → V) → X → V
  | .letApp bindings body arg, ρ =>
    passedEnv body (bindValues bindings (M.letValues bindings (M.eval arg ρ)) ρ)
  | _, ρ => ρ

theorem eval_operatorExpression (e : LExpr X K) (ρ : X → V) :
    M.eval e.operatorExpression (M.passedEnv e ρ) = M.eval e ρ := by
  induction e using LExpr.operatorExpression.induct generalizing ρ with
  | case1 bindings body arg ih => rw [LExpr.operatorExpression, passedEnv, ih, eval]
  | case2 e h =>
    rw [LExpr.operatorExpression, passedEnv]
    · exact h
    · exact h

theorem passedEnv_of_not_mem {e : LExpr X K} {x : X} (hx : x ∉ e.passed) (ρ : X → V) :
    M.passedEnv e ρ x = ρ x := by
  induction e using LExpr.operatorExpression.induct generalizing ρ with
  | case1 bindings body arg ih =>
    rw [LExpr.passed, List.mem_append, not_or] at hx
    rw [passedEnv, ih hx.2, bindValues_of_not_mem hx.1]
  | case2 e h =>
    rw [passedEnv]
    exact h

theorem evalList_eq_map (es : List (LExpr X K)) (ρ : X → V) :
    M.evalList es ρ = es.map fun e => M.eval e ρ := by
  induction es with
  | nil => rfl
  | cons e es ih => rw [evalList, ih, List.map_cons]

/-- With one argument for each binding, the values are those of the arguments. -/
theorem letValues_eq {bindings : List X} {arg : LExpr X K}
    (h : bindings.length = (arg.arguments bindings).length) (ρ : X → V) :
    M.letValues bindings (M.eval arg ρ) = (arg.arguments bindings).map fun e => M.eval e ρ := by
  rw [LExpr.arguments] at h ⊢
  rw [letValues]
  split
  · rfl
  next htail =>
    rw [if_neg htail] at h
    have hlength : bindings.length ≠ 1 := by
      intro h
      obtain ⟨b, rfl⟩ := List.length_eq_one_iff.1 h
      exact htail rfl
    cases arg with
    | tuple exprs =>
      rw [eval, M.untuple_mkTuple, evalList_eq_map]
      rfl
    | _ => exact absurd h hlength

end ExprValues

/-- What the types mean. -/
structure JudgementSemantics {X K Ty J : Type} [DecidableEq X] (S : JudgementSyntax X K Ty J)
    (V : Type) extends ExprValues K V where
  /-- The values of the variables are in their types. -/
  Env : (X → V) → Prop
  mem : Ty → (X → V) → V → Prop
  memAll : J → (X → V) → V → Prop
  tyFreevars : Ty → List X
  freevars : J → List X
  mem_congr : ∀ {ty ρ ρ' v}, (∀ x ∈ tyFreevars ty, ρ x = ρ' x) → mem ty ρ v → mem ty ρ' v
  memAll_congr : ∀ {j ρ ρ' v}, (∀ x ∈ freevars j, ρ x = ρ' x) → memAll j ρ v → memAll j ρ' v
  memAll_nil : ∀ ρ v, memAll S.nil ρ v
  nodeTypes_valid : ∀ {k args js ρ}, Env ρ →
    List.Forall₂ (fun a j => memAll j ρ (toExprValues.eval a ρ)) args js →
      memAll (S.nodeTypes (.node k args) js) ρ (toExprValues.eval (.node k args) ρ)
  againTypes_valid : ∀ {k args ps ρ}, Env ρ →
    List.Forall₂ (fun a l => ∀ ty ∈ l, mem ty ρ (toExprValues.eval a ρ)) args ps →
      memAll (S.againTypes (.node k args) ps) ρ (toExprValues.eval (.node k args) ρ)
  tupleTypes_valid : ∀ {exprs js ρ}, Env ρ →
    List.Forall₂ (fun a j => memAll j ρ (toExprValues.eval a ρ)) exprs js →
      memAll (S.tupleTypes (.tuple exprs) js) ρ (toExprValues.eval (.tuple exprs) ρ)
  exprJudgementTypes_valid : ∀ {e j ρ}, Env ρ → memAll j ρ (toExprValues.eval e ρ) →
    memAll (S.exprJudgementTypes e j) ρ (toExprValues.eval e ρ)
  substJudgementTypes_valid : ∀ {j bindings arg ρ v},
    memAll j (bindValues bindings (toExprValues.letValues bindings (toExprValues.eval arg ρ)) ρ) v →
      memAll (S.substJudgementTypes j bindings arg) ρ v
  removeTypes_valid : ∀ {e j ρ v}, memAll j ρ v → memAll (S.removeTypes e j) ρ v
  typesPlus_valid : ∀ {e j ρ}, Env ρ → memAll j ρ (toExprValues.eval e ρ) →
    ∀ ty ∈ S.typesPlus e j, mem ty ρ (toExprValues.eval e ρ)
  /-- The type is no dependent tuple type. -/
  Independent : Ty → Prop
  componentTypes_valid : ∀ {l ρ v}, (∀ ty ∈ l, Independent ty) → (∀ ty ∈ l, mem ty ρ v) →
    ∀ (i : ℕ) (tys : List Ty), (S.componentTypes l)[i]? = some tys →
      ∃ w, (toExprValues.untuple v)[i]? = some w ∧ ∀ ty ∈ tys, mem ty ρ w
  freevars_componentTypes : ∀ {l}, (∀ ty ∈ l, Independent ty) →
    ∀ tys ∈ S.componentTypes l, ∀ ty ∈ tys, ∀ x ∈ tyFreevars ty, ∃ ty' ∈ l, x ∈ tyFreevars ty'
  appendTypes_valid : ∀ {l j ρ v}, (∀ ty ∈ l, mem ty ρ v) → memAll j ρ v →
    memAll (S.appendTypes l j) ρ v

namespace JudgementSemantics

variable {X K Ty J V : Type} [DecidableEq X] {S : JudgementSyntax X K Ty J}
  (M : JudgementSemantics S V)

/-- The variables of the lambda expressions occur where they are bound only, and the types that
are found in the body mention none of a lambda expression that is passed. An argument for several
bindings has no dependent type. -/
inductive Scoped : List X → (X → J) → LExpr X K → Prop
  | var (boundVars : List X) (A : X → J) (x : X) : Scoped boundVars A (.var x)
  | node (boundVars : List X) (A : X → J) (k : K) (args : List (LExpr X K))
      (hargs : ∀ a ∈ args, Scoped boundVars A a) : Scoped boundVars A (.node k args)
  | tuple (boundVars : List X) (A : X → J) (exprs : List (LExpr X K))
      (hexprs : ∀ a ∈ exprs, Scoped boundVars A a) : Scoped boundVars A (.tuple exprs)
  | letApp (boundVars : List X) (A : X → J) (bindings : List X) (body arg : LExpr X K)
      (hnodup : (bindings ++ body.passed).Nodup)
      (hargs : ∀ p ∈ S.readings boundVars A bindings arg, Scoped boundVars A p.2)
      (hsame : ∀ p ∈ S.readings boundVars A bindings arg,
        S.plus boundVars p.1 p.2 = S.plus boundVars A p.2)
      (hfree : ∀ p ∈ S.readings boundVars A bindings arg, ∀ ty ∈ S.plus boundVars A p.2,
        ∀ b ∈ bindings ++ body.passed, b ∉ M.tyFreevars ty)
      (hindependent : bindings.length ≠ (arg.arguments bindings).length →
        ∀ ty ∈ S.plus boundVars A arg, M.Independent ty)
      (hnew : ∀ b ∈ bindings ++ body.passed, A b = S.nil)
      (houter : ∀ x, ∀ b ∈ bindings ++ body.passed, b ∉ M.freevars (A x))
      (htyped : ∀ ρ, M.Env ρ → M.Env (M.passedEnv (.letApp bindings body arg) ρ))
      (hbody : Scoped ((S.assume boundVars A bindings arg).1 ++ boundVars)
        (S.assume boundVars A bindings arg).2 body.operatorExpression)
      (hpassed : ∀ b ∈ body.passed, b ∉ M.freevars
        (S.types ((S.assume boundVars A bindings arg).1 ++ boundVars)
          (S.assume boundVars A bindings arg).2 body.operatorExpression)) :
      Scoped boundVars A (.letApp bindings body arg)

theorem foldl_bind_apply {L : List (X × List Ty)} (hnodup : (L.map (·.1)).Nodup)
    (s : List X × (X → J)) (x : X) :
    (L.foldl (fun s p => S.bind p.1 p.2 s) s).2 x = s.2 x ∨
      ∃ p ∈ L, p.1 = x ∧
        (L.foldl (fun s p => S.bind p.1 p.2 s) s).2 x =
          S.appendTypes (S.newTypes x p.2) (s.2 x) := by
  induction L generalizing s with
  | nil => exact Or.inl rfl
  | cons p L ih =>
    rw [List.map_cons, List.nodup_cons] at hnodup
    have hstep : (S.bind p.1 p.2 s).2 x = s.2 x ∨ p.1 = x ∧
        (S.bind p.1 p.2 s).2 x = S.appendTypes (S.newTypes x p.2) (s.2 x) := by
      rw [JudgementSyntax.bind]
      split
      · exact Or.inl rfl
      · by_cases hx : p.1 = x
        · subst hx
          exact Or.inr ⟨rfl, Function.update_self ..⟩
        · exact Or.inl (Function.update_of_ne (Ne.symm hx) _ _)
    rw [List.foldl_cons]
    obtain hrest | ⟨q, hq, rfl, hrest⟩ := ih hnodup.2 (S.bind p.1 p.2 s)
    · rw [hrest]
      exact hstep.imp_right fun h => ⟨p, List.mem_cons_self .., h⟩
    · obtain h | ⟨hp, -⟩ := hstep
      · rw [h] at hrest
        exact Or.inr ⟨q, List.mem_cons_of_mem _ hq, rfl, hrest⟩
      · exact absurd (hp ▸ List.mem_map_of_mem hq) hnodup.1

theorem bindComponents_eq (bindings : List X) (ajtypes : List (List Ty)) (s : List X × (X → J)) :
    S.bindComponents bindings ajtypes s =
      (bindings.zip ajtypes).foldl (fun s p => S.bind p.1 p.2 s) s := by
  induction bindings generalizing ajtypes s with
  | nil => cases ajtypes <;> rfl
  | cons b bindings ih =>
    cases ajtypes with
    | nil => rfl
    | cons atypes ajtypes => exact ih ajtypes _

theorem bindArguments_eq (boundVars : List X) (bindings : List X) (args : List (LExpr X K))
    (s : List X × (X → J)) :
    ∃ L : List (X × List Ty), S.bindArguments boundVars bindings args s =
        L.foldl (fun s p => S.bind p.1 p.2 s) s ∧ (L.map (·.1)).Sublist bindings ∧
      ∀ p ∈ L, ∃ r ∈ S.argumentReadings boundVars bindings args s,
        p.2 = S.plus boundVars r.1 r.2 ∧ (p.1, r.2) ∈ bindings.zip args := by
  induction bindings generalizing args s with
  | nil =>
    refine ⟨[], ?_, List.nil_sublist _, by simp⟩
    rw [JudgementSyntax.bindArguments]
    · rfl
    · simp
  | cons b bindings ih =>
    cases args with
    | nil =>
      refine ⟨[], ?_, List.nil_sublist _, by simp⟩
      rw [JudgementSyntax.bindArguments]
      · rfl
      · simp
    | cons arg args =>
      obtain ⟨L, hL, hsub, hmem⟩ := ih args (S.bind b (S.plus boundVars s.2 arg) s)
      refine ⟨(b, S.plus boundVars s.2 arg) :: L, ?_, hsub.cons_cons b, ?_⟩
      · rw [JudgementSyntax.bindArguments, hL, List.foldl_cons]
      · rw [List.forall_mem_cons, JudgementSyntax.argumentReadings, List.zip_cons_cons]
        refine ⟨⟨_, List.mem_cons_self .., rfl, List.mem_cons_self ..⟩, fun p hp => ?_⟩
        obtain ⟨r, hr, htypes, hzip⟩ := hmem p hp
        exact ⟨r, List.mem_cons_of_mem _ hr, htypes, List.mem_cons_of_mem _ hzip⟩

variable {M}

theorem plus_valid {boundVars : List X} {A : X → J} {e : LExpr X K} {ρ : X → V} (hρ : M.Env ρ)
    (hA : ∀ x, M.memAll (A x) ρ (ρ x))
    (he : M.memAll (S.types boundVars A e) ρ (M.eval e ρ)) :
    ∀ ty ∈ S.plus boundVars A e, M.mem ty ρ (M.eval e ρ) := by
  cases e with
  | var x =>
    rw [JudgementSyntax.plus_var]
    exact M.typesPlus_valid (e := .var x) hρ (M.removeTypes_valid (hA x))
  | tuple exprs =>
    rw [JudgementSyntax.plus]
    exact M.typesPlus_valid hρ (M.memAll_nil _ _)
  | node k args =>
    rw [JudgementSyntax.plus_of_not_var (by rintro ⟨x, hx⟩; cases hx) (fun _ h => by cases h)]
    exact M.typesPlus_valid hρ he
  | letApp bindings body arg =>
    rw [JudgementSyntax.plus_of_not_var (by rintro ⟨x, hx⟩; cases hx) (fun _ h => by cases h)]
    exact M.typesPlus_valid hρ he

/-- The types of the variables are those of their values. -/
theorem assume_valid {boundVars : List X} {A : X → J} {bindings : List X} {arg : LExpr X K}
    {ρ : X → V} (hnodup : bindings.Nodup)
    (hsame : ∀ p ∈ S.readings boundVars A bindings arg,
      S.plus boundVars p.1 p.2 = S.plus boundVars A p.2)
    (hindependent : bindings.length ≠ (arg.arguments bindings).length →
      ∀ ty ∈ S.plus boundVars A arg, M.Independent ty)
    (hplus : ∀ p ∈ S.readings boundVars A bindings arg, ∀ ty ∈ S.plus boundVars A p.2,
      M.mem ty ρ (M.eval p.2 ρ)) :
    ∃ L : List (X × List Ty), S.assume boundVars A bindings arg =
        L.foldl (fun s p => S.bind p.1 p.2 s) ([], A) ∧ (L.map (·.1)).Sublist bindings ∧
      ∀ p ∈ L, ∀ ty ∈ p.2,
        M.mem ty ρ (bindValues bindings (M.letValues bindings (M.eval arg ρ)) ρ p.1) ∧
        ∃ r ∈ S.readings boundVars A bindings arg, ∀ x ∈ M.tyFreevars ty,
          ∃ ty' ∈ S.plus boundVars A r.2, x ∈ M.tyFreevars ty' := by
  rw [JudgementSyntax.assume]
  rw [JudgementSyntax.readings] at hsame hplus ⊢
  by_cases hlength : bindings.length = (arg.arguments bindings).length
  · simp only [if_pos hlength] at hsame hplus ⊢
    obtain ⟨L, hL, hsub, hmem⟩ :=
      bindArguments_eq (S := S) boundVars bindings (arg.arguments bindings) ([], A)
    refine ⟨L, hL, hsub, fun p hp ty hty => ?_⟩
    obtain ⟨r, hr, htypes, hzip⟩ := hmem p hp
    rw [htypes, hsame r hr] at hty
    refine ⟨?_, r, hr, fun x hx => ⟨ty, hty, hx⟩⟩
    have hvalue : (p.1, M.eval r.2 ρ) ∈
        bindings.zip (M.letValues bindings (M.eval arg ρ)) := by
      rw [M.letValues_eq hlength ρ, List.zip_map_right]
      exact List.mem_map.2 ⟨(p.1, r.2), hzip, rfl⟩
    rw [bindValues_of_mem_zip hnodup hvalue]
    exact hplus r hr ty hty
  · simp only [if_neg hlength, List.forall_mem_singleton] at hsame hplus ⊢
    refine ⟨bindings.zip (S.componentTypes (S.plus boundVars A arg)), bindComponents_eq .., ?_, ?_⟩
    · exact map_fst_zip_sublist _ _
    · intro p hp ty hty
      have hcomponent := (List.of_mem_zip hp).2
      refine ⟨?_, _, List.mem_singleton_self _, fun x hx =>
        M.freevars_componentTypes (hindependent hlength) p.2 hcomponent ty hty x hx⟩
      have hvalues : M.letValues bindings (M.eval arg ρ) = M.untuple (M.eval arg ρ) := by
        refine if_neg fun htail => hlength ?_
        cases bindings with
        | nil => simp at hp
        | cons b bindings =>
          obtain rfl : bindings = [] := List.isEmpty_iff.1 htail
          rfl
      obtain ⟨i, hi⟩ := List.mem_iff_getElem?.1 hp
      obtain ⟨hb, htys⟩ := List.getElem?_zip_eq_some.1 hi
      obtain ⟨w, hw, hmem⟩ := M.componentTypes_valid (hindependent hlength) hplus i p.2 htys
      have hvalue : (p.1, w) ∈ bindings.zip (M.letValues bindings (M.eval arg ρ)) := by
        rw [hvalues]
        exact List.mem_of_getElem? (List.getElem?_zip_eq_some.2 ⟨hb, hw⟩)
      rw [bindValues_of_mem_zip hnodup hvalue]
      exact hmem ty hty

theorem typesList_valid {boundVars : List X} {A : X → J} {args : List (LExpr X K)} {ρ : X → V}
    (h : ∀ a ∈ args, M.memAll (S.types boundVars A a) ρ (M.eval a ρ)) :
    List.Forall₂ (fun a j => M.memAll j ρ (M.eval a ρ)) args (S.typesList boundVars A args) := by
  induction args with
  | nil =>
    rw [JudgementSyntax.typesList]
    exact .nil
  | cons a args ih =>
    rw [JudgementSyntax.typesList]
    rw [List.forall_mem_cons] at h
    exact .cons h.1 (ih h.2)

theorem plusList_valid {boundVars : List X} {A : X → J} {args : List (LExpr X K)} {ρ : X → V}
    (h : ∀ a ∈ args, ∀ ty ∈ S.plus boundVars A a, M.mem ty ρ (M.eval a ρ)) :
    List.Forall₂ (fun a l => ∀ ty ∈ l, M.mem ty ρ (M.eval a ρ)) args
      (S.plusList boundVars A args) := by
  induction args with
  | nil =>
    rw [JudgementSyntax.plusList]
    exact .nil
  | cons a args ih =>
    rw [JudgementSyntax.plusList]
    rw [List.forall_mem_cons] at h
    exact .cons h.1 (ih h.2)

/-- The value of an expression is in its judgement types. -/
theorem Scoped.valid {boundVars : List X} {A : X → J} {e : LExpr X K}
    (h : M.Scoped boundVars A e) : ∀ ρ, M.Env ρ → (∀ x, M.memAll (A x) ρ (ρ x)) →
      M.memAll (S.types boundVars A e) ρ (M.eval e ρ) := by
  induction h with
  | var boundVars A x =>
    intro ρ hρ hA
    rw [JudgementSyntax.types]
    split
    · exact hA x
    · exact M.memAll_nil _ _
  | node boundVars A k args hargs ih =>
    intro ρ hρ hA
    rw [JudgementSyntax.types]
    refine M.exprJudgementTypes_valid hρ ?_
    split
    · exact M.againTypes_valid hρ (plusList_valid fun a ha => plus_valid hρ hA (ih a ha ρ hρ hA))
    · exact M.nodeTypes_valid hρ (typesList_valid fun a ha => ih a ha ρ hρ hA)
  | tuple boundVars A exprs hexprs ih =>
    intro ρ hρ hA
    rw [JudgementSyntax.types]
    exact M.exprJudgementTypes_valid hρ
      (M.tupleTypes_valid hρ (typesList_valid fun a ha => ih a ha ρ hρ hA))
  | letApp boundVars A bindings body arg hnodup hargs hsame hfree hindependent hnew houter htyped
      hbody hpassed ih ihbody =>
    intro ρ hρ hA
    obtain ⟨hbindings, hdisjoint⟩ : bindings.Nodup ∧ ∀ b ∈ bindings, b ∉ body.passed :=
      ⟨(List.nodup_append.1 hnodup).1, fun b hb hp => (List.nodup_append.1 hnodup).2.2 b hb b hp rfl⟩
    have hplus : ∀ p ∈ S.readings boundVars A bindings arg, ∀ ty ∈ S.plus boundVars A p.2,
        M.mem ty ρ (M.eval p.2 ρ) := fun p hp => plus_valid hρ hA (ih p hp ρ hρ hA)
    obtain ⟨L, hL, hsub, hmem⟩ := assume_valid hbindings hsame hindependent hplus
    -- the values under which the innermost body is looked at
    let ρ₁ := bindValues bindings (M.letValues bindings (M.eval arg ρ)) ρ
    let ρ₂ := M.passedEnv body ρ₁
    have hagree : ∀ x, x ∉ bindings ++ body.passed → ρ x = ρ₂ x := by
      intro x hx
      rw [List.mem_append, not_or] at hx
      exact ((M.passedEnv_of_not_mem hx.2 ρ₁).trans (bindValues_of_not_mem hx.1 _ ρ)).symm
    have hA₂ : ∀ x, M.memAll ((S.assume boundVars A bindings arg).2 x) ρ₂ (ρ₂ x) := by
      intro x
      have hold : M.memAll (A x) ρ₂ (ρ₂ x) := by
        by_cases hx : x ∈ bindings ++ body.passed
        · rw [hnew x hx]
          exact M.memAll_nil _ _
        · rw [← hagree x hx]
          exact M.memAll_congr (fun y hy => hagree y fun hb => houter x y hb hy) (hA x)
      rw [hL]
      obtain h | ⟨p, hp, rfl, h⟩ := foldl_bind_apply (S := S) (hbindings.sublist hsub) ([], A) x
      · rw [h]
        exact hold
      · rw [h]
        refine M.appendTypes_valid (fun ty hty => ?_) hold
        obtain ⟨hty, r, hr, hfreevars⟩ := hmem p hp ty (List.mem_filter.1 hty).1
        have hb : p.1 ∈ bindings := hsub.subset (List.mem_map_of_mem hp)
        have hvalue : ρ₂ p.1 = ρ₁ p.1 := M.passedEnv_of_not_mem (hdisjoint p.1 hb) ρ₁
        rw [hvalue]
        refine M.mem_congr (fun y hy => hagree y fun hb => ?_) hty
        obtain ⟨ty', hty', hy⟩ := hfreevars y hy
        exact hfree r hr ty' hty' y hb hy
    have hvalue : M.eval body.operatorExpression ρ₂ = M.eval (.letApp bindings body arg) ρ := by
      rw [M.eval_operatorExpression, ExprValues.eval]
    have htypes := ihbody ρ₂ (htyped ρ hρ) hA₂
    rw [hvalue] at htypes
    have houtside : M.memAll (S.types ((S.assume boundVars A bindings arg).1 ++ boundVars)
        (S.assume boundVars A bindings arg).2 body.operatorExpression) ρ₁
          (M.eval (.letApp bindings body arg) ρ) :=
      M.memAll_congr (fun y hy => M.passedEnv_of_not_mem (fun hb => hpassed y hb hy) ρ₁) htypes
    rw [JudgementSyntax.types_letApp]
    refine M.exprJudgementTypes_valid hρ ?_
    rw [JudgementSyntax.letTypes]
    split
    · exact M.memAll_nil _ _
    · exact M.removeTypes_valid (M.substJudgementTypes_valid houtside)

end JudgementSemantics

end PVS.Judgements
