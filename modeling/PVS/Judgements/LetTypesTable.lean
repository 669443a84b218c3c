import Mathlib
import PVS.Judgements.LetTypes

/-! What the table of judgement types may hold. -/

namespace PVS.Judgements

namespace JudgementSyntax

variable {X K Ty J : Type} (S : JudgementSyntax X K Ty J)

section Types

variable [DecidableEq X]

/-- The types of a variable with those that its argument adds. -/
def bind (b : X) (atypes : List Ty) (s : List X × (X → J)) : List X × (X → J) :=
  let ntypes := S.newTypes b atypes
  if ntypes.isEmpty then s
  else (s.1 ++ [b], Function.update s.2 b (S.appendTypes ntypes (s.2 b)))

def bindComponents : List X → List (List Ty) → List X × (X → J) → List X × (X → J)
  | b :: bindings, atypes :: ajtypes, s => bindComponents bindings ajtypes (S.bind b atypes s)
  | _, _, s => s

mutual

/-- The judgement types without a table, where `A` are those of the variables. -/
def types (boundVars : List X) (A : X → J) : LExpr X K → J
  | .var x => if x ∈ boundVars then A x else S.nil
  | .node k args =>
    let js := typesList boundVars A args
    S.exprJudgementTypes (.node k args)
      (if S.again (.node k args) js then
        S.againTypes (.node k args) (plusList boundVars A args)
      else S.nodeTypes (.node k args) js)
  | .tuple exprs =>
    S.exprJudgementTypes (.tuple exprs) (S.tupleTypes (.tuple exprs) (typesList boundVars A exprs))
  | .letApp bindings body arg =>
    let s :=
      if bindings.length = (arg.arguments bindings).length then
        bindArguments boundVars bindings (arg.arguments bindings) ([], A)
      else S.bindComponents bindings (S.componentTypes (plus boundVars A arg)) ([], A)
    S.exprJudgementTypes (.letApp bindings body arg)
      (S.letTypes (.letApp bindings body arg) bindings arg
        (types (s.1 ++ boundVars) s.2 body.operatorExpression))
termination_by e => 2 * sizeOf e
decreasing_by
  · rw [LExpr.node.sizeOf_spec]; omega
  · rw [LExpr.node.sizeOf_spec]; omega
  · rw [LExpr.tuple.sizeOf_spec]; omega
  · have h := LExpr.sizeOf_arguments_lt bindings body arg
    omega
  · rw [LExpr.letApp.sizeOf_spec]; omega
  · have h := LExpr.sizeOf_operatorExpression_le body
    rw [LExpr.letApp.sizeOf_spec]; omega

def typesList (boundVars : List X) (A : X → J) : List (LExpr X K) → List J
  | [] => []
  | e :: es => types boundVars A e :: typesList boundVars A es
termination_by es => 2 * sizeOf es

def plus (boundVars : List X) (A : X → J) (e : LExpr X K) : List Ty :=
  match e with
  | .tuple exprs => S.typesPlus (.tuple exprs) S.nil
  | .var x => S.typesPlus (.var x) (S.removeTypes (.var x) (A x))
  | e => S.typesPlus e (types boundVars A e)
termination_by 2 * sizeOf e + 1

def plusList (boundVars : List X) (A : X → J) : List (LExpr X K) → List (List Ty)
  | [] => []
  | e :: es => plus boundVars A e :: plusList boundVars A es
termination_by es => 2 * sizeOf es

def bindArguments (boundVars : List X) : List X → List (LExpr X K) → List X × (X → J) →
    List X × (X → J)
  | b :: bindings, arg :: args, s =>
    bindArguments boundVars bindings args (S.bind b (plus boundVars s.2 arg) s)
  | _, _, s => s
termination_by _ args => 2 * sizeOf args

end

/-- The types under which each argument is looked at. -/
def argumentReadings (boundVars : List X) : List X → List (LExpr X K) → List X × (X → J) →
    List ((X → J) × LExpr X K)
  | b :: bindings, arg :: args, s =>
    (s.2, arg) ::
      argumentReadings boundVars bindings args (S.bind b (S.plus boundVars s.2 arg) s)
  | _, _, _ => []

def readings (boundVars : List X) (A : X → J) (bindings : List X) (arg : LExpr X K) :
    List ((X → J) × LExpr X K) :=
  if bindings.length = (arg.arguments bindings).length then
    S.argumentReadings boundVars bindings (arg.arguments bindings) ([], A)
  else [(A, arg)]

/-- The variables that get types from the argument, and the types of the variables. -/
def assume (boundVars : List X) (A : X → J) (bindings : List X) (arg : LExpr X K) :
    List X × (X → J) :=
  if bindings.length = (arg.arguments bindings).length then
    S.bindArguments boundVars bindings (arg.arguments bindings) ([], A)
  else S.bindComponents bindings (S.componentTypes (S.plus boundVars A arg)) ([], A)

theorem types_letApp (boundVars : List X) (A : X → J) (bindings : List X) (body arg : LExpr X K) :
    S.types boundVars A (.letApp bindings body arg) =
      S.exprJudgementTypes (.letApp bindings body arg)
        (S.letTypes (.letApp bindings body arg) bindings arg
          (S.types ((S.assume boundVars A bindings arg).1 ++ boundVars)
            (S.assume boundVars A bindings arg).2 body.operatorExpression)) := by
  rw [types]
  rfl

/-- An answer that is read from the table is the one that was put there. -/
def Read (boundVars : List X) (A : X → J) : LExpr X K → Prop
  | .var _ | .tuple _ => True
  | e => S.removeTypes e (S.types boundVars A e) = S.types boundVars A e

/-- What the arguments say about the variables of lambda expressions changes the types of the
variables only; `P` is known of the expressions. -/
inductive Unchanged (P : LExpr X K → Prop) : List X → (X → J) → LExpr X K → Prop
  | var (boundVars : List X) (A : X → J) (x : X) : Unchanged P boundVars A (.var x)
  | node (boundVars : List X) (A : X → J) (k : K) (args : List (LExpr X K))
      (hargs : ∀ a ∈ args, Unchanged P boundVars A a)
      (hread : S.again (.node k args) (S.typesList boundVars A args) = true →
        ∀ a ∈ args, S.Read boundVars A a)
      (hP : P (.node k args))
      (hsame : S.types boundVars A (.node k args) = S.types [] (fun _ => S.nil) (.node k args)) :
      Unchanged P boundVars A (.node k args)
  | tuple (boundVars : List X) (A : X → J) (exprs : List (LExpr X K))
      (hexprs : ∀ a ∈ exprs, Unchanged P boundVars A a)
      (hP : P (.tuple exprs))
      (hsame : S.types boundVars A (.tuple exprs) = S.types [] (fun _ => S.nil) (.tuple exprs)) :
      Unchanged P boundVars A (.tuple exprs)
  | letApp (boundVars : List X) (A : X → J) (bindings : List X) (body arg : LExpr X K)
      (hnodup : bindings.Nodup)
      (hargs : ∀ p ∈ S.readings boundVars A bindings arg, Unchanged P boundVars p.1 p.2)
      (hread : ∀ p ∈ S.readings boundVars A bindings arg, S.Read boundVars p.1 p.2)
      (hbody : Unchanged P ((S.assume boundVars A bindings arg).1 ++ boundVars)
        (S.assume boundVars A bindings arg).2 body.operatorExpression)
      (hP : P (.letApp bindings body arg))
      (hsame : S.types boundVars A (.letApp bindings body arg) =
        S.types [] (fun _ => S.nil) (.letApp bindings body arg)) :
      Unchanged P boundVars A (.letApp bindings body arg)

end Types

section Table

variable [DecidableEq X]

/-- The entries are the types of their keys, the entries of the variables are `A`. -/
structure Holds (P : LExpr X K → Prop) (boundVars : List X) (A : X → J)
    (t : JudgementTable X K J) : Prop where
  var : ∀ x, (t (.var x)).getD S.nil = A x
  bound : ∀ x ∈ boundVars, t (.var x) ≠ none
  entry : ∀ e j, ¬ e.IsVar → t e = some j → j = S.types [] (fun _ => S.nil) e ∧ P e

variable {S}

variable {P : LExpr X K → Prop} {boundVars vars : List X} {A : X → J} {t t' : JudgementTable X K J}

theorem Holds.mono (h : S.Holds P boundVars A t) (hsub : vars ⊆ boundVars) :
    S.Holds P vars A t :=
  ⟨h.var, fun x hx => h.bound x (hsub hx), h.entry⟩

variable [DecidableEq (LExpr X K)]

theorem Holds.update (h : S.Holds P boundVars A t) {e : LExpr X K} (he : ¬ e.IsVar) {j : J}
    (hj : j = S.types [] (fun _ => S.nil) e) (hP : P e) :
    S.Holds P boundVars A (Function.update t e (some j)) := by
  have hvar : ∀ x, Function.update t e (some j) (.var x) = t (.var x) := fun x =>
    Function.update_of_ne (fun hx => he ⟨x, hx.symm⟩) _ _
  refine ⟨fun x => by rw [hvar, h.var], fun x hx => by rw [hvar]; exact h.bound x hx, ?_⟩
  intro e' j' he' hj'
  by_cases hee : e' = e
  · subst hee
    rw [Function.update_self, Option.some_inj] at hj'
    exact ⟨hj' ▸ hj, hP⟩
  · rw [Function.update_of_ne hee] at hj'
    exact h.entry e' j' he' hj'

theorem Holds.updateVar (h : S.Holds P boundVars A t) (x : X) (j : J) :
    S.Holds P (x :: boundVars) (Function.update A x j)
      (Function.update t (.var x) (some j)) := by
  have hvar : ∀ y, y ≠ x → Function.update t (.var x) (some j) (.var y) = t (.var y) := by
    intro y hy
    refine Function.update_of_ne (fun h => hy ?_) _ _
    injection h
  refine ⟨fun y => ?_, fun y hy => ?_, fun e j' he hj' => ?_⟩
  · by_cases hy : y = x
    · subst hy
      rw [Function.update_self, Function.update_self, Option.getD_some]
    · rw [hvar y hy, Function.update_of_ne hy, h.var]
  · by_cases hyx : y = x
    · subst hyx
      rw [Function.update_self]
      exact Option.some_ne_none j
    · rw [hvar y hyx]
      exact h.bound y ((List.mem_cons.1 hy).resolve_left hyx)
  · rw [Function.update_of_ne fun h => he ⟨x, h⟩] at hj'
    exact h.entry e j' he hj'

/-- The method around the others returns the types and keeps the table. -/
theorem Holds.around (h : S.Holds P vars A t) {e : LExpr X K} (he : ¬ e.IsVar) (hP : P e)
    (hsame : S.types boundVars A e = S.types [] (fun _ => S.nil) e)
    {next : J × JudgementTable X K J} (hnext : S.Holds P vars A next.2)
    (htypes : S.types boundVars A e = S.exprJudgementTypes e next.1) :
    (S.around e t next).1 = S.types boundVars A e ∧
      S.Holds P vars A (S.around e t next).2 := by
  rw [JudgementSyntax.around]
  cases hentry : t e with
  | some j => exact ⟨((h.entry e j he hentry).1.trans hsame.symm), h⟩
  | none =>
    refine ⟨htypes.symm, ?_⟩
    dsimp only
    split
    · exact hnext
    · exact hnext.update he (htypes.symm.trans hsame) hP

variable (S) in
/-- The answer is that without a table, and the table stays as it has to be. -/
def Answers (P : LExpr X K → Prop) (boundVars vars : List X) (A : X → J) (e : LExpr X K) : Prop :=
  ∀ t, S.Holds P vars A t → (S.judgementTypes boundVars e t).1 = S.types boundVars A e ∧
    S.Holds P vars A (S.judgementTypes boundVars e t).2

variable (S) in
/-- The same for `judgement-types+` -/
def AnswersPlus (P : LExpr X K → Prop) (boundVars vars : List X) (A : X → J) (e : LExpr X K) :
    Prop :=
  ∀ t, S.Holds P vars A t → (S.judgementTypesPlus boundVars e t).1 = S.plus boundVars A e ∧
    S.Holds P vars A (S.judgementTypesPlus boundVars e t).2

theorem judgementTypesList_spec {args : List (LExpr X K)}
    (ih : ∀ a ∈ args, S.Answers P boundVars vars A a)
    (h : S.Holds P vars A t) :
    (S.judgementTypesList boundVars args t).1 = S.typesList boundVars A args ∧
      S.Holds P vars A (S.judgementTypesList boundVars args t).2 := by
  induction args generalizing t with
  | nil =>
    rw [judgementTypesList, typesList]
    exact ⟨rfl, h⟩
  | cons a args iha =>
    rw [List.forall_mem_cons] at ih
    obtain ⟨hj, ht⟩ := ih.1 t h
    obtain ⟨hjs, ht⟩ := iha ih.2 ht
    rw [judgementTypesList, typesList]
    exact ⟨congrArg₂ List.cons hj hjs, ht⟩

theorem Holds.updateNil (h : S.Holds P vars A t) {x : X} (hx : A x = S.nil) :
    S.Holds P vars A (Function.update t (.var x) (some S.nil)) := by
  have hA : Function.update A x S.nil = A := Function.update_eq_self_iff.2 hx.symm
  have hupdate := h.updateVar x S.nil
  rw [hA] at hupdate
  exact hupdate.mono (List.subset_cons_self x vars)

omit [DecidableEq (LExpr X K)] in
theorem plus_var (x : X) :
    S.plus boundVars A (.var x) = S.typesPlus (.var x) (S.removeTypes (.var x) (A x)) := by
  rw [plus]

omit [DecidableEq (LExpr X K)] in
theorem plus_of_not_var {e : LExpr X K} (hvar : ¬ e.IsVar) (htuple : ∀ exprs, e ≠ .tuple exprs) :
    S.plus boundVars A e = S.typesPlus e (S.types boundVars A e) := by
  rw [plus]
  · exact htuple
  · exact fun x hx => hvar ⟨x, hx⟩

/-- What `judgement-types+` returns for a variable is found by its entry. -/
theorem answersPlus_var (hsub : boundVars ⊆ vars) (x : X) :
    S.AnswersPlus P boundVars vars A (.var x) := by
  intro t h
  have hvar := h.var x
  rw [plus_var, judgementTypesPlus]
  · cases hentry : t (.var x) with
    | some j =>
      rw [hentry, Option.getD_some] at hvar
      exact ⟨by rw [hvar], h⟩
    | none =>
      rw [hentry, Option.getD_none] at hvar
      have hbound : x ∉ boundVars := fun hx => h.bound x (hsub hx) hentry
      rw [judgementTypes, if_neg hbound]
      refine ⟨?_, h.updateNil hvar.symm⟩
      rw [← hvar, S.removeTypes_nil]
  · intro exprs h
    cases h

theorem Answers.plus_of_not_var {e : LExpr X K} (h : S.Answers P boundVars vars A e)
    (hvar : ¬ e.IsVar) (htuple : ∀ exprs, e ≠ .tuple exprs)
    (hread : S.removeTypes e (S.types boundVars A e) = S.types boundVars A e)
    (hsame : S.types boundVars A e = S.types [] (fun _ => S.nil) e) (hP : P e) :
    S.AnswersPlus P boundVars vars A e := by
  intro t ht
  rw [JudgementSyntax.plus_of_not_var hvar htuple, judgementTypesPlus]
  · cases hentry : t e with
    | some j =>
      obtain rfl := (ht.entry e j hvar hentry).1
      rw [hsame]
      exact ⟨congrArg (S.typesPlus e) (hsame ▸ hread), ht⟩
    | none =>
      obtain ⟨hj, ht⟩ := h t ht
      exact ⟨congrArg (S.typesPlus e) hj, ht.update hvar (hj.trans hsame) hP⟩
  · exact htuple

/-- What `judgement-types+` returns. -/
theorem Answers.plus {e : LExpr X K} (h : S.Answers P boundVars vars A e)
    (hsub : boundVars ⊆ vars) (hread : S.Read boundVars A e)
    (hsame : ¬ e.IsVar → S.types boundVars A e = S.types [] (fun _ => S.nil) e ∧ P e) :
    S.AnswersPlus P boundVars vars A e := by
  cases e with
  | var x => exact answersPlus_var hsub x
  | tuple exprs =>
    intro t ht
    rw [judgementTypesPlus, JudgementSyntax.plus]
    exact ⟨rfl, ht⟩
  | node k args =>
    have hvar : ¬ (LExpr.node (X := X) k args).IsVar := by
      rintro ⟨x, hx⟩
      cases hx
    exact h.plus_of_not_var hvar (fun _ h => by cases h) hread (hsame hvar).1 (hsame hvar).2
  | letApp bindings body arg =>
    have hvar : ¬ (LExpr.letApp bindings body arg).IsVar := by
      rintro ⟨x, hx⟩
      cases hx
    exact h.plus_of_not_var hvar (fun _ h => by cases h) hread (hsame hvar).1 (hsame hvar).2

theorem judgementTypesPlusList_spec {args : List (LExpr X K)}
    (ih : ∀ a ∈ args, S.AnswersPlus P boundVars vars A a)
    (h : S.Holds P vars A t) :
    (S.judgementTypesPlusList boundVars args t).1 = S.plusList boundVars A args ∧
      S.Holds P vars A (S.judgementTypesPlusList boundVars args t).2 := by
  induction args generalizing t with
  | nil =>
    rw [judgementTypesPlusList, plusList]
    exact ⟨rfl, h⟩
  | cons a args iha =>
    rw [List.forall_mem_cons] at ih
    obtain ⟨hl, ht⟩ := ih.1 t h
    obtain ⟨hls, ht⟩ := iha ih.2 ht
    rw [judgementTypesPlusList, plusList]
    exact ⟨congrArg₂ List.cons hl hls, ht⟩

/-- What is known while the variables get their types: the entries that are put aside are those
before. -/
structure Binds (P : LExpr X K → Prop) (vars : List X) (A : X → J)
    (s : List (X × Option J) × JudgementTable X K J) (r : List X × (X → J)) : Prop where
  aside : s.1.map (·.1) = r.1
  holds : S.Holds P (r.1 ++ vars) r.2 s.2
  entry : ∀ p ∈ s.1, p.2.getD S.nil = A p.1
  other : ∀ x, x ∉ r.1 → r.2 x = A x
  nodup : r.1.Nodup

omit [DecidableEq (LExpr X K)] in
theorem nodup_bind {b : X} {bindings : List X} {r : List X × (X → J)}
    (h : (r.1 ++ b :: bindings).Nodup) (atypes : List Ty) :
    ((S.bind b atypes r).1 ++ bindings).Nodup := by
  rw [bind]
  split
  · exact h.sublist ((List.sublist_cons_self b bindings).append_left r.1)
  · rwa [List.append_assoc]

omit [DecidableEq X] [DecidableEq (LExpr X K)] in
theorem not_mem_of_nodup {vars bindings : List X} {b : X} (h : (vars ++ b :: bindings).Nodup) :
    b ∉ vars :=
  fun hb => (List.nodup_append.1 h).2.2 b hb b (List.mem_cons_self ..) rfl

theorem Binds.setBinding {s : List (X × Option J) × JudgementTable X K J} {r : List X × (X → J)}
    (h : Binds (S := S) P vars A s r) {b : X} (hb : b ∉ r.1) (atypes : List Ty) :
    Binds (S := S) P vars A (S.setBinding b atypes s) (S.bind b atypes r) := by
  rw [JudgementSyntax.setBinding, bind]
  split
  · exact h
  · have hentry : (s.2 (.var b)).getD S.nil = r.2 b := h.holds.var b
    refine ⟨?_, ?_, ?_, ?_, ?_⟩
    · rw [List.map_append, h.aside]
      rfl
    · dsimp only
      rw [hentry]
      refine (h.holds.updateVar b _).mono fun x hx => ?_
      simp only [List.append_assoc, List.mem_append, List.mem_cons, List.not_mem_nil,
        or_false] at hx ⊢
      tauto
    · intro p hp
      obtain hp | hp := List.mem_append.1 hp
      · exact h.entry p hp
      · obtain rfl := List.mem_singleton.1 hp
        exact hentry.trans (h.other b hb)
    · intro x hx
      rw [List.mem_append, not_or, List.mem_singleton] at hx
      exact (Function.update_of_ne hx.2 _ _).trans (h.other x hx.1)
    · exact List.nodup_append.2 ⟨h.nodup, by simp, fun x hx y hy hxy =>
        hb (List.mem_singleton.1 hy ▸ hxy ▸ hx)⟩

theorem Binds.setComponents {bindings : List X} {ajtypes : List (List Ty)}
    {s : List (X × Option J) × JudgementTable X K J} {r : List X × (X → J)}
    (h : Binds (S := S) P vars A s r) (hnodup : (r.1 ++ bindings).Nodup) :
    Binds (S := S) P vars A (S.setComponents bindings ajtypes s)
      (S.bindComponents bindings ajtypes r) := by
  induction bindings generalizing ajtypes s r with
  | nil => exact h
  | cons b bindings ih =>
    cases ajtypes with
    | nil => exact h
    | cons atypes ajtypes =>
      exact ih (h.setBinding (not_mem_of_nodup hnodup) atypes) (nodup_bind hnodup atypes)

/-- The variables get the types of their arguments. -/
theorem Binds.setArguments {bindings : List X} {args : List (LExpr X K)}
    {s : List (X × Option J) × JudgementTable X K J} {r : List X × (X → J)}
    (h : Binds (S := S) P vars A s r) (hnodup : (r.1 ++ bindings).Nodup)
    (hsub : boundVars ⊆ vars)
    (hplus : ∀ p ∈ S.argumentReadings boundVars bindings args r, ∀ vars, boundVars ⊆ vars →
      S.AnswersPlus P boundVars vars p.1 p.2) :
    Binds (S := S) P vars A (S.setArguments boundVars bindings args s)
      (S.bindArguments boundVars bindings args r) := by
  induction bindings generalizing args s r with
  | nil =>
    rw [JudgementSyntax.setArguments, bindArguments]
    · exact h
    · simp
    · simp
  | cons b bindings ih =>
    cases args with
    | nil =>
      rw [JudgementSyntax.setArguments, bindArguments]
      · exact h
      · simp
      · simp
    | cons arg args =>
      rw [argumentReadings, List.forall_mem_cons] at hplus
      obtain ⟨hatypes, ht⟩ := hplus.1 (r.1 ++ vars)
        (List.Subset.trans hsub (List.subset_append_right ..)) s.2 h.holds
      rw [JudgementSyntax.setArguments, bindArguments]
      have hs : Binds (S := S) P vars A (s.1, (S.judgementTypesPlus boundVars arg s.2).2) r :=
        ⟨h.aside, ht, h.entry, h.other, h.nodup⟩
      have hset : Binds (S := S) P vars A
          (S.setBinding b (S.judgementTypesPlus boundVars arg s.2).1
            (s.1, (S.judgementTypesPlus boundVars arg s.2).2))
          (S.bind b (S.plus boundVars r.2 arg) r) := by
        rw [show (S.judgementTypesPlus boundVars arg s.2).1 = _ from hatypes]
        exact hs.setBinding (not_mem_of_nodup hnodup) _
      exact ih hset (nodup_bind hnodup _) hplus.2

omit [DecidableEq X] in
theorem restore_spec {jbvars : List (X × Option J)} (hnodup : (jbvars.map (·.1)).Nodup)
    (t : JudgementTable X K J) :
    (∀ p ∈ jbvars, S.restore jbvars t (.var p.1) = some (p.2.getD S.nil)) ∧
      ∀ e, (∀ p ∈ jbvars, e ≠ .var p.1) → S.restore jbvars t e = t e := by
  induction jbvars generalizing t with
  | nil => exact ⟨by simp, fun _ _ => rfl⟩
  | cons p jbvars ih =>
    obtain ⟨x, entry⟩ := p
    rw [List.map_cons, List.nodup_cons] at hnodup
    obtain ⟨hentry, hother⟩ := ih hnodup.2 (Function.update t (.var x) (some (entry.getD S.nil)))
    rw [restore]
    refine ⟨?_, fun e he => ?_⟩
    · rw [List.forall_mem_cons]
      refine ⟨?_, hentry⟩
      rw [hother (.var x) fun q hq h => ?_, Function.update_self]
      injection h with h
      exact hnodup.1 (List.mem_map.2 ⟨q, hq, h.symm⟩)
    · rw [List.forall_mem_cons] at he
      rw [hother e he.2, Function.update_of_ne he.1]

/-- When the entries that were put aside are put back, the table is as it has to be. -/
theorem Binds.restore {s : List (X × Option J) × JudgementTable X K J} {r : List X × (X → J)}
    (h : Binds (S := S) P vars A s r) (ht : S.Holds P (r.1 ++ vars) r.2 t) :
    S.Holds P vars A (S.restore s.1 t) := by
  obtain ⟨hentry, hother⟩ := restore_spec (S := S) (h.aside ▸ h.nodup) t
  have hnot : ∀ {x}, x ∉ r.1 → ∀ p ∈ s.1, LExpr.var (K := K) x ≠ .var p.1 := by
    intro x hx p hp heq
    injection heq with heq
    exact hx (h.aside ▸ heq ▸ List.mem_map_of_mem hp)
  have hmem : ∀ {x}, x ∈ r.1 → ∃ p ∈ s.1, p.1 = x := fun hx =>
    List.mem_map.1 (h.aside ▸ hx)
  refine ⟨fun x => ?_, fun x hx => ?_, fun e j he hj => ?_⟩
  · by_cases hx : x ∈ r.1
    · obtain ⟨p, hp, rfl⟩ := hmem hx
      rw [hentry p hp, Option.getD_some, h.entry p hp]
    · rw [hother _ (hnot hx), ht.var, h.other x hx]
  · by_cases hxr : x ∈ r.1
    · obtain ⟨p, hp, rfl⟩ := hmem hxr
      rw [hentry p hp]
      exact Option.some_ne_none _
    · rw [hother _ (hnot hxr)]
      exact ht.bound x (List.mem_append_right _ hx)
  · rw [hother e fun p hp heq => he ⟨p.1, heq⟩] at hj
    exact ht.entry e j he hj

omit [DecidableEq (LExpr X K)] in
theorem Unchanged.same {e : LExpr X K} (h : S.Unchanged P boundVars A e) (he : ¬ e.IsVar) :
    S.types boundVars A e = S.types [] (fun _ => S.nil) e ∧ P e := by
  cases h with
  | var _ _ x => exact absurd ⟨x, rfl⟩ he
  | node _ _ k args hargs hread hP hsame => exact ⟨hsame, hP⟩
  | tuple _ _ exprs hexprs hP hsame => exact ⟨hsame, hP⟩
  | letApp _ _ bindings body arg hnodup hargs hread hbody hP hsame => exact ⟨hsame, hP⟩

/-- What is assumed of the bindings before the body is the values of the arguments. -/
theorem exists_assumed {bindings : List X} {arg : LExpr X K} {vars : List X}
    {t : JudgementTable X K J} (hnodup : bindings.Nodup) (hsub : boundVars ⊆ vars)
    (hplus : ∀ p ∈ S.readings boundVars A bindings arg, ∀ vars, boundVars ⊆ vars →
      S.AnswersPlus P boundVars vars p.1 p.2) (ht : S.Holds P vars A t) :
    ∃ s, Binds (S := S) P vars A s (S.assume boundVars A bindings arg) ∧
      (if bindings.length = (arg.arguments bindings).length then
        S.setArguments boundVars bindings (arg.arguments bindings) ([], t)
      else
        let (jtypes, t₁) := S.judgementTypesPlus boundVars arg t
        S.setComponents bindings (S.componentTypes jtypes) ([], t₁)) = s := by
  have hstart : Binds (S := S) P vars A ([], t) ([], A) :=
    ⟨rfl, ht, by simp, fun _ _ => rfl, List.nodup_nil⟩
  refine ⟨_, ?_, rfl⟩
  rw [readings] at hplus
  rw [assume]
  split
  next hlength =>
    rw [if_pos hlength] at hplus
    exact hstart.setArguments hnodup hsub hplus
  next hlength =>
    rw [if_neg hlength, List.forall_mem_singleton] at hplus
    obtain ⟨hjtypes, ht₁⟩ := hplus vars hsub t ht
    generalize S.judgementTypesPlus boundVars arg t = r at hjtypes ht₁
    obtain ⟨jtypes, t₁⟩ := r
    subst hjtypes
    have hstart : Binds (S := S) P vars A ([], t₁) ([], A) :=
      ⟨rfl, ht₁, by simp, fun _ _ => rfl, List.nodup_nil⟩
    exact hstart.setComponents hnodup

/-- An answer is what it is without a table. -/
theorem Unchanged.answers {e : LExpr X K} (h : S.Unchanged P boundVars A e) :
    ∀ vars, boundVars ⊆ vars → S.Answers P boundVars vars A e := by
  induction h with
  | var boundVars A x =>
    intro vars hsub t ht
    rw [JudgementSyntax.judgementTypes, types]
    split
    next hx =>
      obtain ⟨j, hj⟩ := Option.ne_none_iff_exists'.1 (ht.bound x (hsub hx))
      have hvar := ht.var x
      rw [hj, Option.getD_some] at hvar
      rw [JudgementSyntax.around, hj]
      exact ⟨hvar, ht⟩
    next => exact ⟨rfl, ht⟩
  | node boundVars A k args hargs hread hP hsame ih =>
    intro vars hsub t ht
    have he : ¬ (LExpr.node (X := X) k args).IsVar := by
      rintro ⟨x, hx⟩
      cases hx
    obtain ⟨hjs, ht₁⟩ := judgementTypesList_spec (fun a ha => ih a ha vars hsub) ht
    rw [JudgementSyntax.judgementTypes]
    generalize S.judgementTypesList boundVars args t = r at hjs ht₁
    obtain ⟨js, t₁⟩ := r
    subst hjs
    have hplus : S.again (.node k args) (S.typesList boundVars A args) = true →
        ∀ t, S.Holds P vars A t →
        (S.judgementTypesPlusList boundVars args t).1 = S.plusList boundVars A args ∧
          S.Holds P vars A (S.judgementTypesPlusList boundVars args t).2 :=
      fun hagain t ht => judgementTypesPlusList_spec (fun a ha =>
        (ih a ha vars hsub).plus hsub (hread hagain a ha) (hargs a ha).same) ht
    refine ht.around he hP hsame ?_ ?_
    · dsimp only
      split
      next hagain => exact (hplus hagain t₁ ht₁).2
      next => exact ht₁
    · rw [types]
      dsimp only
      congr 1
      split
      next hagain => exact congrArg (S.againTypes _) (hplus hagain t₁ ht₁).1.symm
      next => rfl
  | tuple boundVars A exprs hexprs hP hsame ih =>
    intro vars hsub t ht
    have he : ¬ (LExpr.tuple (X := X) exprs).IsVar := by
      rintro ⟨x, hx⟩
      cases hx
    obtain ⟨hjs, ht₁⟩ := judgementTypesList_spec (fun a ha => ih a ha vars hsub) ht
    rw [JudgementSyntax.judgementTypes]
    generalize S.judgementTypesList boundVars exprs t = r at hjs ht₁
    obtain ⟨js, t₁⟩ := r
    subst hjs
    refine ht.around he hP hsame ht₁ ?_
    rw [types]
  | letApp boundVars A bindings body arg hnodup hargs hread hbody hP hsame ih ihbody =>
    intro vars hsub t ht
    have he : ¬ (LExpr.letApp bindings body arg).IsVar := by
      rintro ⟨x, hx⟩
      cases hx
    have hplus : ∀ p ∈ S.readings boundVars A bindings arg, ∀ vars, boundVars ⊆ vars →
        S.AnswersPlus P boundVars vars p.1 p.2 := fun p hp vars hsub =>
      (ih p hp vars hsub).plus hsub (hread p hp) (hargs p hp).same
    obtain ⟨s, hs, hset⟩ := exists_assumed hnodup hsub hplus ht
    rw [JudgementSyntax.judgementTypes, hset]
    obtain ⟨jbvars, t₁⟩ := s
    have haside : jbvars.map (·.1) = (S.assume boundVars A bindings arg).1 := hs.aside
    obtain ⟨hbody, ht₂⟩ := ihbody _ (List.append_subset.2 ⟨List.subset_append_left ..,
      List.Subset.trans hsub (List.subset_append_right ..)⟩) t₁ hs.holds
    dsimp only
    rw [haside]
    refine ht.around he hP hsame (hs.restore ht₂) ?_
    rw [types_letApp, ← hbody]

variable (S) in
/-- The answers to a sequence of queries, and the table after them. -/
def run : List (LExpr X K) → JudgementTable X K J → List J × JudgementTable X K J
  | [], t => ([], t)
  | e :: es, t =>
    let (j, t₁) := S.judgementTypes [] e t
    let (js, t₂) := run es t₁
    (j :: js, t₂)

omit [DecidableEq (LExpr X K)] in
theorem holds_empty : S.Holds P [] (fun _ => S.nil) fun _ : LExpr X K => none :=
  ⟨fun _ => rfl, by simp, by simp⟩

/-- The answers are those of an empty table. -/
theorem run_spec {queries : List (LExpr X K)}
    (h : ∀ e ∈ queries, S.Unchanged P [] (fun _ => S.nil) e)
    (ht : S.Holds P [] (fun _ => S.nil) t) :
    (S.run queries t).1 = queries.map (fun e => (S.judgementTypes [] e fun _ => none).1) ∧
      S.Holds P [] (fun _ => S.nil) (S.run queries t).2 := by
  induction queries generalizing t with
  | nil => exact ⟨rfl, ht⟩
  | cons e queries ih =>
    rw [List.forall_mem_cons] at h
    obtain ⟨hj, ht₁⟩ := h.1.answers [] (List.Subset.refl _) t ht
    obtain ⟨hempty, -⟩ := h.1.answers [] (List.Subset.refl _) _ (holds_empty (P := P))
    obtain ⟨hjs, ht₂⟩ := ih h.2 ht₁
    exact ⟨congrArg₂ List.cons (hj.trans hempty.symm) hjs, ht₂⟩

end Table

end JudgementSyntax

end PVS.Judgements
