import Mathlib.Algebra.BigOperators.Ring.List
import Mathlib.Tactic.LinearCombination
import Mathlib.Tactic.Ring
import PVS.Assert.Sums

/-! The values of sums and products are kept. -/

namespace PVS.Assert

open NumExpr

variable {α : Type} {K : Type} [Field K] (C : Callees α) (ρ : α → K)

theorem NumExpr.eval_coefficient (e : NumExpr α) :
    e.coefficient * evalBody ρ e.noncoefficient = e.eval ρ := by
  fun_cases noncoefficient e with
  | case5 e h1 h2 h3 h4 =>
    have hone : e.coefficient = 1 := by
      fun_cases coefficient e
      · exact absurd rfl (h1 _ _)
      · exact absurd rfl (h2 _ _)
      · rfl
      · exact absurd rfl (h3 _)
      · exact absurd rfl (h4 _)
      · rfl
    simp [hone, evalBody]
  | _ => simp [coefficient, evalBody, eval]

theorem NumExpr.eval_mkMinus (e : NumExpr α) : (mkMinus e).eval ρ = -e.eval ρ := by
  fun_cases mkMinus e <;> simp [eval]

theorem evalSum_append (l l' : List (NumExpr α)) :
    evalSum ρ (l ++ l') = evalSum ρ l + evalSum ρ l' := by
  rw [evalSum, List.map_append, List.sum_append, evalSum, evalSum]

theorem evalProd_append (l l' : List (NumExpr α)) :
    evalProd ρ (l ++ l') = evalProd ρ l * evalProd ρ l' := by
  rw [evalProd, List.map_append, List.prod_append, evalProd, evalProd]

theorem eval_eq_zero {e : NumExpr α} (h : e.coefficient = 0) : e.eval ρ = 0 := by
  rw [← eval_coefficient, h, Rat.cast_zero, zero_mul]

theorem evalProd_multiplicands (e : NumExpr α) : evalProd ρ e.multiplicands = e.eval ρ := by
  induction e with
  | times a b iha ihb => rw [multiplicands, evalProd_append, iha, ihb, eval]
  | _ => simp [multiplicands, evalProd]

theorem evalSum_posNegAddends (e : NumExpr α) :
    evalSum ρ e.posNegAddends.1 - evalSum ρ e.posNegAddends.2 = e.eval ρ := by
  induction e with
  | plus a b iha ihb =>
    rw [posNegAddends, evalSum_append, evalSum_append, eval, ← iha, ← ihb]
    ring
  | difference a b iha ihb =>
    rw [posNegAddends, evalSum_append, evalSum_append, eval, ← iha, ← ihb]
    ring
  | _ => simp [posNegAddends, evalSum]

section

variable [CharZero K]

theorem NumExpr.eval_mkPlus (e e' : NumExpr α) : (mkPlus e e').eval ρ = e.eval ρ + e'.eval ρ := by
  fun_cases mkPlus e e' <;> simp [eval]

theorem NumExpr.eval_mkDifference (e e' : NumExpr α) :
    (mkDifference e e').eval ρ = e.eval ρ - e'.eval ρ := by
  fun_cases mkDifference e e' <;> simp [eval]

theorem NumExpr.eval_mkTimes (e e' : NumExpr α) : (mkTimes e e').eval ρ = e.eval ρ * e'.eval ρ := by
  fun_cases mkTimes e e' <;> simp [eval]

/-- The body of a product of two factors. -/
theorem evalBody_times (b b' : Option (NumExpr α)) :
    evalBody ρ (match b, b' with
      | none, b => b
      | some b, none => some b
      | some b, some b' => some (mkTimes b b')) = evalBody ρ b * evalBody ρ b' := by
  cases b with
  | none => simp [evalBody]
  | some b =>
    cases b' with
    | none => simp [evalBody]
    | some b' => simp [evalBody, eval_mkTimes]

theorem eval_scaled (q : ℚ) (b : Option (NumExpr α)) :
    (match b with
      | none => .number q
      | some b => if q = 1 then b else mkTimes (.number q) b : NumExpr α).eval ρ =
      q * evalBody ρ b := by
  cases b with
  | none => simp [evalBody, eval]
  | some b =>
    dsimp only
    split
    · rename_i h
      simp [evalBody, h]
    · simp [evalBody, eval_mkTimes, eval]

theorem eval_makeProdSorted (l : List (NumExpr α)) :
    (makeProdSorted l).eval ρ = evalProd ρ l := by
  fun_induction makeProdSorted l with
  | case1 => simp [evalProd, eval]
  | case2 e => simp [evalProd]
  | case3 a1 a2 list h =>
    have hzero : a1.eval ρ * a2.eval ρ = 0 := by
      obtain h | h := h
      · rw [eval_eq_zero ρ h, zero_mul]
      · rw [eval_eq_zero ρ h, mul_zero]
    simp [evalProd, eval, ← mul_assoc, hzero]
  | case4 a1 a2 list h prod coeff body e ih =>
    have he : e.eval ρ = a1.eval ρ * a2.eval ρ := by
      have hcoeff : coeff = .number prod := signed_number prod
      have he : e.eval ρ = prod * evalBody ρ body := by
        simp only [e, hcoeff]
        exact eval_scaled ρ prod body
      have hbody : evalBody ρ body = evalBody ρ a1.noncoefficient * evalBody ρ a2.noncoefficient :=
        evalBody_times ρ _ _
      rw [he, hbody, ← eval_coefficient ρ a1, ← eval_coefficient ρ a2, Rat.cast_mul]
      ring
    rw [ih]
    simp [evalProd, he, mul_assoc]

theorem eval_makeProd (l : List (NumExpr α)) : (makeProd C l).eval ρ = evalProd ρ l := by
  rw [makeProd, eval_makeProdSorted, evalProd, evalProd]
  exact ((C.sort_perm l).map _).prod_eq

theorem eval_makeMinus (e : NumExpr α) : (makeMinus C e).eval ρ = -e.eval ρ := by
  have hbody := eval_coefficient ρ e
  unfold makeMinus
  dsimp only
  rw [signed_number_neg]
  split
  · rename_i h
    rw [h] at hbody
    simpa [evalBody, eval] using hbody
  · rename_i body h
    rw [h] at hbody
    rw [eval_makeProd, ← hbody]
    simp [evalProd, evalBody, eval]

theorem evalSum_makeMinus (l : List (NumExpr α)) :
    evalSum ρ (l.map (makeMinus C)) = -evalSum ρ l := by
  induction l with
  | nil => simp [evalSum]
  | cons e l ih =>
    simp only [evalSum, List.map_cons, List.sum_cons] at ih ⊢
    rw [ih, eval_makeMinus, neg_add]

theorem evalSum_addends (e : NumExpr α) : evalSum ρ (addends C e) = e.eval ρ := by
  rw [addends, evalSum_append, evalSum_makeMinus, ← evalSum_posNegAddends ρ e, sub_eq_add_neg]

theorem eval_makeSumSorted (l : List (NumExpr α)) : (makeSumSorted C l).eval ρ = evalSum ρ l := by
  fun_induction makeSumSorted C l with
  | case1 => simp [evalSum, eval]
  | case2 e => simp [evalSum]
  | case3 a1 a2 list e1 ih =>
    have he : e1.eval ρ = a1.eval ρ + a2.eval ρ := by
      unfold e1
      split
      · rw [eval_mkDifference, eval_makeMinus, sub_neg_eq_add]
      · split
        · rw [eval_mkDifference, eval_makeMinus, sub_neg_eq_add, add_comm]
        · split
          · rename_i h
            rw [eval_eq_zero ρ h, add_zero]
          · split
            · rename_i h
              rw [eval_eq_zero ρ h, zero_add]
            · rw [eval_mkPlus]
    rw [ih]
    simp [evalSum, he, add_assoc]

theorem eval_makeSum (l : List (NumExpr α)) : (makeSum C l).eval ρ = evalSum ρ l := by
  unfold makeSum
  split
  · exact eval_makeSumSorted C ρ l
  · rw [eval_makeSumSorted, evalSum, evalSum]
    exact ((C.sort_perm l).map _).sum_eq

theorem Callees.evalBody_of_tcEqBody {b b' : Option (NumExpr α)} (h : C.tcEqBody b b' = true) :
    evalBody ρ b = evalBody ρ b' := by
  cases b with
  | none =>
    cases b' with
    | none => rfl
    | some b' => cases h
  | some b =>
    cases b' with
    | none => cases h
    | some b' => exact C.tcEq_sound h ρ

/-- The terms with the same body. -/
theorem evalSum_same (b : Option (NumExpr α)) (l : List (NumExpr α)) :
    ((l.map fun e => if C.tcEqBody b e.noncoefficient then e.coefficient else 0).sum : ℚ) *
      evalBody ρ b + evalSum ρ (l.filter fun e => !C.tcEqBody b e.noncoefficient) =
      evalSum ρ l := by
  induction l with
  | nil => simp [evalSum]
  | cons e l ih =>
    have hsplit : evalSum ρ (e :: l) = e.eval ρ + evalSum ρ l := by simp [evalSum]
    rw [hsplit, ← ih, ← eval_coefficient ρ e]
    by_cases h : C.tcEqBody b e.noncoefficient = true
    · have hbody : evalBody ρ b = evalBody ρ e.noncoefficient := C.evalBody_of_tcEqBody ρ h
      simp [h, hbody]
      ring
    · simp [h, evalSum, eval_coefficient]
      ring

theorem eval_newterm (q : ℚ) (b : Option (NumExpr α)) :
    (newterm C q b).eval ρ = q * evalBody ρ b := by
  unfold newterm
  dsimp only
  rw [signed_number]
  split
  · simp [evalBody, eval]
  · split
    · rename_i h
      simp [evalBody, h]
    · rw [eval_makeProd]
      simp [evalProd, evalBody, eval]

theorem evalSum_mergesumsList (list1 list2 : List (NumExpr α)) :
    evalSum ρ (mergesumsList C list1 list2) = evalSum ρ list1 + evalSum ρ list2 := by
  induction list1 generalizing list2 with
  | nil => simp [mergesumsList, evalSum]
  | cons l1 list1 ih =>
    cases list2 with
    | nil => simp [mergesumsList, evalSum]
    | cons l2 list2 =>
      rw [mergesumsList]
      dsimp only
      generalize hcoeff : l1.coefficient + _ = newcoeff
      generalize hnew : List.filter _ (l2 :: list2) = newlist2
      have hrest : evalSum ρ (if list1.isEmpty && newlist2.isEmpty then []
          else mergesumsList C list1 newlist2) = evalSum ρ list1 + evalSum ρ newlist2 := by
        split
        · rename_i h
          rw [Bool.and_eq_true, List.isEmpty_iff, List.isEmpty_iff] at h
          simp [h.1, h.2, evalSum]
        · exact ih newlist2
      have hsum : newcoeff * evalBody ρ l1.noncoefficient + evalSum ρ newlist2 =
          l1.eval ρ + evalSum ρ (l2 :: list2) := by
        rw [← hcoeff, ← hnew, ← evalSum_same C ρ l1.noncoefficient (l2 :: list2), Rat.cast_add,
          add_mul, eval_coefficient]
        ring
      have hcons : evalSum ρ (l1 :: list1) = l1.eval ρ + evalSum ρ list1 := by simp [evalSum]
      rw [hcons]
      split
      · rename_i h
        rw [h, Rat.cast_zero, zero_mul, zero_add] at hsum
        rw [hrest, hsum]
        ring
      · have hcons' : ∀ e l, evalSum ρ (e :: l) = e.eval ρ + evalSum ρ l := by simp [evalSum]
        rw [hcons', hrest, eval_newterm]
        linear_combination hsum

theorem eval_mergesums (list1 list2 : List (NumExpr α)) :
    (mergesums C list1 list2).eval ρ = evalSum ρ list1 + evalSum ρ list2 := by
  rw [mergesums, eval_makeSum, evalSum_mergesumsList]

theorem eval_getMergedSum (lhs rhs : NumExpr α) (addition : Bool) :
    (getMergedSum C lhs rhs addition).eval ρ =
      if addition then lhs.eval ρ + rhs.eval ρ else lhs.eval ρ - rhs.eval ρ := by
  cases addition with
  | true =>
    simp only [getMergedSum, if_true]
    split
    · rw [eval]
    · rw [eval_mergesums, evalSum_addends, evalSum_addends]
  | false =>
    simp only [getMergedSum, Bool.false_eq_true, if_false]
    split
    · rw [eval]
    · rw [eval_mergesums, evalSum_makeMinus, evalSum_addends, evalSum_addends, sub_eq_add_neg]

end

theorem evalSum_attach_mul (l : List (NumExpr α)) (f : NumExpr α → NumExpr α) (c : K)
    (h : ∀ x : { x // x ∈ l }, (f x.1).eval ρ = x.1.eval ρ * c) :
    evalSum ρ (l.attach.map fun x => f x.1) = evalSum ρ l * c := by
  rw [List.attach_map_val (f := f), evalSum, evalSum, List.map_map, ← List.sum_map_mul_right]
  congr 1
  exact List.map_congr_left fun x hx => h ⟨x, hx⟩

theorem evalProd_prodlist (b b' : Option (NumExpr α)) :
    evalProd ρ (match b, b' with
      | some lb, some rb => lb.multiplicands ++ rb.multiplicands
      | some lb, none => lb.multiplicands
      | none, some rb => rb.multiplicands
      | none, none => []) = evalBody ρ b * evalBody ρ b' := by
  cases b with
  | none =>
    cases b' with
    | none => simp [evalBody, evalProd]
    | some b' => simp [evalBody, evalProd_multiplicands]
  | some b =>
    cases b' with
    | none => simp [evalBody, evalProd_multiplicands]
    | some b' => simp [evalBody, evalProd_append, evalProd_multiplicands]

theorem eval_mergeProducts [CharZero K] (l r : NumExpr α) :
    (mergeProducts C l r).eval ρ = l.eval ρ * r.eval ρ := by
  have hvalue : ∀ l r : NumExpr α, l.eval ρ * r.eval ρ =
      (l.coefficient * r.coefficient : ℚ) *
        (evalBody ρ l.noncoefficient * evalBody ρ r.noncoefficient) := by
    intro l r
    rw [← eval_coefficient ρ l, ← eval_coefficient ρ r, Rat.cast_mul]
    ring
  fun_induction mergeProducts C l r with
  | case1 l r _ ih =>
    rw [eval_makeSum, ← evalSum_addends C ρ l]
    exact evalSum_attach_mul ρ _ (fun x => mergeProducts C x r) _ ih
  | case2 l r _ _ ih =>
    rw [eval_makeSum, ← evalSum_addends C ρ r, mul_comm]
    refine evalSum_attach_mul ρ _ (fun x => mergeProducts C l x) _ fun x => ?_
    rw [ih x, mul_comm]
  | case3 l r _ _ newcoeff h =>
    have hcoeff : l.coefficient * r.coefficient = 0 := h
    rw [hvalue, hcoeff, eval, Rat.cast_zero, zero_mul]
  | case4 l r _ _ newcoeff prodlist _ h =>
    have hcoeff : l.coefficient * r.coefficient = 1 := h
    have hprod := evalProd_prodlist ρ l.noncoefficient r.noncoefficient
    rw [eval_makeProd, hvalue, hcoeff, Rat.cast_one, one_mul]
    exact hprod
  | case5 l r _ _ newcoeff prodlist _ _ =>
    have hprod : evalProd ρ prodlist = evalBody ρ l.noncoefficient * evalBody ρ r.noncoefficient :=
      evalProd_prodlist ρ _ _
    have hcoeff : (if newcoeff < 0 then mkMinus (.number (-newcoeff)) else .number newcoeff :
      NumExpr α) = .number newcoeff := signed_number newcoeff
    rw [eval_makeProd, hvalue, ← hprod]
    simp only [evalProd, List.map_cons, List.map_nil, List.prod_cons, List.prod_nil, mul_one,
      eval_makeProd]
    congr 1
    exact congrArg (eval ρ) hcoeff

/-! ### Cancellation -/

/-- What is cancelled on one side is equal to what is cancelled on the other one. -/
theorem cancelTermsFrom_common (lhs rhs acc : List (NumExpr α)) (sig : Bool) :
    ∃ common : List (NumExpr α × NumExpr α), (∀ p ∈ common, C.tcEq p.1 p.2 = true) ∧
      (acc.reverse ++ lhs).Perm
        ((cancelTermsFrom C lhs rhs acc sig).2.1 ++ common.map Prod.fst) ∧
      rhs.Perm ((cancelTermsFrom C lhs rhs acc sig).2.2 ++ common.map Prod.snd) := by
  induction lhs generalizing rhs acc sig with
  | nil =>
    refine ⟨[], ?_, ?_, ?_⟩
    · exact fun p hp => absurd hp List.not_mem_nil
    · rw [cancelTermsFrom, List.map_nil]
    · rw [cancelTermsFrom, List.map_nil, List.append_nil]
  | cons e lhs ih =>
    rw [cancelTermsFrom]
    split
    · rename_i e' hfind
      obtain ⟨heq, before, after, rfl, hbefore⟩ := List.find?_eq_some_iff_append.1 hfind
      have herase : (before ++ e' :: after).eraseP (C.tcEq e) = before ++ after := by
        rw [List.eraseP_append_right _ (by simpa using hbefore), List.eraseP_cons_of_pos heq]
      rw [herase]
      obtain ⟨common, hcommon, hlhs, hrhs⟩ := ih (before ++ after) acc true
      refine ⟨(e, e') :: common, ?_, ?_, ?_⟩
      · rintro p (_ | ⟨_, hp⟩)
        · exact heq
        · exact hcommon p hp
      · exact List.perm_middle.trans ((hlhs.cons e).trans List.perm_middle.symm)
      · exact List.perm_middle.trans ((hrhs.cons e').trans List.perm_middle.symm)
    · obtain ⟨common, hcommon, hlhs, hrhs⟩ := ih rhs (e :: acc) sig
      refine ⟨common, hcommon, ?_, hrhs⟩
      rwa [List.reverse_cons, List.append_assoc, List.singleton_append] at hlhs

/-- Only common terms are removed. -/
def RemovesCommon (lhs rhs lhs' rhs' : List (NumExpr α)) : Prop :=
  ∃ common : List (NumExpr α × NumExpr α), (∀ p ∈ common, C.tcEq p.1 p.2 = true) ∧
    lhs.Perm (lhs' ++ common.map Prod.fst) ∧ rhs.Perm (rhs' ++ common.map Prod.snd)

theorem cancelTerms_removesCommon (lhs rhs : List (NumExpr α)) :
    RemovesCommon C lhs rhs (cancelTerms C lhs rhs).2.1 (cancelTerms C lhs rhs).2.2 :=
  cancelTermsFrom_common C lhs rhs [] false

theorem RemovesCommon.evalSum_eq_iff [CharZero K] {lhs rhs lhs' rhs' : List (NumExpr α)}
    (h : RemovesCommon C lhs rhs lhs' rhs') :
    evalSum ρ lhs' = evalSum ρ rhs' ↔ evalSum ρ lhs = evalSum ρ rhs := by
  obtain ⟨common, hcommon, hlhs, hrhs⟩ := h
  have hsame : evalSum ρ (common.map Prod.fst) = evalSum ρ (common.map Prod.snd) := by
    rw [evalSum, evalSum, List.map_map, List.map_map]
    congr 1
    exact List.map_congr_left fun p hp => C.tcEq_sound (hcommon p hp) ρ
  have hperm : ∀ {l l' : List (NumExpr α)}, l.Perm l' → evalSum ρ l = evalSum ρ l' :=
    fun h => (h.map _).sum_eq
  rw [hperm hlhs, hperm hrhs, evalSum_append, evalSum_append, hsame, add_left_inj]

def Cancelled.Holds (lhs rhs : NumExpr α) : Cancelled α → Prop
  | unchanged => lhs.eval ρ = rhs.eval ρ
  | true => True
  | equation lhs' rhs' => lhs'.eval ρ = rhs'.eval ρ

theorem assertNumericEquality_holds [CharZero K] (lhs rhs : NumExpr α) :
    (assertNumericEquality C lhs rhs).Holds ρ lhs rhs ↔ lhs.eval ρ = rhs.eval ρ := by
  have hcancel := (cancelTerms_removesCommon C (addends C lhs) (addends C rhs)).evalSum_eq_iff C ρ
  rw [evalSum_addends, evalSum_addends] at hcancel
  unfold assertNumericEquality
  dsimp only
  split
  · exact Iff.rfl
  · split
    · rename_i h
      rw [h] at hcancel
      exact iff_of_true trivial (hcancel.1 rfl)
    · rename_i h
      rw [h] at hcancel
      rw [Cancelled.Holds, eval_makeSum, eval_makeSum]
      exact hcancel
    · exact Iff.rfl

/-- What is asked of the functions. -/
structure Preserves (C : Callees α) (ρ : α → K) : Prop where
  addends : ∀ e, evalSum ρ (addends C e) = e.eval ρ
  multiplicands : ∀ e : NumExpr α, evalProd ρ e.multiplicands = e.eval ρ
  makeMinus : ∀ e, (makeMinus C e).eval ρ = -e.eval ρ
  makeSum : ∀ l, (makeSum C l).eval ρ = evalSum ρ l
  makeProd : ∀ l, (makeProd C l).eval ρ = evalProd ρ l
  mergesums : ∀ l l', (mergesums C l l').eval ρ = evalSum ρ l + evalSum ρ l'
  getMergedSum : ∀ e e' addition, (getMergedSum C e e' addition).eval ρ =
    if addition then e.eval ρ + e'.eval ρ else e.eval ρ - e'.eval ρ
  mergeProducts : ∀ l r, (mergeProducts C l r).eval ρ = l.eval ρ * r.eval ρ
  cancelTerms_common : ∀ l r,
    RemovesCommon C l r (cancelTerms C l r).2.1 (cancelTerms C l r).2.2
  cancelTerms : ∀ l r, evalSum ρ (cancelTerms C l r).2.1 = evalSum ρ (cancelTerms C l r).2.2 ↔
    evalSum ρ l = evalSum ρ r
  assertNumericEquality : ∀ l r, (assertNumericEquality C l r).Holds ρ l r ↔ l.eval ρ = r.eval ρ

theorem normaliser_preserves [CharZero K] (C : Callees α) (ρ : α → K) : Preserves C ρ where
  addends := evalSum_addends C ρ
  multiplicands := evalProd_multiplicands ρ
  makeMinus := eval_makeMinus C ρ
  makeSum := eval_makeSum C ρ
  makeProd := eval_makeProd C ρ
  mergesums := eval_mergesums C ρ
  getMergedSum := eval_getMergedSum C ρ
  mergeProducts := eval_mergeProducts C ρ
  cancelTerms_common := cancelTerms_removesCommon C
  cancelTerms l r := (cancelTerms_removesCommon C l r).evalSum_eq_iff C ρ
  assertNumericEquality := assertNumericEquality_holds C ρ

/-- Equality, and terms as they come. -/
def Callees.plain [DecidableEq α] : Callees α where
  tcEq e e' := e = e'
  tcEq_sound h _ _ _ _ := by rw [of_decide_eq_true h]
  sort l := l
  sort_perm := List.Perm.refl
  connectiveOccurs _ := false

theorem normaliser_preserves_plain :
    Preserves (.plain : Callees String) fun x => if x = "x" then (2 / 3 : ℚ) else -1 :=
  normaliser_preserves _ _

end PVS.Assert
