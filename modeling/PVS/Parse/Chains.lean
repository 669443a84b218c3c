import PVS.Parse.Relations

/-! When the chains of relations are put together as they are written. -/

namespace PVS.Parse

variable {op op' : String} {t left right : Term} {e l r x : Expr}

/-! ### Operators -/

theorem mem_infixOperators_of_equality (hr : Relational op) (he : Equality op) :
    op ∈ infixOperators := by
  simp only [Equality, pvsEqualityOperators, List.mem_cons, List.not_mem_nil, or_false] at he
  obtain rfl | rfl | rfl := he
  · decide
  · decide
  · exact absurd hr (by decide)

theorem not_equality_of_level_lt (h : level op < level op') : ¬ Equality op' := by
  intro he
  simp only [Equality, pvsEqualityOperators, List.mem_cons, List.not_mem_nil, or_false] at he
  have h0 : level op' = 0 := by obtain rfl | rfl | rfl := he <;> rfl
  omega

theorem mayChain_iff : MayChain op op' ↔ (¬ Equality op ∨ op = op') := by
  simp [MayChain, OperatorIsEquality]

theorem mayChain_of_chainable (h : Chainable op op') : MayChain op op' :=
  mayChain_iff.2 (h.imp_left And.left)

theorem mayChain_iff_of_not_equality (h : ¬ Equality op') : MayChain op op' ↔ ¬ Equality op := by
  rw [mayChain_iff, or_iff_left_of_imp]
  rintro rfl
  exact h

theorem chainable_iff_of_not_equality (h : ¬ Equality op') :
    Chainable op op' ↔ ¬ Equality op := by
  rw [Chainable, or_iff_left_of_imp]
  · simp [h]
  · rintro rfl
    exact ⟨h, h⟩

/-- The tests of the methods agree with what is meant, where they are asked about no equality. -/
theorem mayChain_iff_chainable : (MayChain op op' ↔ Chainable op op') ↔
    (Equality op' → Equality op) := by
  rw [mayChain_iff, Chainable]
  by_cases h : op = op'
  · subst h
    simp
  · by_cases he : Equality op <;> by_cases he' : Equality op' <;> simp [h, he, he']

/-! ### Sizes -/

def Expr.size : Expr → ℕ
  | .name .. => 1
  | .infixApplication _ args1 args2 _ | .application _ args1 args2 _
  | .chainedRelation args1 args2 _ => args1.size + args2.size + 1

theorem Expr.size_pos (e : Expr) : 0 < e.size := by
  cases e <;> simp [Expr.size]

theorem Expr.size_mkApplication : (mkApplication op l r).size = l.size + r.size + 1 := by
  unfold mkApplication
  split <;> rfl

theorem size_rightmost (h : rightmostRelationTerm op e = some (some x)) : x.size < e.size := by
  induction e generalizing x with
  | name => simp [rightmostRelationTerm] at h
  | application => simp [rightmostRelationTerm] at h
  | infixApplication operator args1 args2 parens =>
    unfold rightmostRelationTerm at h
    split_ifs at h
    · cases h
      simp only [Expr.size]
      omega
    · cases h
  | chainedRelation args1 args2 parens _ ih =>
    obtain ⟨operator, -, h⟩ := Option.bind_eq_some_iff.1 h
    split_ifs at h
    · obtain ⟨term, hterm, hx⟩ := Option.map_eq_some_iff.1 h
      cases hx
      simp only [Expr.size]
      cases term with
      | none =>
        simp only [Option.getD_none]
        omega
      | some y =>
        have := ih hterm
        simp only [Option.getD_some]
        omega
    · cases h

theorem size_leftmost (h : leftmostRelationTerm op e = some (some x)) : x.size < e.size := by
  induction e generalizing x with
  | name => simp [leftmostRelationTerm] at h
  | application => simp [leftmostRelationTerm] at h
  | infixApplication operator args1 args2 parens =>
    unfold leftmostRelationTerm at h
    split_ifs at h
    · cases h
      simp only [Expr.size]
      omega
    · cases h
  | chainedRelation args1 args2 parens ih _ =>
    obtain ⟨operator, -, h⟩ := Option.bind_eq_some_iff.1 h
    split_ifs at h
    · obtain ⟨term, hterm, hx⟩ := Option.map_eq_some_iff.1 h
      cases hx
      simp only [Expr.size]
      cases term with
      | none =>
        simp only [Option.getD_none]
        omega
      | some y =>
        have := ih hterm
        simp only [Option.getD_some]
        omega
    · cases h

/-! ### What is found and what is put together -/

/-- What is made of the terms that are found, or not -/
def assemble (op : String) (left right : Expr) (lhs rhs : Option Expr) : Expr :=
  let app := mkApplication op (lhs.getD left) (rhs.getD right)
  match lhs, rhs with
  | none, none => app
  | none, some rhs => mkChainedRelation app rhs
  | some _, none => mkChainedRelation left app
  | some _, some _ => mkChainedRelation (mkChainedRelation left app) right

theorem xtTermExpr_eq (hop : Relational op) :
    xtTermExpr op l r = (rightmostRelationTerm op l).bind fun lhs =>
      (leftmostRelationTerm op r).map fun rhs => assemble op l r lhs rhs := by
  rw [xtTermExpr, if_pos hop]
  cases rightmostRelationTerm op l with
  | none => rfl
  | some lhs =>
    cases leftmostRelationTerm op r with
    | none => rfl
    | some rhs => cases lhs <;> cases rhs <;> rfl

theorem mkApplication_inj {a b c d : Expr} :
    mkApplication op a b = mkApplication op c d ↔ a = c ∧ b = d := by
  unfold mkApplication
  split <;> simp

theorem mkApplication_ne_chained {a b c d : Expr} :
    mkApplication op a b ≠ mkChainedRelation c d := by
  unfold mkApplication mkChainedRelation
  split <;> simp

theorem mkChainedRelation_inj {a b c d : Expr} :
    mkChainedRelation a b = mkChainedRelation c d ↔ a = c ∧ b = d := by
  simp [mkChainedRelation]

theorem mkApplication_ne_left {a b : Expr} : mkApplication op a b ≠ a := by
  intro h
  have := congrArg Expr.size h
  rw [Expr.size_mkApplication] at this
  omega

theorem mkChainedRelation_ne_left {a b : Expr} : mkChainedRelation a b ≠ a := by
  intro h
  have := congrArg Expr.size h
  simp only [mkChainedRelation, Expr.size] at this
  omega

/-- Terms other than the operands are found as they should be, if what is made of them
is. -/
theorem assemble_eq_conjoin_iff {lhs rhs lhs' rhs' : Option Expr}
    (hl : ∀ x ∈ lhs, x ≠ l) (hl' : ∀ x ∈ lhs', x ≠ l)
    (hr : ∀ x ∈ rhs, x ≠ r) (hr' : ∀ x ∈ rhs', x ≠ r) :
    assemble op l r lhs rhs = conjoin (lhs'.isSome = true) (rhs'.isSome = true) l r
        (mkApplication op (lhs'.getD l) (rhs'.getD r)) ↔
      lhs = lhs' ∧ rhs = rhs' ∧ (rhs'.isSome = true → lhs'.isSome = true) := by
  have hne := @mkApplication_ne_left op
  have hne' := @mkApplication_ne_chained op
  have hne'' := @mkChainedRelation_ne_left
  cases lhs <;> cases lhs' <;> cases rhs <;> cases rhs' <;>
    simp_all [assemble, conjoin, mkApplication_inj, mkChainedRelation_inj, eq_comm]

/-! ### The expressions of terms -/

/-- The form of an expression that is made of a term, up to the parentheses -/
inductive Shape : Term → Expr → Prop
  | name {id : String} {parens : ℕ} : Shape (.atom id) (.name id parens)
  | parens {t : Term} {e : Expr} (h : Shape t e) : Shape (.parens t) e
  | other {op : String} {left right : Term} {l r : Expr} {parens : ℕ} (hop : ¬ Relational op) :
    Shape (.app op left right) (.infixApplication op l r parens)
  | relation {op : String} {left right : Term} {l r : Expr} {parens : ℕ}
    (hleft : ¬ Joins op left) (hright : ¬ Joins op right) :
    Shape (.app op left right) (.infixApplication op l r parens)
  | single {op : String} {left right : Term} {l r : Expr} {parens : ℕ}
    (hleft : ¬ Joins op left) (hright : ¬ Joins op right) :
    Shape (.app op left right) (.application op l r parens)
  | chain {op operator : String} {left right : Term} {l r : Expr} {parens : ℕ}
    (hop : Relational op) (hjoins : Joins op left ∨ Joins op right)
    (hoperator : r.operator = some operator)
    (htest : ∀ op', Relational op' → (MayChain op' operator ↔ MayChain op' op)) :
    Shape (.app op left right) (.chainedRelation l r parens)

theorem Shape.incParens (h : Shape t e) : Shape t e.incParens := by
  induction h with
  | name => exact .name
  | parens _ ih => exact .parens ih
  | other hop => exact .other hop
  | relation hleft hright => exact .relation hleft hright
  | single hleft hright => exact .single hleft hright
  | chain hop hjoins hoperator htest => exact .chain hop hjoins hoperator htest

/-- What is in parentheses is left alone, unless it is a chain. -/
theorem Shape.rightmost_incParens (h : Shape t e) (hop : Relational op) :
    rightmostRelationTerm op e.incParens = some none ↔ ¬ Intrudes op t := by
  induction h with
  | name => simp [Expr.incParens, rightmostRelationTerm, Intrudes]
  | parens _ ih => exact ih
  | other hop' => simp [Expr.incParens, rightmostRelationTerm, Intrudes, hop']
  | relation hleft hright => simp [Expr.incParens, rightmostRelationTerm, Intrudes, hleft, hright]
  | single hleft hright => simp [Expr.incParens, rightmostRelationTerm, Intrudes, hleft, hright]
  | chain hop' hjoins hoperator htest =>
    simp only [Expr.incParens, rightmostRelationTerm, Intrudes, hoperator, Option.bind_some,
      htest op hop, hop', hjoins, true_and, ← mayChain_iff]
    split_ifs with hmay
    · simp [hmay]
    · simp [hmay]

theorem Shape.leftmost_incParens (h : Shape t e) (hop : Relational op) :
    leftmostRelationTerm op e.incParens = some none ↔ ¬ Intrudes op t := by
  induction h with
  | name => simp [Expr.incParens, leftmostRelationTerm, Intrudes]
  | parens _ ih => exact ih
  | other hop' => simp [Expr.incParens, leftmostRelationTerm, Intrudes, hop']
  | relation hleft hright => simp [Expr.incParens, leftmostRelationTerm, Intrudes, hleft, hright]
  | single hleft hright => simp [Expr.incParens, leftmostRelationTerm, Intrudes, hleft, hright]
  | chain hop' hjoins hoperator htest =>
    simp only [Expr.incParens, leftmostRelationTerm, Intrudes, hoperator, Option.bind_some,
      htest op hop, hop', hjoins, true_and, ← mayChain_iff]
    split_ifs with hmay
    · simp [hmay]
    · simp [hmay]

/-- The operator of a right operand that binds more tightly is asked about as an ordering. -/
theorem Shape.operator_of_not_equality (h : Shape (.app op left right) e) (hop : Relational op)
    (hne : ¬ Equality op) :
    ∃ operator, e.operator = some operator ∧
      ∀ op', Relational op' → (MayChain op' operator ↔ ¬ Equality op') := by
  have hand : ∀ op', Relational op' → op' ≠ "AND" := by
    rintro op' hop' rfl
    exact absurd hop' (by decide)
  cases h with
  | other hop' => exact absurd hop hop'
  | relation => exact ⟨op, rfl, fun op' _ => mayChain_iff_of_not_equality hne⟩
  | single => exact ⟨op, rfl, fun op' _ => mayChain_iff_of_not_equality hne⟩
  | chain =>
    refine ⟨"AND", rfl, fun op' hop' => ?_⟩
    rw [mayChain_iff, or_iff_left (hand op' hop')]

/-! ### What is found -/

/-- The methods find the operands at the ends of the chain, where it is one, under the
conditions. -/
structure Reads (t : Term) (e : Expr) : Prop where
  shape : Shape t e
  last : ∀ op, Joins op t → ∃ x, xtExpr t.last = some x ∧ x.size < e.size
  first : ∀ op, Joins op t → ∃ x, xtExpr t.first = some x ∧ x.size < e.size
  right : ∀ op, Relational op →
    (rightmostRelationTerm op e = some (if Joins op t then xtExpr t.last else none) ↔
      Separate op t ∧ (Joins op t → t.lastOperator ∈ infixOperators))
  left : ∀ op, Relational op →
    (leftmostRelationTerm op e = some (if Joins op t then xtExpr t.first else none) ↔
      Separate op t ∧ (Joins op t → t.firstOperator ∈ infixOperators))

theorem Reads.atom (id : String) : Reads (.atom id) (.name id 0) where
  shape := .name
  last _ h := h.elim
  first _ h := h.elim
  right op _ := by simp [rightmostRelationTerm, Joins, Separate]
  left op _ := by simp [leftmostRelationTerm, Joins, Separate]

theorem Reads.parens (h : Reads t e) : Reads (.parens t) e.incParens where
  shape := .parens h.shape.incParens
  last _ h := h.elim
  first _ h := h.elim
  right op hop := by simpa [Joins, Separate] using h.shape.rightmost_incParens hop
  left op hop := by simpa [Joins, Separate] using h.shape.leftmost_incParens hop

theorem Reads.other (hop : ¬ Relational op) :
    Reads (.app op left right) (.infixApplication op l r 0) where
  shape := .other hop
  last _ h := absurd h.1 hop
  first _ h := absurd h.1 hop
  right op' _ := by simp [rightmostRelationTerm, Joins, Separate, hop]
  left op' _ := by simp [leftmostRelationTerm, Joins, Separate, hop]

/-! ### Relations -/

theorem map_getD_eq_iff {o : Option (Option Expr)} {y : Expr} (hne : y ≠ l) :
    o.map (fun term => some (term.getD l)) = some (some y) ↔ o = some (some y) := by
  constructor
  · intro h
    obtain ⟨term, rfl, hterm⟩ := Option.map_eq_some_iff.1 h
    cases term with
    | none => exact absurd (Option.some.inj hterm).symm hne
    | some z => rw [Option.some.inj hterm.symm]; rfl
  · rintro rfl
    rfl

/-- What is found by the test, and what is meant -/
theorem found_iff (op op' : String) (y z : Expr) :
    ((if MayChain op' op then some (some z) else some none) =
        some (if Chainable op' op then some y else none)) ↔
      (Equality op → Equality op') ∧ (Chainable op' op → z = y) := by
  rw [← mayChain_iff_chainable]
  by_cases hmay : MayChain op' op <;> by_cases hch : Chainable op' op
  · simp [hmay, hch]
  · simp [hmay, hch]
  · exact absurd (mayChain_of_chainable hch) hmay
  · simp [hmay, hch]

theorem Chainable.trans {op'' : String} (h : Chainable op'' op) (h' : Chainable op op') :
    Chainable op'' op' := by
  unfold Chainable at *
  grind

theorem Chainable.symm (h : Chainable op op') : Chainable op' op := by
  unfold Chainable at *
  grind

theorem Chainable.equality_iff (h : Chainable op op') : Equality op ↔ Equality op' := by
  obtain ⟨h, h'⟩ | rfl := h
  · simp [h, h']
  · rfl

theorem joins_app_iff (hop : Relational op) : Joins op' (.app op left right) ↔ Chainable op' op :=
  and_iff_right hop

theorem separate_app_iff (hop : Relational op) :
    Separate op' (.app op left right) ↔ (Equality op → Equality op') :=
  imp_iff_right hop

theorem mkApplication_ne_right {a b : Expr} : mkApplication op a b ≠ b := by
  intro h
  have := congrArg Expr.size h
  rw [Expr.size_mkApplication] at this
  omega

section Application

variable (hop : Relational op)
include hop

theorem rightmost_mkApplication : rightmostRelationTerm op' (mkApplication op l r) =
    some (if op ∈ infixOperators ∧ MayChain op' op then some r else none) := by
  unfold mkApplication
  by_cases hmem : op ∈ infixOperators <;> by_cases hmay : MayChain op' op <;>
    simp [rightmostRelationTerm, hop, hmem, hmay]

theorem leftmost_mkApplication : leftmostRelationTerm op' (mkApplication op l r) =
    some (if op ∈ infixOperators ∧ MayChain op' op then some l else none) := by
  unfold mkApplication
  by_cases hmem : op ∈ infixOperators <;> by_cases hmay : MayChain op' op <;>
    simp [leftmostRelationTerm, hop, hmem, hmay]

theorem found_application_iff {y : Expr} :
    some (if op ∈ infixOperators ∧ MayChain op' op then some y else none) =
        some (if Chainable op' op then some y else none) ↔
      (Equality op → Equality op') ∧ (Chainable op' op → op ∈ infixOperators) := by
  by_cases hmem : op ∈ infixOperators
  · have h := found_iff op op' y y
    simpa [hmem, apply_ite] using h
  · have hne : ¬ Equality op := fun he => hmem (mem_infixOperators_of_equality hop he)
    by_cases hch : Chainable op' op <;> simp [hmem, hne, hch]

end Application

theorem operator_mkApplication : (mkApplication op l r).operator = some op := by
  unfold mkApplication
  split <;> rfl

theorem rightmost_chained_application (hop : Relational op) :
    rightmostRelationTerm op' (mkChainedRelation e (mkApplication op l r)) =
      if MayChain op' op then
        some (some (if op ∈ infixOperators then r else mkApplication op l r))
      else some none := by
  simp only [mkChainedRelation, rightmostRelationTerm, operator_mkApplication, Option.bind_some]
  by_cases hmay : MayChain op' op
  · simp only [hmay, if_true]
    rw [rightmost_mkApplication hop]
    by_cases hmem : op ∈ infixOperators <;> simp [hmem, hmay]
  · simp [hmay]

theorem leftmost_chained (hoperator : r.operator = some op') {op'' : String} :
    leftmostRelationTerm op'' (mkChainedRelation l r) =
      if MayChain op'' op' then
        (leftmostRelationTerm op'' l).map fun term => some (term.getD l)
      else some none := by
  simp [mkChainedRelation, leftmostRelationTerm, hoperator]

theorem rightmost_chained (hoperator : r.operator = some op') {op'' : String} :
    rightmostRelationTerm op'' (mkChainedRelation l r) =
      if MayChain op'' op' then
        (rightmostRelationTerm op'' r).map fun term => some (term.getD r)
      else some none := by
  simp [mkChainedRelation, rightmostRelationTerm, hoperator]

/-- An operand that an operator goes on with is a relation. -/
theorem Joins.exists_app (h : Joins op t) :
    ∃ op' left right, t = .app op' left right ∧ Relational op' ∧ Chainable op op' := by
  cases t with
  | atom => exact h.elim
  | parens => exact h.elim
  | app op' left right => exact ⟨op', left, right, rfl, h⟩

theorem Joins.joins_iff (h : Joins op t) : Joins op' t ↔ Chainable op' op := by
  obtain ⟨op'', left, right, rfl, hop'', hch⟩ := h.exists_app
  rw [joins_app_iff hop'']
  exact ⟨fun h' => h'.trans hch.symm, fun h' => h'.trans hch⟩

theorem Joins.separate_iff (h : Joins op t) : Separate op' t ↔ (Equality op → Equality op') := by
  obtain ⟨op'', left, right, rfl, hop'', hch⟩ := h.exists_app
  rw [separate_app_iff hop'', hch.equality_iff]

/-- The first operand is found in a chain that a relation goes on with. -/
theorem Reads.leftmost_chained_iff (hop' : Relational op') (hl : Reads left l)
    (hleft : Joins op left) (lhs rhs : Expr) :
    leftmostRelationTerm op' (mkChainedRelation l (mkApplication op lhs rhs)) =
        some (if Chainable op' op then xtExpr left.first else none) ↔
      (Equality op → Equality op') ∧ (Chainable op' op → left.firstOperator ∈ infixOperators) := by
  obtain ⟨y, hy, hsize⟩ := hl.first op hleft
  have hne : y ≠ l := fun h => Nat.ne_of_lt hsize (congrArg Expr.size h)
  rw [leftmost_chained operator_mkApplication, hy]
  by_cases hch : Chainable op' op
  · have hfound := hl.left op' hop'
    simp only [hleft.joins_iff, hleft.separate_iff, hch, hy, if_true] at hfound
    rw [if_pos (mayChain_of_chainable hch), if_pos hch, map_getD_eq_iff hne, hfound]
    simp [hch]
  · by_cases hmay : MayChain op' op
    · have hnot : ¬ (Equality op → Equality op') := fun h => hch ((mayChain_iff_chainable.2 h).1 hmay)
      simp [hmay, hch, hnot]
    · have hyes : Equality op → Equality op' := mayChain_iff_chainable.1 (by simp [hmay, hch])
      simp [hmay, hch]
      exact hyes

section Relation

variable (hop : Relational op) (hl : Reads left l)
include hop

/-- A relation that goes on with no chain -/
theorem Reads.relation (hxl : xtExpr left = some l) (hxr : xtExpr right = some r)
    (hleft : ¬ Joins op left) (hright : ¬ Joins op right) :
    Reads (.app op left right) (mkApplication op l r) where
  shape := by
    unfold mkApplication
    split
    · exact .relation hleft hright
    · exact .single hleft hright
  last op' _ := by
    refine ⟨r, by simp [Term.last, hop, hright, hxr], ?_⟩
    rw [Expr.size_mkApplication]
    omega
  first op' _ := by
    refine ⟨l, by simp [Term.first, hop, hleft, hxl], ?_⟩
    rw [Expr.size_mkApplication]
    omega
  right op' _ := by
    have hlast : xtExpr (Term.app op left right).last = some r := by
      simp [Term.last, hop, hright, hxr]
    simpa only [separate_app_iff hop, joins_app_iff hop, hlast, Term.lastOperator, if_neg hright,
      rightmost_mkApplication hop] using found_application_iff hop
  left op' _ := by
    have hfirst : xtExpr (Term.app op left right).first = some l := by
      simp [Term.first, hop, hleft, hxl]
    simpa only [separate_app_iff hop, joins_app_iff hop, hfirst, Term.firstOperator, if_neg hleft,
      leftmost_mkApplication hop] using found_application_iff hop

include hl

/-- A relation that goes on with the chain on its left -/
theorem Reads.chain {lhs : Expr} (hxr : xtExpr right = some r) (hleft : Joins op left)
    (hright : ¬ Joins op right) :
    Reads (.app op left right) (mkChainedRelation l (mkApplication op lhs r)) where
  shape := .chain hop (.inl hleft) operator_mkApplication fun _ _ => Iff.rfl
  last op' _ := by
    refine ⟨r, by simp [Term.last, hop, hright, hxr], ?_⟩
    simp only [mkChainedRelation, Expr.size, Expr.size_mkApplication]
    omega
  first op' _ := by
    obtain ⟨y, hy, hsize⟩ := hl.first op hleft
    refine ⟨y, by simp [Term.first, hop, hleft, hy], ?_⟩
    simp only [mkChainedRelation, Expr.size, Expr.size_mkApplication]
    omega
  right op' _ := by
    have hlast : xtExpr (Term.app op left right).last = some r := by
      simp [Term.last, hop, hright, hxr]
    have hfound := found_iff op op' r
      (if op ∈ infixOperators then r else mkApplication op lhs r)
    have hend : (if op ∈ infixOperators then r else mkApplication op lhs r) = r ↔
        op ∈ infixOperators := by
      by_cases hmem : op ∈ infixOperators <;> simp [hmem, mkApplication_ne_right]
    simpa only [separate_app_iff hop, joins_app_iff hop, hlast, Term.lastOperator, if_neg hright,
      rightmost_chained_application hop, hend] using hfound
  left op' hop' := by
    have hfirst : (Term.app op left right).first = left.first := by simp [Term.first, hop, hleft]
    simpa only [separate_app_iff hop, joins_app_iff hop, hfirst, Term.firstOperator,
      if_pos hleft] using hl.leftmost_chained_iff hop' hleft _ _

/-- A relation that goes on with the chains on both sides -/
theorem Reads.chains {lhs rhs : Expr} (hr : Reads right r) (hleft : Joins op left)
    (hright : Joins op right) (hne : ¬ Equality op) :
    Reads (.app op left right)
      (mkChainedRelation (mkChainedRelation l (mkApplication op lhs rhs)) r) := by
  obtain ⟨op', l', r', heq, hop', hch⟩ := hright.exists_app
  have hne' : ¬ Equality op' := fun h => hne (hch.equality_iff.2 h)
  obtain ⟨operator, hoperator, htest⟩ :=
    (heq ▸ hr.shape).operator_of_not_equality hop' hne'
  obtain ⟨y, hy, hysize⟩ := hl.first op hleft
  obtain ⟨z, hz, hzsize⟩ := hr.last op hright
  have hfirst : (Term.app op left right).first = left.first := by simp [Term.first, hop, hleft]
  have hlast : (Term.app op left right).last = right.last := by simp [Term.last, hop, hright]
  refine ⟨.chain hop (.inl hleft) hoperator fun op'' hop'' => ?_, fun _ _ => ?_, fun _ _ => ?_,
    fun op'' hop'' => ?_, fun op'' hop'' => ?_⟩
  · rw [htest op'' hop'', mayChain_iff_of_not_equality hne]
  · refine ⟨z, by rw [hlast, hz], ?_⟩
    simp only [mkChainedRelation, Expr.size, Expr.size_mkApplication]
    omega
  · refine ⟨y, by rw [hfirst, hy], ?_⟩
    simp only [mkChainedRelation, Expr.size, Expr.size_mkApplication]
    omega
  · have hfound := hr.right op'' hop''
    have hzr : z ≠ r := fun h => Nat.ne_of_lt hzsize (congrArg Expr.size h)
    simp only [joins_app_iff hop, separate_app_iff hop, hlast, hz, Term.lastOperator,
      rightmost_chained hoperator, htest op'' hop'',
      chainable_iff_of_not_equality hne, hne, hright.joins_iff, hright.separate_iff] at hfound ⊢
    by_cases he : Equality op''
    · simp [he]
    · simpa [he, map_getD_eq_iff hzr] using hfound
  · have hfound := hl.leftmost_chained_iff hop'' hleft lhs rhs
    have hyl : y ≠ mkChainedRelation l (mkApplication op lhs rhs) := by
      intro h
      have := congrArg Expr.size h
      simp only [mkChainedRelation, Expr.size] at this
      omega
    simp only [joins_app_iff hop, separate_app_iff hop, hfirst, hy, Term.firstOperator,
      if_pos hleft, leftmost_chained hoperator, htest op'' hop'',
      chainable_iff_of_not_equality hne, hne] at hfound ⊢
    by_cases he : Equality op''
    · simp [he]
    · simpa [he, map_getD_eq_iff hyl] using hfound

end Relation

/-! ### Terms -/

theorem conjoin_congr {p p' q q' : Prop} [Decidable p] [Decidable p'] [Decidable q] [Decidable q']
    (hp : p ↔ p') (hq : q ↔ q') : conjoin p q l r e = conjoin p' q' l r e := by
  simp only [conjoin, hp, hq]

/-- The operand next to an operator is the end of the chain that is to be found, or all. -/
theorem Reads.leftOperand (op : String) (hl : Reads left l) (hxl : xtExpr left = some l) :
    ∃ lhs : Option Expr, (if Joins op left then xtExpr left.last else none) = lhs ∧
      (∀ x ∈ lhs, x ≠ l) ∧ (lhs.isSome = true ↔ Joins op left) ∧
        xtExpr (leftOperand op left) = some (lhs.getD l) := by
  by_cases hjoins : Joins op left
  · obtain ⟨x, hx, hsize⟩ := hl.last op hjoins
    refine ⟨some x, by simp [hjoins, hx], ?_, by simp [hjoins], by simp [PVS.Parse.leftOperand, hjoins, hx]⟩
    rintro _ ⟨⟩ h
    exact Nat.ne_of_lt hsize (congrArg Expr.size h)
  · exact ⟨none, by simp [hjoins], nofun, by simp [hjoins],
      by simp [PVS.Parse.leftOperand, hjoins, hxl]⟩

theorem Reads.rightOperand (op : String) (hr : Reads right r) (hxr : xtExpr right = some r) :
    ∃ rhs : Option Expr, (if Joins op right then xtExpr right.first else none) = rhs ∧
      (∀ x ∈ rhs, x ≠ r) ∧ (rhs.isSome = true ↔ Joins op right) ∧
        xtExpr (rightOperand op right) = some (rhs.getD r) := by
  by_cases hjoins : Joins op right
  · obtain ⟨x, hx, hsize⟩ := hr.first op hjoins
    refine ⟨some x, by simp [hjoins, hx], ?_, by simp [hjoins], by simp [PVS.Parse.rightOperand, hjoins, hx]⟩
    rintro _ ⟨⟩ h
    exact Nat.ne_of_lt hsize (congrArg Expr.size h)
  · exact ⟨none, by simp [hjoins], nofun, by simp [hjoins],
      by simp [PVS.Parse.rightOperand, hjoins, hxr]⟩

/-- The relation is put together as it should be, given its operands, exactly where it is good. -/
theorem node_iff (hop : Relational op) (hl : Reads left l) (hr : Reads right r)
    (hxl : xtExpr left = some l) (hxr : xtExpr right = some r) :
    (∃ lhs rhs, xtExpr (leftOperand op left) = some lhs ∧
        xtExpr (rightOperand op right) = some rhs ∧
        xtExpr (.app op left right) =
          some (conjoin (Joins op left) (Joins op right) l r (mkApplication op lhs rhs))) ↔
      Separate op left ∧ Separate op right ∧
        (Joins op left → left.lastOperator ∈ infixOperators) ∧
          (Joins op right → right.firstOperator ∈ infixOperators) ∧
            (Joins op right → Joins op left) := by
  obtain ⟨lhs', hlhs, hlne, hljoins, hlx⟩ := hl.leftOperand op hxl
  obtain ⟨rhs', hrhs, hrne, hrjoins, hrx⟩ := hr.rightOperand op hxr
  have hright := hl.right op hop
  have hleft := hr.left op hop
  rw [hlhs] at hright
  rw [hrhs] at hleft
  have hxt : xtExpr (.app op left right) = (rightmostRelationTerm op l).bind fun lhs =>
      (leftmostRelationTerm op r).map fun rhs => assemble op l r lhs rhs := by
    rw [xtExpr, hxl, hxr]
    exact xtTermExpr_eq hop
  constructor
  · rintro ⟨lhs, rhs, hlhs', hrhs', heq⟩
    rw [hlx] at hlhs'
    rw [hrx] at hrhs'
    cases hlhs'
    cases hrhs'
    rw [hxt] at heq
    obtain ⟨lhs, hfound, heq⟩ := Option.bind_eq_some_iff.1 heq
    obtain ⟨rhs, hfound', heq⟩ := Option.map_eq_some_iff.1 heq
    rw [← conjoin_congr hljoins hrjoins, assemble_eq_conjoin_iff _ hlne _ hrne] at heq
    · obtain ⟨rfl, rfl, himp⟩ := heq
      obtain ⟨hsl, hinl⟩ := hright.1 hfound
      obtain ⟨hsr, hinr⟩ := hleft.1 hfound'
      exact ⟨hsl, hsr, hinl, hinr, by rwa [hljoins, hrjoins] at himp⟩
    · rintro x rfl h
      exact Nat.ne_of_lt (size_rightmost hfound) (congrArg Expr.size h)
    · rintro x rfl h
      exact Nat.ne_of_lt (size_leftmost hfound') (congrArg Expr.size h)
  · rintro ⟨hsl, hsr, hinl, hinr, himp⟩
    refine ⟨_, _, hlx, hrx, ?_⟩
    rw [hxt, hright.2 ⟨hsl, hinl⟩, hleft.2 ⟨hsr, hinr⟩, ← conjoin_congr hljoins hrjoins]
    rw [← hljoins, ← hrjoins] at himp
    exact congrArg some ((assemble_eq_conjoin_iff hlne hlne hrne hrne).2 ⟨rfl, rfl, himp⟩)

theorem Term.Nested.not_equality (hn : (Term.app op left right).Nested) (hjoins : Joins op right) :
    ¬ Equality op := by
  obtain ⟨op', l, r, rfl, hop', hch⟩ := hjoins.exists_app
  have hlt := hn.2.2.2 op' l r rfl
  exact fun he => not_equality_of_level_lt hlt (hch.equality_iff.1 he)

/-- A good term is read as it is written. -/
theorem Term.Good.reads (hg : t.Good) (hn : t.Nested) : ∃ e, xtExpr t = some e ∧ Reads t e := by
  induction t with
  | atom id => exact ⟨_, rfl, .atom id⟩
  | parens t ih =>
    obtain ⟨e, he, hreads⟩ := ih hg hn
    exact ⟨e.incParens, by simp [xtExpr, he], hreads.parens⟩
  | app op left right ihl ihr =>
    obtain ⟨l, hxl, hl⟩ := ihl hg.1 hn.1
    obtain ⟨r, hxr, hr⟩ := ihr hg.2.1 hn.2.1
    by_cases hop : Relational op
    · have hgood := hg.2.2 hop
      obtain ⟨lhs, rhs, hlhs, hrhs, hxt⟩ := (node_iff hop hl hr hxl hxr).2 hgood
      refine ⟨_, hxt, ?_⟩
      by_cases hright : Joins op right
      · have hleft := hgood.2.2.2.2 hright
        simp only [conjoin, hleft, hright, if_true]
        exact .chains hop hl hr hleft hright (hn.not_equality hright)
      · rw [Parse.rightOperand, if_neg hright, hxr] at hrhs
        cases hrhs
        by_cases hleft : Joins op left
        · simp only [conjoin, hleft, hright, if_true, if_false]
          exact .chain hop hl hxr hleft hright
        · rw [Parse.leftOperand, if_neg hleft, hxl] at hlhs
          cases hlhs
          simp only [conjoin, hleft, hright, if_false]
          exact .relation hop hxl hxr hleft hright
    · refine ⟨.infixApplication op l r 0, ?_, .other hop⟩
      simp [xtExpr, hxl, hxr, xtTermExpr, hop]

theorem assembled_iff (hn : t.Nested) : t.Assembled ↔ t.Good := by
  induction t with
  | atom => rfl
  | parens t ih => exact ih hn
  | app op left right ihl ihr =>
    rw [Term.Assembled, Term.Good, ihl hn.1, ihr hn.2.1]
    refine and_congr_right fun hgl => and_congr_right fun hgr => imp_congr_right fun hop => ?_
    obtain ⟨l, hxl, hl⟩ := hgl.reads hn.1
    obtain ⟨r, hxr, hr⟩ := hgr.reads hn.2.1
    rw [← node_iff hop hl hr hxl hxr]
    constructor
    · rintro ⟨l', r', lhs, rhs, hxl', hxr', h⟩
      rw [hxl] at hxl'
      rw [hxr] at hxr'
      cases hxl'
      cases hxr'
      exact ⟨lhs, rhs, h⟩
    · rintro ⟨lhs, rhs, h⟩
      exact ⟨l, r, lhs, rhs, hxl, hxr, h⟩

/-! ### Meaning -/

section Meaning

variable {V : Type} {I : Interpretation V}

@[simp] theorem Expr.eval_incParens : e.incParens.eval I = e.eval I := by
  cases e <;> simp [Expr.incParens, Expr.eval]

theorem eval_mkApplication (hop : Relational op) :
    (mkApplication op l r).eval I = I.ofBool (I.relation op (l.eval I) (r.eval I)) := by
  unfold mkApplication
  split <;> simp [Expr.eval, hop]

theorem eval_conjoin {p q : Prop} [Decidable p] [Decidable q] {b : Bool}
    (happ : e.eval I = I.ofBool b) :
    (conjoin p q l r e).eval I =
      I.ofBool ((if p then I.truth (l.eval I) else true) && b &&
        (if q then I.truth (r.eval I) else true)) := by
  by_cases hp : p <;> by_cases hq : q <;>
    simp [conjoin, mkChainedRelation, Expr.eval, hp, hq, happ, I.truth_ofBool]

/-- A term has the value of its expression, and so have the operands at its ends. -/
structure Term.Means (I : Interpretation V) (t : Term) : Prop where
  value : ∀ e, xtExpr t = some e → e.eval I = (t.meaning I).value
  first : ∀ e, xtExpr t.first = some e → e.eval I = (t.meaning I).first
  last : ∀ e, xtExpr t.last = some e → e.eval I = (t.meaning I).last

theorem Term.Means.of_value (h : ∀ e, xtExpr t = some e → e.eval I = (t.meaning I).value)
    (hfirst : t.first = t) (hlast : t.last = t) (hf : (t.meaning I).first = (t.meaning I).value)
    (hl : (t.meaning I).last = (t.meaning I).value) : t.Means I where
  value := h
  first e he := by rw [hf]; exact h e (hfirst ▸ he)
  last e he := by rw [hl]; exact h e (hlast ▸ he)

theorem Term.Assembled.means (h : t.Assembled) : t.Means I := by
  induction t with
  | atom id =>
    refine .of_value ?_ rfl rfl rfl rfl
    rintro e ⟨⟩
    rfl
  | parens t ih =>
    refine .of_value (fun e he => ?_) rfl rfl rfl rfl
    obtain ⟨e', he', rfl⟩ := Option.map_eq_some_iff.1 he
    rw [Expr.eval_incParens]
    exact (ih h).value e' he'
  | app op left right ihl ihr =>
    replace ihl := ihl h.1
    replace ihr := ihr h.2.1
    by_cases hop : Relational op
    · obtain ⟨l, r, lhs, rhs, hxl, hxr, hlhs, hrhs, hxt⟩ := h.2.2 hop
      have hlhs' : lhs.eval I =
          if Joins op left then (left.meaning I).last else (left.meaning I).value := by
        by_cases hj : Joins op left
        · simp only [leftOperand, hj, if_true] at hlhs ⊢
          exact ihl.last lhs hlhs
        · simp only [leftOperand, hj, if_false] at hlhs ⊢
          exact ihl.value lhs hlhs
      have hrhs' : rhs.eval I =
          if Joins op right then (right.meaning I).first else (right.meaning I).value := by
        by_cases hj : Joins op right
        · simp only [rightOperand, hj, if_true] at hrhs ⊢
          exact ihr.first rhs hrhs
        · simp only [rightOperand, hj, if_false] at hrhs ⊢
          exact ihr.value rhs hrhs
      refine ⟨fun e he => ?_, fun e he => ?_, fun e he => ?_⟩
      · rw [hxt] at he
        cases he
        rw [eval_conjoin (eval_mkApplication hop), hlhs', hrhs', ihl.value l hxl, ihr.value r hxr]
        simp only [Term.meaning, hop, if_true]
      · by_cases hj : Joins op left
        · simp only [Term.first, Term.meaning, hop, hj, if_true] at he ⊢
          exact ihl.first e he
        · simp only [Term.first, Term.meaning, hop, hj, if_true, if_false] at he ⊢
          exact ihl.value e he
      · by_cases hj : Joins op right
        · simp only [Term.last, Term.meaning, hop, hj, if_true] at he ⊢
          exact ihr.last e he
        · simp only [Term.last, Term.meaning, hop, hj, if_true, if_false] at he ⊢
          exact ihr.value e he
    · refine .of_value (fun e he => ?_) (by simp [Term.first, hop]) (by simp [Term.last, hop])
        (by simp [Term.meaning, hop]) (by simp [Term.meaning, hop])
      obtain ⟨l, hxl, he⟩ := Option.bind_eq_some_iff.1 he
      obtain ⟨r, hxr, he⟩ := Option.bind_eq_some_iff.1 he
      rw [xtTermExpr, if_neg hop] at he
      cases he
      simp [Expr.eval, Term.meaning, hop, ihl.value l hxl, ihr.value r hxr]

end Meaning

/-- Booleans, of which some names are true -/
def booleans (names : List String) : Interpretation Bool where
  name id := decide (id ∈ names)
  relation op u v := if op = "<" then !u && v else if op = "≤" ∨ op = "⊑" then !u || v else u == v
  apply _ u _ := u
  ofBool := id
  truth := id
  truth_ofBool _ := rfl

/-- The value of a term is not the one of its expression. -/
def Misread (t : Term) (names : List String) : Prop :=
  t.Nested ∧ ∃ e, xtExpr t = some e ∧ e.eval (booleans names) ≠ (t.meaning (booleans names)).value

end PVS.Parse
