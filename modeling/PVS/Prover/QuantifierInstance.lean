import PVS.Prover.QuantifierStep

/-! What an instantiation of one quantifier gives, and where it puts this in the sequent -/

namespace PVS.Quantifiers

open Library.Dependent

variable {ν κ τ : Type}

attribute [local simp] subBoundvars idBoundvars

section Bindings

variable {α : Type}

@[simp] theorem subBoundvars_nil (terms : List (Option α)) :
    subBoundvars (.nil : Bindings ν κ τ) terms = [] := by
  simp [subBoundvars]

@[simp] theorem idBoundvars_nil (terms : List (Option α)) :
    idBoundvars (.nil : Bindings ν κ τ) terms = .nil := by
  simp [idBoundvars]

theorem mem_bound_idBoundvars {bs : Bindings ν κ τ} {terms : List (Option α)} {x : ν}
    (h : x ∈ bound (idBoundvars bs terms)) : x ∈ bound bs := by
  induction bs using bindings_induction generalizing terms with
  | nil => simp at h
  | cons y type rest ih =>
    match terms with
    | [] => simp [idBoundvars] at h
    | none :: terms =>
      simp only [idBoundvars, bound_cons, List.mem_cons] at h ⊢
      exact h.imp_right ih
    | some t :: terms =>
      simp only [idBoundvars, bound_cons, List.mem_cons] at h ⊢
      exact .inr (ih h)

theorem mem_bound_subBoundvars {bs : Bindings ν κ τ} {terms : List (Option α)}
    {s : ν × TypeExpr ν κ τ × α} (h : s ∈ subBoundvars bs terms) : s.1 ∈ bound bs := by
  induction bs using bindings_induction generalizing terms with
  | nil => simp at h
  | cons y type rest ih =>
    match terms with
    | [] => simp [subBoundvars] at h
    | none :: terms =>
      simp only [subBoundvars, bound_cons, List.mem_cons] at h ⊢
      exact .inr (ih h)
    | some t :: terms =>
      simp only [subBoundvars, bound_cons, List.mem_cons] at h ⊢
      obtain rfl | h := h
      · exact .inl rfl
      · exact .inr (ih h)

theorem bound_cases {α : Type} {bs : Bindings ν κ τ} {terms : List (Option α)} {x : ν}
    (h : (bound bs).length = terms.length) (hx : x ∈ bound bs) :
    x ∈ bound (idBoundvars bs terms) ∨ x ∈ (subBoundvars bs terms).map Prod.fst := by
  induction bs using bindings_induction generalizing terms with
  | nil => simp at hx
  | cons y type rest ih =>
    match terms with
    | [] => simp at h
    | none :: terms =>
      simp only [bound_cons, List.length_cons, Nat.add_right_cancel_iff, List.mem_cons] at h hx
      simp only [idBoundvars, subBoundvars, bound_cons, List.mem_cons]
      obtain hx | hx := hx
      · exact .inl (.inl hx)
      · exact (ih h hx).imp_left .inr
    | some t :: terms =>
      simp only [bound_cons, List.length_cons, Nat.add_right_cancel_iff, List.mem_cons] at h hx
      simp only [idBoundvars, subBoundvars, List.map_cons, List.mem_cons]
      obtain hx | hx := hx
      · exact .inr (.inl hx)
      · exact (ih h hx).imp_right .inr

/-- Where as many are kept as there are, all are. -/
theorem idBoundvars_of_length {bs : Bindings ν κ τ} {terms : List (Option α)}
    (h : (bound bs).length = terms.length) :
    (bound (idBoundvars bs terms)).length + (subBoundvars bs terms).length = (bound bs).length ∧
      (subBoundvars bs terms = [] → idBoundvars bs terms = bs) := by
  induction bs using bindings_induction generalizing terms with
  | nil => simp
  | cons y type rest ih =>
    match terms with
    | [] => simp at h
    | none :: terms =>
      simp only [bound_cons, List.length_cons, Nat.add_right_cancel_iff] at h
      obtain ⟨hlen, hall⟩ := ih h
      simp only [idBoundvars, subBoundvars, bound_cons, List.length_cons]
      exact ⟨by omega, fun hsub => by rw [hall hsub]⟩
    | some t :: terms =>
      simp only [bound_cons, List.length_cons, Nat.add_right_cancel_iff] at h
      obtain ⟨hlen, -⟩ := ih h
      simp only [idBoundvars, subBoundvars, bound_cons, List.length_cons]
      exact ⟨by omega, nofun⟩

end Bindings

variable [DecidableEq ν]

section Substit

variable {α : Type} {σ : Subst ν κ τ}

def substitType (σ : Subst ν κ τ) (s : ν × TypeExpr ν κ τ × α) : ν × TypeExpr ν κ τ × α :=
  (s.1, substit σ s.2.1, s.2.2)

theorem without_head {x : ν} {type : TypeExpr ν κ τ} {rest : Bindings ν κ τ}
    (h : ∀ y ∈ bound (.cons x type rest), σ y = none) :
    σ.without [x] = σ ∧ ∀ y ∈ bound rest, σ y = none := by
  rw [bound_cons, List.forall_mem_cons] at h
  exact ⟨Subst.without_of_disjoint (by simpa using h.1), h.2⟩

theorem subBoundvars_substit {bs : Bindings ν κ τ} {terms : List (Option α)}
    (h : ∀ x ∈ bound bs, σ x = none) :
    subBoundvars (substit σ bs) terms = (subBoundvars bs terms).map (substitType σ) := by
  induction bs using bindings_induction generalizing terms with
  | nil => simp [substit]
  | cons x type rest ih =>
    obtain ⟨hx, hrest⟩ := without_head h
    match terms with
    | [] => simp [substit, subBoundvars]
    | none :: terms => simp only [substit, subBoundvars, hx, ih hrest]
    | some t :: terms => simp only [substit, subBoundvars, hx, ih hrest, List.map_cons, substitType]

theorem idBoundvars_substit {bs : Bindings ν κ τ} {terms : List (Option α)}
    (h : ∀ x ∈ bound bs, σ x = none) :
    idBoundvars (substit σ bs) terms = substit σ (idBoundvars bs terms) := by
  induction bs using bindings_induction generalizing terms with
  | nil => simp [substit]
  | cons x type rest ih =>
    obtain ⟨hx, hrest⟩ := without_head h
    match terms with
    | [] => simp [substit, idBoundvars]
    | none :: terms => simp only [substit, idBoundvars, hx, ih hrest]
    | some t :: terms => simp only [substit, idBoundvars, hx, ih hrest]

theorem newexpr_substit {q : Quantifier} {ids : Bindings ν κ τ} {expression : Expr ν κ τ}
    (h : ∀ x ∈ bound ids, σ x = none) :
    newexpr q (substit σ ids) (substit σ expression) = substit σ (newexpr q ids expression) := by
  rw [newexpr, newexpr, bound_substit]
  split
  · rfl
  · rw [substit, Subst.without_of_disjoint h]

theorem overlap_eq_nil {sub : List (ν × TypeExpr ν κ τ × α)} {ids : Bindings ν κ τ} :
    overlap sub ids = [] ↔ ∀ s ∈ sub, ∀ y ∈ freevars s.2.1, y ∉ bound ids := by
  simp only [overlap, List.filter_eq_nil_iff, List.mem_flatMap, decide_eq_true_eq]
  exact ⟨fun h s hs y hy => h y ⟨s, hs, hy⟩, fun h y ⟨s, hs, hy⟩ => h s hs y hy⟩

theorem overlap_substit {sub : List (ν × TypeExpr ν κ τ × α)} {ids : Bindings ν κ τ}
    (hclosed : σ.Closed) (h : overlap sub ids = []) :
    overlap (sub.map (substitType σ)) (substit σ ids) = [] := by
  rw [overlap_eq_nil] at h ⊢
  rw [List.forall_mem_map]
  intro s hs y hy
  rw [bound_substit]
  exact h s hs y (freevars_substit hclosed hy).1

end Substit

/-- A type mentions variables that are free, that are replaced before it, or that are kept. -/
theorem freevars_subBoundvars {α : Type} {bs : Bindings ν κ τ} {terms : List (Option α)}
    {before after : List (ν × TypeExpr ν κ τ × α)} {s : ν × TypeExpr ν κ τ × α} {y : ν}
    (h : subBoundvars bs terms = before ++ s :: after) (hy : y ∈ freevars s.2.1) :
    y ∈ freevars bs ∨ y ∈ before.map Prod.fst ∨ y ∈ bound (idBoundvars bs terms) := by
  induction bs using bindings_induction generalizing terms before with
  | nil => simp at h
  | cons x type rest ih =>
    have hfree : y ∈ freevars rest → y ∈ freevars (.cons x type rest) ∨ y = x := by
      intro hy
      by_cases hyx : y = x
      · exact .inr hyx
      · exact .inl (by simp [freevars, hy, hyx])
    match terms with
    | [] => simp [subBoundvars] at h
    | none :: terms =>
      rw [subBoundvars] at h
      simp only [idBoundvars, bound_cons, List.mem_cons]
      obtain hy | hy | hy := ih h
      · exact (hfree hy).imp_right fun hyx => .inr (.inl hyx)
      · exact .inr (.inl hy)
      · exact .inr (.inr (.inr hy))
    | some t :: terms =>
      rw [subBoundvars] at h
      simp only [idBoundvars]
      cases before with
      | nil =>
        rw [List.nil_append, List.cons.injEq] at h
        obtain ⟨rfl, -⟩ := h
        exact .inl (by simp [freevars, hy])
      | cons s' before =>
        rw [List.cons_append, List.cons.injEq] at h
        simp only [← h.1, List.map_cons, List.mem_cons]
        obtain hy | hy | hy := ih h.2
        · exact (hfree hy).imp_right fun hyx => .inl (.inl hyx)
        · exact .inr (.inl (.inr hy))
        · exact .inr (.inr hy)

/-! ### Positions in a sequent -/

/-- The numbers of the formulas of a sequent -/
def numbers : List (Expr ν κ τ) → Int → Int → List Int
  | [], _, _ => []
  | sform :: rest, pos, neg =>
    if isNegation sform then neg :: numbers rest pos (neg - 1) else pos :: numbers rest (pos + 1) neg

def consequents (sforms : List (Expr ν κ τ)) : Nat := sforms.countP (!isNegation ·)

def antecedents (sforms : List (Expr ν κ τ)) : Nat := sforms.countP isNegation

omit [DecidableEq ν] in
theorem mem_numbers {sforms : List (Expr ν κ τ)} {pos neg n : Int} (h : n ∈ numbers sforms pos neg) :
    (pos ≤ n ∧ n < pos + consequents sforms) ∨ (n ≤ neg ∧ neg - antecedents sforms < n) := by
  induction sforms generalizing pos neg with
  | nil => simp [numbers] at h
  | cons sform rest ih =>
    rw [numbers] at h
    by_cases hneg : isNegation sform = true
    · simp only [consequents, antecedents, hneg, List.countP_cons, if_true, List.mem_cons,
        Bool.not_true, Bool.false_eq_true, if_false, Nat.add_zero] at h ih ⊢
      obtain rfl | h := h
      · omega
      · have hn := ih h
        omega
    · simp only [consequents, antecedents, hneg, List.countP_cons, if_true, List.mem_cons,
        Bool.not_false, Bool.false_eq_true, if_false, Nat.add_zero] at h ih ⊢
      obtain rfl | h := h
      · omega
      · have hn := ih h
        omega

section Reduce

variable {ω : Type} {simplifier : Expr ν κ τ → ω → Bool × List (Expr ν κ τ) × ω}

omit [DecidableEq ν] in
theorem sformReduce_misses {fnum : Int} {sforms : List (Expr ν κ τ)} {pos neg : Int} {s : ω}
    (h : fnum ∉ numbers sforms pos neg) :
    sformReduce simplifier fnum sforms pos neg s = (false, sforms.filter (!isTrivial ·), s) := by
  induction sforms generalizing pos neg with
  | nil => rfl
  | cons sform rest ih =>
    rw [numbers] at h
    by_cases hneg : isNegation sform = true
    · simp only [hneg, if_true, List.mem_cons, not_or] at h
      simp [sformReduce, hneg, Ne.symm h.1, ih h.2, List.filter_cons]
      split <;> rfl
    · simp only [hneg, Bool.false_eq_true, if_false, List.mem_cons, not_or] at h
      simp [sformReduce, hneg, Ne.symm h.1, ih h.2, List.filter_cons]
      split <;> rfl

/-- Where the number after others is, when counting has reached `pos` and `neg` -/
def fnumFrom (pos neg : Int) (before : List (Expr ν κ τ)) (sign : Bool) : Int :=
  if sign then pos + consequents before else neg - antecedents before

omit [DecidableEq ν] in
theorem notMem_numbers {pos neg : Int} (hpos : 0 < pos) (hneg : neg < 0) (sign : Bool)
    (sforms : List (Expr ν κ τ)) :
    (if sign then pos else neg) ∉ numbers sforms (if sign then pos + 1 else pos)
      (if sign then neg else neg - 1) := by
  intro h
  have hn := mem_numbers h
  cases sign <;> simp at hn <;> omega

omit [DecidableEq ν] in
/-- A formula that is not the one of the number is passed. -/
theorem fnumFrom_cons {pos neg : Int} (hpos : 0 < pos) (hneg : neg < 0) (sform : Expr ν κ τ)
    (before : List (Expr ν κ τ)) (sign : Bool) :
    (if isNegation sform then neg else pos) ≠ fnumFrom pos neg (sform :: before) sign ∧
      fnumFrom pos neg (sform :: before) sign =
        fnumFrom (if isNegation sform then pos else pos + 1)
          (if isNegation sform then neg - 1 else neg) before sign := by
  cases sign <;> cases hsform : isNegation sform <;>
    simp [fnumFrom, consequents, antecedents, hsform] <;> omega

omit [DecidableEq ν] in
theorem sformReduce_from (simplifier : Expr ν κ τ → ω → Bool × List (Expr ν κ τ) × ω)
    (before after : List (Expr ν κ τ)) {sform : Expr ν κ τ} {sign : Bool} (hsign : isNegation sform = !sign) {pos neg : Int} (hpos : 0 < pos) (hneg : neg < 0) (s : ω) :
    sformReduce simplifier (fnumFrom pos neg before sign) (before ++ sform :: after) pos neg s =
      ((simplifier sform s).1,
        before.filter (!isTrivial ·) ++ ((simplifier sform s).2.1.filter (!isTrivial ·) ++
          after.filter (!isTrivial ·)), (simplifier sform s).2.2) := by
  induction before generalizing pos neg with
  | nil =>
    have hselect : fnumFrom pos neg ([] : List (Expr ν κ τ)) sign = if sign then pos else neg := by
      cases sign <;> simp [fnumFrom, consequents, antecedents]
    have hmiss := notMem_numbers hpos hneg sign after
    simp only [List.nil_append, sformReduce, hselect, hsign, Bool.not_not, if_true,
      List.filter_nil, sformReduce_misses hmiss, Bool.or_false]
  | cons x before ih =>
    obtain ⟨hne, heq⟩ := fnumFrom_cons hpos hneg x before sign
    simp only [List.cons_append, sformReduce]
    rw [if_neg (by cases hx : isNegation x <;> simpa [hx] using hne), heq]
    cases hx : isNegation x with
    | true =>
      simp [ih hpos (show neg - 1 < 0 by omega), List.filter_cons]
      split <;> rfl
    | false =>
      simp [ih (show 0 < pos + 1 by omega) hneg, List.filter_cons]
      split <;> rfl

omit [DecidableEq ν] in
theorem findSform_from (pred : Expr ν κ τ → Bool) (before after : List (Expr ν κ τ))
    {sform : Expr ν κ τ} {sign : Bool} (hsign : isNegation sform = !sign) {pos neg : Int} (hpos : 0 < pos)
    (hneg : neg < 0) (hpred : pred sform = true) :
    findSform pred (fnumFrom pos neg before sign) (before ++ sform :: after) pos neg = true := by
  induction before generalizing pos neg with
  | nil =>
    cases sign <;> simp [findSform, fnumFrom, consequents, antecedents, hsign, hpred]
  | cons x before ih =>
    have heq := (fnumFrom_cons hpos hneg x before sign).2
    rw [List.cons_append, findSform, heq]
    cases hx : isNegation x with
    | true => simp [ih hpos (show neg - 1 < 0 by omega)]
    | false => simp [ih (show 0 < pos + 1 by omega) hneg]

omit [DecidableEq ν] in
theorem deleteSeq_misses {fnum : Int} {sforms : List (Expr ν κ τ)} {pos neg : Int}
    (h : fnum ∉ numbers sforms pos neg) : deleteSeq fnum sforms pos neg = sforms := by
  induction sforms generalizing pos neg with
  | nil => rfl
  | cons sform rest ih =>
    rw [numbers] at h
    cases hneg : isNegation sform with
    | true =>
      simp only [hneg, if_true, List.mem_cons, not_or] at h
      simp [deleteSeq, hneg, Ne.symm h.1, ih h.2]
    | false =>
      simp only [hneg, Bool.false_eq_true, if_false, List.mem_cons, not_or] at h
      simp [deleteSeq, hneg, Ne.symm h.1, ih h.2]

omit [DecidableEq ν] in
theorem deleteSeq_from (before after : List (Expr ν κ τ)) {sform : Expr ν κ τ} {sign : Bool}
    (hsign : isNegation sform = !sign) {pos neg : Int} (hpos : 0 < pos) (hneg : neg < 0) :
    deleteSeq (fnumFrom pos neg before sign) (before ++ sform :: after) pos neg =
      before ++ after := by
  induction before generalizing pos neg with
  | nil =>
    have hselect : fnumFrom pos neg ([] : List (Expr ν κ τ)) sign = if sign then pos else neg := by
      cases sign <;> simp [fnumFrom, consequents, antecedents]
    have hmiss := deleteSeq_misses (notMem_numbers hpos hneg sign after)
    rw [List.nil_append, hselect]
    cases sign <;> simpa [deleteSeq, hsign] using hmiss
  | cons x before ih =>
    obtain ⟨hne, heq⟩ := fnumFrom_cons hpos hneg x before sign
    rw [List.cons_append, deleteSeq, heq]
    rw [heq] at hne
    cases hx : isNegation x with
    | true =>
      simp only [hx, if_true] at hne ⊢
      rw [if_neg hne, ih hpos (show neg - 1 < 0 by omega), List.cons_append]
    | false =>
      simp only [hx, Bool.false_eq_true, if_false] at hne ⊢
      rw [if_neg hne, ih (show 0 < pos + 1 by omega) hneg, List.cons_append]

omit [DecidableEq ν] in
theorem findSform_split {pred : Expr ν κ τ → Bool} {fnum : Int} {sforms : List (Expr ν κ τ)}
    {pos neg : Int} (h : findSform pred fnum sforms pos neg = true) :
    ∃ before sform after sign, sforms = before ++ sform :: after ∧ isNegation sform = !sign ∧
      fnum = fnumFrom pos neg before sign ∧ pred sform = true := by
  induction sforms generalizing pos neg with
  | nil => exact nomatch h
  | cons x rest ih =>
    have hskip {pos' neg' : Int} (h : findSform pred fnum rest pos' neg' = true)
        (hnext : ∀ before sign, fnumFrom pos neg (x :: before) sign = fnumFrom pos' neg' before sign) :
        ∃ before sform after sign, x :: rest = before ++ sform :: after ∧
          isNegation sform = !sign ∧ fnum = fnumFrom pos neg before sign ∧ pred sform = true := by
      obtain ⟨before, sform, after, sign, rfl, hsign, hfnum, hpred⟩ := ih h
      exact ⟨x :: before, sform, after, sign, rfl, hsign, by rw [hfnum, hnext], hpred⟩
    rw [findSform] at h
    cases hx : isNegation x with
    | true =>
      simp only [hx, if_true, Bool.or_eq_true, Bool.and_eq_true, decide_eq_true_eq] at h
      obtain ⟨hneg, hpred⟩ | h := h
      · exact ⟨[], x, rest, false, rfl, hx, by simp [fnumFrom, antecedents, hneg], hpred⟩
      · refine hskip h fun before sign => ?_
        cases sign <;> simp [fnumFrom, consequents, antecedents, hx]
        omega
    | false =>
      simp only [hx, Bool.false_eq_true, if_false, Bool.or_eq_true, Bool.and_eq_true,
        decide_eq_true_eq] at h
      obtain ⟨hpos, hpred⟩ | h := h
      · exact ⟨[], x, rest, true, rfl, hx, by simp [fnumFrom, consequents, hpos], hpred⟩
      · refine hskip h fun before sign => ?_
        cases sign <;> simp [fnumFrom, consequents, antecedents, hx]
        omega

end Reduce

/-! ### Formulas of a sequent -/

/-- The quantifier that is instantiated in consequents, and the one in antecedents -/
def levelQuantifier (sign : Bool) : Quantifier := if sign then .exist else .forAll

section Signed

variable {sign : Bool} {q : Quantifier} {bs : Bindings ν κ τ} {e : Expr ν κ τ}

omit [DecidableEq ν] in
@[simp] theorem body_signed : body (signed sign (.quant q bs e)) = (sign, .quant q bs e) := by
  cases sign <;> simp [signed, negate, body]

omit [DecidableEq ν] in
@[simp] theorem isNegation_signed : isNegation (signed sign (.quant q bs e)) = !sign := by
  cases sign <;> simp [signed, negate, isNegation]

omit [DecidableEq ν] in
@[simp] theorem isTrivial_signed : isTrivial (signed sign (.quant q bs e)) = false := by
  cases sign <;> simp [signed, negate, isTrivial]

omit [DecidableEq ν] in
@[simp] theorem instantiable_levelQuantifier :
    instantiable sign (.quant (levelQuantifier sign) bs e) = some bs := by
  cases sign <;> simp [levelQuantifier, instantiable]

omit [DecidableEq ν] in
theorem isFalse_iff {f : Expr ν κ τ} : isFalse f = true ↔ f = .truth false := by
  cases f <;> simp [isFalse]

end Signed

theorem mem_of_lookup {subst : Alist ν κ τ} {x : ν} {t : Expr ν κ τ} (h : subst.lookup x = some t) : (x, t) ∈ subst := by
  obtain ⟨l, l', rfl, -⟩ := List.lookup_eq_some_iff.1 h
  simp

end PVS.Quantifiers
