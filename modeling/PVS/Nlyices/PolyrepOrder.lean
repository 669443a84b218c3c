import Mathlib.Algebra.BigOperators.Finsupp.Basic
import Mathlib.Data.Finsupp.Basic
import PVS.Library.WeightOrder
import PVS.Nlyices.Polyrep

/-! The order of power products: lexicographic in the variables, then by total degree and
lexicographic in the parameters. -/

universe u

namespace PVS.Nlyices

open Library.WeightOrder

variable {α : Type u}

/-! ### Exponents -/

noncomputable def exponents (mu : PP α) : α →₀ ℕ :=
  (mu.map fun m => Finsupp.single m.1 m.2.toNat).sum

@[simp] theorem exponents_nil : exponents ([] : PP α) = 0 := rfl

theorem exponents_cons (m : α × ℤ) (mu : PP α) :
    exponents (m :: mu) = Finsupp.single m.1 m.2.toNat + exponents mu := by
  rw [exponents, List.map_cons, List.sum_cons]
  rfl

theorem exponents_eq_zero {mu : PP α} {x : α} (h : ∀ m ∈ mu, m.1 ≠ x) : exponents mu x = 0 := by
  induction mu with
  | nil => rfl
  | cons m mu ih =>
    rw [List.forall_mem_cons] at h
    rw [exponents_cons, Finsupp.add_apply, Finsupp.single_eq_of_ne (Ne.symm h.1), ih h.2]

theorem mem_params_of_not_mem_vars {O : VarOrder α} {x : α} (hx : x ∈ O.order) (hvars : x ∉ O.vars) :
    x ∈ O.params := (List.mem_append.1 hx).resolve_left hvars

variable [DecidableEq α]

/-! ### The order of variables -/

/-- A power product is sorted and has positive exponents of variables of the order. -/
structure ValidPP (O : VarOrder α) (mu : PP α) : Prop where
  sorted : mu.Pairwise fun m n => polyrepCompareVar O.order m.1 n.1 = some .gt
  positive : ∀ m ∈ mu, 0 < m.2
  ordered : ∀ m ∈ mu, m.1 ∈ O.order

theorem compareInOrder_spec {order : List α} {x y : α} (hx : x ∈ order) (hne : x ≠ y) :
    compareInOrder x y order = some (if order.idxOf x < order.idxOf y then .gt else .lt) := by
  induction order with
  | nil => cases hx
  | cons i order ih =>
    rw [compareInOrder]
    by_cases hxi : x = i
    · subst hxi
      rw [if_pos rfl, List.idxOf_cons_self, List.idxOf_cons_ne order hne, if_pos (Nat.succ_pos _)]
    · rw [if_neg hxi, List.idxOf_cons_ne order (Ne.symm hxi)]
      by_cases hyi : y = i
      · subst hyi
        rw [if_pos rfl, List.idxOf_cons_self, if_neg (by omega)]
      · rw [if_neg hyi, List.idxOf_cons_ne order (Ne.symm hyi),
          ih ((List.mem_cons.1 hx).resolve_left hxi)]
        simp only [Nat.succ_lt_succ_iff]

/-- The three answers of `polyrepCompareVar`. -/
theorem compareVar_cases {order : List α} {x y : α} (hx : x ∈ order) :
    (polyrepCompareVar order x y = some .eq ∧ x = y) ∨
      (polyrepCompareVar order x y = some .gt ∧ order.idxOf x < order.idxOf y) ∨
      (polyrepCompareVar order x y = some .lt ∧ order.idxOf y < order.idxOf x) := by
  rw [polyrepCompareVar]
  by_cases hxy : x = y
  · exact .inl ⟨if_pos hxy, hxy⟩
  · rw [if_neg hxy, compareInOrder_spec hx hxy]
    by_cases hlt : order.idxOf x < order.idxOf y
    · exact .inr (.inl ⟨by rw [if_pos hlt], hlt⟩)
    · have hne : order.idxOf x ≠ order.idxOf y := fun h => hxy ((List.idxOf_inj hx).1 h)
      exact .inr (.inr ⟨by rw [if_neg hlt], by omega⟩)

theorem compareVar_eq_gt {order : List α} {x y : α} (hx : x ∈ order) :
    polyrepCompareVar order x y = some .gt ↔ order.idxOf x < order.idxOf y := by
  rcases compareVar_cases (y := y) hx with ⟨h, rfl⟩ | ⟨h, hlt⟩ | ⟨h, hlt⟩ <;> simp [h] <;> omega

namespace ValidPP

variable {O : VarOrder α} {m : α × ℤ} {mu : PP α}

theorem nil : ValidPP O [] := ⟨.nil, (fun _ h => nomatch h), fun _ h => nomatch h⟩

theorem tail (h : ValidPP O (m :: mu)) : ValidPP O mu :=
  ⟨h.sorted.of_cons, fun n hn => h.positive n (List.mem_cons_of_mem m hn),
    fun n hn => h.ordered n (List.mem_cons_of_mem m hn)⟩

theorem head_pos (h : ValidPP O (m :: mu)) : 0 < m.2 := h.positive m List.mem_cons_self

theorem head_mem (h : ValidPP O (m :: mu)) : m.1 ∈ O.order := h.ordered m List.mem_cons_self

theorem head_lt (h : ValidPP O (m :: mu)) {n : α × ℤ} (hn : n ∈ mu) :
    O.order.idxOf m.1 < O.order.idxOf n.1 :=
  (compareVar_eq_gt h.head_mem).1 (List.rel_of_pairwise_cons h.sorted hn)

theorem cons (hpos : 0 < m.2) (hmem : m.1 ∈ O.order) (hmu : ValidPP O mu)
    (hlt : ∀ n ∈ mu, O.order.idxOf m.1 < O.order.idxOf n.1) : ValidPP O (m :: mu) := by
  refine ⟨List.pairwise_cons.2 ⟨fun n hn => ?_, hmu.sorted⟩, List.forall_mem_cons.2 ⟨hpos, hmu.positive⟩,
    List.forall_mem_cons.2 ⟨hmem, hmu.ordered⟩⟩
  exact (compareVar_eq_gt hmem).2 (hlt n hn)

theorem single (hpos : 0 < m.2) (hmem : m.1 ∈ O.order) : ValidPP O [m] :=
  .cons hpos hmem .nil fun _ hn => nomatch hn

end ValidPP

section Leading

variable {O : VarOrder α} {m : α × ℤ} {mu : PP α}

theorem exponents_head (h : ValidPP O (m :: mu)) : exponents (m :: mu) m.1 = m.2.toNat := by
  have hrest : exponents mu m.1 = 0 := by
    apply exponents_eq_zero
    intro n hn heq
    exact absurd (h.head_lt hn) (by rw [heq]; exact lt_irrefl _)
  rw [exponents_cons, Finsupp.add_apply, Finsupp.single_eq_same, hrest, Nat.add_zero]

theorem exponents_before (h : ValidPP O (m :: mu)) {y : α}
    (hy : O.order.idxOf y < O.order.idxOf m.1) : exponents (m :: mu) y = 0 := by
  apply exponents_eq_zero
  intro n hn heq
  rcases List.mem_cons.1 hn with rfl | hn
  · exact absurd hy (by rw [heq]; exact lt_irrefl _)
  · have hlt := h.head_lt hn
    rw [heq] at hlt
    omega

end Leading

/-! ### Weights -/

noncomputable def degreeIn (params : List α) : (α →₀ ℕ) →+ ℕ :=
  ∑ x ∈ params.toFinset, Finsupp.applyAddHom x

theorem degreeIn_apply (params : List α) (f : α →₀ ℕ) :
    degreeIn params f = ∑ x ∈ params.toFinset, f x := by
  rw [degreeIn, AddMonoidHom.finsetSum_apply]
  rfl

/-- The exponents of the variables, the total degree in the parameters, and their exponents. -/
noncomputable def weights (O : VarOrder α) : List ((α →₀ ℕ) →+ ℕ) :=
  O.vars.map Finsupp.applyAddHom ++ degreeIn O.params :: O.params.map Finsupp.applyAddHom

def LtPP (O : VarOrder α) (a b : α →₀ ℕ) : Prop := LexLt (weights O) a b

theorem idxOf_lt_of_mem_vars {O : VarOrder α} {x : α} (hx : x ∈ O.vars) :
    O.order.idxOf x < O.vars.length := by
  rw [VarOrder.order, List.idxOf_append_of_mem hx]
  exact List.idxOf_lt_length_of_mem hx

theorem le_idxOf_of_not_mem_vars {O : VarOrder α} {x : α} (hx : x ∉ O.vars) :
    O.vars.length ≤ O.order.idxOf x := by
  rw [VarOrder.order, List.idxOf_append_of_notMem hx]
  omega

theorem not_mem_vars_of_lt {O : VarOrder α} {x y : α} (hx : x ∉ O.vars)
    (hlt : O.order.idxOf x < O.order.idxOf y) : y ∉ O.vars := fun hy => by
  have h1 := idxOf_lt_of_mem_vars hy
  have h2 := le_idxOf_of_not_mem_vars hx
  omega

theorem exists_split {l : List α} {x : α} (hx : x ∈ l) :
    ∃ l₁ l₂, l = l₁ ++ x :: l₂ ∧ ∀ y ∈ l₁, l.idxOf y < l.idxOf x := by
  obtain ⟨l₁, l₂, rfl, hnot⟩ := List.eq_append_cons_of_mem hx
  refine ⟨l₁, l₂, rfl, fun y hy => ?_⟩
  rw [List.idxOf_append_of_mem hy, List.idxOf_append_of_notMem hnot, List.idxOf_cons_self]
  exact (List.idxOf_lt_length_of_mem hy).trans_le (Nat.le_add_right _ _)

/-- The greatest variable in which two power products differ decides, when the total degree in the
parameters does not. -/
theorem ltPP_of_leading {O : VarOrder α} {a b : α →₀ ℕ} {x : α} (hx : x ∈ O.order) (hlt : b x < a x)
    (hbefore : ∀ y, O.order.idxOf y < O.order.idxOf x → b y = a y)
    (hdegree : x ∉ O.vars → degreeIn O.params b ≤ degreeIn O.params a) : LtPP O b a := by
  rw [LtPP, weights]
  by_cases hvars : x ∈ O.vars
  · obtain ⟨l₁, l₂, hsplit, hl₁⟩ := exists_split hvars
    rw [hsplit, List.map_append, List.map_cons, List.append_assoc, List.cons_append]
    refine lexLt_append (fun u hu => ?_) hlt
    obtain ⟨y, hy, rfl⟩ := List.mem_map.1 hu
    apply hbefore y
    have hyvars : y ∈ O.vars := by
      rw [hsplit]
      exact List.mem_append_left _ hy
    rw [VarOrder.order, List.idxOf_append_of_mem hyvars, List.idxOf_append_of_mem hvars]
    exact hl₁ y hy
  · have hvarseq : ∀ u ∈ O.vars.map Finsupp.applyAddHom, u b = u a := by
      intro u hu
      obtain ⟨y, hy, rfl⟩ := List.mem_map.1 hu
      exact hbefore y ((idxOf_lt_of_mem_vars hy).trans_le (le_idxOf_of_not_mem_vars hvars))
    rcases (hdegree hvars).lt_or_eq with hlt' | heq
    · exact lexLt_append hvarseq hlt'
    · obtain ⟨l₁, l₂, hsplit, hl₁⟩ := exists_split (mem_params_of_not_mem_vars hx hvars)
      rw [hsplit, List.map_append, List.map_cons, ← List.cons_append, ← List.append_assoc, ← hsplit]
      refine lexLt_append (fun u hu => ?_) hlt
      rcases List.mem_append.1 hu with hu | hu
      · exact hvarseq u hu
      · rcases List.mem_cons.1 hu with rfl | hu
        · exact heq
        · obtain ⟨y, hy, rfl⟩ := List.mem_map.1 hu
          apply hbefore y
          by_cases hyvars : y ∈ O.vars
          · exact (idxOf_lt_of_mem_vars hyvars).trans_le (le_idxOf_of_not_mem_vars hvars)
          · rw [VarOrder.order, List.idxOf_append_of_notMem hyvars, List.idxOf_append_of_notMem hvars]
            exact Nat.add_lt_add_left (hl₁ y hy) _

/-- Where no variable differs, the total degree in the parameters decides. -/
theorem ltPP_of_degree {O : VarOrder α} {a b : α →₀ ℕ} (hvars : ∀ y ∈ O.vars, b y = a y)
    (hlt : degreeIn O.params b < degreeIn O.params a) : LtPP O b a := by
  refine lexLt_append (fun u hu => ?_) hlt
  obtain ⟨y, hy, rfl⟩ := List.mem_map.1 hu
  exact hvars y hy

/-! ### Comparison -/

section Comparison

variable {O : VarOrder α}

theorem params_of_head {m : α × ℤ} {mu : PP α} (h : ValidPP O (m :: mu))
    (hm : parameterp O m.1 = true) : ∀ n ∈ m :: mu, n.1 ∈ O.params ∧ n.1 ∉ O.vars := by
  have hparam : m.1 ∈ O.params := of_decide_eq_true hm
  have hvars : m.1 ∉ O.vars := fun hvars => O.disjoint _ hvars hparam
  intro n hn
  rcases List.mem_cons.1 hn with rfl | hn'
  · exact ⟨hparam, hvars⟩
  · have hnvars := not_mem_vars_of_lt hvars (h.head_lt hn')
    exact ⟨mem_params_of_not_mem_vars (h.ordered n hn) hnvars, hnvars⟩

theorem degreeIn_single {params : List α} {x : α} (hx : x ∈ params) (k : ℕ) :
    degreeIn params (Finsupp.single x k) = k := by
  rw [degreeIn_apply, Finset.sum_eq_single_of_mem x (List.mem_toFinset.2 hx), Finsupp.single_eq_same]
  exact fun y _ hy => Finsupp.single_eq_of_ne hy

theorem degreeIn_exponents {mu : PP α} (hpos : ∀ m ∈ mu, 0 < m.2) (hmem : ∀ m ∈ mu, m.1 ∈ O.params) :
    (degreeIn O.params (exponents mu) : ℤ) = totalDegree mu := by
  induction mu with
  | nil => rw [exponents_nil, map_zero]; rfl
  | cons m mu ih =>
    rw [List.forall_mem_cons] at hpos hmem
    rw [exponents_cons, map_add, degreeIn_single hmem.1, Nat.cast_add, ih hpos.2 hmem.2,
      Int.toNat_of_nonneg hpos.1.le, totalDegree, totalDegree, List.map_cons, List.sum_cons]

theorem degreeIn_of_head {m : α × ℤ} {mu : PP α} (h : ValidPP O (m :: mu))
    (hm : parameterp O m.1 = true) :
    (degreeIn O.params (exponents (m :: mu)) : ℤ) = totalDegree (m :: mu) :=
  degreeIn_exponents h.positive fun n hn => (params_of_head h hm n hn).1

/-- What an answer of `polyrepComparePP` says. -/
def Decides (O : VarOrder α) (mu nu : PP α) : Ordering → Prop
  | .lt => LtPP O (exponents mu) (exponents nu)
  | .gt => LtPP O (exponents nu) (exponents mu)
  | .eq => mu = nu

/-- The head of a power product is before those of another, which is not of greater degree in the
parameters. -/
theorem ltPP_of_head {m : α × ℤ} {mu nu : PP α} (hm : ValidPP O (m :: mu))
    (hnu : ∀ n ∈ nu, O.order.idxOf m.1 < O.order.idxOf n.1)
    (hdegree : m.1 ∉ O.vars → degreeIn O.params (exponents nu) ≤ degreeIn O.params (exponents (m :: mu))) :
    LtPP O (exponents nu) (exponents (m :: mu)) := by
  have hzero : ∀ y, O.order.idxOf y ≤ O.order.idxOf m.1 → exponents nu y = 0 := by
    intro y hy
    apply exponents_eq_zero
    rintro n hn rfl
    exact absurd (hnu n hn) (by omega)
  refine ltPP_of_leading hm.head_mem ?_ (fun y hy => ?_) hdegree
  · rw [hzero _ le_rfl, exponents_head hm]
    exact Int.lt_toNat.2 hm.head_pos
  · rw [hzero y hy.le, exponents_before hm hy]

theorem ltPP_of_exponent {m n : α × ℤ} {mu nu : PP α} (hm : ValidPP O (m :: mu))
    (hn : ValidPP O (n :: nu)) (heq : m.1 = n.1) (hlt : n.2 < m.2)
    (hdegree : m.1 ∉ O.vars →
      degreeIn O.params (exponents (n :: nu)) ≤ degreeIn O.params (exponents (m :: mu))) :
    LtPP O (exponents (n :: nu)) (exponents (m :: mu)) := by
  have hpos := hn.head_pos
  refine ltPP_of_leading hm.head_mem ?_ (fun y hy => ?_) hdegree
  · rw [exponents_head hm, heq, exponents_head hn]
    omega
  · rw [exponents_before hm hy, exponents_before hn (heq ▸ hy)]

theorem ltPP_nil {m : α × ℤ} {mu : PP α} (hm : ValidPP O (m :: mu)) :
    LtPP O (exponents []) (exponents (m :: mu)) :=
  ltPP_of_head hm (fun _ hn => nomatch hn) fun _ => by
    rw [exponents_nil, map_zero]
    exact Nat.zero_le _

theorem Decides.cons {m : α × ℤ} {mu nu : PP α} {r : Ordering} (h : Decides O mu nu r) :
    Decides O (m :: mu) (m :: nu) r := by
  cases r with
  | eq => exact congrArg (List.cons m) h
  | _ =>
    rw [Decides, exponents_cons, exponents_cons]
    exact (lexLt_add_left _).2 h

theorem lt_of_head {n : α × ℤ} {nu : PP α} (hn : ValidPP O (n :: nu)) {x : α}
    (hlt : O.order.idxOf x < O.order.idxOf n.1) : ∀ k ∈ n :: nu, O.order.idxOf x < O.order.idxOf k.1 :=
  List.forall_mem_cons.2 ⟨hlt, fun _ hk => hlt.trans (hn.head_lt hk)⟩

/-- The comparison of the heads, when the degrees in the parameters have not decided. -/
theorem heads_decide {m n : α × ℤ} {mu nu : PP α} (hm : ValidPP O (m :: mu)) (hn : ValidPP O (n :: nu))
    (hdegree : m.1 ∉ O.vars → n.1 ∉ O.vars →
      degreeIn O.params (exponents (m :: mu)) = degreeIn O.params (exponents (n :: nu)))
    (htail : Decides O mu nu (polyrepComparePP O mu nu)) :
    Decides O (m :: mu) (n :: nu)
      (match polyrepCompareVar O.order m.1 n.1 with
      | some .eq =>
        if m.2 = n.2 then polyrepComparePP O mu nu else if n.2 < m.2 then .gt else .lt
      | some .gt => if 0 < m.2 then .gt else .lt
      | _ => if 0 < n.2 then .lt else .gt) := by
  rcases compareVar_cases (y := n.1) hm.head_mem with ⟨h, heq⟩ | ⟨h, hlt⟩ | ⟨h, hlt⟩
  · simp only [h]
    by_cases hexp : m.2 = n.2
    · rw [if_pos hexp]
      obtain rfl : m = n := Prod.ext heq hexp
      exact htail.cons
    · rw [if_neg hexp]
      by_cases hlt : n.2 < m.2
      · rw [if_pos hlt]
        exact ltPP_of_exponent hm hn heq hlt fun hvars => (hdegree hvars (heq ▸ hvars)).ge
      · rw [if_neg hlt]
        exact ltPP_of_exponent hn hm heq.symm (by omega) fun hvars => (hdegree (heq ▸ hvars) hvars).le
  · simp only [h, if_pos hm.head_pos]
    exact ltPP_of_head hm (lt_of_head hn hlt) fun hvars =>
      (hdegree hvars (not_mem_vars_of_lt hvars hlt)).ge
  · simp only [h, if_pos hn.head_pos]
    exact ltPP_of_head hn (lt_of_head hm hlt) fun hvars =>
      (hdegree (not_mem_vars_of_lt hvars hlt) hvars).le

theorem comparePP_decides {mu nu : PP α} (hmu : ValidPP O mu) (hnu : ValidPP O nu) :
    Decides O mu nu (polyrepComparePP O mu nu) := by
  induction mu generalizing nu with
  | nil =>
    cases nu with
    | nil => rw [polyrepComparePP]; rfl
    | cons n nu =>
      rw [polyrepComparePP, if_pos hnu.head_pos]
      exact ltPP_nil hnu
  | cons m mu ih =>
    cases nu with
    | nil =>
      rw [polyrepComparePP, if_pos hmu.head_pos]
      exact ltPP_nil hmu
    | cons n nu =>
      rw [polyrepComparePP]
      by_cases hparams : parameterp O m.1 = true ∧ parameterp O n.1 = true
      · have hm := degreeIn_of_head hmu hparams.1
        have hn := degreeIn_of_head hnu hparams.2
        have hvars : ∀ y ∈ O.vars, exponents (m :: mu) y = exponents (n :: nu) y := fun y hy => by
          rw [exponents_eq_zero fun k hk heq => (params_of_head hmu hparams.1 k hk).2 (heq ▸ hy),
            exponents_eq_zero fun k hk heq => (params_of_head hnu hparams.2 k hk).2 (heq ▸ hy)]
        simp only [hparams.1, hparams.2, Bool.true_and, decide_eq_true_eq]
        by_cases hgt : totalDegree (n :: nu) < totalDegree (m :: mu)
        · rw [if_pos hgt]
          exact ltPP_of_degree (fun y hy => (hvars y hy).symm) (by omega)
        · rw [if_neg hgt]
          by_cases hlt : totalDegree (m :: mu) < totalDegree (n :: nu)
          · rw [if_pos hlt]
            exact ltPP_of_degree hvars (by omega)
          · rw [if_neg hlt]
            exact heads_decide hmu hnu (fun _ _ => by omega) (ih hmu.tail hnu.tail)
      · have hboth : (parameterp O m.1 && parameterp O n.1) = false :=
          Bool.eq_false_iff.2 fun h => hparams (Bool.and_eq_true_iff.1 h)
        simp only [hboth, Bool.false_and, Bool.false_eq_true, if_false]
        refine heads_decide hmu hnu (fun hm hn => absurd ⟨?_, ?_⟩ hparams) (ih hmu.tail hnu.tail)
        · exact decide_eq_true (mem_params_of_not_mem_vars hmu.head_mem hm)
        · exact decide_eq_true (mem_params_of_not_mem_vars hnu.head_mem hn)

theorem Decides.unique {mu nu : PP α} {r r' : Ordering} (h : Decides O mu nu r)
    (h' : Decides O mu nu r') : r = r' := by
  have hirrefl : ∀ {mu nu : PP α}, mu = nu → ¬ LtPP O (exponents mu) (exponents nu) := by
    rintro mu _ rfl
    exact LexLt.irrefl _ _
  cases r with
  | lt =>
    cases r' with
    | lt => rfl
    | gt => exact absurd h' h.asymm
    | eq => exact absurd h (hirrefl h')
  | gt =>
    cases r' with
    | gt => rfl
    | lt => exact absurd h' h.asymm
    | eq => exact absurd h (hirrefl (Eq.symm h'))
  | eq =>
    cases r' with
    | eq => rfl
    | lt => exact absurd h' (hirrefl h)
    | gt => exact absurd h' (hirrefl (Eq.symm h))

/-- `polyrepComparePP` orders power products by their weights. -/
theorem comparePP_eq_iff {mu nu : PP α} (hmu : ValidPP O mu) (hnu : ValidPP O nu) {r : Ordering} :
    polyrepComparePP O mu nu = r ↔ Decides O mu nu r := by
  constructor
  · rintro rfl
    exact comparePP_decides hmu hnu
  · exact (comparePP_decides hmu hnu).unique

/-- Power products with the same exponents are equal. -/
theorem exponents_injective {mu nu : PP α} (hmu : ValidPP O mu) (hnu : ValidPP O nu)
    (heq : exponents mu = exponents nu) : mu = nu := by
  have hdecides := comparePP_decides hmu hnu
  cases hcompare : polyrepComparePP O mu nu with
  | eq => rwa [hcompare] at hdecides
  | _ =>
    rw [hcompare, Decides, heq] at hdecides
    exact absurd hdecides (LexLt.irrefl _ _)

end Comparison

end PVS.Nlyices
