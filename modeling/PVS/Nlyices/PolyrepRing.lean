import Mathlib.Algebra.MvPolynomial.Basic
import Mathlib.Algebra.MvPolynomial.Derivation
import PVS.Nlyices.PolyrepOrder

/-! Addition and multiplication of polynomials keep their form and denote the operations of the
polynomial ring. -/

universe u

namespace PVS.Nlyices

open Library.WeightOrder MvPolynomial

variable {α : Type u}

/-- The polynomial that is meant. -/
noncomputable def denote (p : Poly α) : MvPolynomial α ℚ :=
  (p.map fun m => monomial (exponents m.2) m.1).sum

@[simp] theorem denote_nil : denote ([] : Poly α) = 0 := rfl

theorem denote_cons (m : Mono α) (p : Poly α) :
    denote (m :: p) = monomial (exponents m.2) m.1 + denote p := by
  rw [denote, List.map_cons, List.sum_cons]
  rfl

theorem denote_scale (c : ℚ) (p : Poly α) : denote (p.map fun m => (c * m.1, m.2)) = C c * denote p := by
  induction p with
  | nil => rw [List.map_nil, denote_nil, mul_zero]
  | cons m p ih => rw [List.map_cons, denote_cons, denote_cons, ih, mul_add, C_mul_monomial]

variable [DecidableEq α]

/-! ### Power products -/

section PowerProducts

variable {O : VarOrder α}

theorem multiplyPP_nil_right (s : PP α) : polyrepMultiplyPP O s [] = s := by
  cases s <;> simp [polyrepMultiplyPP]

theorem multiplyPP_cons (m n : α × ℤ) (s t : PP α) : polyrepMultiplyPP O (m :: s) (n :: t) =
    match polyrepCompareVar O.order m.1 n.1 with
    | some .eq => if m.2 + n.2 = 0 then polyrepMultiplyPP O s t
      else (m.1, m.2 + n.2) :: polyrepMultiplyPP O s t
    | some .gt => m :: polyrepMultiplyPP O s (n :: t)
    | _ => n :: polyrepMultiplyPP O (m :: s) t := by
  rw [polyrepMultiplyPP] <;> rfl

/-- What multiplication makes of two power products. -/
structure MultipliedPP (O : VarOrder α) (s t r : PP α) : Prop where
  valid : ValidPP O r
  vars : ∀ P : α → Prop, (∀ m ∈ s, P m.1) → (∀ n ∈ t, P n.1) → ∀ k ∈ r, P k.1
  exponents : exponents r = exponents s + exponents t

theorem multiplyPP_spec {s t : PP α} (hs : ValidPP O s) (ht : ValidPP O t) :
    MultipliedPP O s t (polyrepMultiplyPP O s t) := by
  induction s generalizing t with
  | nil =>
    rw [polyrepMultiplyPP]
    exact ⟨ht, fun P _ h => h, (zero_add _).symm⟩
  | cons m s ihs =>
    induction t with
    | nil =>
      rw [multiplyPP_nil_right]
      exact ⟨hs, fun P h _ => h, (add_zero _).symm⟩
    | cons n t iht =>
      have hm := hs.head_pos
      have hn := ht.head_pos
      rw [multiplyPP_cons]
      rcases compareVar_cases (y := n.1) hs.head_mem with ⟨h, heq⟩ | ⟨h, hlt⟩ | ⟨h, hlt⟩
      · simp only [h]
        rw [if_neg (by omega)]
        have hrest := ihs hs.tail ht.tail
        constructor
        · refine .cons (by simp only; omega) hs.head_mem hrest.valid
            (hrest.vars (fun x => O.order.idxOf m.1 < O.order.idxOf x) ?_ ?_)
          · exact fun k hk => hs.head_lt hk
          · exact fun k hk => heq ▸ ht.head_lt hk
        · intro P hP hP'
          rw [List.forall_mem_cons] at hP hP' ⊢
          exact ⟨hP.1, hrest.vars P hP.2 hP'.2⟩
        · rw [exponents_cons, exponents_cons, exponents_cons, hrest.exponents, ← heq,
            Int.toNat_add hm.le hn.le, Finsupp.single_add]
          exact add_add_add_comm _ _ _ _
      · simp only [h]
        have hrest := ihs hs.tail ht
        constructor
        · exact .cons hm hs.head_mem hrest.valid
            (hrest.vars (fun x => O.order.idxOf m.1 < O.order.idxOf x) (fun k hk => hs.head_lt hk)
              (lt_of_head ht hlt))
        · intro P hP hP'
          rw [List.forall_mem_cons] at hP ⊢
          exact ⟨hP.1, hrest.vars P hP.2 hP'⟩
        · rw [exponents_cons, hrest.exponents, exponents_cons m, add_assoc]
      · simp only [h]
        have hrest := iht ht.tail
        constructor
        · exact .cons hn ht.head_mem hrest.valid
            (hrest.vars (fun x => O.order.idxOf n.1 < O.order.idxOf x) (lt_of_head hs hlt)
              fun k hk => ht.head_lt hk)
        · intro P hP hP'
          rw [List.forall_mem_cons] at hP' ⊢
          exact ⟨hP'.1, hrest.vars P hP hP'.2⟩
        · rw [exponents_cons, hrest.exponents, exponents_cons n, add_left_comm]

/-- Multiplication by a power product keeps the order. -/
theorem comparePP_multiplyPP {s t u : PP α} (hs : ValidPP O s) (ht : ValidPP O t) (hu : ValidPP O u) :
    polyrepComparePP O (polyrepMultiplyPP O u s) (polyrepMultiplyPP O u t) =
      polyrepComparePP O s t := by
  have hus := multiplyPP_spec hu hs
  have hut := multiplyPP_spec hu ht
  have hdecides := comparePP_decides hs ht
  rw [comparePP_eq_iff hus.valid hut.valid]
  cases hcompare : polyrepComparePP O s t with
  | eq =>
    rw [hcompare] at hdecides
    exact congrArg _ hdecides
  | _ =>
    rw [hcompare] at hdecides
    rw [Decides, hus.exponents, hut.exponents]
    exact (lexLt_add_left _).2 hdecides

end PowerProducts

/-! ### Polynomials -/

/-- The monomials decrease, and have non-zero coefficients. -/
structure Valid (O : VarOrder α) (p : Poly α) : Prop where
  decreasing : p.Pairwise fun m n => polyrepComparePP O m.2 n.2 = .gt
  nonzero : ∀ m ∈ p, m.1 ≠ 0
  powers : ∀ m ∈ p, ValidPP O m.2

section Polynomials

variable {O : VarOrder α}

namespace Valid

variable {m : Mono α} {p : Poly α}

theorem nil : Valid O ([] : Poly α) := ⟨.nil, (fun _ h => nomatch h), fun _ h => nomatch h⟩

theorem tail (h : Valid O (m :: p)) : Valid O p :=
  ⟨h.decreasing.of_cons, fun n hn => h.nonzero n (List.mem_cons_of_mem m hn),
    fun n hn => h.powers n (List.mem_cons_of_mem m hn)⟩

theorem head_ne (h : Valid O (m :: p)) : m.1 ≠ 0 := h.nonzero m List.mem_cons_self

theorem head_valid (h : Valid O (m :: p)) : ValidPP O m.2 := h.powers m List.mem_cons_self

theorem head_gt (h : Valid O (m :: p)) {n : Mono α} (hn : n ∈ p) :
    LtPP O (exponents n.2) (exponents m.2) :=
  (comparePP_eq_iff h.head_valid (h.powers n (List.mem_cons_of_mem m hn))).1
    (List.rel_of_pairwise_cons h.decreasing hn)

theorem cons (hne : m.1 ≠ 0) (hvalid : ValidPP O m.2) (hp : Valid O p)
    (hgt : ∀ n ∈ p, LtPP O (exponents n.2) (exponents m.2)) : Valid O (m :: p) := by
  refine ⟨List.pairwise_cons.2 ⟨fun n hn => ?_, hp.decreasing⟩, List.forall_mem_cons.2 ⟨hne, hp.nonzero⟩,
    List.forall_mem_cons.2 ⟨hvalid, hp.powers⟩⟩
  exact (comparePP_eq_iff hvalid (hp.powers n hn)).2 (hgt n hn)

theorem single (hne : m.1 ≠ 0) (hvalid : ValidPP O m.2) : Valid O [m] :=
  .cons hne hvalid .nil fun _ hn => nomatch hn

end Valid

/-! ### Addition -/

theorem addPoly'_nil_left (q r : Poly α) : polyrepAddPoly' O [] q r = r.reverse ++ q := by
  rw [polyrepAddPoly']

theorem addPoly'_nil_right (p r : Poly α) : polyrepAddPoly' O p [] r = r.reverse ++ p := by
  cases p <;> simp [polyrepAddPoly']

theorem addPoly'_cons (m n : Mono α) (p q r : Poly α) : polyrepAddPoly' O (m :: p) (n :: q) r =
    match polyrepComparePP O m.2 n.2 with
    | .lt => polyrepAddPoly' O (m :: p) q (n :: r)
    | .gt => polyrepAddPoly' O p (n :: q) (m :: r)
    | .eq => polyrepAddPoly' O p q (if m.1 + n.1 = 0 then r else (m.1 + n.1, m.2) :: r) := by
  rw [polyrepAddPoly'] <;> rfl

/-- The accumulator holds the first monomials of the sum. -/
theorem addPoly'_eq (p q r : Poly α) : polyrepAddPoly' O p q r = r.reverse ++ polyrepAddPoly O p q := by
  rw [polyrepAddPoly]
  induction p generalizing q r with
  | nil => rw [addPoly'_nil_left, addPoly'_nil_left]; rfl
  | cons m p ihp =>
    induction q generalizing r with
    | nil => rw [addPoly'_nil_right, addPoly'_nil_right]; rfl
    | cons n q ihq =>
      rw [addPoly'_cons, addPoly'_cons]
      cases polyrepComparePP O m.2 n.2 with
      | lt =>
        simp only
        rw [ihq (n :: r), ihq [n], List.reverse_cons, List.append_assoc]
        rfl
      | gt =>
        simp only
        rw [ihp _ (m :: r), ihp _ [m], List.reverse_cons, List.append_assoc]
        rfl
      | eq =>
        simp only
        by_cases hzero : m.1 + n.1 = 0
        · rw [if_pos hzero, if_pos hzero, ihp]
        · rw [if_neg hzero, if_neg hzero, ihp, ihp _ [_], List.reverse_cons, List.append_assoc]
          rfl

theorem addPoly_nil_left (q : Poly α) : polyrepAddPoly O [] q = q := addPoly'_nil_left q []

theorem addPoly_nil_right (p : Poly α) : polyrepAddPoly O p [] = p := addPoly'_nil_right p []

theorem addPoly_cons (m n : Mono α) (p q : Poly α) : polyrepAddPoly O (m :: p) (n :: q) =
    match polyrepComparePP O m.2 n.2 with
    | .lt => n :: polyrepAddPoly O (m :: p) q
    | .gt => m :: polyrepAddPoly O p (n :: q)
    | .eq => if m.1 + n.1 = 0 then polyrepAddPoly O p q
      else (m.1 + n.1, m.2) :: polyrepAddPoly O p q := by
  rw [polyrepAddPoly, addPoly'_cons]
  cases polyrepComparePP O m.2 n.2 with
  | eq =>
    simp only
    rw [addPoly'_eq]
    by_cases hzero : m.1 + n.1 = 0
    · rw [if_pos hzero, if_pos hzero]; rfl
    · rw [if_neg hzero, if_neg hzero]; rfl
  | _ => exact addPoly'_eq _ _ _

/-- What addition makes of two polynomials. -/
structure Added (O : VarOrder α) (p q r : Poly α) : Prop where
  valid : Valid O r
  powers : ∀ P : PP α → Prop, (∀ m ∈ p, P m.2) → (∀ n ∈ q, P n.2) → ∀ k ∈ r, P k.2
  denote : denote r = denote p + denote q

theorem addPoly_spec {p q : Poly α} (hp : Valid O p) (hq : Valid O q) :
    Added O p q (polyrepAddPoly O p q) := by
  induction p generalizing q with
  | nil =>
    rw [addPoly_nil_left]
    exact ⟨hq, fun P _ h => h, (zero_add _).symm⟩
  | cons m p ihp =>
    induction q with
    | nil =>
      rw [addPoly_nil_right]
      exact ⟨hp, fun P h _ => h, (add_zero _).symm⟩
    | cons n q ihq =>
      have hdecides := comparePP_decides hp.head_valid hq.head_valid
      rw [addPoly_cons]
      cases hcompare : polyrepComparePP O m.2 n.2 with
      | lt =>
        rw [hcompare] at hdecides
        have hrest := ihq hq.tail
        constructor
        · refine .cons hq.head_ne hq.head_valid hrest.valid
            (hrest.powers (fun s => LtPP O (exponents s) (exponents n.2)) ?_ fun k hk => hq.head_gt hk)
          exact List.forall_mem_cons.2 ⟨hdecides, fun k hk => (hp.head_gt hk).trans hdecides⟩
        · intro P hP hP'
          rw [List.forall_mem_cons] at hP' ⊢
          exact ⟨hP'.1, hrest.powers P hP hP'.2⟩
        · rw [denote_cons, hrest.denote, denote_cons n, add_left_comm]
      | gt =>
        rw [hcompare] at hdecides
        have hrest := ihp hp.tail hq
        constructor
        · refine .cons hp.head_ne hp.head_valid hrest.valid
            (hrest.powers (fun s => LtPP O (exponents s) (exponents m.2)) (fun k hk => hp.head_gt hk) ?_)
          exact List.forall_mem_cons.2 ⟨hdecides, fun k hk => (hq.head_gt hk).trans hdecides⟩
        · intro P hP hP'
          rw [List.forall_mem_cons] at hP ⊢
          exact ⟨hP.1, hrest.powers P hP.2 hP'⟩
        · rw [denote_cons, hrest.denote, denote_cons m, add_assoc]
      | eq =>
        rw [hcompare] at hdecides
        have heq : m.2 = n.2 := hdecides
        have hrest := ihp hp.tail hq.tail
        have hsum : denote (m :: p) + denote (n :: q) =
            monomial (exponents m.2) (m.1 + n.1) + (denote p + denote q) := by
          rw [denote_cons, denote_cons, ← heq, map_add]
          exact add_add_add_comm _ _ _ _
        simp only
        by_cases hzero : m.1 + n.1 = 0
        · rw [if_pos hzero]
          refine ⟨hrest.valid, fun P hP hP' => ?_, ?_⟩
          · exact hrest.powers P (fun k hk => hP k (List.mem_cons_of_mem m hk))
              fun k hk => hP' k (List.mem_cons_of_mem n hk)
          · rw [hsum, hzero, map_zero, zero_add, hrest.denote]
        · rw [if_neg hzero]
          constructor
          · refine .cons hzero hp.head_valid hrest.valid
              (hrest.powers (fun s => LtPP O (exponents s) (exponents m.2)) (fun k hk => hp.head_gt hk) ?_)
            exact fun k hk => heq ▸ hq.head_gt hk
          · intro P hP hP'
            rw [List.forall_mem_cons] at hP hP' ⊢
            exact ⟨hP.1, hrest.powers P hP.2 hP'.2⟩
          · rw [hsum, denote_cons, hrest.denote]

/-! ### Scaling -/

/-- Coefficients change, and stay different from zero. -/
theorem Valid.mapCoefficients {f : ℚ → ℚ} (hf : ∀ c, c ≠ 0 → f c ≠ 0) {p : Poly α} (hp : Valid O p) :
    Valid O (p.map fun m => (f m.1, m.2)) := by
  refine ⟨List.pairwise_map.2 hp.decreasing, fun k hk => ?_, fun k hk => ?_⟩
  · obtain ⟨m, hm, rfl⟩ := List.mem_map.1 hk
    exact hf _ (hp.nonzero m hm)
  · obtain ⟨m, hm, rfl⟩ := List.mem_map.1 hk
    exact hp.powers m hm

theorem negativePoly_spec {p : Poly α} (hp : Valid O p) :
    Valid O (polyrepNegativePoly p) ∧ denote (polyrepNegativePoly p) = -denote p := by
  refine ⟨hp.mapCoefficients fun c hc => neg_ne_zero.2 hc, ?_⟩
  have hscale := denote_scale (-1) p
  simp only [neg_one_mul] at hscale
  rw [polyrepNegativePoly, hscale, map_neg, C_1, neg_one_mul]

theorem multiplyCstPoly_spec (c : ℚ) {p : Poly α} (hp : Valid O p) :
    Valid O (polyrepMultiplyCstPoly c p) ∧ denote (polyrepMultiplyCstPoly c p) = C c * denote p := by
  rw [polyrepMultiplyCstPoly]
  by_cases hone : c = 1
  · rw [if_pos hone, hone, C_1, one_mul]
    exact ⟨hp, rfl⟩
  · rw [if_neg hone]
    by_cases hzero : c = 0
    · rw [if_pos hzero, hzero, C_0, zero_mul]
      exact ⟨.nil, rfl⟩
    · rw [if_neg hzero]
      exact ⟨hp.mapCoefficients fun d hd => mul_ne_zero hzero hd, denote_scale c p⟩

/-! ### Multiplication -/

theorem multiplyMonoPoly_spec {m : Mono α} (hne : m.1 ≠ 0) (hm : ValidPP O m.2) {p : Poly α}
    (hp : Valid O p) : Valid O (polyrepMultiplyMonoPoly O m p) ∧
      denote (polyrepMultiplyMonoPoly O m p) = monomial (exponents m.2) m.1 * denote p := by
  rw [polyrepMultiplyMonoPoly]
  constructor
  · refine ⟨List.pairwise_map.2 (hp.decreasing.imp_of_mem fun hk hn hgt => ?_), fun k hk => ?_,
      fun k hk => ?_⟩
    · rw [comparePP_multiplyPP (hp.powers _ hk) (hp.powers _ hn) hm]
      exact hgt
    · obtain ⟨n, hn, rfl⟩ := List.mem_map.1 hk
      exact mul_ne_zero hne (hp.nonzero n hn)
    · obtain ⟨n, hn, rfl⟩ := List.mem_map.1 hk
      exact (multiplyPP_spec hm (hp.powers n hn)).valid
  · induction p with
    | nil => rw [List.map_nil, denote_nil, mul_zero]
    | cons n p ih =>
      rw [List.map_cons, denote_cons, denote_cons, ih hp.tail, mul_add, monomial_mul,
        (multiplyPP_spec hm hp.head_valid).exponents]

theorem multiplyPoly_spec {p q : Poly α} (hp : Valid O p) (hq : Valid O q) :
    Valid O (polyrepMultiplyPoly O p q) ∧
      denote (polyrepMultiplyPoly O p q) = denote p * denote q := by
  induction p with
  | nil =>
    rw [polyrepMultiplyPoly, denote_nil, zero_mul]
    exact ⟨.nil, rfl⟩
  | cons m p ih =>
    have hmono := multiplyMonoPoly_spec hp.head_ne hp.head_valid hq
    cases q with
    | nil =>
      rw [polyrepMultiplyPoly, denote_nil, mul_zero]
      · exact ⟨.nil, rfl⟩
      · exact fun h => nomatch h
    | cons n q =>
      cases p with
      | nil =>
        rw [polyrepMultiplyPoly, denote_cons m, denote_nil, add_zero]
        · exact hmono
        · exact fun h => nomatch h
      | cons m' p =>
        cases q with
        | nil =>
          rw [polyrepMultiplyPoly, denote_cons n, denote_nil, add_zero, mul_comm]
          · exact multiplyMonoPoly_spec hq.head_ne hq.head_valid hp
          all_goals simp
        | cons n' q =>
          rw [polyrepMultiplyPoly]
          · have hrest := ih hp.tail
            have hsum := addPoly_spec hmono.1 hrest.1
            refine ⟨hsum.valid, ?_⟩
            rw [hsum.denote, hmono.2, hrest.2, denote_cons m, add_mul]
          all_goals simp

/-! ### Powers -/

theorem expPolyCst'_spec {p : Poly α} (hp : Valid O p) (c : ℕ) :
    Valid O (polyrepExpPolyCst' O p (c + 1)) ∧
      denote (polyrepExpPolyCst' O p (c + 1)) = denote p ^ (c + 1) := by
  induction c with
  | zero => exact ⟨hp, (pow_one _).symm⟩
  | succ c ih =>
    rw [polyrepExpPolyCst']
    have hmul := multiplyPoly_spec hp ih.1
    exact ⟨hmul.1, by rw [hmul.2, ih.2, ← pow_succ']⟩

theorem expPolyCst_spec {p : Poly α} (hp : Valid O p) {c : ℤ} (hc : 0 < c) :
    Valid O (polyrepExpPolyCst O p c) ∧ denote (polyrepExpPolyCst O p c) = denote p ^ c.toNat := by
  obtain ⟨k, rfl⟩ : ∃ k : ℕ, c = (k : ℤ) + 1 := ⟨c.toNat - 1, by omega⟩
  have hk : ((k : ℤ) + 1).toNat = k + 1 := by omega
  have hpos : polyrepExpPolyCst O p (k + 1) = polyrepExpPolyCst' O p (k + 1) := by
    rw [← hk]
    exact if_pos (by omega)
  rw [hpos, hk]
  exact expPolyCst'_spec hp k

/-! ### Equality -/

theorem coeff_denote_eq_zero {p : Poly α} {e : α →₀ ℕ} (h : ∀ m ∈ p, exponents m.2 ≠ e) :
    coeff e (denote p) = 0 := by
  induction p with
  | nil => rw [denote_nil, coeff_zero]
  | cons m p ih =>
    rw [List.forall_mem_cons] at h
    rw [denote_cons, coeff_add, coeff_monomial, if_neg h.1, ih h.2, add_zero]

/-- The coefficient of the greatest power product. -/
theorem coeff_head {m : Mono α} {p : Poly α} (h : Valid O (m :: p)) :
    coeff (exponents m.2) (denote (m :: p)) = m.1 := by
  rw [denote_cons, coeff_add, coeff_monomial, if_pos rfl, coeff_denote_eq_zero, add_zero]
  intro n hn heq
  have hgt := h.head_gt hn
  rw [heq] at hgt
  exact LexLt.irrefl _ _ hgt

theorem coeff_above {m : Mono α} {p : Poly α} (h : Valid O (m :: p)) {e : α →₀ ℕ}
    (hlt : LtPP O (exponents m.2) e) : coeff e (denote (m :: p)) = 0 := by
  apply coeff_denote_eq_zero
  have hne : ∀ {e'}, LtPP O e' e → e' ≠ e := by
    rintro e' hlt rfl
    exact LexLt.irrefl _ _ hlt
  exact List.forall_mem_cons.2 ⟨hne hlt, fun n hn => hne ((h.head_gt hn).trans hlt)⟩

/-- Representations of the same polynomial are equal. -/
theorem denote_injective {p q : Poly α} (hp : Valid O p) (hq : Valid O q)
    (heq : denote p = denote q) : p = q := by
  induction p generalizing q with
  | nil =>
    cases q with
    | nil => rfl
    | cons n q =>
      have hhead := coeff_head hq
      rw [← heq, denote_nil, coeff_zero] at hhead
      exact absurd hhead.symm hq.head_ne
  | cons m p ih =>
    cases q with
    | nil =>
      have hhead := coeff_head hp
      rw [heq, denote_nil, coeff_zero] at hhead
      exact absurd hhead.symm hp.head_ne
    | cons n q =>
      have hdecides := comparePP_decides hp.head_valid hq.head_valid
      cases hcompare : polyrepComparePP O m.2 n.2 with
      | lt =>
        rw [hcompare] at hdecides
        have hhead := coeff_head hq
        rw [← heq, coeff_above hp hdecides] at hhead
        exact absurd hhead.symm hq.head_ne
      | gt =>
        rw [hcompare] at hdecides
        have hhead := coeff_head hp
        rw [heq, coeff_above hq hdecides] at hhead
        exact absurd hhead.symm hp.head_ne
      | eq =>
        rw [hcompare] at hdecides
        have hpower : m.2 = n.2 := hdecides
        have hcoeff : m.1 = n.1 := by rw [← coeff_head hp, heq, hpower, coeff_head hq]
        obtain rfl : m = n := Prod.ext hcoeff hpower
        rw [denote_cons, denote_cons, add_right_inj] at heq
        rw [ih hp.tail hq.tail heq]

theorem polyrepEqual_iff {p q : Poly α} (hp : Valid O p) (hq : Valid O q) :
    polyrepEqual O p q = true ↔ p = q := by
  induction p generalizing q with
  | nil => cases q <;> simp [polyrepEqual]
  | cons m p ih =>
    cases q with
    | nil => simp [polyrepEqual]
    | cons n q =>
      have hpower := comparePP_eq_iff hp.head_valid hq.head_valid (r := .eq)
      rw [polyrepEqual, List.cons.injEq, Prod.ext_iff]
      by_cases hcoeff : m.1 = n.1
      · rw [if_pos hcoeff]
        cases hcompare : polyrepComparePP O m.2 n.2 with
        | eq => simpa [hcoeff, show m.2 = n.2 from hpower.1 hcompare] using ih hp.tail hq.tail
        | _ =>
          have hne : m.2 ≠ n.2 := fun h => by
            rw [hpower.2 h] at hcompare
            cases hcompare
          simp [hne]
      · simp [hcoeff]

end Polynomials

end PVS.Nlyices
