import Mathlib
import PVS.Nlyices.PolyrepRing

/-! Substitution and derivatives of polynomials, and what all the operations denote. -/

universe u

namespace PVS.Nlyices

open Library.WeightOrder MvPolynomial

variable {α : Type u}

/-- The power product as a polynomial. -/
theorem monomial_exponents_cons (m : α × ℤ) (mu : PP α) :
    monomial (exponents (m :: mu)) (1 : ℚ) = X m.1 ^ m.2.toNat * monomial (exponents mu) 1 := by
  rw [exponents_cons, X_pow_eq_monomial, monomial_mul, one_mul]

theorem denote_single (mu : PP α) : denote [(1, mu)] = monomial (exponents mu) 1 := by
  rw [denote_cons, denote_nil, add_zero]

theorem monomial_eq (e : α →₀ ℕ) (c : ℚ) : monomial e c = C c * monomial e 1 := by
  rw [C_mul_monomial, mul_one]

variable [DecidableEq α] {O : VarOrder α}

theorem Valid.power {mu : PP α} (h : ValidPP O mu) : Valid O [(1, mu)] := .single one_ne_zero h

/-! ### Substitution -/

/-- The value of the variables where `x` is replaced. -/
noncomputable def replaced (xfx : α × Poly α) (y : α) : MvPolynomial α ℚ :=
  if y = xfx.1 then denote xfx.2 else X y

section Substitution

variable {xfx : α × Poly α} (hfx : Valid O xfx.2)

include hfx

theorem substitutionUni_spec {m : α × ℤ} (hm : ValidPP O [m]) :
    Valid O (applySubstitutionUni O m xfx) ∧
      denote (applySubstitutionUni O m xfx) = replaced xfx m.1 ^ m.2.toNat := by
  rw [applySubstitutionUni, replaced]
  by_cases hx : m.1 = xfx.1
  · rw [if_pos hx, if_pos hx]
    exact expPolyCst_spec hfx hm.head_pos
  · rw [if_neg hx, if_neg hx]
    refine ⟨.power hm, ?_⟩
    rw [denote_single, monomial_exponents_cons]
    exact mul_one _

theorem substitutionPP_spec {mu : PP α} (hmu : ValidPP O mu) :
    Valid O (applySubstitutionPP O xfx mu) ∧
      denote (applySubstitutionPP O xfx mu) = aeval (replaced xfx) (monomial (exponents mu) (1 : ℚ)) := by
  induction mu with
  | nil =>
    rw [applySubstitutionPP, denote_single]
    refine ⟨.power .nil, ?_⟩
    exact (map_one (aeval (replaced xfx))).symm
  | cons m mu ih =>
    have hhead := substitutionUni_spec hfx (.single hmu.head_pos hmu.head_mem)
    have hrest := ih hmu.tail
    rw [monomial_exponents_cons, map_mul, map_pow, aeval_X, ← hhead.2]
    cases mu with
    | nil =>
      rw [applySubstitutionPP]
      exact ⟨hhead.1, ((congrArg _ (map_one (aeval (replaced xfx)))).trans (mul_one _)).symm⟩
    | cons m' mu =>
      rw [applySubstitutionPP, ← hrest.2]
      · exact multiplyPoly_spec hhead.1 hrest.1
      · exact fun h => nomatch h

theorem substitutionPoly_spec {p : Poly α} (hp : Valid O p) :
    Valid O (applySubstitutionPoly O xfx p) ∧
      denote (applySubstitutionPoly O xfx p) = aeval (replaced xfx) (denote p) := by
  induction p with
  | nil =>
    rw [applySubstitutionPoly, denote_nil, map_zero]
    exact ⟨.nil, rfl⟩
  | cons m p ih =>
    have hpower := substitutionPP_spec hfx hp.head_valid
    have hmono := multiplyCstPoly_spec m.1 hpower.1
    have hrest := ih hp.tail
    have hsum := addPoly_spec hmono.1 hrest.1
    refine ⟨hsum.valid, ?_⟩
    rw [applySubstitutionPoly, applySubstitutionMono, hsum.denote, hmono.2, hpower.2, hrest.2,
      denote_cons, map_add]
    rw [monomial_eq _ m.1, map_mul, aeval_C]
    rfl

end Substitution

/-! ### Derivatives -/

/-- The derivative of the variables along the flow. -/
noncomputable def flowDerivation (flow : List (α × Poly α)) :
    Derivation ℚ (MvPolynomial α ℚ) (MvPolynomial α ℚ) :=
  mkDerivation ℚ fun x => denote (derivativeNewVar x flow)

def ValidFlow (O : VarOrder α) (flow : List (α × Poly α)) : Prop := ∀ f ∈ flow, Valid O f.2

theorem derivativeNewVar_valid {flow : List (α × Poly α)} (hflow : ValidFlow O flow) (x : α) :
    Valid O (derivativeNewVar x flow) := by
  rw [derivativeNewVar]
  cases hlookup : flow.lookup x with
  | none => exact .nil
  | some f =>
    obtain ⟨flow₁, flow₂, rfl, -⟩ := List.lookup_eq_some_iff.1 hlookup
    exact hflow (x, f) (List.mem_append_right _ List.mem_cons_self)

section Derivative

variable {flow : List (α × Poly α)} (hflow : ValidFlow O flow)

include hflow

theorem derivativeNewFactor_spec {m : α × ℤ} (hpos : 0 < m.2) (hmem : m.1 ∈ O.order) :
    Valid O (derivativeNewFactor O m flow) ∧
      denote (derivativeNewFactor O m flow) = flowDerivation flow (X m.1 ^ m.2.toNat) := by
  have hvar := derivativeNewVar_valid hflow m.1
  have hleibniz : flowDerivation flow (X m.1 ^ m.2.toNat) =
      (m.2.toNat : MvPolynomial α ℚ) * (X m.1 ^ (m.2.toNat - 1) * denote (derivativeNewVar m.1 flow)) := by
    rw [Derivation.leibniz_pow, flowDerivation, mkDerivation_X, nsmul_eq_mul, smul_eq_mul]
  rw [hleibniz, derivativeNewFactor]
  by_cases hnil : derivativeNewVar m.1 flow = []
  · simp only [hnil, if_true, denote_nil, mul_zero]
    exact ⟨.nil, trivial⟩
  · simp only [if_neg hnil]
    by_cases hone : m.2 = 1
    · rw [if_pos hone, hone]
      refine ⟨hvar, ?_⟩
      simp
    · rw [if_neg hone]
      have hm : ValidPP O [(m.1, m.2 - 1)] := .single (by simp only; omega) hmem
      have hmul := multiplyMonoPoly_spec (m := (((m.2 : ℤ) : ℚ), [(m.1, m.2 - 1)]))
        (Int.cast_ne_zero.2 hpos.ne') hm hvar
      refine ⟨hmul.1, ?_⟩
      have hcoeff : ((m.2 : ℤ) : ℚ) = m.2.toNat := by
        rw [← Int.cast_natCast, Int.toNat_of_nonneg hpos.le]
      have hexp : (m.2 - 1).toNat = m.2.toNat - 1 := by omega
      have hnone : monomial (exponents ([] : PP α)) (1 : ℚ) = 1 := rfl
      rw [hmul.2, monomial_eq, monomial_exponents_cons, hnone, mul_one, mul_assoc, hcoeff, hexp,
        map_natCast C]

theorem derivativeNewPP_spec {mu : PP α} (hmu : ValidPP O mu) :
    Valid O (derivativeNewPP O flow mu) ∧
      denote (derivativeNewPP O flow mu) = flowDerivation flow (monomial (exponents mu) 1) := by
  induction mu with
  | nil =>
    rw [derivativeNewPP]
    exact ⟨.nil, (flowDerivation flow).map_one_eq_zero.symm⟩
  | cons m mu ih =>
    have hhead := derivativeNewFactor_spec hflow hmu.head_pos hmu.head_mem
    have hrest := ih hmu.tail
    rw [monomial_exponents_cons, Derivation.leibniz, ← hhead.2, ← hrest.2]
    cases mu with
    | nil =>
      have hnone : monomial (exponents ([] : PP α)) (1 : ℚ) = 1 := rfl
      rw [derivativeNewPP, derivativeNewPP, denote_nil, smul_zero, zero_add, hnone, one_smul]
      exact ⟨hhead.1, rfl⟩
    | cons m' mu =>
      have hfirst := multiplyMonoPoly_spec (m := (1, m' :: mu)) one_ne_zero hmu.tail hhead.1
      have hsecond := multiplyMonoPoly_spec (m := (1, [m])) one_ne_zero
        (.single hmu.head_pos hmu.head_mem) hrest.1
      have hsum := addPoly_spec hfirst.1 hsecond.1
      rw [derivativeNewPP]
      · refine ⟨hsum.valid, ?_⟩
        rw [hsum.denote, hfirst.2, hsecond.2, monomial_exponents_cons m, smul_eq_mul, smul_eq_mul,
          add_comm]
        congr 2
        exact mul_one _
      · exact fun h => nomatch h

theorem derivativeNewPol_spec {p : Poly α} (hp : Valid O p) :
    Valid O (derivativeNewPol O flow p) ∧
      denote (derivativeNewPol O flow p) = flowDerivation flow (denote p) := by
  induction p with
  | nil =>
    rw [derivativeNewPol, denote_nil, map_zero]
    exact ⟨.nil, rfl⟩
  | cons m p ih =>
    have hpower := derivativeNewPP_spec hflow hp.head_valid
    have hrest := ih hp.tail
    have hterm : flowDerivation flow (monomial (exponents m.2) m.1) =
        C m.1 * denote (derivativeNewPP O flow m.2) := by
      rw [monomial_eq, hpower.2, C_mul', Derivation.map_smul, C_mul']
    rw [derivativeNewPol, denote_cons, map_add, hterm, ← hrest.2]
    by_cases hnil : derivativeNewPP O flow m.2 = []
    · simp only [hnil, if_true, denote_nil, mul_zero, zero_add]
      exact ⟨hrest.1, trivial⟩
    · simp only [if_neg hnil]
      have hmono := multiplyCstPoly_spec m.1 hpower.1
      have hsum := addPoly_spec hmono.1 hrest.1
      exact ⟨hsum.valid, by rw [hsum.denote, hmono.2]⟩

end Derivative

/-! ### The ring -/

/-- Power products in the form of the package. -/
abbrev PowerProduct (O : VarOrder α) : Type u := { mu : PP α // ValidPP O mu }

/-- Polynomials in the form of the package. -/
abbrev Polynomial (O : VarOrder α) : Type u := { p : Poly α // Valid O p }

/-- The flow that moves only `x`, at speed 1. -/
def alongVariable (x : α) : List (α × Poly α) := [(x, [(1, [])])]

/-- The operations keep the form of polynomials and denote those of the polynomial ring. -/
structure DenotesRing (O : VarOrder α) : Prop where
  add : ∀ p q : Polynomial O, Valid O (polyrepAddPoly O p.1 q.1) ∧
    denote (polyrepAddPoly O p.1 q.1) = denote p.1 + denote q.1
  negative : ∀ p : Polynomial O, Valid O (polyrepNegativePoly p.1) ∧
    denote (polyrepNegativePoly p.1) = -denote p.1
  multiply : ∀ p q : Polynomial O, Valid O (polyrepMultiplyPoly O p.1 q.1) ∧
    denote (polyrepMultiplyPoly O p.1 q.1) = denote p.1 * denote q.1
  scale : ∀ (c : ℚ) (p : Polynomial O), Valid O (polyrepMultiplyCstPoly c p.1) ∧
    denote (polyrepMultiplyCstPoly c p.1) = C c * denote p.1
  substitute : ∀ (p : Polynomial O) (x : α) (f : Polynomial O),
    Valid O (applySubstitution O p.1 [(x, f.1)]) ∧
      denote (applySubstitution O p.1 [(x, f.1)]) =
        aeval (Function.update X x (denote f.1)) (denote p.1)
  derivative : ∀ (p : Polynomial O) (x : α), Valid O (derivativeNewPol O (alongVariable x) p.1) ∧
    denote (derivativeNewPol O (alongVariable x) p.1) = pderiv x (denote p.1)
  leibniz : ∀ (p q : Polynomial O) (x : α),
    derivativeNewPol O (alongVariable x) (polyrepMultiplyPoly O p.1 q.1) =
      polyrepAddPoly O (polyrepMultiplyPoly O p.1 (derivativeNewPol O (alongVariable x) q.1))
        (polyrepMultiplyPoly O (derivativeNewPol O (alongVariable x) p.1) q.1)
  equal : ∀ p q : Polynomial O, (polyrepEqual O p.1 q.1 = true ↔ p = q) ∧
    (p = q ↔ denote p.1 = denote q.1)
  strictOrder : IsStrictTotalOrder (PowerProduct O) fun s t => polyrepComparePP O s.1 t.1 = .lt
  compareEqual : ∀ s t : PowerProduct O, polyrepComparePP O s.1 t.1 = .eq ↔ s = t
  compareGreater : ∀ s t : PowerProduct O,
    polyrepComparePP O s.1 t.1 = .gt ↔ polyrepComparePP O t.1 s.1 = .lt
  compatible : ∀ s t u : PowerProduct O, ValidPP O (polyrepMultiplyPP O u.1 s.1) ∧
    polyrepComparePP O (polyrepMultiplyPP O u.1 s.1) (polyrepMultiplyPP O u.1 t.1) =
      polyrepComparePP O s.1 t.1

theorem alongVariable_valid (O : VarOrder α) (x : α) : ValidFlow O (alongVariable x) := by
  intro f hf
  rw [List.mem_singleton.1 hf]
  exact .power .nil

theorem flowDerivation_alongVariable (x : α) : flowDerivation (alongVariable x) = pderiv x := by
  apply derivation_ext
  intro y
  rw [flowDerivation, mkDerivation_X, pderiv_X, derivativeNewVar, alongVariable, List.lookup_cons]
  by_cases hxy : y = x
  · subst hxy
    rw [beq_self_eq_true, Pi.single_eq_same]
    exact denote_single []
  · rw [beq_false_of_ne hxy, Pi.single_eq_of_ne hxy]
    rfl

theorem comparePP_strictOrder (O : VarOrder α) :
    IsStrictTotalOrder (PowerProduct O) fun s t => polyrepComparePP O s.1 t.1 = .lt := by
  have hlt : ∀ s t : PowerProduct O,
      polyrepComparePP O s.1 t.1 = .lt ↔ LtPP O (exponents s.1) (exponents t.1) :=
    fun s t => comparePP_eq_iff s.2 t.2
  refine { trichotomous := fun s t hst hts => ?_, irrefl := fun s hs => ?_, trans := fun s t u hst htu => ?_ }
  · have hdecides := comparePP_decides s.2 t.2
    cases hcompare : polyrepComparePP O s.1 t.1 with
    | eq => exact Subtype.ext ((comparePP_eq_iff s.2 t.2).1 hcompare)
    | lt => exact absurd hcompare hst
    | gt =>
      rw [hcompare] at hdecides
      exact absurd ((hlt t s).2 hdecides) hts
  · exact LexLt.irrefl _ _ ((hlt s s).1 hs)
  · exact (hlt s u).2 (((hlt s t).1 hst).trans ((hlt t u).1 htu))

theorem leibniz_multiplyPoly {p q : Poly α} (hp : Valid O p) (hq : Valid O q)
    {flow : List (α × Poly α)} (hflow : ValidFlow O flow) :
    derivativeNewPol O flow (polyrepMultiplyPoly O p q) =
      polyrepAddPoly O (polyrepMultiplyPoly O p (derivativeNewPol O flow q))
        (polyrepMultiplyPoly O (derivativeNewPol O flow p) q) := by
  have hmul := multiplyPoly_spec hp hq
  have hmuldot := derivativeNewPol_spec hflow hmul.1
  have hpdot := derivativeNewPol_spec hflow hp
  have hqdot := derivativeNewPol_spec hflow hq
  have hleft := multiplyPoly_spec hp hqdot.1
  have hright := multiplyPoly_spec hpdot.1 hq
  have hsum := addPoly_spec hleft.1 hright.1
  apply denote_injective hmuldot.1 hsum.valid
  rw [hmuldot.2, hmul.2, Derivation.leibniz, hsum.denote, hleft.2, hright.2, hqdot.2, hpdot.2,
    smul_eq_mul, smul_eq_mul, mul_comm (denote q)]

theorem denotesRing (O : VarOrder α) : DenotesRing O where
  add p q := ⟨(addPoly_spec p.2 q.2).valid, (addPoly_spec p.2 q.2).denote⟩
  negative p := negativePoly_spec p.2
  multiply p q := multiplyPoly_spec p.2 q.2
  scale c p := multiplyCstPoly_spec c p.2
  substitute p x f := by
    have hreplaced : replaced (x, f.1) = Function.update X x (denote f.1) := by
      funext y
      rw [replaced, Function.update_apply]
    rw [← hreplaced]
    exact substitutionPoly_spec f.2 p.2
  derivative p x := by
    rw [← flowDerivation_alongVariable]
    exact derivativeNewPol_spec (alongVariable_valid O x) p.2
  leibniz p q x := leibniz_multiplyPoly p.2 q.2 (alongVariable_valid O x)
  equal p q := by
    refine ⟨(polyrepEqual_iff p.2 q.2).trans Subtype.ext_iff.symm, fun h => h ▸ rfl, fun h => ?_⟩
    exact Subtype.ext (denote_injective p.2 q.2 h)
  strictOrder := comparePP_strictOrder O
  compareEqual s t := (comparePP_eq_iff s.2 t.2).trans Subtype.ext_iff.symm
  compareGreater s t := (comparePP_eq_iff s.2 t.2).trans (comparePP_eq_iff t.2 s.2 (r := .lt)).symm
  compatible s t u := ⟨(multiplyPP_spec u.2 s.2).valid, comparePP_multiplyPP s.2 t.2 u.2⟩

end PVS.Nlyices
