import PVS.GroundProver.ArithLinear

/-! Sums of numbers, variables and multiples of variables, in any order. -/

namespace PVS.GroundProver

open SExp

inductive FlatTerm : SExp → Prop
  | num (q : ℚ) : FlatTerm (qrep q)
  | var {n : String} : IsVar n → FlatTerm (.sym n)
  | scaled (q : ℚ) {n : String} : IsVar n → FlatTerm (times [qrep q, .sym n])
  | sum {l : List SExp} : (∀ a ∈ l, FlatTerm a) → FlatTerm (plus l)

variable {ρ : String → ℚ} {t a b : SExp}

theorem IsMonomial.flat (h : IsMonomial t) : FlatTerm t := by
  cases h with
  | num q => exact .num q
  | @mono p hp _ =>
    unfold monomial
    split
    · exact .var hp
    · exact .scaled _ hp

theorem IsLinear.flat (h : IsLinear t) : FlatTerm t := by
  rcases h.cases with hm | ⟨ms, rfl, hm⟩
  · exact hm.flat
  · exact .sum fun m hmem => (hm m hmem).flat

theorem FlatTerm.reduced (h : FlatTerm t) : Reduced ρ t := by
  induction h with
  | num q => exact .num (qnumber_qrep q)
  | var hn => exact .sym hn.ne_infinity
  | scaled q hn => exact .scaled (qnumber_qrep q) (.sym hn.ne_infinity)
  | sum _ ih => exact .sum ih

theorem FlatTerm.linearTerm (h : FlatTerm t) : LinearTerm t ∧ SimpleQuotients t := by
  have hsimple : ∀ q, SimpleQuotients (qrep q) := by
    intro q
    unfold qrep
    split <;> simp [SimpleQuotients, SimpleQuotientsArgs]
  induction h with
  | num q => exact ⟨.const q, hsimple q⟩
  | var hn => exact ⟨.var hn, trivial⟩
  | scaled q hn =>
    refine ⟨.times ?_ ?_, ?_⟩
    · rw [List.forall_mem_cons, List.forall_mem_singleton]
      exact ⟨.const q, .var hn⟩
    · rw [List.pairwise_pair]
      exact .inl ⟨q, fun ρ => by rw [value_number (qnumber_qrep q), qval_qrep]⟩
    · simp [SimpleQuotients, SimpleQuotientsArgs, hsimple]
  | sum _ ih =>
    refine ⟨.plus fun a ha => (ih a ha).1, ?_⟩
    rw [SimpleQuotients, simpleQuotientsArgs_iff, toList_ofList]
    exact ⟨by simp, fun a ha => (ih a ha).2⟩

/-- What is added by `buildsum`: a flat term, or a number in any form. -/
def Addend (t : SExp) : Prop := FlatTerm t ∨ QNumber t

theorem FlatTerm.buildsum (h : FlatTerm t) (s : Addends) (cs : List (String × ℚ))
    (hs : LinearSum s cs) : ∃ cs', LinearSum (buildsum t s) cs' := by
  induction h generalizing s cs with
  | num q => exact buildsum_isLinear (IsMonomial.num q).isLinear s cs hs
  | var hn =>
    have hm : IsMonomial (monomial (_, 1)) := .mono hn one_ne_zero
    exact buildsum_isMonomial (by simpa [monomial] using hm) hs
  | @scaled q n hn =>
    have e : GroundProver.buildsum (times [qrep q, .sym n]) s =
        (s.1, addtosum (.sym n) (qrep q) s.2) := by
      simp [GroundProver.buildsum, (qnumber_qrep q).qnumberp]
    rw [e]
    exact ⟨_, hs.add hn q⟩
  | @sum l _ ih =>
    have e : GroundProver.buildsum (plus l) s = buildsumArgs (ofList l) s := by
      simp [GroundProver.buildsum]
    rw [e, buildsumArgs_ofList]
    exact foldl_buildsum ih hs

theorem Addend.buildsum (h : Addend t) (s : Addends) (cs : List (String × ℚ)) (hs : LinearSum s cs) :
    ∃ cs', LinearSum (buildsum t s) cs' := by
  rcases h with h | h
  · exact h.buildsum s cs hs
  · rw [buildsum_number h]
    exact ⟨cs, h.qplus hs.const, hs.sum, hs.var, hs.sorted⟩

theorem Addend.reduced (h : Addend t) : Reduced ρ t := by
  rcases h with h | h
  · exact h.reduced
  · exact .num h

theorem Addend.sigplus {l : List SExp} (hl : ∀ a ∈ l, Addend a) :
    IsLinear (sigplus (plus l)) ∧ ∀ ρ, value ρ (sigplus (plus l)) = (l.map (value ρ)).sum := by
  refine ⟨isLinear_sigplus_of_buildsum fun m hm => (hl m hm).buildsum, fun ρ => ?_⟩
  exact (canonizes_plus fun a ha => (hl a ha).reduced).value_eq

theorem FlatTerm.sigminus1 (h : FlatTerm t) :
    (∀ p ∈ sigminus1Products t, OuterSums p) ∧ IsLinear (sigminus1 t) := by
  induction h with
  | num q => exact sigminus1_isMonomial (.num q)
  | var hn =>
    have hm : IsMonomial (monomial (_, 1)) := .mono hn one_ne_zero
    exact sigminus1_isMonomial (by simpa [monomial] using hm)
  | @scaled q n hn =>
    have hm : IsMonomial (monomial (n, 1)) := .mono hn one_ne_zero
    have h := sigtimes_around [-q] [] hm.isLinear
    have e : around [-q] (monomial (n, 1)) [] = [qminus (qrep q), .sym n] := by
      simp [around, monomial, qminus_qrep]
    rw [e] at h
    simp only [GroundProver.sigminus1, sigminus1Products, qnumberp_cons, beq_iff_eq, SExp.sym.injEq,
      String.reduceEq, if_false, ofList_cons, car_cons, cdr_cons, (qnumber_qrep q).qnumberp,
      and_self, if_true, List.forall_mem_singleton]
    exact h
  | @sum l _ ih =>
    obtain ⟨h1, h2⟩ := sigminus1Args_ofList l
    simp only [GroundProver.sigminus1, sigminus1Products, qnumberp_cons, beq_iff_eq, SExp.sym.injEq,
      String.reduceEq, if_false, false_and, if_true, h1, h2]
    constructor
    · intro p hp
      obtain ⟨m, hmem, hp⟩ := List.mem_flatMap.1 hp
      exact (ih m hmem).1 p hp
    · apply isLinear_sigplus
      intro a ha
      obtain ⟨m, hmem, rfl⟩ := List.mem_map.1 ha
      exact (ih m hmem).2

theorem Addend.sigminus1 (h : Addend t) :
    Addend (sigminus1 t) ∧ ∀ ρ, value ρ (sigminus1 t) = -value ρ t := by
  rcases h with h | h
  · exact ⟨.inl h.sigminus1.2.flat, fun ρ => (canonizes_sigminus1 h.reduced h.sigminus1.1).value_eq⟩
  · rw [(sigminus1_number h).1]
    refine ⟨.inr h.qminus, fun ρ => ?_⟩
    rw [value_number h.qminus, value_number h, qval_qminus h]

/-- The difference of two addends is a linear term. -/
theorem Addend.sigdifference (ha : Addend a) (hb : Addend b) :
    IsLinear (sigdifference (form "DIFFERENCE" [a, b])) ∧
      ∀ ρ, value ρ (sigdifference (form "DIFFERENCE" [a, b])) = value ρ a - value ρ b := by
  obtain ⟨hm, hv⟩ := hb.sigminus1
  obtain ⟨hl, hs⟩ := Addend.sigplus (l := [a, GroundProver.sigminus1 b])
    (List.forall_mem_cons.2 ⟨ha, List.forall_mem_singleton.2 hm⟩)
  refine ⟨hl, fun ρ => (hs ρ).trans ?_⟩
  simp [hv, sub_eq_add_neg]

end PVS.GroundProver
