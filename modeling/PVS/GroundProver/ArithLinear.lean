import PVS.GroundProver.ArithValue
import PVS.Library.LinearForm

/-! Linear terms: `arithcan` makes of a linear term the sorted sum of its monomials, as long as it
divides no sum of several monomials. -/

namespace PVS.GroundProver

open SExp Library

/-! ### The normal form -/

abbrev LinForm : Type := LinearForm String ℚ

structure IsVar (n : String) : Prop where
  ne_nil : n ≠ "nil"
  ne_infinity : .sym n ≠ infinity

def monomial (p : String × ℚ) : SExp := if p.2 = 1 then .sym p.1 else times [qrep p.2, .sym p.1]

def toTerm (f : LinForm) : SExp := sumTerm (qrep f.const) (f.coefs.map monomial)

def IsLinear (t : SExp) : Prop := ∃ f : LinForm, (∀ p ∈ f.coefs, IsVar p.1) ∧ t = toTerm f

/-- A number or a monomial. -/
inductive IsMonomial : SExp → Prop
  | num (q : ℚ) : IsMonomial (qrep q)
  | mono {p : String × ℚ} : IsVar p.1 → p.2 ≠ 0 → IsMonomial (monomial p)

variable {ρ : String → ℚ}

theorem qnorm_qrep (q : ℚ) : qnorm (qrep q) = qrep q := by
  rw [qnorm_eq (qnumber_qrep q), qval_qrep]

theorem canonizes_monomial {p : String × ℚ} (hp : IsVar p.1) :
    Canonizes ρ (monomial p) (p.2 * ρ p.1) := by
  unfold monomial
  split
  case isTrue h => exact ⟨.sym hp.ne_infinity, by rw [h, one_mul, value_sym]⟩
  case isFalse =>
    exact ⟨.scaled (qnumber_qrep _) (.sym hp.ne_infinity), by
      simp [value_number (qnumber_qrep p.2)]⟩

theorem canonizes_toTerm {f : LinForm} (hf : ∀ p ∈ f.coefs, IsVar p.1) :
    Canonizes ρ (toTerm f) (f.value ρ) := by
  have hr : ∀ t ∈ f.coefs.map monomial, Reduced ρ t := by
    intro t ht
    obtain ⟨p, hp, rfl⟩ := List.mem_map.1 ht
    exact (canonizes_monomial (hf p hp)).reduced
  have hv : ((f.coefs.map monomial).map (value ρ)).sum = LinearForm.sumCoefs ρ f.coefs := by
    rw [List.map_map, LinearForm.sumCoefs]
    congr 1
    apply List.map_congr_left
    intro p hp
    exact (canonizes_monomial (hf p hp)).value_eq
  have := canonizes_sumTerm (qnumber_qrep f.const) hr
  rwa [qnorm_qrep, qval_qrep, hv] at this

theorem IsLinear.reduced {t : SExp} (h : IsLinear t) : Reduced ρ t := by
  obtain ⟨f, hf, rfl⟩ := h
  exact (canonizes_toTerm hf).reduced

/-- A linear term in normal form is determined by its values. -/
theorem IsLinear.eq_of_value {s t : SExp} (hs : IsLinear s) (ht : IsLinear t)
    (h : ∀ ρ, value ρ s = value ρ t) : s = t := by
  obtain ⟨f, hf, rfl⟩ := hs
  obtain ⟨g, hg, rfl⟩ := ht
  congr 1
  apply LinearForm.ext_of_value
  intro ρ
  rw [← (canonizes_toTerm hf).value_eq, ← (canonizes_toTerm hg).value_eq, h]

theorem IsMonomial.isLinear {t : SExp} (h : IsMonomial t) : IsLinear t := by
  cases h with
  | num q => exact ⟨⟨q, [], .nil, by simp⟩, by simp, rfl⟩
  | @mono p hp h0 =>
    refine ⟨⟨0, [p], List.pairwise_singleton _ _, by simpa using h0⟩, by simpa using hp, ?_⟩
    simp [toTerm, sumTerm, qrep]

theorem IsLinear.cases {t : SExp} (h : IsLinear t) :
    IsMonomial t ∨ ∃ ms, t = plus ms ∧ ∀ m ∈ ms, IsMonomial m := by
  obtain ⟨f, hf, rfl⟩ := h
  have hm : ∀ m ∈ f.coefs.map monomial, IsMonomial m := by
    intro m hm
    obtain ⟨p, hp, rfl⟩ := List.mem_map.1 hm
    exact .mono (hf p hp) (f.nonzero p hp)
  have hc : ∀ m ∈ qrep f.const :: f.coefs.map monomial, IsMonomial m :=
    List.forall_mem_cons.2 ⟨.num _, hm⟩
  unfold toTerm
  generalize f.coefs.map monomial = result at *
  unfold sumTerm
  split
  · exact .inl (.num _)
  · split
    · exact .inl (hm _ (by simp))
    · exact .inr ⟨_, rfl, hc⟩
  · split
    · exact .inr ⟨_, rfl, hm⟩
    · exact .inr ⟨_, rfl, hc⟩

/-! ### Sums -/

def insertCoef (x : String) (q : ℚ) : List (String × ℚ) → List (String × ℚ)
  | [] => [(x, q)]
  | (y, r) :: l =>
    if y = x then (y, r + q) :: l
    else if x < y then (x, q) :: (y, r) :: l
    else (y, r) :: insertCoef x q l

def renderSum (l : List (String × ℚ)) : List (SExp × SExp) :=
  l.map fun p => (.sym p.1, qrep p.2)

theorem arithord_sym {x y : String} (hx : x ≠ "nil") (hy : y ≠ "nil") :
    arithord (.sym x) (.sym y) = decide (x < y) := by
  unfold arithord arithord1
  simp [hx, hy, SExp.nil, alphalessp]

theorem addtosum_renderSum {x : String} {q : ℚ} (hx : IsVar x) {l : List (String × ℚ)}
    (hl : ∀ p ∈ l, IsVar p.1) :
    addtosum (.sym x) (qrep q) (renderSum l) = renderSum (insertCoef x q l) := by
  induction l with
  | nil => rfl
  | cons p l ih =>
    rw [List.forall_mem_cons] at hl
    have hq := (qnumber_qrep p.2).qplus (qnumber_qrep q)
    have ih := ih hl.2
    simp only [renderSum, List.map_cons, addtosum, SExp.sym.injEq, arithord_sym hx.ne_nil hl.1.ne_nil,
      decide_eq_true_eq, insertCoef] at ih ⊢
    split
    · rw [qnorm_eq hq, qval_qplus (qnumber_qrep _) (qnumber_qrep _), qval_qrep, qval_qrep]
      rfl
    · split
      · rfl
      · rw [ih]
        rfl

theorem mem_insertCoef {x : String} {q : ℚ} {l : List (String × ℚ)} {p : String × ℚ}
    (h : p ∈ insertCoef x q l) : p.1 = x ∨ ∃ p' ∈ l, p.1 = p'.1 := by
  induction l with
  | nil =>
    obtain rfl : p = (x, q) := by simpa [insertCoef] using h
    exact .inl rfl
  | cons p' l ih =>
    unfold insertCoef at h
    split at h
    case isTrue e =>
      rcases List.mem_cons.1 h with rfl | h
      · exact .inl e
      · exact .inr ⟨p, by simp [h], rfl⟩
    case isFalse =>
      split at h
      · rcases List.mem_cons.1 h with rfl | h
        · exact .inl rfl
        · exact .inr ⟨p, h, rfl⟩
      · rcases List.mem_cons.1 h with rfl | h
        · exact .inr ⟨p', by simp, rfl⟩
        · rcases ih h with e | ⟨p'', hp, e⟩
          · exact .inl e
          · exact .inr ⟨p'', by simp [hp], e⟩

theorem pairwise_insertCoef {x : String} {q : ℚ} {l : List (String × ℚ)}
    (h : l.Pairwise fun a b => a.1 < b.1) :
    (insertCoef x q l).Pairwise fun a b => a.1 < b.1 := by
  induction l with
  | nil => exact List.pairwise_singleton _ _
  | cons p l ih =>
    have h' := List.pairwise_cons.1 h
    unfold insertCoef
    split
    case isTrue e => exact List.pairwise_cons.2 h'
    case isFalse hne =>
      split
      case isTrue hlt =>
        apply List.pairwise_cons.2 ⟨_, h⟩
        intro b hb
        rcases List.mem_cons.1 hb with rfl | hb
        · exact hlt
        · exact hlt.trans (h'.1 b hb)
      case isFalse hge =>
        apply List.pairwise_cons.2 ⟨_, ih h'.2⟩
        intro b hb
        rcases mem_insertCoef hb with e | ⟨p', hp, e⟩
        · rw [e]
          exact lt_of_le_of_ne (not_lt.1 hge) hne
        · rw [e]
          exact h'.1 p' hp

structure LinearSum (s : Addends) (l : List (String × ℚ)) : Prop where
  const : QNumber s.1
  sum : s.2 = renderSum l
  var : ∀ p ∈ l, IsVar p.1
  sorted : l.Pairwise fun a b => a.1 < b.1

theorem LinearSum.add {s : Addends} {l : List (String × ℚ)} (h : LinearSum s l) {x : String}
    (hx : IsVar x) (q : ℚ) : LinearSum (s.1, addtosum (.sym x) (qrep q) s.2) (insertCoef x q l) := by
  constructor
  · exact h.const
  · rw [h.sum, addtosum_renderSum hx h.var]
  · intro p hp
    rcases mem_insertCoef hp with e | ⟨p', hp, e⟩
    · rwa [e]
    · rw [e]
      exact h.var p' hp
  · exact pairwise_insertCoef h.sorted

theorem buildsum_number {q : SExp} (hq : QNumber q) (s : Addends) :
    buildsum q s = (qplus q s.1, s.2) := by
  cases hq with
  | int i => rw [buildsum]
  | quo n hd =>
    simp only [buildsum, qnumberp_cons, beq_self_eq_true, if_true]

theorem buildsum_isMonomial {m : SExp} (hm : IsMonomial m) {s : Addends} {l : List (String × ℚ)}
    (h : LinearSum s l) : ∃ l', LinearSum (buildsum m s) l' := by
  cases hm with
  | num q =>
    rw [buildsum_number (qnumber_qrep q)]
    exact ⟨l, (qnumber_qrep q).qplus h.const, h.sum, h.var, h.sorted⟩
  | @mono p hp h0 =>
    refine ⟨insertCoef p.1 p.2 l, ?_⟩
    have e : buildsum (monomial p) s = (s.1, addtosum (.sym p.1) (qrep p.2) s.2) := by
      unfold monomial
      split
      case isTrue h1 =>
        rw [buildsum, h1]
        simp [qrep]
      case isFalse => simp [buildsum, (qnumber_qrep p.2).qnumberp]
    rw [e]
    exact h.add hp p.2

theorem buildsumArgs_ofList (l : List SExp) (s : Addends) :
    buildsumArgs (ofList l) s = l.foldl (fun s a => buildsum a s) s := by
  induction l generalizing s with
  | nil => rfl
  | cons a l ih => rw [ofList_cons, buildsumArgs, ih, List.foldl_cons]

theorem foldl_buildsum {l : List SExp}
    (hl : ∀ m ∈ l, ∀ s l, LinearSum s l → ∃ l', LinearSum (buildsum m s) l') {s : Addends}
    {cs : List (String × ℚ)} (h : LinearSum s cs) :
    ∃ cs', LinearSum (l.foldl (fun s a => buildsum a s) s) cs' := by
  induction l generalizing s cs with
  | nil => exact ⟨cs, h⟩
  | cons a l ih =>
    rw [List.forall_mem_cons] at hl
    obtain ⟨cs', h'⟩ := hl.1 s cs h
    exact ih hl.2 h'

theorem buildsum_isLinear {t : SExp} (ht : IsLinear t) (s : Addends) (l : List (String × ℚ))
    (h : LinearSum s l) : ∃ l', LinearSum (buildsum t s) l' := by
  rcases ht.cases with hm | ⟨ms, rfl, hm⟩
  · exact buildsum_isMonomial hm h
  · have e : buildsum (plus ms) s = buildsumArgs (ofList ms) s := by simp [buildsum]
    rw [e, buildsumArgs_ofList]
    exact foldl_buildsum (fun m hmem s l hs => buildsum_isMonomial (hm m hmem) hs) h

theorem collectsum_renderSum (l : List (String × ℚ)) :
    collectsum (renderSum l) = (l.filter fun p => p.2 ≠ 0).map monomial := by
  induction l with
  | nil => rfl
  | cons p l ih =>
    have hz := qzerop_iff (qnumber_qrep p.2)
    have ho := qeqp_one_iff (qnumber_qrep p.2)
    rw [qval_qrep] at hz ho
    have hp : (if qzerop (qrep p.2) then none
        else if qeqp (qrep p.2) (.int 1) then some (.sym p.1)
        else some (times [qrep p.2, .sym p.1])) = if p.2 = 0 then none else some (monomial p) := by
      simp only [hz, ho, monomial]
      split
      · rfl
      · split <;> rfl
    unfold collectsum renderSum at ih ⊢
    rw [List.map_cons, List.filterMap_cons, ih, hp]
    by_cases h0 : p.2 = 0 <;> simp [h0]

/-- A sum of terms each of which adds to a linear sum. -/
theorem isLinear_sigplus_of_buildsum {l : List SExp}
    (hl : ∀ m ∈ l, ∀ s cs, LinearSum s cs → ∃ cs', LinearSum (buildsum m s) cs') :
    IsLinear (sigplus (plus l)) := by
  have h0 : LinearSum (.int 0, []) [] := ⟨.int 0, rfl, by simp, .nil⟩
  obtain ⟨cs, h⟩ := foldl_buildsum hl h0
  have e : sigplus (plus l) = sumTerm (qnorm (buildsumArgs (ofList l) (.int 0, [])).1)
      (collectsum (buildsumArgs (ofList l) (.int 0, [])).2) := rfl
  rw [e, buildsumArgs_ofList, h.sum, collectsum_renderSum, qnorm_eq h.const]
  refine ⟨⟨_, cs.filter fun p => p.2 ≠ 0, h.sorted.filter _, ?_⟩, ?_, rfl⟩
  · intro p hp
    simpa using (List.mem_filter.1 hp).2
  · intro p hp
    exact h.var p (List.mem_filter.1 hp).1

theorem isLinear_sigplus {l : List SExp} (hl : ∀ a ∈ l, IsLinear a) : IsLinear (sigplus (plus l)) :=
  isLinear_sigplus_of_buildsum fun m hm => buildsum_isLinear (hl m hm)

/-! ### Products with one factor that is no number -/

structure LinearFactors (p : Factors) : Prop where
  coef : QNumber p.1
  coef_ne_zero : qval p.1 ≠ 0
  product : p.2 = [] ∨ ∃ x, IsVar x ∧ p.2 = [.sym x]

theorem buildproduct_number (u : SExp) {q : SExp} (hq : QNumber q) (p : Factors) :
    buildproduct u q p = if qval q = 0 then .error .zero else .ok (qtimes q p.1, p.2) := by
  have hz := qzerop_iff hq
  cases hq with
  | int i =>
    rw [buildproduct]
    simp
  | quo n hd =>
    simp only [buildproduct, qnumberp_cons, beq_self_eq_true, if_true, hz]

theorem ok_bind (p : Factors) (k : Factors → Except FastExit Factors) :
    (Except.ok p >>= k) = k p := rfl

theorem error_bind (x : FastExit) (k : Factors → Except FastExit Factors) :
    (Except.error x >>= k) = .error x := rfl

theorem foldlM_buildproduct_numbers (u : SExp) (c : List ℚ) {p : Factors} (hp : QNumber p.1)
    (h0 : qval p.1 ≠ 0) :
    (c.map qrep).foldlM (fun p arg => buildproduct u arg p) p = .error .zero ∨
      ∃ coef, QNumber coef ∧ qval coef ≠ 0 ∧
        (c.map qrep).foldlM (fun p arg => buildproduct u arg p) p = .ok (coef, p.2) := by
  induction c generalizing p with
  | nil => exact .inr ⟨p.1, hp, h0, rfl⟩
  | cons q c ih =>
    rw [List.map_cons, List.foldlM_cons, buildproduct_number u (qnumber_qrep q), qval_qrep]
    split
    · exact .inl rfl
    · apply ih ((qnumber_qrep q).qtimes hp)
      rw [qval_qtimes (qnumber_qrep q) hp, qval_qrep]
      exact mul_ne_zero ‹_› h0

theorem buildproduct_isMonomial (u : SExp) {m : SExp} (hm : IsMonomial m) {coef : SExp}
    (hc : QNumber coef) (h0 : qval coef ≠ 0) :
    buildproduct u m (coef, []) = .error .zero ∨
      ∃ p, LinearFactors p ∧ buildproduct u m (coef, []) = .ok p := by
  cases hm with
  | num q =>
    rw [buildproduct_number u (qnumber_qrep q), qval_qrep]
    split
    · exact .inl rfl
    case isFalse hq =>
      refine .inr ⟨_, ⟨(qnumber_qrep q).qtimes hc, ?_, .inl rfl⟩, rfl⟩
      rw [qval_qtimes (qnumber_qrep q) hc, qval_qrep]
      exact mul_ne_zero hq h0
  | @mono p hp hp0 =>
    have hsym : ∀ u coef, buildproduct u (.sym p.1) (coef, []) = .ok (coef, [.sym p.1]) := by
      intro u coef
      simp [buildproduct, cancel]
    right
    unfold monomial
    split
    · exact ⟨_, ⟨hc, h0, .inr ⟨p.1, hp, rfl⟩⟩, hsym u coef⟩
    · refine ⟨(qtimes (qrep p.2) coef, [.sym p.1]), ⟨(qnumber_qrep p.2).qtimes hc, ?_,
        .inr ⟨p.1, hp, rfl⟩⟩, ?_⟩
      · rw [qval_qtimes (qnumber_qrep _) hc, qval_qrep]
        exact mul_ne_zero hp0 h0
      · simp only [buildproduct, buildproductArgs, qnumberp_cons, beq_iff_eq, SExp.sym.injEq,
          String.reduceEq, if_false, if_true, ofList_cons, ofList_nil,
          buildproduct_number _ (qnumber_qrep p.2), qval_qrep, hp0]
        simp [cancel, ok_bind]

/-- The factors of a product: numbers, and one linear term among them. -/
def around (c₁ : List ℚ) (a : SExp) (c₂ : List ℚ) : List SExp := c₁.map qrep ++ a :: c₂.map qrep

theorem foldlM_buildproduct_around (u : SExp) {c₁ c₂ : List ℚ} {a : SExp} (ha : IsMonomial a) :
    (around c₁ a c₂).foldlM (fun p arg => buildproduct u arg p) (.int 1, []) = .error .zero ∨
      ∃ p, LinearFactors p ∧
        (around c₁ a c₂).foldlM (fun p arg => buildproduct u arg p) (.int 1, []) = .ok p := by
  have hone : qval (.int 1) ≠ 0 := by simp
  rw [around, List.foldlM_append]
  rcases foldlM_buildproduct_numbers u c₁ (p := (.int 1, [])) (.int 1) hone with
    h | ⟨coef, hc, h0, h⟩
  · rw [h]
    exact .inl rfl
  · rw [h, ok_bind, List.foldlM_cons]
    rcases buildproduct_isMonomial u ha hc h0 with h | ⟨p, hp, h⟩
    · rw [h]
      exact .inl rfl
    · rw [h, ok_bind]
      rcases foldlM_buildproduct_numbers u c₂ hp.coef hp.coef_ne_zero with
        h | ⟨coef', hc', h0', h⟩
      · exact .inl h
      · exact .inr ⟨(coef', p.2), ⟨hc', h0', hp.product⟩, h⟩

theorem isLinear_productTerm {p : Factors} (hp : LinearFactors p) : IsLinear (productTerm p) := by
  obtain ⟨coef, product⟩ := p
  obtain ⟨hc, h0, h⟩ := hp
  simp only at hc h0 h
  rcases h with rfl | ⟨x, hx, rfl⟩
  · rw [productTerm, qnorm_eq hc]
    exact (IsMonomial.num _).isLinear
  · have h1 := qnorm_eq_int_iff hc 1
    rw [Int.cast_one] at h1
    have e : productTerm (coef, [.sym x]) = monomial (x, qval coef) := by
      simp only [productTerm, monomial, h1, ← qnorm_eq hc]
    rw [e]
    exact (IsMonomial.mono hx h0).isLinear

theorem distrib1_numbers (c : List ℚ) : distrib1 (c.map qrep) [[]] = [c.map qrep] := by
  induction c with
  | nil => rfl
  | cons q c ih =>
    have hq : isForm "PLUS" (qrep q) = false := by
      unfold qrep
      split <;> rfl
    rw [List.map_cons, distrib1, hq, ih]
    rfl

theorem distrib1_around (c₁ c₂ : List ℚ) (ms : List SExp) :
    distrib1 (around c₁ (plus ms) c₂) [[]] = ms.map fun m => around c₁ m c₂ := by
  unfold around
  induction c₁ with
  | nil =>
    rw [List.map_nil, List.nil_append, distrib1, distrib1_numbers]
    simp only [isForm, consp_cons, car_cons, beq_self_eq_true, Bool.and_self, if_true, cdr_cons,
      toList_ofList, distrib2, List.map_singleton]
    exact List.map_eq_flatMap.symm
  | cons q c₁ ih =>
    have hq : isForm "PLUS" (qrep q) = false := by
      unfold qrep
      split <;> rfl
    rw [List.map_cons, List.cons_append, distrib1, hq, ih]
    simp [distrib2]

theorem buildproducts_times (l : List SExp) :
    buildproducts (times l) = l.foldlM (fun p arg => buildproduct (times l) arg p) (.int 1, []) := by
  rw [buildproducts, cdr_cons, toList_ofList]

theorem buildproducts_around_plus (c₁ c₂ : List ℚ) (ms : List SExp) :
    buildproducts (times (around c₁ (plus ms) c₂)) = .error .zero ∨
      buildproducts (times (around c₁ (plus ms) c₂)) =
        .error (.distrib (times (around c₁ (plus ms) c₂))) := by
  rw [buildproducts_times]
  generalize times (around c₁ (plus ms) c₂) = u
  have hone : qval (.int 1) ≠ 0 := by simp
  rw [around, List.foldlM_append]
  rcases foldlM_buildproduct_numbers u c₁ (p := (.int 1, [])) (.int 1) hone with
    h | ⟨coef, _, _, h⟩
  · rw [h]
    exact .inl rfl
  · rw [h, ok_bind, List.foldlM_cons]
    have hplus : buildproduct u (plus ms) (coef, []) = .error (.distrib u) := by
      simp [buildproduct]
    rw [hplus]
    exact .inr rfl

theorem sigtimes_around (c₁ c₂ : List ℚ) {a : SExp} (ha : IsLinear a) :
    OuterSums (times (around c₁ a c₂)) ∧ IsLinear (sigtimes (times (around c₁ a c₂))) := by
  have hzero : ∀ {u}, buildproducts u = .error .zero → OuterSums u ∧ IsLinear (sigtimes u) := by
    intro u h
    rw [sigtimes_eq, h]
    exact ⟨.zero h, qrep_intCast 0 ▸ (IsMonomial.num _).isLinear⟩
  have hmono : ∀ m, IsMonomial m → OuterSums (times (around c₁ m c₂)) ∧
      IsLinear (sigtimes (times (around c₁ m c₂))) := by
    intro m hm
    rcases foldlM_buildproduct_around (times (around c₁ m c₂)) hm with h | ⟨p, hp, h⟩ <;>
      rw [← buildproducts_times] at h
    · exact hzero h
    · rw [sigtimes_eq, h]
      exact ⟨.product h, isLinear_productTerm hp⟩
  rcases ha.cases with hm | ⟨ms, rfl, hm⟩
  · exact hmono a hm
  · rcases buildproducts_around_plus c₁ c₂ ms with h | h
    · exact hzero h
    · have hargs : distrib1 (times (around c₁ (plus ms) c₂)).cdr.toList [[]] =
          ms.map fun m => around c₁ m c₂ := by
        rw [cdr_cons, toList_ofList, distrib1_around]
      rw [sigtimes_eq, h]
      constructor
      · apply OuterSums.distrib h
        rw [hargs]
        intro l hl
        obtain ⟨m, hmem, rfl⟩ := List.mem_map.1 hl
        exact (hmono m (hm m hmem)).1
      · simp only [distrib, hargs]
        apply isLinear_sigplus
        intro t ht
        rw [List.map_map] at ht
        obtain ⟨m, hmem, rfl⟩ := List.mem_map.1 ht
        exact (hmono m (hm m hmem)).2

/-! ### Differences and quotients -/

theorem sigminus1_number {q : SExp} (hq : QNumber q) :
    sigminus1 q = qminus q ∧ sigminus1Products q = [] := by
  cases hq with
  | int i => exact ⟨by rw [sigminus1], by rw [sigminus1Products]; simp⟩
  | quo n hd => simp only [sigminus1, sigminus1Products, qnumberp_cons, beq_self_eq_true, if_true,
      and_self]

theorem sigminus1_isMonomial {m : SExp} (hm : IsMonomial m) :
    (∀ p ∈ sigminus1Products m, OuterSums p) ∧ IsLinear (sigminus1 m) := by
  cases hm with
  | num q =>
    obtain ⟨h1, h2⟩ := sigminus1_number (qnumber_qrep q)
    rw [h1, h2, qminus_qrep]
    exact ⟨by simp, (IsMonomial.num _).isLinear⟩
  | @mono p hp h0 =>
    unfold monomial
    split
    · have e : sigminus1 (.sym p.1) = monomial (p.1, -1) := by
        have h1 : qrep (-1) = .int (-1) := qrep_intCast (-1)
        have h2 : (-1 : ℚ) ≠ 1 := by norm_num
        simp only [sigminus1, monomial, h2, if_false, h1]
      rw [e]
      have hm : IsMonomial (monomial (p.1, -1)) := .mono hp (by norm_num)
      exact ⟨by simp [sigminus1Products], hm.isLinear⟩
    · have h := sigtimes_around [-p.2] []
        (IsMonomial.isLinear (IsMonomial.mono (p := (p.1, 1)) hp one_ne_zero))
      have e : around [-p.2] (monomial (p.1, 1)) [] = [qminus (qrep p.2), .sym p.1] := by
        simp [around, monomial, qminus_qrep]
      rw [e] at h
      simp only [sigminus1, sigminus1Products, qnumberp_cons, beq_iff_eq, SExp.sym.injEq,
        String.reduceEq, if_false, ofList_cons, car_cons, cdr_cons, (qnumber_qrep p.2).qnumberp,
        and_self, if_true, List.forall_mem_singleton]
      exact h

theorem sigminus1Args_ofList (l : List SExp) :
    sigminus1Args (ofList l) = l.map sigminus1 ∧
      sigminus1ArgsProducts (ofList l) = l.flatMap sigminus1Products := by
  induction l with
  | nil => exact ⟨rfl, rfl⟩
  | cons a l ih =>
    simp only [ofList_cons, sigminus1Args, sigminus1ArgsProducts, ih.1, ih.2, List.map_cons,
      List.flatMap_cons, and_self]

theorem sigminus1_isLinear {t : SExp} (ht : IsLinear t) :
    (∀ p ∈ sigminus1Products t, OuterSums p) ∧ IsLinear (sigminus1 t) := by
  rcases ht.cases with hm | ⟨ms, rfl, hm⟩
  · exact sigminus1_isMonomial hm
  · obtain ⟨h1, h2⟩ := sigminus1Args_ofList ms
    simp only [sigminus1, sigminus1Products, qnumberp_cons, beq_iff_eq, SExp.sym.injEq,
      String.reduceEq, if_false, false_and, if_true, h1, h2]
    constructor
    · intro p hp
      obtain ⟨m, hmem, hp⟩ := List.mem_flatMap.1 hp
      exact (sigminus1_isMonomial (hm m hmem)).1 p hp
    · apply isLinear_sigplus
      intro a ha
      obtain ⟨m, hmem, rfl⟩ := List.mem_map.1 ha
      exact (sigminus1_isMonomial (hm m hmem)).2

theorem isForm_qrep (f : String) (hf : f ≠ "QUO") (q : ℚ) : isForm f (qrep q) = false := by
  unfold qrep
  split
  · rfl
  · simpa [isForm] using hf.symm

theorem IsLinear.isForm_divide {t : SExp} (ht : IsLinear t) : isForm "DIVIDE" t = false := by
  rcases ht.cases with hm | ⟨ms, rfl, _⟩
  · cases hm with
    | num q => exact isForm_qrep _ (by decide) q
    | mono =>
      unfold monomial
      split <;> rfl
  · rfl

theorem makeProductFromDenom_qrep {q : ℚ} (hq : q ≠ 0) (p : Factors) :
    makeProductFromDenom (qrep q) p = (qquotient p.1 (qrep q), p.2) := by
  have hz := mt (qzerop_iff (qnumber_qrep q)).1 (by rwa [qval_qrep])
  have hn := qnumber_qrep q
  generalize qrep q = x at *
  cases hn with
  | int i =>
    have hi : i ≠ 0 := by simpa [qzerop] using hz
    rw [makeProductFromDenom, if_neg hi]
  | quo n hd =>
    simp only [makeProductFromDenom, qnumberp_cons, beq_self_eq_true, if_true, hz, if_false,
      Bool.false_eq_true]

theorem sigdivideParts_isLinear {t : SExp} {q : ℚ} (ht : IsLinear t) :
    (∀ p ∈ sigdividePartsProducts t (qrep q), OuterSums p) ∧
      sigdivideParts t (qrep q) = (t, qrep q) := by
  have h := sigtimes_around [1] [] (IsMonomial.num q).isLinear
  have e : around [1] (qrep q) [] = [.int 1, qrep q] := by
    have : qrep 1 = .int 1 := qrep_intCast 1
    simp [around, this]
  rw [e] at h
  have hval : sigtimes (times [.int 1, qrep q]) = qrep q := by
    apply h.2.eq_of_value (IsMonomial.num q).isLinear
    intro ρ
    have := canonizes_times_pair h.1 (.num (.int 1)) (.num (ρ := ρ) (qnumber_qrep q))
    rw [this.value_eq, value_int, Int.cast_one, one_mul]
  simp only [sigdividePartsProducts, sigdivideParts, splitNumer, ht.isForm_divide,
    isForm_qrep "DIVIDE" (by decide), if_false, Bool.false_eq_true, List.forall_mem_singleton, hval,
    and_true]
  exact h.1

theorem isLinear_quotient_isMonomial {t : SExp} {q : ℚ} (hq : q ≠ 0) (ht : IsMonomial t) :
    IsLinear (productTerm (qquotient (makeProductFromNumer t (.int 1, [])).1 (qrep q),
      (makeProductFromNumer t (.int 1, [])).2)) := by
  have hq' : qval (qrep q) ≠ 0 := by rwa [qval_qrep]
  have hquot : ∀ {coef : SExp}, QNumber coef → QNumber (qquotient coef (qrep q)) :=
    fun hc => hc.qquotient (qnumber_qrep q) hq'
  cases ht with
  | num r =>
    have hc := (QNumber.int 1).qtimes (qnumber_qrep r)
    rw [makeProductFromNumer_number (qnumber_qrep r), productTerm, qnorm_eq (hquot hc)]
    exact (IsMonomial.num _).isLinear
  | @mono p hp h0 =>
    have hmono : ∀ {coef : SExp}, QNumber coef → qval coef ≠ 0 →
        IsLinear (productTerm (qquotient coef (qrep q), [.sym p.1])) := by
      intro coef hc hc0
      apply isLinear_productTerm
      refine ⟨hquot hc, ?_, .inr ⟨p.1, hp, rfl⟩⟩
      rw [qval_qquotient hc (qnumber_qrep q) hq']
      exact div_ne_zero hc0 hq'
    unfold monomial
    split
    · rw [makeProductFromNumer]
      exact hmono (.int 1) (by simp)
    · simp only [makeProductFromNumer_cons, qnumberp_cons, beq_iff_eq, SExp.sym.injEq,
        String.reduceEq, if_false, if_true, ofList_cons, car_cons, cdr_cons,
        (qnumber_qrep p.2).qnumberp]
      apply hmono ((QNumber.int 1).qtimes (qnumber_qrep p.2))
      rw [qval_qtimes (.int 1) (qnumber_qrep _), qval_qrep]
      simpa using h0

theorem makeQuotient_isLinear {t : SExp} {q : ℚ} (hq : q ≠ 0) (h : q = 1 ∨ IsMonomial t)
    (ht : IsLinear t) :
    (∀ p ∈ makeQuotientProducts t (qrep q), OuterSums p) ∧ IsLinear (makeQuotient t (qrep q)) := by
  have hsym : (qrep q).symbolp = false := by
    unfold qrep
    split <;> rfl
  simp only [makeQuotientProducts, makeQuotient, hsym, isForm_qrep "PLUS" (by decide), Bool.or_self,
    Bool.false_eq_true, if_false, makeProductFromDenom_qrep hq]
  refine ⟨by simp, ?_⟩
  rcases ht.cases with hm | ⟨ms, rfl, _⟩
  · exact isLinear_quotient_isMonomial hq hm
  · have h1 : q = 1 := by
      apply h.resolve_right
      intro hm
      generalize e : plus ms = t at hm
      cases hm with
      | num r =>
        have := congrArg (isForm "PLUS") e
        rw [isForm_qrep "PLUS" (by decide)] at this
        cases this
      | mono =>
        unfold monomial at e
        split at e <;> simp at e
    have e : productTerm (qquotient (makeProductFromNumer (plus ms) (.int 1, [])).1 (qrep q),
        (makeProductFromNumer (plus ms) (.int 1, [])).2) = plus ms := by
      have hc : qnorm (qquotient (.int 1) (.int 1)) = .int 1 := by decide
      have hq1 : qrep 1 = .int 1 := qrep_intCast 1
      simp [makeProductFromNumer_cons, productTerm, h1, hq1, hc]
    rw [e]
    exact ht

theorem sigdivide_isLinear {t : SExp} {q : ℚ} (ht : IsLinear t) (hq : q ≠ 0)
    (h : q = 1 ∨ IsMonomial t) :
    (∀ p ∈ sigdivideProducts (divide t (qrep q)), OuterSums p) ∧
      IsLinear (sigdivide (divide t (qrep q))) := by
  obtain ⟨h1, h2⟩ := sigdivideParts_isLinear ht
  obtain ⟨h3, h4⟩ := makeQuotient_isLinear hq h ht
  rw [sigdivideProducts, sigdivide, arg1_divide, arg2_divide, h2, List.forall_mem_append]
  exact ⟨⟨h1, h3⟩, h4⟩

/-! ### Linear terms -/

def IsConstant (t : SExp) : Prop := ∃ q : ℚ, ∀ ρ, value ρ t = q

inductive LinearTerm : SExp → Prop
  | var {n : String} : IsVar n → LinearTerm (.sym n)
  | const (q : ℚ) : LinearTerm (qrep q)
  | plus {l : List SExp} : (∀ a ∈ l, LinearTerm a) → LinearTerm (plus l)
  | times {l : List SExp} : (∀ a ∈ l, LinearTerm a) →
      (l.Pairwise fun a b => IsConstant a ∨ IsConstant b) → LinearTerm (times l)
  | minus {a : SExp} : LinearTerm a → LinearTerm (form "MINUS" [a])
  | difference {a b : SExp} : LinearTerm a → LinearTerm b → LinearTerm (form "DIFFERENCE" [a, b])
  | divide {a b : SExp} {q : ℚ} : LinearTerm a → LinearTerm b → (∀ ρ, value ρ b = q) → q ≠ 0 →
      LinearTerm (divide a b)

/-- A quotient that needs no distribution: the divisor is 1, or the numerator is a constant or a
multiple of one variable. -/
def SimpleQuotient (a b : SExp) : Prop :=
  (∀ ρ, value ρ b = 1) ∨ IsConstant a ∨ ∃ (q : ℚ) (x : String), ∀ ρ, value ρ a = q * ρ x

mutual

/-- All quotients in the term are simple. -/
def SimpleQuotients : SExp → Prop
  | .cons f args => (f = .sym "DIVIDE" → SimpleQuotient args.car args.cdr.car) ∧
      SimpleQuotientsArgs args
  | _ => True

def SimpleQuotientsArgs : SExp → Prop
  | .cons a args => SimpleQuotients a ∧ SimpleQuotientsArgs args
  | _ => True

end

theorem simpleQuotientsArgs_iff (t : SExp) :
    SimpleQuotientsArgs t ↔ ∀ a ∈ t.toList, SimpleQuotients a := by
  induction t with
  | cons a d _ ih => rw [SimpleQuotientsArgs, ih, toList_cons, List.forall_mem_cons]
  | _ => simp [SimpleQuotientsArgs, toList]

theorem SimpleQuotients.of_form {f : String} {l : List SExp} (h : SimpleQuotients (form f l)) :
    ∀ a ∈ l, SimpleQuotients a := by
  rw [SimpleQuotients, simpleQuotientsArgs_iff, toList_ofList] at h
  exact h.2

theorem LinearTerm.arithTerm {t : SExp} (h : LinearTerm t) (ρ : String → ℚ) : ArithTerm ρ t := by
  induction h with
  | var hn => exact .var hn.ne_infinity
  | const q => exact .const (qnumber_qrep q)
  | plus _ ih => exact .plus ih
  | times _ _ ih => exact .times ih
  | minus _ ih => exact .minus ih
  | difference _ _ ih ih' => exact .difference ih ih'
  | divide _ _ hb hq ih ih' => exact .divide ih ih' (by rwa [hb])

theorem IsLinear.eq_qrep {t : SExp} (ht : IsLinear t) {q : ℚ} (h : ∀ ρ, value ρ t = q) :
    t = qrep q := by
  apply ht.eq_of_value (IsMonomial.num q).isLinear
  intro ρ
  rw [h, value_number (qnumber_qrep q), qval_qrep]

theorem IsLinear.isMonomial {t : SExp} (ht : IsLinear t) {q : ℚ} {x : String}
    (h : ∀ ρ, value ρ t = q * ρ x) : IsMonomial t := by
  by_cases hq : q = 0
  · rw [ht.eq_qrep (q := 0) (by simpa [hq] using h)]
    exact .num 0
  · obtain ⟨f, hf, rfl⟩ := ht
    obtain rfl : f = ⟨0, [(x, q)], List.pairwise_singleton _ _, by simpa using hq⟩ := by
      apply LinearForm.ext_of_value
      intro ρ
      rw [← (canonizes_toTerm hf).value_eq, h]
      simp [LinearForm.value]
    have e : toTerm ⟨0, [(x, q)], List.pairwise_singleton _ _, by simpa using hq⟩ =
        monomial (x, q) := by simp [toTerm, sumTerm, qrep]
    rw [e]
    exact .mono (hf _ (by simp)) hq

/-- The canonized factors of a linear product: numbers, and at most one other term. -/
theorem map_arithcan_around {l : List SExp} (hl : ∀ a ∈ l, IsLinear (arithcan a))
    (hv : ∀ a ∈ l, ∀ ρ, value ρ (arithcan a) = value ρ a)
    (hp : l.Pairwise fun a b => IsConstant a ∨ IsConstant b) :
    l = [] ∨ ∃ c₁ a c₂, IsLinear a ∧ l.map arithcan = around c₁ a c₂ := by
  have hconst : ∀ a ∈ l, IsConstant a → ∃ q, arithcan a = qrep q := by
    rintro a ha ⟨q, hq⟩
    refine ⟨q, (hl a ha).eq_qrep fun ρ => ?_⟩
    rw [hv a ha, hq]
  induction l with
  | nil => exact .inl rfl
  | cons b l ih =>
    rw [List.forall_mem_cons] at hl hv hconst
    rw [List.pairwise_cons] at hp
    right
    by_cases hb : IsConstant b
    · obtain ⟨q, hq⟩ := hconst.1 hb
      rcases ih hl.2 hv.2 hp.2 hconst.2 with rfl | ⟨c₁, a, c₂, ha, e⟩
      · exact ⟨[], arithcan b, [], hl.1, rfl⟩
      · refine ⟨q :: c₁, a, c₂, ha, ?_⟩
        rw [List.map_cons, hq, e]
        rfl
    · have hc : ∃ c : List ℚ, l.map arithcan = c.map qrep := by
        have h := fun a ha => hconst.2 a ha ((hp.1 a ha).resolve_left hb)
        clear ih hl hv hp hconst
        induction l with
        | nil => exact ⟨[], rfl⟩
        | cons a l ih =>
          rw [List.forall_mem_cons] at h
          obtain ⟨q, hq⟩ := h.1
          obtain ⟨c, hc⟩ := ih h.2
          exact ⟨q :: c, by rw [List.map_cons, List.map_cons, hq, hc]⟩
      obtain ⟨c, hc⟩ := hc
      refine ⟨[], arithcan b, c, hl.1, ?_⟩
      rw [List.map_cons, hc]
      rfl

theorem isLinear_arithcan {t : SExp} (ht : LinearTerm t) :
    SimpleQuotients t → IsLinear (arithcan t) ∧ Distributes t := by
  have hvalue : ∀ {a : SExp}, LinearTerm a → Distributes a → ∀ ρ,
      value ρ (arithcan a) = value ρ a := fun ha hd ρ => value_arithcan (ha.arithTerm ρ) hd
  induction ht with
  | @var n hn =>
    intro _
    have hm : IsMonomial (monomial (n, 1)) := .mono hn one_ne_zero
    exact ⟨by simpa [arithcan, monomial] using hm.isLinear, trivial⟩
  | const q =>
    intro _
    have e : arithcan (qrep q) = qrep q ∧ Distributes (qrep q) := by
      unfold qrep
      split <;> simp [arithcan, Distributes]
    exact ⟨by rw [e.1]; exact (IsMonomial.num q).isLinear, e.2⟩
  | plus _ ih =>
    intro h
    have ha := fun a ha => ih a ha (h.of_form a ha)
    rw [arithcan_form _ (by decide), distributes_form_iff (by decide)]
    refine ⟨isLinear_sigplus ?_, fun a hm => (ha a hm).2, ?_⟩
    · intro b hb
      obtain ⟨a, hm, rfl⟩ := List.mem_map.1 hb
      exact (ha a hm).1
    · intro u hu
      simp [sigmaProducts, isForm] at hu
  | @times l hlin hp ih =>
    intro h
    have ha := fun a ha => ih a ha (h.of_form a ha)
    rw [arithcan_form _ (by decide), distributes_form_iff (by decide)]
    have htimes : OuterSums (times (l.map arithcan)) ∧
        IsLinear (sigtimes (times (l.map arithcan))) := by
      rcases map_arithcan_around (fun a hm => (ha a hm).1)
        (fun a hm => hvalue (hlin a hm) (ha a hm).2) hp with rfl | ⟨c₁, a, c₂, hlin, e⟩
      · have hone : qrep 1 = .int 1 := qrep_intCast 1
        have e : sigtimes (times []) = qrep 1 := by
          rw [hone]
          decide +kernel
        exact ⟨.product (p := (.int 1, [])) rfl, by
          rw [List.map_nil, e]
          exact (IsMonomial.num 1).isLinear⟩
      · rw [e]
        exact sigtimes_around c₁ c₂ hlin
    refine ⟨htimes.2, fun a hm => (ha a hm).2, ?_⟩
    intro u hu
    obtain rfl : u = times (l.map arithcan) := List.mem_singleton.1 hu
    exact htimes.1
  | @minus a _ ih =>
    intro h
    obtain ⟨ha, hd⟩ := ih (h.of_form a (by simp))
    obtain ⟨h1, h2⟩ := sigminus1_isLinear ha
    rw [arithcan_form _ (by decide), distributes_form_iff (by decide)]
    exact ⟨h2, by simpa using hd, h1⟩
  | @difference a b _ _ ih ih' =>
    intro h
    obtain ⟨ha, hd⟩ := ih (h.of_form a (by simp))
    obtain ⟨hb, hd'⟩ := ih' (h.of_form b (by simp))
    obtain ⟨h1, h2⟩ := sigminus1_isLinear hb
    rw [arithcan_form _ (by decide), distributes_form_iff (by decide)]
    have hl : ∀ t ∈ [arithcan a, sigminus1 (arithcan b)], IsLinear t := by
      rw [List.forall_mem_cons, List.forall_mem_singleton]
      exact ⟨ha, h2⟩
    exact ⟨isLinear_sigplus hl, by simpa using ⟨hd, hd'⟩, h1⟩
  | @divide a b q ha hb hq h0 ih ih' =>
    intro h
    obtain ⟨hla, hda⟩ := ih (h.of_form a (by simp))
    obtain ⟨hlb, hdb⟩ := ih' (h.of_form b (by simp))
    have eb : arithcan b = qrep q := hlb.eq_qrep fun ρ => by rw [hvalue hb hdb, hq]
    have hs : q = 1 ∨ IsMonomial (arithcan a) := by
      rw [SimpleQuotients] at h
      rcases h.1 rfl with h1 | ⟨r, hr⟩ | ⟨r, x, hr⟩
      · left
        rw [← hq fun _ => 0]
        exact h1 _
      · right
        rw [hla.eq_qrep fun ρ => (hvalue ha hda ρ).trans (hr ρ)]
        exact .num r
      · exact .inr (hla.isMonomial fun ρ => (hvalue ha hda ρ).trans (hr ρ))
    obtain ⟨h1, h2⟩ := sigdivide_isLinear hla h0 hs
    rw [arithcan_form _ (by decide), distributes_form_iff (by decide), List.map_cons,
      List.map_singleton, eb]
    exact ⟨h2, by simpa using ⟨hda, hdb⟩, h1⟩

theorem arithcan_eq_of_value {s t : SExp} (hs : LinearTerm s) (ht : LinearTerm t)
    (hs' : SimpleQuotients s) (ht' : SimpleQuotients t) (h : ∀ ρ, value ρ s = value ρ t) :
    arithcan s = arithcan t := by
  obtain ⟨h1, h2⟩ := isLinear_arithcan hs hs'
  obtain ⟨h3, h4⟩ := isLinear_arithcan ht ht'
  apply h1.eq_of_value h3
  intro ρ
  rw [value_arithcan (hs.arithTerm ρ) h2, value_arithcan (ht.arithTerm ρ) h4, h]

theorem linearTerm_half {n : String} (hn : IsVar n) : LinearTerm (divide (.sym n) (.int 2)) := by
  have h2 : LinearTerm (.int 2) := qrep_intCast 2 ▸ .const 2
  exact .divide (q := 2) (.var hn) h2 (by simp) (by norm_num)

def halves (x y : String) : SExp := plus [divide (.sym x) (.int 2), divide (.sym y) (.int 2)]

theorem linearTerm_halves {x y : String} (hx : IsVar x) (hy : IsVar y) :
    LinearTerm (halves x y) := by
  apply LinearTerm.plus
  rw [List.forall_mem_cons, List.forall_mem_singleton]
  exact ⟨linearTerm_half hx, linearTerm_half hy⟩

theorem simpleQuotients_halves (x y : String) : SimpleQuotients (halves x y) := by
  have h : ∀ n : String, SimpleQuotient (.sym n) (.int 2) := by
    intro n
    refine .inr (.inr ⟨1, n, fun ρ => ?_⟩)
    rw [value_sym, one_mul]
  simpa [halves, SimpleQuotients, SimpleQuotientsArgs] using ⟨h x, h y⟩

theorem arithcan_halves_comm : arithcan (halves "x" "y") = arithcan (halves "y" "x") :=
  arithcan_eq_of_value (linearTerm_halves ⟨by decide, by decide⟩ ⟨by decide, by decide⟩)
    (linearTerm_halves ⟨by decide, by decide⟩ ⟨by decide, by decide⟩)
    (simpleQuotients_halves "x" "y") (simpleQuotients_halves "y" "x") fun ρ => by
      simp [halves, add_comm]

theorem linearTerm_average : LinearTerm average := by
  have h2 : LinearTerm (.int 2) := qrep_intCast 2 ▸ .const 2
  apply LinearTerm.divide (q := 2) _ h2 (by simp) (by norm_num)
  apply LinearTerm.plus
  rw [List.forall_mem_cons, List.forall_mem_singleton]
  exact ⟨.var ⟨by decide, by decide⟩, .var ⟨by decide, by decide⟩⟩

/-- `(x + y) / 2` stays a product with a sum in it, `x / 2 + y / 2` a sum of products. -/
theorem arithcan_average_ne :
    LinearTerm average ∧ LinearTerm (halves "x" "y") ∧
      (∀ ρ, value ρ average = value ρ (halves "x" "y")) ∧
      arithcan average ≠ arithcan (halves "x" "y") := by
  refine ⟨linearTerm_average, linearTerm_halves ⟨by decide, by decide⟩ ⟨by decide, by decide⟩,
    fun ρ => ?_, by decide +kernel⟩
  simp [average, halves, add_div]

end PVS.GroundProver
