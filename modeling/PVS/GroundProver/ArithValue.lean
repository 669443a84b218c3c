import Mathlib.Algebra.BigOperators.Group.List.Basic
import Mathlib.Algebra.BigOperators.Ring.List
import Mathlib.Tactic.NormNum
import PVS.GroundProver.Arith

/-! The value of arithmetic terms, and that `arithcan` keeps it. -/

namespace PVS.GroundProver

open SExp

/-! ### Values -/

def applyArith : SExp → List ℚ → ℚ
  | .sym "PLUS", vs => vs.sum
  | .sym "TIMES", vs => vs.prod
  | .sym "MINUS", [a] => -a
  | .sym "DIFFERENCE", [a, b] => a - b
  | .sym "DIVIDE", [a, b] => a / b
  | .sym "QUO", [a, b] => a / b
  | _, _ => 0

mutual

def value (ρ : String → ℚ) : SExp → ℚ
  | .sym n => ρ n
  | .int i => i
  | .cons f args => applyArith f (values ρ args)

def values (ρ : String → ℚ) : SExp → List ℚ
  | .cons a args => value ρ a :: values ρ args
  | _ => []

end

variable {ρ : String → ℚ}

theorem values_eq (t : SExp) : values ρ t = t.toList.map (value ρ) := by
  induction t with
  | cons a d _ ih => rw [values, ih, toList_cons, List.map_cons]
  | _ => rfl

@[simp] theorem value_sym (n : String) : value ρ (.sym n) = ρ n := by rw [value]

@[simp] theorem value_int (i : ℤ) : value ρ (.int i) = i := by rw [value]

theorem value_cons (f args : SExp) :
    value ρ (.cons f args) = applyArith f (args.toList.map (value ρ)) := by
  rw [value, values_eq]

theorem value_plus_cons (args : SExp) :
    value ρ (.cons (.sym "PLUS") args) = (args.toList.map (value ρ)).sum := value_cons _ _

theorem value_times_cons (args : SExp) :
    value ρ (.cons (.sym "TIMES") args) = (args.toList.map (value ρ)).prod := value_cons _ _

@[simp] theorem value_plus (l : List SExp) : value ρ (plus l) = (l.map (value ρ)).sum := by
  rw [value_plus_cons, toList_ofList]

@[simp] theorem value_times (l : List SExp) : value ρ (times l) = (l.map (value ρ)).prod := by
  rw [value_times_cons, toList_ofList]

@[simp] theorem value_divide (a b : SExp) : value ρ (divide a b) = value ρ a / value ρ b :=
  value_cons _ _

@[simp] theorem value_minus (a : SExp) : value ρ (form "MINUS" [a]) = -value ρ a := value_cons _ _

@[simp] theorem value_difference (a b : SExp) :
    value ρ (form "DIFFERENCE" [a, b]) = value ρ a - value ρ b := value_cons _ _

theorem value_number {q : SExp} (hq : QNumber q) : value ρ q = qval q := by
  cases hq with
  | int i => rw [value_int, qval_int]
  | quo n hd =>
    rw [value_cons]
    simp [applyArith]

/-! ### Reduced terms -/

/-- What the canonizer makes of a term whose denominators are not 0 under `ρ`. -/
inductive Reduced (ρ : String → ℚ) : SExp → Prop
  | sym {n : String} : .sym n ≠ infinity → Reduced ρ (.sym n)
  | num {q : SExp} : QNumber q → Reduced ρ q
  | inverse {d : SExp} : Reduced ρ d → qnumberp d = false → value ρ d ≠ 0 →
      Reduced ρ (divide (.int 1) d)
  | scaled {q t : SExp} : QNumber q → Reduced ρ t → Reduced ρ (times [q, t])
  | product {l : List SExp} : (∀ f ∈ l, Reduced ρ f) → (∀ f ∈ l, qnumberp f = false) →
      Reduced ρ (times l)
  | sum {l : List SExp} : (∀ s ∈ l, Reduced ρ s) → Reduced ρ (plus l)

/-- `t` is a reduced term with the value `v`. -/
structure Canonizes (ρ : String → ℚ) (t : SExp) (v : ℚ) : Prop where
  reduced : Reduced ρ t
  value_eq : value ρ t = v

inductive ReducedCons (ρ : String → ℚ) : SExp → SExp → Prop
  | quo (n : ℤ) {d : ℤ} : d ≠ 0 → ReducedCons ρ (.sym "QUO") (ofList [.int n, .int d])
  | inverse {d : SExp} : Reduced ρ d → qnumberp d = false → value ρ d ≠ 0 →
      ReducedCons ρ (.sym "DIVIDE") (ofList [.int 1, d])
  | scaled {q t : SExp} : QNumber q → Reduced ρ t → ReducedCons ρ (.sym "TIMES") (ofList [q, t])
  | product {args : SExp} : (∀ f ∈ args.toList, Reduced ρ f) →
      (∀ f ∈ args.toList, qnumberp f = false) → ReducedCons ρ (.sym "TIMES") args
  | sum {args : SExp} : (∀ s ∈ args.toList, Reduced ρ s) → ReducedCons ρ (.sym "PLUS") args

theorem Reduced.cons {f args : SExp} (h : Reduced ρ (.cons f args)) : ReducedCons ρ f args := by
  generalize e : SExp.cons f args = t at h
  cases h with
  | sym => simp at e
  | num hq =>
    cases hq with
    | int => simp at e
    | quo n hd =>
      injection e with h1 h2
      rw [h1, h2]
      exact .quo n hd
  | inverse hd hn h0 =>
    injection e with h1 h2
    rw [h1, h2]
    exact .inverse hd hn h0
  | scaled hq ht =>
    injection e with h1 h2
    rw [h1, h2]
    exact .scaled hq ht
  | product hf hn =>
    injection e with h1 h2
    rw [h1, h2]
    exact .product (by simpa using hf) (by simpa using hn)
  | sum hs =>
    injection e with h1 h2
    rw [h1, h2]
    exact .sum (by simpa using hs)

theorem ReducedCons.args_of_times {args : SExp} (h : ReducedCons ρ (.sym "TIMES") args) :
    ∀ a ∈ args.toList, Reduced ρ a := by
  generalize e : SExp.sym "TIMES" = f at h
  cases h with
  | scaled hq ht =>
    rw [toList_ofList]
    simp only [List.forall_mem_cons, List.not_mem_nil, false_imp_iff, implies_true, and_true]
    exact ⟨.num hq, ht⟩
  | product hf _ => exact hf
  | _ => simp at e

theorem QNumber.qnorm {q : SExp} (hq : QNumber q) : QNumber (qnorm q) := by
  rw [qnorm_eq hq]
  exact qnumber_qrep _

theorem qval_qnorm {q : SExp} (hq : QNumber q) : qval (qnorm q) = qval q := by
  rw [qnorm_eq hq, qval_qrep]

theorem Reduced.of_mem_plus {a args : SExp} (h : Reduced ρ (.cons (.sym "PLUS") args))
    (ha : a ∈ args.toList) : Reduced ρ a := by
  have hc := h.cons
  generalize e : SExp.sym "PLUS" = f at hc
  cases hc with
  | sum hs => exact hs a ha
  | _ => simp at e

/-! ### Sums -/

structure AddendOk (ρ : String → ℚ) (p : SExp × SExp) : Prop where
  term : Reduced ρ p.1
  coef : QNumber p.2

structure Addends.Ok (ρ : String → ℚ) (s : Addends) : Prop where
  const : QNumber s.1
  sum : ∀ p ∈ s.2, AddendOk ρ p

def addendsValue (ρ : String → ℚ) (sum : List (SExp × SExp)) : ℚ :=
  (sum.map fun p => qval p.2 * value ρ p.1).sum

def Addends.value (ρ : String → ℚ) (s : Addends) : ℚ := qval s.1 + addendsValue ρ s.2

@[simp] theorem addendsValue_cons (p : SExp × SExp) (sum : List (SExp × SExp)) :
    addendsValue ρ (p :: sum) = qval p.2 * value ρ p.1 + addendsValue ρ sum := by
  simp [addendsValue]

theorem addtosum_ok {u coef : SExp} (hu : AddendOk ρ (u, coef)) {sum : List (SExp × SExp)}
    (h : ∀ p ∈ sum, AddendOk ρ p) : ∀ p ∈ addtosum u coef sum, AddendOk ρ p := by
  induction sum with
  | nil => simpa [addtosum] using hu
  | cons p sum ih =>
    rw [List.forall_mem_cons] at h
    unfold addtosum
    split
    · rw [List.forall_mem_cons]
      exact ⟨⟨h.1.term, (h.1.coef.qplus hu.coef).qnorm⟩, h.2⟩
    · split
      · rw [List.forall_mem_cons, List.forall_mem_cons]
        exact ⟨hu, h⟩
      · rw [List.forall_mem_cons]
        exact ⟨h.1, ih h.2⟩

theorem addendsValue_addtosum {u coef : SExp} (hu : AddendOk ρ (u, coef))
    {sum : List (SExp × SExp)} (h : ∀ p ∈ sum, AddendOk ρ p) :
    addendsValue ρ (addtosum u coef sum) = addendsValue ρ sum + qval coef * value ρ u := by
  induction sum with
  | nil => simp [addtosum, addendsValue]
  | cons p sum ih =>
    rw [List.forall_mem_cons] at h
    have hc := h.1.coef.qplus hu.coef
    unfold addtosum
    split
    case isTrue e =>
      rw [addendsValue_cons, addendsValue_cons, qval_qnorm hc, qval_qplus h.1.coef hu.coef, e]
      ring
    case isFalse =>
      split
      · simp only [addendsValue_cons]
        ring
      · rw [addendsValue_cons, addendsValue_cons, ih h.2]
        ring

theorem Addends.Ok.add {s : Addends} (hs : s.Ok ρ) {u coef : SExp} (hu : AddendOk ρ (u, coef)) :
    Addends.Ok ρ (s.1, addtosum u coef s.2) :=
  ⟨hs.const, addtosum_ok hu hs.sum⟩

theorem Addends.Ok.value_add {s : Addends} (hs : s.Ok ρ) {u coef : SExp}
    (hu : AddendOk ρ (u, coef)) :
    Addends.value ρ (s.1, addtosum u coef s.2) = s.value ρ + qval coef * GroundProver.value ρ u := by
  simp only [Addends.value, addendsValue_addtosum hu hs.sum]
  ring

theorem Addends.Ok.value_const {s : Addends} (hs : s.Ok ρ) {q : SExp} (hq : QNumber q) :
    Addends.value ρ (qplus q s.1, s.2) = s.value ρ + qval q := by
  simp only [Addends.value, qval_qplus hq hs.const]
  ring

mutual

theorem buildsum_spec {u : SExp} (hu : Reduced ρ u) {s : Addends} (hs : s.Ok ρ) :
    (buildsum u s).Ok ρ ∧ (buildsum u s).value ρ = s.value ρ + value ρ u := by
  have h1 : AddendOk ρ (u, .int 1) := ⟨hu, .int 1⟩
  match u with
  | .sym n =>
    simp only [buildsum]
    exact ⟨hs.add h1, by rw [hs.value_add h1, qval_int, Int.cast_one, one_mul]⟩
  | .int i =>
    simp only [buildsum]
    exact ⟨⟨(QNumber.int i).qplus hs.const, hs.sum⟩, by rw [hs.value_const (.int i)]; simp⟩
  | .cons f args =>
    have hatom : Addends.Ok ρ (s.1, addtosum (.cons f args) (.int 1) s.2) ∧
        Addends.value ρ (s.1, addtosum (.cons f args) (.int 1) s.2) =
          s.value ρ + value ρ (.cons f args) :=
      ⟨hs.add h1, by rw [hs.value_add h1, qval_int, Int.cast_one, one_mul]⟩
    simp only [buildsum, qnumberp_cons, beq_iff_eq]
    cases hu.cons with
    | quo n hd =>
      have hq := QNumber.quo n hd
      simp only [if_true]
      exact ⟨⟨hq.qplus hs.const, hs.sum⟩, by rw [hs.value_const hq, value_number hq]⟩
    | inverse hd hn h0 => simpa using hatom
    | @scaled q t hq ht =>
      have h2 : AddendOk ρ (t, q) := ⟨ht, hq⟩
      simp only [ofList_cons, car_cons, cdr_cons, hq.qnumberp, and_self, if_true]
      simp only [SExp.sym.injEq, String.reduceEq, if_false]
      refine ⟨hs.add h2, ?_⟩
      rw [hs.value_add h2, value_times_cons]
      simp [value_number hq]
    | product hf hn =>
      have hcar : qnumberp args.car = false := by
        cases args with
        | cons a d => exact hn a (by simp)
        | _ => rfl
      simpa [hcar] using hatom
    | sum h =>
      simp only [SExp.sym.injEq, String.reduceEq, if_false, false_and, if_true]
      rw [value_plus_cons]
      exact buildsumArgs_spec h hs

theorem buildsumArgs_spec {args : SExp} (h : ∀ a ∈ args.toList, Reduced ρ a) {s : Addends}
    (hs : s.Ok ρ) : (buildsumArgs args s).Ok ρ ∧
      (buildsumArgs args s).value ρ = s.value ρ + (args.toList.map (value ρ)).sum := by
  match args with
  | .sym n => simpa [buildsumArgs, toList] using hs
  | .int i => simpa [buildsumArgs, toList] using hs
  | .cons a args =>
    rw [toList_cons, List.forall_mem_cons] at h
    obtain ⟨h1, h2⟩ := buildsum_spec h.1 hs
    obtain ⟨h3, h4⟩ := buildsumArgs_spec h.2 h1
    simp only [buildsumArgs, toList_cons, List.map_cons, List.sum_cons]
    exact ⟨h3, by rw [h4, h2, add_assoc]⟩

end

theorem collectsum_spec {sum : List (SExp × SExp)} (h : ∀ p ∈ sum, AddendOk ρ p) :
    (∀ t ∈ collectsum sum, Reduced ρ t) ∧
      ((collectsum sum).map (value ρ)).sum = addendsValue ρ sum := by
  induction sum with
  | nil => simp [collectsum, addendsValue]
  | cons p sum ih =>
    rw [List.forall_mem_cons] at h
    obtain ⟨hp, h⟩ := h
    obtain ⟨h1, h2⟩ := ih h
    have hz := qzerop_iff hp.coef
    have ho := qeqp_one_iff hp.coef
    rw [addendsValue_cons, ← h2]
    unfold collectsum at h1 ⊢
    rw [List.filterMap_cons]
    by_cases h0 : qzerop p.2 = true
    · rw [if_pos h0]
      simp only [hz.1 h0, zero_mul, zero_add]
      exact ⟨h1, trivial⟩
    · rw [if_neg h0]
      by_cases h1' : qeqp p.2 (.int 1) = true
      · rw [if_pos h1']
        simp only [List.forall_mem_cons, List.map_cons, List.sum_cons, ho.1 h1', one_mul]
        exact ⟨⟨hp.term, h1⟩, trivial⟩
      · rw [if_neg h1']
        simp only [List.forall_mem_cons, List.map_cons, List.sum_cons, value_times,
          value_number hp.coef, List.map_nil, List.prod_cons, List.prod_nil, mul_one]
        exact ⟨⟨.scaled hp.coef hp.term, h1⟩, trivial⟩

theorem qnorm_eq_int_iff {q : SExp} (hq : QNumber q) (i : ℤ) : qnorm q = .int i ↔ qval q = i := by
  rw [qnorm_eq hq, ← qrep_intCast, qrep_injective.eq_iff]

theorem canonizes_sumTerm {const : SExp} (hc : QNumber const) {result : List SExp}
    (h : ∀ t ∈ result, Reduced ρ t) :
    Canonizes ρ (sumTerm (qnorm const) result) (qval const + (result.map (value ρ)).sum) := by
  have hv : value ρ (qnorm const) = qval const := by rw [value_number hc.qnorm, qval_qnorm hc]
  have hzero : qnorm const = .int 0 → qval const = 0 := by
    intro e
    simpa using (qnorm_eq_int_iff hc 0).1 e
  have hplus : Canonizes ρ (plus (qnorm const :: result))
      (qval const + (result.map (value ρ)).sum) := by
    constructor
    · exact .sum (List.forall_mem_cons.2 ⟨.num hc.qnorm, h⟩)
    · rw [value_plus, List.map_cons, List.sum_cons, hv]
  unfold sumTerm
  split
  · exact ⟨.num hc.qnorm, by simp [hv]⟩
  · split
    case isTrue e => exact ⟨h _ (by simp), by simp [hzero e]⟩
    case isFalse => exact hplus
  · split
    case isTrue e => exact ⟨.sum h, by rw [value_plus, hzero e, zero_add]⟩
    case isFalse => exact hplus

theorem canonizes_sigplus {u : SExp} (h : ∀ a ∈ u.cdr.toList, Reduced ρ a) :
    Canonizes ρ (sigplus u) (u.cdr.toList.map (value ρ)).sum := by
  have h0 : Addends.Ok ρ (.int 0, []) := ⟨.int 0, by simp⟩
  have hv0 : Addends.value ρ (.int 0, []) = 0 := by simp [Addends.value, addendsValue]
  obtain ⟨hs, hv⟩ := buildsumArgs_spec h h0
  obtain ⟨hr, hsum⟩ := collectsum_spec hs.sum
  rw [hv0, zero_add, Addends.value, ← hsum] at hv
  rw [← hv]
  exact canonizes_sumTerm hs.const hr

theorem canonizes_plus {l : List SExp} (h : ∀ a ∈ l, Reduced ρ a) :
    Canonizes ρ (sigplus (plus l)) (l.map (value ρ)).sum := by
  have := canonizes_sigplus (u := plus l) (by simpa using h)
  simpa using this

/-! ### Products -/

structure FactorOk (ρ : String → ℚ) (t : SExp) : Prop where
  reduced : Reduced ρ t
  qnumberp_eq : qnumberp t = false

structure Factors.Ok (ρ : String → ℚ) (p : Factors) : Prop where
  coef : QNumber p.1
  product : ∀ f ∈ p.2, FactorOk ρ f

def Factors.value (ρ : String → ℚ) (p : Factors) : ℚ :=
  qval p.1 * (p.2.map (GroundProver.value ρ)).prod

theorem Factors.Ok.mul_coef {p : Factors} (hp : p.Ok ρ) {q : SExp} (hq : QNumber q) :
    Factors.Ok ρ (qtimes q p.1, p.2) :=
  ⟨hq.qtimes hp.coef, hp.product⟩

theorem Factors.Ok.value_mul_coef {p : Factors} (hp : p.Ok ρ) {q : SExp} (hq : QNumber q) :
    Factors.value ρ (qtimes q p.1, p.2) = qval q * p.value ρ := by
  simp only [Factors.value, qval_qtimes hq hp.coef]
  ring

theorem prod_erase {product : List SExp} {f : SExp} (h : f ∈ product) :
    (product.map (value ρ)).prod = value ρ f * ((product.erase f).map (value ρ)).prod := by
  rw [← List.prod_cons, ← List.map_cons]
  exact ((List.perm_cons_erase h).map _).prod_eq

theorem mem_cancel {inverse arg f : SExp} {product : List SExp} (h : f ∈ cancel inverse arg product) :
    f ∈ product ∨ f = arg := by
  unfold cancel at h
  split at h
  · exact .inl (List.mem_of_mem_erase h)
  · simpa using h

theorem prod_cancel {inverse arg : SExp} {product : List SExp}
    (h : inverse ∈ product → value ρ arg * value ρ inverse = 1) :
    ((cancel inverse arg product).map (value ρ)).prod =
      value ρ arg * (product.map (value ρ)).prod := by
  unfold cancel
  split
  case isTrue hm => rw [prod_erase hm, ← mul_assoc, h hm, one_mul]
  case isFalse => simp [mul_comm]

theorem Factors.Ok.cancel {p : Factors} (hp : p.Ok ρ) {inverse arg : SExp} (ha : FactorOk ρ arg)
    (h : inverse ∈ p.2 → GroundProver.value ρ arg * GroundProver.value ρ inverse = 1) :
    Factors.Ok ρ (p.1, cancel inverse arg p.2) ∧
      Factors.value ρ (p.1, GroundProver.cancel inverse arg p.2) =
        GroundProver.value ρ arg * p.value ρ := by
  constructor
  · refine ⟨hp.coef, fun f hf => ?_⟩
    rcases mem_cancel hf with hf | rfl
    · exact hp.product f hf
    · exact ha
  · simp only [Factors.value, prod_cancel h]
    ring

/-- What `buildproduct` does to a factor of value `v`. -/
def FactorSpec (ρ : String → ℚ) (v : ℚ) (p : Factors) : Except FastExit Factors → Prop
  | .ok p' => p'.Ok ρ ∧ p'.value ρ = v * p.value ρ
  | .error .zero => v = 0
  | .error (.distrib _) => True

theorem FactorSpec.bind {v w : ℚ} {p : Factors} {r : Except FastExit Factors}
    {k : Factors → Except FastExit Factors} (h : FactorSpec ρ v p r)
    (hk : ∀ p' : Factors, p'.Ok ρ → FactorSpec ρ w p' (k p')) :
    FactorSpec ρ (v * w) p (r >>= k) := by
  match r with
  | .error .zero => exact mul_eq_zero_of_left h w
  | .error (.distrib _) => trivial
  | .ok p' =>
    have hw := hk p' h.1
    change FactorSpec ρ (v * w) p (k p')
    match k p', hw with
    | .error .zero, hw => exact mul_eq_zero_of_right v hw
    | .error (.distrib _), _ => trivial
    | .ok p'', hw => exact ⟨hw.1, by rw [hw.2, h.2]; ring⟩

theorem Reduced.ne_zero_of_inverse {n : SExp} (h : Reduced ρ (divide (.int 1) n)) :
    value ρ n ≠ 0 := by
  have hc := h.cons
  generalize e : SExp.sym "DIVIDE" = f at hc
  generalize e' : ofList [SExp.int 1, n] = args at hc
  cases hc with
  | inverse hd hn h0 =>
    rw [ofList_inj] at e'
    simp only [List.cons.injEq, true_and, and_true] at e'
    rwa [e']
  | _ => simp at e

theorem Reduced.ne_infinity {n : String} (h : Reduced ρ (.sym n)) : .sym n ≠ infinity := by
  generalize e : SExp.sym n = t at h
  cases h with
  | sym h => exact h
  | num hq => cases hq <;> simp at e
  | _ => simp at e

theorem makeInverse1_eq {n : SExp} (h : n ≠ infinity) : makeInverse1 n = divide (.int 1) n :=
  if_neg h

mutual

theorem buildproduct_spec (u : SExp) {arg : SExp} (ha : Reduced ρ arg) {p : Factors}
    (hp : p.Ok ρ) : FactorSpec ρ (value ρ arg) p (buildproduct u arg p) := by
  match arg with
  | .sym n =>
    simp only [buildproduct, FactorSpec, makeInverse1_eq ha.ne_infinity]
    apply hp.cancel ⟨ha, rfl⟩
    intro hm
    have h0 := (hp.product _ hm).reduced.ne_zero_of_inverse
    rw [value_divide, value_int, Int.cast_one, mul_one_div_cancel h0]
  | .int i =>
    simp only [buildproduct]
    split
    case isTrue h => simp [FactorSpec, h]
    case isFalse => exact ⟨hp.mul_coef (.int i), by rw [hp.value_mul_coef (.int i)]; simp⟩
  | .cons f args =>
    simp only [buildproduct, qnumberp_cons, beq_iff_eq]
    cases ha.cons with
    | quo n hd =>
      have hq := QNumber.quo n hd
      simp only [if_true]
      split
      case isTrue h => exact (value_number hq).trans ((qzerop_iff hq).1 h)
      case isFalse => exact ⟨hp.mul_coef hq, by rw [hp.value_mul_coef hq, value_number hq]⟩
    | @inverse d hd hn h0 =>
      simp only [SExp.sym.injEq, String.reduceEq, if_false, if_true, FactorSpec]
      apply hp.cancel ⟨ha, rfl⟩
      intro _
      change value ρ (divide (.int 1) d) * value ρ d = 1
      rw [value_divide, value_int, Int.cast_one, one_div_mul_cancel h0]
    | scaled hq ht =>
      simp only [SExp.sym.injEq, String.reduceEq, if_false, if_true]
      rw [value_times_cons]
      exact buildproductArgs_spec ha.cons.args_of_times hp
    | product hf hn =>
      simp only [SExp.sym.injEq, String.reduceEq, if_false, if_true]
      rw [value_times_cons]
      exact buildproductArgs_spec hf hp
    | sum h => simp [FactorSpec]

theorem buildproductArgs_spec {args : SExp} (h : ∀ a ∈ args.toList, Reduced ρ a) {p : Factors}
    (hp : p.Ok ρ) :
    FactorSpec ρ (args.toList.map (value ρ)).prod p (buildproductArgs args p) := by
  match args with
  | .sym n => simpa [buildproductArgs, toList, FactorSpec] using hp
  | .int i => simpa [buildproductArgs, toList, FactorSpec] using hp
  | .cons a args =>
    rw [toList_cons, List.forall_mem_cons] at h
    have h1 := buildproduct_spec a h.1 hp
    simp only [buildproductArgs, toList_cons, List.map_cons, List.prod_cons]
    exact h1.bind fun p' hp' => buildproductArgs_spec h.2 hp'

end

theorem buildproducts_spec {u : SExp} (h : ∀ a ∈ u.cdr.toList, Reduced ρ a) :
    FactorSpec ρ (u.cdr.toList.map (value ρ)).prod (.int 1, []) (buildproducts u) := by
  have hfold : ∀ (l : List SExp), (∀ a ∈ l, Reduced ρ a) → ∀ p : Factors, p.Ok ρ →
      FactorSpec ρ (l.map (value ρ)).prod p
        (l.foldlM (fun p arg => buildproduct u arg p) p) := by
    intro l
    induction l with
    | nil =>
      intro _ p hp
      exact ⟨hp, (one_mul _).symm⟩
    | cons a l ih =>
      intro ha p hp
      rw [List.forall_mem_cons] at ha
      rw [List.foldlM_cons, List.map_cons, List.prod_cons]
      exact (buildproduct_spec u ha.1 hp).bind (ih ha.2)
  exact hfold _ h _ ⟨.int 1, by simp⟩

theorem canonizes_productTerm {p : Factors} (hp : p.Ok ρ) :
    Canonizes ρ (productTerm p) (p.value ρ) := by
  obtain ⟨coef, product⟩ := p
  obtain ⟨hc, hprod⟩ := hp
  have hv : value ρ (qnorm coef) = qval coef := by rw [value_number hc.qnorm, qval_qnorm hc]
  have hone : qnorm coef = .int 1 → qval coef = 1 := by
    intro e
    simpa using (qnorm_eq_int_iff hc 1).1 e
  have hscaled : ∀ t v, Canonizes ρ t v →
      Canonizes ρ (if qnorm coef = .int 1 then t else times [qnorm coef, t]) (qval coef * v) := by
    intro t v ht
    split
    case isTrue e => exact ⟨ht.reduced, by rw [hone e, one_mul, ht.value_eq]⟩
    case isFalse => exact ⟨.scaled hc.qnorm ht.reduced, by simp [hv, ht.value_eq]⟩
  unfold productTerm Factors.value
  match product with
  | [] => exact ⟨.num hc.qnorm, by simp [hv]⟩
  | [t] =>
    apply hscaled
    exact ⟨(hprod t (by simp)).reduced, by simp⟩
  | t :: t' :: product =>
    apply hscaled
    have hperm := List.perm_insertionSort (fun a b => arithord b a = false) (t :: t' :: product)
    constructor
    · apply Reduced.product
      · intro f hf
        exact (hprod f (hperm.mem_iff.1 hf)).reduced
      · intro f hf
        exact (hprod f (hperm.mem_iff.1 hf)).qnumberp_eq
    · rw [value_times]
      exact (hperm.map _).prod_eq

/-! ### Distribution -/

theorem sum_distrib2 (term : SExp) (product : List (List SExp)) :
    ((distrib2 term product).map fun l => (l.map (value ρ)).prod).sum =
      value ρ term * (product.map fun l => (l.map (value ρ)).prod).sum := by
  unfold distrib2
  rw [← List.sum_map_mul_left, List.map_map]
  rfl

theorem sum_distrib1 (product : List SExp) (sum : List (List SExp)) :
    ((distrib1 product sum).map fun l => (l.map (value ρ)).prod).sum =
      (product.map (value ρ)).prod * (sum.map fun l => (l.map (value ρ)).prod).sum := by
  induction product with
  | nil => simp [distrib1]
  | cons t product ih =>
    unfold distrib1
    rw [List.map_cons, List.prod_cons, mul_assoc, ← ih]
    split
    case isTrue ht =>
      obtain ⟨args, rfl⟩ := isForm_iff.1 ht
      rw [value_plus_cons, cdr_cons]
      induction args.toList with
      | nil => simp
      | cons a l ih' =>
        rw [List.flatMap_cons, List.map_append, List.sum_append, ih', sum_distrib2, List.map_cons,
          List.sum_cons, add_mul]
    case isFalse => exact sum_distrib2 t _

theorem reduced_of_mem_distrib1 {product l : List SExp} (hp : ∀ a ∈ product, Reduced ρ a)
    (hl : l ∈ distrib1 product [[]]) : ∀ a ∈ l, Reduced ρ a := by
  induction product generalizing l with
  | nil =>
    obtain rfl : l = [] := by simpa [distrib1] using hl
    simp
  | cons t product ih =>
    rw [List.forall_mem_cons] at hp
    unfold distrib1 at hl
    split at hl
    case isTrue ht =>
      obtain ⟨args, rfl⟩ := isForm_iff.1 ht
      simp only [List.mem_flatMap, distrib2, List.mem_map] at hl
      obtain ⟨arg, harg, l', hl', rfl⟩ := hl
      rw [List.forall_mem_cons]
      exact ⟨hp.1.of_mem_plus harg, ih hp.2 hl'⟩
    case isFalse =>
      simp only [distrib2, List.mem_map] at hl
      obtain ⟨l', hl', rfl⟩ := hl
      rw [List.forall_mem_cons]
      exact ⟨hp.1, ih hp.2 hl'⟩

/-- `sigtimes` on `u`, and every call of `sigtimes` that `distrib` makes from there, finds a sum
among its arguments only, never inside a product. -/
inductive OuterSums : SExp → Prop
  | product {u : SExp} {p : Factors} : buildproducts u = .ok p → OuterSums u
  | zero {u : SExp} : buildproducts u = .error .zero → OuterSums u
  | distrib {u : SExp} : buildproducts u = .error (.distrib u) →
      (∀ l ∈ distrib1 u.cdr.toList [[]], OuterSums (times l)) → OuterSums u

theorem canonizes_sigtimes {u : SExp} (h : OuterSums u) :
    (∀ a ∈ u.cdr.toList, Reduced ρ a) →
      Canonizes ρ (sigtimes u) (u.cdr.toList.map (value ρ)).prod := by
  induction h with
  | @product u p e =>
    intro ha
    have hs := buildproducts_spec ha
    rw [e] at hs
    rw [sigtimes_eq, e]
    have hv : p.value ρ = (u.cdr.toList.map (value ρ)).prod := by
      rw [hs.2]
      simp [Factors.value]
    exact hv ▸ canonizes_productTerm hs.1
  | zero e =>
    intro ha
    have hs := buildproducts_spec ha
    rw [e] at hs
    rw [sigtimes_eq, e, hs]
    exact ⟨.num (.int 0), by simp⟩
  | @distrib u e _ ih =>
    intro ha
    have harg : ∀ l ∈ distrib1 u.cdr.toList [[]],
        Canonizes ρ (sigtimes (times l)) (l.map (value ρ)).prod := by
      intro l hl
      have := ih l hl
      simp only [cdr_cons, toList_ofList] at this
      exact this (reduced_of_mem_distrib1 ha hl)
    have hsum : (((distrib1 u.cdr.toList [[]]).map fun l => sigtimes (times l)).map
        (value ρ)).sum = (u.cdr.toList.map (value ρ)).prod := by
      calc _ = ((distrib1 u.cdr.toList [[]]).map fun l => (l.map (value ρ)).prod).sum := by
            rw [List.map_map]
            congr 1
            apply List.map_congr_left
            intro l hl
            exact (harg l hl).value_eq
        _ = _ := by simp [sum_distrib1]
    rw [sigtimes_eq, e, ← hsum]
    apply canonizes_plus
    intro a ha
    obtain ⟨l, hl, rfl⟩ := List.mem_map.1 ha
    exact (harg l hl).reduced

theorem canonizes_times {l : List SExp} (h : OuterSums (times l)) (hl : ∀ a ∈ l, Reduced ρ a) :
    Canonizes ρ (sigtimes (times l)) (l.map (value ρ)).prod := by
  have := canonizes_sigtimes (ρ := ρ) h (by simpa using hl)
  simpa using this

theorem canonizes_times_pair {a b : SExp} (h : OuterSums (times [a, b])) (ha : Reduced ρ a)
    (hb : Reduced ρ b) : Canonizes ρ (sigtimes (times [a, b])) (value ρ a * value ρ b) := by
  have := canonizes_times h (List.forall_mem_cons.2 ⟨ha, List.forall_mem_singleton.2 hb⟩)
  simpa using this

/-! ### Differences -/

mutual

/-- The products `sigminus1` hands to `sigtimes`. -/
def sigminus1Products : SExp → List SExp
  | .cons f args =>
    if qnumberp (.cons f args) then []
    else if f = .sym "TIMES" ∧ qnumberp args.car then
      [.cons (.sym "TIMES") (.cons (qminus args.car) args.cdr)]
    else if f = .sym "PLUS" then sigminus1ArgsProducts args
    else [times [.int (-1), .cons f args]]
  | _ => []

def sigminus1ArgsProducts : SExp → List SExp
  | .cons a args => sigminus1Products a ++ sigminus1ArgsProducts args
  | _ => []

end

mutual

theorem canonizes_sigminus1 {u : SExp} (hu : Reduced ρ u)
    (h : ∀ p ∈ sigminus1Products u, OuterSums p) : Canonizes ρ (sigminus1 u) (-value ρ u) := by
  match u with
  | .sym n => exact ⟨.scaled (.int (-1)) hu, by simp [sigminus1]⟩
  | .int i => exact ⟨.num (.int _), by simp [sigminus1, qminus]⟩
  | .cons f args =>
    have hprod : OuterSums (times [.int (-1), .cons f args]) →
        Canonizes ρ (sigtimes (times [.int (-1), .cons f args])) (-value ρ (.cons f args)) := by
      intro h
      have := canonizes_times_pair h (.num (.int (-1))) hu
      simpa using this
    simp only [sigminus1, sigminus1Products, qnumberp_cons, beq_iff_eq] at h ⊢
    cases hu.cons with
    | quo n hd =>
      have hq := QNumber.quo n hd
      simp only [if_true]
      exact ⟨.num hq.qminus, by rw [value_number hq.qminus, qval_qminus hq, value_number hq]⟩
    | inverse hd hn h0 =>
      simp [-value_divide] at h ⊢
      exact hprod h
    | @scaled q t hq ht =>
      simp only [ofList_cons, car_cons, cdr_cons, hq.qnumberp, and_self, if_true, if_false,
        SExp.sym.injEq, String.reduceEq, List.forall_mem_singleton] at h ⊢
      have := canonizes_times_pair (a := qminus q) (b := t) h (.num hq.qminus) ht
      rw [value_number hq.qminus, qval_qminus hq, ← value_number (ρ := ρ) hq, neg_mul] at this
      have hv : value ρ (times [q, t]) = value ρ q * value ρ t := by simp
      rw [← hv] at this
      exact this
    | product hf hn =>
      have hcar : qnumberp args.car = false := by
        cases args with
        | cons a d => exact hn a (by simp)
        | _ => rfl
      simp [hcar] at h ⊢
      exact hprod h
    | sum hs =>
      simp only [SExp.sym.injEq, String.reduceEq, if_false, false_and, if_true] at h ⊢
      obtain ⟨h1, h2⟩ := canonizes_sigminus1Args hs h
      rw [value_plus_cons, ← h2]
      exact canonizes_plus h1

theorem canonizes_sigminus1Args {args : SExp} (ha : ∀ a ∈ args.toList, Reduced ρ a)
    (h : ∀ p ∈ sigminus1ArgsProducts args, OuterSums p) :
    (∀ a ∈ sigminus1Args args, Reduced ρ a) ∧
      ((sigminus1Args args).map (value ρ)).sum = -(args.toList.map (value ρ)).sum := by
  match args with
  | .sym n => simp [sigminus1Args, toList]
  | .int i => simp [sigminus1Args, toList]
  | .cons a args =>
    rw [toList_cons, List.forall_mem_cons] at ha
    simp only [sigminus1ArgsProducts, List.forall_mem_append] at h
    have h1 := canonizes_sigminus1 ha.1 h.1
    obtain ⟨h2, h3⟩ := canonizes_sigminus1Args ha.2 h.2
    simp only [sigminus1Args, toList_cons, List.map_cons, List.sum_cons, List.forall_mem_cons]
    exact ⟨⟨h1.reduced, h2⟩, by rw [h1.value_eq, h3]; ring⟩

end

/-! ### Quotients -/

theorem prodFactor_ok {p : Factors} (hp : p.Ok ρ) {l : List SExp} (hl : ∀ f ∈ l, FactorOk ρ f) :
    Factors.Ok ρ (p.1, p.2 ++ l) ∧
      Factors.value ρ (p.1, p.2 ++ l) = p.value ρ * (l.map (value ρ)).prod := by
  refine ⟨⟨hp.coef, List.forall_mem_append.2 ⟨hp.product, hl⟩⟩, ?_⟩
  simp only [Factors.value, List.map_append, List.prod_append]
  ring

theorem mulCoef_ok {p : Factors} (hp : p.Ok ρ) {q : SExp} (hq : QNumber q) :
    Factors.Ok ρ (qtimes p.1 q, p.2) ∧
      Factors.value ρ (qtimes p.1 q, p.2) = p.value ρ * value ρ q := by
  refine ⟨⟨hp.coef.qtimes hq, hp.product⟩, ?_⟩
  simp only [Factors.value, qval_qtimes hp.coef hq, value_number hq]
  ring

theorem makeProductFromNumer_number {q : SExp} (hq : QNumber q) (p : Factors) :
    makeProductFromNumer q p = (qtimes p.1 q, p.2) := by
  cases hq with
  | int i => rw [makeProductFromNumer]
  | quo n hd => exact makeProductFromNumer_cons _ _ p

theorem makeProductFromNumer_spec {numer : SExp} (hn : Reduced ρ numer) :
    ∀ {p : Factors}, p.Ok ρ → (makeProductFromNumer numer p).Ok ρ ∧
      (makeProductFromNumer numer p).value ρ = p.value ρ * value ρ numer := by
  have hfactor : ∀ {p : Factors}, p.Ok ρ → ∀ {t : SExp}, FactorOk ρ t →
      Factors.Ok ρ (p.1, p.2 ++ [t]) ∧
        Factors.value ρ (p.1, p.2 ++ [t]) = p.value ρ * value ρ t := by
    intro p hp t ht
    simpa using prodFactor_ok hp (l := [t]) (List.forall_mem_singleton.2 ht)
  induction hn with
  | sym h =>
    intro p hp
    rw [makeProductFromNumer]
    exact hfactor hp ⟨.sym h, rfl⟩
  | num hq =>
    intro p hp
    rw [makeProductFromNumer_number hq]
    exact mulCoef_ok hp hq
  | inverse hd hn h0 _ =>
    intro p hp
    simp only [makeProductFromNumer_cons, qnumberp_cons, beq_iff_eq, SExp.sym.injEq, String.reduceEq,
      if_false]
    exact hfactor hp ⟨.inverse hd hn h0, rfl⟩
  | @scaled q t hq ht ih =>
    intro p hp
    obtain ⟨h1, h2⟩ := mulCoef_ok hp hq
    obtain ⟨h3, h4⟩ := ih h1
    have hv : value ρ (times [q, t]) = value ρ q * value ρ t := by simp
    simp only [makeProductFromNumer_cons, qnumberp_cons, beq_iff_eq, SExp.sym.injEq, String.reduceEq,
      if_false, if_true, ofList_cons, car_cons, cdr_cons, hq.qnumberp]
    exact ⟨h3, by rw [h4, h2, mul_assoc, ← hv]⟩
  | @product l hf hn _ =>
    intro p hp
    rw [value_times]
    have hl := prodFactor_ok hp fun f hm => (⟨hf f hm, hn f hm⟩ : FactorOk ρ f)
    simp only [makeProductFromNumer_cons, qnumberp_cons, beq_iff_eq, SExp.sym.injEq, String.reduceEq,
      if_false, if_true, toList_ofList]
    have hcar : qnumberp (ofList l).car = false := by
      cases l with
      | nil => rfl
      | cons a l => exact hn a (by simp)
    rw [hcar]
    exact hl
  | sum hs _ =>
    intro p hp
    simp only [makeProductFromNumer_cons, qnumberp_cons, beq_iff_eq, SExp.sym.injEq, String.reduceEq,
      if_false]
    exact hfactor hp ⟨.sum hs, rfl⟩

mutual

theorem makeProductFromDenom_spec {denom : SExp} (hd : Reduced ρ denom) (h0 : value ρ denom ≠ 0)
    {p : Factors} (hp : p.Ok ρ) : (makeProductFromDenom denom p).Ok ρ ∧
      (makeProductFromDenom denom p).value ρ = p.value ρ / value ρ denom := by
  have hnum : QNumber denom → qval denom ≠ 0 ∧ Factors.Ok ρ (qquotient p.1 denom, p.2) ∧
      Factors.value ρ (qquotient p.1 denom, p.2) = p.value ρ / value ρ denom := by
    intro hq
    rw [value_number hq] at h0 ⊢
    refine ⟨h0, ⟨hp.coef.qquotient hq h0, hp.product⟩, ?_⟩
    simp only [Factors.value, qval_qquotient hp.coef hq h0]
    ring
  have hinv : ∀ {inv : SExp}, FactorOk ρ inv → value ρ inv = 1 / value ρ denom →
      Factors.Ok ρ (p.1, cancel denom inv p.2) ∧
        Factors.value ρ (p.1, cancel denom inv p.2) = p.value ρ / value ρ denom := by
    intro inv hi e
    have hone : denom ∈ p.2 → value ρ inv * value ρ denom = 1 := by
      intro _
      rw [e, one_div_mul_cancel h0]
    have := hp.cancel hi hone
    rwa [e, one_div_mul_eq_div] at this
  match denom with
  | .sym n =>
    have hn := hd.ne_infinity
    rw [makeProductFromDenom, makeInverse1_eq hn]
    exact hinv ⟨.inverse hd rfl h0, rfl⟩ (by simp)
  | .int i =>
    obtain ⟨hi, h⟩ := hnum (.int i)
    have hi : i ≠ 0 := by simpa using hi
    rw [makeProductFromDenom, if_neg hi]
    exact h
  | .cons f args =>
    simp only [makeProductFromDenom, qnumberp_cons, beq_iff_eq]
    cases hd.cons with
    | quo n he =>
      obtain ⟨hi, h⟩ := hnum (.quo n he)
      have hz := mt (qzerop_iff (.quo n he)).1 hi
      simp only [if_true, hz]
      exact h
    | @inverse d hd' hn h1 =>
      simp only [SExp.sym.injEq, String.reduceEq, if_false]
      have hval : value ρ d = 1 / value ρ (divide (.int 1) d) := by simp
      exact hinv (⟨hd', hn⟩ : FactorOk ρ d) hval
    | scaled hq ht =>
      simp only [SExp.sym.injEq, String.reduceEq, if_false, if_true]
      rw [value_times_cons] at h0 ⊢
      exact makeProductFromDenoms_spec hd.cons.args_of_times h0 hp
    | product hf hn =>
      simp only [SExp.sym.injEq, String.reduceEq, if_false, if_true]
      rw [value_times_cons] at h0 ⊢
      exact makeProductFromDenoms_spec hf h0 hp
    | sum hs =>
      simp only [SExp.sym.injEq, String.reduceEq, if_false]
      apply hinv
      · exact ⟨.inverse hd rfl h0, rfl⟩
      · change value ρ (divide (.int 1) (.cons (.sym "PLUS") args)) = _
        simp

theorem makeProductFromDenoms_spec {args : SExp} (ha : ∀ a ∈ args.toList, Reduced ρ a)
    (h0 : (args.toList.map (value ρ)).prod ≠ 0) {p : Factors} (hp : p.Ok ρ) :
    (makeProductFromDenoms args p).Ok ρ ∧
      (makeProductFromDenoms args p).value ρ = p.value ρ / (args.toList.map (value ρ)).prod := by
  match args with
  | .sym n => simpa [makeProductFromDenoms, toList] using hp
  | .int i => simpa [makeProductFromDenoms, toList] using hp
  | .cons a args =>
    simp only [toList_cons, List.forall_mem_cons, List.map_cons, List.prod_cons] at ha h0 ⊢
    obtain ⟨h1, h2⟩ := makeProductFromDenom_spec ha.1 (left_ne_zero_of_mul h0) hp
    obtain ⟨h3, h4⟩ := makeProductFromDenoms_spec ha.2 (right_ne_zero_of_mul h0) h1
    simp only [makeProductFromDenoms]
    exact ⟨h3, by rw [h4, h2, div_div]⟩

end

@[simp] theorem arg1_divide (a b : SExp) : (divide a b).arg1 = a := rfl
@[simp] theorem arg2_divide (a b : SExp) : (divide a b).arg2 = b := rfl

def sigdividePartsProducts (numer1 denom1 : SExp) : List SExp :=
  if isForm "DIVIDE" denom1 then
    [times [(splitNumer numer1).1, denom1.arg2], times [(splitNumer numer1).2, denom1.arg1]]
  else [times [(splitNumer numer1).2, denom1]]

def makeQuotientProducts (numer denom : SExp) : List SExp :=
  if denom.symbolp || isForm "PLUS" denom then [times [numer, makeInverse1 denom]] else []

/-- The products `sigdivide` hands to `sigtimes`. -/
def sigdivideProducts (u : SExp) : List SExp :=
  let parts := sigdivideParts u.arg1 u.arg2
  sigdividePartsProducts u.arg1 u.arg2 ++ makeQuotientProducts parts.1 parts.2

theorem Reduced.isForm_divide {t : SExp} (h : Reduced ρ t) (ht : isForm "DIVIDE" t = true) :
    ∃ d, t = divide (.int 1) d ∧ Reduced ρ d ∧ value ρ d ≠ 0 := by
  obtain ⟨args, rfl⟩ := isForm_iff.1 ht
  have hc := h.cons
  generalize e : SExp.sym "DIVIDE" = f at hc
  cases hc with
  | inverse hd hn h0 => exact ⟨_, rfl, hd, h0⟩
  | _ => simp at e

theorem splitNumer_spec {numer1 : SExp} (h : Reduced ρ numer1) :
    Reduced ρ (splitNumer numer1).1 ∧ Reduced ρ (splitNumer numer1).2 ∧
      value ρ (splitNumer numer1).2 ≠ 0 ∧
      value ρ numer1 = value ρ (splitNumer numer1).1 / value ρ (splitNumer numer1).2 := by
  unfold splitNumer
  split
  case isTrue ht =>
    obtain ⟨d, rfl, hd, h0⟩ := h.isForm_divide ht
    exact ⟨.num (.int 1), hd, h0, value_divide _ _⟩
  case isFalse => exact ⟨h, .num (.int 1), by simp, by simp⟩

theorem sigdivideParts_spec {numer1 denom1 : SExp} (hn : Reduced ρ numer1) (hd : Reduced ρ denom1)
    (h0 : value ρ denom1 ≠ 0) (h : ∀ p ∈ sigdividePartsProducts numer1 denom1, OuterSums p) :
    Reduced ρ (sigdivideParts numer1 denom1).1 ∧ Reduced ρ (sigdivideParts numer1 denom1).2 ∧
      value ρ (sigdivideParts numer1 denom1).2 ≠ 0 ∧
      value ρ numer1 / value ρ denom1 =
        value ρ (sigdivideParts numer1 denom1).1 / value ρ (sigdivideParts numer1 denom1).2 := by
  obtain ⟨h1, h2, h3, h4⟩ := splitNumer_spec hn
  unfold sigdividePartsProducts at h
  unfold sigdivideParts
  rw [h4]
  generalize splitNumer numer1 = nd at *
  obtain ⟨numer, denom⟩ := nd
  split at h
  case isTrue ht =>
    rw [List.forall_mem_cons, List.forall_mem_singleton] at h
    obtain ⟨d, rfl, hd, h5⟩ := hd.isForm_divide ht
    have hnum : Canonizes ρ (sigtimes (times [numer, d])) (value ρ numer * value ρ d) :=
      canonizes_times_pair h.1 h1 hd
    have hden : Canonizes ρ (sigtimes (times [denom, .int 1])) (value ρ denom * value ρ (.int 1)) :=
      canonizes_times_pair h.2 h2 (.num (.int 1))
    rw [value_int, Int.cast_one, mul_one] at hden
    simp only [ht, if_true]
    have hd0 : value ρ (sigtimes (times [denom, .int 1])) ≠ 0 := by rwa [hden.value_eq]
    refine ⟨hnum.reduced, hden.reduced, hd0, ?_⟩
    change _ = value ρ (sigtimes (times [numer, d])) / value ρ (sigtimes (times [denom, .int 1]))
    rw [hnum.value_eq, hden.value_eq, value_divide, value_int]
    field_simp
    simp
  case isFalse ht =>
    rw [List.forall_mem_singleton] at h
    have hden := canonizes_times_pair h h2 hd
    simp only [ht, if_false, Bool.false_eq_true]
    refine ⟨h1, hden.reduced, ?_, ?_⟩
    · rw [hden.value_eq]
      exact mul_ne_zero h3 h0
    · rw [hden.value_eq, div_div]

theorem canonizes_makeQuotient {numer denom : SExp} (h1 : Reduced ρ numer) (h2 : Reduced ρ denom)
    (h3 : value ρ denom ≠ 0) (h : ∀ p ∈ makeQuotientProducts numer denom, OuterSums p) :
    Canonizes ρ (makeQuotient numer denom) (value ρ numer / value ρ denom) := by
  unfold makeQuotientProducts at h
  unfold makeQuotient
  split
  case isTrue hc =>
    rw [if_pos hc, List.forall_mem_singleton] at h
    rw [Bool.or_eq_true] at hc
    have hnum : qnumberp denom = false := by
      cases denom with
      | sym n => rfl
      | int i => simp [isForm, consp, symbolp] at hc
      | cons f args =>
        obtain ⟨args', e⟩ := isForm_iff.1 (hc.resolve_left (by simp))
        simp only [SExp.cons.injEq] at e
        simp [e.1]
    have hne : denom ≠ infinity := by
      rintro rfl
      exact h2.ne_infinity rfl
    rw [makeInverse1_eq hne] at h ⊢
    have := canonizes_times_pair h h1 (.inverse h2 hnum h3)
    rw [value_divide, value_int, Int.cast_one, mul_one_div] at this
    exact this
  case isFalse =>
    have hone : Factors.Ok ρ (.int 1, []) := ⟨.int 1, by simp⟩
    obtain ⟨h5, h6⟩ := makeProductFromNumer_spec h1 hone
    obtain ⟨h7, h8⟩ := makeProductFromDenom_spec h2 h3 h5
    have hv : Factors.value ρ (.int 1, []) = 1 := by simp [Factors.value]
    rw [h6, hv, one_mul] at h8
    rw [← h8]
    exact canonizes_productTerm h7

theorem canonizes_sigdivide {numer1 denom1 : SExp} (hn : Reduced ρ numer1) (hd : Reduced ρ denom1)
    (h0 : value ρ denom1 ≠ 0) (h : ∀ p ∈ sigdivideProducts (divide numer1 denom1), OuterSums p) :
    Canonizes ρ (sigdivide (divide numer1 denom1)) (value ρ numer1 / value ρ denom1) := by
  rw [sigdivideProducts, List.forall_mem_append] at h
  obtain ⟨h1, h2, h3, h4⟩ := sigdivideParts_spec hn hd h0 h.1
  rw [h4]
  exact canonizes_makeQuotient h1 h2 h3 h.2

/-! ### Terms -/

/-- An arithmetic term none of whose denominators is 0 under `ρ`. -/
inductive ArithTerm (ρ : String → ℚ) : SExp → Prop
  | var {n : String} : .sym n ≠ infinity → ArithTerm ρ (.sym n)
  | const {q : SExp} : QNumber q → ArithTerm ρ q
  | plus {l : List SExp} : (∀ a ∈ l, ArithTerm ρ a) → ArithTerm ρ (plus l)
  | times {l : List SExp} : (∀ a ∈ l, ArithTerm ρ a) → ArithTerm ρ (times l)
  | minus {a : SExp} : ArithTerm ρ a → ArithTerm ρ (form "MINUS" [a])
  | difference {a b : SExp} : ArithTerm ρ a → ArithTerm ρ b →
      ArithTerm ρ (form "DIFFERENCE" [a, b])
  | divide {a b : SExp} : ArithTerm ρ a → ArithTerm ρ b → value ρ b ≠ 0 → ArithTerm ρ (divide a b)

/-- The products `sigmaArith` hands to `sigtimes`. -/
def sigmaProducts (term : SExp) : List SExp :=
  if isForm "TIMES" term then [term]
  else if isForm "DIVIDE" term then sigdivideProducts term
  else if isForm "MINUS" term then sigminus1Products term.arg1
  else if isForm "DIFFERENCE" term then sigminus1Products term.arg2
  else []

mutual

/-- No call of `sigtimes` that canonizes the term finds a sum inside a product. -/
def Distributes : SExp → Prop
  | .cons f args => qnumberp (.cons f args) = true ∨ DistributesArgs args ∧
      ∀ u ∈ sigmaProducts (.cons f (ofList (arithcanArgs args))), OuterSums u
  | _ => True

def DistributesArgs : SExp → Prop
  | .cons a args => Distributes a ∧ DistributesArgs args
  | _ => True

end

theorem arithcanArgs_eq (t : SExp) : arithcanArgs t = t.toList.map arithcan := by
  induction t with
  | cons a d _ ih => rw [arithcanArgs, ih, toList_cons, List.map_cons]
  | _ => rfl

theorem distributesArgs_iff (t : SExp) : DistributesArgs t ↔ ∀ a ∈ t.toList, Distributes a := by
  induction t with
  | cons a d _ ih => rw [DistributesArgs, ih, toList_cons, List.forall_mem_cons]
  | _ => simp [DistributesArgs, toList]

theorem arithcan_form {f : String} (l : List SExp) (hf : f ≠ "QUO") :
    arithcan (form f l) = sigmaArith (form f (l.map arithcan)) := by
  rw [arithcan, arithcanArgs_eq, toList_ofList, if_neg (by simpa using hf)]

theorem distributes_form_iff {f : String} {l : List SExp} (hf : f ≠ "QUO") :
    Distributes (form f l) ↔ (∀ a ∈ l, Distributes a) ∧
      ∀ u ∈ sigmaProducts (form f (l.map arithcan)), OuterSums u := by
  rw [Distributes, distributesArgs_iff, toList_ofList, arithcanArgs_eq, toList_ofList]
  exact or_iff_right (by simpa using hf)

theorem sigmaArith_plus (l : List SExp) : sigmaArith (plus l) = sigplus (plus l) := rfl
theorem sigmaArith_times (l : List SExp) : sigmaArith (times l) = sigtimes (times l) := rfl
theorem sigmaArith_divide (a b : SExp) : sigmaArith (divide a b) = sigdivide (divide a b) := rfl
theorem sigmaArith_minus (a : SExp) : sigmaArith (form "MINUS" [a]) = sigminus1 a := rfl

theorem sigmaArith_difference (a b : SExp) :
    sigmaArith (form "DIFFERENCE" [a, b]) = sigplus (plus [a, sigminus1 b]) := rfl

theorem Canonizes.map_arithcan {l : List SExp}
    (h : ∀ a ∈ l, Canonizes ρ (arithcan a) (value ρ a)) :
    (∀ b ∈ l.map arithcan, Reduced ρ b) ∧ (l.map arithcan).map (value ρ) = l.map (value ρ) := by
  constructor
  · intro b hb
    obtain ⟨a, ha, rfl⟩ := List.mem_map.1 hb
    exact (h a ha).reduced
  · rw [List.map_map]
    apply List.map_congr_left
    intro a ha
    exact (h a ha).value_eq

theorem canonizes_arithcan {t : SExp} (ht : ArithTerm ρ t) :
    Distributes t → Canonizes ρ (arithcan t) (value ρ t) := by
  induction ht with
  | var h =>
    intro _
    exact ⟨.sym h, rfl⟩
  | const hq =>
    intro _
    have : ∀ {q : SExp}, QNumber q → arithcan q = q := by
      intro q hq
      cases hq <;> simp [arithcan]
    rw [this hq]
    exact ⟨.num hq, rfl⟩
  | plus _ ih =>
    intro h
    obtain ⟨hl, -⟩ := (distributes_form_iff (by decide)).1 h
    obtain ⟨h1, h2⟩ := Canonizes.map_arithcan fun a ha => ih a ha (hl a ha)
    rw [arithcan_form _ (by decide), sigmaArith_plus, value_plus, ← h2]
    exact canonizes_plus h1
  | times _ ih =>
    intro h
    obtain ⟨hl, hp⟩ := (distributes_form_iff (by decide)).1 h
    obtain ⟨h1, h2⟩ := Canonizes.map_arithcan fun a ha => ih a ha (hl a ha)
    rw [arithcan_form _ (by decide), sigmaArith_times, value_times, ← h2]
    exact canonizes_times (hp _ (List.mem_singleton_self _)) h1
  | minus _ ih =>
    intro h
    obtain ⟨hl, hp⟩ := (distributes_form_iff (by decide)).1 h
    rw [List.forall_mem_singleton] at hl
    have ha := ih hl
    rw [arithcan_form _ (by decide), List.map_singleton, sigmaArith_minus, value_minus,
      ← ha.value_eq]
    exact canonizes_sigminus1 ha.reduced hp
  | @difference a b _ _ ih ih' =>
    intro h
    obtain ⟨hl, hp⟩ := (distributes_form_iff (by decide)).1 h
    rw [List.forall_mem_cons, List.forall_mem_singleton] at hl
    have ha := ih hl.1
    have hb := ih' hl.2
    have hm := canonizes_sigminus1 hb.reduced hp
    have := canonizes_plus (l := [arithcan a, sigminus1 (arithcan b)])
      (List.forall_mem_cons.2 ⟨ha.reduced, List.forall_mem_singleton.2 hm.reduced⟩)
    rw [arithcan_form _ (by decide), value_difference, ← ha.value_eq, ← hb.value_eq]
    change Canonizes ρ (sigplus (plus [arithcan a, sigminus1 (arithcan b)])) _
    simpa [hm.value_eq, sub_eq_add_neg] using this
  | divide _ _ h0 ih ih' =>
    intro h
    obtain ⟨hl, hp⟩ := (distributes_form_iff (by decide)).1 h
    rw [List.forall_mem_cons, List.forall_mem_singleton] at hl
    have ha := ih hl.1
    have hb := ih' hl.2
    rw [arithcan_form _ (by decide), value_divide, ← ha.value_eq, ← hb.value_eq]
    exact canonizes_sigdivide ha.reduced hb.reduced (by rwa [hb.value_eq]) hp

theorem value_arithcan {t : SExp} (ht : ArithTerm ρ t) (h : Distributes t) :
    value ρ (arithcan t) = value ρ t :=
  (canonizes_arithcan ht h).value_eq

/-- The average of `x` and `y`, which the canonizer makes a product that contains a sum. -/
def average : SExp := divide (plus [.sym "x", .sym "y"]) (.int 2)

theorem arithTerm_average (ρ : String → ℚ) : ArithTerm ρ average := by
  apply ArithTerm.divide
  · apply ArithTerm.plus
    simp only [List.forall_mem_cons, List.not_mem_nil, false_imp_iff, implies_true, and_true]
    exact ⟨.var (by decide), .var (by decide)⟩
  · exact .const (.int 2)
  · simp

theorem distributes_average : Distributes average := by
  apply (distributes_form_iff (by decide)).2
  constructor
  · rw [List.forall_mem_cons, List.forall_mem_singleton]
    refine ⟨(distributes_form_iff (by decide)).2 ⟨?_, ?_⟩, trivial⟩
    · simp [Distributes]
    · intro u hu
      simp [sigmaProducts, isForm] at hu
  · have hp : sigmaProducts (form "DIVIDE" ([plus [.sym "x", .sym "y"], .int 2].map arithcan)) =
        [times [.int 1, .int 2]] := by decide +kernel
    rw [hp, List.forall_mem_singleton]
    exact .product (p := (.int 2, [])) (by decide +kernel)

theorem value_arithcan_average :
    value (fun _ => 1) (arithcan average) = value (fun _ => 1) average :=
  value_arithcan (arithTerm_average _) distributes_average

/-- `z · (x + y) / 2` becomes `x · y`. -/
theorem value_arithcan_ne :
    ArithTerm (fun n => if n = "x" then 1 else 2) (times [.sym "z", average]) ∧
    value (fun n => if n = "x" then 1 else 2) (arithcan (times [.sym "z", average])) ≠
      value (fun n => if n = "x" then 1 else 2) (times [.sym "z", average]) := by
  constructor
  · apply ArithTerm.times
    simp only [List.forall_mem_cons, List.not_mem_nil, false_imp_iff, implies_true, and_true]
    exact ⟨.var (by decide), arithTerm_average _⟩
  · have h : arithcan (times [.sym "z", average]) = times [.sym "x", .sym "y"] := by
      decide +kernel
    rw [h]
    simp [average]
    norm_num

end PVS.GroundProver
