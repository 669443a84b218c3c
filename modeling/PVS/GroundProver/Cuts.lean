import Mathlib.Algebra.Order.Field.Basic
import Mathlib.Algebra.Order.Field.Rat
import Mathlib.Tactic.Linarith
import PVS.GroundProver.LinearSums
import PVS.GroundProver.Normineq

/-! The literals of `normineq`, and that its cuts keep them on integers. -/

namespace PVS.GroundProver

open SExp

/-! ### What a literal says -/

def holdsOp : String → ℚ → ℚ → Prop
  | "equal", x, y => x = y
  | "lessp", x, y => x < y
  | "lesseqp", x, y => x ≤ y
  | "greaterp", x, y => y < x
  | "greatereqp", x, y => y ≤ x
  | _, _, _ => False

def Holds (ρ : String → ℚ) (lit : SExp) : Prop :=
  ∃ op, lit.funsym = .sym op ∧ holdsOp op (value ρ lit.arg1) (value ρ lit.arg2)

abbrev literalOps : List String := ["equal", "lessp", "lesseqp", "greaterp", "greatereqp"]

/-- Integer variables have integer values. -/
def IntegerValued (typealist : List (SExp × SExp)) (ρ : String → ℚ) : Prop :=
  ∀ n, getq (.sym n) typealist = .sym "integer" → ∃ k : ℤ, ρ n = k

/-- Fractions are numbers, as `primtypealist` has it. -/
abbrev FractionsDeclared (typealist : List (SExp × SExp)) : Prop :=
  getq (.sym "QUO") typealist = .sym "number"

variable {ρ : String → ℚ} {op : String} {a b t f : SExp}

theorem holds_literal : Holds ρ (literal op a b) ↔ holdsOp op (value ρ a) (value ρ b) := by
  constructor
  · rintro ⟨op', e, h⟩
    obtain rfl : op = op' := by simpa using e
    exact h
  · exact fun h => ⟨op, rfl, h⟩

/-! ### Fractional parts -/

/-- A number with a positive denominator. -/
inductive PosNumber : SExp → Prop
  | int (i : ℤ) : PosNumber (.int i)
  | quo (n : ℤ) {d : ℤ} : 0 < d → PosNumber (qmake n d)

theorem PosNumber.number (h : PosNumber f) : QNumber f := by
  cases h with
  | int i => exact .int i
  | quo n hd => exact .quo n hd.ne'

theorem qminusp_iff (h : PosNumber f) : qminusp f = true ↔ qval f < 0 := by
  cases h with
  | int i => simp [qminusp]
  | @quo n d hd =>
    have hd' : (0 : ℚ) < d := by exact_mod_cast hd
    have e : qval (qmake n d) < 0 ↔ n < 0 := by
      rw [qval_qmake, div_neg_iff]
      simp [hd', hd'.not_gt]
    rw [e]
    exact decide_eq_true_iff

theorem posNumber_qrep (q : ℚ) : PosNumber (qrep q) := by
  unfold qrep
  split
  · exact .int _
  · exact .quo _ (by exact_mod_cast q.den_pos)

theorem PosNumber.qplus (hf : PosNumber f) (ht : PosNumber t) : PosNumber (qplus f t) := by
  cases hf with
  | int i =>
    cases ht with
    | int j => exact .int _
    | quo m he => exact .quo _ he
  | quo n hd =>
    cases ht with
    | int j => exact .quo _ hd
    | quo m he => exact .quo _ (mul_pos hd he)

/-- A fractional part of `v`. -/
structure IsFraction (f : SExp) (v : ℚ) : Prop where
  number : PosNumber f
  lt : |qval f| < 1
  int : ∃ k : ℤ, v = qval f + k

theorem isFraction_zero {k : ℤ} {v : ℚ} (h : v = k) : IsFraction (.int 0) v :=
  ⟨.int 0, by simp, k, by simp [h]⟩

theorem PosNumber.qfractpt (h : PosNumber f) : IsFraction (qfractpt f) (qval f) := by
  cases h with
  | int i => exact isFraction_zero rfl
  | @quo n d hd =>
    have hd' : (0 : ℚ) < d := by exact_mod_cast hd
    have e : GroundProver.qfractpt (qmake n d) = qmake (n.tmod d) d := rfl
    rw [e]
    refine ⟨.quo _ hd, ?_, n.tdiv d, ?_⟩
    · rw [qval_qmake, abs_div, abs_of_pos hd', div_lt_one hd']
      have h1 := Int.tmod_lt_of_pos n hd
      have h2 : -d < n.tmod d := Int.lt_tmod_of_pos n hd
      rw [abs_lt]
      exact ⟨by exact_mod_cast h2, by exact_mod_cast h1⟩
    · rw [qval_qmake, qval_qmake]
      have h := Int.tmod_add_mul_tdiv n d
      field_simp
      exact_mod_cast h.symm

section

variable {typealist : List (SExp × SExp)}

theorem prtype_qrep (hquo : FractionsDeclared typealist) {q : ℚ}
    (h : prtype typealist (qrep q) = .sym "integer") : ∃ k : ℤ, q = k := by
  unfold qrep at h
  split at h
  · rename_i hden
    exact ⟨q.num, (Rat.coe_int_num_of_den_eq_one hden).symm⟩
  · have e : prtype typealist (qmake q.num q.den) = getq (.sym "QUO") typealist := by
      simp [prtype, memq, arithops]
    rw [e, hquo] at h
    simp at h

theorem prtype_form (f : String) (hf : memq (.sym f) arithops = true) (hif : f ≠ "if*") (args : SExp) :
    prtype typealist (.cons (.sym f) args) = .sym "integer" ↔ prtypeAll typealist args = true := by
  rw [prtype, if_neg (by simpa using hif), if_pos hf]
  split
  · simp_all
  · simp_all

theorem prtypeAll_ofList (l : List SExp) :
    prtypeAll typealist (ofList l) = true ↔ ∀ a ∈ l, prtype typealist a = .sym "integer" := by
  induction l with
  | nil => simp [prtypeAll]
  | cons a l ih => rw [ofList_cons, prtypeAll, Bool.and_eq_true, ih, beq_iff_eq, List.forall_mem_cons]

/-- A term of the type `integer` has an integer value. -/
theorem FlatTerm.integer (h : FlatTerm t) (hquo : FractionsDeclared typealist)
    (hρ : IntegerValued typealist ρ) (ht : prtype typealist t = .sym "integer") :
    ∃ k : ℤ, value ρ t = k := by
  induction h with
  | num q =>
    obtain ⟨k, rfl⟩ := prtype_qrep hquo ht
    exact ⟨k, by rw [value_number (qnumber_qrep _), qval_qrep]⟩
  | @var n hn =>
    rw [prtype] at ht
    obtain ⟨k, hk⟩ := hρ n ht
    exact ⟨k, by rw [value_sym, hk]⟩
  | @scaled q n hn =>
    rw [times, form, prtype_form _ (by decide) (by decide), prtypeAll_ofList, List.forall_mem_cons,
      List.forall_mem_singleton, prtype] at ht
    obtain ⟨k, rfl⟩ := prtype_qrep hquo ht.1
    obtain ⟨m, hm⟩ := hρ n ht.2
    exact ⟨k * m, by simp [hm]⟩
  | @sum l _ ih =>
    rw [plus, form, prtype_form _ (by decide) (by decide), prtypeAll_ofList] at ht
    rw [value_plus]
    clear * - ih ht
    induction l with
    | nil => exact ⟨0, by simp⟩
    | cons a l ihl =>
      rw [List.forall_mem_cons] at ih ht
      obtain ⟨k, hk⟩ := ih.1 ht.1
      obtain ⟨m, hm⟩ := ihl ih.2 ht.2
      exact ⟨k + m, by simp [hk, hm]⟩

theorem plusfractpt_spec {l : List SExp}
    (hl : ∀ a ∈ l, ∀ f, fractpt typealist a = some f → IsFraction f (value ρ a)) {sum : SExp}
    (hsum : PosNumber sum) (h : plusfractpt typealist (ofList l) sum = some f) :
    IsFraction f ((l.map (value ρ)).sum + qval sum) := by
  induction l generalizing sum with
  | nil =>
    have e : plusfractpt typealist (ofList []) sum = some (qfractpt sum) := by
      simp [ofList, plusfractpt, SExp.nil]
    rw [e, Option.some.injEq] at h
    subst h
    simpa using hsum.qfractpt
  | cons a l ih =>
    rw [List.forall_mem_cons] at hl
    rw [ofList_cons, plusfractpt] at h
    split at h
    · rename_i frac hfrac
      have ha := hl.1 frac hfrac
      obtain ⟨hnumber, hlt, k, hk⟩ := ih hl.2 (ha.number.qplus hsum) h
      obtain ⟨m, hm⟩ := ha.int
      refine ⟨hnumber, hlt, k + m, ?_⟩
      rw [qval_qplus ha.number.number hsum.number] at hk
      push_cast
      simp only [List.map_cons, List.sum_cons]
      linarith
    · cases h

theorem IsFraction.integer {v : ℚ} (h : IsFraction f v) (hf : qzerop f = true) : ∃ k : ℤ, v = k := by
  obtain ⟨k, hk⟩ := h.int
  rw [(qzerop_iff h.number.number).1 hf, zero_add] at hk
  exact ⟨k, hk⟩

theorem timesfractpt_spec {l : List SExp}
    (hl : ∀ a ∈ l, ∀ f, fractpt typealist a = some f → IsFraction f (value ρ a))
    (h : timesfractpt typealist (ofList l) = some f) :
    f = .int 0 ∧ ∃ k : ℤ, (l.map (value ρ)).prod = k := by
  induction l with
  | nil =>
    have e : timesfractpt typealist (ofList []) = some (.int 0) := by
      simp [ofList, timesfractpt, SExp.nil]
    rw [e, Option.some.injEq] at h
    exact ⟨h.symm, 1, by simp⟩
  | cons a l ih =>
    rw [List.forall_mem_cons] at hl
    rw [ofList_cons, timesfractpt] at h
    split at h
    · rename_i frac hfrac
      split at h
      · rename_i hzero
        obtain ⟨k, hk⟩ := (hl.1 frac hfrac).integer hzero
        obtain ⟨hf, m, hm⟩ := ih hl.2 h
        exact ⟨hf, k * m, by simp [hk, hm]⟩
      · cases h
    · cases h

theorem FlatTerm.isFraction_zero (h : FlatTerm t) (hquo : FractionsDeclared typealist)
    (hρ : IntegerValued typealist ρ) (ht : prtype typealist t = .sym "integer") :
    IsFraction (.int 0) (value ρ t) := by
  obtain ⟨k, hk⟩ := h.integer hquo hρ ht
  exact GroundProver.isFraction_zero hk

theorem fractpt_qrep (hquo : FractionsDeclared typealist) (hρ : IntegerValued typealist ρ) {q : ℚ}
    (hf : fractpt typealist (qrep q) = some f) : IsFraction f (value ρ (qrep q)) := by
  have hnumber := posNumber_qrep q
  have hval := value_number (ρ := ρ) hnumber.number
  have hflat := FlatTerm.num q
  revert hf hval
  generalize qrep q = x at *
  intro hf hval
  cases hnumber with
  | int i =>
    rw [fractpt, Option.some.injEq] at hf
    subst hf
    exact GroundProver.isFraction_zero hval
  | @quo n d hd =>
    rw [qmake, form, fractpt] at hf
    split at hf
    · rename_i ht
      rw [← Option.some.inj hf]
      exact hflat.isFraction_zero hquo hρ ht
    · rw [qnumberp_cons, beq_self_eq_true, if_pos rfl, Option.some.injEq] at hf
      subst hf
      rw [hval]
      exact (PosNumber.quo n hd).qfractpt

theorem fractpt_sym (hquo : FractionsDeclared typealist) (hρ : IntegerValued typealist ρ) {n : String}
    (hn : IsVar n) (hf : fractpt typealist (.sym n) = some f) : IsFraction f (value ρ (.sym n)) := by
  rw [fractpt] at hf
  split at hf
  · rename_i ht
    rw [← Option.some.inj hf]
    exact (FlatTerm.var hn).isFraction_zero hquo hρ ht
  · cases hf

/-- The fractional part that is found is one. -/
theorem fractpt_spec (h : FlatTerm t) (hquo : FractionsDeclared typealist)
    (hρ : IntegerValued typealist ρ) (hf : fractpt typealist t = some f) :
    IsFraction f (value ρ t) := by
  induction h generalizing f with
  | num q => exact fractpt_qrep hquo hρ hf
  | var hn => exact fractpt_sym hquo hρ hn hf
  | @scaled q n hn =>
    rw [times, form, fractpt] at hf
    split at hf
    · rename_i ht
      rw [← Option.some.inj hf]
      exact (FlatTerm.scaled q hn).isFraction_zero hquo hρ ht
    · have h1 : (SExp.sym "TIMES" == .sym "QUO") = false := by decide
      have h2 : SExp.sym "TIMES" ≠ .sym "PLUS" := by decide
      rw [qnumberp_cons, h1, if_neg Bool.false_ne_true, if_neg h2, if_pos rfl] at hf
      have hl : ∀ a ∈ [qrep q, .sym n], ∀ f, fractpt typealist a = some f →
          IsFraction f (value ρ a) := by
        rw [List.forall_mem_cons, List.forall_mem_singleton]
        exact ⟨fun f hf => fractpt_qrep hquo hρ hf, fun f hf => fractpt_sym hquo hρ hn hf⟩
      obtain ⟨rfl, k, hk⟩ := timesfractpt_spec hl hf
      exact GroundProver.isFraction_zero ((value_times _).trans hk)
  | @sum l hl ih =>
    rw [plus, form, fractpt] at hf
    split at hf
    · rename_i ht
      rw [← Option.some.inj hf]
      exact (FlatTerm.sum hl).isFraction_zero hquo hρ ht
    · have e : (SExp.sym "PLUS" == .sym "QUO") = false := by decide
      rw [qnumberp_cons, e, if_neg Bool.false_ne_true, if_pos rfl] at hf
      have h := plusfractpt_spec (fun a ha f hf => ih a ha hf) (.int 0) hf
      simpa using h

/-! ### Cuts -/

/-- Below an integer by less than 1. -/
theorem cut_below {m k : ℤ} {f : ℚ} (h1 : -1 < f) (h2 : f < 0) :
    ((m : ℚ) < f + k ↔ (m : ℚ) ≤ k - 1) ∧ ((m : ℚ) ≤ f + k ↔ (m : ℚ) ≤ k - 1) ∧
      (f + k < m ↔ (k : ℚ) ≤ m) ∧ (f + k ≤ m ↔ (k : ℚ) ≤ m) ∧ (m : ℚ) ≠ f + k := by
  have hlt : ∀ {m k : ℤ}, (m : ℚ) < k ↔ (m : ℚ) ≤ k - 1 := by
    intro m k
    constructor
    · intro h
      have h : m < k := by exact_mod_cast h
      have h : m ≤ k - 1 := by omega
      exact_mod_cast h
    · intro h
      linarith
  have hge : (k : ℚ) - 1 < m → (k : ℚ) ≤ m := by
    intro h
    have h : k - 1 < m := by exact_mod_cast h
    have h : k ≤ m := by omega
    exact_mod_cast h
  refine ⟨⟨fun h => hlt.1 (by linarith), fun h => by linarith⟩,
    ⟨fun h => hlt.1 (by linarith), fun h => by linarith⟩,
    ⟨fun h => hge (by linarith), fun h => by linarith⟩,
    ⟨fun h => hge (by linarith), fun h => by linarith⟩, fun h => ?_⟩
  have h3 : (m : ℚ) ≤ k - 1 := hlt.1 (by linarith)
  linarith

theorem cut_above {m k : ℤ} {f : ℚ} (h1 : 0 < f) (h2 : f < 1) :
    ((m : ℚ) < f + k ↔ (m : ℚ) ≤ k) ∧ ((m : ℚ) ≤ f + k ↔ (m : ℚ) ≤ k) ∧
      (f + k < m ↔ (k : ℚ) + 1 ≤ m) ∧ (f + k ≤ m ↔ (k : ℚ) + 1 ≤ m) ∧ (m : ℚ) ≠ f + k := by
  have h := cut_below (m := m) (k := k + 1) (f := f - 1) (by linarith) (by linarith)
  have e : f - 1 + ((k + 1 : ℤ) : ℚ) = f + k := by
    push_cast
    ring
  rw [e] at h
  push_cast at h
  rwa [add_sub_cancel_right] at h

/-- What replaces a literal: another one with the same left side, or `false` when it fails. -/
def Replaces (ρ : String → ℚ) (lit r : SExp) : Prop :=
  (r = ff ∧ ¬ Holds ρ lit) ∨ ∃ op b, op ∈ literalOps ∧ r = literal op lit.arg1 b ∧ FlatTerm b ∧
    (Holds ρ r ↔ Holds ρ lit)

theorem replaces_self (hop : op ∈ literalOps) (hb : FlatTerm b) :
    Replaces ρ (literal op a b) (literal op a b) :=
  .inr ⟨op, b, hop, rfl, hb, Iff.rfl⟩

/-- A literal is replaced by one whose right side is a sum. -/
theorem replaces_sum {op' : String} (hop' : op' ∈ literalOps) {x : SExp} (hx : QNumber x)
    (hb : FlatTerm b)
    (h : holdsOp op' (value ρ a) (qval x + value ρ b) ↔ holdsOp op (value ρ a) (value ρ b)) :
    Replaces ρ (literal op a b) (literal op' a (sigplus (plus [x, b]))) := by
  obtain ⟨hl, hv⟩ := Addend.sigplus (l := [x, b])
    (List.forall_mem_cons.2 ⟨.inr hx, List.forall_mem_singleton.2 (.inl hb)⟩)
  refine .inr ⟨op', _, hop', rfl, hl.flat, ?_⟩
  rw [holds_literal, holds_literal, hv ρ]
  simpa [value_number hx] using h

theorem zerocut_replaces (hop : op ∈ literalOps) (hb : FlatTerm b) {m k : ℤ} (hm : value ρ a = m)
    (hk : value ρ b = k) : Replaces ρ (literal op a b) (zerocut (literal op a b)) := by
  have hlt : ∀ {m k : ℤ}, (m : ℚ) < k ↔ (m : ℚ) ≤ -1 + k := by
    intro m k
    have h : m < k ↔ m ≤ -1 + k := by omega
    exact_mod_cast h
  simp only [literalOps, List.mem_cons, List.not_mem_nil, or_false] at hop
  rcases hop with rfl | rfl | rfl | rfl | rfl
  · exact replaces_self (by decide) hb
  · refine replaces_sum (by decide) (.int (-1)) hb ?_
    simp only [holdsOp, hm, hk, qval_int]
    push_cast
    exact hlt.symm
  · exact replaces_self (by decide) hb
  · refine replaces_sum (by decide) (.int 1) hb ?_
    simp only [holdsOp, hm, hk, qval_int]
    push_cast
    rw [hlt]
    constructor <;> intro h <;> linarith
  · exact replaces_self (by decide) hb

theorem qval_qdifference (ha : QNumber a) (hb : QNumber b) :
    QNumber (qdifference a b) ∧ qval (qdifference a b) = qval a - qval b := by
  cases ha with
  | int i =>
    cases hb with
    | int j => exact ⟨.int _, by simp [qdifference]⟩
    | @quo m e he =>
      have he' : (e : ℚ) ≠ 0 := by exact_mod_cast he
      refine ⟨.quo _ he, ?_⟩
      simp only [qdifference, qval_qmake, qval_int, num_qmake, den_qmake]
      push_cast
      field_simp
  | @quo n d hd =>
    have hd' : (d : ℚ) ≠ 0 := by exact_mod_cast hd
    cases hb with
    | int j =>
      refine ⟨.quo _ hd, ?_⟩
      simp only [qdifference, qval_qmake, qval_int, num_qmake, den_qmake]
      push_cast
      field_simp
    | @quo m e he =>
      have he' : (e : ℚ) ≠ 0 := by exact_mod_cast he
      refine ⟨.quo _ (mul_ne_zero hd he), ?_⟩
      simp only [qdifference, qval_qmake, num_qmake, den_qmake]
      push_cast
      field_simp

theorem minuscut_replaces (hop : op ∈ literalOps) (hb : FlatTerm b) {m k : ℤ}
    (hm : value ρ a = m) (hf : PosNumber f) (hlt : |qval f| < 1) (hneg : qval f < 0)
    (hk : value ρ b = qval f + k) :
    Replaces ρ (literal op a b) (minuscut (literal op a b) f) := by
  obtain ⟨h1, h2, h3, h4, h5⟩ := cut_below (m := m) (k := k) (abs_lt.1 hlt).1 hneg
  have hx : QNumber (qminus (qplus f (.int 1))) := (hf.number.qplus (.int 1)).qminus
  have hv : qval (qminus (qplus f (.int 1))) = -(qval f + 1) := by
    rw [qval_qminus (hf.number.qplus (.int 1)), qval_qplus hf.number (.int 1)]
    simp
  have hbelow : ∀ op', (holdsOp op' (m : ℚ) (qval f + k) ↔ (m : ℚ) ≤ k - 1) →
      Replaces ρ (literal op' a b)
        (literal "lesseqp" a (sigplus (plus [qminus (qplus f (.int 1)), b]))) := by
    intro op' h
    refine replaces_sum (by decide) hx hb ?_
    rw [hm, hk, h, hv]
    simp only [holdsOp]
    constructor <;> intro h <;> linarith
  obtain ⟨hl, hd⟩ := Addend.sigdifference (.inl hb) (.inr hf.number)
  have habove : ∀ op', (holdsOp op' (m : ℚ) (qval f + k) ↔ (k : ℚ) ≤ m) →
      Replaces ρ (literal op' a b)
        (literal "greatereqp" a (sigdifference (form "DIFFERENCE" [b, f]))) := by
    intro op' h
    refine .inr ⟨_, _, by decide, rfl, hl.flat, ?_⟩
    rw [holds_literal, holds_literal, hd ρ, value_number hf.number, hm, hk, h]
    simp only [holdsOp]
    constructor <;> intro h <;> linarith
  simp only [literalOps, List.mem_cons, List.not_mem_nil, or_false] at hop
  rcases hop with rfl | rfl | rfl | rfl | rfl
  · refine .inl ⟨rfl, ?_⟩
    rw [holds_literal, hm, hk]
    exact h5
  · exact hbelow _ h1
  · exact hbelow _ h2
  · exact habove _ h3
  · exact habove _ h4

theorem poscut_replaces (hop : op ∈ literalOps) (hb : FlatTerm b) {m k : ℤ}
    (hm : value ρ a = m) (hf : PosNumber f) (hlt : |qval f| < 1) (hpos : 0 < qval f)
    (hk : value ρ b = qval f + k) :
    Replaces ρ (literal op a b) (poscut (literal op a b) f) := by
  obtain ⟨h1, h2, h3, h4, h5⟩ := cut_above (m := m) (k := k) hpos (abs_lt.1 hlt).2
  have hbelow : ∀ op', (holdsOp op' (m : ℚ) (qval f + k) ↔ (m : ℚ) ≤ k) →
      Replaces ρ (literal op' a b) (literal "lesseqp" a (sigplus (plus [qminus f, b]))) := by
    intro op' h
    refine replaces_sum (by decide) hf.number.qminus hb ?_
    rw [hm, hk, h, qval_qminus hf.number]
    simp only [holdsOp]
    constructor <;> intro h <;> linarith
  obtain ⟨hx, hv⟩ := qval_qdifference (.int 1) hf.number
  have habove : ∀ op', (holdsOp op' (m : ℚ) (qval f + k) ↔ (k : ℚ) + 1 ≤ m) →
      Replaces ρ (literal op' a b)
        (literal "greatereqp" a (sigplus (plus [qdifference (.int 1) f, b]))) := by
    intro op' h
    refine replaces_sum (by decide) hx hb ?_
    rw [hm, hk, h, hv]
    simp only [holdsOp, qval_int]
    push_cast
    constructor <;> intro h <;> linarith
  simp only [literalOps, List.mem_cons, List.not_mem_nil, or_false] at hop
  rcases hop with rfl | rfl | rfl | rfl | rfl
  · refine .inl ⟨rfl, ?_⟩
    rw [holds_literal, hm, hk]
    exact h5
  · exact hbelow _ h1
  · exact hbelow _ h2
  · exact habove _ h3
  · exact habove _ h4

theorem integercut_replaces (hquo : FractionsDeclared typealist) (hρ : IntegerValued typealist ρ)
    (hop : op ∈ literalOps) (ha : FlatTerm a) (hb : FlatTerm b) :
    Replaces ρ (literal op a b) (integercut typealist (literal op a b)) := by
  unfold integercut
  split
  · rename_i h
    have htype : prtype typealist a = .sym "integer" := by
      rw [Bool.and_eq_true, beq_iff_eq] at h
      exact h.2
    obtain ⟨m, hm⟩ := ha.integer hquo hρ htype
    split
    · exact replaces_self hop hb
    · rename_i f hf
      obtain ⟨hnumber, hlt, k, hk⟩ := fractpt_spec hb hquo hρ hf
      split
      · rename_i hzero
        rw [(qzerop_iff hnumber.number).1 hzero, zero_add] at hk
        exact zerocut_replaces hop hb hm hk
      · rename_i hzero
        have hne : qval f ≠ 0 := fun e => hzero ((qzerop_iff hnumber.number).2 e)
        split
        · rename_i hneg
          exact minuscut_replaces hop hb hm hnumber hlt ((qminusp_iff hnumber).1 hneg) hk
        · rename_i hneg
          have hge : ¬ qval f < 0 := fun e => hneg ((qminusp_iff hnumber).2 e)
          exact poscut_replaces hop hb hm hnumber hlt (lt_of_le_of_ne (not_lt.1 hge) hne.symm) hk
  · exact replaces_self hop hb

end

end PVS.GroundProver
