import Mathlib.Algebra.Order.Floor.Ring
import Mathlib.Data.Rat.Floor
import PVS.GroundProver.Bounds

/-! Where the arithmetic of `q.lisp` is that of the rationals -/

namespace PVS.GroundProver

open SExp

variable {x y : SExp}

def qabs : SExp → SExp
  | .int x => .int |x|
  | x => if num x < 0 then qmake (-num x) (den x) else x

def qgreatereqp (x y : SExp) : Bool := !qlessp x y

/-! ### Constructed numbers -/

/-- What the operations make of integers -/
inductive Constructed : SExp → Prop
  | int (i : ℤ) : Constructed (.int i)
  | plus {a b : SExp} (ha : Constructed a) (hb : Constructed b) : Constructed (qplus a b)
  | difference {a b : SExp} (ha : Constructed a) (hb : Constructed b) :
    Constructed (qdifference a b)
  | times {a b : SExp} (ha : Constructed a) (hb : Constructed b) : Constructed (qtimes a b)
  | quotient {a b : SExp} (ha : Constructed a) (hb : Constructed b) (h : qzerop b = false) :
    Constructed (qquotient a b)
  | minus {a : SExp} (ha : Constructed a) : Constructed (qminus a)
  | abs {a : SExp} (ha : Constructed a) : Constructed (qabs a)
  | fractpt {a : SExp} (ha : Constructed a) : Constructed (qfractpt a)
  | norm {a : SExp} (ha : Constructed a) : Constructed (qnorm a)

theorem QNumber.qabs (hx : QNumber x) : QNumber (qabs x) := by
  cases hx with
  | int i => exact .int _
  | @quo n d hd =>
    have e : GroundProver.qabs (qmake n d) = if n < 0 then qmake (-n) d else qmake n d := rfl
    rw [e]
    split
    · exact .quo _ hd
    · exact .quo _ hd

theorem QNumber.qfractpt (hx : QNumber x) : QNumber (qfractpt x) := by
  cases hx with
  | int i => exact .int _
  | quo n hd => exact .quo _ hd

theorem qval_ne_zero (hy : QNumber y) (h : qzerop y = false) : qval y ≠ 0 := by
  rw [Ne, ← qzerop_iff hy, h]
  exact Bool.false_ne_true

theorem Constructed.number (h : Constructed x) : QNumber x := by
  induction h with
  | int i => exact .int i
  | plus _ _ ihx ihy => exact ihx.qplus ihy
  | difference _ _ ihx ihy => exact (qval_qdifference ihx ihy).1
  | times _ _ ihx ihy => exact ihx.qtimes ihy
  | quotient _ _ h ihx ihy => exact ihx.qquotient ihy (qval_ne_zero ihy h)
  | minus _ ih => exact ih.qminus
  | abs _ ih => exact ih.qabs
  | fractpt _ ih => exact ih.qfractpt
  | norm _ ih => exact ih.qnorm

/-! ### Denominators -/

/-- The numerator, where an integer has the denominator 1 -/
def numerator : SExp → ℤ
  | .int i => i
  | x => num x

def denominator : SExp → ℤ
  | .int _ => 1
  | x => den x

theorem denominator_ne_zero (hx : QNumber x) : denominator x ≠ 0 := by
  cases hx with
  | int i => exact one_ne_zero
  | quo n hd => exact hd

theorem qval_eq (hx : QNumber x) : qval x = numerator x / denominator x := by
  cases hx with
  | int i => simp [numerator, denominator]
  | quo n hd => rfl

theorem qeqp_iff (hx : QNumber x) (hy : QNumber y) :
    qeqp x y = true ↔ numerator x * denominator y = numerator y * denominator x := by
  cases hx with
  | int i =>
    cases hy with
    | int j => simp [qeqp, numerator, denominator]
    | quo m he => simp [qeqp, numerator, denominator]
  | @quo n d hd =>
    cases hy with
    | int j =>
      have e : qeqp (qmake n d) (.int j) = (j * d == n) := rfl
      rw [e, beq_iff_eq, eq_comm]
      simp [numerator, denominator]
    | quo m he => simp [qeqp, numerator, denominator]

theorem qlessp_eq (hx : QNumber x) (hy : QNumber y) :
    qlessp x y = decide (numerator x * denominator y < numerator y * denominator x) := by
  cases hx with
  | int i =>
    cases hy with
    | int j => simp [qlessp, numerator, denominator]
    | quo m he => simp [qlessp, numerator, denominator]; rfl
  | quo n hd =>
    cases hy with
    | int j => simp [qlessp, numerator, denominator]; rfl
    | quo m he => rfl

theorem qgreaterp_eq_qlessp (hx : QNumber x) (hy : QNumber y) : qgreaterp x y = qlessp y x := by
  cases hx <;> cases hy <;> rfl

theorem qminusp_eq (hx : QNumber x) : qminusp x = decide (numerator x < 0) := by
  cases hx <;> rfl

/-- A quotient is negative with its numerator, unless the denominator is negative. -/
theorem div_neg_iff_num {a c : ℤ} (hc : c ≠ 0) :
    (((a : ℚ) / c < 0 ↔ a < 0) ↔ 0 < c ∨ a = 0) := by
  obtain hneg | hpos := lt_or_gt_of_ne hc
  · have hneg' : (c : ℚ) < 0 := by exact_mod_cast hneg
    rw [div_neg_iff]
    simp only [hneg', hneg'.not_gt, hneg.not_gt, and_true, and_false, or_false, false_or,
      Int.cast_pos]
    omega
  · have hpos' : (0 : ℚ) < c := by exact_mod_cast hpos
    rw [div_neg_iff]
    simp only [hpos', hpos'.not_gt, hpos, and_true, and_false, false_or, true_or,
      Int.cast_lt_zero]

theorem qval_lt_iff_div (hx : QNumber x) (hy : QNumber y) :
    qval x < qval y ↔
      ((numerator x * denominator y - numerator y * denominator x : ℤ) : ℚ) /
        (denominator x * denominator y : ℤ) < 0 := by
  have hd : (denominator x : ℚ) ≠ 0 := by exact_mod_cast denominator_ne_zero hx
  have he : (denominator y : ℚ) ≠ 0 := by exact_mod_cast denominator_ne_zero hy
  rw [qval_eq hx, qval_eq hy, ← sub_neg, div_sub_div _ _ hd he]
  push_cast
  rw [mul_comm (denominator x : ℚ) (numerator y)]

theorem qval_eq_iff (hx : QNumber x) (hy : QNumber y) :
    qval x = qval y ↔ numerator x * denominator y = numerator y * denominator x := by
  have hd : (denominator x : ℚ) ≠ 0 := by exact_mod_cast denominator_ne_zero hx
  have he : (denominator y : ℚ) ≠ 0 := by exact_mod_cast denominator_ne_zero hy
  rw [qval_eq hx, qval_eq hy, div_eq_div_iff hd he]
  exact_mod_cast Iff.rfl

theorem qlessp_agrees_iff (hx : QNumber x) (hy : QNumber y) :
    (qlessp x y = true ↔ qval x < qval y) ↔
      0 < denominator x * denominator y ∨ qval x = qval y := by
  have hc := mul_ne_zero (denominator_ne_zero hx) (denominator_ne_zero hy)
  rw [qlessp_eq hx hy, decide_eq_true_iff, qval_lt_iff_div hx hy, qval_eq_iff hx hy, ← sub_neg,
    ← sub_eq_zero, ← div_neg_iff_num hc]
  exact iff_comm

theorem qminusp_agrees_iff (hx : QNumber x) :
    (qminusp x = true ↔ qval x < 0) ↔ 0 < denominator x ∨ numerator x = 0 := by
  rw [qminusp_eq hx, decide_eq_true_iff, qval_eq hx, ← div_neg_iff_num (denominator_ne_zero hx)]
  exact iff_comm

theorem qval_qabs (hx : QNumber x) : qval (qabs x) = (|numerator x| : ℤ) / denominator x := by
  cases hx with
  | int i => simp [GroundProver.qabs, numerator, denominator]
  | @quo n d hd =>
    have e : GroundProver.qabs (qmake n d) = if n < 0 then qmake (-n) d else qmake n d := rfl
    rw [e]
    split
    · rename_i hneg
      simp [numerator, denominator, abs_of_neg hneg]
    · rename_i hneg
      simp [numerator, denominator, abs_of_nonneg (not_lt.1 hneg)]

theorem qabs_agrees_iff (hx : QNumber x) :
    qval (qabs x) = |qval x| ↔ 0 < denominator x ∨ numerator x = 0 := by
  have hd := denominator_ne_zero hx
  have hd' : (denominator x : ℚ) ≠ 0 := by exact_mod_cast hd
  have habs : |(denominator x : ℚ)| ≠ 0 := abs_ne_zero.2 hd'
  rw [qval_qabs hx, qval_eq hx, abs_div, div_eq_div_iff hd' habs, Int.cast_abs, mul_eq_mul_left_iff,
    abs_eq_self, abs_eq_zero, Int.cast_nonneg_iff, Int.cast_eq_zero]
  exact or_congr_left (hd.symm.le_iff_lt)

/-- What is left of a rational when it is rounded towards zero -/
def fractionalPart (q : ℚ) : ℚ := if 0 ≤ q then q - ⌊q⌋ else q - ⌈q⌉

theorem abs_tmod_lt (n : ℤ) {d : ℤ} (hd : d ≠ 0) : |n.tmod d| < |d| := by
  rw [Int.abs_eq_natAbs, Int.abs_eq_natAbs, Int.natAbs_tmod]
  exact_mod_cast Nat.mod_lt _ (Int.natAbs_pos.2 hd)

theorem tmod_nonpos {n : ℤ} (d : ℤ) (h : n ≤ 0) : n.tmod d ≤ 0 := by
  have hneg := Int.tmod_nonneg d (neg_nonneg.2 h)
  rw [Int.neg_tmod] at hneg
  exact neg_nonneg.1 hneg

theorem fractionalPart_eq {q f : ℚ} {k : ℤ} (hq : q = f + k) (hlt : |f| < 1)
    (hpos : 0 ≤ q → 0 ≤ f) (hneg : q < 0 → f ≤ 0) : fractionalPart q = f := by
  rw [abs_lt] at hlt
  rw [fractionalPart]
  split
  · rename_i h
    have hfloor : ⌊q⌋ = k := by
      rw [Int.floor_eq_iff, hq]
      exact ⟨le_add_of_nonneg_left (hpos h), by linarith [hlt.2]⟩
    rw [hfloor, hq, add_sub_cancel_right]
  · rename_i h
    have hceil : ⌈q⌉ = k := by
      rw [Int.ceil_eq_iff, hq]
      exact ⟨by linarith [hlt.1], add_le_of_nonpos_left (hneg (not_le.1 h))⟩
    rw [hceil, hq, add_sub_cancel_right]

theorem qval_qfractpt (hx : QNumber x) : qval (qfractpt x) = fractionalPart (qval x) := by
  cases hx with
  | int i => simp [GroundProver.qfractpt, fractionalPart]
  | @quo n d hd =>
    have hd' : (d : ℚ) ≠ 0 := by exact_mod_cast hd
    have e : GroundProver.qfractpt (qmake n d) = qmake (n.tmod d) d := rfl
    have hdiv : (n : ℚ) / d = (n.tmod d : ℤ) / d + (n.tdiv d : ℤ) := by
      have h := Int.tmod_add_mul_tdiv n d
      field_simp
      exact_mod_cast h.symm
    have hlt : |((n.tmod d : ℤ) : ℚ) / d| < 1 := by
      rw [abs_div, div_lt_one (abs_pos.2 hd')]
      exact_mod_cast abs_tmod_lt n hd
    rw [e, qval_qmake, qval_qmake, fractionalPart_eq hdiv hlt]
    · intro h
      simp only [div_nonneg_iff, Int.cast_nonneg_iff, Int.cast_nonpos] at h ⊢
      exact h.imp (And.imp_left (Int.tmod_nonneg d)) (And.imp_left (tmod_nonpos d))
    · intro h
      simp only [div_neg_iff, div_nonpos_iff, Int.cast_pos, Int.cast_lt_zero, Int.cast_nonneg_iff,
        Int.cast_nonpos] at h ⊢
      exact h.imp (And.imp (fun h => Int.tmod_nonneg d h.le) le_of_lt)
        (And.imp (fun h => tmod_nonpos d h.le) le_of_lt)

/-! ### The ordered field -/

/-- The operations are those of the rationals. -/
structure FieldLaws (x y : SExp) : Prop where
  plus : qval (qplus x y) = qval x + qval y
  difference : qval (qdifference x y) = qval x - qval y
  times : qval (qtimes x y) = qval x * qval y
  quotient : qval y ≠ 0 → qval (qquotient x y) = qval x / qval y
  minus : qval (qminus x) = -qval x
  abs : qval (qabs x) = |qval x|
  fractpt : qval (qfractpt x) = fractionalPart (qval x)
  norm : qval (qnorm x) = qval x
  norm_norm : qnorm (qnorm x) = qnorm x

/-- The comparisons are those of the rationals. -/
structure OrderLaws (x y : SExp) : Prop where
  eqp : qeqp x y = true ↔ qval x = qval y
  lessp : qlessp x y = true ↔ qval x < qval y
  greaterp : qgreaterp x y = true ↔ qval y < qval x
  lesseqp : qlesseqp x y = true ↔ qval x ≤ qval y
  greatereqp : qgreatereqp x y = true ↔ qval y ≤ qval x
  minusp : qminusp x = true ↔ qval x < 0

/-- Two numbers and the laws for them, each on either side -/
structure OrderedField (x y : SExp) : Prop where
  field : FieldLaws x y ∧ FieldLaws y x
  order : OrderLaws x y ∧ OrderLaws y x

theorem fieldLaws_iff (hx : QNumber x) (hy : QNumber y) :
    FieldLaws x y ↔ 0 < denominator x ∨ numerator x = 0 := by
  rw [← qabs_agrees_iff hx]
  refine ⟨FieldLaws.abs, fun habs => ?_⟩
  refine ⟨qval_qplus hx hy, (qval_qdifference hx hy).2, qval_qtimes hx hy, qval_qquotient hx hy,
    qval_qminus hx, habs, qval_qfractpt hx, ?_, ?_⟩
  · rw [qnorm_eq hx, qval_qrep]
  · rw [qnorm_eq hx, qnorm_eq (qnumber_qrep _), qval_qrep]

theorem orderLaws_iff (hx : QNumber x) (hy : QNumber y) :
    OrderLaws x y ↔ (0 < denominator x * denominator y ∨ qval x = qval y) ∧
      (0 < denominator x ∨ numerator x = 0) := by
  rw [← qlessp_agrees_iff hx hy, ← qminusp_agrees_iff hx]
  refine ⟨fun h => ⟨h.lessp, h.minusp⟩, fun ⟨hless, hminus⟩ => ?_⟩
  have hgreater : qgreaterp x y = true ↔ qval y < qval x := by
    rw [qgreaterp_eq_qlessp hx hy, qlessp_agrees_iff hy hx, mul_comm, eq_comm]
    exact (qlessp_agrees_iff hx hy).1 hless
  refine ⟨?_, hless, hgreater, ?_, ?_, hminus⟩
  · rw [qeqp_iff hx hy, qval_eq_iff hx hy]
  · rw [qlesseqp, Bool.not_eq_true', ← Bool.not_eq_true, hgreater, not_lt]
  · rw [qgreatereqp, Bool.not_eq_true', ← Bool.not_eq_true, hless, not_lt]

/-- The laws hold of numbers with positive denominators, and of zeros. -/
theorem orderedField_iff (hx : Constructed x) (hy : Constructed y) :
    OrderedField x y ↔
      (0 < denominator x ∧ 0 < denominator y) ∨ (numerator x = 0 ∧ numerator y = 0) := by
  have hx := hx.number
  have hy := hy.number
  have hlaws : OrderedField x y ↔
      (FieldLaws x y ∧ FieldLaws y x) ∧ OrderLaws x y ∧ OrderLaws y x :=
    ⟨fun h => ⟨h.field, h.order⟩, fun h => ⟨h.1, h.2⟩⟩
  have hd := denominator_ne_zero hx
  have he := denominator_ne_zero hy
  rw [hlaws, fieldLaws_iff hx hy, fieldLaws_iff hy hx, orderLaws_iff hx hy, orderLaws_iff hy hx,
    mul_comm (denominator y), qval_eq_iff hy hx, qval_eq_iff hx hy]
  constructor
  · rintro ⟨⟨hxs, hys⟩, ⟨hxy, -⟩, -⟩
    by_cases hpos : 0 < denominator x
    · obtain hpos' | hzero := hys
      · exact .inl ⟨hpos, hpos'⟩
      · obtain hmul | heq := hxy
        · exact .inl ⟨hpos, pos_of_mul_pos_right hmul hpos.le⟩
        · rw [hzero, zero_mul, mul_eq_zero] at heq
          exact .inr ⟨heq.resolve_right he, hzero⟩
    · have hzero := hxs.resolve_left hpos
      refine .inr ⟨hzero, ?_⟩
      obtain hmul | heq := hxy
      · refine hys.resolve_left fun hpos' => hpos (pos_of_mul_pos_left hmul hpos'.le)
      · rw [hzero, zero_mul, eq_comm, mul_eq_zero] at heq
        exact heq.resolve_right hd
  · rintro (⟨hpos, hpos'⟩ | ⟨hzero, hzero'⟩)
    · simp [hpos, hpos', mul_pos hpos hpos']
    · simp [hzero, hzero']

/-- `0 < 1/2`, and its negation is below 0. -/
theorem orderedField_iff_half : OrderedField (qquotient (.int 1) (.int 2)) (.int 0) ∧
    OrderedField (qminus (qquotient (.int 1) (.int 2))) (.int 0) := by
  have hhalf : Constructed (qquotient (.int 1) (.int 2)) := .quotient (.int 1) (.int 2) rfl
  exact ⟨(orderedField_iff hhalf (.int 0)).2 (.inl ⟨by decide, by decide⟩),
    (orderedField_iff hhalf.minus (.int 0)).2 (.inl ⟨by decide, by decide⟩)⟩

/-- The sign of `1 / -2` is in the denominator. -/
theorem not_orderedField : Constructed (qquotient (.int 1) (.int (-2))) ∧
    ¬ OrderedField (qquotient (.int 1) (.int (-2))) (.int 0) := by
  refine ⟨.quotient (.int 1) (.int (-2)) rfl, fun h => ?_⟩
  have hless : qlessp (qquotient (.int 1) (.int (-2))) (.int 0) = false := by decide
  have hval : qval (qquotient (.int 1) (.int (-2))) < qval (.int 0) := by
    norm_num [qquotient]
  rw [← h.order.1.lessp, hless] at hval
  exact Bool.false_ne_true hval

end PVS.GroundProver
