import Mathlib.Algebra.Field.Rat
import Mathlib.Data.Rat.Lemmas
import Mathlib.Tactic.FieldSimp
import Mathlib.Tactic.Ring
import PVS.GroundProver.SExp

/-! The rational arithmetic of `q.lisp`: a number is an integer or `(QUO n d)`. Its two calls of
`error` are `nil` here, which is no number. -/

namespace PVS.GroundProver

open SExp

def num (x : SExp) : ℤ := x.arg1.toInt
def den (x : SExp) : ℤ := x.arg2.toInt

abbrev qmake (n d : ℤ) : SExp := form "QUO" [.int n, .int d]

@[simp] theorem num_qmake (n d : ℤ) : num (qmake n d) = n := rfl
@[simp] theorem den_qmake (n d : ℤ) : den (qmake n d) = d := rfl

def qnumberp (t : SExp) : Bool := t.integerp || (t.consp && t.funsym == .sym "QUO")

def qzerop : SExp → Bool
  | .int x => x == 0
  | x => num x == 0

def qminus : SExp → SExp
  | .int x => .int (-x)
  | x => qmake (-num x) (den x)

def qeqp : SExp → SExp → Bool
  | .int x, .int y => x == y
  | .int x, y => x * den y == num y
  | x, .int y => y * den x == num x
  | x, y => num x * den y == num y * den x

def qlessp : SExp → SExp → Bool
  | .int x, .int y => x < y
  | .int x, y => x * den y < num y
  | x, .int y => num x < y * den x
  | x, y => num x * den y < num y * den x

def qnorm : SExp → SExp
  | .int x => .int x
  | x =>
    if den x = 0 then nil
    else if num x = 0 then .int 0
    else
      let n := if den x < 0 then -num x else num x
      let d := if den x < 0 then -den x else den x
      let gcd : ℤ := Int.gcd n d
      if d = gcd then .int (n.tdiv d) else qmake (n.tdiv gcd) (d.tdiv gcd)

def qplus : SExp → SExp → SExp
  | .int x, .int y => .int (x + y)
  | .int x, y => qmake (x * den y + num y) (den y)
  | x, .int y => qmake (y * den x + num x) (den x)
  | x, y => qmake (den x * num y + den y * num x) (den x * den y)

def qtimes : SExp → SExp → SExp
  | .int x, .int y => .int (x * y)
  | .int x, y => qmake (x * num y) (den y)
  | x, .int y => qmake (y * num x) (den x)
  | x, y => qmake (num x * num y) (den x * den y)

def qquotient : SExp → SExp → SExp
  | .int x, .int y => if y = 0 then nil else qmake x y
  | .int x, y => if num y = 0 then nil else qmake (x * den y) (num y)
  | x, .int y => if y = 0 then nil else qmake (num x) (den x * y)
  | x, y => if num y = 0 then nil else qmake (num x * den y) (num y * den x)

/-! ### Values -/

inductive QNumber : SExp → Prop
  | int (i : ℤ) : QNumber (.int i)
  | quo (n : ℤ) {d : ℤ} : d ≠ 0 → QNumber (qmake n d)

def qval : SExp → ℚ
  | .int i => i
  | x => num x / den x

/-- The normal form of a rational. -/
def qrep (q : ℚ) : SExp := if q.den = 1 then .int q.num else qmake q.num q.den

@[simp] theorem qval_int (i : ℤ) : qval (.int i) = i := rfl
@[simp] theorem qval_qmake (n d : ℤ) : qval (qmake n d) = n / d := rfl
@[simp] theorem qnumberp_sym (n : String) : qnumberp (.sym n) = false := rfl

@[simp] theorem qnumberp_cons (f args : SExp) : qnumberp (.cons f args) = (f == .sym "QUO") := rfl

theorem QNumber.qnumberp {x : SExp} (hx : QNumber x) : qnumberp x = true := by
  cases hx <;> rfl

variable {x y : SExp}

theorem qzerop_iff (hx : QNumber x) : qzerop x = true ↔ qval x = 0 := by
  cases hx with
  | int i => simp [qzerop]
  | quo n hd => simp [qzerop, hd]

theorem QNumber.qminus (hx : QNumber x) : QNumber (qminus x) := by
  cases hx with
  | int i => exact .int _
  | quo n hd => exact .quo _ hd

theorem qval_qminus (hx : QNumber x) : qval (qminus x) = -qval x := by
  cases hx with
  | int i => simp [GroundProver.qminus]
  | quo n hd => simp [GroundProver.qminus, neg_div]

theorem QNumber.qtimes (hx : QNumber x) (hy : QNumber y) : QNumber (qtimes x y) := by
  cases hx with
  | int i =>
    cases hy with
    | int j => exact .int _
    | quo m he => exact .quo _ he
  | quo n hd =>
    cases hy with
    | int j => exact .quo _ hd
    | quo m he => exact .quo _ (mul_ne_zero hd he)

theorem qval_qtimes (hx : QNumber x) (hy : QNumber y) :
    qval (qtimes x y) = qval x * qval y := by
  cases hx with
  | int i =>
    cases hy with
    | int j => simp [GroundProver.qtimes]
    | quo m he => simp [GroundProver.qtimes, mul_div_assoc]
  | quo n hd =>
    cases hy with
    | int j => simp [GroundProver.qtimes]; ring
    | quo m he => simp [GroundProver.qtimes, mul_div_mul_comm]

theorem QNumber.qplus (hx : QNumber x) (hy : QNumber y) : QNumber (qplus x y) := by
  cases hx with
  | int i =>
    cases hy with
    | int j => exact .int _
    | quo m he => exact .quo _ he
  | quo n hd =>
    cases hy with
    | int j => exact .quo _ hd
    | quo m he => exact .quo _ (mul_ne_zero hd he)

theorem qval_qplus (hx : QNumber x) (hy : QNumber y) :
    qval (qplus x y) = qval x + qval y := by
  cases hx with
  | int i =>
    cases hy with
    | int j => simp [GroundProver.qplus]
    | @quo m e he =>
      have he : (e : ℚ) ≠ 0 := by exact_mod_cast he
      simp only [GroundProver.qplus, num_qmake, den_qmake, qval_qmake, qval_int]
      push_cast
      field_simp
  | @quo n d hd =>
    have hd : (d : ℚ) ≠ 0 := by exact_mod_cast hd
    cases hy with
    | int j =>
      simp only [GroundProver.qplus, num_qmake, den_qmake, qval_qmake, qval_int]
      push_cast
      field_simp
      ring
    | @quo m e he =>
      have he : (e : ℚ) ≠ 0 := by exact_mod_cast he
      simp only [GroundProver.qplus, num_qmake, den_qmake, qval_qmake]
      push_cast
      field_simp
      ring

theorem QNumber.qquotient (hx : QNumber x) (hy : QNumber y) (h : qval y ≠ 0) :
    QNumber (qquotient x y) := by
  cases hx with
  | int i =>
    cases hy with
    | int j =>
      have hj : j ≠ 0 := by simpa using h
      simpa [GroundProver.qquotient, hj] using QNumber.quo i hj
    | quo m he =>
      have hm : m ≠ 0 := by simpa [he] using h
      simpa [GroundProver.qquotient, hm] using QNumber.quo _ hm
  | @quo n d hd =>
    cases hy with
    | int j =>
      have hj : j ≠ 0 := by simpa using h
      simpa [GroundProver.qquotient, hj] using QNumber.quo n (mul_ne_zero hd hj)
    | quo m he =>
      have hm : m ≠ 0 := by simpa [he] using h
      simpa [GroundProver.qquotient, hm] using QNumber.quo _ (mul_ne_zero hm hd)

theorem qval_qquotient (hx : QNumber x) (hy : QNumber y) (h : qval y ≠ 0) :
    qval (qquotient x y) = qval x / qval y := by
  cases hx with
  | int i =>
    cases hy with
    | int j =>
      have hj : j ≠ 0 := by simpa using h
      simp [GroundProver.qquotient, hj]
    | quo m he =>
      have hm : m ≠ 0 := by simpa [he] using h
      simp [GroundProver.qquotient, hm, div_div_eq_mul_div]
  | @quo n d hd =>
    cases hy with
    | int j =>
      have hj : j ≠ 0 := by simpa using h
      simp [GroundProver.qquotient, hj, div_div]
    | @quo m e he =>
      have hm : m ≠ 0 := by simpa [he] using h
      simp [GroundProver.qquotient, hm, div_div_div_eq, mul_comm]

theorem qeqp_one_iff (hx : QNumber x) : qeqp x (.int 1) = true ↔ qval x = 1 := by
  cases hx with
  | int i =>
    simp [qeqp]
  | quo n hd =>
    simp [qeqp]
    rw [div_eq_one_iff_eq (by exact_mod_cast hd), eq_comm]
    exact_mod_cast Iff.rfl

/-! ### Normal forms -/

theorem qnumber_qrep (q : ℚ) : QNumber (qrep q) := by
  unfold qrep
  split
  · exact .int _
  · exact .quo _ (by exact_mod_cast q.den_nz)

@[simp] theorem qval_qrep (q : ℚ) : qval (qrep q) = q := by
  unfold qrep
  split
  case isTrue h => exact Rat.coe_int_num_of_den_eq_one h
  case isFalse => exact q.num_div_den

theorem qrep_injective : Function.Injective qrep := Function.LeftInverse.injective qval_qrep

@[simp] theorem qrep_intCast (i : ℤ) : qrep i = .int i := by simp [qrep]

theorem qrep_div_of_coprime {n d : ℤ} (hd : 0 < d) (h : n.natAbs.Coprime d.natAbs) :
    qrep (n / d) = if d = 1 then .int n else qmake n d := by
  have hn : ((n : ℚ) / d).num = n := Rat.num_div_eq_of_coprime hd h
  have hden : (((n : ℚ) / d).den : ℤ) = d := Rat.den_div_eq_of_coprime hd h
  have h1 : ((n : ℚ) / d).den = 1 ↔ d = 1 := by
    constructor
    · intro e
      rw [← hden, e, Nat.cast_one]
    · intro e
      exact Nat.cast_eq_one.1 (hden.trans e)
  simp only [qrep, hn, hden, h1]

theorem qnorm_pos {n d : ℤ} (hd : 0 < d) :
    (if d = Int.gcd n d then SExp.int (n.tdiv d)
      else qmake (n.tdiv (Int.gcd n d)) (d.tdiv (Int.gcd n d))) = qrep (n / d) := by
  have hg : 0 < (Int.gcd n d : ℤ) := by exact_mod_cast Int.gcd_pos_of_ne_zero_right n hd.ne'
  have hgn : (Int.gcd n d : ℤ) ∣ n := Int.gcd_dvd_left ..
  have hgd : (Int.gcd n d : ℤ) ∣ d := Int.gcd_dvd_right ..
  have hcop : Int.gcd (n / Int.gcd n d) (d / Int.gcd n d) = 1 :=
    Int.gcd_ediv_gcd_ediv_gcd (by exact_mod_cast hg)
  generalize (Int.gcd n d : ℤ) = g at *
  obtain ⟨n', rfl⟩ := hgn
  obtain ⟨d', rfl⟩ := hgd
  have hg0 : (g : ℚ) ≠ 0 := by exact_mod_cast hg.ne'
  rw [Int.mul_ediv_cancel_left _ hg.ne', Int.mul_ediv_cancel_left _ hg.ne'] at hcop
  have hq : ((g * n' : ℤ) : ℚ) / ((g * d' : ℤ) : ℚ) = n' / d' := by
    push_cast
    exact mul_div_mul_left _ _ hg0
  rw [hq, qrep_div_of_coprime (pos_of_mul_pos_right hd hg.le) hcop]
  have h1 : g * d' = g ↔ d' = 1 := by
    constructor
    · intro e
      exact Int.eq_one_of_mul_eq_self_right hg.ne' e
    · rintro rfl
      exact mul_one g
  simp only [h1, Int.mul_tdiv_cancel_left _ hg.ne']
  split
  case isTrue e => rw [e, mul_one, Int.mul_tdiv_cancel_left _ hg.ne']
  case isFalse => rfl

theorem qnorm_eq (hx : QNumber x) : qnorm x = qrep (qval x) := by
  cases hx with
  | int i => simp [qnorm]
  | @quo n d hd =>
    simp only [qnorm, num_qmake, den_qmake, hd, if_false, qval_qmake]
    by_cases hn : n = 0
    · simp [hn, qrep]
    · rcases lt_or_gt_of_ne hd with h | h
      · simp only [hn, h, if_true, if_false]
        rw [qnorm_pos (by omega)]
        push_cast
        rw [neg_div_neg_eq]
      · simp only [hn, h.not_gt, if_false]
        exact qnorm_pos h

theorem qminus_qrep (q : ℚ) : qminus (qrep q) = qrep (-q) := by
  unfold qrep
  rw [Rat.den_neg_eq_den, Rat.num_neg_eq_neg_num]
  split <;> rfl

end PVS.GroundProver
