import Mathlib
import PVS.GroundEval.Ir2cRelations

/-! The functions of `pvslib.c` for quotients, remainders, floors and ceilings. -/

namespace PVS.GroundEval

open PVS.Library.CInt PVS.Library.CInt.IntType

/-! ### Integers of fixed width -/

/-- `return x/y;` -/
def divUnsigned (P Q R : IntType) (x y : Val) : Option Val := do
  return (← (x.conv P).div (y.conv Q)).conv R

/-- `return x%y;` -/
def remUnsigned (P Q R : IntType) (x y : Val) : Option Val := do
  return (← (x.conv P).mod (y.conv Q)).conv R

theorem inRange_one : (int .w32).InRange 1 := by decide

def cOne : Val := ⟨int .w32, 1, inRange_one⟩

/-- The quotient by an unsigned `y`: for a negative `x`, that of `-x` is corrected. -/
def divSigned (P Q : IntType) (x y : Val) : Option Val := do
  let x := x.conv P
  let y := y.conv Q
  if x.val < 0 then
    let q := (← (← x.neg).div y).conv P
    if (← q.mul y).lt (← x.neg) then return (← (← q.neg).sub cOne).conv P
    else return (← q.neg).conv P
  else return (← x.div y).conv P

def remSigned (P Q R : IntType) (x y : Val) : Option Val := do
  let x := x.conv P
  let y := y.conv Q
  if x.val < 0 then
    let r := (← (← x.neg).mod y).conv P
    if r.val = 0 then return r.conv R else return (← y.sub r).conv R
  else return (← x.mod y).conv R

def divUint32Uint32 := divUnsigned (uint .w32) (uint .w32) (uint .w32)
def divUint64Uint32 := divUnsigned (uint .w64) (uint .w32) (uint .w64)
def divUint32Uint64 := divUnsigned (uint .w32) (uint .w64) (uint .w32)
def divInt32Uint32 := divSigned (int .w32) (uint .w32)
-- The first parameter is an `int64_t`.
def divUint64Uint64 := divUnsigned (int .w64) (uint .w64) (uint .w64)
def divInt64Uint64 := divSigned (int .w64) (uint .w64)
def divInt64Uint32 := divSigned (int .w64) (uint .w32)

def remUint32Uint32 := remUnsigned (uint .w32) (uint .w32) (uint .w32)
-- The result is an `uint32_t`.
def remInt32Uint32 := remSigned (int .w32) (uint .w32) (uint .w32)
def remUint64Uint64 := remUnsigned (uint .w64) (uint .w64) (uint .w64)
def remInt64Uint64 := remSigned (int .w64) (uint .w64) (int .w64)
def remInt64Uint32 := remSigned (int .w64) (uint .w32) (int .w64)

/-- `mpz_fdiv_ui`: the remainder of the quotient that is rounded down. -/
def mpzFdivUi (x : ℤ) (y : Val) : Option Val :=
  let y := y.conv (uint .w64)
  if y.val = 0 then none else some ((Val.mk (uint .w64) _ (wrap_inRange _ (x % y.val))))

/-- `return mpz_fdiv_ui(x, y);` -/
def remMpz (R : IntType) (x : ℤ) (y : Val) : Option Val := do
  return (← mpzFdivUi x (y.conv R)).conv R

-- Both call `mpz_fdiv_ui`.
def divMpzUint64 := remMpz (uint .w64)
def remMpzUint32 := remMpz (uint .w32)

section Fixed

variable {P Q R : IntType} {x y : Val} {w : Width}

theorem inRange_int_iff {n : ℤ} :
    (int w).InRange n ↔ -2 ^ (w.bits - 1) ≤ n ∧ n < 2 ^ (w.bits - 1) := by
  cases w <;> norm_num [InRange, IntType.min, card, bits, width, Width.bits]

theorem inRange_neg_iff {n : ℤ} (h : (int w).InRange n) :
    (int w).InRange (-n) ↔ n ≠ (int w).min := by
  rw [inRange_int_iff] at h ⊢
  simp only [IntType.min]
  omega

theorem conv_val_of_inRange {T : IntType} {v : Val} (h : T.InRange v.val) :
    (v.conv T).val = v.val := wrap_eq_self h

theorem val_divUnsigned (hx : P.InRange x.val) (hy : Q.InRange y.val) (hx0 : 0 ≤ x.val)
    (hy0 : 0 < y.val) :
    (divUnsigned P Q R x y).map Val.val = some (R.wrap (x.val / y.val)) := by
  rw [← conv_val_of_inRange hx, ← conv_val_of_inRange hy] at *
  rw [divUnsigned, Val.div_of_nonneg hx0 hy0]
  rfl

theorem val_remUnsigned (hx : P.InRange x.val) (hy : Q.InRange y.val) (hx0 : 0 ≤ x.val)
    (hy0 : 0 < y.val) :
    (remUnsigned P Q R x y).map Val.val = some (R.wrap (x.val % y.val)) := by
  rw [← conv_val_of_inRange hx, ← conv_val_of_inRange hy] at *
  rw [remUnsigned, Val.mod_of_nonneg hx0 hy0]
  rfl

/-- The quotient that is rounded down, from the one of the absolute value. -/
theorem neg_ediv_eq {n y : ℤ} (hy : 0 < y) :
    -n / y = if n / y * y < n then -(n / y) - 1 else -(n / y) := by
  have h := Int.emod_add_mul_ediv n y
  have h0 := Int.emod_nonneg n hy.ne'
  have h1 := Int.emod_lt_of_pos n hy
  rw [mul_comm] at h
  split
  · rename_i hlt
    rw [Int.ediv_eq_iff_of_pos hy, sub_mul, neg_mul, one_mul]
    omega
  · rename_i hle
    rw [Int.ediv_eq_iff_of_pos hy, neg_mul]
    omega

theorem divSigned_of_neg (hw : (int w).promote = int w) (hjoin : usual (int w) (int .w32) = int w)
    (hx : (int w).InRange x.val) (hy : Q.InRange y.val) (hneg : x.val < 0)
    (hmin : x.val ≠ (int w).min) (hy0 : 0 < y.val) :
    (divSigned (int w) Q x y).map Val.val = some (x.val / y.val) := by
  have hx' := conv_val_of_inRange hx
  have hy' := conv_val_of_inRange hy
  obtain ⟨n, hn⟩ : ∃ n, n = -x.val := ⟨_, rfl⟩
  have hxn : x.val = -n := by omega
  have hnRange : (int w).InRange n := hn ▸ (inRange_neg_iff hx).2 hmin
  have hq0 : 0 ≤ n / y.val := Int.ediv_nonneg (by omega) hy0.le
  have hqn : n / y.val ≤ n / y.val * y.val := le_mul_of_one_le_right hq0 hy0
  have hmuln : n / y.val * y.val ≤ n := Int.ediv_mul_le n hy0.ne'
  have hq : (int w).InRange (n / y.val) := inRange_mono hnRange hq0 (hqn.trans hmuln)
  have hnegx : (x.conv (int w)).neg = some ⟨int w, n, hnRange⟩ := by
    rw [Val.neg_eq, Val.conv_type, hw, hx', ← hn, Val.arith_of_inRange hnRange]
  obtain ⟨d, hdiv, hd⟩ : ∃ d, Val.div ⟨int w, n, hnRange⟩ (y.conv Q) = some d ∧
      d.val = n / y.val :=
    ⟨_, Val.div_of_nonneg (by dsimp only; omega) (hy'.symm ▸ hy0), congrArg (n / ·) hy'⟩
  have hdconv : (d.conv (int w)).val = n / y.val := by rw [Val.conv_val, hd, wrap_eq_self hq]
  obtain ⟨m, hmul, hm⟩ : ∃ m, (d.conv (int w)).mul (y.conv Q) = some m ∧
      m.val = n / y.val * y.val := by
    have hmRange : (usual (int w) Q).InRange (n / y.val * y.val) :=
      inRange_mono (inRange_usual_of_nonneg Q hnRange (by omega)) (hq0.trans hqn) hmuln
    exact ⟨⟨_, _, hmRange⟩, by rw [Val.mul_eq, Val.conv_type, Val.conv_type, hdconv, hy',
      Val.arith_of_inRange hmRange], rfl⟩
  have hlt : m.lt ⟨int w, n, hnRange⟩ = true ↔ n / y.val * y.val < n := by
    rw [Val.lt_iff_of_nonneg (by rw [hm]; exact hq0.trans hqn) (by dsimp only; omega), hm]
  obtain ⟨e, hneg', hetype, he⟩ : ∃ e, (d.conv (int w)).neg = some e ∧ e.type = int w ∧
      e.val = -(n / y.val) := by
    have heRange : (int w).InRange (-(n / y.val)) := by
      rw [inRange_int_iff] at hnRange ⊢
      omega
    exact ⟨⟨_, _, heRange⟩, by rw [Val.neg_eq, Val.conv_type, hw, hdconv,
      Val.arith_of_inRange heRange], rfl, rfl⟩
  simp only [divSigned, hx', hneg, if_true, hnegx, Option.bind_eq_bind, Option.bind_some, hdiv,
    hmul, hneg', hlt]
  rw [hxn, neg_ediv_eq hy0]
  split
  · rename_i hcorr
    have hfRange : (int w).InRange (-(n / y.val) - 1) := by
      rw [inRange_int_iff] at hnRange ⊢
      omega
    have hsub : e.sub cOne = some ⟨int w, _, hfRange⟩ := by
      rw [Val.sub_eq, hetype, he]
      exact (congrArg (Val.arith · _) hjoin).trans (Val.arith_of_inRange hfRange)
    rw [hsub]
    exact congrArg some (wrap_eq_self hfRange)
  · have heRange : (int w).InRange e.val := hetype ▸ e.inRange
    exact congrArg some ((wrap_eq_self heRange).trans he)

theorem divSigned_of_nonneg (hx : (int w).InRange x.val) (hy : Q.InRange y.val)
    (hx0 : 0 ≤ x.val) (hy0 : 0 < y.val) :
    (divSigned (int w) Q x y).map Val.val = some (x.val / y.val) := by
  have hrange : (int w).InRange (x.val / y.val) :=
    inRange_mono hx (Int.ediv_nonneg hx0 hy0.le) (Int.ediv_le_self _ hx0)
  rw [← conv_val_of_inRange hx, ← conv_val_of_inRange hy] at *
  simp only [divSigned, not_lt.2 hx0, if_false, Option.bind_eq_bind,
    Val.div_of_nonneg hx0 hy0, Option.bind_some]
  exact congrArg some (wrap_eq_self hrange)

/-- The negation of the least value is undefined. -/
theorem neg_conv_min (hw : (int w).promote = int w) (hx : x.val = (int w).min) :
    (x.conv (int w)).val < 0 ∧ (x.conv (int w)).neg = none := by
  have hrange : (int w).InRange (int w).min := ⟨le_rfl, by linarith [card_pos (int w)]⟩
  have hx' : (x.conv (int w)).val = (int w).min := by rw [Val.conv_val, hx, wrap_eq_self hrange]
  refine ⟨?_, ?_⟩
  · rw [hx']
    exact neg_lt_zero.2 (by positivity)
  · rw [Val.neg_eq, Val.conv_type, hw, hx']
    apply Val.arith_overflow rfl
    rw [inRange_neg_iff hrange]
    simp

theorem divSigned_of_min (hw : (int w).promote = int w) (hx : x.val = (int w).min) :
    divSigned (int w) Q x y = none := by
  obtain ⟨hneg, hnone⟩ := neg_conv_min hw hx
  simp only [divSigned, hneg, if_true, hnone, Option.bind_eq_bind, Option.bind_none]

theorem remSigned_of_min {R : IntType} (hw : (int w).promote = int w) (hx : x.val = (int w).min) :
    remSigned (int w) Q R x y = none := by
  obtain ⟨hneg, hnone⟩ := neg_conv_min hw hx
  simp only [remSigned, hneg, if_true, hnone, Option.bind_eq_bind, Option.bind_none]

/-- The quotient is rounded down, but for the dividend whose negation overflows. -/
theorem val_divSigned (hw : (int w).promote = int w) (hjoin : usual (int w) (int .w32) = int w)
    (hx : (int w).InRange x.val) (hy : Q.InRange y.val) (hy0 : 0 < y.val) :
    (divSigned (int w) Q x y).map Val.val =
      if x.val = (int w).min then none else some (x.val / y.val) := by
  split
  · rename_i hmin
    rw [divSigned_of_min hw hmin]
    rfl
  · rename_i hmin
    by_cases hneg : x.val < 0
    · exact divSigned_of_neg hw hjoin hx hy hneg hmin hy0
    · exact divSigned_of_nonneg hx hy (not_lt.1 hneg) hy0

theorem neg_emod_eq {n y : ℤ} (hy : 0 < y) :
    -n % y = if n % y = 0 then 0 else y - n % y := by
  have h := Int.emod_add_mul_ediv n y
  have h0 := Int.emod_nonneg n hy.ne'
  have h1 := Int.emod_lt_of_pos n hy
  have key : ∀ {q r : ℤ}, r + y * q = -n → 0 ≤ r → r < y → -n % y = r := fun h h0 h1 =>
    ((Int.ediv_emod_unique hy).2 ⟨h, h0, h1⟩).2
  split
  · rename_i hr
    apply key (q := -(n / y)) _ le_rfl hy
    rw [mul_neg]
    omega
  · rename_i hr
    apply key (q := -(n / y) - 1) _ (by omega) (by omega)
    rw [mul_sub, mul_neg, mul_one]
    omega

theorem remSigned_of_neg (hw : (int w).promote = int w) (hx : (int w).InRange x.val)
    (hy : Q.InRange y.val) (hneg : x.val < 0) (hmin : x.val ≠ (int w).min) (hy0 : 0 < y.val) :
    (remSigned (int w) Q R x y).map Val.val = some (R.wrap (x.val % y.val)) := by
  have hx' := conv_val_of_inRange hx
  have hy' := conv_val_of_inRange hy
  obtain ⟨n, hn⟩ : ∃ n, n = -x.val := ⟨_, rfl⟩
  have hxn : x.val = -n := by omega
  have hnRange : (int w).InRange n := hn ▸ (inRange_neg_iff hx).2 hmin
  have hr0 : 0 ≤ n % y.val := Int.emod_nonneg n hy0.ne'
  have hry : n % y.val < y.val := Int.emod_lt_of_pos n hy0
  have hr : (int w).InRange (n % y.val) :=
    inRange_mono hnRange hr0 (emod_le_self (by omega) hy0.le)
  have hnegx : (x.conv (int w)).neg = some ⟨int w, n, hnRange⟩ := by
    rw [Val.neg_eq, Val.conv_type, hw, hx', ← hn, Val.arith_of_inRange hnRange]
  obtain ⟨d, hmod, hd⟩ : ∃ d, Val.mod ⟨int w, n, hnRange⟩ (y.conv Q) = some d ∧
      d.val = n % y.val :=
    ⟨_, Val.mod_of_nonneg (by dsimp only; omega) (hy'.symm ▸ hy0), congrArg (n % ·) hy'⟩
  have hdconv : (d.conv (int w)).val = n % y.val := by rw [Val.conv_val, hd, wrap_eq_self hr]
  simp only [remSigned, hx', hneg, if_true, hnegx, Option.bind_eq_bind, Option.bind_some, hmod,
    hdconv]
  rw [hxn, neg_emod_eq hy0]
  split
  · rename_i hzero
    rw [← hzero, ← hdconv]
    rfl
  · have hsubRange : (usual Q (int w)).InRange (y.val - n % y.val) :=
      inRange_mono (inRange_usual_of_nonneg (int w) hy hy0.le) (by omega) (by omega)
    have hsub : (y.conv Q).sub (d.conv (int w)) = some ⟨_, _, hsubRange⟩ := by
      rw [Val.sub_eq, Val.conv_type, Val.conv_type, hdconv, hy', Val.arith_of_inRange hsubRange]
    rw [hsub]
    rfl

theorem remSigned_of_nonneg (hx : (int w).InRange x.val) (hy : Q.InRange y.val)
    (hx0 : 0 ≤ x.val) (hy0 : 0 < y.val) :
    (remSigned (int w) Q R x y).map Val.val = some (R.wrap (x.val % y.val)) := by
  rw [← conv_val_of_inRange hx, ← conv_val_of_inRange hy] at *
  simp only [remSigned, not_lt.2 hx0, if_false, Option.bind_eq_bind, Val.mod_of_nonneg hx0 hy0,
    Option.bind_some]
  rfl

/-- The remainder is that of the quotient that is rounded down; the type of the result need not have
it. -/
theorem val_remSigned (hw : (int w).promote = int w) (hx : (int w).InRange x.val)
    (hy : Q.InRange y.val) (hy0 : 0 < y.val) :
    (remSigned (int w) Q R x y).map Val.val =
      if x.val = (int w).min then none else some (R.wrap (x.val % y.val)) := by
  split
  · rename_i hmin
    rw [remSigned_of_min hw hmin]
    rfl
  · rename_i hmin
    by_cases hneg : x.val < 0
    · exact remSigned_of_neg hw hx hy hneg hmin hy0
    · exact remSigned_of_nonneg hx hy (not_lt.1 hneg) hy0

/-- The parameter of type `int64_t` gives the unsigned dividend back. -/
theorem val_divUint64Uint64 (hx : (uint .w64).InRange x.val) (hy : (uint .w64).InRange y.val)
    (hy0 : 0 < y.val) : (divUint64Uint64 x y).map Val.val = some (x.val / y.val) := by
  have hconv : (uint .w64).wrap ((int .w64).wrap x.val) = x.val := by
    rw [wrap_eq_iff hx]
    exact wrap_modEq (int .w64) x.val
  have hdiv : (uint .w64).InRange (x.val / y.val) :=
    inRange_mono hx (Int.ediv_nonneg hx.1 hy0.le) (Int.ediv_le_self _ hx.1)
  have hquot : (x.conv (int .w64)).div (y.conv (uint .w64)) = some ⟨uint .w64, _, hdiv⟩ := by
    have husual : usual (int .w64) (uint .w64) = uint .w64 := rfl
    simp only [Val.div, Val.conv_type, husual, Val.conv_val, hconv, wrap_eq_self hy, hy0.ne',
      if_false, Int.tdiv_eq_ediv_of_nonneg hx.1, Val.arith_of_inRange hdiv]
  rw [divUint64Uint64, divUnsigned, hquot]
  exact congrArg some (wrap_eq_self hdiv)

theorem val_mpzFdivUi (x : ℤ) (hy : (uint .w64).InRange y.val) (hy0 : 0 < y.val) :
    (mpzFdivUi x y).map Val.val = some (x % y.val) := by
  have hmod : (uint .w64).InRange (x % y.val) :=
    inRange_mono hy (Int.emod_nonneg _ hy0.ne') (Int.emod_lt_of_pos _ hy0).le
  simp only [mpzFdivUi, conv_val_of_inRange hy, hy0.ne', if_false, Option.map_some,
    wrap_eq_self hmod]

theorem val_remMpz (x : ℤ) (hy : (uint w).InRange y.val) (hy0 : 0 < y.val) :
    (remMpz (uint w) x y).map Val.val = some (x % y.val) := by
  have hmod : (uint w).InRange (x % y.val) :=
    inRange_mono hy (Int.emod_nonneg _ hy0.ne') (Int.emod_lt_of_pos _ hy0).le
  have hy64 : (uint .w64).InRange y.val := inRange_uint_mono (by cases w <;> decide) hy
  have hconv := conv_val_of_inRange hy
  have hval := val_mpzFdivUi (y := y.conv (uint w)) x (hconv.symm ▸ hy64) (hconv.symm ▸ hy0)
  obtain ⟨r, hr, hrval⟩ := Option.map_eq_some_iff.1 hval
  rw [remMpz, hr]
  exact congrArg some (by rw [Val.conv_val, hrval, hconv, wrap_eq_self hmod])

end Fixed

/-! ### Rationals -/

/-- `mpz_set_q` rounds towards zero. -/
def mpzSetQ (x : ℚ) : ℤ := x.num.tdiv x.den

def pvsfloorQZ (x : ℚ) : ℤ := mpzSetQ x

def pvsfloorQQ (x : ℚ) : ℚ := pvsfloorQZ x

def pvsfloorQI64 (x : ℚ) : Val := ⟨int .w64, mpz_get_si (pvsfloorQZ x), inRange_mpz_get_si _⟩

/-- It has `mpz_get_si` as well. -/
def pvsfloorQU64 (x : ℚ) : Val := (pvsfloorQI64 x).conv (uint .w64)

/-- `mpz_cdiv_q` of the numerator and the denominator. -/
def pvsceilingQZ (x : ℚ) : ℤ := -(-x.num / x.den)

def pvsceilingQQ (x : ℚ) : ℚ := pvsceilingQZ x

def pvsceilingQI64 (x : ℚ) : Val := ⟨int .w64, mpz_get_si (pvsceilingQZ x), inRange_mpz_get_si _⟩

def pvsceilingQU64 (x : ℚ) : Val := ⟨uint .w64, mpz_get_ui (pvsceilingQZ x), inRange_mpz_get_ui _⟩

theorem pvsceilingQZ_eq (x : ℚ) : pvsceilingQZ x = ⌈x⌉ := (Rat.ceil_def' x).symm

theorem pvsfloorQZ_of_nonneg {x : ℚ} (h : 0 ≤ x) : pvsfloorQZ x = ⌊x⌋ := by
  rw [pvsfloorQZ, mpzSetQ, Int.tdiv_eq_ediv_of_nonneg (Rat.num_nonneg.2 h), Rat.floor_def']

theorem pvsfloorQZ_of_nonpos {x : ℚ} (h : x ≤ 0) : pvsfloorQZ x = ⌈x⌉ := by
  have hnum : 0 ≤ -x.num := neg_nonneg.2 (Rat.num_nonpos.2 h)
  rw [pvsfloorQZ, mpzSetQ, ← neg_neg x.num, Int.neg_tdiv, Int.tdiv_eq_ediv_of_nonneg hnum,
    Rat.ceil_def']

theorem ceil_eq_floor_iff (x : ℚ) : ⌈x⌉ = ⌊x⌋ ↔ x.den = 1 := by
  rw [Rat.den_eq_one_iff]
  constructor
  · intro h
    have hle : (⌈x⌉ : ℚ) ≤ x := h ▸ Int.floor_le x
    have hx : x = ⌈x⌉ := le_antisymm (Int.le_ceil x) hle
    rw [hx, Rat.num_intCast]
  · intro h
    rw [← h, Int.ceil_intCast, Int.floor_intCast]

/-- What is rounded towards zero is rounded down only if it is an integer or not negative. -/
theorem pvsfloorQZ_eq_floor_iff (x : ℚ) : pvsfloorQZ x = ⌊x⌋ ↔ 0 ≤ x ∨ x.den = 1 := by
  by_cases h : 0 ≤ x
  · simp [h, pvsfloorQZ_of_nonneg h]
  · rw [pvsfloorQZ_of_nonpos (not_le.1 h).le, ceil_eq_floor_iff]
    simp [h]

/-- It is at most one too large. -/
theorem pvsfloorQZ_bounds (x : ℚ) : ⌊x⌋ ≤ pvsfloorQZ x ∧ pvsfloorQZ x ≤ ⌊x⌋ + 1 := by
  by_cases h : 0 ≤ x
  · rw [pvsfloorQZ_of_nonneg h]
    omega
  · rw [pvsfloorQZ_of_nonpos (not_le.1 h).le]
    exact ⟨Int.floor_le_ceil x, Int.ceil_le_floor_add_one x⟩

end PVS.GroundEval
