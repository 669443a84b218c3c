import Mathlib.Data.Int.ModEq
import Mathlib.Tactic.Linarith
import Mathlib.Tactic.NormNum
import Mathlib.Tactic.Ring

/-! Integer arithmetic of C where `int` has 32 bits and `long` 64: conversions, the integer
promotions and the usual arithmetic conversions. Unsigned arithmetic wraps, conversions to a signed
type wrap, and an overflow of signed arithmetic is undefined. -/

namespace PVS.Library.CInt

inductive Width
  | w8 | w16 | w32 | w64
  deriving DecidableEq, Repr

def Width.bits : Width → ℕ
  | .w8 => 8
  | .w16 => 16
  | .w32 => 32
  | .w64 => 64

def Width.max (v w : Width) : Width := if v.bits ≤ w.bits then w else v

inductive IntType
  | uint (w : Width)
  | int (w : Width)
  deriving DecidableEq, Repr

namespace IntType

def width : IntType → Width
  | uint w => w
  | int w => w

def bits (T : IntType) : ℕ := T.width.bits

def signed : IntType → Bool
  | uint _ => false
  | int _ => true

/-- The number of values. -/
def card (T : IntType) : ℤ := 2 ^ T.bits

def min : IntType → ℤ
  | uint _ => 0
  | int w => -2 ^ (w.bits - 1)

def InRange (T : IntType) (v : ℤ) : Prop := T.min ≤ v ∧ v < T.min + T.card

instance (T : IntType) (v : ℤ) : Decidable (T.InRange v) :=
  inferInstanceAs (Decidable (_ ∧ _))

/-- The value of the type that is `v` modulo the number of values. -/
def wrap (T : IntType) (v : ℤ) : ℤ := T.min + (v - T.min) % T.card

/-- The integer promotions. -/
def promote : IntType → IntType
  | uint .w8 | uint .w16 | int .w8 | int .w16 => int .w32
  | T => T

/-- The usual arithmetic conversions of promoted types. -/
def join : IntType → IntType → IntType
  | uint v, uint w => uint (v.max w)
  | int v, int w => int (v.max w)
  | uint v, int w => if w.bits ≤ v.bits then uint v else int w
  | int v, uint w => if v.bits ≤ w.bits then uint w else int v

/-- The type in which `+`, `-` and `*` compute on operands of types `T` and `U`. -/
def usual (T U : IntType) : IntType := join (promote T) (promote U)

theorem card_pos (T : IntType) : 0 < T.card := by
  apply pow_pos
  norm_num

theorem card_dvd_card {T U : IntType} (h : T.bits ≤ U.bits) : T.card ∣ U.card :=
  pow_dvd_pow 2 h

theorem wrap_inRange (T : IntType) (v : ℤ) : T.InRange (T.wrap v) := by
  have h := Int.emod_nonneg (v - T.min) T.card_pos.ne'
  have h' := Int.emod_lt_of_pos (v - T.min) T.card_pos
  unfold InRange wrap
  omega

theorem wrap_modEq (T : IntType) (v : ℤ) : T.wrap v ≡ v [ZMOD T.card] := by
  have h : T.min + (v - T.min) % T.card ≡ T.min + (v - T.min) [ZMOD T.card] := by
    apply Int.ModEq.add_left
    apply Int.mod_modEq
  rwa [add_sub_cancel] at h

theorem wrap_congr {T : IntType} {v w : ℤ} (h : v ≡ w [ZMOD T.card]) : T.wrap v = T.wrap w := by
  unfold wrap
  rw [h.sub_right]

theorem wrap_eq_self {T : IntType} {v : ℤ} (h : T.InRange v) : T.wrap v = v := by
  unfold InRange at h
  unfold wrap
  rw [Int.emod_eq_of_lt (by omega) (by omega)]
  omega

@[simp] theorem wrap_wrap (T : IntType) (v : ℤ) : T.wrap (T.wrap v) = T.wrap v :=
  wrap_eq_self (T.wrap_inRange v)

/-- A value of the type is determined by its residue. -/
theorem wrap_eq_iff {T : IntType} {v r : ℤ} (h : T.InRange r) :
    T.wrap v = r ↔ v ≡ r [ZMOD T.card] := by
  constructor
  · intro e
    rw [← e]
    apply (T.wrap_modEq v).symm
  · intro e
    rw [wrap_congr e, wrap_eq_self h]

theorem wrap_inj {T : IntType} {v w : ℤ} (hv : T.InRange v) (hw : T.InRange w)
    (h : v ≡ w [ZMOD T.card]) : v = w := by
  rw [← wrap_eq_self hw, ← (wrap_eq_iff (wrap_inRange T w)).2 (h.trans (T.wrap_modEq w).symm),
    wrap_eq_self hv]

theorem inRange_int_mono {v w : Width} (h : v.bits ≤ w.bits) {n : ℤ} (hn : (int v).InRange n) :
    (int w).InRange n := by
  cases v <;> cases w <;> simp [InRange, min, card, bits, width, Width.bits] at h hn ⊢ <;> omega

theorem inRange_uint_mono {v w : Width} (h : v.bits ≤ w.bits) {n : ℤ} (hn : (uint v).InRange n) :
    (uint w).InRange n := by
  cases v <;> cases w <;> simp [InRange, min, card, bits, width, Width.bits] at h hn ⊢ <;> omega

theorem inRange_int_of_uint {v w : Width} (h : v.bits < w.bits) {n : ℤ}
    (hn : (uint v).InRange n) : (int w).InRange n := by
  cases v <;> cases w <;> simp [InRange, min, card, bits, width, Width.bits] at h hn ⊢ <;> omega

theorem inRange_promote {T : IntType} {n : ℤ} (h : T.InRange n) : T.promote.InRange n := by
  cases T with
  | uint w => cases w <;> simp [InRange, promote, min, card, bits, width, Width.bits] at h ⊢ <;> omega
  | int w => cases w <;> simp [InRange, promote, min, card, bits, width, Width.bits] at h ⊢ <;> omega

theorem bits_le_max_left (v w : Width) : v.bits ≤ (v.max w).bits := by
  unfold Width.max
  split <;> omega

theorem bits_le_max_right (v w : Width) : w.bits ≤ (v.max w).bits := by
  unfold Width.max
  split <;> omega

theorem max_comm (v w : Width) : v.max w = w.max v := by
  cases v <;> cases w <;> rfl

theorem join_comm (T U : IntType) : T.join U = U.join T := by
  cases T <;> cases U <;> simp [join, max_comm]

theorem usual_comm (T U : IntType) : T.usual U = U.usual T := join_comm _ _

/-- Signed arithmetic is done in a type that has every value of the operands' types. -/
theorem inRange_join {T U : IntType} (h : (T.join U).signed) {n : ℤ} (hn : T.InRange n) :
    (T.join U).InRange n := by
  cases T with
  | uint v =>
    cases U with
    | uint w => cases h
    | int w =>
      by_cases hw : w.bits ≤ v.bits
      · simp [join, hw, signed] at h
      · simp only [join, if_neg hw]
        apply inRange_int_of_uint _ hn
        omega
  | int v =>
    cases U with
    | uint w =>
      by_cases hw : v.bits ≤ w.bits
      · simp [join, hw, signed] at h
      · simpa only [join, if_neg hw] using hn
    | int w => exact inRange_int_mono (bits_le_max_left v w) hn

theorem inRange_usual {T U : IntType} (h : (T.usual U).signed) {n : ℤ} (hn : T.InRange n) :
    (T.usual U).InRange n :=
  inRange_join h (inRange_promote hn)

theorem inRange_usual' {T U : IntType} (h : (T.usual U).signed) {n : ℤ} (hn : U.InRange n) :
    (T.usual U).InRange n := by
  rw [usual_comm] at h ⊢
  apply inRange_usual h hn

theorem inRange_neg_of_nonneg {w : Width} {n : ℤ} (h : (int w).InRange n) (h0 : 0 ≤ n) :
    (int w).promote.InRange (-n) := by
  cases w <;> simp [InRange, promote, min, card, bits, width, Width.bits] at h ⊢ <;> omega

theorem inRange_usual_uint {v : Width} (w : Width) {n : ℤ} (h : (uint v).InRange n) :
    ((uint v).usual (uint w)).InRange n := by
  cases v <;> cases w <;>
    simp [InRange, usual, promote, join, Width.max, min, card, bits, width, Width.bits] at h ⊢ <;>
      omega

/-- What is computed as `n` in `C` and converted to `T` is `n`, when `n` is a value of `T`. -/
def Fits (C T : IntType) (n : ℤ) : Prop := C.InRange n ∨ C.signed = false ∧ T.bits ≤ C.bits

/-- A residue of an unsigned type is a value of every wider type. -/
theorem inRange_of_bits_lt {C T : IntType} (hc : C.signed = false) (h : C.bits < T.bits) {n : ℤ}
    (hn : C.InRange n) : T.InRange n := by
  cases C with
  | int v => cases hc
  | uint v =>
    cases T with
    | uint w => exact inRange_uint_mono h.le hn
    | int w => exact inRange_int_of_uint h hn

theorem min_nonpos (T : IntType) : T.min ≤ 0 := by
  cases T with
  | uint w => exact le_rfl
  | int w => exact neg_nonpos.2 (by positivity)

theorem inRange_unsigned_of_nonneg {T U : IntType} {n : ℤ} (hu : U.signed = false)
    (hbits : T.bits ≤ U.bits) (h : T.InRange n) (h0 : 0 ≤ n) : U.InRange n := by
  cases U with
  | int w => cases hu
  | uint w =>
    have hcard : T.card ≤ (uint w).card := Int.le_of_dvd (card_pos _) (card_dvd_card hbits)
    have hmin := T.min_nonpos
    have hlt := h.2
    refine ⟨h0, ?_⟩
    simp only [IntType.min]
    omega

/-- Unsigned arithmetic is done in a type that is no narrower than the operands' types. -/
theorem bits_le_usual {T U : IntType} (h : (T.usual U).signed = false) :
    T.bits ≤ (T.usual U).bits := by
  cases T with
  | uint v => cases U with
    | uint w => cases v <;> cases w <;> decide
    | int w => cases v <;> cases w <;> revert h <;> decide
  | int v => cases U with
    | uint w => cases v <;> cases w <;> revert h <;> decide
    | int w => cases v <;> cases w <;> revert h <;> decide

/-- A value that is not negative is one of the type of an operation on it. -/
theorem inRange_usual_of_nonneg {T : IntType} (U : IntType) {n : ℤ} (h : T.InRange n)
    (h0 : 0 ≤ n) : (T.usual U).InRange n := by
  cases hs : (T.usual U).signed with
  | true => exact inRange_usual hs h
  | false => exact inRange_unsigned_of_nonneg hs (bits_le_usual hs) h h0

theorem inRange_usual_of_nonneg' {U : IntType} (T : IntType) {n : ℤ} (h : U.InRange n)
    (h0 : 0 ≤ n) : (T.usual U).InRange n := by
  rw [usual_comm]
  exact inRange_usual_of_nonneg T h h0

theorem emod_le_self {x y : ℤ} (hx : 0 ≤ x) (hy : 0 ≤ y) : x % y ≤ x := by
  have h := Int.emod_add_mul_ediv x y
  have h' := mul_nonneg hy (Int.ediv_nonneg hx hy)
  omega

theorem inRange_mono {T : IntType} {m n : ℤ} (h : T.InRange n) (h0 : 0 ≤ m) (hle : m ≤ n) :
    T.InRange m :=
  ⟨T.min_nonpos.trans h0, hle.trans_lt h.2⟩

end IntType

open IntType

/-- A value of a C expression of integer type. -/
@[ext] structure Val where
  type : IntType
  val : ℤ
  inRange : type.InRange val

namespace Val

def conv (T : IntType) (v : Val) : Val := ⟨T, T.wrap v.val, T.wrap_inRange v.val⟩

/-- The value `n` of an operation that computes in `T`. -/
def arith (T : IntType) (n : ℤ) : Option Val :=
  if T.signed then
    if h : T.InRange n then some ⟨T, n, h⟩ else none
  else some ⟨T, T.wrap n, T.wrap_inRange n⟩

def neg (v : Val) : Option Val := arith v.type.promote (-(v.conv v.type.promote).val)

def binop (f : ℤ → ℤ → ℤ) (v w : Val) : Option Val :=
  let T := usual v.type w.type
  arith T (f (v.conv T).val (w.conv T).val)

def add : Val → Val → Option Val := binop (· + ·)
def sub : Val → Val → Option Val := binop (· - ·)
def mul : Val → Val → Option Val := binop (· * ·)

def lt (v w : Val) : Bool :=
  let T := usual v.type w.type
  (v.conv T).val < (w.conv T).val

@[simp] theorem conv_type (T : IntType) (v : Val) : (v.conv T).type = T := rfl
@[simp] theorem conv_val (T : IntType) (v : Val) : (v.conv T).val = T.wrap v.val := rfl

theorem conv_eq {T : IntType} {v : Val} (h : T.InRange v.val) : v.conv T = ⟨T, v.val, h⟩ :=
  Val.ext rfl (wrap_eq_self h)

theorem arith_of_inRange {T : IntType} {n : ℤ} (h : T.InRange n) : arith T n = some ⟨T, n, h⟩ := by
  simp [arith, h, wrap_eq_self h]

theorem arith_unsigned {T : IntType} (h : T.signed = false) (n : ℤ) :
    arith T n = some ⟨T, T.wrap n, T.wrap_inRange n⟩ := by
  simp [arith, h]

theorem arith_overflow {T : IntType} (h : T.signed) {n : ℤ} (hn : ¬T.InRange n) :
    arith T n = none := by
  simp [arith, h, hn]

/-- The conversions of the operands do not change what an operation on residues computes. -/
theorem binop_eq {f : ℤ → ℤ → ℤ}
    (hf : ∀ {m a a' b b' : ℤ}, a ≡ a' [ZMOD m] → b ≡ b' [ZMOD m] → f a b ≡ f a' b' [ZMOD m])
    (v w : Val) : binop f v w = arith (usual v.type w.type) (f v.val w.val) := by
  unfold binop
  simp only [conv_val]
  cases hs : (usual v.type w.type).signed with
  | true =>
    rw [wrap_eq_self (inRange_usual hs v.inRange), wrap_eq_self (inRange_usual' hs w.inRange)]
  | false =>
    rw [arith_unsigned hs, arith_unsigned hs]
    have h := wrap_congr (hf (wrap_modEq (usual v.type w.type) v.val)
      (wrap_modEq (usual v.type w.type) w.val))
    simp only [h]

theorem add_eq (v w : Val) : v.add w = arith (usual v.type w.type) (v.val + w.val) :=
  binop_eq Int.ModEq.add v w

theorem sub_eq (v w : Val) : v.sub w = arith (usual v.type w.type) (v.val - w.val) :=
  binop_eq Int.ModEq.sub v w

theorem mul_eq (v w : Val) : v.mul w = arith (usual v.type w.type) (v.val * w.val) :=
  binop_eq Int.ModEq.mul v w

theorem neg_eq (v : Val) : v.neg = arith v.type.promote (-v.val) := by
  unfold neg
  rw [conv_val, wrap_eq_self (inRange_promote v.inRange)]

theorem lt_iff {v w : Val} (h : (usual v.type w.type).signed) : v.lt w ↔ v.val < w.val := by
  simp [lt, wrap_eq_self (inRange_usual h v.inRange), wrap_eq_self (inRange_usual' h w.inRange)]

theorem arith_val_modEq {C : IntType} {n : ℤ} {v : Val} (h : arith C n = some v) :
    v.val ≡ n [ZMOD C.card] := by
  unfold arith at h
  split at h
  · split at h <;> cases h
    rfl
  · cases h
    apply wrap_modEq

theorem exists_arith_iff {C T : IntType} {n : ℤ} (hn : T.InRange n) :
    (∃ v, arith C n = some v ∧ v.val ≡ n [ZMOD T.card]) ↔ C.Fits T n := by
  constructor
  · rintro ⟨v, h, e⟩
    cases hs : C.signed with
    | true =>
      simp only [arith, hs, if_true] at h
      split at h
      · next hc => exact .inl hc
      · cases h
    | false =>
      by_cases hb : T.bits ≤ C.bits
      · exact .inr ⟨hs, hb⟩
      · rw [arith_unsigned hs] at h
        cases h
        have hc := C.wrap_inRange n
        have hw : C.wrap n = n := wrap_inj (inRange_of_bits_lt hs (not_le.1 hb) hc) hn e
        rw [hw] at hc
        exact .inl hc
  · rintro (h | ⟨hs, hb⟩)
    · exact ⟨_, arith_of_inRange h, rfl⟩
    · exact ⟨_, arith_unsigned hs n, (wrap_modEq C n).of_dvd (card_dvd_card hb)⟩

/-- The quotient is rounded towards zero; that by zero is undefined. -/
def div (v w : Val) : Option Val :=
  let T := usual v.type w.type
  if (w.conv T).val = 0 then none else arith T ((v.conv T).val.tdiv (w.conv T).val)

/-- The remainder is defined where the quotient is. -/
def mod (v w : Val) : Option Val := do
  let _ ← v.div w
  let T := usual v.type w.type
  arith T ((v.conv T).val.tmod (w.conv T).val)

theorem inRange_usual_div {v w : Val} (hv : 0 ≤ v.val) (hw : 0 < w.val) :
    (usual v.type w.type).InRange (v.val / w.val) :=
  inRange_mono (inRange_usual_of_nonneg w.type v.inRange hv) (Int.ediv_nonneg hv hw.le)
    (Int.ediv_le_self _ hv)

theorem inRange_usual_mod {v w : Val} (hv : 0 ≤ v.val) (hw : 0 < w.val) :
    (usual v.type w.type).InRange (v.val % w.val) :=
  inRange_mono (inRange_usual_of_nonneg w.type v.inRange hv) (Int.emod_nonneg _ hw.ne')
    (emod_le_self hv hw.le)

theorem div_of_nonneg {v w : Val} (hv : 0 ≤ v.val) (hw : 0 < w.val) :
    v.div w = some ⟨usual v.type w.type, v.val / w.val, inRange_usual_div hv hw⟩ := by
  simp only [div, conv_val, wrap_eq_self (inRange_usual_of_nonneg w.type v.inRange hv),
    wrap_eq_self (inRange_usual_of_nonneg' v.type w.inRange hw.le), hw.ne', if_false,
    Int.tdiv_eq_ediv_of_nonneg hv, arith_of_inRange (inRange_usual_div hv hw)]

theorem mod_of_nonneg {v w : Val} (hv : 0 ≤ v.val) (hw : 0 < w.val) :
    v.mod w = some ⟨usual v.type w.type, v.val % w.val, inRange_usual_mod hv hw⟩ := by
  simp only [mod, div_of_nonneg hv hw, Option.bind_eq_bind, Option.bind_some, conv_val,
    wrap_eq_self (inRange_usual_of_nonneg w.type v.inRange hv),
    wrap_eq_self (inRange_usual_of_nonneg' v.type w.inRange hw.le),
    Int.tmod_eq_emod_of_nonneg hv, arith_of_inRange (inRange_usual_mod hv hw)]

theorem lt_iff_of_nonneg {v w : Val} (hv : 0 ≤ v.val) (hw : 0 ≤ w.val) :
    v.lt w ↔ v.val < w.val := by
  simp [lt, wrap_eq_self (inRange_usual_of_nonneg w.type v.inRange hv),
    wrap_eq_self (inRange_usual_of_nonneg' v.type w.inRange hw)]

end Val

end PVS.Library.CInt
