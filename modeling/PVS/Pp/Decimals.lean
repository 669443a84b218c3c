import Mathlib.Data.Nat.Prime.Basic
import Mathlib.Data.Rat.Floor
import Mathlib.Tactic.FieldSimp
import PVS.Store.Object

/-! The printing of rational numbers as decimals. -/

namespace PVS.Pp

open Store (formatInteger formatRational)

/-! ### The digits -/

theorem div_pos_of_mod {num fac : ℕ} (hnum : 0 < num) (hfac : 1 < fac) (h : num % fac = 0) :
    0 < num / fac ∧ num / fac < num :=
  ⟨Nat.div_pos (Nat.le_of_dvd hnum (Nat.dvd_of_mod_eq_zero h)) (by omega),
    Nat.div_lt_self hnum hfac⟩

/-- How often a factor divides a number, and what is left of it -/
def factors (num fac exp : ℕ) (hnum : 0 < num) (hfac : 1 < fac) : ℕ × ℕ :=
  if h : num % fac = 0 then
    factors (num / fac) fac (exp + 1) (div_pos_of_mod hnum hfac h).1 hfac
  else (num, exp)
termination_by num
decreasing_by exact (div_pos_of_mod hnum hfac h).2

theorem factors_spec (num fac exp : ℕ) (hnum : 0 < num) (hfac : 1 < fac) :
    ∃ k, (factors num fac exp hnum hfac).2 = exp + k ∧
      num = (factors num fac exp hnum hfac).1 * fac ^ k ∧
        ¬ fac ∣ (factors num fac exp hnum hfac).1 := by
  fun_induction factors num fac exp hnum hfac with
  | case1 num exp hnum h ih =>
    obtain ⟨k, hexp, heq, hdvd⟩ := ih
    refine ⟨k + 1, by omega, ?_, hdvd⟩
    rw [pow_succ, ← mul_assoc, ← heq]
    exact (Nat.div_mul_cancel (Nat.dvd_of_mod_eq_zero h)).symm
  | case2 num exp hnum h => exact ⟨0, rfl, by simp, fun hdvd => h (Nat.mod_eq_zero_of_dvd hdvd)⟩

theorem factors_pos (num fac exp : ℕ) (hnum : 0 < num) (hfac : 1 < fac) :
    0 < (factors num fac exp hnum hfac).1 := by
  obtain ⟨k, -, heq, -⟩ := factors_spec num fac exp hnum hfac
  exact Nat.pos_of_ne_zero fun h0 => by simp [h0] at heq; omega

/-- The exponents of 10, 5 and 2, if there is no other factor -/
def decimalFactors (num : ℕ) (hnum : 0 < num) : Option (ℕ × ℕ × ℕ) :=
  let d10 := factors num 10 0 hnum (by decide)
  let d5 := factors d10.1 5 0 (factors_pos _ _ _ _ _) (by decide)
  let d2 := factors d5.1 2 0 (factors_pos _ _ _ _ _) (by decide)
  if d2.1 = 1 then some (d10.2, d5.2, d2.2) else none

/-- The digits of a fraction; without a result, the denominator never becomes 1. -/
def decPartLoop (fracPart den : ℕ) (digits : List ℕ) : Option (List ℕ) :=
  if den = 1 then some digits.reverse
  else if _h : 0 < den ∧ den % 10 = 0 then
    decPartLoop (fracPart % (den / 10)) (den / 10) (fracPart / (den / 10) :: digits)
  else none
termination_by den
decreasing_by omega

/-- `~d.~{~d~}` -/
def formatDecimal (intPart : ℤ) (decPart : List ℕ) : List Char :=
  formatInteger intPart ++ '.' :: decPart.flatMap fun d : ℕ => formatInteger d

/-! ### The printers -/

/-- What is written: a number, or the characters of a numeral -/
inductive Printed
  | number (q : ℚ)
  | numeral (s : List Char)
  deriving DecidableEq

def Printed.write : Printed → List Char
  | .number q => if q.den = 1 then formatInteger q.num else formatRational q
  | .numeral s => s

/-- `exact-fp*`; without a result, the loop does not end. -/
def exactFpNumeral (num : ℤ) (den : ℕ) (hden : 0 < den) : Option (Option (List Char)) :=
  match decimalFactors den hden with
  | none => some none
  | some (_, e5, e2) =>
    let sgn : ℤ := if num < 0 then -1 else 1
    let nnum := num * 2 ^ e5 * 5 ^ e2
    let nden := den * 2 ^ e5 * 5 ^ e2
    (decPartLoop (nnum.natAbs % nden) nden []).map fun decPart =>
      some (formatDecimal (sgn * (nnum.natAbs / nden : ℕ)) decPart)

def exactFp (q : ℚ) : Option Printed :=
  if q.den = 1 then some (.number q)
  else (exactFpNumeral q.num q.den q.den_pos).map fun
    | some s => .numeral s
    | none => .number q

def divByLoop (x n : ℕ) (hx : 0 < x) (hn : 1 < n) : ℕ × ℕ := factors x n 0 hx hn

def mult10Factor (x : ℕ) (hx : 0 < x) : Option ℕ :=
  let r2 := divByLoop x 2 hx (by decide)
  let r5 := divByLoop r2.1 5 (factors_pos _ _ _ _ _) (by decide)
  if r5.1 = 1 then
    let m := max r2.2 r5.2
    some (2 ^ (m - r2.2) * 5 ^ (m - r5.2))
  else none

/-- `pp*` on the decimal of two numbers, where `none` is left to the next method -/
def ppDecimal (num den : ℕ) (hden : 0 < den) : Option (Option (List Char)) :=
  match mult10Factor den hden with
  | none => some none
  | some f10 =>
    let fnum := num * f10
    let fden := den * f10
    (decPartLoop (fnum % fden) fden []).map fun decPart =>
      some (formatDecimal (fnum / fden : ℕ) decPart)

/-! ### What a numeral denotes -/

def unsignedValue (s : List Char) : Option ℚ :=
  let whole := s.takeWhile Char.isDigit
  if whole = [] then none
  else
    match s.dropWhile Char.isDigit with
    | [] => some (Nat.ofDigitChars 10 whole 0 : ℕ)
    | '.' :: fraction =>
      if fraction.all Char.isDigit then
        some ((Nat.ofDigitChars 10 whole 0 : ℕ) +
          (Nat.ofDigitChars 10 fraction 0 : ℕ) / 10 ^ fraction.length)
      else none
    | _ => none

def numeralValue : List Char → Option ℚ
  | '-' :: s => (unsignedValue s).map fun q => -q
  | s => unsignedValue s

/-- The denominator has no prime factor other than 2 and 5. -/
def IsDecimal (q : ℚ) : Prop := ∀ p, p.Prime → p ∣ q.den → p = 2 ∨ p = 5

/-! ### The digit loop -/

theorem formatInteger_natCast (n : ℕ) : formatInteger (n : ℤ) = Nat.toDigits 10 n := by
  simp [formatInteger]

theorem decPartLoop_pow_succ (k fracPart : ℕ) (digits : List ℕ) :
    decPartLoop fracPart (10 ^ (k + 1)) digits =
      decPartLoop (fracPart % 10 ^ k) (10 ^ k) (fracPart / 10 ^ k :: digits) := by
  have hdiv : 10 ^ (k + 1) / 10 = 10 ^ k := by rw [pow_succ]; omega
  have hpos : 0 < 10 ^ k := by positivity
  rw [decPartLoop, hdiv, if_neg (by rw [pow_succ]; omega), dif_pos ⟨by positivity, by
    rw [pow_succ]; omega⟩]

/-- The loop ends with a digit for every factor of ten. -/
theorem decPartLoop_pow (k fracPart : ℕ) (digits : List ℕ) :
    ∃ ds, decPartLoop fracPart (10 ^ k) digits = some (digits.reverse ++ ds) ∧ ds.length = k := by
  induction k generalizing fracPart digits with
  | zero => exact ⟨[], by simp [decPartLoop], rfl⟩
  | succ k ih =>
    obtain ⟨ds, hloop, hlen⟩ := ih (fracPart % 10 ^ k) (fracPart / 10 ^ k :: digits)
    refine ⟨fracPart / 10 ^ k :: ds, ?_, by simp [hlen]⟩
    rw [decPartLoop_pow_succ, hloop]
    simp

/-- The characters after the point -/
def fractionChars (decPart : List ℕ) : List Char := decPart.flatMap fun d : ℕ => formatInteger d

theorem decPartLoop_value (k fracPart : ℕ) (hfrac : fracPart < 10 ^ k) :
    ∃ ds, decPartLoop fracPart (10 ^ k) [] = some ds ∧ (fractionChars ds).length = k ∧
      (fractionChars ds).all Char.isDigit ∧
        Nat.ofDigitChars 10 (fractionChars ds) 0 = fracPart := by
  suffices h : ∀ digits, ∃ ds, decPartLoop fracPart (10 ^ k) digits = some (digits.reverse ++ ds) ∧
      (fractionChars ds).length = k ∧ (fractionChars ds).all Char.isDigit ∧
        Nat.ofDigitChars 10 (fractionChars ds) 0 = fracPart from h []
  induction k generalizing fracPart with
  | zero =>
    intro digits
    refine ⟨[], by simp [decPartLoop], rfl, rfl, ?_⟩
    simp only [pow_zero, Nat.lt_one_iff] at hfrac
    simp [fractionChars, hfrac]
  | succ k ih =>
    intro digits
    obtain ⟨ds, hloop, hlen, hall, hval⟩ :=
      ih (fracPart % 10 ^ k) (Nat.mod_lt _ (by positivity)) (fracPart / 10 ^ k :: digits)
    have hd : fracPart / 10 ^ k < 10 :=
      Nat.div_lt_of_lt_mul (by rwa [pow_succ] at hfrac)
    have hchars : fractionChars (fracPart / 10 ^ k :: ds) =
        (fracPart / 10 ^ k).digitChar :: fractionChars ds := by
      rw [fractionChars, List.flatMap_cons, formatInteger_natCast, Nat.toDigits_of_lt_base hd]
      rfl
    refine ⟨fracPart / 10 ^ k :: ds, ?_, ?_, ?_, ?_⟩
    · rw [decPartLoop_pow_succ, hloop]
      simp
    · simp [hchars, hlen]
    · rw [hchars, List.all_cons, hall, Bool.and_true]
      have hmem : (fracPart / 10 ^ k).digitChar ∈ Nat.toDigits 10 (fracPart / 10 ^ k) := by
        rw [Nat.toDigits_of_lt_base hd]
        exact List.mem_singleton_self _
      exact Nat.isDigit_of_mem_toDigits (by decide) (by decide) hmem
    · rw [hchars, Nat.ofDigitChars_cons_digitChar_of_lt_ten hd,
        Nat.ofDigitChars_eq_ofDigitChars_zero, hval, hlen, mul_zero, zero_add]
      exact Nat.div_add_mod _ _

/-! ### The value of what is written -/

theorem unsignedValue_toDigits (n : ℕ) : unsignedValue (Nat.toDigits 10 n) = some (n : ℚ) := by
  have h := Store.takeWhile_isDigit n (show ∀ c ∈ ([] : List Char).head?, c.isDigit = false from nofun)
  rw [List.append_nil] at h
  rw [unsignedValue, h.1, h.2]
  simp [Nat.toDigits_ne_nil]

theorem unsignedValue_point (n : ℕ) {fraction : List Char} (hall : fraction.all Char.isDigit) :
    unsignedValue (Nat.toDigits 10 n ++ '.' :: fraction) =
      some ((n : ℚ) + (Nat.ofDigitChars 10 fraction 0 : ℕ) / 10 ^ fraction.length) := by
  have h := Store.takeWhile_isDigit n (show ∀ c ∈ ('.' :: fraction).head?, c.isDigit = false by simp)
  rw [unsignedValue, h.1, h.2]
  simp [Nat.toDigits_ne_nil, hall]

theorem numeralValue_of_digits (n : ℕ) (rest : List Char) :
    numeralValue (Nat.toDigits 10 n ++ rest) = unsignedValue (Nat.toDigits 10 n ++ rest) := by
  rw [numeralValue]
  intro s heq
  have hmem : '-' ∈ Nat.toDigits 10 n := by
    cases hd : Nat.toDigits 10 n with
    | nil => exact absurd hd Nat.toDigits_ne_nil
    | cons c cs =>
      rw [hd, List.cons_append] at heq
      simp [List.cons.inj heq]
  exact absurd (Nat.isDigit_of_mem_toDigits (by decide) (by decide) hmem) (by decide)

theorem numeralValue_formatInteger (z : ℤ) : numeralValue (formatInteger z) = some (z : ℚ) := by
  rw [formatInteger]
  split_ifs with hneg
  · have hz : (z.natAbs : ℚ) = -z := by
      rw [Nat.cast_natAbs, abs_of_neg hneg, Int.cast_neg]
    rw [numeralValue, unsignedValue_toDigits, Option.map_some, hz, neg_neg]
  · have hz : (z.natAbs : ℚ) = z := by
      rw [Nat.cast_natAbs, abs_of_nonneg (not_lt.1 hneg)]
    have h := numeralValue_of_digits z.natAbs []
    rw [List.append_nil] at h
    rw [h, unsignedValue_toDigits, hz]

/-- The sign of the integer part is the sign of all. -/
theorem numeralValue_formatDecimal {k fracPart : ℕ} {ds : List ℕ} (intPart : ℤ)
    (hlen : (fractionChars ds).length = k) (hall : (fractionChars ds).all Char.isDigit)
    (hval : Nat.ofDigitChars 10 (fractionChars ds) 0 = fracPart) :
    numeralValue (formatDecimal intPart ds) =
      some (if intPart < 0 then -(-intPart + fracPart / 10 ^ k : ℚ)
        else intPart + fracPart / 10 ^ k) := by
  have hunsigned := unsignedValue_point intPart.natAbs hall
  rw [hval, hlen] at hunsigned
  rw [formatDecimal, formatInteger]
  split_ifs with hneg
  · have hz : (intPart.natAbs : ℚ) = -intPart := by
      rw [Nat.cast_natAbs, abs_of_neg hneg, Int.cast_neg]
    rw [List.cons_append, numeralValue]
    erw [hunsigned]
    rw [Option.map_some, hz]
  · have hz : (intPart.natAbs : ℚ) = intPart := by
      rw [Nat.cast_natAbs, abs_of_nonneg (not_lt.1 hneg)]
    rw [numeralValue_of_digits]
    erw [hunsigned]
    rw [hz]

/-! ### The factors of the denominator -/

theorem eq_one_of_primes {n : ℕ} (hprimes : ∀ p, p.Prime → p ∣ n → p = 2 ∨ p = 5)
    (h2 : ¬ 2 ∣ n) (h5 : ¬ 5 ∣ n) : n = 1 := by
  by_contra hne
  obtain ⟨p, hp, hdvd⟩ := Nat.exists_prime_and_dvd hne
  obtain rfl | rfl := hprimes p hp hdvd
  · exact h2 hdvd
  · exact h5 hdvd

theorem decimalFactors_spec (num : ℕ) (hnum : 0 < num) :
    (∃ e10 e5 e2, decimalFactors num hnum = some (e10, e5, e2) ∧
      num = 10 ^ e10 * 5 ^ e5 * 2 ^ e2) ∨
    (decimalFactors num hnum = none ∧ ∃ p, p.Prime ∧ p ∣ num ∧ p ≠ 2 ∧ p ≠ 5) := by
  obtain ⟨k10, h10, heq10, -⟩ := factors_spec num 10 0 hnum (by decide)
  obtain ⟨k5, h5, heq5, hdvd5⟩ :=
    factors_spec _ 5 0 (factors_pos num 10 0 hnum (by decide)) (by decide)
  obtain ⟨k2, h2, heq2, hdvd2⟩ :=
    factors_spec _ 2 0 (factors_pos _ 5 0 (factors_pos num 10 0 hnum (by decide)) (by decide))
      (by decide)
  unfold decimalFactors
  dsimp only
  rw [h10, h5, h2, Nat.zero_add, Nat.zero_add, Nat.zero_add]
  split_ifs with hone
  · refine .inl ⟨k10, k5, k2, rfl, ?_⟩
    rw [hone, one_mul] at heq2
    refine heq10.trans ?_
    rw [heq5.trans (congrArg (· * 5 ^ k5) heq2)]
    ring
  · refine .inr ⟨rfl, ?_⟩
    obtain ⟨p, hp, hdvd⟩ := Nat.exists_prime_and_dvd hone
    have h5 : p ∣ _ := hdvd.trans (Dvd.intro _ heq2.symm)
    have h10 : p ∣ _ := h5.trans (Dvd.intro _ heq5.symm)
    refine ⟨p, hp, h10.trans (Dvd.intro _ heq10.symm), ?_, ?_⟩
    · rintro rfl
      exact hdvd2 hdvd
    · rintro rfl
      exact hdvd5 h5

/-- The scaled denominator is a power of ten. -/
theorem scaled_eq {den e10 e5 e2 : ℕ} (h : den = 10 ^ e10 * 5 ^ e5 * 2 ^ e2) :
    den * 2 ^ e5 * 5 ^ e2 = 10 ^ (e10 + e5 + e2) := by
  have hten : 10 = 2 * 5 := rfl
  rw [h, hten, pow_add, pow_add, mul_pow, mul_pow, mul_pow]
  ring

theorem mult10Factor_spec {x i j : ℕ} (hx : 0 < x) (hform : x = 2 ^ i * 5 ^ j) :
    ∃ f m, mult10Factor x hx = some f ∧ x * f = 10 ^ m := by
  obtain ⟨k2, h2, heq2, hdvd2⟩ := factors_spec x 2 0 hx (by decide)
  obtain ⟨k5, h5, heq5, hdvd5⟩ :=
    factors_spec _ 5 0 (factors_pos x 2 0 hx (by decide)) (by decide)
  unfold mult10Factor divByLoop
  dsimp only
  rw [h2, h5, Nat.zero_add, Nat.zero_add]
  have hdvdx : (factors (factors x 2 0 hx (by decide)).1 5 0
      (factors_pos x 2 0 hx (by decide)) (by decide)).1 ∣ x :=
    (Dvd.intro _ heq5.symm).trans (Dvd.intro _ heq2.symm)
  have hone : (factors (factors x 2 0 hx (by decide)).1 5 0
      (factors_pos x 2 0 hx (by decide)) (by decide)).1 = 1 := by
    refine eq_one_of_primes ?_ ?_ hdvd5
    · intro p hp hdvd
      have hpx := hdvd.trans hdvdx
      rw [hform] at hpx
      obtain h | h := (Nat.Prime.dvd_mul hp).1 hpx
      · exact .inl ((Nat.prime_dvd_prime_iff_eq hp Nat.prime_two).1 (hp.dvd_of_dvd_pow h))
      · exact .inr ((Nat.prime_dvd_prime_iff_eq hp Nat.prime_five).1 (hp.dvd_of_dvd_pow h))
    · exact fun hdvd => hdvd2 (hdvd.trans (Dvd.intro _ heq5.symm))
  rw [if_pos hone]
  refine ⟨_, max k2 k5, rfl, ?_⟩
  rw [hone, one_mul] at heq5
  have hx' : x = 5 ^ k5 * 2 ^ k2 := heq2.trans (congrArg (· * 2 ^ k2) heq5)
  calc x * (2 ^ (max k2 k5 - k2) * 5 ^ (max k2 k5 - k5))
      = 2 ^ (k2 + (max k2 k5 - k2)) * 5 ^ (k5 + (max k2 k5 - k5)) := by
        rw [pow_add, pow_add]
        nth_rewrite 1 [hx']
        ring
    _ = 10 ^ max k2 k5 := by
        rw [Nat.add_sub_cancel' (le_max_left _ _), Nat.add_sub_cancel' (le_max_right _ _), ← mul_pow]
        rfl

/-! ### What the printers write -/

theorem floor_add_fraction (a : ℕ) {k : ℕ} :
    ((a / 10 ^ k : ℕ) : ℚ) + ((a % 10 ^ k : ℕ) : ℚ) / 10 ^ k = a / 10 ^ k := by
  have h : ((10 ^ k * (a / 10 ^ k) + a % 10 ^ k : ℕ) : ℚ) = a := by rw [Nat.div_add_mod]
  have hne : (10 : ℚ) ^ k ≠ 0 := by positivity
  push_cast at h
  field_simp
  linarith

theorem ppDecimal_value {num den i j : ℕ} (hden : 0 < den) (hform : den = 2 ^ i * 5 ^ j) :
    ∃ s, ppDecimal num den hden = some (some s) ∧ numeralValue s = some ((num : ℚ) / den) := by
  obtain ⟨f, m, hf, hscaled⟩ := mult10Factor_spec hden hform
  obtain ⟨ds, hloop, hlen, hall, hval⟩ :=
    decPartLoop_value m (num * f % 10 ^ m) (Nat.mod_lt _ (by positivity))
  refine ⟨formatDecimal (num * f / 10 ^ m : ℕ) ds, ?_, ?_⟩
  · simp only [ppDecimal, hf, hscaled, hloop, Option.map_some]
  · rw [numeralValue_formatDecimal _ hlen hall hval, if_neg (Int.natCast_nonneg _).not_gt, Int.cast_natCast,
      floor_add_fraction]
    have hs : (den : ℚ) * f = 10 ^ m := by exact_mod_cast hscaled
    have hne : (den : ℚ) ≠ 0 := by positivity
    have hfne : (f : ℚ) ≠ 0 := by
      intro h0
      rw [h0, mul_zero] at hs
      exact absurd hs.symm (by positivity)
    rw [← hs]
    push_cast
    field_simp

theorem abs_eq_scaled (q : ℚ) {a b k : ℕ} (hscaled : q.den * 2 ^ a * 5 ^ b = 10 ^ k) :
    |q| = ((q.num * 2 ^ a * 5 ^ b).natAbs : ℚ) / 10 ^ k := by
  have hden : (q.den : ℚ) ≠ 0 := by exact_mod_cast q.den_ne_zero
  have hk : (10 : ℚ) ^ k = q.den * 2 ^ a * 5 ^ b := by exact_mod_cast hscaled.symm
  have hq : |q| = |(q.num : ℚ)| / q.den := by
    nth_rewrite 1 [← Rat.num_div_den q]
    rw [abs_div, Nat.abs_cast]
  rw [hq, Nat.cast_natAbs, hk]
  push_cast
  rw [abs_mul, abs_mul, abs_of_pos (by positivity : (0 : ℚ) < 2 ^ a),
    abs_of_pos (by positivity : (0 : ℚ) < 5 ^ b)]
  field_simp

/-- An integer part of 0 has no sign. -/
theorem signed_value {q fraction : ℚ} {whole : ℕ} (habs : whole + fraction = |q|)
    (hfrac : 0 ≤ fraction) (hfrac1 : fraction < 1) :
    (if (if q.num < 0 then -1 else 1) * (whole : ℤ) < 0 then
        -(-((if q.num < 0 then -1 else 1) * (whole : ℤ) : ℤ) + fraction : ℚ)
      else ((if q.num < 0 then -1 else 1) * (whole : ℤ) : ℤ) + fraction) =
      if -1 < q ∧ q < 0 then -q else q := by
  by_cases hneg : q < 0
  · have hnum : q.num < 0 := Rat.num_neg.2 hneg
    rw [abs_of_neg hneg] at habs
    simp only [if_pos hnum]
    by_cases hsmall : -1 < q
    · have hwhole : whole = 0 := by
        have : (whole : ℚ) < 1 := by linarith
        exact_mod_cast Nat.lt_one_iff.1 (by exact_mod_cast this)
      rw [hwhole] at habs ⊢
      simp only [Nat.cast_zero, zero_add] at habs
      simp [hsmall, hneg, habs]
    · have hwhole : 0 < whole := by
        by_contra h0
        rw [Nat.le_zero.1 (not_lt.1 h0), Nat.cast_zero, zero_add] at habs
        linarith
      rw [if_pos (by omega), if_neg fun h => hsmall h.1]
      push_cast
      linarith
  · have hnum : ¬ q.num < 0 := fun h => hneg (Rat.num_neg.1 h)
    rw [abs_of_nonneg (not_lt.1 hneg)] at habs
    simp only [if_neg hnum, one_mul]
    rw [if_neg (Int.natCast_nonneg _).not_gt, if_neg fun h => hneg h.2]
    exact_mod_cast habs

/-- The integer part has the sign, unless it is 0. -/
theorem exactFp_of_factors {q : ℚ} {e10 e5 e2 : ℕ} (hden : q.den ≠ 1)
    (hfactors : decimalFactors q.den q.den_pos = some (e10, e5, e2)) :
    ∃ s, exactFp q = some (.numeral s) ∧
      numeralValue s = some (if -1 < q ∧ q < 0 then -q else q) := by
  obtain ⟨_, _, _, heq, hprod⟩ | ⟨hnone, -⟩ := decimalFactors_spec q.den q.den_pos
  swap
  · rw [hnone] at hfactors
    cases hfactors
  rw [heq] at hfactors
  cases hfactors
  have hscaled := scaled_eq hprod
  generalize he : e10 + e5 + e2 = m at hscaled
  obtain ⟨ds, hloop, hlen, hall, hval⟩ :=
    decPartLoop_value m ((q.num * 2 ^ e5 * 5 ^ e2).natAbs % 10 ^ m) (Nat.mod_lt _ (by positivity))
  refine ⟨formatDecimal ((if q.num < 0 then -1 else 1) *
    ((q.num * 2 ^ e5 * 5 ^ e2).natAbs / 10 ^ m : ℕ)) ds, ?_, ?_⟩
  · simp only [exactFp, if_neg hden, exactFpNumeral, heq, hscaled, hloop, Option.map_some]
  · have habs : (((q.num * 2 ^ e5 * 5 ^ e2).natAbs / 10 ^ m : ℕ) : ℚ) +
        (((q.num * 2 ^ e5 * 5 ^ e2).natAbs % 10 ^ m : ℕ) : ℚ) / 10 ^ m = |q| := by
      rw [floor_add_fraction, ← abs_eq_scaled q hscaled]
    have hfrac : (0 : ℚ) ≤ (((q.num * 2 ^ e5 * 5 ^ e2).natAbs % 10 ^ m : ℕ) : ℚ) / 10 ^ m := by
      positivity
    have hfrac1 : (((q.num * 2 ^ e5 * 5 ^ e2).natAbs % 10 ^ m : ℕ) : ℚ) / 10 ^ m < 1 := by
      rw [div_lt_one (by positivity)]
      exact_mod_cast Nat.mod_lt _ (by positivity)
    rw [numeralValue_formatDecimal _ hlen hall hval]
    generalize (q.num * 2 ^ e5 * 5 ^ e2).natAbs / 10 ^ m = whole at *
    generalize (((q.num * 2 ^ e5 * 5 ^ e2).natAbs % 10 ^ m : ℕ) : ℚ) / 10 ^ m = fraction at *
    exact congrArg some (signed_value habs hfrac hfrac1)

/-- The rational number is written as it should be: a decimal as a numeral that denotes it, and
every other number as itself. -/
def Exact (q : ℚ) : Prop :=
  (IsDecimal q → ∃ p, exactFp q = some p ∧ numeralValue p.write = some q) ∧
    (¬ IsDecimal q → exactFp q = some (.number q))

theorem isDecimal_of_factors {q : ℚ} {e10 e5 e2 : ℕ} (h : q.den = 10 ^ e10 * 5 ^ e5 * 2 ^ e2) :
    IsDecimal q := by
  intro p hp hdvd
  rw [h] at hdvd
  have h2 : p ∣ 2 → p = 2 ∨ p = 5 :=
    fun h => .inl ((Nat.prime_dvd_prime_iff_eq hp Nat.prime_two).1 h)
  have h5 : p ∣ 5 → p = 2 ∨ p = 5 :=
    fun h => .inr ((Nat.prime_dvd_prime_iff_eq hp Nat.prime_five).1 h)
  obtain hdvd | hdvd := (Nat.Prime.dvd_mul hp).1 hdvd
  · obtain hdvd | hdvd := (Nat.Prime.dvd_mul hp).1 hdvd
    · have h10 : p ∣ 2 * 5 := hp.dvd_of_dvd_pow hdvd
      exact ((Nat.Prime.dvd_mul hp).1 h10).elim h2 h5
    · exact h5 (hp.dvd_of_dvd_pow hdvd)
  · exact h2 (hp.dvd_of_dvd_pow hdvd)

theorem exact_of_integer {q : ℚ} (hden : q.den = 1) : Exact q := by
  have hexact : exactFp q = some (.number q) := if_pos hden
  refine ⟨fun _ => ⟨_, hexact, ?_⟩, fun _ => hexact⟩
  rw [Printed.write, if_pos hden, numeralValue_formatInteger]
  exact congrArg some (Rat.coe_int_num_of_den_eq_one hden)

theorem exact_iff (q : ℚ) : Exact q ↔ ¬ (IsDecimal q ∧ -1 < q ∧ q < 0) := by
  by_cases hden : q.den = 1
  · refine iff_of_true (exact_of_integer hden) ?_
    rintro ⟨-, hlt, hneg⟩
    rw [← Rat.coe_int_num_of_den_eq_one hden] at hlt hneg
    have hlt' : -1 < q.num := by exact_mod_cast hlt
    have hneg' : q.num < 0 := by exact_mod_cast hneg
    omega
  · obtain ⟨e10, e5, e2, hfactors, hprod⟩ | ⟨hnone, p, hp, hdvd, h2, h5⟩ :=
      decimalFactors_spec q.den q.den_pos
    · have hdec := isDecimal_of_factors hprod
      obtain ⟨s, hs, hval⟩ := exactFp_of_factors hden hfactors
      constructor
      · rintro ⟨hexact, -⟩ ⟨-, hrange⟩
        obtain ⟨p, hp, hpval⟩ := hexact hdec
        rw [hs] at hp
        cases hp
        rw [Printed.write, hval, if_pos hrange] at hpval
        have := Option.some.inj hpval
        linarith [hrange.2]
      · intro hnot
        refine ⟨fun _ => ⟨_, hs, ?_⟩, fun h => absurd hdec h⟩
        rw [Printed.write, hval, if_neg fun h => hnot ⟨hdec, h⟩]
    · have hnot : ¬ IsDecimal q := fun h => (h p hp hdvd).elim h2 h5
      refine iff_of_true ⟨fun h => absurd h hnot, fun _ => ?_⟩ fun h => hnot h.1
      simp [exactFp, hden, exactFpNumeral, hnone]

/-- The printing is exact but for the negative decimals above -1; the digit loop ends with a digit
for every factor of ten. -/
theorem printing_exact_iff (q : ℚ) :
    (Exact q ↔ ¬ (IsDecimal q ∧ -1 < q ∧ q < 0)) ∧
      (∀ (num den i j : ℕ) (hden : 0 < den), den = 2 ^ i * 5 ^ j →
        ∃ s, ppDecimal num den hden = some (some s) ∧
          numeralValue s = some ((num : ℚ) / den)) ∧
      ∀ (k fracPart : ℕ), ∃ digits, decPartLoop fracPart (10 ^ k) [] = some digits ∧
        digits.length = k := by
  refine ⟨exact_iff q, fun _ _ _ _ hden hform => ppDecimal_value hden hform, fun k fracPart => ?_⟩
  obtain ⟨ds, hloop, hlen⟩ := decPartLoop_pow k fracPart []
  exact ⟨ds, hloop, hlen⟩

theorem half_not_exact :
    exactFp (-1 / 2) = some (.numeral ['0', '.', '5']) ∧ ¬ Exact (-1 / 2) := by
  have hden : (-1 / 2 : ℚ).den = 10 ^ 0 * 5 ^ 0 * 2 ^ 1 := by decide +kernel
  refine ⟨by decide +kernel, ?_⟩
  rw [exact_iff, not_not]
  exact ⟨isDecimal_of_factors hden, by norm_num, by norm_num⟩

end PVS.Pp
