import PVS.GroundEval.Ir2cDivisionExact

/-! Floors and ceilings, and which of the operations of quotients are exact. -/

namespace PVS.GroundEval

open PVS.Library.CInt PVS.Library.CInt.IntType

variable {a b : Num} {T : NumType}

/-! ### Floors and ceilings -/

theorem leaves_assign_unary {f : PvslibName} {n : Num} {r : ℚ} (hcall : f.call [a] = some n) :
    LeavesNum [.assign .result T (.call f [.first])] (startDiv T a b) .result r ↔
      (n.castTo T).map Num.value = some r := by
  cases hcast : n.castTo T with
  | none => simp [LeavesNum, runDiv, DivStmt.exec, DivExpr.eval, hcall, hcast]
  | some m => simp [LeavesNum, runDiv, DivStmt.exec, DivExpr.eval, hcall, hcast, startDiv]

theorem not_leaves_of_call_eq_none {f : PvslibName} {r : ℚ} (hcall : f.call [a] = none) :
    ¬LeavesNum [.assign .result T (.call f [.first])] (startDiv T a b) .result r := by
  simp [LeavesNum, runDiv, DivStmt.exec, DivExpr.eval, hcall]

/-- The types and rationals on which `floor` is exact: an unsigned result is read as a signed
number, and every other one is rounded towards zero. -/
def FloorExact (T t : NumType) (x : ℚ) : Prop :=
  t = .mpq ∧
    match T with
    | .fix (.uint _) => x < 2 ^ 63
    | _ => 0 ≤ x ∨ x.den = 1

theorem mpz_get_si_pvsfloorQZ {w : Width} {x : ℚ} (h : (int w).InRange ⌊x⌋) :
    mpz_get_si (pvsfloorQZ x) = pvsfloorQZ x := by
  have h64 := inRange_i64_of_int h
  apply mpz_get_si_eq
  by_cases hx : 0 ≤ x
  · rwa [pvsfloorQZ_of_nonneg hx]
  · have hx' := (not_le.1 hx).le
    rw [pvsfloorQZ_of_nonpos hx']
    have hceil : ⌈x⌉ ≤ 0 := Int.ceil_le.2 (by simpa using hx')
    have hle := Int.floor_le_ceil x
    omega

/-- One too much is a different residue. -/
theorem pvsfloorQZ_modEq_iff {w : Width} (x : ℚ) :
    pvsfloorQZ x ≡ ⌊x⌋ [ZMOD (int w).card] ↔ 0 ≤ x ∨ x.den = 1 := by
  rw [← pvsfloorQZ_eq_floor_iff]
  constructor
  · intro h
    obtain ⟨hlo, hhi⟩ := pvsfloorQZ_bounds x
    have hcard : 1 < (int w).card := by cases w <;> decide
    have hzero : pvsfloorQZ x - ⌊x⌋ = 0 :=
      Int.eq_zero_of_dvd_of_nonneg_of_lt (by omega) (by omega) h.symm.dvd
    omega
  · intro h
    rw [h]

theorem leaves_floor_uint {w : Width} {x : ℚ} (hr : (uint w).InRange ⌊x⌋) :
    LeavesNum [.assign .result (.fix (uint w)) (.call (.floor .q .u64) [.first])]
        (startDiv (.fix (uint w)) (.mpq x) b) .result ⌊x⌋ ↔ x < 2 ^ 63 := by
  have hx : 0 ≤ x := Int.floor_nonneg.1 hr.1
  have hwrap : (uint .w64).wrap (mpz_get_si ⌊x⌋) ≡ mpz_get_si ⌊x⌋ [ZMOD (uint w).card] :=
    (wrap_modEq (uint .w64) _).of_dvd (card_dvd_card (U := uint .w64) (bits_le_64 _))
  have hcall : (PvslibName.floor .q .u64).call [.mpq x] = some (.fix (pvsfloorQU64 x)) := rfl
  calc _ ↔ (uint w).wrap ((uint .w64).wrap (mpz_get_si ⌊x⌋)) = ⌊x⌋ := by
        rw [leaves_assign_unary hcall]
        simp [Num.castTo, Num.value, Datum.value, pvsfloorQU64, pvsfloorQI64,
          pvsfloorQZ_of_nonneg hx]
    _ ↔ mpz_get_si ⌊x⌋ ≡ ⌊x⌋ [ZMOD (uint w).card] := by
        rw [wrap_eq_iff hr]
        exact ⟨hwrap.symm.trans, hwrap.trans⟩
    _ ↔ ⌊x⌋ < 2 ^ 63 := mpz_get_si_modEq_iff hr
    _ ↔ x < 2 ^ 63 := by
        rw [Int.floor_lt]
        norm_num

theorem leaves_floor_int {w : Width} {x : ℚ} (hr : (int w).InRange ⌊x⌋) :
    LeavesNum [.assign .result (.fix (int w)) (.call (.floor .q .i64) [.first])]
        (startDiv (.fix (int w)) (.mpq x) b) .result ⌊x⌋ ↔ 0 ≤ x ∨ x.den = 1 := by
  have hcall : (PvslibName.floor .q .i64).call [.mpq x] = some (.fix (pvsfloorQI64 x)) := rfl
  calc _ ↔ (int w).wrap (pvsfloorQZ x) = ⌊x⌋ := by
        rw [leaves_assign_unary hcall]
        simp [Num.castTo, Num.value, Datum.value, pvsfloorQI64, mpz_get_si_pvsfloorQZ hr]
    _ ↔ pvsfloorQZ x ≡ ⌊x⌋ [ZMOD (int w).card] := wrap_eq_iff hr
    _ ↔ 0 ≤ x ∨ x.den = 1 := pvsfloorQZ_modEq_iff x

theorem inRange_of_has {U : IntType} {z : ℤ} (h : (NumType.fix U).Has z) : U.InRange z := by
  obtain ⟨z', hz', hrange⟩ := h
  rw [Int.cast_inj] at hz'
  rwa [← hz']

theorem leaves_floor (hr : T.Has ⌊a.value⌋) :
    LeavesNum [.assign .result T (.call (.floor a.type.abbrev T.abbrev) [.first])]
        (startDiv T a b) .result ⌊a.value⌋ ↔ FloorExact T a.type a.value := by
  rcases a with (u | z) | x
  · exact iff_of_false (not_leaves_of_call_eq_none rfl) fun h => nomatch h.1
  · exact iff_of_false (not_leaves_of_call_eq_none rfl) fun h => nomatch h.1
  · rcases T with ((w | w) | _) | _
    · exact (leaves_floor_uint (inRange_of_has hr)).trans (and_iff_right rfl).symm
    · exact (leaves_floor_int (inRange_of_has hr)).trans (and_iff_right rfl).symm
    · have hcall : (PvslibName.floor .q .z).call [.mpq x] = some (.mpz (pvsfloorQZ x)) := rfl
      refine (leaves_assign_unary hcall).trans ?_
      simp [Num.castTo, Num.value, Datum.value, FloorExact, Num.type, ← pvsfloorQZ_eq_floor_iff]
    · have hcall : (PvslibName.floor .q .q).call [.mpq x] = some (.mpq (pvsfloorQQ x)) := rfl
      refine (leaves_assign_unary hcall).trans ?_
      simp [Num.castTo, Num.value, pvsfloorQQ, FloorExact, Num.type, ← pvsfloorQZ_eq_floor_iff]

theorem leaves_ceiling (hr : T.Has ⌈a.value⌉) :
    LeavesNum [.assign .result T (.call (.ceiling a.type.abbrev T.abbrev) [.first])]
        (startDiv T a b) .result ⌈a.value⌉ ↔ a.type = .mpq := by
  rcases a with (u | z) | x
  · exact iff_of_false (not_leaves_of_call_eq_none rfl) fun h => nomatch h
  · exact iff_of_false (not_leaves_of_call_eq_none rfl) fun h => nomatch h
  · refine iff_of_true ?_ rfl
    rcases T with ((w | w) | _) | _
    · have hrange : (uint w).InRange ⌈x⌉ := inRange_of_has hr
      have hcall : (PvslibName.ceiling .q .u64).call [.mpq x] = some (.fix (pvsceilingQU64 x)) :=
        rfl
      refine (leaves_assign_unary hcall).2 ?_
      have hget : mpz_get_ui ⌈x⌉ = ⌈x⌉ := mpz_get_ui_eq (inRange_u64_of_uint hrange)
      simp only [Num.castTo, Num.value, Datum.value, Val.conv_val, pvsceilingQU64, pvsceilingQZ_eq,
        hget, wrap_eq_self hrange, Option.map_some]
    · have hrange : (int w).InRange ⌈x⌉ := inRange_of_has hr
      have hcall : (PvslibName.ceiling .q .i64).call [.mpq x] = some (.fix (pvsceilingQI64 x)) :=
        rfl
      refine (leaves_assign_unary hcall).2 ?_
      have hget : mpz_get_si ⌈x⌉ = ⌈x⌉ := mpz_get_si_eq (inRange_i64_of_int hrange)
      simp only [Num.castTo, Num.value, Datum.value, Val.conv_val, pvsceilingQI64, pvsceilingQZ_eq,
        hget, wrap_eq_self hrange, Option.map_some]
    · have hcall : (PvslibName.ceiling .q .z).call [.mpq x] = some (.mpz (pvsceilingQZ x)) := rfl
      refine (leaves_assign_unary hcall).2 ?_
      simp [Num.castTo, Num.value, Datum.value, pvsceilingQZ_eq]
    · have hcall : (PvslibName.ceiling .q .q).call [.mpq x] = some (.mpq (pvsceilingQQ x)) := rfl
      refine (leaves_assign_unary hcall).2 ?_
      simp [Num.castTo, Num.value, pvsceilingQQ, pvsceilingQZ_eq]

/-! ### Quotients -/

/-- The types and arguments on which an operation of quotients is exact. -/
def QuotOp.ExactWhen (T t₁ t₂ : NumType) (x y : ℚ) : QuotOp → Prop
  | division => DivisionExact T t₁ t₂
  | ndiv => DivRem.div.Exact T t₁ t₂ ⌊x⌋ ⌊y⌋
  | nrem => DivRem.rem.Exact T t₁ t₂ ⌊x⌋ ⌊y⌋
  | floor => FloorExact T t₁ x
  | ceiling => t₁ = .mpq

theorem leaves_division (h : b.value ≠ 0) {l : List DivStmt}
    (hl : ir2cDivisionStep .result T .first a.type .second b.type = some l) :
    LeavesNum l (startDiv T a b) .result (a.value / b.value) ↔
      DivisionExact T a.type b.type := by
  rcases T with (U | _) | _
  · cases hl
  · exact iff_of_false (not_leaves_division_mpz _ hl) id
  · cases hl
    exact leaves_division_mpq h

theorem leaves_divrem {op : DivRem} (hb : 0 < b.value)
    (hr : T.Has (op.ratValue a.value b.value))
    (hne : ir2cDivrem op .result T .first a.type .second b.type ≠ []) :
    LeavesNum (ir2cDivrem op .result T .first a.type .second b.type) (startDiv T a b) .result
        (op.ratValue a.value b.value) ↔
      op.Exact T a.type b.type ⌊a.value⌋ ⌊b.value⌋ := by
  rcases T with (U | _) | _
  · exact leaves_divrem_fix hb hr
  · rcases a with (u | x) | q
    · rw [show ⌊(Num.fix u).value⌋ = u.val from Int.floor_intCast _]
      exact leaves_divrem_mpz_fix hb
    · rw [show ⌊(Num.mpz x).value⌋ = x from Int.floor_intCast _]
      exact leaves_divrem_mpz_mpz hb
    · exact absurd rfl hne
  · exact iff_of_false (not_leaves_divrem_mpq hb _) id

theorem quotient_exact_iff (op : QuotOp) {l : List DivStmt} (hd : op.Defined b.value)
    (hr : T.Has (op.value a.value b.value)) (hl : op.emit T a.type b.type = some l)
    (hne : l ≠ []) :
    LeavesNum l (startDiv T a b) .result (op.value a.value b.value) ↔
      op.ExactWhen T a.type b.type a.value b.value := by
  cases op with
  | division => exact leaves_division hd hl
  | ndiv =>
    cases hl
    exact leaves_divrem hd hr hne
  | nrem =>
    cases hl
    exact leaves_divrem hd hr hne
  | floor =>
    cases hl
    exact leaves_floor hr
  | ceiling =>
    cases hl
    exact leaves_ceiling hr

/-- The floor of `-1 / 2` is rounded towards zero. -/
theorem quotient_not_exact_floor :
    ¬∀ (op : QuotOp) (T : NumType) (a b : Num) (l : List DivStmt), op.Defined b.value →
      T.Has (op.value a.value b.value) → op.emit T a.type b.type = some l → l ≠ [] →
        LeavesNum l (startDiv T a b) .result (op.value a.value b.value) := by
  intro h
  have hmpz : NumType.mpz.Has ⌊(-1 / 2 : ℚ)⌋ := ⟨_, rfl⟩
  have hfloor := h .floor .mpz (.mpq (-1 / 2)) (.mpz 0) _ trivial hmpz rfl (by simp)
  obtain ⟨-, hpos | hden⟩ := (leaves_floor (a := .mpq (-1 / 2)) hmpz).1 hfloor
  · norm_num [Num.value] at hpos
  · rw [← ceil_eq_floor_iff] at hden
    norm_num [Num.value] at hden

/-- The remainder of `-7` by `3` is `2`. -/
theorem quotient_exact_nrem :
    LeavesNum
      [.assign .result (.fix (int .w32))
        (.call (.divrem .rem (.fix (int .w32)) (.fix (uint .w32))) [.first, .second])]
      (startDiv (.fix (int .w32)) (.fix ⟨int .w32, -7, by decide⟩) (.fix ⟨uint .w32, 3, by decide⟩))
      .result 2 := by
  have hvalue : QuotOp.nrem.value (-7 : ℤ) (3 : ℤ) = 2 := by
    have hfloor : ⌊((-7 : ℤ) : ℚ) / (3 : ℤ)⌋ = -3 := by norm_num [Int.floor_eq_iff]
    rw [QuotOp.value, hfloor]
    norm_num
  have hexact : DivRem.rem.Exact (.fix (int .w32)) (.fix (int .w32)) (.fix (uint .w32))
      ⌊((-7 : ℤ) : ℚ)⌋ ⌊((3 : ℤ) : ℚ)⌋ := by
    rw [Int.floor_intCast]
    have hmin : (-7 : ℤ) ≠ (int .w32).min := by decide
    exact ⟨rfl, hmin⟩
  rw [← hvalue]
  refine (quotient_exact_iff (T := .fix (int .w32)) (a := .fix ⟨int .w32, -7, by decide⟩)
    (b := .fix ⟨uint .w32, 3, by decide⟩) .nrem ?_ ⟨2, ?_, by decide⟩ rfl (List.cons_ne_nil _ _)).2
      hexact
  · norm_num [QuotOp.Defined, Num.value, Datum.value]
  · exact hvalue.symm

end PVS.GroundEval
