import PVS.GroundEval.Ir2cDivision

/-! When the statements emitted for quotients leave the exact result. -/

namespace PVS.GroundEval

open PVS.Library.CInt PVS.Library.CInt.IntType

/-! ### Runs -/

namespace DivStore

variable {s : DivStore} {x y : DivVar} {c : DivCell}

@[simp] theorem set_self (s : DivStore) (x : DivVar) (c : DivCell) : s.set x c x = some c :=
  Function.update_self ..

@[simp] theorem set_of_ne (h : y ≠ x) : s.set x c y = s y := Function.update_of_ne h ..

@[simp] theorem value?_set_self (s : DivStore) (x : DivVar) (c : DivCell) :
    (s.set x c).value? x = c.value := by
  simp [value?]

@[simp] theorem value?_set_of_ne (h : y ≠ x) : (s.set x c).value? y = s.value? y := by
  simp [value?, h]

end DivStore

open DivStore

variable {a b : Num} {T : NumType}

@[simp] theorem start_first : (startDiv T a b).value? .first = some a := rfl
@[simp] theorem start_second : (startDiv T a b).value? .second = some b := rfl

theorem wrap_uintOrInt64 (v : Val) : (uintOrInt64 v.type).wrap v.val = v.val := by
  obtain ⟨w | w, a, ha⟩ := v
  · exact wrap_u64_uint ha
  · exact wrap_i64_int ha

/-! ### Division -/

/-- The types for which division is exact. -/
def DivisionExact : NumType → NumType → NumType → Prop
  | .mpq, .fix _, _ => True
  | .mpq, _, .mpz => True
  | .mpq, _, .mpq => True
  | _, _, _ => False

theorem leaves_division_mpq (h : b.value ≠ 0) :
    LeavesNum (ir2cDivisionMpq .result .first a.type .second b.type) (startDiv .mpq a b) .result
        (a.value / b.value) ↔ DivisionExact .mpq a.type b.type := by
  rcases a with (u | z) | q <;> rcases b with (v | z') | q' <;>
    simp only [Num.value, Datum.value, ne_eq, Int.cast_eq_zero] at h <;>
    simp [ir2cDivisionMpq, declSetZ, LeavesNum, runDiv, DivStmt.exec, Num.type, Datum.ctype, DivisionExact,
      DivOp.type, DivOp.value, DivExpr.arg, DivExpr.eval, fix?, mpq?, mpz?, NumType.zero,
      wrap_uintOrInt64, startDiv, Num.value, Datum.value, h]

def DivStore.IsArray (s : DivStore) (x : DivVar) : Prop := ∃ c, s x = some c ∧ c.pointer = false

theorem DivStore.IsArray.set {s : DivStore} {x y : DivVar} {c : DivCell} (h : s.IsArray x)
    (hc : y = x → c.pointer = false) : (s.set y c).IsArray x := by
  by_cases hyx : y = x
  · subst hyx
    exact ⟨c, set_self .., hc rfl⟩
  · obtain ⟨d, hd, hpointer⟩ := h
    exact ⟨d, by rw [set_of_ne (Ne.symm hyx), hd], hpointer⟩

/-- A variable that is an array remains one. -/
theorem DivStore.IsArray.exec {s s' : DivStore} {x : DivVar} {c : DivStmt} (hx : s.IsArray x)
    (h : c.exec s = some s') : s'.IsArray x := by
  obtain ⟨d, hd, hpointer⟩ := hx
  have key : ∀ {y e v}, s y = some e → (s.set y { e with value := v }).IsArray x := by
    intro y e v he
    apply IsArray.set ⟨d, hd, hpointer⟩
    rintro rfl
    rw [hd, Option.some_inj] at he
    exact he ▸ hpointer
  cases c with
  | decl t y =>
    cases h
    exact IsArray.set ⟨d, hd, hpointer⟩ fun _ => rfl
  | init y =>
    obtain ⟨e, he, h⟩ := Option.bind_eq_some_iff.1 h
    split at h
    · cases h
    · cases h
      exact key he
  | clear y =>
    obtain ⟨e, he, h⟩ := Option.bind_eq_some_iff.1 h
    obtain ⟨v, -, h⟩ := Option.bind_eq_some_iff.1 h
    cases h
    exact key he
  | gmp y op =>
    obtain ⟨e, he, h⟩ := Option.bind_eq_some_iff.1 h
    obtain ⟨v, -, h⟩ := Option.bind_eq_some_iff.1 h
    split at h
    · obtain ⟨r, -, h⟩ := Option.bind_eq_some_iff.1 h
      cases h
      exact key he
    · cases h
  | mk y op =>
    obtain ⟨e, he, h⟩ := Option.bind_eq_some_iff.1 h
    split at h
    · obtain ⟨r, -, h⟩ := Option.bind_eq_some_iff.1 h
      cases h
      apply IsArray.set (key he)
      rintro rfl
      rw [hd, Option.some_inj] at he
      exact he ▸ hpointer
    · cases h
  | assign y t e =>
    obtain ⟨e, he, h⟩ := Option.bind_eq_some_iff.1 h
    split at h
    · obtain ⟨r, -, h⟩ := Option.bind_eq_some_iff.1 h
      obtain ⟨r', -, h⟩ := Option.bind_eq_some_iff.1 h
      cases h
      exact key he
    · cases h

/-- Nothing is allocated for an array. -/
theorem runDiv_eq_none {l : List DivStmt} {s : DivStore} {x : DivVar} {op : DivOp}
    (hx : s.IsArray x) (hmem : .mk x op ∈ l) : runDiv l s = none := by
  induction l generalizing s with
  | nil => cases hmem
  | cons c l ih =>
    rw [runDiv]
    cases hexec : c.exec s with
    | none => rfl
    | some s' =>
      cases hmem with
      | head =>
        obtain ⟨d, hd, hpointer⟩ := hx
        simp [DivStmt.exec, hd, hpointer] at hexec
      | tail _ hmem => exact ih (hx.exec hexec) hmem

theorem exists_mk_mem_ir2cDivisionMpq (ret arg1 arg2 : DivVar) (t₁ t₂ : NumType) :
    ∃ op, .mk ret op ∈ ir2cDivisionMpq ret arg1 t₁ arg2 t₂ := by
  rcases t₁ with (U | _) | _ <;> rcases t₂ with (V | _) | _ <;>
    simp [ir2cDivisionMpq, declSetZ]

/-- The temporary of the inner division is an array. -/
theorem not_leaves_division_mpz {l : List DivStmt} {s : DivStore} {t₁ t₂ : NumType} (r : ℚ)
    (hl : ir2cDivisionStep .result .mpz .first t₁ .second t₂ = some l) :
    ¬LeavesNum l s .result r := by
  cases hl
  obtain ⟨op, hop⟩ := exists_mk_mem_ir2cDivisionMpq .tmp .first .first t₁ t₂
  have hnone := runDiv_eq_none (s := s.set .tmp ⟨.mpq, false, none⟩) ⟨_, set_self .., rfl⟩
    (List.mem_append_left [.mk .result (.zSetQ .tmp), .clear .tmp] hop)
  simp [LeavesNum, runDiv, DivStmt.exec, hnone]

/-! ### Calls of the library -/

/-- What a function of the library returns on a positive divisor. -/
def DivRem.returned (t₁ t₂ : NumType) (x y : ℤ) : DivRem → Option ℤ
  | div =>
    match t₁ with
    | .fix (.int w) => if x = (int w).min then none else some (x / y)
    | .fix (.uint _) => some (x / y)
    | _ => some (x % y)
  | rem =>
    match t₁ with
    | .fix (.int w) =>
      if x = (int w).min then none
      else if t₂ = .fix (.uint .w64) then some ((int .w64).wrap (x % y)) else some (x % y)
    | _ => some (x % y)

theorem returned_divrem_fix {op : DivRem} {U V : IntType} {f : Val → Val → Option Val} {u v : Val}
    (hf : pvslibDivrem op (.fix U) (.fix V) = some (.fix f)) (hu : U.InRange u.val)
    (hv : V.InRange v.val) (hv0 : 0 < v.val) :
    (f u v).map Val.val = op.returned (.fix U) (.fix V) u.val v.val := by
  have hdiv : 0 ≤ u.val → U.InRange (u.val / v.val) := fun hu0 =>
    inRange_mono hu (Int.ediv_nonneg hu0 hv0.le) (Int.ediv_le_self _ hu0)
  have hmod : V.InRange (u.val % v.val) :=
    inRange_mono hv (Int.emod_nonneg _ hv0.ne') (Int.emod_lt_of_pos _ hv0).le
  unfold pvslibDivrem at hf
  split at hf
  case h_15 => cases hf
  all_goals
    rename_i hU hV
    cases hU <;> cases hV <;> cases hf
  · rw [divUint32Uint32, val_divUnsigned hu hv hu.1 hv0, wrap_eq_self (hdiv hu.1)]
    rfl
  · rw [divUint64Uint32, val_divUnsigned hu hv hu.1 hv0, wrap_eq_self (hdiv hu.1)]
    rfl
  · rw [divUint32Uint64, val_divUnsigned hu hv hu.1 hv0, wrap_eq_self (hdiv hu.1)]
    rfl
  · exact val_divSigned rfl rfl hu hv hv0
  · exact val_divUint64Uint64 hu hv hv0
  · exact val_divSigned rfl rfl hu hv hv0
  · exact val_divSigned rfl rfl hu hv hv0
  · rw [remUint32Uint32, val_remUnsigned hu hv hu.1 hv0, wrap_eq_self hmod]
    rfl
  · rw [remInt32Uint32, val_remSigned rfl hu hv hv0, wrap_eq_self hmod]
    rfl
  · rw [remUint64Uint64, val_remUnsigned hu hv hu.1 hv0, wrap_eq_self hmod]
    rfl
  · exact val_remSigned rfl hu hv hv0
  · have hmod64 : (int .w64).InRange (u.val % v.val) := inRange_int_of_uint (by decide) hmod
    rw [remInt64Uint32, val_remSigned rfl hu hv hv0, wrap_eq_self hmod64]
    rfl

theorem returned_divrem_mpz {op : DivRem} {V : IntType} {f : ℤ → Val → Option Val} {x : ℤ}
    {v : Val} (hf : pvslibDivrem op .mpz (.fix V) = some (.mpz f)) (hv : V.InRange v.val)
    (hv0 : 0 < v.val) : (f x v).map Val.val = op.returned .mpz (.fix V) x v.val := by
  unfold pvslibDivrem at hf
  split at hf
  case h_15 => cases hf
  all_goals
    rename_i hU hV
    cases hU <;> cases hV <;> cases hf
  · exact val_remMpz x hv hv0
  · exact val_remMpz x hv hv0

/-- Which functions are declared for which kinds of types. -/
theorem pvslibDivrem_eq_some {op : DivRem} {t₁ t₂ : NumType} {f : PvslibFn}
    (hf : pvslibDivrem op t₁ t₂ = some f) :
    (∃ U V g, t₁ = .fix U ∧ t₂ = .fix V ∧ f = .fix g) ∨
      ∃ V g, t₁ = .mpz ∧ t₂ = .fix V ∧ f = .mpz g := by
  unfold pvslibDivrem at hf
  split at hf
  case h_15 => cases hf
  case h_8 => exact .inr ⟨_, _, rfl, rfl, (Option.some.inj hf).symm⟩
  case h_14 => exact .inr ⟨_, _, rfl, rfl, (Option.some.inj hf).symm⟩
  all_goals exact .inl ⟨_, _, _, rfl, rfl, (Option.some.inj hf).symm⟩

/-- The type for which the function is chosen has the argument. -/
theorem exists_of_arg1Type_fix {U : IntType} (h : a.type.arg1Type = .fix U) :
    ∃ u, a = .fix u ∧ U.InRange u.val := by
  rcases a with (⟨w | w, x, hx⟩ | z) | q
  · refine ⟨_, rfl, ?_⟩
    cases w <;> cases h
    all_goals exact inRange_uint_mono (by decide) hx
  · refine ⟨_, rfl, ?_⟩
    cases w <;> cases h
    all_goals exact inRange_int_mono (by decide) hx
  · cases h
  · cases h

theorem exists_of_arg2Type_fix {V : IntType} (h : b.type.arg2Type = .fix V) :
    ∃ v, b = .fix v ∧ V.InRange v.val := by
  rcases b with (⟨w | w, y, hy⟩ | z) | q
  · refine ⟨_, rfl, ?_⟩
    cases w <;> cases h
    all_goals exact inRange_uint_mono (by decide) hy
  · refine ⟨_, rfl, ?_⟩
    cases w <;> cases h
    all_goals exact hy
  · cases h
  · cases h

theorem exists_of_arg1Type_mpz (h : a.type.arg1Type = .mpz) : ∃ z, a = .mpz z := by
  rcases a with (⟨w | w, x, hx⟩ | z) | q
  · cases w <;> cases h
  · cases w <;> cases h
  · exact ⟨z, rfl⟩
  · cases h

/-- What the call of `ir2c-divrem` returns. -/
def DivRem.callReturns (op : DivRem) (t₁ t₂ : NumType) (x y : ℤ) : Option ℤ :=
  if (pvslibDivrem op t₁ t₂).isSome then op.returned t₁ t₂ x y else none

theorem exists_call (op : DivRem) (hb : 0 < b.value) :
    ∃ o : Option Val, (PvslibName.divrem op a.type.arg1Type b.type.arg2Type).call [a, b] =
        o.map .fix ∧
      o.map Val.val = op.callReturns a.type.arg1Type b.type.arg2Type ⌊a.value⌋ ⌊b.value⌋ := by
  cases hf : pvslibDivrem op a.type.arg1Type b.type.arg2Type with
  | none => exact ⟨none, by simp [PvslibName.call, hf], by simp [DivRem.callReturns, hf]⟩
  | some f =>
    obtain ⟨U, V, g, h₁, h₂, rfl⟩ | ⟨V, g, h₁, h₂, rfl⟩ := pvslibDivrem_eq_some hf
    · obtain ⟨u, rfl, hu⟩ := exists_of_arg1Type_fix h₁
      obtain ⟨v, rfl, hv⟩ := exists_of_arg2Type_fix h₂
      have hv0 : 0 < v.val := by simpa [Num.value, Datum.value] using hb
      rw [h₁, h₂] at hf ⊢
      refine ⟨g u v, by simp [PvslibName.call, hf], ?_⟩
      rw [returned_divrem_fix hf hu hv hv0, DivRem.callReturns, hf]
      simp [Num.value, Datum.value]
    · obtain ⟨x, rfl⟩ := exists_of_arg1Type_mpz h₁
      obtain ⟨v, rfl, hv⟩ := exists_of_arg2Type_fix h₂
      have hv0 : 0 < v.val := by simpa [Num.value, Datum.value] using hb
      rw [h₁, h₂] at hf ⊢
      refine ⟨g x v, by simp [PvslibName.call, hf], ?_⟩
      rw [returned_divrem_mpz hf hv hv0, DivRem.callReturns, hf]
      simp [Num.value, Datum.value]

theorem leaves_assign_call {U : IntType} {f : PvslibName} {o : Option Val} {r : ℤ}
    (hcall : f.call [a, b] = o.map .fix) (hr : U.InRange r) :
    LeavesNum [.assign .result (.fix U) (.call f [.first, .second])] (startDiv (.fix U) a b)
        .result r ↔ ∃ m, o.map Val.val = some m ∧ m ≡ r [ZMOD U.card] := by
  cases o with
  | none =>
    simp [LeavesNum, runDiv, DivStmt.exec, DivExpr.eval, hcall]
  | some v =>
    simp [LeavesNum, runDiv, DivStmt.exec, DivExpr.eval, hcall, startDiv, Num.castTo, Num.value,
      Datum.value, wrap_eq_iff hr]

theorem leaves_mk_call {U : IntType} {f : PvslibName} {o : Option Val} {r : ℤ}
    (hcall : f.call [a, b] = o.map .fix) :
    LeavesNum [.mk .result (.zSet U (.call f [.first, .second]))] (startDiv .mpz a b) .result r ↔
      ∃ m, o.map Val.val = some m ∧ (uintOrInt64 U).wrap m = r := by
  cases o with
  | none =>
    simp [LeavesNum, runDiv, DivStmt.exec, DivExpr.eval, hcall, DivOp.value, DivExpr.arg]
  | some v =>
    simp [LeavesNum, runDiv, DivStmt.exec, DivExpr.eval, hcall, startDiv, DivOp.value,
      DivExpr.arg, DivOp.type, Num.value, Datum.value]

/-! ### Quotients and remainders of integers -/

/-- The integers on which the call is exact: it is of a function that is declared, the negation of
the dividend does not overflow, and the remainder that is returned for a quotient is as good. -/
def DivRem.CallExact (op : DivRem) (T t₁ t₂ : NumType) (x y : ℤ) : Prop :=
  (pvslibDivrem op t₁ t₂).isSome ∧
    match op, t₁, T with
    | .div, .mpz, .fix U => x / y ≡ x % y [ZMOD U.card]
    | .div, .fix (.int w), _ => x ≠ (int w).min
    | .rem, .fix (.int w), .mpz =>
      x ≠ (int w).min ∧ (t₂ = .fix (.uint .w64) → 0 ≤ x ∨ y ∣ x ∨ y - -x % y < 2 ^ 63)
    | .rem, .fix (.int w), _ => x ≠ (int w).min
    | _, _, _ => True

def DivRem.intValue (x y : ℤ) : DivRem → ℤ
  | div => x / y
  | rem => x % y

/-- A conversion to 64 bits keeps the residue for every type. -/
theorem wrap_i64_modEq (U : IntType) (n : ℤ) : (int .w64).wrap n ≡ n [ZMOD U.card] :=
  (wrap_modEq (int .w64) n).of_dvd (card_dvd_card (U := int .w64) (bits_le_64 U))

theorem callExact_fix_iff {op : DivRem} {U : IntType} {t₁ t₂ : NumType} {x y : ℤ} :
    (∃ m, op.callReturns t₁ t₂ x y = some m ∧ m ≡ op.intValue x y [ZMOD U.card]) ↔
      op.CallExact (.fix U) t₁ t₂ x y := by
  unfold DivRem.CallExact DivRem.callReturns
  by_cases hs : (pvslibDivrem op t₁ t₂).isSome
  · simp only [hs, if_true, true_and]
    cases op with
    | div =>
      rcases t₁ with ((w | w) | _) | _
      · simp [DivRem.returned, DivRem.intValue]
      · simp [DivRem.returned, DivRem.intValue]
      · simp only [DivRem.returned, DivRem.intValue, Option.some_inj, exists_eq_left']
        exact ⟨Int.ModEq.symm, Int.ModEq.symm⟩
      · obtain ⟨f, hf⟩ := Option.isSome_iff_exists.1 hs
        obtain ⟨_, _, _, h, -⟩ | ⟨_, _, h, -⟩ := pvslibDivrem_eq_some hf <;> cases h
    | rem =>
      rcases t₁ with ((w | w) | _) | _
      · simp [DivRem.returned, DivRem.intValue]
      · by_cases ht : t₂ = .fix (.uint .w64)
        · simp [DivRem.returned, DivRem.intValue, ht, wrap_i64_modEq]
        · simp [DivRem.returned, DivRem.intValue, ht]
      · simp [DivRem.returned, DivRem.intValue]
      · simp [DivRem.returned, DivRem.intValue]
  · simp [hs]

/-- A remainder of a signed dividend is below `2 ^ 63`, but for large divisors. -/
theorem emod_lt_iff {x y : ℤ} (hx : (int .w64).InRange x) (hy : 0 < y) :
    x % y < 2 ^ 63 ↔ 0 ≤ x ∨ y ∣ x ∨ y - -x % y < 2 ^ 63 := by
  rw [inRange_i64] at hx
  have hneg := neg_emod_eq (n := -x) hy
  rw [neg_neg] at hneg
  by_cases hx0 : 0 ≤ x
  · have hle : x % y ≤ x := emod_le_self hx0 hy.le
    simp only [hx0, true_or, iff_true]
    omega
  · by_cases hdvd : y ∣ x
    · simp [Int.emod_eq_zero_of_dvd hdvd, hdvd]
    · have hzero : -x % y ≠ 0 := fun h => hdvd ((Int.dvd_neg).1 (Int.dvd_of_emod_eq_zero h))
      rw [if_neg hzero] at hneg
      rw [hneg]
      simp [hx0, hdvd]

theorem uintOrInt64_wrap {U : IntType} {n : ℤ} (h : U.InRange n) : (uintOrInt64 U).wrap n = n :=
  wrap_uintOrInt64 ⟨U, n, h⟩

/-- A quotient is a value of the type of its dividend. -/
theorem inRange_ediv {U : IntType} {x y : ℤ} (hx : U.InRange x) (hy : 0 < y) :
    U.InRange (x / y) := by
  by_cases hx0 : 0 ≤ x
  · exact inRange_mono hx (Int.ediv_nonneg hx0 hy.le) (Int.ediv_le_self _ hx0)
  · refine ⟨hx.1.trans ?_, ?_⟩
    · rw [Int.le_ediv_iff_mul_le hy]
      nlinarith
    · have hneg : x / y < 0 := Int.ediv_neg_of_neg_of_pos (not_le.1 hx0) hy
      have h0 : U.InRange 0 := by
        cases U <;> rename_i w <;> cases w <;> decide
      exact hneg.trans h0.2

theorem arg2_of_rem_int {w : Width} {t₂ : NumType}
    (hs : (pvslibDivrem .rem (.fix (int w)) t₂).isSome) :
    t₂ = .fix (.uint .w32) ∨ t₂ = .fix (.uint .w64) := by
  unfold pvslibDivrem at hs
  split at hs <;> simp_all

theorem wrap_i64_eq_self_iff {n : ℤ} (h0 : 0 ≤ n) : (int .w64).wrap n = n ↔ n < 2 ^ 63 := by
  constructor
  · intro h
    exact (inRange_i64.1 (h ▸ wrap_inRange (int .w64) n)).2
  · intro h
    exact wrap_eq_self (inRange_i64.2 ⟨by omega, h⟩)

theorem callExact_mpz_iff {op : DivRem} {U : IntType} {t₂ : NumType} {x y : ℤ}
    (hx : U.InRange x) (hy : 0 < y) (ht₂ : ∀ V, t₂ = .fix V → V.InRange y) :
    (∃ m, op.callReturns (.fix U) t₂ x y = some m ∧ (uintOrInt64 U).wrap m = op.intValue x y) ↔
      op.CallExact .mpz (.fix U) t₂ x y := by
  unfold DivRem.CallExact DivRem.callReturns
  by_cases hs : (pvslibDivrem op (.fix U) t₂).isSome
  · simp only [hs, if_true, true_and]
    cases op with
    | div =>
      have hquot := uintOrInt64_wrap (inRange_ediv hx hy)
      cases U <;> simp [DivRem.returned, DivRem.intValue, hquot]
    | rem =>
      cases U with
      | uint w =>
        have hmod := uintOrInt64_wrap (inRange_mono hx (Int.emod_nonneg _ hy.ne')
          (emod_le_self hx.1 hy.le))
        simp [DivRem.returned, DivRem.intValue, hmod]
      | int w =>
        have hmod0 := Int.emod_nonneg x hy.ne'
        have hx64 : (int .w64).InRange x := inRange_int_mono (by cases w <;> decide) hx
        obtain rfl | rfl := arg2_of_rem_int hs
        · have hmod : (int .w64).wrap (x % y) = x % y := by
            rw [wrap_i64_eq_self_iff hmod0]
            have hlt := Int.emod_lt_of_pos x hy
            have hy32 := (ht₂ _ rfl).2
            simp only [IntType.min, card, bits, width, Width.bits] at hy32
            omega
          simp [DivRem.returned, DivRem.intValue, uintOrInt64, hmod]
        · rw [← emod_lt_iff hx64 hy]
          simp [DivRem.returned, DivRem.intValue, uintOrInt64, wrap_i64_eq_self_iff hmod0]
  · simp [hs]

/-- The types and integers on which `ndiv` and `nrem` are exact. -/
def DivRem.Exact (op : DivRem) (T t₁ t₂ : NumType) (x y : ℤ) : Prop :=
  match T, t₁, t₂ with
  | .mpq, _, _ => False
  | .fix _, _, _ => op.CallExact T t₁.arg1Type t₂.arg2Type x y
  | .mpz, .mpz, .mpq => False
  | .mpz, .mpz, _ => True
  | .mpz, _, .mpz => True
  | .mpz, _, _ => op.CallExact T t₁.arg1Type t₂.arg2Type x y

def DivRem.ratValue (x y : ℚ) : DivRem → ℚ
  | div => ⌊x / y⌋
  | rem => x - y * ⌊x / y⌋

theorem floor_intCast_div (x : ℤ) {y : ℤ} (hy : 0 < y) : ⌊(x : ℚ) / y⌋ = x / y := by
  lift y to ℕ using hy.le
  exact Rat.floor_intCast_div_natCast x y

theorem ratValue_intCast (op : DivRem) (x : ℤ) {y : ℤ} (hy : 0 < y) :
    op.ratValue x y = op.intValue x y := by
  cases op with
  | div => rw [DivRem.ratValue, floor_intCast_div x hy, DivRem.intValue]
  | rem =>
    rw [DivRem.ratValue, floor_intCast_div x hy, DivRem.intValue, Int.emod_def]
    push_cast
    rfl

theorem fdiv_eq_intValue (op : DivRem) (x : ℤ) {y : ℤ} (hy : 0 < y) :
    op.fdiv x y = op.intValue x y := by
  cases op with
  | div => exact Int.fdiv_eq_ediv_of_nonneg x hy.le
  | rem => exact Int.fmod_eq_emod_of_nonneg x hy.le

/-- The functions that are declared are on integers. -/
theorem exists_int_of_declared {op : DivRem}
    (hs : (pvslibDivrem op a.type.arg1Type b.type.arg2Type).isSome) :
    ∃ x y : ℤ, a.value = x ∧ b.value = y := by
  obtain ⟨f, hf⟩ := Option.isSome_iff_exists.1 hs
  obtain ⟨U, V, g, h₁, h₂, -⟩ | ⟨V, g, h₁, h₂, -⟩ := pvslibDivrem_eq_some hf
  · obtain ⟨u, rfl, -⟩ := exists_of_arg1Type_fix h₁
    obtain ⟨v, rfl, -⟩ := exists_of_arg2Type_fix h₂
    exact ⟨u.val, v.val, rfl, rfl⟩
  · obtain ⟨x, rfl⟩ := exists_of_arg1Type_mpz h₁
    obtain ⟨v, rfl, -⟩ := exists_of_arg2Type_fix h₂
    exact ⟨x, v.val, rfl, rfl⟩

theorem leaves_divrem_fix {op : DivRem} {U : IntType} (hb : 0 < b.value)
    (hr : (NumType.fix U).Has (op.ratValue a.value b.value)) :
    LeavesNum (ir2cDivrem op .result (.fix U) .first a.type .second b.type)
        (startDiv (.fix U) a b) .result (op.ratValue a.value b.value) ↔
      op.CallExact (.fix U) a.type.arg1Type b.type.arg2Type ⌊a.value⌋ ⌊b.value⌋ := by
  obtain ⟨o, hcall, ho⟩ := exists_call (a := a) op hb
  obtain ⟨r, hr, hrange⟩ := hr
  rw [← hr]
  refine (leaves_assign_call hcall hrange).trans ?_
  rw [ho, ← callExact_fix_iff]
  by_cases hs : (pvslibDivrem op a.type.arg1Type b.type.arg2Type).isSome
  · obtain ⟨x, y, hx, hy⟩ := exists_int_of_declared hs
    rw [hy, Int.cast_pos] at hb
    rw [hx, hy, ratValue_intCast op x hb, Int.cast_inj] at hr
    rw [hr, hx, hy, Int.floor_intCast, Int.floor_intCast]
  · simp [DivRem.callReturns, hs]

/-- The result of a call is no rational. -/
theorem not_leaves_divrem_mpq {op : DivRem} (hb : 0 < b.value) (r : ℚ) :
    ¬LeavesNum (ir2cDivrem op .result .mpq .first a.type .second b.type) (startDiv .mpq a b)
      .result r := by
  obtain ⟨o, hcall, -⟩ := exists_call (a := a) op hb
  cases o with
  | none =>
    simp [ir2cDivrem, LeavesNum, runDiv, DivStmt.exec, DivExpr.eval, hcall]
  | some v =>
    simp [ir2cDivrem, LeavesNum, runDiv, DivStmt.exec, DivExpr.eval, hcall, Num.castTo]

theorem arg1Type_fix (U : IntType) : ∃ V, (NumType.fix U).arg1Type = .fix V := by
  cases U <;> rename_i w <;> cases w <;> exact ⟨_, rfl⟩

theorem arg2Type_fix (U : IntType) : ∃ V, (NumType.fix U).arg2Type = .fix V := by
  cases U <;> rename_i w <;> cases w <;> exact ⟨_, rfl⟩

/-- The divisor is positive, and then no conversion to `unsigned long` changes it. -/
theorem wrap_u64_of_pos {v : Val} (hv0 : 0 < v.val) : (uint .w64).wrap v.val = v.val := by
  apply wrap_eq_self
  exact inRange_unsigned_of_nonneg rfl (bits_le_64 v.type) v.inRange hv0.le

theorem leaves_divrem_mpz_mpz {op : DivRem} {x : ℤ} (hb : 0 < b.value) :
    LeavesNum (ir2cDivrem op .result .mpz .first .mpz .second b.type)
        (startDiv .mpz (.mpz x) b) .result (op.ratValue x b.value) ↔
      op.Exact .mpz .mpz b.type x ⌊b.value⌋ := by
  rcases b with (v | y) | q
  · obtain ⟨V, hV⟩ := arg2Type_fix v.type
    have hv0 : 0 < v.val := by simpa [Num.value, Datum.value] using hb
    refine iff_of_true ?_ trivial
    change LeavesNum (ir2cDivrem op .result .mpz .first .mpz .second (.fix v.type)) _ _
      (op.ratValue x v.val)
    rw [ir2cDivrem, hV, ratValue_intCast op x hv0, ← fdiv_eq_intValue op x hv0]
    simp [LeavesNum, runDiv, DivStmt.exec, startDiv, DivOp.type, DivOp.value, DivExpr.arg,
      DivExpr.eval, wrap_u64_of_pos hv0, hv0.ne', mpz?, Num.value, Datum.value, NumType.arg1Type]
  · have hy0 : 0 < y := by simpa [Num.value, Datum.value] using hb
    refine iff_of_true ?_ trivial
    change LeavesNum (ir2cDivrem op .result .mpz .first .mpz .second .mpz) _ _
      (op.ratValue x y)
    rw [ratValue_intCast op x hy0, ← fdiv_eq_intValue op x hy0]
    simp [ir2cDivrem, LeavesNum, runDiv, DivStmt.exec, startDiv, DivOp.type, DivOp.value, hy0.ne',
      mpz?, Num.value, Datum.value, NumType.arg1Type, NumType.arg2Type]
  · refine iff_of_false ?_ id
    simp [ir2cDivrem, LeavesNum, runDiv, DivStmt.exec, startDiv, DivOp.type, DivOp.value,
      DivExpr.arg, DivExpr.eval, Num.type, NumType.arg1Type, NumType.arg2Type]

theorem leaves_divrem_mpz_fix {op : DivRem} {u : Val} (hb : 0 < b.value) :
    LeavesNum (ir2cDivrem op .result .mpz .first (.fix u.type) .second b.type)
        (startDiv .mpz (.fix u) b) .result (op.ratValue u.val b.value) ↔
      op.Exact .mpz (.fix u.type) b.type u.val ⌊b.value⌋ := by
  obtain ⟨U, hU⟩ := arg1Type_fix u.type
  obtain ⟨u', hu', hu⟩ := exists_of_arg1Type_fix (a := .fix u) hU
  cases hu'
  by_cases hbz : ∃ y, b = .mpz y
  · obtain ⟨y, rfl⟩ := hbz
    have hy0 : 0 < y := by simpa [Num.value, Datum.value] using hb
    refine iff_of_true ?_ trivial
    change LeavesNum (ir2cDivrem op .result .mpz .first (.fix u.type) .second .mpz) _ _
      (op.ratValue u.val y)
    rw [ir2cDivrem, hU, ratValue_intCast op u.val hy0, ← fdiv_eq_intValue op u.val hy0]
    simp [LeavesNum, runDiv, DivStmt.exec, startDiv, DivOp.type, DivOp.value, DivExpr.arg,
      DivExpr.eval, uintOrInt64_wrap hu, hy0.ne', mpz?, NumType.zero, Num.value, Datum.value,
      NumType.arg2Type]
  · have hcallExact : op.Exact .mpz (.fix u.type) b.type u.val ⌊b.value⌋ ↔
        op.CallExact .mpz (NumType.fix u.type).arg1Type b.type.arg2Type u.val ⌊b.value⌋ := by
      rcases b with (v | y) | q
      · exact Iff.rfl
      · exact absurd ⟨y, rfl⟩ hbz
      · exact Iff.rfl
    have hemit : ir2cDivrem op .result .mpz .first (.fix u.type) .second b.type =
        [.mk .result (.zSet U (.call (.divrem op (NumType.fix u.type).arg1Type b.type.arg2Type)
          [.first, .second]))] := by
      rcases b with (v | y) | q
      · obtain ⟨V, hV⟩ := arg2Type_fix v.type
        change ir2cDivrem op .result .mpz .first (.fix u.type) .second (.fix v.type) =
          [.mk .result (.zSet U (.call (.divrem op _ (NumType.fix v.type).arg2Type) _))]
        rw [ir2cDivrem, hU, hV]
      · exact absurd ⟨y, rfl⟩ hbz
      · rw [ir2cDivrem, hU]
        rfl
    obtain ⟨o, hcall, ho⟩ := exists_call (a := .fix u) op hb
    change (PvslibName.divrem op (NumType.fix u.type).arg1Type b.type.arg2Type).call _ = _ at hcall
    change _ = op.callReturns (NumType.fix u.type).arg1Type b.type.arg2Type ⌊(u.val : ℚ)⌋ _ at ho
    rw [hcallExact, hemit]
    rw [Int.floor_intCast] at ho
    rw [hU] at hcall ho ⊢
    by_cases hs : (pvslibDivrem op (.fix U) b.type.arg2Type).isSome
    · obtain ⟨f, hf⟩ := Option.isSome_iff_exists.1 hs
      obtain ⟨V, hV⟩ : ∃ V, b.type.arg2Type = .fix V := by
        obtain ⟨_, V, _, -, h, -⟩ | ⟨V, _, -, h, -⟩ := pvslibDivrem_eq_some hf <;> exact ⟨V, h⟩
      obtain ⟨v, rfl, hv⟩ := exists_of_arg2Type_fix hV
      have hv0 : 0 < v.val := by simpa [Num.value, Datum.value] using hb
      have hfloor : ⌊(Num.fix v).value⌋ = v.val := Int.floor_intCast _
      rw [hfloor] at ho ⊢
      rw [show (Num.fix v).value = v.val from rfl, ratValue_intCast op u.val hv0]
      refine (leaves_mk_call hcall).trans ?_
      rw [ho]
      apply callExact_mpz_iff hu hv0
      intro V' hV'
      rw [hV] at hV'
      cases hV'
      exact hv
    · have hnone : o = none := by
        rw [DivRem.callReturns, if_neg hs] at ho
        exact Option.map_eq_none_iff.1 ho
      subst hnone
      simp [DivRem.CallExact, hs, LeavesNum, runDiv, DivStmt.exec, DivExpr.eval, hcall,
        DivOp.value, DivExpr.arg]

end PVS.GroundEval
