import PVS.GroundEval.Ir2cRun

/-! When `ir2c-addition-step` emits exact statements. -/

namespace PVS.GroundEval

open PVS.Library.CInt PVS.Library.CInt.IntType Store

/-- The arguments on which the statements for `a + b` are exact. -/
def AddExact (T t₁ t₂ : CType) (a b : ℤ) : Prop :=
  match T, t₁, t₂ with
  | .mpz, .fix (.int _), .fix (.int _) => b ≠ -2 ^ 63
  | .mpz, .fix (.int _), .mpz => a ≠ -2 ^ 63
  | .mpz, _, _ => True
  | .fix (.int _), .fix (.int _), .fix (.int _) => True
  | .fix T, .fix (.uint v), .fix (.int w) =>
    if b < 0 then (promote (.int w)).InRange (-b) else (usual (.uint v) (.int w)).Fits T (a + b)
  | .fix T, .fix (.int v), .fix (.uint w) =>
    if a < 0 then (promote (.int v)).InRange (-a) else (usual (.int v) (.uint w)).Fits T (a + b)
  | .fix T, .fix U, .fix V => (usual U V).Fits T (a + b)
  | .fix (.uint _), .fix (.int _), .mpz => a ≠ -2 ^ 63 ∧ a + b < 2 ^ 63
  | .fix (.uint _), .mpz, .fix (.int _) => b ≠ -2 ^ 63 ∧ a + b < 2 ^ 63
  | .fix (.uint _), _, _ => True
  | .fix (.int w), .fix (.uint _), .mpz =>
    a < 2 ^ 63 ∧ (0 ≤ a + b ∨ a + b = (int w).min) ∨
      2 ^ 63 < a ∧ (a + b = 0 ∨ a + b = (int w).min)
  | .fix (.int _), .fix (.int _), .mpz => a ≠ -2 ^ 63
  | .fix (.int _), .mpz, .fix (.int _) => b ≠ -2 ^ 63
  | .fix (.int _), .mpz, _ => True

attribute [local simp] AddExact

variable {s : Store} {ret x y : Var} {d₁ d₂ : Datum}

/-- An `mpz` result of a sum is computed exactly but for `mpz_add_si` of the smallest `int64_t`. -/
theorem leaves_add_mpz (h : Args s ret .mpz x d₁ y d₂) {n : ℕ} {l : List Stmt}
    (hl : ir2cAdditionStep n ret .mpz x d₁.ctype y d₂.ctype = some l) :
    Leaves l s ret (d₁.value + d₂.value) ↔
      AddExact .mpz d₁.ctype d₂.ctype d₁.value d₂.value := by
  have hx := h.fst_ne_ret
  have hy := h.snd_ne_ret
  have hs := h.ret_eq
  have e₁ := h.fst_eq
  have e₂ := h.snd_eq
  cases n with
  | zero => cases hl
  | succ n =>
  rcases d₁ with ⟨⟨v | v, a, ha⟩⟩ | a <;> rcases d₂ with ⟨⟨w | w, b, hb⟩⟩ | b <;> cases hl
  all_goals simp [leaves_mk hs, leaves_mk_gmp hs, GmpOp.value, arg_cast, arg_var, fix?_eq,
    mpz?_eq, e₁, e₂, hx, hy, AddExact, Datum.ctype, Datum.value, wrap_i64_u64,
    mpz_add_si_eq_some_iff, wrap_inRange]
  · rw [wrap_u64_uint ha, wrap_u64_uint hb]
  · rw [wrap_u64_uint ha, wrap_i64_int hb, add_comm]
  · rw [wrap_u64_uint ha, add_comm]
  · rw [wrap_i64_int ha, wrap_u64_uint hb]
  · simp [wrap_i64_int ha, wrap_i64_int hb]
  · simp [wrap_i64_int ha, add_comm]
  · rw [wrap_u64_uint hb, add_comm]
  · rw [wrap_i64_int hb, add_comm]
  · rw [add_comm]

theorem uintlub_eq (T U V : IntType) :
    ∃ m, uintlub T U V = .uint m ∧ T.bits ≤ m.bits ∧ U.bits ≤ m.bits ∧ V.bits ≤ m.bits := by
  refine ⟨_, rfl, ?_, ?_, ?_⟩
  · exact (bits_le_max_left _ _).trans (bits_le_max_left _ _)
  · exact (bits_le_max_right _ _).trans (bits_le_max_left _ _)
  · exact bits_le_max_right _ _

theorem addExact_comm_uint (w : Width) (t₁ : CType) (a b : ℤ) :
    AddExact (.fix (.uint w)) t₁ .mpz a b ↔ AddExact (.fix (.uint w)) .mpz t₁ b a := by
  rcases t₁ with (_ | _) | _ <;> simp [AddExact, add_comm]

/-- On two `mpz` arguments and an unsigned return type the step calls itself for ever. -/
theorem ir2cAdditionStep_mpz_mpz (n : ℕ) (w : Width) (x y : Var) :
    ir2cAdditionStep n ret (.fix (.uint w)) x .mpz y .mpz = none := by
  induction n generalizing x y with
  | zero => rfl
  | succ n ih => exact ih y x

theorem leaves_add_uint {w : Width} (h : Args s ret (.fix (.uint w)) x d₁ y d₂)
    (hr : (uint w).InRange (d₁.value + d₂.value)) {n : ℕ} {l : List Stmt}
    (hl : ir2cAdditionStep n ret (.fix (.uint w)) x d₁.ctype y d₂.ctype = some l) :
    Leaves l s ret (d₁.value + d₂.value) ↔
      AddExact (.fix (.uint w)) d₁.ctype d₂.ctype d₁.value d₂.value := by
  induction n generalizing x y d₁ d₂ with
  | zero => cases hl
  | succ n ih =>
    have hs := h.ret_eq
    have e₁ := h.fst_eq
    have e₂ := h.snd_eq
    rcases d₁ with ⟨v₁ | v₁, a, ha⟩ | a
    · rcases d₂ with ⟨v₂ | v₂, b, hb⟩ | b <;> cases hl
      · apply leaves_add hs hr e₁ e₂
      · obtain ⟨m, hm, hT, h₁, h₂⟩ := uintlub_eq (.uint w) (.uint v₁) (.int v₂)
        rw [hm]
        have hm₁ := inRange_uint_mono h₁ ha
        have he : (CExpr.cast (.uint m) (.var x)).eval s = some ⟨.uint m, a, hm₁⟩ := by
          simp [CExpr.eval, fix?_eq e₁, Val.conv_eq, hm₁]
        apply leaves_add_mixed hs hr rfl e₂ he le_rfl h₂ hT (leaves_add hs hr e₁ e₂)
      · have hg := mpz_get_ui_eq (inRange_u64_of_uint hr)
        simp only [Datum.value] at hg
        rw [leaves_viaTmp_ui hs h.ret_ne hr]
        simp [GmpOp.value, arg_var, fix?_eq e₁, mpz?_eq e₂, h.fst_ne, h.snd_ne, AddExact,
          Datum.ctype, Datum.value, wrap_u64_uint ha, add_comm b, hg]
    · rcases d₂ with ⟨v₂ | v₂, b, hb⟩ | b <;> cases hl
      · obtain ⟨m, hm, hT, h₁, h₂⟩ := uintlub_eq (.uint w) (.int v₁) (.uint v₂)
        rw [hm]
        have he : (CExpr.var y).eval s = some ⟨.uint v₂, b, hb⟩ := fix?_eq e₂
        apply leaves_add_mixed hs hr (add_comm b a) e₁ he h₂ h₁ hT (leaves_add hs hr e₁ e₂)
      · apply leaves_add hs hr e₁ e₂
      · have hg := mpz_get_si_modEq_iff hr
        simp only [Datum.value] at hg
        rw [leaves_viaTmp_si hs h.ret_ne hr]
        simp [GmpOp.value, arg_var, fix?_eq e₁, mpz?_eq e₂, h.fst_ne, h.snd_ne, AddExact,
          Datum.ctype, Datum.value, wrap_i64_int ha, mpz_add_si_eq_some_iff,
          inRange_i64.2 (inRange_i64_of_int ha), add_comm b, hg]
    · cases d₂ with
      | fix v₂ =>
        rw [Datum.ctype, Datum.ctype, ← addExact_comm_uint, add_comm]
        apply ih h.symm (by rwa [add_comm]) hl
      | mpz b =>
        rw [Datum.ctype, Datum.ctype, ir2cAdditionStep_mpz_mpz] at hl
        cases hl

/-- `mpz_add_si` into a temporary and `mpz_get_si` out of it. -/
theorem leaves_addSi_getSi {v w : Width} {a b r : ℤ} {hb : (int v).InRange b}
    (hs : s ret = some (.uninit (.fix (.int w)))) (hne : ret ≠ .tmp) (hr : (int w).InRange r)
    (hx : s x = some (.data (.mpz a))) (hy : s y = some (.data (.fix ⟨.int v, b, hb⟩)))
    (hxt : x ≠ .tmp) (hyt : y ≠ .tmp) (hsum : a + b = r) :
    Leaves (viaTmp (.addSi x (.var y)) ret (.int w) .getSi) s ret r ↔ b ≠ -2 ^ 63 := by
  have hb' := inRange_i64.2 (inRange_i64_of_int hb)
  rw [leaves_viaTmp_si hs hne hr]
  simp [GmpOp.value, arg_var, fix?_eq hy, mpz?_eq hx, hxt, hyt, wrap_i64_int hb,
    mpz_add_si_eq_some_iff hb', hsum, mpz_get_si_eq (inRange_i64_of_int hr)]

theorem leaves_add_int {w : Width} (h : Args s ret (.fix (.int w)) x d₁ y d₂)
    (hr : (int w).InRange (d₁.value + d₂.value)) {n : ℕ} {l : List Stmt}
    (hl : ir2cAdditionStep n ret (.fix (.int w)) x d₁.ctype y d₂.ctype = some l) :
    Leaves l s ret (d₁.value + d₂.value) ↔
      AddExact (.fix (.int w)) d₁.ctype d₂.ctype d₁.value d₂.value := by
  have hs := h.ret_eq
  have e₁ := h.fst_eq
  have e₂ := h.snd_eq
  have hg := mpz_get_si_eq (inRange_i64_of_int hr)
  cases n with
  | zero => cases hl
  | succ n =>
    rcases d₁ with ⟨v₁ | v₁, a, ha⟩ | a
    · rcases d₂ with ⟨v₂ | v₂, b, hb⟩ | b <;> cases hl
      · apply leaves_add hs hr e₁ e₂
      · obtain ⟨m, hm, hT, h₁, h₂⟩ := uintlub_eq (.int w) (.uint v₁) (.int v₂)
        rw [hm]
        have he : (CExpr.var x).eval s = some ⟨.uint v₁, a, ha⟩ := fix?_eq e₁
        apply leaves_add_mixed hs hr rfl e₂ he h₁ h₂ hT (leaves_add hs hr e₁ e₂)
      · rw [leaves_viaTmp_ui hs h.ret_ne hr]
        simpa [GmpOp.value, arg_var, fix?_eq e₁, mpz?_eq e₂, h.fst_ne, h.snd_ne, AddExact,
          Datum.ctype, Datum.value] using mpz_add_si_get_ui_iff ha hr
    · rcases d₂ with ⟨v₂ | v₂, b, hb⟩ | b
      · cases hl
        obtain ⟨m, hm, hT, h₁, h₂⟩ := uintlub_eq (.int w) (.int v₁) (.uint v₂)
        rw [hm]
        have he : (CExpr.var y).eval s = some ⟨.uint v₂, b, hb⟩ := fix?_eq e₂
        apply leaves_add_mixed hs hr (add_comm b a) e₁ he h₂ h₁ hT (leaves_add hs hr e₁ e₂)
      · cases hl
        have he : (CExpr.add (i64 x) (i64 y)).eval s = Val.arith (.int .w64) (a + b) := by
          simp [CExpr.eval, fix?_eq e₁, fix?_eq e₂, Val.add_eq, wrap_i64_int ha, wrap_i64_int hb]
          rfl
        have hr' : (int .w64).InRange (a + b) := inRange_i64.2 (inRange_i64_of_int hr)
        simpa [AddExact, Datum.ctype] using (leaves_of_i64 hs hr he).2 hr'
      · cases n <;> cases hl
        apply leaves_addSi_getSi hs h.ret_ne hr e₂ e₁ h.snd_ne h.fst_ne (add_comm b a)
    · rcases d₂ with ⟨v₂ | v₂, b, hb⟩ | b <;> cases hl
      · rw [getAs_int, leaves_viaTmp_si hs h.ret_ne hr]
        simp only [Datum.value] at hg
        simp [GmpOp.addAs, GmpOp.value, arg_var, fix?_eq e₂, mpz?_eq e₁, h.fst_ne, h.snd_ne,
          AddExact, Datum.ctype, Datum.value, wrap_u64_uint hb, hg]
      · apply leaves_addSi_getSi hs h.ret_ne hr e₁ e₂ h.fst_ne h.snd_ne rfl
      · rw [leaves_viaTmp_si hs h.ret_ne hr]
        simp only [Datum.value] at hg
        simp [GmpOp.value, mpz?_eq e₁, mpz?_eq e₂, h.fst_ne, h.snd_ne, AddExact, Datum.ctype,
          Datum.value, hg]

end PVS.GroundEval
