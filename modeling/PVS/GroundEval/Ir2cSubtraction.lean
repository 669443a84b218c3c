import PVS.GroundEval.Ir2cRun

/-! When `ir2c-minus-step` and `ir2c-subtraction-step` emit exact statements. -/

namespace PVS.GroundEval

open PVS.Library.CInt PVS.Library.CInt.IntType Store

/-- The arguments on which the statements for `-a` are exact. -/
def MinusExact (T t : CType) (a : ℤ) : Prop :=
  match T, t with
  | .mpz, _ => True
  | .fix T, .mpz =>
    a = 0 ∨ T ≠ .int .w64 ∧ |a| = 2 ^ (T.bits - 1) ∨ T = .uint .w64 ∧ a = -(2 ^ 63 + 2 ^ 62)
  | .fix T, .fix U => (promote U).Fits T (-a)

/-- The arguments on which the statements for `a - b` are exact. -/
def SubExact (T t₁ t₂ : CType) (a b : ℤ) : Prop :=
  match T, t₁, t₂ with
  | .mpz, .fix (.uint _), .fix (.int w) => (promote (.int w)).InRange (-b)
  | .mpz, .fix (.uint _), .mpz => False
  | .mpz, .fix (.int _), .fix _ => a = b
  | .mpz, .mpz, .fix (.int _) => False
  | .mpz, _, _ => True
  | .fix (.uint _), .fix (.uint _), .fix (.int w) => (promote (.int w)).InRange (-b)
  | .fix (.uint w), .fix (.uint v), .mpz =>
    0 ≤ b ∨ b = 2 ^ (Nat.min v.bits w.bits - 1) - 2 ^ w.bits
  | .fix (.uint _), .fix (.int _), .fix (.int _) => a - b < 2 ^ 63
  | .fix (.uint .w64), .fix (.int .w64), .mpz =>
    -2 ^ 63 ≤ b ∧ a - b < 2 ^ 63 ∨ b < -2 ^ 64
  | .fix (.uint w), .fix (.int v), .mpz =>
    (int v).min ≤ b ∨ b < 2 ^ (v.bits - 1) - 2 ^ w.bits
  | .fix (.uint w), .mpz, .fix (.int _) => 0 ≤ b ∨ 2 ^ (w.bits - 1) ∣ b
  | .fix (.int _), .mpz, .fix (.int _) => False
  | _, _, _ => True

variable {s : Store} {ret x y : Var} {d₁ d₂ : Datum}

theorem mpz_get_si_modEq_neg_iff {T : IntType} {a : ℤ} (h : T.InRange (-a)) :
    mpz_get_si a ≡ -a [ZMOD T.card] ↔ a = 0 ∨ T ≠ .int .w64 ∧ |a| = 2 ^ (T.bits - 1) ∨
      T = .uint .w64 ∧ a = -(2 ^ 63 + 2 ^ 62) := by
  rw [Int.modEq_iff_dvd, abs_eq (by positivity)]
  cases T with
  | uint w =>
    cases w <;> simp [InRange, IntType.min, card, bits, width, Width.bits] at h ⊢ <;>
      unfold mpz_get_si <;> split <;> omega
  | int w =>
    cases w <;> simp [InRange, IntType.min, card, bits, width, Width.bits] at h ⊢ <;>
      unfold mpz_get_si <;> split <;> omega

theorem leaves_minus {T : CType} (h : Args s ret T x d₁ y d₂) (hr : T.InRange (-d₁.value)) :
    Leaves (ir2cMinusStep ret T x d₁.ctype) s ret (-d₁.value) ↔
      MinusExact T d₁.ctype d₁.value := by
  have hs := h.ret_eq
  have e₁ := h.fst_eq
  have hx := h.fst_ne_ret
  cases T with
  | mpz =>
    rcases d₁ with ⟨v₁ | v₁, a, ha⟩ | a
    · simp [ir2cMinusStep, GmpOp.setAs, leaves_mk_gmp hs, GmpOp.value, arg_var, fix?_eq e₁, hx,
        MinusExact, Datum.ctype, Datum.value, wrap_u64_uint ha]
    · simp [ir2cMinusStep, GmpOp.setAs, leaves_mk_gmp hs, GmpOp.value, arg_var, fix?_eq e₁, hx,
        MinusExact, Datum.ctype, Datum.value, wrap_i64_int ha]
    · simp [ir2cMinusStep, leaves_mk_gmp hs, GmpOp.value, mpz?_eq e₁, hx, MinusExact, Datum.ctype,
        Datum.value]
  | fix T =>
    rcases d₁ with ⟨U, a, ha⟩ | a
    · apply leaves_of_arith hs hr
      simp [CExpr.eval, fix?_eq e₁, Val.neg_eq, Datum.value]
    · refine (leaves_assign hs hr _).trans ?_
      simpa [CExpr.eval, mpz?_eq e₁, MinusExact, Datum.ctype, Datum.value] using
        mpz_get_si_modEq_neg_iff hr

theorem leaves_sub_mpz (h : Args s ret .mpz x d₁ y d₂) :
    Leaves (ir2cSubtractionStep ret .mpz x d₁.ctype y d₂.ctype) s ret (d₁.value - d₂.value) ↔
      SubExact .mpz d₁.ctype d₂.ctype d₁.value d₂.value := by
  have hx := h.fst_ne_ret
  have hy := h.snd_ne_ret
  have hs := h.ret_eq
  have e₁ := h.fst_eq
  have e₂ := h.snd_eq
  rcases d₁ with ⟨v | v, a, ha⟩ | a <;> rcases d₂ with ⟨w | w, b, hb⟩ | b <;>
    simp [ir2cSubtractionStep, leaves_mk hs, leaves_mk_gmp hs, not_leaves_gmp hs,
      not_leaves_undeclared, GmpOp.value, arg_cast, arg_var, fix?_eq, mpz?_eq, e₁, e₂, hx,
      hy, SubExact, Datum.ctype, Datum.value, mpz_si_sub]
  · rw [wrap_u64_uint ha, wrap_u64_uint hb]
  · have hb' : (s.set ret (.data (.mpz 0))).fix? y = some ⟨.int w, b, hb⟩ := by
      simp [fix?_eq e₂, hy]
    simp only [arg_neg_eq_some_iff hb', wrap_u64_uint ha]
    constructor
    · rintro ⟨z, ⟨hn, -⟩, -⟩
      exact hn
    · intro hn
      exact ⟨-b, ⟨hn, rfl⟩, by ring⟩
  · omega
  · omega
  · apply wrap_i64_int ha
  · apply wrap_u64_uint hb

/-- The difference of an unsigned and a signed operand returned as unsigned. -/
theorem leaves_sub_uint_int {v₁ v₂ w : Width} {a b : ℤ} {ha : (uint v₁).InRange a}
    {hb : (int v₂).InRange b} (hs : s ret = some (.uninit (.fix (.uint w))))
    (hr : (uint w).InRange (a - b)) (hx : s x = some (.data (.fix ⟨.uint v₁, a, ha⟩)))
    (hy : s y = some (.data (.fix ⟨.int v₂, b, hb⟩))) :
    Leaves [.ite (.lt (.var y) .zero)
      (.assign ret (.cast (.uint w) (.add (u64 x) (.cast (.uint w) (.neg (.var y))))))
      (.assign ret (.cast (.uint w) (.sub (u64 x) (u64 y))))] s ret (a - b) ↔
      (promote (.int v₂)).InRange (-b) := by
  have hp : (promote (.int v₂)).signed := by cases v₂ <;> rfl
  rw [leaves_ite_neg hy]
  by_cases h : b < 0
  · rw [if_pos h]
    by_cases hn : (promote (.int v₂)).InRange (-b)
    · have he : (CExpr.add (u64 x) (.cast (.uint w) (.neg (.var y)))).eval s =
          Val.arith (.uint .w64) ((uint .w64).wrap a + (uint w).wrap (-b)) := by
        simp [CExpr.eval, fix?_eq hx, fix?_eq hy, Val.neg_eq, Val.arith_of_inRange hn, Val.add_eq,
          usual_u64]
      have ha' := (wrap_modEq (.uint .w64) a).of_dvd
        (card_dvd_card (U := .uint .w64) (bits_le_64 (.uint w)))
      rw [leaves_of_u64 hs hr he]
      simpa [hn, sub_eq_add_neg] using ha'.add (wrap_modEq (.uint w) (-b))
    · rw [leaves_assign hs hr]
      simp [CExpr.eval, fix?_eq hx, fix?_eq hy, Val.neg_eq, Val.arith_overflow hp hn, hn]
  · have hn := inRange_neg_of_nonneg hb (not_lt.1 h)
    rw [if_neg h]
    simpa [hn] using leaves_sub_u64 hs hr hx hy rfl rfl rfl

/-- `mpz_get_ui` drops the sign of the subtrahend, whose residue is then taken for `v₁`. -/
theorem wrap_get_ui_modEq_iff {v₁ w : Width} {a b : ℤ} (ha : (uint v₁).InRange a)
    (hr : (uint w).InRange (a - b)) :
    a - (uint v₁).wrap (mpz_get_ui b) ≡ a - b [ZMOD (uint w).card] ↔
      0 ≤ b ∨ b = 2 ^ (Nat.min v₁.bits w.bits - 1) - 2 ^ w.bits := by
  rw [Int.modEq_iff_dvd]
  unfold mpz_get_ui wrap
  by_cases h : 0 ≤ b
  · rw [abs_of_nonneg h]
    cases v₁ <;> cases w <;>
      simp [InRange, IntType.min, card, bits, width, Width.bits] at ha hr ⊢ <;> omega
  · rw [abs_of_neg (not_le.1 h)]
    cases v₁ <;> cases w <;>
      simp [InRange, IntType.min, card, bits, width, Width.bits] at ha hr ⊢ <;> omega

/-- An `mpz` subtrahend goes through a temporary of the minuend's type `A`. -/
theorem leaves_sub_decl_tmp {T A U : IntType} {u v : Val} {b r : ℤ} {e : CExpr}
    (h : Args s ret (.fix T) x (.fix u) y (.mpz b)) (hr : T.InRange r)
    (he : e.eval (s.set .tmp (.uninit (.fix A))) = some v) :
    Leaves [.decl (.fix A) .tmp, .assign .tmp e,
      .assign ret (.cast T (.sub (.cast U (.var x)) (.var .tmp)))] s ret r ↔
      ∃ d, Val.arith (usual U A) (U.wrap u.val - A.wrap v.val) = some d ∧
        d.val ≡ r [ZMOD T.card] := by
  have h' := h.set_tmp (.data (.fix (v.conv A)))
  have hd := eval_sub (eval_cast (eval_var h'.fst_eq) U) (eval_var (set_self s .tmp _))
  rw [leaves_decl_tmp he, leaves_assign h'.ret_eq hr, hd]
  rfl

theorem leaves_sub_uint_mpz {v₁ w : Width} {a b : ℤ} {ha : (uint v₁).InRange a}
    (h : Args s ret (.fix (.uint w)) x (.fix ⟨.uint v₁, a, ha⟩) y (.mpz b))
    (hr : (uint w).InRange (a - b)) :
    Leaves [.decl (.fix (.uint v₁)) .tmp, .assign .tmp (.cast (.uint v₁) (.getUi y)),
      .assign ret (.cast (.uint w) (.sub (u64 x) (.var .tmp)))] s ret (a - b) ↔
      0 ≤ b ∨ b = 2 ^ (Nat.min v₁.bits w.bits - 1) - 2 ^ w.bits := by
  rw [leaves_sub_decl_tmp h hr (eval_cast (eval_getUi (h.set_tmp _).snd_eq) (.uint v₁)), usual_u64,
    exists_arith_u64_iff]
  simpa [wrap_u64_uint ha] using wrap_get_ui_modEq_iff ha hr

/-- The subtrahend of a signed minuend is taken for a value of the minuend's type `v₁`. -/
theorem wrap_get_si_modEq_iff {v₁ w : Width} {a b : ℤ} (ha : (int v₁).InRange a)
    (hr : (uint w).InRange (a - b)) :
    ((int .w64).InRange (a - (int v₁).wrap (mpz_get_si b)) ∧
        a - (int v₁).wrap (mpz_get_si b) ≡ a - b [ZMOD (uint w).card]) ↔
      SubExact (.fix (.uint w)) (.fix (.int v₁)) .mpz a b := by
  rw [Int.modEq_iff_dvd]
  unfold mpz_get_si wrap
  cases v₁ <;> cases w <;>
      simp [InRange, IntType.min, card, bits, width, Width.bits, SubExact] at ha hr ⊢ <;> split <;>
      omega

theorem leaves_sub_int_mpz {v₁ w : Width} {a b : ℤ} {ha : (int v₁).InRange a}
    (h : Args s ret (.fix (.uint w)) x (.fix ⟨.int v₁, a, ha⟩) y (.mpz b))
    (hr : (uint w).InRange (a - b)) :
    Leaves [.decl (.fix (.int v₁)) .tmp, .assign .tmp (.getSi y),
      .assign ret (.cast (.uint w) (.sub (i64 x) (.var .tmp)))] s ret (a - b) ↔
      SubExact (.fix (.uint w)) (.fix (.int v₁)) .mpz a b := by
  rw [leaves_sub_decl_tmp h hr (eval_getSi (h.set_tmp _).snd_eq), usual_i64, exists_arith_i64_iff]
  simpa [wrap_i64_int ha] using wrap_get_si_modEq_iff ha hr

/-- A difference of signed operands, computed in `int64_t`. -/
theorem leaves_sub_i64 {T : IntType} {v₁ v₂ : Width} {a b : ℤ} {ha : (int v₁).InRange a}
    {hb : (int v₂).InRange b} (hs : s ret = some (.uninit (.fix T))) (hr : T.InRange (a - b))
    (hx : s x = some (.data (.fix ⟨.int v₁, a, ha⟩)))
    (hy : s y = some (.data (.fix ⟨.int v₂, b, hb⟩))) :
    Leaves [.assign ret (.cast T (.sub (i64 x) (i64 y)))] s ret (a - b) ↔
      (int .w64).InRange (a - b) := by
  apply leaves_of_i64 hs hr
  rw [eval_sub (eval_cast (eval_var hx) _) (eval_cast (eval_var hy) _)]
  simp only [Val.conv_type, Val.conv_val, usual_i64, wrap_i64_int ha, wrap_i64_int hb]

/-- `mpz_add_ui` of a negative subtrahend adds `2 ^ 64` and does not negate it. -/
theorem add_wrap_get_ui_modEq_iff {v₂ w : Width} {a b : ℤ} (hb : (int v₂).InRange b)
    (hr : (uint w).InRange (a - b)) (h : b < 0) :
    mpz_get_ui (a + (uint .w64).wrap b) ≡ a - b [ZMOD (uint w).card] ↔ 2 ^ (w.bits - 1) ∣ b := by
  have hb' := inRange_i64_of_int hb
  have hw : (uint .w64).wrap b = b + 2 ^ 64 := by
    rw [wrap_eq_iff]
    · simp [Int.modEq_iff_dvd, card, bits, width, Width.bits]
    · rw [inRange_u64]
      omega
  have hn : 0 ≤ a + (b + 2 ^ 64) := by
    have := inRange_u64_of_uint hr
    omega
  rw [mpz_get_ui_modEq_iff, hw, abs_of_nonneg hn, Int.modEq_iff_dvd]
  cases w <;> simp [card, bits, width, Width.bits] <;> omega

theorem leaves_sub_mpz_int {v₂ w : Width} {a b : ℤ} {hb : (int v₂).InRange b}
    (h : Args s ret (.fix (.uint w)) x (.mpz a) y (.fix ⟨.int v₂, b, hb⟩))
    (hr : (uint w).InRange (a - b)) :
    Leaves [.decl .mpz .tmp, .init .tmp,
      .ite (.lt (.var y) .zero) (.gmp .tmp (.addUi x (.var y))) (.gmp .tmp (.subUi x (.var y))),
      .assign ret (.cast (.uint w) (.getUi .tmp)), .clear .tmp] s ret (a - b) ↔
      0 ≤ b ∨ 2 ^ (w.bits - 1) ∣ b := by
  have hop := leaves_viaTmp_ui h.ret_eq h.ret_ne hr
  rw [leaves_viaTmp_ite h.snd_ne h.snd_eq]
  by_cases hneg : b < 0
  · rw [if_pos hneg, hop, ← add_wrap_get_ui_modEq_iff hb hr hneg]
    simp [GmpOp.value, arg_var, fix?_eq h.snd_eq, mpz?_eq h.fst_eq, h.fst_ne, h.snd_ne, hneg]
  · have hb' : (uint .w64).wrap b = b := by
      have hi := inRange_i64_of_int hb
      rw [wrap_eq_self]
      rw [inRange_u64]
      omega
    rw [if_neg hneg, hop]
    simp [GmpOp.value, arg_var, fix?_eq h.snd_eq, mpz?_eq h.fst_eq, h.fst_ne, h.snd_ne, hb',
      mpz_get_ui_eq (inRange_u64_of_uint hr), not_lt.1 hneg]

theorem leaves_sub_uint {w : Width} (h : Args s ret (.fix (.uint w)) x d₁ y d₂)
    (hr : (uint w).InRange (d₁.value - d₂.value)) :
    Leaves (ir2cSubtractionStep ret (.fix (.uint w)) x d₁.ctype y d₂.ctype) s ret
        (d₁.value - d₂.value) ↔
      SubExact (.fix (.uint w)) d₁.ctype d₂.ctype d₁.value d₂.value := by
  have hs := h.ret_eq
  have e₁ := h.fst_eq
  have e₂ := h.snd_eq
  have hg := mpz_get_ui_eq (inRange_u64_of_uint hr)
  rcases d₁ with ⟨v₁ | v₁, a, ha⟩ | a
  · rcases d₂ with ⟨v₂ | v₂, b, hb⟩ | b
    · refine (leaves_of_arith hs hr (eval_sub (eval_var e₁) (eval_var e₂))).trans ?_
      have hr' : (uint v₁).InRange (a - b) := by
        simp only [InRange, IntType.min, Datum.value] at ha hb hr ⊢
        omega
      exact iff_of_true (.inl (inRange_usual_uint v₂ hr')) trivial
    · apply leaves_sub_uint_int hs hr e₁ e₂
    · apply leaves_sub_uint_mpz h hr
  · rcases d₂ with ⟨v₂ | v₂, b, hb⟩ | b
    · exact iff_of_true (leaves_sub_u64 hs hr e₁ e₂ rfl rfl rfl) trivial
    · refine (leaves_sub_i64 hs hr e₁ e₂).trans ?_
      have hr' := inRange_u64_of_uint hr
      simp only [Datum.value] at hr'
      simp only [inRange_i64, SubExact, Datum.ctype, Datum.value]
      omega
    · apply leaves_sub_int_mpz h hr
  · rcases d₂ with ⟨v₂ | v₂, b, hb⟩ | b
    · refine (leaves_viaTmp_ui hs h.ret_ne hr _).trans ?_
      simp only [Datum.value] at hg
      simp [GmpOp.value, arg_var, fix?_eq e₂, mpz?_eq e₁, h.fst_ne, h.snd_ne, SubExact,
        Datum.ctype, Datum.value, wrap_u64_uint hb, hg]
    · apply leaves_sub_mpz_int h hr
    · refine (leaves_viaTmp_ui hs h.ret_ne hr _).trans ?_
      simp only [Datum.value] at hg
      simp [GmpOp.value, mpz?_eq e₁, mpz?_eq e₂, h.fst_ne, h.snd_ne, SubExact, Datum.ctype,
        Datum.value, hg]

theorem leaves_sub_int {w : Width} (h : Args s ret (.fix (.int w)) x d₁ y d₂)
    (hr : (int w).InRange (d₁.value - d₂.value))
    (hne : ir2cSubtractionStep ret (.fix (.int w)) x d₁.ctype y d₂.ctype ≠ []) :
    Leaves (ir2cSubtractionStep ret (.fix (.int w)) x d₁.ctype y d₂.ctype) s ret
        (d₁.value - d₂.value) ↔
      SubExact (.fix (.int w)) d₁.ctype d₂.ctype d₁.value d₂.value := by
  have hs := h.ret_eq
  have e₁ := h.fst_eq
  have e₂ := h.snd_eq
  have hg := mpz_get_si_eq (inRange_i64_of_int hr)
  rcases d₁ with ⟨v₁ | v₁, a, ha⟩ | a
  · rcases d₂ with ⟨v₂ | v₂, b, hb⟩ | b
    · exact iff_of_true (leaves_sub_u64 hs hr e₁ e₂ rfl rfl rfl) trivial
    · exact iff_of_true (leaves_sub_u64 hs hr e₁ e₂ rfl rfl rfl) trivial
    · exact absurd rfl hne
  · rcases d₂ with ⟨v₂ | v₂, b, hb⟩ | b
    · exact iff_of_true (leaves_sub_u64 hs hr e₁ e₂ rfl rfl rfl) trivial
    · have hr' := inRange_i64.2 (inRange_i64_of_int hr)
      exact iff_of_true ((leaves_sub_i64 hs hr e₁ e₂).2 hr') trivial
    · simp only [Datum.value] at hg hr
      simp [ir2cSubtractionStep, SubExact, Datum.ctype, Datum.value, Leaves, run, Stmt.exec,
        GmpOp.exec, GmpOp.value, arg_var, fix?_eq e₁, mpz?_eq e₂, h.fst_ne, h.snd_ne, ctype?, h.ret_ne, hs,
        CExpr.eval, wrap_i64_int ha, value?, hg, wrap_eq_self hr, h.ret_ne.symm]
  · rcases d₂ with ⟨v₂ | v₂, b, hb⟩ | b
    · refine (leaves_viaTmp_si hs h.ret_ne hr _).trans ?_
      simp only [Datum.value] at hg
      simp [GmpOp.value, arg_var, fix?_eq e₂, mpz?_eq e₁, h.fst_ne, h.snd_ne, SubExact,
        Datum.ctype, Datum.value, wrap_u64_uint hb, hg]
    · simp [ir2cSubtractionStep, SubExact, Datum.ctype, Leaves, run, Stmt.exec]
    · refine (leaves_viaTmp_si hs h.ret_ne hr _).trans ?_
      simp only [Datum.value] at hg
      simp [GmpOp.value, mpz?_eq e₁, mpz?_eq e₂, h.fst_ne, h.snd_ne, SubExact, Datum.ctype,
        Datum.value, hg]

end PVS.GroundEval
