import PVS.GroundEval.Ir2cAddition
import PVS.GroundEval.Ir2cSubtraction

/-! When the statements emitted for integer arithmetic leave the exact result. -/

namespace PVS.GroundEval

open PVS.Library.CInt PVS.Library.CInt.IntType Store

/-- The arguments on which the statements for `a * b` are exact. -/
def MulExact (T t₁ t₂ : CType) (a b : ℤ) : Prop :=
  match T, t₁, t₂ with
  | .fix _, .fix (.int _), .fix (.int _) => a * b < 2 ^ 63
  | _, _, _ => True

variable {s : Store} {ret x y : Var} {d₁ d₂ : Datum}

theorem value_setAs {v : Val} (hx : s.fix? x = some v) (z : Var) :
    (GmpOp.setAs v.type (.cast (uintOrInt64 v.type) (.var x))).value z s = some v.val := by
  obtain ⟨v | v, a, ha⟩ := v
  · simp [GmpOp.setAs, GmpOp.value, uintOrInt64, arg_cast hx, wrap_u64_uint ha]
  · simp [GmpOp.setAs, GmpOp.value, uintOrInt64, arg_cast hx, wrap_i64_int ha]

theorem value_mulAs_cast {v : Val} {a : ℤ} (hx : s.fix? x = some v) (hy : s.mpz? y = some a) (z : Var) :
    (GmpOp.mulAs v.type y (.cast (uintOrInt64 v.type) (.var x))).value z s = some (a * v.val) := by
  obtain ⟨v | v, b, hb⟩ := v
  · simp [GmpOp.mulAs, GmpOp.value, uintOrInt64, arg_cast hx, hy, wrap_u64_uint hb]
  · simp [GmpOp.mulAs, GmpOp.value, uintOrInt64, arg_cast hx, hy, wrap_i64_int hb]

theorem value_mulAs {v : Val} {a : ℤ} (hx : s.fix? x = some v) (hy : s.mpz? y = some a) (z : Var) :
    (GmpOp.mulAs v.type y (.var x)).value z s = some (a * v.val) := by
  obtain ⟨v | v, b, hb⟩ := v
  · simp [GmpOp.mulAs, GmpOp.value, arg_var hx, hy, wrap_u64_uint hb]
  · simp [GmpOp.mulAs, GmpOp.value, arg_var hx, hy, wrap_i64_int hb]

/-- A value of the return type comes back from an `mpz` through the function for that type. -/
theorem leaves_viaTmp_getAs {T : IntType} {r : ℤ} (hs : s ret = some (.uninit (.fix T)))
    (hne : ret ≠ .tmp) (hr : T.InRange r) {op : GmpOp}
    (hop : op.value .tmp (s.set .tmp (.data (.mpz 0))) = some r) :
    Leaves (viaTmp op ret T (.getAs T)) s ret r := by
  cases T with
  | uint w =>
    rw [getAs_uint, leaves_viaTmp_ui hs hne hr, hop]
    simp [mpz_get_ui_eq (inRange_u64_of_uint hr)]
  | int w =>
    rw [getAs_int, leaves_viaTmp_si hs hne hr, hop]
    simp [mpz_get_si_eq (inRange_i64_of_int hr)]

/-- An `mpz` product is always exact. -/
theorem leaves_mul_mpz (h : Args s ret .mpz x d₁ y d₂) :
    Leaves (ir2cMultiplicationStep ret .mpz x d₁.ctype y d₂.ctype) s ret (d₁.value * d₂.value) := by
  have hx := h.fst_ne_ret
  have hy := h.snd_ne_ret
  have hs := h.ret_eq
  have e₁ := h.fst_eq
  have e₂ := h.snd_eq
  rcases d₁ with u | a <;> rcases d₂ with v | b
  · have hset := value_setAs (fix?_eq (h.set_tmp (.data (.mpz 0))).fst_eq) .tmp
    have e₂' : ((s.set .tmp (.data (.mpz u.val))).set ret (.data (.mpz 0))).fix? y = some v := by
      rw [fix?_set_of_ne hy, fix?_eq (h.set_tmp _).snd_eq]
    have et : ((s.set .tmp (.data (.mpz u.val))).set ret (.data (.mpz 0))).mpz? .tmp =
        some u.val := by
      rw [mpz?_set_of_ne h.ret_ne.symm, mpz?_set_self]
    have hmul := value_mulAs_cast e₂' et ret
    simp [ir2cMultiplicationStep, Leaves, run, Stmt.exec, GmpOp.exec, Datum.ctype, hset, ctype?,
      h.ret_ne, hs, hmul, h.ret_ne.symm, value?, Datum.value]
  · refine (leaves_mk hs _).2 ((value_mulAs_cast (v := u) (a := b) ?_ ?_ ret).trans ?_)
    · rw [fix?_set_of_ne hx, fix?_eq e₁]
    · rw [mpz?_set_of_ne hy, mpz?_eq e₂]
    · rw [mul_comm]
      rfl
  · refine (leaves_mk hs _).2 (value_mulAs_cast (v := v) (a := a) ?_ ?_ ret)
    · rw [fix?_set_of_ne hy, fix?_eq e₂]
    · rw [mpz?_set_of_ne hx, mpz?_eq e₁]
  · refine (leaves_mk hs _).2 ?_
    simp [GmpOp.value, mpz?_eq e₁, mpz?_eq e₂, hx, hy, mul_comm, Datum.value]

/-- A product of operands converted to 64 bits is computed in `int64_t` only if both are signed. -/
theorem leaves_mul_fix_fix {T : IntType} {u v : Val} (hs : s ret = some (.uninit (.fix T)))
    (hr : T.InRange (u.val * v.val)) (hx : s x = some (.data (.fix u)))
    (hy : s y = some (.data (.fix v))) :
    Leaves [.assign ret (.cast T
        (.mul (.cast (uintOrInt64 u.type) (.var x)) (.cast (uintOrInt64 v.type) (.var y))))] s ret
        (u.val * v.val) ↔
      MulExact (.fix T) (.fix u.type) (.fix v.type) u.val v.val := by
  have he := eval_mul (eval_cast (eval_var hx) (uintOrInt64 u.type))
    (eval_cast (eval_var hy) (uintOrInt64 v.type))
  simp only [Val.conv_type, Val.conv_val] at he
  rcases u with ⟨k | k, a, ha⟩ <;> rcases v with ⟨m | m, b, hb⟩
  · simp only [uintOrInt64, wrap_u64_uint ha, wrap_u64_uint hb] at he
    exact (leaves_of_arith hs hr he).trans (iff_of_true (.inr ⟨rfl, bits_le_64 T⟩) trivial)
  · simp only [uintOrInt64, wrap_u64_uint ha, wrap_i64_int hb] at he
    exact (leaves_of_arith hs hr he).trans (iff_of_true (.inr ⟨rfl, bits_le_64 T⟩) trivial)
  · simp only [uintOrInt64, wrap_i64_int ha, wrap_u64_uint hb] at he
    exact (leaves_of_arith hs hr he).trans (iff_of_true (.inr ⟨rfl, bits_le_64 T⟩) trivial)
  · simp only [uintOrInt64, wrap_i64_int ha, wrap_i64_int hb] at he
    have hlow : -2 ^ 63 ≤ a * b := by
      cases T with
      | uint w => exact le_trans (by norm_num) (inRange_u64_of_uint hr).1
      | int w => exact (inRange_i64_of_int hr).1
    refine (leaves_of_i64 hs hr he).trans (inRange_i64.trans ?_)
    exact ⟨And.right, fun h => ⟨hlow, h⟩⟩

theorem leaves_mul_fix {T : IntType} (h : Args s ret (.fix T) x d₁ y d₂)
    (hr : T.InRange (d₁.value * d₂.value)) :
    Leaves (ir2cMultiplicationStep ret (.fix T) x d₁.ctype y d₂.ctype) s ret
        (d₁.value * d₂.value) ↔
      MulExact (.fix T) d₁.ctype d₂.ctype d₁.value d₂.value := by
  have hs := h.ret_eq
  rcases d₁ with u | a <;> rcases d₂ with v | b
  · apply leaves_mul_fix_fix hs hr h.fst_eq h.snd_eq
  · refine iff_of_true (leaves_viaTmp_getAs hs h.ret_ne hr ?_) ?_
    · rw [value_mulAs (fix?_eq (h.set_tmp _).fst_eq) (mpz?_eq (h.set_tmp _).snd_eq), mul_comm]
      rfl
    · rcases u with ⟨_ | _, _, _⟩ <;> trivial
  · refine iff_of_true (leaves_viaTmp_getAs hs h.ret_ne hr ?_) trivial
    apply value_mulAs (fix?_eq (h.set_tmp _).snd_eq) (mpz?_eq (h.set_tmp _).fst_eq)
  · refine iff_of_true (leaves_viaTmp_getAs hs h.ret_ne hr ?_) trivial
    simp [GmpOp.value, mpz?_eq h.fst_eq, mpz?_eq h.snd_eq, h.fst_ne, h.snd_ne, mul_comm,
      Datum.value]

def ArithOp.ExactWhen : ArithOp → CType → CType → CType → ℤ → ℤ → Prop
  | add => AddExact
  | sub => SubExact
  | minus => fun T t₁ _ a _ => MinusExact T t₁ a
  | mul => MulExact

/-- The emitted statements leave the exact result just for the arguments of `ExactWhen`. -/
theorem arith_exact_iff (op : ArithOp) {T : CType} {d₁ d₂ : Datum} {n : ℕ} {l : List Stmt}
    (hr : T.InRange (op.value d₁.value d₂.value))
    (hl : op.emit n T d₁.ctype d₂.ctype = some l) (hne : l ≠ []) :
    Leaves l (start T d₁ d₂) .result (op.value d₁.value d₂.value) ↔
      op.ExactWhen T d₁.ctype d₂.ctype d₁.value d₂.value := by
  have h := args_start T d₁ d₂
  cases op with
  | add =>
    rcases T with (w | w) | _
    · exact leaves_add_uint h hr hl
    · exact leaves_add_int h hr hl
    · exact leaves_add_mpz h hl
  | sub =>
    cases hl
    rcases T with (w | w) | _
    · exact leaves_sub_uint h hr
    · exact leaves_sub_int h hr hne
    · exact leaves_sub_mpz h
  | minus =>
    cases hl
    exact leaves_minus h hr
  | mul =>
    cases hl
    cases T with
    | fix T => exact leaves_mul_fix h hr
    | mpz => exact iff_of_true (leaves_mul_mpz h) trivial

def u32 (a : ℤ) (h : (uint .w32).InRange a) : Datum := .fix ⟨.uint .w32, a, h⟩

/-- `uint32 + uint32` to `uint64` is `(uint64_t)(a + b)`, and wraps at `2 ^ 32`. -/
theorem arith_not_exact_u32 :
    ¬∀ (op : ArithOp) (T : CType) (d₁ d₂ : Datum) (n : ℕ) (l : List Stmt),
      T.InRange (op.value d₁.value d₂.value) → op.emit n T d₁.ctype d₂.ctype = some l → l ≠ [] →
        Leaves l (start T d₁ d₂) .result (op.value d₁.value d₂.value) := by
  intro h
  have hc := h .add (.fix (.uint .w64)) (u32 (2 ^ 32 - 1) (by decide)) (u32 1 (by decide)) 1 _
    (by decide) rfl (by simp)
  revert hc
  decide

/-- `5 + 7` is below `2 ^ 32`. -/
theorem arith_exact_u32 :
    Leaves [.assign .result (.cast (.uint .w64) (.add (.var .first) (.var .second)))]
      (start (.fix (.uint .w64)) (u32 5 (by decide)) (u32 7 (by decide))) .result 12 :=
  (@arith_exact_iff .add (.fix (.uint .w64)) (u32 5 (by decide)) (u32 7 (by decide)) 1 _
    (by decide) rfl (by simp)).2 (.inl (by decide))

end PVS.GroundEval
