import PVS.GroundEval.Ir2c

/-! What the emitted kinds of statements leave in the return variable. -/

namespace PVS.GroundEval

open PVS.Library.CInt PVS.Library.CInt.IntType

namespace Store

variable {s : Store} {x y : Var} {c : Cell}

@[simp] theorem set_self (s : Store) (x : Var) (c : Cell) : s.set x c x = some c :=
  Function.update_self ..

@[simp] theorem set_of_ne (h : y ≠ x) : s.set x c y = s y := Function.update_of_ne h ..

@[simp] theorem set_set (s : Store) (x : Var) (c c' : Cell) : (s.set x c).set x c' = s.set x c' :=
  Function.update_idem ..

theorem fix?_eq {v : Val} (h : s x = some (.data (.fix v))) : s.fix? x = some v := by
  simp [fix?, h]

theorem mpz?_eq {z : ℤ} (h : s x = some (.data (.mpz z))) : s.mpz? x = some z := by
  simp [mpz?, h]

@[simp] theorem mpz?_set_self (s : Store) (x : Var) (z : ℤ) :
    (s.set x (.data (.mpz z))).mpz? x = some z :=
  mpz?_eq (set_self ..)

@[simp] theorem mpz?_set_of_ne (h : y ≠ x) : (s.set x c).mpz? y = s.mpz? y := by
  simp [mpz?, h]

@[simp] theorem fix?_set_of_ne (h : y ≠ x) : (s.set x c).fix? y = s.fix? y := by
  simp [fix?, h]

@[simp] theorem ctype?_set_self (s : Store) (x : Var) (t : CType) :
    (s.set x (.uninit t)).ctype? x = some t := by
  simp [ctype?]

theorem ctype?_of_uninit {t : CType} (h : s x = some (.uninit t)) : s.ctype? x = some t := by
  simp [ctype?, h]

end Store

open Store

variable {s : Store} {ret x y : Var} {T : IntType} {r : ℤ}

section Arithmetic

attribute [local simp] CExpr.eval

theorem wrap_conv_eq_iff (hr : T.InRange r) (v : Val) :
    ((v.conv T).conv T).val = r ↔ v.val ≡ r [ZMOD T.card] := by
  simp [wrap_eq_iff hr]

theorem leaves_assign (hs : s ret = some (.uninit (.fix T))) (hr : T.InRange r) (e : CExpr) :
    Leaves [.assign ret (.cast T e)] s ret r ↔
      ∃ v, e.eval s = some v ∧ v.val ≡ r [ZMOD T.card] := by
  cases he : e.eval s with
  | none => simp [Leaves, run, Stmt.exec, ctype?_of_uninit hs, CExpr.eval, he]
  | some v =>
    simp [Leaves, run, Stmt.exec, ctype?_of_uninit hs, CExpr.eval, he, value?, Datum.value,
      wrap_eq_iff hr]

theorem leaves_of_arith (hs : s ret = some (.uninit (.fix T))) (hr : T.InRange r) {e : CExpr}
    {C : IntType} (he : e.eval s = Val.arith C r) :
    Leaves [.assign ret (.cast T e)] s ret r ↔ C.Fits T r := by
  rw [leaves_assign hs hr, he, Val.exists_arith_iff hr]

/-- `int64_t` arithmetic is exact unless it overflows. -/
theorem leaves_of_i64 (hs : s ret = some (.uninit (.fix T))) (hr : T.InRange r) {e : CExpr}
    (he : e.eval s = Val.arith (.int .w64) r) :
    Leaves [.assign ret (.cast T e)] s ret r ↔ (int .w64).InRange r := by
  rw [leaves_of_arith hs hr he]
  simp [Fits, signed]

theorem bits_le_64 (T : IntType) : T.bits ≤ 64 := by
  cases T with
  | uint w => cases w <;> decide
  | int w => cases w <;> decide

theorem exists_arith_u64_iff {n : ℤ} :
    (∃ v, Val.arith (.uint .w64) n = some v ∧ v.val ≡ r [ZMOD T.card]) ↔ n ≡ r [ZMOD T.card] := by
  have hd : T.card ∣ (uint .w64).card := card_dvd_card (U := .uint .w64) (bits_le_64 T)
  have hn := (wrap_modEq (.uint .w64) n).of_dvd hd
  simp only [Val.arith_unsigned (T := .uint .w64) rfl, Option.some_inj, ↓existsAndEq, true_and]
  exact ⟨hn.symm.trans, hn.trans⟩

theorem exists_arith_i64_iff {n : ℤ} :
    (∃ v, Val.arith (.int .w64) n = some v ∧ v.val ≡ r [ZMOD T.card]) ↔
      (int .w64).InRange n ∧ n ≡ r [ZMOD T.card] := by
  by_cases h : (int .w64).InRange n
  · simp [Val.arith_of_inRange h, h]
  · simp [Val.arith_overflow (T := .int .w64) rfl h, h]

/-- `uint64_t` arithmetic is exact when the residue for the return type is. -/
theorem leaves_of_u64 (hs : s ret = some (.uninit (.fix T))) (hr : T.InRange r) {e : CExpr} {n : ℤ}
    (he : e.eval s = Val.arith (.uint .w64) n) :
    Leaves [.assign ret (.cast T e)] s ret r ↔ n ≡ r [ZMOD T.card] := by
  rw [leaves_assign hs hr, he, exists_arith_u64_iff]

theorem eval_var {v : Val} (h : s x = some (.data (.fix v))) : (CExpr.var x).eval s = some v :=
  fix?_eq h

theorem eval_cast {e : CExpr} {v : Val} (h : e.eval s = some v) (T : IntType) :
    (CExpr.cast T e).eval s = some (v.conv T) := by
  simp [CExpr.eval, h]

theorem eval_sub {e₁ e₂ : CExpr} {v w : Val} (h₁ : e₁.eval s = some v) (h₂ : e₂.eval s = some w) :
    (CExpr.sub e₁ e₂).eval s = Val.arith (usual v.type w.type) (v.val - w.val) := by
  simp [CExpr.eval, h₁, h₂, Val.sub_eq]

theorem eval_mul {e₁ e₂ : CExpr} {v w : Val} (h₁ : e₁.eval s = some v) (h₂ : e₂.eval s = some w) :
    (CExpr.mul e₁ e₂).eval s = Val.arith (usual v.type w.type) (v.val * w.val) := by
  simp [CExpr.eval, h₁, h₂, Val.mul_eq]

end Arithmetic

/-- A difference of operands converted to 64 bits, computed in `uint64_t`. -/
theorem leaves_sub_u64 {v w : Val} {U V : IntType} (hs : s ret = some (.uninit (.fix T)))
    (hr : T.InRange (v.val - w.val)) (hx : s x = some (.data (.fix v)))
    (hy : s y = some (.data (.fix w))) (hU : U.bits = 64) (hV : V.bits = 64)
    (hUV : usual U V = .uint .w64) :
    Leaves [.assign ret (.cast T (.sub (.cast U (.var x)) (.cast V (.var y))))] s ret
      (v.val - w.val) := by
  have he := eval_sub (eval_cast (eval_var hx) U) (eval_cast (eval_var hy) V)
  simp only [Val.conv_type, hUV, Val.conv_val] at he
  rw [leaves_of_u64 hs hr he]
  apply Int.ModEq.sub
  · apply (wrap_modEq U v.val).of_dvd (card_dvd_card _)
    rw [hU]
    apply bits_le_64
  · apply (wrap_modEq V w.val).of_dvd (card_dvd_card _)
    rw [hV]
    apply bits_le_64

theorem usual_u64 (T : IntType) : usual (.uint .w64) T = .uint .w64 := by
  cases T with
  | uint w => cases w <;> rfl
  | int w => cases w <;> rfl

theorem leaves_add {v w : Val} (hs : s ret = some (.uninit (.fix T)))
    (hr : T.InRange (v.val + w.val)) (hx : s x = some (.data (.fix v)))
    (hy : s y = some (.data (.fix w))) :
    Leaves [.assign ret (.cast T (.add (.var x) (.var y)))] s ret (v.val + w.val) ↔
      (usual v.type w.type).Fits T (v.val + w.val) := by
  apply leaves_of_arith hs hr
  simp [CExpr.eval, fix?_eq hx, fix?_eq hy, Val.add_eq]

/-- A difference of unsigned operands is exact in the return type if the type of the second is as
wide as the return type and as the first. -/
theorem fits_usual_uint {k m : Width} {a c : ℤ} (hk : k.bits ≤ m.bits) (hT : T.bits ≤ m.bits)
    (ha : (uint k).InRange a) (hc : (uint m).InRange c) :
    (usual (uint k) (uint m)).Fits T (a - c) := by
  cases m with
  | w8 =>
    cases k <;> simp [Width.bits] at hk
    left
    simp [InRange, IntType.min, card, bits, width, Width.bits, usual, promote, join, Width.max]
      at ha hc ⊢
    omega
  | w16 =>
    cases k <;> simp [Width.bits] at hk <;> left <;>
      simp [InRange, IntType.min, card, bits, width, Width.bits, usual, promote, join, Width.max]
        at ha hc ⊢ <;> omega
  | w32 =>
    right
    cases k <;> simp [Width.bits] at hk <;> exact ⟨rfl, hT⟩
  | w64 =>
    right
    cases k <;> exact ⟨rfl, hT⟩

theorem inRange_neg {k m : Width} {b : ℤ} (hk : k.bits ≤ m.bits) (hb : (int k).InRange b)
    (h : b < 0) : (uint m).InRange (-b) := by
  cases k <;> cases m <;> simp [Width.bits] at hk <;>
    simp [InRange, IntType.min, card, bits, width, Width.bits] at hb ⊢ <;> omega

/-- The branch of a mixed sum that subtracts the negation of the negative operand. -/
theorem leaves_sub_neg {k m w : Width} {a b : ℤ} {ha : (uint k).InRange a} {hb : (int w).InRange b}
    (hs : s ret = some (.uninit (.fix T))) (hr : T.InRange (a + b))
    (hy : s y = some (.data (.fix ⟨.int w, b, hb⟩))) (hneg : b < 0) {e : CExpr}
    (he : e.eval s = some ⟨.uint k, a, ha⟩) (hk : k.bits ≤ m.bits) (hw : w.bits ≤ m.bits)
    (hT : T.bits ≤ m.bits) :
    Leaves [.assign ret (.cast T (.sub e (.cast (.uint m) (.neg (.var y)))))] s ret (a + b) ↔
      (promote (.int w)).InRange (-b) := by
  by_cases h : (promote (.int w)).InRange (-b)
  · have hn := inRange_neg hw hb hneg
    rw [leaves_of_arith hs hr (C := usual (uint k) (uint m))]
    · have hf := fits_usual_uint hk hT ha hn
      rw [sub_neg_eq_add] at hf
      simp [h, hf]
    · simp [CExpr.eval, he, fix?_eq hy, Val.neg_eq, Val.arith_of_inRange h, Val.sub_eq,
        wrap_eq_self hn]
  · have ho : Val.arith (promote (.int w)) (-b) = none := by
      apply Val.arith_overflow _ h
      cases w <;> rfl
    rw [leaves_assign hs hr]
    simp [CExpr.eval, he, fix?_eq hy, Val.neg_eq, ho, h]

theorem usual_i64 (w : Width) : usual (.int .w64) (.int w) = .int .w64 := by
  cases w <;> rfl

/-- The result of an expression is first stored in a temporary of type `U`. -/
theorem leaves_decl_tmp {U : IntType} {e : CExpr} {v : Val}
    (he : e.eval (s.set .tmp (.uninit (.fix U))) = some v) (c : Stmt) :
    Leaves [.decl (.fix U) .tmp, .assign .tmp e, c] s ret r ↔
      Leaves [c] (s.set .tmp (.data (.fix (v.conv U)))) ret r := by
  simp [Leaves, run, Stmt.exec, he]

theorem usual_int32 (w : Width) : ((int w).usual (int .w32)).signed := by
  cases w <;> rfl

theorem eval_lt_zero {w : Width} {b : ℤ} {hb : (int w).InRange b}
    (hy : s.fix? y = some ⟨.int w, b, hb⟩) :
    ∃ v, (CExpr.lt (.var y) .zero).eval s = some v ∧ (v.val ≠ 0 ↔ b < 0) := by
  have hlt := Val.lt_iff (v := ⟨.int w, b, hb⟩) (w := ⟨.int .w32, 0, by decide⟩) (usual_int32 w)
  by_cases h : b < 0
  · refine ⟨⟨int .w32, 1, by decide⟩, ?_, by simp [h]⟩
    simp [CExpr.eval, hy, hlt.2 h]
  · refine ⟨⟨int .w32, 0, by decide⟩, ?_, by simp [not_lt.1 h]⟩
    simp [CExpr.eval, hy, mt hlt.1 h]

theorem leaves_ite_neg {w : Width} {b : ℤ} {hb : (int w).InRange b}
    (hy : s y = some (.data (.fix ⟨.int w, b, hb⟩))) (s₁ s₂ : Stmt) :
    Leaves [.ite (.lt (.var y) .zero) s₁ s₂] s ret r ↔
      if b < 0 then Leaves [s₁] s ret r else Leaves [s₂] s ret r := by
  obtain ⟨v, hv, hlt⟩ := eval_lt_zero (fix?_eq hy)
  by_cases h : b < 0
  · rw [if_pos h]
    simp [Leaves, run, Stmt.exec, hv, hlt.2 h]
  · rw [if_neg h]
    simp [Leaves, run, Stmt.exec, hv, not_ne_iff.1 (mt hlt.1 h)]

/-- A sum of an unsigned and a signed operand; `c` adds a signed operand that is not negative. -/
theorem leaves_add_mixed {k m w : Width} {a b : ℤ} {ha : (uint k).InRange a}
    {hb : (int w).InRange b} (hs : s ret = some (.uninit (.fix T))) (hr : T.InRange r)
    (hsum : a + b = r) (hy : s y = some (.data (.fix ⟨.int w, b, hb⟩))) {e : CExpr}
    (he : e.eval s = some ⟨.uint k, a, ha⟩) (hk : k.bits ≤ m.bits) (hw : w.bits ≤ m.bits)
    (hT : T.bits ≤ m.bits) {c : Stmt} {P : Prop} (hc : Leaves [c] s ret r ↔ P) :
    Leaves [.ite (.lt (.var y) .zero)
      (.assign ret (.cast T (.sub e (.cast (.uint m) (.neg (.var y)))))) c] s ret r ↔
      if b < 0 then (promote (.int w)).InRange (-b) else P := by
  subst hsum
  rw [leaves_ite_neg hy]
  by_cases h : b < 0
  · rw [if_pos h, if_pos h, leaves_sub_neg hs hr hy h he hk hw hT]
  · rw [if_neg h, if_neg h, hc]

theorem leaves_viaTmp (hs : s ret = some (.uninit (.fix T))) (hne : ret ≠ .tmp) (hr : T.InRange r)
    (op : GmpOp) {get : Var → CExpr} {g : ℤ → ℤ}
    (hget : ∀ s z, s.mpz? .tmp = some z → ∃ v, (get .tmp).eval s = some v ∧ v.val = g z) :
    Leaves (viaTmp op ret T get) s ret r ↔
      ∃ z, op.value .tmp (s.set .tmp (.data (.mpz 0))) = some z ∧ g z ≡ r [ZMOD T.card] := by
  cases ho : op.value .tmp (s.set .tmp (.data (.mpz 0))) with
  | none => simp [Leaves, viaTmp, run, Stmt.exec, GmpOp.exec, ho]
  | some z =>
    obtain ⟨v, hv, hg⟩ := hget (s.set .tmp (.data (.mpz z))) z (mpz?_set_self ..)
    simp [Leaves, viaTmp, run, Stmt.exec, GmpOp.exec, ho, ctype?, hne, hs, CExpr.eval, hv, value?,
      Datum.value, wrap_eq_iff hr, hg, hne.symm]

/-- The temporary is computed by the one or the other function as the sign of `y` says. -/
theorem leaves_viaTmp_ite {w : Width} {b : ℤ} {hb : (int w).InRange b} (hyt : y ≠ .tmp)
    (hy : s y = some (.data (.fix ⟨.int w, b, hb⟩))) (op₁ op₂ : GmpOp) (get : Var → CExpr) :
    Leaves [.decl .mpz .tmp, .init .tmp,
      .ite (.lt (.var y) .zero) (.gmp .tmp op₁) (.gmp .tmp op₂),
      .assign ret (.cast T (get .tmp)), .clear .tmp] s ret r ↔
      if b < 0 then Leaves (viaTmp op₁ ret T get) s ret r
      else Leaves (viaTmp op₂ ret T get) s ret r := by
  have hy' : (s.set .tmp (.data (.mpz 0))).fix? y = some ⟨.int w, b, hb⟩ := by
    rw [fix?_set_of_ne hyt, fix?_eq hy]
  obtain ⟨v, hv, hlt⟩ := eval_lt_zero hy'
  by_cases h : b < 0
  · rw [if_pos h]
    simp [Leaves, viaTmp, run, Stmt.exec, hv, hlt.2 h]
  · rw [if_neg h]
    simp [Leaves, viaTmp, run, Stmt.exec, hv, not_ne_iff.1 (mt hlt.1 h)]

theorem leaves_viaTmp_ui (hs : s ret = some (.uninit (.fix T))) (hne : ret ≠ .tmp)
    (hr : T.InRange r) (op : GmpOp) :
    Leaves (viaTmp op ret T .getUi) s ret r ↔
      ∃ z, op.value .tmp (s.set .tmp (.data (.mpz 0))) = some z ∧
        mpz_get_ui z ≡ r [ZMOD T.card] := by
  apply leaves_viaTmp hs hne hr
  intro s z h
  simp [CExpr.eval, h]

theorem leaves_viaTmp_si (hs : s ret = some (.uninit (.fix T))) (hne : ret ≠ .tmp)
    (hr : T.InRange r) (op : GmpOp) :
    Leaves (viaTmp op ret T .getSi) s ret r ↔
      ∃ z, op.value .tmp (s.set .tmp (.data (.mpz 0))) = some z ∧
        mpz_get_si z ≡ r [ZMOD T.card] := by
  apply leaves_viaTmp hs hne hr
  intro s z h
  simp [CExpr.eval, h]

@[simp] theorem getAs_uint (w : Width) : CExpr.getAs (.uint w) = .getUi := rfl
@[simp] theorem getAs_int (w : Width) : CExpr.getAs (.int w) = .getSi := rfl

theorem leaves_mk (hs : s ret = some (.uninit .mpz)) (op : GmpOp) :
    Leaves [.mk ret op] s ret r ↔ op.value ret (s.set ret (.data (.mpz 0))) = some r := by
  cases ho : op.value ret (s.set ret (.data (.mpz 0))) with
  | none => simp [Leaves, run, Stmt.exec, GmpOp.exec, ctype?_of_uninit hs, ho]
  | some z =>
    simp [Leaves, run, Stmt.exec, GmpOp.exec, ctype?_of_uninit hs, ho, value?, Datum.value]

theorem leaves_mk_gmp (hs : s ret = some (.uninit .mpz)) (op₁ op₂ : GmpOp) :
    Leaves [.mk ret op₁, .gmp ret op₂] s ret r ↔
      ∃ z, op₁.value ret (s.set ret (.data (.mpz 0))) = some z ∧
        op₂.value ret (s.set ret (.data (.mpz z))) = some r := by
  cases ho : op₁.value ret (s.set ret (.data (.mpz 0))) with
  | none => simp [Leaves, run, Stmt.exec, GmpOp.exec, ctype?_of_uninit hs, ho]
  | some z =>
    cases ho' : op₂.value ret (s.set ret (.data (.mpz z))) with
    | none => simp [Leaves, run, Stmt.exec, GmpOp.exec, ctype?_of_uninit hs, ho, ho']
    | some z' =>
      simp [Leaves, run, Stmt.exec, GmpOp.exec, ctype?_of_uninit hs, ho, ho', value?, Datum.value]

/-- A function of GMP on an `mpz` that is not initialised is undefined. -/
theorem not_leaves_gmp (hs : s ret = some (.uninit .mpz)) (op : GmpOp) :
    ¬Leaves [.gmp ret op] s ret r := by
  simp [Leaves, run, Stmt.exec, GmpOp.exec, mpz?, hs]

theorem not_leaves_undeclared (f : String) (args : List CExpr) (l : List Stmt) :
    ¬Leaves (.undeclared f args :: l) s ret r := by
  simp [Leaves, run, Stmt.exec]

/-! ### Arguments of the GMP functions -/

theorem arg_var {v : Val} (hx : s.fix? x = some v) (T : IntType) :
    CExpr.arg T s (.var x) = some (T.wrap v.val) := by
  simp [CExpr.arg, CExpr.eval, hx]

theorem arg_cast {v : Val} (hx : s.fix? x = some v) (T U : IntType) :
    CExpr.arg T s (.cast U (.var x)) = some (T.wrap (U.wrap v.val)) := by
  simp [CExpr.arg, CExpr.eval, hx]

theorem wrap_u64_uint {w : Width} {a : ℤ} (h : (uint w).InRange a) : (uint .w64).wrap a = a := by
  apply wrap_eq_self
  apply inRange_uint_mono _ h
  cases w <;> decide

theorem wrap_i64_int {w : Width} {a : ℤ} (h : (int w).InRange a) : (int .w64).wrap a = a := by
  apply wrap_eq_self
  apply inRange_int_mono _ h
  cases w <;> decide

theorem wrap_i64_u64 (a : ℤ) : (int .w64).wrap ((uint .w64).wrap a) = (int .w64).wrap a :=
  wrap_congr ((uint .w64).wrap_modEq a)

theorem inRange_i64 {a : ℤ} : (int .w64).InRange a ↔ -2 ^ 63 ≤ a ∧ a < 2 ^ 63 := by
  simp [InRange, IntType.min, card, bits, width, Width.bits]

theorem inRange_u64 {a : ℤ} : (uint .w64).InRange a ↔ 0 ≤ a ∧ a < 2 ^ 64 := by
  simp [InRange, IntType.min, card, bits, width, Width.bits]

theorem inRange_i64_of_promote {w : Width} {a : ℤ} (h : (promote (.int w)).InRange a) :
    (int .w64).InRange a := by
  cases w <;> exact inRange_int_mono (by decide) h

theorem arg_neg_eq_some_iff {w : Width} {b z : ℤ} {hb : (int w).InRange b}
    (hy : s.fix? y = some ⟨.int w, b, hb⟩) :
    CExpr.arg (.int .w64) s (.neg (.var y)) = some z ↔
      (promote (.int w)).InRange (-b) ∧ z = -b := by
  by_cases h : (promote (.int w)).InRange (-b)
  · have h64 := inRange_i64_of_promote h
    simp [CExpr.arg, CExpr.eval, hy, Val.neg_eq, Val.arith_of_inRange h, wrap_eq_self h64, h,
      eq_comm]
  · have ho : Val.arith (promote (.int w)) (-b) = none := by
      apply Val.arith_overflow _ h
      cases w <;> rfl
    simp [CExpr.arg, CExpr.eval, hy, Val.neg_eq, ho, h]

theorem inRange_u64_of_uint {w : Width} {a : ℤ} (h : (uint w).InRange a) :
    0 ≤ a ∧ a < 2 ^ 64 := by
  rw [← inRange_u64, ← wrap_u64_uint h]
  apply wrap_inRange

theorem inRange_i64_of_int {w : Width} {a : ℤ} (h : (int w).InRange a) :
    -2 ^ 63 ≤ a ∧ a < 2 ^ 63 := by
  rw [← inRange_i64, ← wrap_i64_int h]
  apply wrap_inRange

theorem mpz_get_ui_eq {z : ℤ} (h : 0 ≤ z ∧ z < 2 ^ 64) : mpz_get_ui z = z := by
  rw [mpz_get_ui, abs_of_nonneg h.1, Int.emod_eq_of_lt h.1 h.2]

theorem mpz_get_si_eq {z : ℤ} (h : -2 ^ 63 ≤ z ∧ z < 2 ^ 63) : mpz_get_si z = z := by
  unfold mpz_get_si
  split <;> omega

theorem eval_getUi {z : ℤ} (h : s x = some (.data (.mpz z))) :
    (CExpr.getUi x).eval s = some ⟨uint .w64, mpz_get_ui z, inRange_mpz_get_ui z⟩ := by
  simp [CExpr.eval, mpz?_eq h]

theorem eval_getSi {z : ℤ} (h : s x = some (.data (.mpz z))) :
    (CExpr.getSi x).eval s = some ⟨int .w64, mpz_get_si z, inRange_mpz_get_si z⟩ := by
  simp [CExpr.eval, mpz?_eq h]

theorem mpz_get_si_modEq_iff {w : Width} {z : ℤ} (h : (uint w).InRange z) :
    mpz_get_si z ≡ z [ZMOD (uint w).card] ↔ z < 2 ^ 63 := by
  have hz := inRange_u64_of_uint h
  by_cases hb : z < 2 ^ 63
  · rw [mpz_get_si_eq (by omega)]
    simpa using hb
  · have hg : mpz_get_si z = z - 2 ^ 63 := by
      unfold mpz_get_si
      split <;> omega
    simp only [hb, iff_false, hg]
    intro e
    have hd := e.dvd
    cases w <;> simp [InRange, IntType.min, card, bits, width, Width.bits] at h hd <;> omega

theorem mpz_get_ui_modEq_iff {z : ℤ} :
    mpz_get_ui z ≡ r [ZMOD T.card] ↔ |z| ≡ r [ZMOD T.card] := by
  have h : mpz_get_ui z ≡ |z| [ZMOD T.card] := by
    apply (Int.mod_modEq |z| (2 ^ 64)).of_dvd
    exact card_dvd_card (U := .uint .w64) (bits_le_64 T)
  exact ⟨h.symm.trans, h.trans⟩

/-- A value of a signed type is its own negation only at the two fixed points. -/
theorem neg_modEq_self_iff {w : Width} {z : ℤ} (h : (int w).InRange z) :
    -z ≡ z [ZMOD (int w).card] ↔ z = 0 ∨ z = (int w).min := by
  rw [Int.modEq_iff_dvd]
  cases w <;> simp [InRange, IntType.min, card, bits, width, Width.bits] at h ⊢ <;> omega

theorem abs_modEq_self_iff {w : Width} {z : ℤ} (h : (int w).InRange z) :
    |z| ≡ z [ZMOD (int w).card] ↔ 0 ≤ z ∨ z = (int w).min := by
  by_cases hz : 0 ≤ z
  · rw [abs_of_nonneg hz]
    simp [hz]
  · rw [abs_of_neg (not_le.1 hz), neg_modEq_self_iff h]
    constructor
    · rintro (e | e)
      · exact .inl e.ge
      · exact .inr e
    · rintro (e | e)
      · exact absurd e hz
      · exact .inr e

/-- `mpz_add_si` negates its argument when it is negative. -/
theorem mpz_add_si_eq_some_iff {y i z : ℤ} (hi : (int .w64).InRange i) :
    mpz_add_si y i = some z ↔ i ≠ -2 ^ 63 ∧ z = y + i := by
  rw [inRange_i64] at hi
  unfold mpz_add_si
  by_cases h : i < 0
  · rw [if_pos h]
    by_cases hm : i = -2 ^ 63
    · have hn : ¬(int .w64).InRange (-i) := by
        rw [inRange_i64]
        omega
      rw [Val.arith_overflow rfl hn]
      constructor
      · intro e
        cases e
      · intro e
        exact absurd hm e.1
    · have hr : (int .w64).InRange (-i) := by
        rw [inRange_i64]
        omega
      have hu : (uint .w64).InRange (-i) := by
        rw [inRange_u64]
        omega
      simp only [Val.arith_of_inRange hr, Option.map_some, wrap_eq_self hu, Option.some_inj, hm,
        ne_eq, not_false_eq_true, true_and]
      constructor <;> intro e <;> omega
  · have hu : (uint .w64).InRange i := by
      rw [inRange_u64]
      omega
    have hm : i ≠ -2 ^ 63 := by
      intro e
      omega
    rw [if_neg h, wrap_eq_self hu, Option.some_inj]
    constructor
    · intro e
      exact ⟨hm, e.symm⟩
    · intro e
      exact e.2.symm

/-- `mpz_add_si` on an `uint64_t` argument, which becomes negative from `2 ^ 63` on, followed by
`mpz_get_ui`, which drops the sign. -/
theorem mpz_add_si_get_ui_iff {v w : Width} {a b : ℤ} (ha : (uint v).InRange a)
    (hr : (int w).InRange (a + b)) :
    (∃ z, mpz_add_si b ((int .w64).wrap a) = some z ∧
        mpz_get_ui z ≡ a + b [ZMOD (int w).card]) ↔
      a < 2 ^ 63 ∧ (0 ≤ a + b ∨ a + b = (int w).min) ∨
        2 ^ 63 < a ∧ (a + b = 0 ∨ a + b = (int w).min) := by
  have ha' := inRange_u64_of_uint ha
  have hr' := inRange_i64_of_int hr
  simp only [mpz_add_si_eq_some_iff (wrap_inRange _ _)]
  by_cases h : a < 2 ^ 63
  · have hw : (int .w64).wrap a = a := by
      rw [wrap_eq_self]
      rw [inRange_i64]
      omega
    simp only [hw, ↓existsAndEq, and_true, add_comm b, mpz_get_ui_modEq_iff,
      abs_modEq_self_iff hr]
    omega
  · have hw : (int .w64).wrap a = a - 2 ^ 64 := by
      rw [wrap_eq_iff]
      · simp [Int.modEq_iff_dvd, card, bits, width, Width.bits]
      · rw [inRange_i64]
        omega
    have habs : |b + (a - 2 ^ 64)| = -(a + b) + (uint .w64).card := by
      rw [abs_of_neg (by omega)]
      simp [card, bits, width, Width.bits]
      ring
    have hc : -(a + b) + (uint .w64).card ≡ -(a + b) [ZMOD (int w).card] := by
      simpa [Int.modEq_iff_dvd] using card_dvd_card (U := .uint .w64) (bits_le_64 (int w))
    have hg : mpz_get_ui (b + (a - 2 ^ 64)) ≡ a + b [ZMOD (int w).card] ↔
        a + b = 0 ∨ a + b = (int w).min := by
      rw [mpz_get_ui_modEq_iff, habs, ← neg_modEq_self_iff hr]
      exact ⟨hc.symm.trans, hc.trans⟩
    simp only [hw, ↓existsAndEq, and_true, hg]
    omega

/-- The variables as the emitted statements find them. -/
structure Args (s : Store) (ret : Var) (T : CType) (x : Var) (d₁ : Datum) (y : Var)
    (d₂ : Datum) : Prop where
  ret_eq : s ret = some (.uninit T)
  fst_eq : s x = some (.data d₁)
  snd_eq : s y = some (.data d₂)
  ret_ne : ret ≠ .tmp
  fst_ne : x ≠ .tmp
  snd_ne : y ≠ .tmp

theorem args_start (T : CType) (d₁ d₂ : Datum) :
    Args (start T d₁ d₂) .result T .first d₁ .second d₂ where
  ret_eq := rfl
  fst_eq := rfl
  snd_eq := rfl
  ret_ne := by decide
  fst_ne := by decide
  snd_ne := by decide

namespace Args

variable {s : Store} {ret x y : Var} {T : CType} {d₁ d₂ : Datum}

theorem symm (h : Args s ret T x d₁ y d₂) : Args s ret T y d₂ x d₁ :=
  ⟨h.ret_eq, h.snd_eq, h.fst_eq, h.ret_ne, h.snd_ne, h.fst_ne⟩

theorem set_tmp (h : Args s ret T x d₁ y d₂) (c : Cell) :
    Args (s.set .tmp c) ret T x d₁ y d₂ where
  ret_eq := by rw [set_of_ne h.ret_ne, h.ret_eq]
  fst_eq := by rw [set_of_ne h.fst_ne, h.fst_eq]
  snd_eq := by rw [set_of_ne h.snd_ne, h.snd_eq]
  ret_ne := h.ret_ne
  fst_ne := h.fst_ne
  snd_ne := h.snd_ne

theorem fst_ne_ret (h : Args s ret T x d₁ y d₂) : x ≠ ret := by
  rintro rfl
  simpa [h.ret_eq] using h.fst_eq

theorem snd_ne_ret (h : Args s ret T x d₁ y d₂) : y ≠ ret := h.symm.fst_ne_ret

end Args

end PVS.GroundEval
