import Mathlib
import PVS.GroundEval.Ir2cRun

/-! The C statements that `ir2c-arith-relations-step` emits for a comparison of two numbers, and when
they decide it. -/

namespace PVS.GroundEval

open PVS.Library.CInt PVS.Library.CInt.IntType

/-- The relation symbols that the step is called with. -/
inductive Rel
  | eq | ne | lt | le | gt | ge
  deriving DecidableEq

namespace Rel

variable {α : Type} [LinearOrder α]

def Holds : Rel → α → α → Prop
  | eq, a, b => a = b
  | ne, a, b => a ≠ b
  | lt, a, b => a < b
  | le, a, b => a ≤ b
  | gt, a, b => b < a
  | ge, a, b => b ≤ a

instance (R : Rel) (a b : α) : Decidable (R.Holds a b) := by
  cases R <;> unfold Holds <;> infer_instance

/-- `arith-relation-inverse`: the negation of an order relation, not its converse. -/
def inverse : Rel → Rel
  | eq => eq
  | lt => ge
  | le => gt
  | gt => le
  | ge => lt
  | ne => ne

attribute [local simp] Holds inverse

/-- Which relations hold depends only on how the numbers are ordered. -/
theorem holds_congr {β : Type} [LinearOrder β] {a b : α} {c d : β} (h : a < b ↔ c < d)
    (h' : b < a ↔ d < c) (R : Rel) : R.Holds a b ↔ R.Holds c d := by
  have heq : a = b ↔ c = d := by
    rw [eq_iff_le_not_lt, eq_iff_le_not_lt, ← not_lt, ← not_lt, h, h']
  cases R <;> simp only [Holds, ne_eq, heq, h, h', ← not_lt]

/-- The relation of the exchanged operands. -/
theorem holds_swap_iff (R : Rel) (a b : α) :
    (R.Holds b a ↔ R.Holds a b) ↔ R = eq ∨ R = ne ∨ a = b := by
  rcases lt_trichotomy a b with h | rfl | h
  · cases R <;> simp [Holds, h, h.le, h.ne, h.ne', h.not_ge, h.not_gt]
  · cases R <;> simp [Holds]
  · cases R <;> simp [Holds, h, h.le, h.ne, h.ne', h.not_ge, h.not_gt]

/-- The relation of the exchanged operands, negated. -/
theorem holds_inverse_iff (R : Rel) (a b : α) :
    (R.inverse.Holds b a ↔ R.Holds a b) ↔ R = eq ∨ R = ne ∨ a ≠ b := by
  rcases lt_trichotomy a b with h | rfl | h
  · cases R <;> simp [Holds, inverse, h, h.le, h.ne, h.ne', h.not_ge, h.not_gt]
  · cases R <;> simp [Holds, inverse]
  · cases R <;> simp [Holds, inverse, h, h.le, h.ne, h.ne', h.not_ge, h.not_gt]

end Rel

/-- The C types of the numbers. -/
inductive NumType
  | int (t : CType)
  | mpq
  deriving DecidableEq

inductive Num
  | int (d : Datum)
  | mpq (q : ℚ)

def Num.type : Num → NumType
  | int d => .int d.ctype
  | mpq _ => .mpq

def Num.value : Num → ℚ
  | int d => d.value
  | mpq q => q

inductive CmpFn
  | mpz_cmp | mpz_cmp_ui | mpz_cmp_si | mpq_cmp | mpq_cmp_z | mpq_cmp_ui | mpq_cmp_si
  deriving DecidableEq

/-- An argument of a comparison function: a variable, or the denominator `1`. -/
inductive CmpArg
  | var (x : Var)
  | one

inductive RelExpr
  | var (x : Var)
  | cast (T : IntType) (x : Var)

inductive RelStmt
  /-- `ret = (e₁ R e₂)` -/
  | assign (ret : Var) (e₁ : RelExpr) (R : Rel) (e₂ : RelExpr)
  | assignBool (ret : Var) (b : Bool)
  | ifNeg (x : Var) (s₁ s₂ : RelStmt)
  /-- `int64_t x = f(..)` -/
  | declCmp (x : Var) (f : CmpFn) (args : List CmpArg)
  /-- `ret = (x R 0)` -/
  | assignSign (ret x : Var) (R : Rel)

/-- The comparison functions of GMP: the result has the sign of the difference. -/
structure Gmp where
  cmp : CmpFn → ℚ → ℚ → ℤ
  cmp_neg_iff : ∀ f a b, cmp f a b < 0 ↔ a < b
  cmp_pos_iff : ∀ f a b, 0 < cmp f a b ↔ b < a

inductive RelCell
  | num (a : Num)
  | sign (z : ℤ)
  | bool (b : Bool)

abbrev RelStore := Var → Option RelCell

namespace RelStore

def fix? (s : RelStore) (x : Var) : Option Val :=
  match s x with
  | some (.num (.int (.fix v))) => some v
  | _ => none

def mpz? (s : RelStore) (x : Var) : Option ℤ :=
  match s x with
  | some (.num (.int (.mpz z))) => some z
  | _ => none

def mpq? (s : RelStore) (x : Var) : Option ℚ :=
  match s x with
  | some (.num (.mpq q)) => some q
  | _ => none

def sign? (s : RelStore) (x : Var) : Option ℤ :=
  match s x with
  | some (.sign z) => some z
  | _ => none

def bool? (s : RelStore) (x : Var) : Option Bool :=
  match s x with
  | some (.bool b) => some b
  | _ => none

def set (s : RelStore) (x : Var) (c : RelCell) : RelStore := Function.update s x (some c)

/-- The argument `x` of a function whose parameter has type `T`. -/
def arg (s : RelStore) (T : IntType) (x : Var) : Option ℚ := (s.fix? x).map (T.wrap ·.val)

/-- The numbers that a call compares, `none` where the function takes other arguments. -/
def compared (s : RelStore) : CmpFn → List CmpArg → Option (ℚ × ℚ)
  | .mpz_cmp, [.var x, .var y] => do return (((← s.mpz? x : ℤ) : ℚ), ((← s.mpz? y : ℤ) : ℚ))
  | .mpz_cmp_ui, [.var x, .var y] => do return (((← s.mpz? x : ℤ) : ℚ), ← s.arg (.uint .w64) y)
  | .mpz_cmp_si, [.var x, .var y] => do return (((← s.mpz? x : ℤ) : ℚ), ← s.arg (.int .w64) y)
  | .mpq_cmp, [.var x, .var y] => do return (← s.mpq? x, ← s.mpq? y)
  | .mpq_cmp_z, [.var x, .var y] => do return (← s.mpq? x, ((← s.mpz? y : ℤ) : ℚ))
  | .mpq_cmp_ui, [.var x, .var y, .one] => do return (← s.mpq? x, ← s.arg (.uint .w64) y)
  | .mpq_cmp_si, [.var x, .var y, .one] => do return (← s.mpq? x, ← s.arg (.int .w64) y)
  | _, _ => none

end RelStore

def RelExpr.eval (s : RelStore) : RelExpr → Option Val
  | var x => s.fix? x
  | cast T x => (s.fix? x).map (·.conv T)

/-- A relational operator of C on integers, after the usual arithmetic conversions. -/
def relVal (R : Rel) (v w : Val) : Bool :=
  R.Holds ((usual v.type w.type).wrap v.val) ((usual v.type w.type).wrap w.val)

theorem inRange_zero : (IntType.int .w32).InRange 0 := by decide

def RelStmt.exec (g : Gmp) : RelStmt → RelStore → Option RelStore
  | assign ret e₁ R e₂, s => do return s.set ret (.bool (relVal R (← e₁.eval s) (← e₂.eval s)))
  | assignBool ret b, s => some (s.set ret (.bool b))
  | ifNeg x s₁ s₂, s => do
    if relVal .lt (← s.fix? x) ⟨.int .w32, 0, inRange_zero⟩ then s₁.exec g s else s₂.exec g s
  | declCmp x f args, s => do
    let (a, b) ← s.compared f args
    return s.set x (.sign (g.cmp f a b))
  | assignSign ret x R, s => do return s.set ret (.bool (R.Holds (← s.sign? x) 0))

def runRel (g : Gmp) : List RelStmt → RelStore → Option RelStore
  | [], s => some s
  | c :: l, s => do runRel g l (← c.exec g s)

/-- `int64_t tmp = f(..); ret = (tmp R 0)` -/
def viaCmp (ret : Var) (f : CmpFn) (args : List CmpArg) (R : Rel) : List RelStmt :=
  [.declCmp .tmp f args, .assignSign ret .tmp R]

/-- `~a_cmp_~a` with `gmp-ui-or-si` of a type. -/
def mpzCmpAs : IntType → CmpFn
  | .uint _ => .mpz_cmp_ui
  | .int _ => .mpz_cmp_si

def mpqCmpAs : IntType → CmpFn
  | .uint _ => .mpq_cmp_ui
  | .int _ => .mpq_cmp_si

def ir2cArithRelationsStep (R : Rel) (ret arg1 : Var) (t₁ : NumType) (arg2 : Var)
    (t₂ : NumType) : List RelStmt :=
  match t₁, t₂ with
  | .int (.fix (.int _)), .int (.fix (.int _)) => [.assign ret (.var arg1) R (.var arg2)]
  | .int (.fix (.int _)), .int (.fix (.uint _)) =>
    [.ifNeg arg1 (.assignBool ret (R = .lt ∨ R = .le)) (.assign ret (.var arg1) R (.var arg2))]
  -- `mpz_cmp_si` has no third argument.
  | .int (.fix (.int _)), .int .mpz =>
    viaCmp ret .mpz_cmp_si [.var arg2, .var arg1, .one] R.inverse
  | .int (.fix (.int _)), .mpq => viaCmp ret .mpq_cmp_si [.var arg2, .var arg1, .one] R.inverse
  | .int (.fix (.uint _)), .int (.fix (.uint _)) => [.assign ret (.var arg1) R (.var arg2)]
  | .int (.fix (.uint w)), .int (.fix (.int _)) =>
    [.ifNeg arg2 (.assignBool ret (¬(R = .lt ∨ R = .le)))
      (.assign ret (.var arg1) R (.cast (.uint w) arg2))]
  | .int (.fix (.uint _)), .int .mpz => viaCmp ret .mpz_cmp_ui [.var arg2, .var arg1] R
  | .int (.fix (.uint _)), .mpq => viaCmp ret .mpq_cmp_ui [.var arg2, .var arg1, .one] R
  | .int .mpz, .int (.fix T) => viaCmp ret (mpzCmpAs T) [.var arg1, .var arg2] R
  | .int .mpz, .int .mpz => viaCmp ret .mpz_cmp [.var arg1, .var arg2] R
  | .int .mpz, .mpq => viaCmp ret .mpq_cmp_z [.var arg2, .var arg1] R.inverse
  | .mpq, .int (.fix T) => viaCmp ret (mpqCmpAs T) [.var arg1, .var arg2, .one] R
  | .mpq, .int .mpz => viaCmp ret .mpq_cmp_z [.var arg1, .var arg2] R
  | .mpq, .mpq => viaCmp ret .mpq_cmp [.var arg1, .var arg2] R

/-- The store in which the statements run. -/
def startRel (a b : Num) : RelStore
  | .first => some (.num a)
  | .second => some (.num b)
  | .result | .tmp => none

/-- The truth value that the statements assign to the return variable. -/
def decided (g : Gmp) (R : Rel) (a b : Num) : Option Bool :=
  (runRel g (ir2cArithRelationsStep R .result .first a.type .second b.type) (startRel a b)).bind
    (·.bool? .result)

/-- `b` is at least `2 ^ w` and is cast to `w` bits, where it is `r`, but the relation to a smaller
`a` does not change. -/
def Rel.Survives : Rel → ℤ → ℤ → Prop
  | lt, a, r | ge, a, r => a < r
  | le, a, r | gt, a, r => a ≤ r
  | eq, a, r | ne, a, r => a ≠ r

/-- The numbers on which the statements decide the relation. -/
def RelExact (R : Rel) : Num → Num → Prop
  | .int (.fix ⟨.int _, a, _⟩), .int (.fix ⟨.uint _, _, _⟩) => 0 ≤ a ∨ R ≠ .ne
  | .int (.fix ⟨.int _, _, _⟩), .int (.mpz _) => False
  | .int (.fix ⟨.int _, a, _⟩), .mpq q => R = .eq ∨ R = .ne ∨ a ≠ q
  | .int (.fix ⟨.uint w, a, _⟩), .int (.fix ⟨.int _, b, _⟩) =>
    if b < 0 then R ≠ .eq else b < 2 ^ w.bits ∨ R.Survives a (b % 2 ^ w.bits)
  | .int (.fix ⟨.uint _, a, _⟩), .int (.mpz b) => R = .eq ∨ R = .ne ∨ a = b
  | .int (.fix ⟨.uint _, a, _⟩), .mpq q => R = .eq ∨ R = .ne ∨ a = q
  | .int (.mpz a), .mpq q => R = .eq ∨ R = .ne ∨ a ≠ q
  | _, _ => True

section Lemmas

variable {g : Gmp} {R : Rel} {s : RelStore}

theorem Gmp.holds_cmp (g : Gmp) (R : Rel) (f : CmpFn) (a b : ℚ) :
    R.Holds (g.cmp f a b) 0 ↔ R.Holds a b :=
  R.holds_congr (g.cmp_neg_iff f a b) (g.cmp_pos_iff f a b)

theorem relVal_iff {v w : Val} (hv : (usual v.type w.type).InRange v.val)
    (hw : (usual v.type w.type).InRange w.val) : relVal R v w ↔ R.Holds v.val w.val := by
  simp [relVal, wrap_eq_self hv, wrap_eq_self hw]

theorem inRange_usual_int_int {v w : Width} {a : ℤ} (h : (int v).InRange a) :
    ((int v).usual (int w)).InRange a := by
  apply inRange_usual _ h
  cases v <;> cases w <;> rfl

theorem inRange_usual_mixed {v w : Width} {a : ℤ} (h : (int v).InRange a) (h0 : 0 ≤ a) :
    ((int v).usual (uint w)).InRange a := by
  cases v <;> cases w <;>
    simp [InRange, usual, promote, join, Width.max, IntType.min, card, bits, width, Width.bits]
      at h ⊢ <;> omega

theorem inRange_usual_mixed' {v w : Width} {a : ℤ} (h : (uint w).InRange a) :
    ((int v).usual (uint w)).InRange a := by
  cases v <;> cases w <;>
    simp [InRange, usual, promote, join, Width.max, IntType.min, card, bits, width, Width.bits]
      at h ⊢ <;> omega

theorem holds_intCast (R : Rel) (a b : ℤ) : R.Holds (a : ℚ) b ↔ R.Holds a b :=
  R.holds_congr Int.cast_lt Int.cast_lt

section Decided

variable {a b : Num} {f : CmpFn} {args : List CmpArg} {c d : ℚ} {R' : Rel}

/-- The answer of a comparison function decides the relation of the numbers compared. -/
theorem decided_viaCmp
    (hl : ir2cArithRelationsStep R .result .first a.type .second b.type =
      viaCmp .result f args R')
    (hc : (startRel a b).compared f args = some (c, d)) :
    decided g R a b = some (decide (R'.Holds c d)) := by
  rw [decided, hl]
  simp [viaCmp, runRel, RelStmt.exec, hc, RelStore.set, RelStore.sign?, RelStore.bool?, g.holds_cmp]

theorem some_decide_iff {p q : Prop} [Decidable p] [Decidable q] :
    some (decide p) = some (decide q) ↔ (p ↔ q) := by
  rw [Option.some_inj, decide_eq_decide]

theorem decided_iff_of_cmp
    (hl : ir2cArithRelationsStep R .result .first a.type .second b.type = viaCmp .result f args R)
    (hc : (startRel a b).compared f args = some (a.value, b.value)) :
    decided g R a b = some (decide (R.Holds a.value b.value)) :=
  decided_viaCmp hl hc

/-- The operands of the call are exchanged. -/
theorem decided_iff_of_swap
    (hl : ir2cArithRelationsStep R .result .first a.type .second b.type = viaCmp .result f args R)
    (hc : (startRel a b).compared f args = some (b.value, a.value)) :
    decided g R a b = some (decide (R.Holds a.value b.value)) ↔
      R = .eq ∨ R = .ne ∨ a.value = b.value := by
  rw [decided_viaCmp hl hc, some_decide_iff, Rel.holds_swap_iff]

/-- The operands of the call are exchanged, and the relation is negated. -/
theorem decided_iff_of_inverse
    (hl : ir2cArithRelationsStep R .result .first a.type .second b.type =
      viaCmp .result f args R.inverse)
    (hc : (startRel a b).compared f args = some (b.value, a.value)) :
    decided g R a b = some (decide (R.Holds a.value b.value)) ↔
      R = .eq ∨ R = .ne ∨ a.value ≠ b.value := by
  rw [decided_viaCmp hl hc, some_decide_iff, Rel.holds_inverse_iff]

end Decided

/-- Two integers of fixed width are compared by an operator of C. -/
theorem decided_assign {v w : Val}
    (hl : ir2cArithRelationsStep R .result .first (.int (.fix v.type)) .second
      (.int (.fix w.type)) = [.assign .result (.var .first) R (.var .second)])
    (hv : (usual v.type w.type).InRange v.val) (hw : (usual v.type w.type).InRange w.val) :
    decided g R (.int (.fix v)) (.int (.fix w)) = some (decide (R.Holds (v.val : ℚ) w.val)) := by
  have hd : decided g R (.int (.fix v)) (.int (.fix w)) = some (relVal R v w) := by
    simp only [decided, Num.type, Datum.ctype, hl]
    simp [runRel, RelStmt.exec, RelExpr.eval, startRel, RelStore.set, RelStore.fix?, RelStore.bool?]
  rw [hd, Option.some_inj, Bool.eq_iff_iff, relVal_iff hv hw, decide_eq_true_iff, holds_intCast]

theorem relVal_lt_zero {w : Width} {b : ℤ} {hb : (int w).InRange b}
    {h0 : (int .w32).InRange 0} :
    relVal .lt ⟨.int w, b, hb⟩ ⟨.int .w32, 0, h0⟩ = decide (b < 0) := by
  have hz : ((int w).usual (int .w32)).InRange 0 := by
    cases w <;> decide
  rw [Bool.eq_iff_iff, decide_eq_true_iff]
  exact relVal_iff (R := .lt) (inRange_usual_int_int hb) hz

theorem wrap_uint (w : Width) (b : ℤ) : (uint w).wrap b = b % 2 ^ w.bits := by
  simp [wrap, IntType.min, card, bits, width]

/-- The relation of `a` to `b` after the cast of `b` to the type of `a`. -/
theorem Rel.holds_emod_iff {w : Width} {a b : ℤ} (ha : (uint w).InRange a) (hb : 0 ≤ b) (R : Rel) :
    (R.Holds a (b % 2 ^ w.bits) ↔ R.Holds a b) ↔
      b < 2 ^ w.bits ∨ R.Survives a (b % 2 ^ w.bits) := by
  have ha' : a < 2 ^ w.bits := by simpa [card, bits, width, IntType.min] using ha.2
  by_cases h : b < 2 ^ w.bits
  · simp [Int.emod_eq_of_lt hb h, h]
  · have hab : a < b := by omega
    cases R <;> simp [Holds, Survives, h, hab, hab.le, hab.ne, hab.not_ge, hab.not_gt]

theorem decided_int_uint {v w : Width} {a b : ℤ} (ha : (int v).InRange a)
    (hb : (uint w).InRange b) :
    decided g R (.int (.fix ⟨.int v, a, ha⟩)) (.int (.fix ⟨.uint w, b, hb⟩)) =
        some (decide (R.Holds (a : ℚ) b)) ↔ 0 ≤ a ∨ R ≠ .ne := by
  have hb0 := (inRange_u64_of_uint hb).1
  by_cases h : a < 0
  · have hd : decided g R (.int (.fix ⟨.int v, a, ha⟩)) (.int (.fix ⟨.uint w, b, hb⟩)) =
        some (decide (R = .lt ∨ R = .le)) := by
      simp [decided, Num.type, Datum.ctype, ir2cArithRelationsStep, runRel, RelStmt.exec, startRel,
        RelStore.set, RelStore.fix?, RelStore.bool?, relVal_lt_zero, h]
    have hab : a < b := by omega
    rw [hd, some_decide_iff, holds_intCast]
    cases R <;> simp [Rel.Holds, h, hab, hab.le, hab.ne, hab.not_ge, hab.not_gt]
  · have hd : decided g R (.int (.fix ⟨.int v, a, ha⟩)) (.int (.fix ⟨.uint w, b, hb⟩)) =
        some (relVal R ⟨.int v, a, ha⟩ ⟨.uint w, b, hb⟩) := by
      simp [decided, Num.type, Datum.ctype, ir2cArithRelationsStep, runRel, RelStmt.exec, startRel,
        RelExpr.eval, RelStore.set, RelStore.fix?, RelStore.bool?, relVal_lt_zero, h]
    rw [hd, Option.some_inj, Bool.eq_iff_iff, decide_eq_true_iff, holds_intCast,
      relVal_iff (inRange_usual_mixed ha (not_lt.1 h)) (inRange_usual_mixed' hb)]
    simp [not_lt.1 h]

theorem decided_uint_int {v w : Width} {a b : ℤ} (ha : (uint v).InRange a)
    (hb : (int w).InRange b) :
    decided g R (.int (.fix ⟨.uint v, a, ha⟩)) (.int (.fix ⟨.int w, b, hb⟩)) =
        some (decide (R.Holds (a : ℚ) b)) ↔
      if b < 0 then R ≠ .eq else b < 2 ^ v.bits ∨ R.Survives a (b % 2 ^ v.bits) := by
  have ha0 := (inRange_u64_of_uint ha).1
  by_cases h : b < 0
  · have hd : decided g R (.int (.fix ⟨.uint v, a, ha⟩)) (.int (.fix ⟨.int w, b, hb⟩)) =
        some (decide (¬(R = .lt ∨ R = .le))) := by
      simp [decided, Num.type, Datum.ctype, ir2cArithRelationsStep, runRel, RelStmt.exec, startRel,
        RelStore.set, RelStore.fix?, RelStore.bool?, relVal_lt_zero, h]
    have hab : b < a := by omega
    rw [hd, some_decide_iff, holds_intCast, if_pos h]
    cases R <;> simp [Rel.Holds, hab, hab.le, hab.ne', hab.not_ge, hab.not_gt]
  · have hd : decided g R (.int (.fix ⟨.uint v, a, ha⟩)) (.int (.fix ⟨.int w, b, hb⟩)) =
        some (relVal R ⟨.uint v, a, ha⟩ (Val.conv (.uint v) ⟨.int w, b, hb⟩)) := by
      simp [decided, Num.type, Datum.ctype, ir2cArithRelationsStep, runRel, RelStmt.exec, startRel,
        RelExpr.eval, RelStore.set, RelStore.fix?, RelStore.bool?, relVal_lt_zero, h]
    rw [hd, Option.some_inj, Bool.eq_iff_iff, decide_eq_true_iff, holds_intCast, if_neg h,
      relVal_iff (inRange_usual_uint v ha) (inRange_usual_uint v (wrap_inRange _ _)), Val.conv_val,
      wrap_uint, Rel.holds_emod_iff ha (not_lt.1 h)]

end Lemmas

/-- The statements decide the relation just for the numbers of `RelExact`. -/
theorem decided_iff (g : Gmp) (R : Rel) (a b : Num) :
    decided g R a b = some (decide (R.Holds a.value b.value)) ↔ RelExact R a b := by
  rcases a with ((⟨v | v, a, ha⟩ | a) | a) <;> rcases b with ((⟨w | w, b, hb⟩ | b) | b)
  · refine iff_of_true (decided_assign rfl ?_ ?_) trivial
    · exact inRange_usual_uint w ha
    · rw [usual_comm]
      exact inRange_usual_uint v hb
  · exact decided_uint_int ha hb
  · refine (decided_iff_of_swap rfl ?_).trans ?_
    · simp [RelStore.compared, RelStore.arg, RelStore.mpz?, RelStore.fix?, startRel,
        wrap_u64_uint ha, Num.value, Datum.value]
    · simp [RelExact, Num.value, Datum.value]
  · refine (decided_iff_of_swap rfl ?_).trans ?_
    · simp [RelStore.compared, RelStore.arg, RelStore.mpq?, RelStore.fix?, startRel,
        wrap_u64_uint ha, Num.value, Datum.value]
    · rfl
  · exact decided_int_uint ha hb
  · refine iff_of_true (decided_assign rfl ?_ ?_) trivial
    · exact inRange_usual_int_int ha
    · rw [usual_comm]
      exact inRange_usual_int_int hb
  · simp [decided, Num.type, Datum.ctype, ir2cArithRelationsStep, viaCmp, runRel, RelStmt.exec,
      RelStore.compared, RelExact]
  · refine (decided_iff_of_inverse rfl ?_).trans ?_
    · simp [RelStore.compared, RelStore.arg, RelStore.mpq?, RelStore.fix?, startRel,
        wrap_i64_int ha, Num.value, Datum.value]
    · rfl
  · refine iff_of_true (decided_iff_of_cmp rfl ?_) trivial
    simp [mpzCmpAs, RelStore.compared, RelStore.arg, RelStore.mpz?, RelStore.fix?, startRel,
      wrap_u64_uint hb, Num.value, Datum.value]
  · refine iff_of_true (decided_iff_of_cmp rfl ?_) trivial
    simp [mpzCmpAs, RelStore.compared, RelStore.arg, RelStore.mpz?, RelStore.fix?, startRel,
      wrap_i64_int hb, Num.value, Datum.value]
  · refine iff_of_true (decided_iff_of_cmp rfl ?_) trivial
    simp [RelStore.compared, RelStore.mpz?, startRel, Num.value, Datum.value]
  · refine (decided_iff_of_inverse rfl ?_).trans ?_
    · simp [RelStore.compared, RelStore.mpz?, RelStore.mpq?, startRel, Num.value, Datum.value]
    · rfl
  · refine iff_of_true (decided_iff_of_cmp rfl ?_) trivial
    simp [mpqCmpAs, RelStore.compared, RelStore.arg, RelStore.mpq?, RelStore.fix?, startRel,
      wrap_u64_uint hb, Num.value, Datum.value]
  · refine iff_of_true (decided_iff_of_cmp rfl ?_) trivial
    simp [mpqCmpAs, RelStore.compared, RelStore.arg, RelStore.mpq?, RelStore.fix?, startRel,
      wrap_i64_int hb, Num.value, Datum.value]
  · refine iff_of_true (decided_iff_of_cmp rfl ?_) trivial
    simp [RelStore.compared, RelStore.mpz?, RelStore.mpq?, startRel, Num.value, Datum.value]
  · refine iff_of_true (decided_iff_of_cmp rfl ?_) trivial
    simp [RelStore.compared, RelStore.mpq?, startRel, Num.value]

/-- The comparison functions as GMP has them, with `-1`, `0` and `1`. -/
def Gmp.sign : Gmp where
  cmp _ a b := if a < b then -1 else if b < a then 1 else 0
  cmp_neg_iff _ a b := by
    split
    · simp [*]
    · split <;> simp [*]
  cmp_pos_iff _ a b := by
    split
    · simp [*, le_of_lt]
    · split <;> simp [*]

/-- `uint8 == int8` answers `true` for `5` and `-1`. -/
theorem not_decided_eq :
    ¬∀ (g : Gmp) (R : Rel) (a b : Num),
      decided g R a b = some (decide (R.Holds a.value b.value)) := by
  intro h
  have hc := h .sign .eq (.int (.fix ⟨.uint .w8, 5, by decide⟩))
    (.int (.fix ⟨.int .w8, -1, by decide⟩))
  revert hc
  decide

end PVS.GroundEval
