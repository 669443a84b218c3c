import Mathlib.Tactic.Tauto
import PVS.GroundEval.Ir2c

/-! The loops that `pvs2ir.lisp` emits for quantifiers over subranges. -/

namespace PVS.GroundEval

open PVS.Library.CInt PVS.Library.CInt.IntType

namespace Quantifier

/-! ### Bounds -/

/-- An expression for a bound; the offset of an `ir-offset` is -1 for `below` and 0 for `upto`. -/
inductive BoundExpr (Env : Type)
  | expr (e : Env → ℤ)
  | offset (e : Env → ℤ) (offset : ℤ) (made : offset = -1 ∨ offset = 0)

variable {Env : Type}

def BoundExpr.value (env : Env) : BoundExpr Env → ℤ
  | expr e => e env
  | offset e k _ => e env + k

def BoundExpr.isOffset : BoundExpr Env → Bool
  | expr _ => false
  | offset _ _ _ => true

/-- `ir-subrange`, with what `check-quantifier-subrange` asks for. -/
structure IrSubrange (Env : Type) where
  irLow : ℤ
  irHigh : ℤ
  irLowExpr : Option (BoundExpr Env)
  irHighExpr : Option (BoundExpr Env)
  low_nonneg : 0 ≤ irLow
  high_lt : irHigh < 2 ^ 32

namespace IrSubrange

variable (t : IrSubrange Env) (env : Env)

def low : ℤ := t.irLowExpr.elim t.irLow (BoundExpr.value env)

def high : ℤ := t.irHighExpr.elim t.irHigh (BoundExpr.value env)

def width : Width := if t.irHigh ≤ 255 then .w8 else if t.irHigh ≤ 65535 then .w16 else .w32

/-- `ir2c-type` -/
def ctype : IntType := .uint t.width

end IrSubrange

/-! ### Statements -/

inductive LoopVar
  | low | high
  deriving DecidableEq

/-- The statements around the loop and in it. The code for an expression assigns its value. -/
inductive Instr (Env : Type)
  | decl (T : IntType) (x : LoopVar)
  | setReturn (b : Bool)
  | assignConst (x : LoopVar) (T : IntType) (z : ℤ)
  | assign (x : LoopVar) (e : Env → ℤ)
  | addTo (x : LoopVar) (z : ℤ)
  /-- The code for the body of the quantifier. -/
  | body (f : Env → ℤ → Bool)
  /-- `if (return_var == b) break` -/
  | breakIf (b : Bool)

inductive LoopStmt (Env : Type)
  | instr (i : Instr Env)
  /-- `for (uint32_t index = lo; index < hi; index++)` -/
  | forLoop (lo hi : LoopVar) (body : List (Instr Env))

structure LoopStore where
  ret : Option Bool
  cell : LoopVar → Option Cell
  index : Option Val

namespace LoopStore

def val? (s : LoopStore) (x : LoopVar) : Option Val :=
  match s.cell x with
  | some (.data (.fix v)) => some v
  | _ => none

def set (s : LoopStore) (x : LoopVar) (c : Cell) : LoopStore :=
  { s with cell := Function.update s.cell x (some c) }

/-- An assignment converts to the type of the variable. -/
def assign (s : LoopStore) (x : LoopVar) (z : ℤ) : Option LoopStore :=
  match s.cell x with
  | some (.uninit (.fix T)) | some (.data (.fix ⟨T, _, _⟩)) =>
    some (s.set x (.data (.fix ⟨T, T.wrap z, T.wrap_inRange z⟩)))
  | _ => none

end LoopStore

def intLiteral (z : ℤ) : Option Val :=
  if h : (IntType.int .w32).InRange z then some ⟨.int .w32, z, h⟩ else none

/-- With whether a `break` ends the loop; `none` where C does not define the run. -/
def Instr.exec (env : Env) : Instr Env → LoopStore → Option (Bool × LoopStore)
  | decl T x, s => some (false, s.set x (.uninit (.fix T)))
  | setReturn b, s => some (false, { s with ret := some b })
  | assignConst x T z, s => (s.assign x (T.wrap z)).map (false, ·)
  | assign x e, s => (s.assign x (e env)).map (false, ·)
  | addTo x z, s => do
    let v ← (← s.val? x).add (← intLiteral z)
    (s.assign x v.val).map (false, ·)
  | body f, s => do
    let i ← s.index
    return (false, { s with ret := some (f env i.val) })
  | breakIf b, s => do return ((← s.ret) == b, s)

def execAll (env : Env) : List (Instr Env) → LoopStore → Option (Bool × LoopStore)
  | [], s => some (false, s)
  | i :: l, s => do
    let (stop, s) ← i.exec env s
    if stop then some (true, s) else execAll env l s

/-- The fuel is the number of comparisons of the index. -/
def forRun (env : Env) (hi : LoopVar) (body : List (Instr Env)) : ℕ → LoopStore → Option LoopStore
  | 0, _ => none
  | n + 1, s => do
    let i ← s.index
    let h ← s.val? hi
    if i.lt h then
      let (stop, s) ← execAll env body s
      if stop then some s
      else
        let i ← (← s.index).add (← intLiteral 1)
        forRun env hi body n { s with index := some (i.conv (.uint .w32)) }
    else some s

def LoopStmt.exec (n : ℕ) (env : Env) : LoopStmt Env → LoopStore → Option LoopStore
  | instr i, s => (i.exec env s).map Prod.snd
  | forLoop lo hi body, s => do
    let l ← s.val? lo
    forRun env hi body n { s with index := some (l.conv (.uint .w32)) }

def run (n : ℕ) (env : Env) : List (LoopStmt Env) → LoopStore → Option LoopStore
  | [], s => some s
  | c :: l, s => do run n env l (← c.exec n env s)

/-! ### What is emitted -/

def BoundExpr.ir2c (x : LoopVar) : BoundExpr Env → List (Instr Env)
  | expr e => [.assign x e]
  | offset e k _ => [.assign x e, .addTo x (k + 1)]

def lowInstrs (t : IrSubrange Env) : List (Instr Env) :=
  match t.irLowExpr with
  | some e => e.ir2c .low
  | none => [.assignConst .low t.ctype t.irLow]

def highInstrs (t : IrSubrange Env) : List (Instr Env) :=
  match t.irHighExpr with
  | some e => e.ir2c .high
  -- The format directive is given `lowvar`.
  | none => [.assignConst .low t.ctype t.irHigh]

/-- `ir2c*` of `ir-forall` and `ir-exists`, where the return variable starts as `unit`. -/
def ir2cQuantifier (unit : Bool) (t : IrSubrange Env) (body : Env → ℤ → Bool) :
    List (LoopStmt Env) :=
  let preludeInstrs := [.decl t.ctype .low, .decl t.ctype .high, .setReturn unit]
  (preludeInstrs ++ lowInstrs t ++ highInstrs t).map .instr ++
    [.forLoop .low .high [.body body, .breakIf (!unit)]]

def ir2cForall (t : IrSubrange Env) (body : Env → ℤ → Bool) : List (LoopStmt Env) :=
  ir2cQuantifier true t body

def ir2cExists (t : IrSubrange Env) (body : Env → ℤ → Bool) : List (LoopStmt Env) :=
  ir2cQuantifier false t body

/-! ### Limits of the loop -/

/-- What is added to the bound in the code for it. -/
def BoundExpr.extra (e : BoundExpr Env) : ℤ := if e.isOffset then 1 else 0

namespace IrSubrange

def lowExtra (t : IrSubrange Env) : ℤ := t.irLowExpr.elim 0 BoundExpr.extra

/-- The index where the loop starts. -/
def start (t : IrSubrange Env) (env : Env) : ℤ := t.ctype.wrap (t.low env + t.lowExtra)

end IrSubrange

/-- The cell that holds `z` as far as its type allows. -/
def cellOf (T : IntType) (z : ℤ) : Cell := .data (.fix ⟨T, T.wrap z, T.wrap_inRange z⟩)

theorem cellOf_congr {T : IntType} {y z : ℤ} (h : y ≡ z [ZMOD T.card]) : cellOf T y = cellOf T z := by
  simp only [cellOf, wrap_congr h]

section

variable {env : Env} {s : LoopStore} {T : IntType} {x : LoopVar} {w : Width}

theorem cell_set (s : LoopStore) (x : LoopVar) (c : Cell) : (s.set x c).cell x = some c :=
  Function.update_self ..

theorem cell_set_of_ne {y : LoopVar} (h : y ≠ x) (c : Cell) : (s.set x c).cell y = s.cell y :=
  Function.update_of_ne h ..

theorem set_set_cell (s : LoopStore) (x : LoopVar) (c c' : Cell) :
    (s.set x c).set x c' = s.set x c' := by
  simp only [LoopStore.set, Function.update_idem]

theorem assign_uninit (hs : s.cell x = some (.uninit (.fix T))) (z : ℤ) :
    s.assign x z = some (s.set x (cellOf T z)) := by
  rw [LoopStore.assign, hs]
  rfl

theorem assign_cellOf {y : ℤ} (hs : s.cell x = some (cellOf T y)) (z : ℤ) :
    s.assign x z = some (s.set x (cellOf T z)) := by
  rw [LoopStore.assign, hs]
  rfl

theorem run_append (n : ℕ) (env : Env) (l l' : List (LoopStmt Env)) (s : LoopStore) :
    run n env (l ++ l') s = (run n env l s).bind (run n env l') := by
  induction l generalizing s with
  | nil => rfl
  | cons c l ih =>
    rw [List.cons_append, run, run]
    cases c.exec n env s with
    | none => rfl
    | some s' => exact ih s'

/-- The type is unsigned, so that a sum is right modulo its size. -/
theorem add_literal {v : Val} (hv : v.type = .uint w) {z : ℤ} (hz : z = 0 ∨ z = 1) :
    ∃ i r, intLiteral z = some i ∧ v.add i = some r ∧ r.val ≡ v.val + z [ZMOD (IntType.uint w).card] := by
  have hlit : (IntType.int .w32).InRange z := by
    rcases hz with rfl | rfl <;> decide
  have hin := v.inRange
  rw [hv] at hin
  have hadd := Val.add_eq v ⟨.int .w32, z, hlit⟩
  rw [hv] at hadd
  have hdef : ∃ r, Val.arith ((IntType.uint w).usual (.int .w32)) (v.val + z) = some r ∧
      r.val ≡ v.val + z [ZMOD (IntType.uint w).card] := by
    by_cases hbits : w.bits < 32
    · have hsum : (IntType.int .w32).InRange (v.val + z) := by
        cases w <;> simp [InRange, IntType.min, card, bits, IntType.width, Width.bits] at hbits hin ⊢ <;>
          omega
      have husual : (IntType.uint w).usual (.int .w32) = .int .w32 := by
        cases w <;> first | rfl | simp [Width.bits] at hbits
      rw [husual, Val.arith_of_inRange hsum]
      exact ⟨_, rfl, rfl⟩
    · have husual : (IntType.uint w).usual (.int .w32) = .uint w := by
        cases w <;> first | rfl | simp [Width.bits] at hbits
      rw [husual, Val.arith_unsigned rfl]
      exact ⟨_, rfl, wrap_modEq _ _⟩
  obtain ⟨r, hr, hmod⟩ := hdef
  exact ⟨_, r, dif_pos hlit, hadd.trans hr, hmod⟩

/-- The code for a bound leaves its value, and 1 more if it has an offset. -/
theorem run_boundExpr (n : ℕ) (e : BoundExpr Env) (hs : s.cell x = some (.uninit (.fix (.uint w)))) :
    run n env ((e.ir2c x).map .instr) s =
      some (s.set x (cellOf (.uint w) (e.value env + e.extra))) := by
  cases e with
  | expr e =>
    have hvalue : (BoundExpr.expr e).value env + (BoundExpr.expr e).extra = e env := add_zero _
    rw [hvalue]
    simp [BoundExpr.ir2c, run, LoopStmt.exec, Instr.exec, assign_uninit hs]
  | offset e k made =>
    have hz : k + 1 = 0 ∨ k + 1 = 1 := by omega
    obtain ⟨i, r, hlit, hadd, hmod⟩ := add_literal (w := w)
      (v := ⟨.uint w, (IntType.uint w).wrap (e env), wrap_inRange _ _⟩) rfl hz
    have hcell := cell_set s x (cellOf (.uint w) (e env))
    have hval : (s.set x (cellOf (.uint w) (e env))).val? x =
        some ⟨.uint w, (IntType.uint w).wrap (e env), wrap_inRange _ _⟩ := by
      rw [LoopStore.val?, hcell]
      rfl
    have hvalue : (BoundExpr.offset e k made).value env + (BoundExpr.offset e k made).extra =
        e env + (k + 1) := add_assoc _ _ _
    have hcong : cellOf (.uint w) r.val = cellOf (.uint w) (e env + (k + 1)) := by
      apply cellOf_congr
      exact hmod.trans ((wrap_modEq _ _).add_right _)
    rw [hvalue, ← hcong]
    simp [BoundExpr.ir2c, run, LoopStmt.exec, Instr.exec, assign_uninit hs, hval, hlit, hadd,
      assign_cellOf hcell, set_set_cell]

/-! ### The loop -/

theorem lt_of_uint {u v : Val} {k m : Width} (hu : u.type = .uint k) (hv : v.type = .uint m) :
    u.lt v = decide (u.val < v.val) := by
  have hu' := u.inRange
  have hv' := v.inRange
  rw [hu] at hu'
  rw [hv] at hv'
  have hmu := inRange_usual_uint m hu'
  have hmv := inRange_usual_uint k hv'
  rw [usual_comm] at hmv
  simp only [Val.lt, hu, hv, Val.conv_val, wrap_eq_self hmu, wrap_eq_self hmv]

/-- The index as far as 32 bits hold it. -/
def indexVal (z : ℤ) : Val := ⟨.uint .w32, (IntType.uint .w32).wrap z, wrap_inRange _ _⟩

theorem indexVal_congr {y z : ℤ} (h : y ≡ z [ZMOD (IntType.uint .w32).card]) :
    indexVal y = indexVal z := by
  simp only [indexVal, wrap_congr h]

def loopBody (unit : Bool) (f : Env → ℤ → Bool) : List (Instr Env) := [.body f, .breakIf (!unit)]

variable {unit : Bool} {f : Env → ℤ → Bool} {h z : ℤ}

theorem forRun_step (hz : (IntType.uint .w32).InRange z)
    (hindex : s.index = some (indexVal z)) (hcell : s.cell .high = some (cellOf (.uint w) h))
    (n : ℕ) : forRun env .high (loopBody unit f) (n + 1) s =
      if z < (IntType.uint w).wrap h then
        if f env z = unit then
          forRun env .high (loopBody unit f) n
            { s with ret := some unit, index := some (indexVal (z + 1)) }
        else some { s with ret := some (!unit) }
      else some s := by
  have hval : s.val? .high = some ⟨.uint w, (IntType.uint w).wrap h, wrap_inRange _ _⟩ := by
    rw [LoopStore.val?, hcell]
    rfl
  have hwrap : (IntType.uint .w32).wrap z = z := wrap_eq_self hz
  have hlt := lt_of_uint (u := indexVal z) (k := .w32)
    (v := ⟨.uint w, (IntType.uint w).wrap h, wrap_inRange _ _⟩) (m := w) rfl rfl
  have hz' : (indexVal z).val = z := hwrap
  rw [hz'] at hlt
  obtain ⟨i, r, hlit, hadd, hmod⟩ := add_literal (w := .w32) (v := indexVal z) rfl (.inr rfl)
  have hnext : r.conv (.uint .w32) = indexVal (z + 1) := by
    have hmod' := hmod.trans (((wrap_modEq _ z).add_right 1))
    exact Val.ext rfl (wrap_congr hmod')
  rw [forRun, hindex, hval]
  simp only [Option.bind_eq_bind, Option.bind_some, hlt, decide_eq_true_eq]
  split
  · cases hf : f env z == unit <;> cases unit <;>
      simp_all [loopBody, execAll, Instr.exec]
  · rfl

theorem inRange_next (hw : w.bits ≤ 32) (hz : (IntType.uint .w32).InRange z)
    (hlt : z < (IntType.uint w).wrap h) : (IntType.uint .w32).InRange (z + 1) := by
  have hstop : (IntType.uint .w32).InRange ((IntType.uint w).wrap h) :=
    inRange_uint_mono hw (wrap_inRange _ _)
  simp only [InRange, IntType.min] at hz hstop ⊢
  omega

/-- A loop that ends has the unit if the body is the unit everywhere. -/
theorem forRun_spec (hw : w.bits ≤ 32) {n : ℕ} {s' : LoopStore} (hz : (IntType.uint .w32).InRange z)
    (hindex : s.index = some (indexVal z)) (hcell : s.cell .high = some (cellOf (.uint w) h))
    (hret : s.ret = some unit) (hrun : forRun env .high (loopBody unit f) n s = some s') :
    ∃ b, s'.ret = some b ∧
      (b = unit ↔ ∀ j, z ≤ j → j < (IntType.uint w).wrap h → f env j = unit) := by
  induction n generalizing s z with
  | zero => cases hrun
  | succ n ih =>
    rw [forRun_step hz hindex hcell] at hrun
    split at hrun
    · rename_i hlt
      split at hrun
      · rename_i hf
        obtain ⟨b, hb, hiff⟩ := ih (s := { s with ret := some unit, index := some (indexVal (z + 1)) })
          (inRange_next hw hz hlt) rfl hcell rfl hrun
        refine ⟨b, hb, hiff.trans ⟨fun hall j hj hstop => ?_, fun hall j hj => hall j (by omega)⟩⟩
        by_cases e : j = z
        · rw [e, hf]
        · exact hall j (by omega) hstop
      · rename_i hf
        cases hrun
        refine ⟨!unit, rfl, iff_of_false (by cases unit <;> decide) fun hall => ?_⟩
        exact hf (hall z (Int.le_refl z) hlt)
    · rename_i hlt
      cases hrun
      exact ⟨unit, hret, iff_of_true rfl fun j hj hstop => by omega⟩

/-- The loop ends: each run of the body brings the index closer to its limit. -/
theorem forRun_returns (hw : w.bits ≤ 32) (k : ℕ) (hz : (IntType.uint .w32).InRange z)
    (hk : (IntType.uint w).wrap h - z ≤ k) (hindex : s.index = some (indexVal z))
    (hcell : s.cell .high = some (cellOf (.uint w) h)) :
    ∃ s', forRun env .high (loopBody unit f) (k + 1) s = some s' := by
  induction k generalizing s z with
  | zero =>
    rw [forRun_step hz hindex hcell, if_neg (by simp only [Nat.cast_zero] at hk; omega)]
    exact ⟨s, rfl⟩
  | succ k ih =>
    rw [forRun_step hz hindex hcell]
    split
    · rename_i hlt
      split
      · exact ih (s := { s with ret := some unit, index := some (indexVal (z + 1)) })
          (inRange_next hw hz hlt) (by push_cast at hk; omega) rfl hcell
      · exact ⟨_, rfl⟩
    · exact ⟨_, rfl⟩

end

/-! ### What the loop decides -/

/-- The loop ends with the value of the quantifier over the integers between the bounds. -/
def DecidesForall (t : IrSubrange Env) (env : Env) (s : LoopStore) (f : Env → ℤ → Bool) : Prop :=
  ∃ n s' b, run n env (ir2cForall t f) s = some s' ∧ s'.ret = some b ∧
    (b = true ↔ ∀ i, t.low env ≤ i → i ≤ t.high env → f env i = true)

def DecidesExists (t : IrSubrange Env) (env : Env) (s : LoopStore) (f : Env → ℤ → Bool) : Prop :=
  ∃ n s' b, run n env (ir2cExists t f) s = some s' ∧ s'.ret = some b ∧
    (b = true ↔ ∃ i, t.low env ≤ i ∧ i ≤ t.high env ∧ f env i = true)

/-- The bounds give the limits of the loop. The limit for an upper bound without an offset is 1 too
small, and that for a lower bound with one is 1 too large, which does no harm if the range is empty
and the limits are not exchanged modulo the size of their type. -/
def LimitsRight (t : IrSubrange Env) (env : Env) : Prop :=
  ∃ e, t.irHighExpr = some e ∧
    if t.low env ≤ t.high env then
      t.lowExtra = 0 ∧ e.isOffset ∧ t.ctype.InRange (t.low env) ∧ t.ctype.InRange (t.high env + 1)
    else t.ctype.wrap (t.high env + e.extra) ≤ t.start env

section

variable (t : IrSubrange Env) (env : Env)

theorem width_le : t.width.bits ≤ 32 := by
  unfold IrSubrange.width
  split_ifs <;> decide

theorem run_lowInstrs (n : ℕ) {s : LoopStore} (hs : s.cell .low = some (.uninit (.fix t.ctype))) :
    run n env ((lowInstrs t).map .instr) s = some (s.set .low (cellOf t.ctype (t.low env + t.lowExtra))) := by
  unfold lowInstrs IrSubrange.low IrSubrange.lowExtra
  cases t.irLowExpr with
  | some e => exact run_boundExpr n e hs
  | none =>
    have hconst : cellOf t.ctype (t.ctype.wrap t.irLow) = cellOf t.ctype (t.irLow + 0) := by
      apply cellOf_congr
      rw [add_zero]
      exact wrap_modEq _ _
    simp [run, LoopStmt.exec, Instr.exec, assign_uninit hs, hconst]

/-- After the prelude. -/
def declared (unit : Bool) (s : LoopStore) : LoopStore :=
  { (s.set .low (.uninit (.fix t.ctype))).set .high (.uninit (.fix t.ctype)) with ret := some unit }

/-- Before the loop, if there is an expression for the upper bound. -/
def atLoop (unit : Bool) (e : BoundExpr Env) (s : LoopStore) : LoopStore :=
  { ((declared t unit s).set .low (cellOf t.ctype (t.low env + t.lowExtra))).set .high
      (cellOf t.ctype (e.value env + e.extra)) with index := some (indexVal (t.start env)) }

theorem run_prelude (unit : Bool) (n : ℕ) (s : LoopStore) :
    run n env ([.decl t.ctype .low, .decl t.ctype .high, .setReturn unit].map .instr) s =
      some (declared t unit s) := rfl

theorem cell_low_declared (unit : Bool) (s : LoopStore) :
    (declared t unit s).cell .low = some (.uninit (.fix t.ctype)) := rfl

theorem cell_high_declared (unit : Bool) (s : LoopStore) :
    (declared t unit s).cell .high = some (.uninit (.fix t.ctype)) := rfl

variable (unit : Bool) (f : Env → ℤ → Bool) (n : ℕ) (s : LoopStore)

/-- Without an expression for the upper bound, its variable has no value when it is compared. -/
theorem run_const (hhigh : t.irHighExpr = none) : run n env (ir2cQuantifier unit t f) s = none := by
  have hhighInstrs : highInstrs t = [.assignConst .low t.ctype t.irHigh] := by
    rw [highInstrs, hhigh]
  have hassign := assign_cellOf (cell_set (declared t unit s) .low
    (cellOf t.ctype (t.low env + t.lowExtra))) (t.ctype.wrap t.irHigh)
  rw [ir2cQuantifier, List.map_append, List.map_append, run_append, run_append, run_append,
    run_prelude, Option.bind_some, run_lowInstrs t env n (cell_low_declared t unit s),
    Option.bind_some, hhighInstrs]
  simp only [List.map_cons, List.map_nil, run, LoopStmt.exec, Instr.exec, hassign, Option.map_some,
    Option.bind_eq_bind, Option.bind_some, set_set_cell]
  cases n with
  | zero => cases ((declared t unit s).set .low (cellOf t.ctype (t.ctype.wrap t.irHigh))).val? .low <;> rfl
  | succ n => rfl

theorem run_expr {e : BoundExpr Env} (hhigh : t.irHighExpr = some e) :
    run n env (ir2cQuantifier unit t f) s =
      forRun env .high (loopBody unit f) n (atLoop t env unit e s) := by
  have hhighInstrs : highInstrs t = e.ir2c .high := by
    rw [highInstrs, hhigh]
  have hcell : ((declared t unit s).set .low (cellOf t.ctype (t.low env + t.lowExtra))).cell .high =
      some (.uninit (.fix t.ctype)) :=
    (cell_set_of_ne (by decide) _).trans (cell_high_declared t unit s)
  rw [ir2cQuantifier, List.map_append, List.map_append, run_append, run_append, run_append,
    run_prelude, Option.bind_some, run_lowInstrs t env n (cell_low_declared t unit s),
    Option.bind_some, hhighInstrs, run_boundExpr n e hcell, Option.bind_some]
  have hloop : run n env [.forLoop .low .high (loopBody unit f)]
      (((declared t unit s).set .low (cellOf t.ctype (t.low env + t.lowExtra))).set .high
        (cellOf t.ctype (e.value env + e.extra))) =
      (forRun env .high (loopBody unit f) n (atLoop t env unit e s)).bind some := rfl
  exact hloop.trans (Option.bind_fun_some _)

theorem inRange_start : (IntType.uint .w32).InRange (t.start env) :=
  inRange_uint_mono (width_le t) (wrap_inRange _ _)

theorem high_eq {e : BoundExpr Env} (hhigh : t.irHighExpr = some e) : t.high env = e.value env := by
  rw [IrSubrange.high, hhigh]
  rfl

/-- The loop runs through the indices from its start to its limit. -/
theorem run_spec {e : BoundExpr Env} (hhigh : t.irHighExpr = some e) {s' : LoopStore}
    (hrun : run n env (ir2cQuantifier unit t f) s = some s') :
    ∃ b, s'.ret = some b ∧ (b = unit ↔ ∀ i, t.start env ≤ i →
      i < t.ctype.wrap (t.high env + e.extra) → f env i = unit) := by
  rw [run_expr t env unit f n s hhigh] at hrun
  rw [high_eq t env hhigh]
  exact forRun_spec (width_le t) (inRange_start t env) rfl rfl rfl hrun

theorem run_returns {e : BoundExpr Env} (hhigh : t.irHighExpr = some e) :
    ∃ n s', run n env (ir2cQuantifier unit t f) s = some s' := by
  obtain ⟨s', hs'⟩ : ∃ s', forRun env .high (loopBody unit f)
      ((t.ctype.wrap (e.value env + e.extra) - t.start env).toNat + 1) (atLoop t env unit e s) =
        some s' :=
    forRun_returns (width_le t) _ (inRange_start t env) (Int.self_le_toNat _) rfl rfl
  exact ⟨_, s', (run_expr t env unit f _ s hhigh).trans hs'⟩

/-- The same integers are between two pairs of bounds if the bounds are the same or there are none. -/
theorem between_iff {l h l' h' : ℤ} : (∀ i, l ≤ i ∧ i < h ↔ l' ≤ i ∧ i ≤ h') ↔
    if l' ≤ h' then l = l' ∧ h = h' + 1 else h ≤ l := by
  split
  · rename_i hle
    constructor
    · intro hiff
      have hlow := hiff l'
      have hhigh := hiff h'
      have hpred := hiff (l' - 1)
      have hsucc := hiff (h' + 1)
      omega
    · rintro ⟨rfl, rfl⟩ i
      omega
  · rename_i hlt
    constructor
    · intro hiff
      have hlow := hiff l
      omega
    · intro hle i
      omega

theorem not_modEq_succ (T : IntType) (z : ℤ) : ¬ z ≡ z + 1 [ZMOD T.card] := by
  intro h
  have hdvd := h.dvd
  rw [add_sub_cancel_left] at hdvd
  have hone := Int.eq_one_of_dvd_one T.card_pos.le hdvd
  cases T with
  | uint w => cases w <;> cases hone
  | int w => cases w <;> cases hone

theorem wrap_eq_low_iff {T : IntType} {z k : ℤ} (hk : k = 0 ∨ k = 1) :
    T.wrap (z + k) = z ↔ k = 0 ∧ T.InRange z := by
  rcases hk with rfl | rfl
  · rw [add_zero]
    exact ⟨fun h => ⟨rfl, h ▸ wrap_inRange T z⟩, fun h => wrap_eq_self h.2⟩
  · refine iff_of_false (fun h => ?_) (by simp)
    have hmod := wrap_modEq T (z + 1)
    rw [h] at hmod
    exact not_modEq_succ T z hmod

theorem wrap_eq_succ_iff {T : IntType} {z k : ℤ} (hk : k = 0 ∨ k = 1) :
    T.wrap (z + k) = z + 1 ↔ k = 1 ∧ T.InRange (z + 1) := by
  rcases hk with rfl | rfl
  · refine iff_of_false (fun h => ?_) (by simp)
    have hmod := wrap_modEq T (z + 0)
    rw [h, add_zero] at hmod
    exact not_modEq_succ T z hmod.symm
  · exact ⟨fun h => ⟨rfl, h ▸ wrap_inRange T _⟩, fun h => wrap_eq_self h.2⟩

theorem extra_cases (e : BoundExpr Env) : e.extra = 0 ∨ e.extra = 1 := by
  cases e with
  | expr e => exact .inl rfl
  | offset e k made => exact .inr rfl

theorem extra_eq_one_iff (e : BoundExpr Env) : e.extra = 1 ↔ e.isOffset = true := by
  unfold BoundExpr.extra
  cases e.isOffset <;> simp

theorem lowExtra_cases : t.lowExtra = 0 ∨ t.lowExtra = 1 := by
  unfold IrSubrange.lowExtra
  cases t.irLowExpr with
  | none => exact .inl rfl
  | some e => exact extra_cases e

/-- The limits are right if the loop runs through the integers between the bounds. -/
theorem limitsRight_iff : LimitsRight t env ↔ ∃ e, t.irHighExpr = some e ∧
    ∀ i, t.start env ≤ i ∧ i < t.ctype.wrap (t.high env + e.extra) ↔
      t.low env ≤ i ∧ i ≤ t.high env := by
  refine exists_congr fun e => and_congr_right fun _ => ?_
  rw [between_iff]
  split
  · rw [IrSubrange.start, wrap_eq_low_iff (lowExtra_cases t), wrap_eq_succ_iff (extra_cases e),
      extra_eq_one_iff]
    tauto
  · rfl

/-- A loop over other integers is wrong for a body that is not the unit at one of them. -/
theorem agree_iff {p q : ℤ → Prop} : (∀ f : Env → ℤ → Bool,
    (∀ i, p i → f env i = unit) ↔ ∀ i, q i → f env i = unit) ↔ ∀ i, p i ↔ q i := by
  constructor
  · intro h i
    have hi := h fun _ j => if j = i then !unit else unit
    have hne : (!unit) ≠ unit := by cases unit <;> decide
    have hpoint : ∀ r : ℤ → Prop,
        (∀ j, r j → (if j = i then !unit else unit) = unit) ↔ ¬ r i := by
      intro r
      refine ⟨fun hall hr => hne (by simpa using hall i hr), fun hr j hj => ?_⟩
      rw [if_neg fun e : j = i => hr (e ▸ hj)]
    rw [hpoint, hpoint, not_iff_not] at hi
    exact hi
  · intro h f
    simp only [h]

end

end Quantifier

end PVS.GroundEval
