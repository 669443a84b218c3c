import PVS.Library.CInt

/-! The C statements that `pvs2ir.lisp` emits for integer `+`, `-` and `*`, and what they do. The
rational type `mpq` and the 128-bit types, whose branches break, are left out. -/

namespace PVS.GroundEval

open PVS.Library.CInt PVS.Library.CInt.IntType

/-- The C types of the integers: those of fixed width and `mpz`. -/
inductive CType
  | fix (T : IntType)
  | mpz
  deriving DecidableEq

/-- A value of a C type. -/
inductive Datum
  | fix (v : Val)
  | mpz (z : ℤ)

def Datum.ctype : Datum → CType
  | fix v => .fix v.type
  | mpz _ => .mpz

def Datum.value : Datum → ℤ
  | fix v => v.val
  | mpz z => z

def CType.InRange : CType → ℤ → Prop
  | fix T, z => T.InRange z
  | mpz, _ => True

instance : (t : CType) → (z : ℤ) → Decidable (t.InRange z)
  | .fix T, z => inferInstanceAs (Decidable (T.InRange z))
  | .mpz, _ => .isTrue trivial

/-- The variables of the emitted statements; `tmp` is the one `gentemp` makes. -/
inductive Var
  | result | first | second | tmp
  deriving DecidableEq

inductive CExpr
  | var (x : Var)
  | zero
  | cast (T : IntType) (e : CExpr)
  | neg (e : CExpr)
  | add (e₁ e₂ : CExpr)
  | sub (e₁ e₂ : CExpr)
  | mul (e₁ e₂ : CExpr)
  | lt (e₁ e₂ : CExpr)
  | getUi (x : Var)
  | getSi (x : Var)
  /-- Two expressions with nothing between them, which is no expression. -/
  | juxt (e₁ e₂ : CExpr)

/-- What the function `mpz_f(x, ..)` of GMP or of `pvslib.c` stores in `x`. -/
inductive GmpOp
  | set (y : Var)
  | setUi (e : CExpr)
  | setSi (e : CExpr)
  | neg (y : Var)
  | add (y z : Var)
  | addUi (y : Var) (e : CExpr)
  | addSi (y : Var) (e : CExpr)
  | sub (y z : Var)
  | subUi (y : Var) (e : CExpr)
  | uiSub (e : CExpr) (z : Var)
  | siSub (e : CExpr) (z : Var)
  | mul (y z : Var)
  | mulUi (y : Var) (e : CExpr)
  | mulSi (y : Var) (e : CExpr)

inductive Stmt
  | decl (t : CType) (x : Var)
  | init (x : Var)
  | clear (x : Var)
  | assign (x : Var) (e : CExpr)
  | gmp (x : Var) (op : GmpOp)
  /-- `mpz_mk_f(x, ..)`: `x` is allocated and initialised first. -/
  | mk (x : Var) (op : GmpOp)
  | ite (c : CExpr) (s₁ s₂ : Stmt)
  /-- A call of a function or macro that is not declared with these arguments. -/
  | undeclared (f : String) (args : List CExpr)

/-- What a variable holds: it is declared first, and an `mpz` is initialised before its use. -/
inductive Cell
  | uninit (t : CType)
  | data (d : Datum)

abbrev Store := Var → Option Cell

namespace Store

def fix? (s : Store) (x : Var) : Option Val :=
  match s x with
  | some (.data (.fix v)) => some v
  | _ => none

def mpz? (s : Store) (x : Var) : Option ℤ :=
  match s x with
  | some (.data (.mpz z)) => some z
  | _ => none

def value? (s : Store) (x : Var) : Option ℤ :=
  match s x with
  | some (.data d) => some d.value
  | _ => none

def ctype? (s : Store) (x : Var) : Option CType :=
  match s x with
  | some (.uninit t) => some t
  | some (.data d) => some d.ctype
  | none => none

def set (s : Store) (x : Var) (c : Cell) : Store := Function.update s x (some c)

end Store

/-- `mpz_get_ui`: the least significant bits of the absolute value. -/
def mpz_get_ui (z : ℤ) : ℤ := |z| % 2 ^ 64

/-- `mpz_get_si`: the least significant bits with the sign of the number. -/
def mpz_get_si (z : ℤ) : ℤ := if 0 ≤ z then z % 2 ^ 63 else -1 - (-z - 1) % 2 ^ 63

theorem inRange_mpz_get_ui (z : ℤ) : (uint .w64).InRange (mpz_get_ui z) := by
  have h := Int.emod_nonneg |z| (show (2 : ℤ) ^ 64 ≠ 0 by norm_num)
  have h' := Int.emod_lt_of_pos |z| (show (0 : ℤ) < 2 ^ 64 by norm_num)
  simp only [InRange, IntType.min, card, bits, width, Width.bits, mpz_get_ui]
  omega

theorem inRange_mpz_get_si (z : ℤ) : (int .w64).InRange (mpz_get_si z) := by
  simp only [InRange, IntType.min, card, bits, width, Width.bits, mpz_get_si]
  split <;> omega

def CExpr.eval (s : Store) : CExpr → Option Val
  | var x => s.fix? x
  | zero => some ⟨int .w32, 0, by decide⟩
  | cast T e => (e.eval s).map (·.conv T)
  | neg e => do (← e.eval s).neg
  | add e₁ e₂ => do (← e₁.eval s).add (← e₂.eval s)
  | sub e₁ e₂ => do (← e₁.eval s).sub (← e₂.eval s)
  | mul e₁ e₂ => do (← e₁.eval s).mul (← e₂.eval s)
  | lt e₁ e₂ => do
    if (← e₁.eval s).lt (← e₂.eval s) then some ⟨int .w32, 1, by decide⟩
    else some ⟨int .w32, 0, by decide⟩
  | getUi x => (s.mpz? x).map fun z => ⟨uint .w64, mpz_get_ui z, inRange_mpz_get_ui z⟩
  | getSi x => (s.mpz? x).map fun z => ⟨int .w64, mpz_get_si z, inRange_mpz_get_si z⟩
  | juxt _ _ => none

/-- An argument of a C function whose parameter has type `T`. -/
def CExpr.arg (T : IntType) (s : Store) (e : CExpr) : Option ℤ := (e.eval s).map (T.wrap ·.val)

/-- `mpz_add_si` of `pvslib.c`, whose `-i` is computed in `int64_t`. -/
def mpz_add_si (y i : ℤ) : Option ℤ :=
  if i < 0 then (Val.arith (int .w64) (-i)).map fun n => y - (uint .w64).wrap n.val
  else some (y + (uint .w64).wrap i)

/-- `mpz_si_sub` of `pvslib.c`: `x` is set to `i` before `z`, which may be `x`, is read. -/
def mpz_si_sub (s : Store) (x : Var) (i : ℤ) (z : Var) : Option ℤ := do
  let s := s.set x (.data (.mpz i))
  return (← s.mpz? x) - (← s.mpz? z)

def GmpOp.value (x : Var) (s : Store) : GmpOp → Option ℤ
  | set y => s.mpz? y
  | setUi e => e.arg (uint .w64) s
  | setSi e => e.arg (int .w64) s
  | neg y => do return -(← s.mpz? y)
  | add y z => do return (← s.mpz? y) + (← s.mpz? z)
  | addUi y e => do return (← s.mpz? y) + (← e.arg (uint .w64) s)
  | addSi y e => do mpz_add_si (← s.mpz? y) (← e.arg (int .w64) s)
  | sub y z => do return (← s.mpz? y) - (← s.mpz? z)
  | subUi y e => do return (← s.mpz? y) - (← e.arg (uint .w64) s)
  | uiSub e z => do return (← e.arg (uint .w64) s) - (← s.mpz? z)
  | siSub e z => do mpz_si_sub s x (← e.arg (int .w64) s) z
  | mul y z => do return (← s.mpz? y) * (← s.mpz? z)
  | mulUi y e => do return (← s.mpz? y) * (← e.arg (uint .w64) s)
  | mulSi y e => do return (← s.mpz? y) * (← e.arg (int .w64) s)

def GmpOp.exec (x : Var) (op : GmpOp) (s : Store) : Option Store := do
  let _ ← s.mpz? x
  return s.set x (.data (.mpz (← op.value x s)))

/-- The run of a statement, `none` where C does not define it or the compiler rejects it. -/
def Stmt.exec : Stmt → Store → Option Store
  | decl t x, s => some (s.set x (.uninit t))
  | init x, s => if s x matches some (.uninit .mpz) then some (s.set x (.data (.mpz 0))) else none
  | clear x, s => do
    let _ ← s.mpz? x
    return s.set x (.uninit .mpz)
  | assign x e, s => do
    match ← s.ctype? x with
    | .fix T => return s.set x (.data (.fix ((← e.eval s).conv T)))
    | .mpz => none
  | gmp x op, s => op.exec x s
  | mk x op, s => if s.ctype? x = some .mpz then op.exec x (s.set x (.data (.mpz 0))) else none
  | ite c s₁ s₂, s => do if (← c.eval s).val ≠ 0 then s₁.exec s else s₂.exec s
  | undeclared _ _, _ => none

def run : List Stmt → Store → Option Store
  | [], s => some s
  | c :: l, s => do run l (← c.exec s)

/-! ### What is emitted -/

/-- `mpz_set_~a` with `gmp-ui-or-si` of a type. -/
def GmpOp.setAs : IntType → CExpr → GmpOp
  | .uint _, e => .setUi e
  | .int _, e => .setSi e

def GmpOp.addAs : IntType → Var → CExpr → GmpOp
  | .uint _, y, e => .addUi y e
  | .int _, y, e => .addSi y e

def GmpOp.mulAs : IntType → Var → CExpr → GmpOp
  | .uint _, y, e => .mulUi y e
  | .int _, y, e => .mulSi y e

def CExpr.getAs : IntType → Var → CExpr
  | .uint _, x => .getUi x
  | .int _, x => .getSi x

/-- `~a64_t` with `uint-or-int` of a type. -/
def uintOrInt64 : IntType → IntType
  | .uint _ => .uint .w64
  | .int _ => .int .w64

def uintlub (T U V : IntType) : IntType := .uint ((T.width.max U.width).max V.width)

abbrev u64 (x : Var) : CExpr := .cast (.uint .w64) (.var x)
abbrev i64 (x : Var) : CExpr := .cast (.int .w64) (.var x)

/-- `mpz_t tmp; mpz_init(tmp); mpz_op(tmp, ..); ret = (T_t)get(tmp); mpz_clear(tmp)` -/
def viaTmp (op : GmpOp) (ret : Var) (T : IntType) (get : Var → CExpr) : List Stmt :=
  [.decl .mpz .tmp, .init .tmp, .gmp .tmp op, .assign ret (.cast T (get .tmp)), .clear .tmp]

/-- The fuel is for the calls with the arguments exchanged: on two `mpz` arguments and an unsigned
return type they go on for ever. -/
def ir2cAdditionStep : ℕ → Var → CType → Var → CType → Var → CType → Option (List Stmt)
  | 0, _, _, _, _, _, _ => none
  | n + 1, ret, T, arg1, t₁, arg2, t₂ =>
    match T, t₁, t₂ with
    | .mpz, .fix (.uint _), .fix (.uint _) =>
      some [.mk ret (.setUi (u64 arg1)), .gmp ret (.addUi ret (u64 arg2))]
    | .mpz, .fix (.uint _), .fix (.int _) =>
      some [.mk ret (.setSi (.var arg2)), .gmp ret (.addUi ret (u64 arg1))]
    | .mpz, .fix (.uint _), .mpz => some [.mk ret (.addUi arg2 (u64 arg1))]
    | .mpz, .fix (.int _), .fix (.uint _) =>
      some [.mk ret (.setSi (u64 arg1)), .gmp ret (.addUi ret (u64 arg2))]
    | .mpz, .fix (.int _), .fix (.int _) =>
      some [.mk ret (.setSi (.var arg1)), .gmp ret (.addSi ret (i64 arg2))]
    | .mpz, .fix (.int _), .mpz => some [.mk ret (.addSi arg2 (i64 arg1))]
    | .mpz, .mpz, .fix (.uint _) =>
      some [.mk ret (.setUi (u64 arg2)), .gmp ret (.add ret arg1)]
    | .mpz, .mpz, .fix (.int _) =>
      some [.mk ret (.setSi (.var arg2)), .gmp ret (.add ret arg1)]
    | .mpz, .mpz, .mpz => some [.mk ret (.add arg2 arg1)]
    | .fix (.uint w), .fix (.uint _), .fix (.uint _) =>
      some [.assign ret (.cast (.uint w) (.add (.var arg1) (.var arg2)))]
    | .fix (.uint w), .fix (.uint w₁), .fix (.int w₂) =>
      let lub := uintlub (.uint w) (.uint w₁) (.int w₂)
      some [.ite (.lt (.var arg2) .zero)
        (.assign ret (.cast (.uint w)
          (.sub (.cast lub (.var arg1)) (.cast lub (.neg (.var arg2))))))
        (.assign ret (.cast (.uint w) (.add (.var arg1) (.var arg2))))]
    | .fix (.uint w), .fix (.uint _), .mpz =>
      some (viaTmp (.addUi arg2 (.var arg1)) ret (.uint w) .getUi)
    | .fix (.uint w), .fix (.int w₁), .fix (.uint w₂) =>
      let lub := uintlub (.uint w) (.int w₁) (.uint w₂)
      some [.ite (.lt (.var arg1) .zero)
        (.assign ret (.cast (.uint w) (.sub (.var arg2) (.cast lub (.neg (.var arg1))))))
        (.assign ret (.cast (.uint w) (.add (.var arg1) (.var arg2))))]
    | .fix (.uint w), .fix (.int _), .fix (.int _) =>
      some [.assign ret (.cast (.uint w) (.add (.var arg1) (.var arg2)))]
    | .fix (.uint w), .fix (.int _), .mpz =>
      some (viaTmp (.addSi arg2 (.var arg1)) ret (.uint w) .getSi)
    | .fix (.uint w), .mpz, t₂ => ir2cAdditionStep n ret (.fix (.uint w)) arg2 t₂ arg1 .mpz
    | .fix (.int w), .fix (.uint _), .fix (.uint _) =>
      some [.assign ret (.cast (.int w) (.add (.var arg1) (.var arg2)))]
    | .fix (.int w), .fix (.uint w₁), .fix (.int w₂) =>
      let lub := uintlub (.int w) (.uint w₁) (.int w₂)
      some [.ite (.lt (.var arg2) .zero)
        (.assign ret (.cast (.int w) (.sub (.var arg1) (.cast lub (.neg (.var arg2))))))
        (.assign ret (.cast (.int w) (.add (.var arg1) (.var arg2))))]
    | .fix (.int w), .fix (.uint _), .mpz =>
      some (viaTmp (.addSi arg2 (.var arg1)) ret (.int w) .getUi)
    | .fix (.int w), .fix (.int w₁), .fix (.uint w₂) =>
      let lub := uintlub (.int w) (.int w₁) (.uint w₂)
      some [.ite (.lt (.var arg1) .zero)
        (.assign ret (.cast (.int w) (.sub (.var arg2) (.cast lub (.neg (.var arg1))))))
        (.assign ret (.cast (.int w) (.add (.var arg1) (.var arg2))))]
    | .fix (.int w), .fix (.int _), .fix (.int _) =>
      some [.assign ret (.cast (.int w) (.add (i64 arg1) (i64 arg2)))]
    | .fix (.int w), .fix (.int w₁), .mpz =>
      ir2cAdditionStep n ret (.fix (.int w)) arg2 .mpz arg1 (.fix (.int w₁))
    | .fix (.int w), .mpz, .mpz => some (viaTmp (.add arg1 arg2) ret (.int w) .getSi)
    | .fix (.int w), .mpz, .fix U =>
      some (viaTmp (.addAs U arg1 (.var arg2)) ret (.int w) (.getAs (.int w)))

def ir2cMinusStep (ret : Var) (T : CType) (arg1 : Var) (t₁ : CType) : List Stmt :=
  match T, t₁ with
  | .mpz, .mpz => [.mk ret (.set arg1), .gmp ret (.neg ret)]
  | .mpz, .fix U => [.mk ret (.setAs U (.var arg1)), .gmp ret (.neg ret)]
  | .fix T, .mpz => [.assign ret (.cast T (.getSi arg1))]
  | .fix T, .fix _ => [.assign ret (.cast T (.neg (.var arg1)))]

def ir2cSubtractionStep (ret : Var) (T : CType) (arg1 : Var) (t₁ : CType) (arg2 : Var)
    (t₂ : CType) : List Stmt :=
  match T, t₁, t₂ with
  | .mpz, .fix (.uint _), .fix (.uint _) =>
    [.mk ret (.setUi (u64 arg1)), .gmp ret (.subUi ret (u64 arg2))]
  | .mpz, .fix (.uint _), .fix (.int _) =>
    [.mk ret (.setSi (.neg (.var arg2))), .gmp ret (.addUi ret (u64 arg1))]
  | .mpz, .fix (.uint _), .mpz => [.gmp ret (.uiSub (u64 arg1) arg2)]
  | .mpz, .fix (.int _), .fix (.uint _) =>
    [.mk ret (.setUi (u64 arg2)), .gmp ret (.siSub (i64 arg1) ret)]
  | .mpz, .fix (.int _), .fix (.int _) =>
    [.mk ret (.setSi (.var arg2)), .gmp ret (.siSub (i64 arg1) ret)]
  | .mpz, .fix (.int _), .mpz => [.mk ret (.setSi (i64 arg1)), .gmp ret (.sub ret arg2)]
  | .mpz, .mpz, .fix (.uint _) => [.mk ret (.subUi arg1 (u64 arg2))]
  -- `mpz_mk_sub_si(ret, arg1 (int64_t)arg2)`: there is no comma.
  | .mpz, .mpz, .fix (.int _) =>
    [.undeclared "mpz_mk_sub_si" [.var ret, .juxt (.var arg1) (i64 arg2)]]
  | .mpz, .mpz, .mpz => [.mk ret (.sub arg1 arg2)]
  | .fix (.uint w), .fix (.uint _), .fix (.uint _) =>
    [.assign ret (.cast (.uint w) (.sub (.var arg1) (.var arg2)))]
  | .fix (.uint w), .fix (.uint _), .fix (.int _) =>
    [.ite (.lt (.var arg2) .zero)
      (.assign ret (.cast (.uint w)
        (.add (u64 arg1) (.cast (.uint w) (.neg (.var arg2))))))
      (.assign ret (.cast (.uint w) (.sub (u64 arg1) (u64 arg2))))]
  | .fix (.uint w), .fix (.uint w₁), .mpz =>
    [.decl (.fix (.uint w₁)) .tmp, .assign .tmp (.cast (.uint w₁) (.getUi arg2)),
      .assign ret (.cast (.uint w) (.sub (u64 arg1) (.var .tmp)))]
  | .fix (.uint w), .fix (.int _), .fix (.uint _) =>
    [.assign ret (.cast (.uint w) (.sub (i64 arg1) (u64 arg2)))]
  | .fix (.uint w), .fix (.int _), .fix (.int _) =>
    [.assign ret (.cast (.uint w) (.sub (i64 arg1) (i64 arg2)))]
  | .fix (.uint w), .fix (.int w₁), .mpz =>
    [.decl (.fix (.int w₁)) .tmp, .assign .tmp (.getSi arg2),
      .assign ret (.cast (.uint w) (.sub (i64 arg1) (.var .tmp)))]
  | .fix (.uint w), .mpz, .fix (.uint _) =>
    viaTmp (.subUi arg1 (.var arg2)) ret (.uint w) .getUi
  | .fix (.uint w), .mpz, .fix (.int _) =>
    [.decl .mpz .tmp, .init .tmp,
      .ite (.lt (.var arg2) .zero) (.gmp .tmp (.addUi arg1 (.var arg2)))
        (.gmp .tmp (.subUi arg1 (.var arg2))),
      .assign ret (.cast (.uint w) (.getUi .tmp)), .clear .tmp]
  | .fix (.uint w), .mpz, .mpz => viaTmp (.sub arg1 arg2) ret (.uint w) .getUi
  | .fix (.int w), .fix (.uint _), .fix (.uint _) =>
    [.assign ret (.cast (.int w) (.sub (u64 arg1) (u64 arg2)))]
  | .fix (.int w), .fix (.uint _), .fix (.int _) =>
    [.assign ret (.cast (.int w) (.sub (u64 arg1) (i64 arg2)))]
  -- The clause is empty.
  | .fix (.int _), .fix (.uint _), .mpz => []
  | .fix (.int w), .fix (.int _), .fix (.uint _) =>
    [.assign ret (.cast (.int w) (.sub (i64 arg1) (u64 arg2)))]
  | .fix (.int w), .fix (.int _), .fix (.int _) =>
    [.assign ret (.cast (.int w) (.sub (i64 arg1) (i64 arg2)))]
  | .fix (.int w), .fix (.int _), .mpz =>
    [.decl .mpz .tmp, .init .tmp, .gmp .tmp (.setSi (.var arg1)), .gmp .tmp (.sub .tmp arg2),
      .assign ret (.cast (.int w) (.getSi .tmp)), .clear .tmp]
  | .fix (.int w), .mpz, .fix (.uint _) =>
    viaTmp (.subUi arg1 (.var arg2)) ret (.int w) .getSi
  -- No `mpz_mk_si` is defined.
  | .fix (.int w), .mpz, .fix (.int _) =>
    [.decl .mpz .tmp, .init .tmp, .undeclared "mpz_mk_si" [.var .tmp, .var arg1, .var arg2],
      .assign ret (.cast (.int w) (.getSi .tmp)), .clear .tmp]
  | .fix (.int w), .mpz, .mpz => viaTmp (.sub arg1 arg2) ret (.int w) .getSi

def ir2cMultiplicationStep (ret : Var) (T : CType) (arg1 : Var) (t₁ : CType) (arg2 : Var)
    (t₂ : CType) : List Stmt :=
  match T, t₁, t₂ with
  | .mpz, .fix U, .fix V =>
    [.decl .mpz .tmp, .init .tmp, .gmp .tmp (.setAs U (.cast (uintOrInt64 U) (.var arg1))),
      .mk ret (.mulAs V .tmp (.cast (uintOrInt64 V) (.var arg2))), .clear .tmp]
  | .mpz, .fix U, .mpz => [.mk ret (.mulAs U arg2 (.cast (uintOrInt64 U) (.var arg1)))]
  | .mpz, .mpz, .fix V => [.mk ret (.mulAs V arg1 (.cast (uintOrInt64 V) (.var arg2)))]
  | .mpz, .mpz, .mpz => [.mk ret (.mul arg2 arg1)]
  | .fix T, .fix U, .fix V =>
    [.assign ret (.cast T
      (.mul (.cast (uintOrInt64 U) (.var arg1)) (.cast (uintOrInt64 V) (.var arg2))))]
  | .fix T, .fix U, .mpz => viaTmp (.mulAs U arg2 (.var arg1)) ret T (.getAs T)
  | .fix T, .mpz, .fix V => viaTmp (.mulAs V arg1 (.var arg2)) ret T (.getAs T)
  | .fix T, .mpz, .mpz => viaTmp (.mul arg2 arg1) ret T (.getAs T)

/-- The operations of `ir2c-primitive-apply`; `minus` has one argument. -/
inductive ArithOp
  | add | sub | minus | mul
  deriving DecidableEq

def ArithOp.value : ArithOp → ℤ → ℤ → ℤ
  | add, a, b => a + b
  | sub, a, b => a - b
  | minus, a, _ => -a
  | mul, a, b => a * b

def ArithOp.emit (n : ℕ) : ArithOp → CType → CType → CType → Option (List Stmt)
  | add, T, t₁, t₂ => ir2cAdditionStep n .result T .first t₁ .second t₂
  | sub, T, t₁, t₂ => some (ir2cSubtractionStep .result T .first t₁ .second t₂)
  | minus, T, t₁, _ => some (ir2cMinusStep .result T .first t₁)
  | mul, T, t₁, t₂ => some (ir2cMultiplicationStep .result T .first t₁ .second t₂)

/-- The return variable is declared; for an `mpz` that is a pointer to nothing yet. -/
def start (T : CType) (d₁ d₂ : Datum) : Store
  | .result => some (.uninit T)
  | .first => some (.data d₁)
  | .second => some (.data d₂)
  | .tmp => none

/-- The statements run, and leave `r` in `ret`. -/
def Leaves (l : List Stmt) (s : Store) (ret : Var) (r : ℤ) : Prop :=
  (run l s).bind (·.value? ret) = some r

instance (l : List Stmt) (s : Store) (ret : Var) (r : ℤ) : Decidable (Leaves l s ret r) :=
  inferInstanceAs (Decidable (_ = _))

end PVS.GroundEval
