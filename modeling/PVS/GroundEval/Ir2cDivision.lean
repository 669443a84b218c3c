import PVS.GroundEval.PvslibDivision

/-! The C statements that `ir2c-division-step`, `ir2c-divrem` and the floor and ceiling primitives
emit, and what they do. -/

namespace PVS.GroundEval

open PVS.Library.CInt PVS.Library.CInt.IntType

@[match_pattern] abbrev NumType.fix (T : IntType) : NumType := .int (.fix T)
@[match_pattern] abbrev NumType.mpz : NumType := .int .mpz
@[match_pattern] abbrev Num.fix (v : Val) : Num := .int (.fix v)
@[match_pattern] abbrev Num.mpz (z : ℤ) : Num := .int (.mpz z)

/-! ### Functions of the library -/

inductive DivRem
  | div | rem
  deriving DecidableEq

/-- `numtype-abbrev` -/
inductive NumAbbrev
  | i64 | u64 | z | q
  deriving DecidableEq

def NumType.abbrev : NumType → NumAbbrev
  | fix (.int _) => .i64
  | fix (.uint _) => .u64
  | mpz => .z
  | mpq => .q

/-- The names that are put together of an operation and of types. -/
inductive PvslibName
  | divrem (op : DivRem) (t₁ t₂ : NumType)
  | floor (arg ret : NumAbbrev)
  | ceiling (arg ret : NumAbbrev)
  deriving DecidableEq

/-- The functions with two parameters. -/
inductive PvslibFn
  | fix (f : Val → Val → Option Val)
  | mpz (f : ℤ → Val → Option Val)

/-- The declarations of `pvslib.h`, `none` where there is none; those on 128 bits are left out. -/
def pvslibDivrem : DivRem → NumType → NumType → Option PvslibFn
  | .div, .fix (.uint .w32), .fix (.uint .w32) => some (.fix divUint32Uint32)
  | .div, .fix (.uint .w64), .fix (.uint .w32) => some (.fix divUint64Uint32)
  | .div, .fix (.uint .w32), .fix (.uint .w64) => some (.fix divUint32Uint64)
  | .div, .fix (.int .w32), .fix (.uint .w32) => some (.fix divInt32Uint32)
  | .div, .fix (.uint .w64), .fix (.uint .w64) => some (.fix divUint64Uint64)
  | .div, .fix (.int .w64), .fix (.uint .w64) => some (.fix divInt64Uint64)
  | .div, .fix (.int .w64), .fix (.uint .w32) => some (.fix divInt64Uint32)
  | .div, .mpz, .fix (.uint .w64) => some (.mpz divMpzUint64)
  | .rem, .fix (.uint .w32), .fix (.uint .w32) => some (.fix remUint32Uint32)
  | .rem, .fix (.int .w32), .fix (.uint .w32) => some (.fix remInt32Uint32)
  | .rem, .fix (.uint .w64), .fix (.uint .w64) => some (.fix remUint64Uint64)
  | .rem, .fix (.int .w64), .fix (.uint .w64) => some (.fix remInt64Uint64)
  | .rem, .fix (.int .w64), .fix (.uint .w32) => some (.fix remInt64Uint32)
  | .rem, .mpz, .fix (.uint .w32) => some (.mpz remMpzUint32)
  | _, _, _ => none

def pvslibFloor : NumAbbrev → NumAbbrev → Option (ℚ → Num)
  | .q, .z => some fun x => .mpz (pvsfloorQZ x)
  | .q, .q => some fun x => .mpq (pvsfloorQQ x)
  | .q, .i64 => some fun x => .fix (pvsfloorQI64 x)
  | .q, .u64 => some fun x => .fix (pvsfloorQU64 x)
  | _, _ => none

def pvslibCeiling : NumAbbrev → NumAbbrev → Option (ℚ → Num)
  | .q, .z => some fun x => .mpz (pvsceilingQZ x)
  | .q, .q => some fun x => .mpq (pvsceilingQQ x)
  | .q, .i64 => some fun x => .fix (pvsceilingQI64 x)
  | .q, .u64 => some fun x => .fix (pvsceilingQU64 x)
  | _, _ => none

/-- A call, `none` where there is no such function, or not with such arguments. -/
def PvslibName.call : PvslibName → List Num → Option Num
  | divrem op t₁ t₂, [x, y] => do
    match ← pvslibDivrem op t₁ t₂, x, y with
    | .fix f, .fix v, .fix w => (f v w).map .fix
    | .mpz f, .mpz z, .fix w => (f z w).map .fix
    | _, _, _ => none
  | floor arg ret, [.mpq q] => (pvslibFloor arg ret).map (· q)
  | ceiling arg ret, [.mpq q] => (pvslibCeiling arg ret).map (· q)
  | _, _ => none

/-! ### Statements -/

/-- The variables of the emitted statements; the last three are made by `gentemp`. -/
inductive DivVar
  | result | first | second | tmp | tmp₁ | tmp₂
  deriving DecidableEq

inductive DivExpr
  | var (x : DivVar)
  | cast (T : IntType) (x : DivVar)
  | call (f : PvslibName) (args : List DivVar)

/-- What the GMP function of an emitted statement stores in its first argument. -/
inductive DivOp
  | qSetZ (y : DivVar)
  /-- `mpq_set_ui(.., e, 1)` or `mpq_set_si(.., e, 1)` -/
  | qSet (T : IntType) (e : DivExpr)
  | qDiv (y z : DivVar)
  | zSetQ (y : DivVar)
  /-- `mpz_set_ui` or `mpz_set_si` -/
  | zSet (T : IntType) (e : DivExpr)
  | zFdiv (op : DivRem) (y z : DivVar)
  | zFdivUi (op : DivRem) (y : DivVar) (e : DivExpr)

def DivOp.type : DivOp → NumType
  | qSetZ _ | qSet _ _ | qDiv _ _ => .mpq
  | _ => .mpz

inductive DivStmt
  /-- `mpz_t x` or `mpq_t x`, which is an array -/
  | decl (t : NumType) (x : DivVar)
  | init (x : DivVar)
  | clear (x : DivVar)
  | gmp (x : DivVar) (op : DivOp)
  /-- `x` is assigned what is allocated, and initialised. -/
  | mk (x : DivVar) (op : DivOp)
  /-- `x = (t)e` -/
  | assign (x : DivVar) (t : NumType) (e : DivExpr)

/-- What is declared of a variable, and its value when it is initialised. -/
structure DivCell where
  type : NumType
  pointer : Bool
  value : Option Num

abbrev DivStore := DivVar → Option DivCell

namespace DivStore

def value? (s : DivStore) (x : DivVar) : Option Num := (s x).bind DivCell.value

def fix? (s : DivStore) (x : DivVar) : Option Val :=
  match s.value? x with
  | some (.fix v) => some v
  | _ => none

def mpz? (s : DivStore) (x : DivVar) : Option ℤ :=
  match s.value? x with
  | some (.mpz z) => some z
  | _ => none

def mpq? (s : DivStore) (x : DivVar) : Option ℚ :=
  match s.value? x with
  | some (.mpq q) => some q
  | _ => none

def set (s : DivStore) (x : DivVar) (c : DivCell) : DivStore := Function.update s x (some c)

end DivStore

def DivExpr.eval (s : DivStore) : DivExpr → Option Num
  | var x => s.value? x
  | cast T x => (s.fix? x).map fun v => .fix (v.conv T)
  | call f args => do f.call (← args.mapM s.value?)

/-- An argument of a GMP function whose parameter has type `T`. -/
def DivExpr.arg (T : IntType) (s : DivStore) (e : DivExpr) : Option ℤ :=
  match e.eval s with
  | some (.fix v) => some (T.wrap v.val)
  | _ => none

/-- `mpz_fdiv_q` or `mpz_fdiv_r` -/
def DivRem.fdiv (y z : ℤ) : DivRem → ℤ
  | div => y.fdiv z
  | rem => y.fmod z

def DivOp.value (s : DivStore) : DivOp → Option Num
  | qSetZ y => do return .mpq (← s.mpz? y)
  | qSet T e => do return .mpq (← e.arg (uintOrInt64 T) s)
  | qDiv y z => do
    let d ← s.mpq? z
    if d = 0 then none else return .mpq ((← s.mpq? y) / d)
  | zSetQ y => do return .mpz (mpzSetQ (← s.mpq? y))
  | zSet T e => do return .mpz (← e.arg (uintOrInt64 T) s)
  | zFdiv op y z => do
    let d ← s.mpz? z
    if d = 0 then none else return .mpz (op.fdiv (← s.mpz? y) d)
  | zFdivUi op y e => do
    let d ← e.arg (.uint .w64) s
    if d = 0 then none else return .mpz (op.fdiv (← s.mpz? y) d)

def NumType.zero : NumType → Num
  | fix T => .fix ⟨T, T.wrap 0, T.wrap_inRange 0⟩
  | mpz => .mpz 0
  | mpq => .mpq 0

/-- The conversion of a number to a type; a pointer is converted to its own type only. -/
def Num.castTo : NumType → Num → Option Num
  | .fix T, .fix v => some (.fix (v.conv T))
  | .mpz, .mpz z => some (.mpz z)
  | .mpq, .mpq q => some (.mpq q)
  | _, _ => none

/-- The run of a statement, `none` where C does not define it or the compiler rejects it. -/
def DivStmt.exec : DivStmt → DivStore → Option DivStore
  | decl t x, s => some (s.set x ⟨t, false, none⟩)
  | init x, s => do
    let c ← s x
    if c.pointer then none else return s.set x { c with value := some c.type.zero }
  | clear x, s => do
    let c ← s x
    let _ ← c.value
    return s.set x { c with value := none }
  | gmp x op, s => do
    let c ← s x
    let _ ← c.value
    if c.type = op.type then return s.set x { c with value := some (← op.value s) } else none
  | mk x op, s => do
    let c ← s x
    if c.pointer = true ∧ c.type = op.type then
      let s := s.set x { c with value := some c.type.zero }
      return s.set x { c with value := some (← op.value s) }
    else none
  | assign x t e, s => do
    let c ← s x
    if c.type = t then return s.set x { c with value := some (← (← e.eval s).castTo t) } else none

def runDiv : List DivStmt → DivStore → Option DivStore
  | [], s => some s
  | c :: l, s => do runDiv l (← c.exec s)

/-! ### What is emitted -/

/-- `mpq_t x; mpq_init(x); mpq_set_z(x, y)` -/
def declSetZ (x y : DivVar) : List DivStmt := [.decl .mpq x, .init x, .gmp x (.qSetZ y)]

def ir2cDivisionMpq (ret arg1 : DivVar) (t₁ : NumType) (arg2 : DivVar) (t₂ : NumType) :
    List DivStmt :=
  match t₁, t₂ with
  | .mpq, .mpq => [.mk ret (.qDiv arg1 arg2)]
  | .mpq, .mpz => declSetZ .tmp₂ arg2 ++ [.mk ret (.qDiv arg1 .tmp₂), .clear .tmp₂]
  | .mpq, .fix V =>
    [.gmp ret (.qSet V (.cast (uintOrInt64 V) arg2)), .mk ret (.qDiv arg1 ret)]
  | .mpz, .mpq => declSetZ .tmp₁ arg1 ++ [.mk ret (.qDiv .tmp₁ arg2), .clear .tmp₁]
  | .mpz, .mpz =>
    declSetZ .tmp₁ arg1 ++ declSetZ .tmp₂ arg2 ++
      [.mk ret (.qDiv .tmp₁ .tmp₂), .clear .tmp₁, .clear .tmp₂]
  | .mpz, .fix V =>
    declSetZ .tmp₁ arg1 ++ [.mk ret (.qSet V (.cast (uintOrInt64 V) arg2)),
      .mk ret (.qDiv .tmp₁ ret), .clear .tmp₁]
  | .fix U, .mpq =>
    [.decl .mpq .tmp₁, .init .tmp₁, .gmp .tmp₁ (.qSet U (.cast (uintOrInt64 U) arg1)),
      .mk ret (.qDiv .tmp₁ arg2)]
  | .fix U, .mpz =>
    [.decl .mpq .tmp₁, .init .tmp₁, .decl .mpq .tmp₂, .init .tmp₂,
      .gmp .tmp₁ (.qSet U (.cast (uintOrInt64 U) arg1)), .gmp .tmp₂ (.qSetZ arg2),
      .mk ret (.qDiv .tmp₁ .tmp₂), .clear .tmp₁, .clear .tmp₂]
  | .fix U, .fix V =>
    [.decl .mpq .tmp₁, .init .tmp₁, .decl .mpq .tmp₂, .init .tmp₂,
      .gmp .tmp₁ (.qSet U (.cast (uintOrInt64 U) arg1)), .gmp .tmp₂ (.qSet V (.var arg2)),
      .mk ret (.qDiv .tmp₁ .tmp₂), .clear .tmp₁, .clear .tmp₂]

/-- `none` is a `break`. -/
def ir2cDivisionStep (ret : DivVar) (T : NumType) (arg1 : DivVar) (t₁ : NumType) (arg2 : DivVar)
    (t₂ : NumType) : Option (List DivStmt) :=
  match T with
  | .mpq => some (ir2cDivisionMpq ret arg1 t₁ arg2 t₂)
  -- Both arguments of the inner call are `arg1`.
  | .mpz => some (.decl .mpq .tmp :: (ir2cDivisionMpq .tmp arg1 t₁ arg1 t₂ ++
      [.mk ret (.zSetQ .tmp), .clear .tmp]))
  -- The inner call has the string "mpz" as its return type, for which there is no clause.
  | .fix _ => none

/-- `arg1-type` of `ir2c-divrem` -/
def NumType.arg1Type : NumType → NumType
  | fix (.uint .w8) | fix (.uint .w16) | fix (.uint .w32) => fix (.uint .w32)
  | fix (.int .w8) | fix (.int .w16) | fix (.int .w32) => fix (.int .w32)
  | t => t

/-- `arg2-type` of `ir2c-divrem`, where signed types are left as they are -/
def NumType.arg2Type : NumType → NumType
  | fix (.uint .w8) | fix (.uint .w16) | fix (.uint .w32) => fix (.uint .w32)
  | t => t

def ir2cDivrem (op : DivRem) (ret : DivVar) (T : NumType) (arg1 : DivVar) (t₁ : NumType)
    (arg2 : DivVar) (t₂ : NumType) : List DivStmt :=
  let call := DivExpr.call (.divrem op t₁.arg1Type t₂.arg2Type) [arg1, arg2]
  match T with
  | .mpz =>
    match t₁.arg1Type with
    | .mpz =>
      match t₂.arg2Type with
      | .mpz => [.mk ret (.zFdiv op arg1 arg2)]
      | _ => [.mk ret (.zFdivUi op arg1 (.var arg2))]
    | .fix U =>
      match t₂.arg2Type with
      | .mpz => [.decl .mpz .tmp, .init .tmp, .gmp .tmp (.zSet U (.var arg1)),
          .mk ret (.zFdiv op .tmp arg2), .clear .tmp]
      | _ => [.mk ret (.zSet U call)]
    -- There is no clause.
    | .mpq => []
  | T => [.assign ret T call]

inductive QuotOp
  | division | ndiv | nrem | floor | ceiling
  deriving DecidableEq

/-- `ir2c-primitive-apply` on the operations of quotients -/
def QuotOp.emit (T t₁ t₂ : NumType) : QuotOp → Option (List DivStmt)
  | division => ir2cDivisionStep .result T .first t₁ .second t₂
  | ndiv => some (ir2cDivrem .div .result T .first t₁ .second t₂)
  | nrem => some (ir2cDivrem .rem .result T .first t₁ .second t₂)
  | floor => some [.assign .result T (.call (.floor t₁.abbrev T.abbrev) [.first])]
  | ceiling => some [.assign .result T (.call (.ceiling t₁.abbrev T.abbrev) [.first])]

/-! ### What is asked -/

def QuotOp.value (x y : ℚ) : QuotOp → ℚ
  | division => x / y
  | ndiv => ⌊x / y⌋
  | nrem => x - y * ⌊x / y⌋
  | floor => ⌊x⌋
  | ceiling => ⌈x⌉

def QuotOp.Defined (y : ℚ) : QuotOp → Prop
  | division => y ≠ 0
  | ndiv | nrem => 0 < y
  | floor | ceiling => True

/-- The type has the number. -/
def NumType.Has : NumType → ℚ → Prop
  | fix T, r => ∃ z : ℤ, (z : ℚ) = r ∧ T.InRange z
  | mpz, r => ∃ z : ℤ, (z : ℚ) = r
  | mpq, _ => True

/-- The return variable is declared; where it is a pointer it points to nothing yet. -/
def startDiv (T : NumType) (a b : Num) : DivStore
  | .result => some ⟨T, T = .mpz ∨ T = .mpq, none⟩
  | .first => some ⟨a.type, a.type = .mpz ∨ a.type = .mpq, some a⟩
  | .second => some ⟨b.type, b.type = .mpz ∨ b.type = .mpq, some b⟩
  | _ => none

/-- The statements run, and leave `r` in `ret`. -/
def LeavesNum (l : List DivStmt) (s : DivStore) (ret : DivVar) (r : ℚ) : Prop :=
  ((runDiv l s).bind fun s => (s.value? ret).map Num.value) = some r

end PVS.GroundEval
