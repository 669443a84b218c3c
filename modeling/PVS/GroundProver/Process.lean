import PVS.Library.Fuel
import PVS.GroundProver.Rational

/-! `process.lisp`: `process`, `pr-merge`, `canon` and the three association lists they work on.
The interpreted theories are a parameter, `Theories`: one function for each place at which
`process.lisp` hands a term over to arithmetic, tuples, arrays or λ-reduction. Nothing is assumed of
them. -/

namespace PVS.GroundProver

open Library SExp

/-- `retfalse`, the throw to `context`. -/
inductive Signal
  | retfalse
  deriving DecidableEq

structure ProverState where
  typealist : List (SExp × SExp)
  sigalist : List (SExp × SExp)
  findalist : List (SExp × SExp)
  usealist : List (SExp × List SExp)
  applysymlist : List SExp
  /-- The special variable `s`, the atoms `process1` still has to treat. -/
  s : List SExp
  /-- A history variable the code does not have: the entries `pr-merge` took off `use(t2)` in favour
  of one that is missing from the use list of another argument of their signature. -/
  dropped : List (SExp × SExp)
  deriving DecidableEq

abbrev ProverM (α : Type) : Type := Fueled ProverState Signal α

abbrev retfalse {α : Type} : ProverM α := throw .retfalse

structure Theories where
  canonBetaReduce : SExp → ProverM SExp
  sigapplyUpdate : SExp → ProverM SExp
  sigtupsel : SExp → ProverM SExp
  sigmaInterp : SExp → ProverM SExp
  canonProtect : SExp → Bool → ProverM SExp
  canonTimes : SExp → ProverM (Option SExp)
  adduseTimes : SExp → List SExp → ProverM Unit
  arithsolve : SExp → ProverM (List SExp)
  arithnsolve : SExp → ProverM (List SExp)
  tupsolve : SExp → ProverM (List SExp)
  tupnsolve : SExp → ProverM (List SExp)
  arraysolve : SExp → ProverM (List SExp)
  arraynsolve : SExp → ProverM (List SExp)
  nsolveIf : SExp → ProverM (List SExp)
  addineq : SExp → ProverM Unit
  addneqNumber : SExp → SExp → ProverM Unit
  reprocessTimesuse : SExp → ProverM Unit
  subsumedIneqList : SExp → List SExp → Bool
  isSkolemizedApply : List SExp → SExp → Bool
  mergeApplyLambda : SExp → SExp → ProverM Unit
  mergeInterp : SExp → SExp → SExp → SExp → ProverM Unit

/-! ### Association lists -/

def getq (a : SExp) (alist : List (SExp × SExp)) : SExp := (alist.lookup a).getD nil

def find1 (st : ProverState) (v : SExp) : SExp := (st.findalist.lookup v).getD nil

/-- The `do` loop of `pr-find`. -/
def prFind (v : SExp) : ProverM SExp :=
  Fueled.loop (fun v => do
    let u := find1 (← get) v
    if u = nil then pure (.inr v) else pure (.inl u)) v

def sig (st : ProverState) (v : SExp) : SExp := (st.sigalist.lookup v).getD v

def use (st : ProverState) (v : SExp) : List SExp := (st.usealist.lookup v).getD []

def prUnion (t1 t2 : SExp) : ProverM Unit :=
  modify fun st => { st with findalist := (t1, t2) :: st.findalist }

def putsig (sg v : SExp) : ProverM Unit :=
  modify fun st => { st with sigalist := (v, sg) :: st.sigalist }

def putuse (ul : List SExp) (v : SExp) : ProverM Unit :=
  modify fun st => { st with usealist := (v, ul) :: st.usealist }

/-! ### Term classes -/

def interpsyms : List String :=
  ["PLUS", "MINUS", "DIFFERENCE", "TIMES", "DIVIDE", "lessp", "lesseqp", "greaterp", "greatereqp",
    "tupcons", "TUPSEL", "update", "arrayrest", "arraysel"]

def tupselList : List String := ["TUPSEL-", "TUPSEL-integer", "TUPSEL-number", "TUPSEL-bool"]

def arithrels : List String := ["lessp", "lesseqp", "greaterp", "greatereqp"]

def arithops : List String := ["PLUS", "TIMES", "DIFFERENCE", "MINUS"]

def ifops : List String := ["if", "if*"]

def memq (t : SExp) (l : List String) : Bool := l.any fun n => t == .sym n

def isTupselN (name : SExp) : Bool := memq name tupselList

def isApplyNX : SExp → Bool
  | .sym n => "APPLY-".toList.isPrefixOf n.toList
  | _ => false

/-- The arity in the name of an `APPLY-n-x` symbol. -/
def isApplyNXN : SExp → Option ℕ
  | .sym n =>
    let ds := (n.toList.drop 6).takeWhile Char.isDigit
    if "APPLY-".toList.isPrefixOf n.toList ∧ ds ≠ [] then
      some (ds.foldl (fun k c => k * 10 + (c.toNat - '0'.toNat)) 0)
    else none
  | _ => none

def isapplylambda (exp : SExp) : Bool :=
  exp.consp && exp.arg1.listp && exp.arg1.funsym == .sym "lambda" &&
    match isApplyNXN exp.car with
    | some n => exp.arg1.arg1 == .int n
    | none => false

def isapplyupdate (exp : SExp) : Bool :=
  exp.consp && isApplyNX exp.funsym && exp.arg1.listp && exp.arg1.funsym == .sym "update"

/-- With `*printerpdivide*` at its default, `yes`. -/
def interp (term : SExp) : Bool :=
  qnumberp term || (term.consp && memq term.funsym interpsyms) ||
    (term.consp && isTupselN term.funsym) || isapplylambda term || isapplyupdate term

def uninterp (term : SExp) : Bool := !interp term

def isLambdaExpr (f : SExp) : Bool := f.listp && f.car == .sym "lambda"

def isineq (t : SExp) : Bool := t.consp && memq t.funsym arithrels

def negop (op : SExp) : SExp :=
  if op = .sym "lesseqp" then .sym "greaterp"
  else if op = .sym "lessp" then .sym "greatereqp"
  else if op = .sym "greaterp" then .sym "lesseqp"
  else if op = .sym "greatereqp" then .sym "lessp"
  else nil

def negineq (ineq : SExp) : SExp := ofList [negop ineq.funsym, ineq.arg1, ineq.arg2]

mutual

def prtype (typealist : List (SExp × SExp)) : SExp → SExp
  | .sym n => getq (.sym n) typealist
  | .int _ => .sym "integer"
  | .cons f args =>
    if f = .sym "if*" then prtypeIf typealist args
    else if memq f arithops then
      if prtypeAll typealist args then .sym "integer" else .sym "number"
    else if f.symbolp then getq f typealist else nil

/-- The type of the second argument, or of the third one where that is `nil`. -/
def prtypeIf (typealist : List (SExp × SExp)) : SExp → SExp
  | .cons _ (.cons a (.cons b _)) =>
    let t := prtype typealist a
    if t = nil then prtype typealist b else t
  | .cons _ (.cons a _) => prtype typealist a
  | _ => nil

def prtypeAll (typealist : List (SExp × SExp)) : SExp → Bool
  | .cons a d => prtype typealist a == .sym "integer" && prtypeAll typealist d
  | _ => true

end

def subtermof (subterm : SExp) : SExp → Bool
  | .cons a d => subterm == a || subtermof subterm a || subtermof subterm d
  | _ => false

mutual

def functionIn (function : SExp) : SExp → Bool
  | .cons f args =>
    (isApplyNX f &&
      (args.car == function || ((SExp.cons f args).arg3.listp &&
        (SExp.cons f args).arg3.toList.contains function))) ||
      functionIn function f || functionInList function args
  | _ => false

def functionInList (function : SExp) : SExp → Bool
  | .cons a d => functionIn function a || functionInList function d
  | _ => false

end

def bagSubsetp : List SExp → List SExp → Bool
  | [], _ => true
  | a :: x, y => y.contains a && bagSubsetp x (y.erase a)

def timesUse (st : ProverState) (v : SExp) : List SExp :=
  (use st v.arg1).filter fun u =>
    u.funsym == .sym "TIMES" && u != v && bagSubsetp v.cdr.toList (sig st u).cdr.toList

def timesOrUse (st : ProverState) (v : SExp) : List SExp :=
  if v.consp && v.funsym == .sym "TIMES" then use st v ++ timesUse st v else use st v

/-! ### Contexts -/

def boundInequality (e : SExp) : Bool := isineq e && qnumberp e.arg2

section

variable (T : Theories)

/-- Pushes the atoms on `s`, the first one of them in front. -/
def add2pot (atoms : List SExp) : ProverM Unit :=
  modify fun st => { st with
    s := atoms.foldr
      (fun a s => if boundInequality a && T.subsumedIneqList a s then s else a :: s) st.s }

def catchContext : Except Signal SExp → SExp
  | .ok v => v
  | .error .retfalse => ff

/-- `newcontext`: the three association lists are bound again and a throw to `context` is caught. -/
def newcontext (m : ProverM SExp) : ProverM SExp :=
  m.within id fun st (r, st') => (.ok (catchContext r), { st' with
    sigalist := st.sigalist, findalist := st.findalist, usealist := st.usealist
    dropped := st.dropped })

/-- The binding of the special variable `s` on entry to `process1`; a throw undoes it as well. -/
def bindS {α : Type} (s : List SExp) (m : ProverM α) : ProverM α :=
  m.within (fun st => { st with s := s }) fun st (r, st') => (r, { st' with s := st.s })

/-! ### `canon` -/

def sigapply (term : SExp) : ProverM SExp :=
  if term.arg1.consp && term.arg1.funsym == .sym "update" then T.sigapplyUpdate term else pure term

def sigmaOps : List String :=
  ["PLUS", "TIMES", "DIVIDE", "MINUS", "DIFFERENCE", "update", "greaterp", "greatereqp", "lessp",
    "lesseqp"]

/-- With `*canon-beta-reduce-on*`; the lists of number predicates are empty. -/
def sigma (term : SExp) : ProverM SExp :=
  if term.symbolp then pure term
  else if qnumberp term then pure term
  else if isapplylambda term then T.canonBetaReduce term
  else if isApplyNX term.funsym then sigapply T term
  else if isTupselN term.funsym then T.sigtupsel term
  else if memq term.funsym sigmaOps then T.sigmaInterp term
  else pure term

def adduse (u v : SExp) : ProverM Unit := do
  if u.consp && (u.car == .sym "equal" || u.car == .sym "if" || u.car == .sym "if*") then pure ()
  else
    let ul := use (← get) v
    if u ∈ ul then pure ()
    else
      putuse (u :: ul) v
      if u.consp && u.funsym == .sym "TIMES" then T.adduseTimes u ul

/-- The end of `canonsig`: the entry of the use list of the first argument that has this
signature, else the term itself, now on the use lists of its arguments. -/
def lookupSig (s : SExp) (dontAddUse : Bool) : ProverM SExp := do
  let st ← get
  match (use st s.arg1).find? (fun u => s == u || s == sig st u) with
  | some u => prFind u
  | none =>
    if !dontAddUse then s.argsof.toList.forM (adduse T s)
    pure s

def canonsigCons (s : SExp) (dontAddUse : Bool) : ProverM SExp := do
  if s.consp then
    let found ← if s.funsym == .sym "TIMES" then T.canonTimes s else pure none
    match found with
    | some t => pure t
    | none => lookupSig T s dontAddUse
  else pure s

mutual

def canonsig (dontAddUse : Bool) : SExp → ProverM SExp
  | .sym n => prFind (.sym n)
  | .int i => pure (.int i)
  | .cons f args => do
    if interp (.cons f args) then
      let args' ← canonsigArgs dontAddUse args
      let s ← sigma T (.cons f (ofList args'))
      canonsigCons T s dontAddUse
    else canonsigCons T (.cons f args) dontAddUse

def canonsigArgs (dontAddUse : Bool) : SExp → ProverM (List SExp)
  | .cons a d => do
    let a' ← canonsig dontAddUse a
    let d' ← canonsigArgs dontAddUse d
    pure (a' :: d')
  | _ => pure []

end

mutual

/-- `canon*`. Its memo table is left out: it is keyed by object identity and emptied by `canon`. -/
def canonStar (dontAddUse : Bool) : SExp → ProverM SExp
  | .cons f args => do
    if f = .sym "protect" then T.canonProtect (.cons f args) dontAddUse
    else
      let sg ← signature dontAddUse f args
      canonsig T dontAddUse sg
  | .sym n => canonsig T dontAddUse (.sym n)
  | .int i => canonsig T dontAddUse (.int i)

/-- `signature` of the term `(f . args)`. -/
def signature (dontAddUse : Bool) (f : SExp) : SExp → ProverM SExp
  | .cons (.cons op iargs) d => do
    if f = .sym "not" ∧ isineq (.cons op iargs) then
      let args' ← canonArgs dontAddUse iargs
      sigma T (.cons (negop op) (ofList (args'.take 2)))
    else
      let a' ← canonStar dontAddUse (.cons op iargs)
      let d' ← canonArgs dontAddUse d
      sigma T (.cons f (ofList (a' :: d')))
  | .cons a d => do
    let a' ← canonStar dontAddUse a
    let d' ← canonArgs dontAddUse d
    sigma T (.cons f (ofList (a' :: d')))
  | args => if uninterp (.cons f args) then pure f else sigma T (.cons f nil)

def canonArgs (dontAddUse : Bool) : SExp → ProverM (List SExp)
  | .cons a d => do
    let a' ← canonStar dontAddUse a
    let d' ← canonArgs dontAddUse d
    pure (a' :: d')
  | _ => pure []

end

def canon (term : SExp) (dontAddUse : Bool := false) : ProverM SExp := canonStar T dontAddUse term

/-! ### `solve` -/

/-- The type `solve` dispatches on. -/
def atfType (st : ProverState) (atf : SExp) : SExp :=
  let t1 := prtype st.typealist atf.arg1
  let t2 := prtype st.typealist atf.arg2
  if t1 = .sym "functional" then (if t2 = nil then .sym "functional" else t2)
  else if t1 = nil then t2 else t1

/-- `solve` on an equation of an uninterpreted type. -/
def solveEqual (atf : SExp) : SExp :=
  if atf.arg1 = atf.arg2 then tt
  else if atf.arg2 = ff ∧ isineq atf.arg1 then equal (negineq atf.arg1) tt
  else if atf.arg1 = ff ∧ isineq atf.arg2 then equal (negineq atf.arg2) tt
  else if atf.arg1 = tt then equal atf.arg2 tt
  else atf

/-- The flags `*lift-if-in-solve*` and `*split-on-if-in-solve*` are off. -/
def solve : SExp → ProverM (List SExp)
  | .cons f args => do
    if memq f ifops then
      pure [.cons f args]
    else if memq f arithrels then T.arithsolve (.cons f args)
    else
      let t := atfType (← get) (.cons f args)
      if t = nil ∨ t = .sym "functional" ∨ t = .sym "bool" then
        pure [if f = .sym "equal" then solveEqual (.cons f args) else equal (.cons f args) tt]
      else if t = .sym "number" ∨ t = .sym "integer" then T.arithsolve (.cons f args)
      else if t = .sym "tuple" then T.tupsolve (.cons f args)
      else T.arraysolve (.cons f args)
  | atf =>
    pure [if atf = tt then tt else if atf = ff then ff else equal atf tt]

/-! ### `process1` -/

def substArg (t1 t2 arg : SExp) : SExp := if arg = t1 then t2 else arg

/-- `newsig`: the signature of `u` with `t2` for `t1`. -/
def newSignature (st : ProverState) (u t1 t2 : SExp) : SExp :=
  .cons u.funsym (ofList ((sig st u).argsof.toList.map (substArg t1 t2)))

/-- Whether `u` fails to stand in for the entries with signature `newsig` on the other use lists. -/
def losesEntry (st : ProverState) (u newsig t2 : SExp) : Bool :=
  newsig.argsof.toList.all (fun z => find1 st z == nil) &&
    newsig.argsof.toList.any fun z => z != t2 && !(use st z).contains u

/-- Pushes the equation of `u` with `v`, which `pr-merge` takes off the use list of `t2`. -/
def equate (u newsig t2 v : SExp) : ProverM Unit := do
  let prU ← prFind u
  let prV ← prFind v
  let eqs ← solve T (equal prU prV)
  let plain := !prU.consp || uninterp prU || prtype (← get).typealist prU.funsym == .sym "bool"
  add2pot T (if plain then eqs else eqs ++ [equal prU prV])
  modify fun st =>
    if losesEntry st u newsig t2 then { st with dropped := (v, u) :: st.dropped } else st

/-- The loop over `use2`: equates `u` with the entries that have its new signature and takes them
off the list. -/
def dropCongruent (u newsig t2 : SExp) : List SExp → ProverM (List SExp)
  | [] => pure []
  | v :: use2 => do
    if newsig = sig (← get) v then
      if u ≠ v then equate T u newsig t2 v
      dropCongruent u newsig t2 use2
    else
      let rest ← dropCongruent u newsig t2 use2
      pure (v :: rest)

/-- One round of `pr-merge`'s loop over the use list of `t1`. -/
def mergeUse (t1 t2 : SExp) (t2IsLambda : Bool) (u : SExp) : ProverM Unit := do
  if u.funsym ≠ .sym "QUO" then
    let newsig := newSignature (← get) u t1 t2
    if t2IsLambda && u.consp && T.isSkolemizedApply (← get).applysymlist u && u.arg1 == t1 then
      T.mergeApplyLambda u newsig
    else if uninterp newsig then
      putsig newsig u
      let use2 ← dropCongruent T u newsig t2 (use (← get) t2)
      putuse (u :: use2) t2
    else T.mergeInterp u newsig t1 t2

def prMerge (l r : SExp) : ProverM Unit := do
  let t1 ← prFind l
  let t2 ← prFind r
  if t1 = t2 then pure ()
  else if t1.integerp && t2.integerp then retfalse
  else if t1.integerp then pure ()
  else if t1.consp && t1.car.consp then retfalse
  else
    let swap := t1.consp && isLambdaExpr t1
    let (t1, t2) := if swap then (t2, t1) else (t1, t2)
    let t2IsLambda := swap || (t2.consp && isLambdaExpr t2)
    if t2IsLambda && !t1.consp && functionIn t1 t2 then prUnion t2 t1 else prUnion t1 t2
    (timesOrUse (← get) t1).forM (mergeUse T t1 t2 t2IsLambda)

/-- `number_ineq`. -/
def numberIneq (typealist : List (SExp × SExp)) (term1 term2 : SExp) : Bool :=
  let ty := prtype typealist term1
  let ty := if ty = nil then prtype typealist term2 else ty
  ty == .sym "integer" || ty == .sym "number"

def addneq (neqn : SExp) : ProverM Unit := do
  let term1 := neqn.lside
  let term2 := neqn.rside
  if numberIneq (← get).typealist term1 term2 then T.addneqNumber term1 term2
  let fnsym := SExp.cons term1 term2
  adduse T (ofList [fnsym, term1]) term1
  adduse T (ofList [fnsym, term2]) term2
  if term2 = .int 0 then T.reprocessTimesuse term1

/-- One round of `process1`'s loop, `bools` being the list it returns in the end. -/
def process1Step (bools : List SExp) : ProverM (List SExp ⊕ List SExp) := do
  match (← get).s with
  | [] => pure (.inr bools)
  | exp :: rest =>
    modify fun st => { st with s := rest }
    if exp = tt then pure (.inl bools)
    else if exp = ff then retfalse
    else if exp.funsym = .sym "equal" then
      prMerge T exp.lside exp.rside
      pure (.inl bools)
    else if exp.funsym = .sym "nequal" then
      addneq T exp
      pure (.inl bools)
    else if memq exp.funsym arithrels then
      T.addineq exp
      pure (.inl bools)
    else pure (.inl (exp :: bools))

def process1 (s : List SExp) : ProverM SExp := do
  let bools ← bindS s (.loop (process1Step T) [])
  pure (ofList bools)

/-! ### `process` -/

/-- `nsolve` on an equation of an uninterpreted type: `false` if its sides are the same, `true` if
adding it to the context throws. -/
def nsolveEqual (atf : SExp) : ProverM SExp := do
  if atf.arg1 = atf.arg2 then pure ff
  else
    let result ← newcontext (process1 T [atf])
    if result = tt then retfalse
    else if result = ff then pure tt
    else pure (nequal atf.arg1 atf.arg2)

def nsolve : SExp → ProverM (List SExp)
  | .cons f args => do
    if memq f ifops then T.nsolveIf (.cons f args)
    else if memq f arithrels then T.arithnsolve (.cons f args)
    else
      let atf := SExp.cons f args
      let t := atfType (← get) atf
      if t = nil ∨ t = .sym "functional" ∨ t = .sym "bool" then
        if f = .sym "equal" then
          let a ← nsolveEqual T atf
          pure [a]
        else if f = .sym "nequal" then
          pure [if atf.arg1 = atf.arg2 then tt else equal atf.arg1 atf.arg2]
        else pure [equal atf ff]
      else if t = .sym "number" ∨ t = .sym "integer" then T.arithnsolve atf
      else if t = .sym "tuple" then T.tupnsolve atf
      else T.arraynsolve atf
  | atf =>
    pure [if atf = tt then ff else if atf = ff then tt else equal atf ff]

def solvecan (atf : SExp) : ProverM (List SExp) := do
  if atf.consp && atf.funsym == .sym "equal" then
    let l ← canon T atf.lside
    let r ← canon T atf.rside
    if subtermof l r then solve T (equal r l) else solve T (equal l r)
  else
    let a ← canon T atf
    solve T a

def nsolvecan (atf : SExp) : ProverM (List SExp) := do
  if atf.consp && atf.funsym == .sym "equal" then
    let l ← canon T atf.lside
    let r ← canon T atf.rside
    if subtermof l r then nsolve T (equal r l) else nsolve T (equal l r)
  else
    let a ← canon T atf
    nsolve T a

/-- The end of `process`, once the literal is solved. -/
def processSolved (s : List SExp) : ProverM SExp :=
  if s = [tt] then pure tt
  else if s = [ff] then retfalse
  else process1 T s

def process (lit : SExp) : ProverM SExp := do
  if lit.consp && lit.funsym == .sym "not" then
    let s ← nsolvecan T lit.arg1
    processSolved T s
  else if (lit.consp && lit.car == tt) || lit == tt then pure tt
  else if (lit.consp && lit.car == ff) || lit == ff then retfalse
  else
    let s ← solvecan T lit
    processSolved T s

def primtypealist : List (SExp × SExp) :=
  [("true", "bool"), ("false", "bool"), ("and", "bool"), ("or", "bool"), ("not", "bool"),
    ("implies", "bool"), ("iff", "bool"), ("equal", "bool"), ("lessp", "bool"),
    ("lesseqp", "bool"), ("greaterp", "bool"), ("greatereqp", "bool"), ("QUO", "number"),
    ("PLUS", "number"), ("MINUS", "number"), ("DIFFERENCE", "number"), ("TIMES", "number"),
    ("DIVIDE", "number"), ("tupcons", "tuple"), ("update", "array"), ("arrayrest", "array"),
    ("TUPSEL-integer", "integer"), ("TUPSEL-number", "number"), ("TUPSEL-bool", "bool")].map
    fun (n, t) => (.sym n, .sym t)

def initprover : ProverM SExp := do
  modify fun st => { st with
    typealist := primtypealist, sigalist := [], findalist := [], usealist := []
    applysymlist := [], dropped := [] }
  process T (form "not" [equal tt ff])

/-- `process` on one literal after the other. -/
def processAll : List SExp → ProverM Unit
  | [] => pure ()
  | lit :: lits => do
    let _ ← process T lit
    processAll lits

end

end PVS.GroundProver
