import PVS.GroundProver.Process

/-! `arraysolve` of `arrays.lisp`, the solver for equations between arrays. The calls
`(newcontext (process-no-canon e))` and `(solve e)` it makes are a parameter, since they depend on
the context; both leave the context as it was. -/

namespace PVS.GroundProver

open SExp

/-- What `(newcontext (process-no-canon e))` comes back with; `nil` is `bools []`. -/
inductive Answer
  | true
  | false
  | bools (l : List SExp)
  deriving DecidableEq

structure Calls where
  typealist : List (SExp × SExp)
  processNoCanon : SExp → Answer
  solve : SExp → List SExp

abbrev update (a i v : SExp) : SExp := form "update" [a, i, v]

@[simp] theorem arg1_update (a i v : SExp) : (update a i v).arg1 = a := rfl
@[simp] theorem arg2_update (a i v : SExp) : (update a i v).arg2 = i := rfl
@[simp] theorem arg3_update (a i v : SExp) : (update a i v).arg3 = v := rfl

def updatep (term : SExp) : Bool := term.consp && term.funsym == .sym "update"

@[simp] theorem updatep_update (a i v : SExp) : updatep (update a i v) = Bool.true := by
  simp [updatep]

/-- The name `applysym1` makes. That it is entered in `typealist` and `applysymlist` as well is left
out: `typealist` here is one that has it. -/
def applysym1 (type : SExp) (nargs : ℕ) : SExp :=
  .sym ("APPLY-" ++ toString nargs ++ "-" ++ match type with
    | .sym n => if n = "nil" then "" else n
    | _ => "")

def makeAryApply (retType array : SExp) (args : List SExp) : SExp :=
  .cons (applysym1 retType args.length) (.cons array (ofList args))

section

variable (C : Calls)

/-- The arguments of an application at the index `i`. -/
def indexArgs (i : SExp) : List SExp :=
  if prtype C.typealist i = .sym "tuple" then i.cdr.toList else [i]

/-- The read of the array `a` at `i`, of the type of the value `v`. -/
def readAt (a i v : SExp) : SExp := makeAryApply (prtype C.typealist v) a (indexArgs C i)

def processResult2 (leftside newRightside : SExp) : Answer :=
  let result := C.processNoCanon (equal leftside newRightside)
  if !updatep newRightside then (if result = .true then .true else .bools []) else result

/-- The `cond` of `arraysolve` on the two reads. -/
def resultOfReads (leftside rightside : SExp) : Answer → Answer → List SExp
  | .false, _ | _, .false =>
    C.solve (equal leftside.arg2 rightside.arg2) ++ C.solve (equal leftside.arg3 rightside.arg3)
  | .bools [], .bools [] => [equal leftside rightside]
  | .true, .true => [tt]
  | .true, .bools res2 => res2
  | .bools res1, .true => res1
  | .bools res1, .bools res2 => res1 ++ res2

/-- Two updates. -/
def arraysolveUpdates (leftside rightside : SExp) : List SExp :=
  let resarray := C.processNoCanon (equal leftside.arg1 rightside.arg1)
  let resindex := C.processNoCanon (equal leftside.arg2 rightside.arg2)
  if resarray = .true ∧ resindex = .true then
    match C.processNoCanon (equal leftside.arg3 rightside.arg3) with
    | .bools [] => C.solve (equal leftside.arg3 rightside.arg3)
    | .true => [tt]
    | .false => [ff]
    | .bools resval => resval
  else if resarray = .true then
    let res1 := C.processNoCanon
      (equal (readAt C leftside.arg1 leftside.arg2 rightside.arg3) rightside.arg3)
    let res2 := C.processNoCanon
      (equal (readAt C rightside.arg1 rightside.arg2 leftside.arg3) leftside.arg3)
    resultOfReads C leftside rightside res1 res2
  else [equal leftside rightside]

/-- The `cond` of `arraysolve` on the read of the left side and on the equation with the array
updated. -/
def resultOfRead (leftside rightside : SExp) : Answer → Answer → List SExp
  | .false, _ => [ff]
  | _, .false =>
    let testEqualAtRightIndex := C.processNoCanon
      (equal (readAt C leftside rightside.arg2 rightside.arg3)
        (readAt C rightside.arg1 rightside.arg2 rightside.arg3))
    if testEqualAtRightIndex = .true then [ff] else [equal leftside rightside]
  | .true, .true => [tt]
  | .true, .bools result2 => if result2 = [] then [equal leftside rightside] else result2
  | .bools result1, .true => if result1 = []
    then [equal (readAt C leftside rightside.arg2 rightside.arg3) rightside.arg3] else result1
  | .bools [], .bools [] => [equal leftside rightside]
  | .bools result1, .bools result2 => result2 ++ result1

/-- An update on the right side only. -/
def arraysolveUpdate (leftside rightside : SExp) : List SExp :=
  let read := readAt C leftside rightside.arg2 rightside.arg3
  let result1 := C.processNoCanon (equal read rightside.arg3)
  let result2 := processResult2 C leftside rightside.arg1
  resultOfRead C leftside rightside result1 result2

def arraysolveEqual (leftside rightside : SExp) : List SExp :=
  if leftside = rightside then [tt]
  else if updatep leftside && updatep rightside then arraysolveUpdates C leftside rightside
  else if !updatep leftside && updatep rightside then arraysolveUpdate C leftside rightside
  else [equal leftside rightside]

/-- An update on the left side only is swapped by a recursive call. -/
def arraysolve (atf : SExp) : List SExp :=
  if atf.funsym = .sym "equal" then
    if updatep atf.lside && !updatep atf.rside then arraysolveEqual C atf.rside atf.lside
    else arraysolveEqual C atf.lside atf.rside
  else [equal atf tt]

end

end PVS.GroundProver
