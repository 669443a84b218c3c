import Mathlib.Data.List.Sort
import PVS.GroundProver.Rational

/-! The arithmetic canonizer of `arith.lisp`, with `*printerpdivide*` = `'yes`. -/

namespace PVS.GroundProver

open SExp

abbrev plus (args : List SExp) : SExp := form "PLUS" args
abbrev times (args : List SExp) : SExp := form "TIMES" args
abbrev divide (a b : SExp) : SExp := form "DIVIDE" [a, b]

def isForm (f : String) (t : SExp) : Bool := t.consp && t.funsym == .sym f

/-! ### The order on terms -/

def timesArithordRep (x : SExp) : SExp := if qnumberp x.arg1 then x.arg2 else x.arg1

theorem size_timesArithordRep_lt {x : SExp} (h : x.consp = true) :
    (timesArithordRep x).size < x.size := by
  have h1 := SExp.size_cdr_lt h
  have h2 : x.arg1.size ≤ x.cdr.size := SExp.size_car_le x.cdr
  have h3 : x.arg2.size ≤ x.cdr.cdr.size := SExp.size_car_le x.cdr.cdr
  have h4 := SExp.size_cdr_le x.cdr
  unfold timesArithordRep
  split <;> omega

def arithordRep (x : SExp) : SExp :=
  if _h : x.consp = true then
    if x.funsym = .sym "TIMES" then timesArithordRep x
    else if x.funsym = .sym "PLUS" then arithordRep (timesArithordRep x)
    else if x.funsym = .sym "DIVIDE" then arithordRep (timesArithordRep x)
    else x
  else x
termination_by x.size
decreasing_by all_goals exact size_timesArithordRep_lt _h

def divArithordRep (x : SExp) : SExp := arithordRep (timesArithordRep x)

theorem size_arithordRep_le (x : SExp) : (arithordRep x).size ≤ x.size := by
  fun_induction arithordRep x with
  | case1 x h _ => exact (size_timesArithordRep_lt h).le
  | case2 x h _ _ ih => exact ih.trans (size_timesArithordRep_lt h).le
  | case3 x h _ _ _ ih => exact ih.trans (size_timesArithordRep_lt h).le
  | case4 => exact le_rfl
  | case5 => exact le_rfl

theorem size_divArithordRep_lt {x : SExp} (h : x.consp = true) :
    (divArithordRep x).size < x.size :=
  (size_arithordRep_le _).trans_lt (size_timesArithordRep_lt h)

/-- The arguments, a numeric first one left out. -/
def arithcdr (x : SExp) : SExp :=
  if x.cdr.consp && qnumberp x.cdr.car then x.cdr.cdr else x.cdr

theorem size_arithcdr_lt {x : SExp} (h : x.consp = true) : (arithcdr x).size < x.size := by
  have h1 := SExp.size_cdr_lt h
  have h2 := SExp.size_cdr_le x.cdr
  unfold arithcdr
  split <;> omega

/-- `string<`. -/
def alphalessp : SExp → SExp → Bool
  | .sym a, .sym b => a < b
  | _, _ => false

def arithord1 (u v : SExp) : Bool :=
  if u = nil then false
  else if v = nil then true
  else if u.symbolp then
    if v.symbolp then alphalessp u v
    else if qnumberp v then false
    else if _hv : v.consp = true then
      if v.car = .sym "TIMES" then
        u != timesArithordRep v && arithord1 u (timesArithordRep v)
      else if v.car = .sym "DIVIDE" then
        u != divArithordRep v && arithord1 u (divArithordRep v)
      else true
    else true
  else if v.symbolp then
    if _hu : u.consp = true then
      qnumberp u ||
        (u.car == .sym "TIMES" &&
          (timesArithordRep u == v || arithord1 (timesArithordRep u) v)) ||
        (u.car == .sym "DIVIDE" &&
          (divArithordRep u == v || arithord1 (divArithordRep u) v))
    else qnumberp u
  else if qnumberp u then
    if qnumberp v then qlessp u v else true
  else if qnumberp v then false
  else if _h : u.consp = true ∧ v.consp = true then
    if u.car = .sym "TIMES" then
      if v.car = .sym "TIMES" then
        arithord1 (timesArithordRep u) (timesArithordRep v) ||
          (timesArithordRep u == timesArithordRep v && arithord1 (arithcdr u) (arithcdr v))
      else timesArithordRep u == v || arithord1 (timesArithordRep u) v
    else if u.car = .sym "DIVIDE" then
      if v.car = .sym "DIVIDE" then
        arithord1 (divArithordRep u) (divArithordRep v) ||
          (divArithordRep u == divArithordRep v && arithord1 (arithcdr u) (arithcdr v))
      else divArithordRep u == v || arithord1 (divArithordRep u) v
    else if v.car = .sym "TIMES" then arithord1 u (timesArithordRep v)
    else if v.car = .sym "DIVIDE" then arithord1 u (divArithordRep v)
    else if u.car = v.car then arithord1 u.cdr v.cdr
    else arithord1 u.car v.car
  else false
termination_by u.size + v.size
decreasing_by
  all_goals
    first
    | have := size_timesArithordRep_lt _hv; have := size_divArithordRep_lt _hv; omega
    | have := size_timesArithordRep_lt _hu; have := size_divArithordRep_lt _hu; omega
    | have := size_timesArithordRep_lt _h.1
      have := size_timesArithordRep_lt _h.2
      have := size_divArithordRep_lt _h.1
      have := size_divArithordRep_lt _h.2
      have := size_arithcdr_lt _h.1
      have := size_arithcdr_lt _h.2
      have := SExp.size_cdr_lt _h.1
      have := SExp.size_cdr_lt _h.2
      have := SExp.size_car_lt _h.1
      have := SExp.size_car_lt _h.2
      omega

def arithord (u v : SExp) : Bool := arithord1 u v

/-! ### Sums -/

/-- The specials `const` and `sum`; `sum` has the terms with their coefficients. -/
abbrev Addends : Type := SExp × List (SExp × SExp)

def addtosum (u coef : SExp) : List (SExp × SExp) → List (SExp × SExp)
  | [] => [(u, coef)]
  | (v, c) :: sum =>
    if v = u then (v, qnorm (qplus c coef)) :: sum
    else if arithord u v then (u, coef) :: (v, c) :: sum
    else (v, c) :: addtosum u coef sum

mutual

def buildsum : SExp → Addends → Addends
  | .cons f args, (const, sum) =>
    if qnumberp (.cons f args) then (qplus (.cons f args) const, sum)
    else if f = .sym "TIMES" ∧ qnumberp args.car then
      (const, addtosum args.cdr.car args.car sum)
    else if f = .sym "PLUS" then buildsumArgs args (const, sum)
    else (const, addtosum (.cons f args) (.int 1) sum)
  | .int i, (const, sum) => (qplus (.int i) const, sum)
  | .sym n, (const, sum) => (const, addtosum (.sym n) (.int 1) sum)

def buildsumArgs : SExp → Addends → Addends
  | .cons v args, s => buildsumArgs args (buildsum v s)
  | _, s => s

end

def collectsum (s : List (SExp × SExp)) : List SExp :=
  s.filterMap fun p =>
    if qzerop p.2 then none
    else if qeqp p.2 (.int 1) then some p.1
    else some (times [p.2, p.1])

def sumTerm (const : SExp) : List SExp → SExp
  | [] => const
  | [t] => if const = .int 0 then t else plus [const, t]
  | result => if const = .int 0 then plus result else plus (const :: result)

def sigplus (u : SExp) : SExp :=
  let (const, sum) := buildsumArgs u.cdr (.int 0, [])
  sumTerm (qnorm const) (collectsum sum)

/-! ### Products -/

/-- `*infinity*`, an uninterned symbol. -/
def infinity : SExp := .sym "#:*-infinity"

def makeInverse1 (denom : SExp) : SExp := if denom = infinity then .int 0 else divide (.int 1) denom

def makeInverse (denom : SExp) : SExp :=
  if isForm "DIVIDE" denom then denom.arg2 else makeInverse1 denom

/-- The specials `coef` and `product`. -/
abbrev Factors : Type := SExp × List SExp

/-- What is thrown to `fastexit`: 0, or `(distrib u)`. -/
inductive FastExit
  | zero
  | distrib (u : SExp)
  deriving DecidableEq

/-- `arg` cancels with an inverse that is there already. -/
def cancel (inverse arg : SExp) (product : List SExp) : List SExp :=
  if inverse ∈ product then product.erase inverse else product ++ [arg]

mutual

/-- The first argument is the special `u`: at the top level the product itself, inside a `TIMES`
the factor itself, since the loop there binds it again. -/
def buildproduct (u : SExp) : SExp → Factors → Except FastExit Factors
  | .cons f args, (coef, product) =>
    if qnumberp (.cons f args) then
      if qzerop (.cons f args) then .error .zero
      else .ok (qtimes (.cons f args) coef, product)
    else if f = .sym "DIVIDE" then .ok (coef, cancel args.cdr.car (.cons f args) product)
    else if f = .sym "TIMES" then buildproductArgs args (coef, product)
    else if f = .sym "PLUS" then .error (.distrib u)
    else .ok (coef, cancel (makeInverse1 (.cons f args)) (.cons f args) product)
  | .int i, (coef, product) =>
    if i = 0 then .error .zero else .ok (qtimes (.int i) coef, product)
  | .sym n, (coef, product) => .ok (coef, cancel (makeInverse1 (.sym n)) (.sym n) product)

/-- `(loop for u in args do (buildproduct u))`. -/
def buildproductArgs : SExp → Factors → Except FastExit Factors
  | .cons u args, p => buildproduct u u p >>= buildproductArgs args
  | _, p => .ok p

end

/-- `(mapc #'buildproduct (cdr u))`. -/
def buildproducts (u : SExp) : Except FastExit Factors :=
  u.cdr.toList.foldlM (fun p arg => buildproduct u arg p) (.int 1, [])

def productTerm : Factors → SExp
  | (coef, product) =>
    let coef := qnorm coef
    match product with
    | [] => coef
    | [t] => if coef = .int 1 then t else times [coef, t]
    | _ =>
      let t := times (product.insertionSort fun a b => arithord b a = false)
      if coef = .int 1 then t else times [coef, t]

def distrib2 (term : SExp) (product : List (List SExp)) : List (List SExp) :=
  product.map fun prodarg => term :: prodarg

def distrib1 : List SExp → List (List SExp) → List (List SExp)
  | [], sum => sum
  | t :: product, sum =>
    if isForm "PLUS" t then
      t.cdr.toList.flatMap fun arg => distrib2 arg (distrib1 product sum)
    else distrib2 t (distrib1 product sum)

/-! The throw of `(distrib u)` is about smaller products. -/

theorem isForm_iff {f : String} {t : SExp} : isForm f t = true ↔ ∃ args, t = .cons (.sym f) args := by
  cases t with
  | cons a d => simp [isForm]
  | _ => simp [isForm, consp]

theorem SExp.size_ofList_toList_le (t : SExp) : (ofList t.toList).size ≤ t.size := by
  induction t with
  | cons a d _ ih => simpa [toList] using ih
  | _ => exact le_rfl

theorem size_of_mem_distrib1 {product l : List SExp} (h : l ∈ distrib1 product [[]]) :
    (ofList l).size ≤ (ofList product).size ∧
      (product.any (isForm "PLUS") = true → (ofList l).size < (ofList product).size) := by
  induction product generalizing l with
  | nil =>
    obtain rfl : l = [] := by simpa [distrib1] using h
    exact ⟨le_rfl, by simp⟩
  | cons t product ih =>
    unfold distrib1 at h
    split at h
    case isTrue ht =>
      simp only [List.mem_flatMap, distrib2, List.mem_map] at h
      obtain ⟨arg, harg, l', hl', rfl⟩ := h
      have h1 := SExp.size_lt_of_mem_toList harg
      have h2 := SExp.size_cdr_le t
      have h3 := (ih hl').1
      simp only [ofList_cons, SExp.size_cons]
      omega
    case isFalse ht =>
      simp only [distrib2, List.mem_map] at h
      obtain ⟨l', hl', rfl⟩ := h
      obtain ⟨h3, h4⟩ := ih hl'
      simp only [ofList_cons, SExp.size_cons, List.any_cons, Bool.not_eq_true _ ▸ ht, Bool.false_or]
      exact ⟨by omega, fun hp => by have := h4 hp; omega⟩

mutual

theorem buildproduct_distrib {u u' : SExp} : ∀ {arg : SExp} {p : Factors},
    buildproduct u arg p = .error (.distrib u') →
      (u' = u ∧ isForm "PLUS" arg = true) ∨ (isForm "PLUS" u' = true ∧ u'.size < arg.size)
  | .sym n, (coef, product), h => by simp [buildproduct] at h
  | .int i, (coef, product), h => by
    unfold buildproduct at h
    split at h <;> simp at h
  | .cons f args, (coef, product), h => by
    unfold buildproduct at h
    split at h
    · split at h <;> simp at h
    · split at h
      · simp at h
      · split at h
        · have := buildproductArgs_distrib h
          refine .inr ⟨this.1, ?_⟩
          simp only [SExp.size_cons]
          omega
        · split at h
          case isTrue hf =>
            left
            simpa [isForm, hf, eq_comm] using h
          case isFalse => simp at h

theorem buildproductArgs_distrib {u' : SExp} : ∀ {args : SExp} {p : Factors},
    buildproductArgs args p = .error (.distrib u') → isForm "PLUS" u' = true ∧ u'.size < args.size
  | .sym n, p, h => by simp [buildproductArgs] at h
  | .int i, p, h => by simp [buildproductArgs] at h
  | .cons a args, p, h => by
    unfold buildproductArgs at h
    simp only [SExp.size_cons]
    cases e : buildproduct a a p with
    | error x =>
      rw [e] at h
      obtain rfl : x = .distrib u' := by simpa [bind, Except.bind] using h
      rcases buildproduct_distrib e with ⟨rfl, ha⟩ | ⟨hu, hlt⟩
      · exact ⟨ha, by omega⟩
      · exact ⟨hu, by omega⟩
    | ok p' =>
      rw [e] at h
      have : isForm "PLUS" u' = true ∧ u'.size < args.size := buildproductArgs_distrib h
      exact ⟨this.1, by omega⟩

end

theorem foldlM_buildproduct_distrib {u u' : SExp} {l : List SExp} {p : Factors}
    (h : l.foldlM (fun p arg => buildproduct u arg p) p = .error (.distrib u')) :
    ∃ arg ∈ l, (u' = u ∧ isForm "PLUS" arg = true) ∨
      (isForm "PLUS" u' = true ∧ u'.size < arg.size) := by
  induction l generalizing p with
  | nil => simp [pure, Except.pure] at h
  | cons a l ih =>
    rw [List.foldlM_cons] at h
    cases e : buildproduct u a p with
    | error x =>
      rw [e] at h
      obtain rfl : x = .distrib u' := by simpa [bind, Except.bind] using h
      exact ⟨a, by simp, buildproduct_distrib e⟩
    | ok p' =>
      rw [e] at h
      obtain ⟨arg, hm, harg⟩ := ih h
      exact ⟨arg, by simp [hm], harg⟩

theorem size_of_buildproducts {u u' : SExp} {l : List SExp}
    (h : buildproducts u = .error (.distrib u')) (hl : l ∈ distrib1 u'.cdr.toList [[]]) :
    (times l).size < u.size := by
  obtain ⟨arg, hm, harg⟩ := foldlM_buildproduct_distrib h
  have h1 := SExp.size_lt_of_mem_toList hm
  have h2 := size_of_mem_distrib1 hl
  have h3 := SExp.size_ofList_toList_le u'.cdr
  have hcons : ∀ t : SExp, 1 < t.size → t.size = 1 + t.car.size + t.cdr.size := by
    intro t ht
    cases t with
    | cons a d => rfl
    | _ => simp [SExp.size] at ht
  have harg0 := arg.size_pos
  have h4 := u.size_cdr_le
  have h5 := hcons u (by omega)
  have h6 := u.car.size_pos
  simp only [SExp.size]
  rcases harg with ⟨rfl, hp⟩ | ⟨hp, hlt⟩
  · have := h2.2 (List.any_eq_true.2 ⟨arg, hm, hp⟩)
    omega
  · obtain ⟨args, rfl⟩ := isForm_iff.1 hp
    simp only [SExp.size, cdr_cons] at *
    omega

def sigtimes (u : SExp) : SExp :=
  match _h : buildproducts u with
  | .ok p => productTerm p
  | .error .zero => .int 0
  | .error (.distrib u') =>
    sigplus (plus ((distrib1 u'.cdr.toList [[]]).attach.map fun arg => sigtimes (times arg.1)))
termination_by u.size
decreasing_by exact size_of_buildproducts _h arg.2

def distrib (u : SExp) : SExp :=
  sigplus (plus ((distrib1 u.cdr.toList [[]]).map fun arg => sigtimes (times arg)))

theorem sigtimes_eq (u : SExp) :
    sigtimes u = match buildproducts u with
      | .ok p => productTerm p
      | .error .zero => .int 0
      | .error (.distrib u') => distrib u' := by
  rw [sigtimes]
  split <;> rename_i h <;> rw [h]
  unfold distrib
  congr 2
  exact List.attach_map_val (f := fun arg => sigtimes (times arg))

mutual

def sigminus1 : SExp → SExp
  | .cons f args =>
    if qnumberp (.cons f args) then qminus (.cons f args)
    else if f = .sym "TIMES" ∧ qnumberp args.car then
      sigtimes (.cons (.sym "TIMES") (.cons (qminus args.car) args.cdr))
    else if f = .sym "PLUS" then sigplus (plus (sigminus1Args args))
    else sigtimes (times [.int (-1), .cons f args])
  | .int i => qminus (.int i)
  | .sym n => times [.int (-1), .sym n]

def sigminus1Args : SExp → List SExp
  | .cons a args => sigminus1 a :: sigminus1Args args
  | _ => []

end

def sigminus (u : SExp) : SExp := sigminus1 u.arg1

def sigdifference (u : SExp) : SExp := sigplus (plus [u.arg1, sigminus1 u.arg2])

/-! ### Quotients -/

def makeProductFromNumer : SExp → Factors → Factors
  | .cons f args, (coef, product) =>
    if qnumberp (.cons f args) then (qtimes coef (.cons f args), product)
    else if f = .sym "TIMES" then
      match args with
      | .cons a (.cons b _) =>
        if qnumberp a then makeProductFromNumer b (qtimes coef a, product)
        else (coef, product ++ args.toList)
      | _ =>
        if qnumberp args.car then (qtimes coef args.car, product ++ [nil])
        else (coef, product ++ args.toList)
    else (coef, product ++ [.cons f args])
  | .int i, (coef, product) => (qtimes coef (.int i), product)
  | .sym n, (coef, product) => (coef, product ++ [.sym n])

theorem makeProductFromNumer_cons (f args : SExp) (p : Factors) :
    makeProductFromNumer (.cons f args) p =
      if qnumberp (.cons f args) then (qtimes p.1 (.cons f args), p.2)
      else if f = .sym "TIMES" then
        if qnumberp args.car then makeProductFromNumer args.cdr.car (qtimes p.1 args.car, p.2)
        else (p.1, p.2 ++ args.toList)
      else (p.1, p.2 ++ [.cons f args]) := by
  rw [makeProductFromNumer.eq_def]
  cases args with
  | cons a d => cases d <;> rfl
  | _ => rfl

mutual

def makeProductFromDenom : SExp → Factors → Factors
  | .cons f args, (coef, product) =>
    if qnumberp (.cons f args) then
      if qzerop (.cons f args) then makeProductFromNumer infinity (coef, product)
      else (qquotient coef (.cons f args), product)
    else if f = .sym "TIMES" then makeProductFromDenoms args (coef, product)
    else (coef, cancel (.cons f args) (makeInverse (.cons f args)) product)
  | .int i, (coef, product) =>
    if i = 0 then makeProductFromNumer infinity (coef, product)
    else (qquotient coef (.int i), product)
  | .sym n, (coef, product) => (coef, cancel (.sym n) (makeInverse1 (.sym n)) product)

def makeProductFromDenoms : SExp → Factors → Factors
  | .cons d args, p => makeProductFromDenoms args (makeProductFromDenom d p)
  | _, p => p

end

def splitNumer (numer1 : SExp) : SExp × SExp :=
  if isForm "DIVIDE" numer1 then (numer1.arg1, numer1.arg2) else (numer1, .int 1)

/-- The numerator and the denominator after quotients in either of them are resolved. -/
def sigdivideParts (numer1 denom1 : SExp) : SExp × SExp :=
  let numer := (splitNumer numer1).1
  let denom := (splitNumer numer1).2
  if isForm "DIVIDE" denom1 then
    (sigtimes (times [numer, denom1.arg2]), sigtimes (times [denom, denom1.arg1]))
  else (numer, sigtimes (times [denom, denom1]))

def makeQuotient (numer denom : SExp) : SExp :=
  if denom.symbolp || isForm "PLUS" denom then sigtimes (times [numer, makeInverse1 denom])
  else productTerm (makeProductFromDenom denom (makeProductFromNumer numer (.int 1, [])))

def sigdivide (u : SExp) : SExp :=
  let parts := sigdivideParts u.arg1 u.arg2
  makeQuotient parts.1 parts.2

/-- `sigma` on arithmetic. -/
def sigmaArith (term : SExp) : SExp :=
  if term.symbolp || qnumberp term then term
  else if isForm "PLUS" term then sigplus term
  else if isForm "TIMES" term then sigtimes term
  else if isForm "DIVIDE" term then sigdivide term
  else if isForm "MINUS" term then sigminus term
  else if isForm "DIFFERENCE" term then sigdifference term
  else term

mutual

/-- `sigma` from the bottom up. That the use lists are extended on the way is left out. -/
def arithcan : SExp → SExp
  | .cons f args =>
    if qnumberp (.cons f args) then .cons f args else sigmaArith (.cons f (ofList (arithcanArgs args)))
  | t => t

def arithcanArgs : SExp → List SExp
  | .cons a args => arithcan a :: arithcanArgs args
  | _ => []

end

end PVS.GroundProver
