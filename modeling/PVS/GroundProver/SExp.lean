import Mathlib.Logic.Basic
import Mathlib.Data.String.Basic
import Mathlib.Order.Nat

/-! The Lisp data the ground prover works on, with the accessor macros of `prmacros.lisp`. -/

namespace PVS.GroundProver

inductive SExp
  | sym (name : String)
  | int (i : Int)
  | cons (car cdr : SExp)
  deriving DecidableEq, Repr

namespace SExp

@[match_pattern] def nil : SExp := .sym "nil"

def car : SExp → SExp
  | .cons a _ => a
  | _ => nil

def cdr : SExp → SExp
  | .cons _ d => d
  | _ => nil

def consp : SExp → Bool
  | .cons _ _ => true
  | _ => false

def symbolp : SExp → Bool
  | .sym _ => true
  | _ => false

def integerp : SExp → Bool
  | .int _ => true
  | _ => false

def listp (t : SExp) : Bool := t.consp || t == nil

def ofList : List SExp → SExp
  | [] => nil
  | a :: l => .cons a (ofList l)

/-- The elements a `loop for x in t` runs over. -/
def toList : SExp → List SExp
  | .cons a d => a :: d.toList
  | _ => []

@[simp] theorem toList_ofList (l : List SExp) : (ofList l).toList = l := by
  induction l with
  | nil => rfl
  | cons a l ih => simp [ofList, toList, ih]

theorem ofList_injective : Function.Injective ofList := by
  intro l l' h
  simpa using congrArg toList h

@[simp] theorem ofList_inj {l l' : List SExp} : ofList l = ofList l' ↔ l = l' :=
  ofList_injective.eq_iff

def toInt : SExp → ℤ
  | .int i => i
  | _ => 0

abbrev funsym (t : SExp) : SExp := t.car
abbrev argsof (t : SExp) : SExp := t.cdr
abbrev arg1 (t : SExp) : SExp := t.cdr.car
abbrev arg2 (t : SExp) : SExp := t.cdr.cdr.car
abbrev arg3 (t : SExp) : SExp := t.cdr.cdr.cdr.car
abbrev lside (t : SExp) : SExp := t.cdr.car
abbrev rside (t : SExp) : SExp := t.cdr.cdr.car

/-- A form `(f a₁ … aₙ)`. -/
abbrev form (f : String) (args : List SExp) : SExp := .cons (.sym f) (ofList args)

abbrev equal (l r : SExp) : SExp := form "equal" [l, r]
abbrev nequal (l r : SExp) : SExp := form "nequal" [l, r]
abbrev tt : SExp := .sym "true"
abbrev ff : SExp := .sym "false"

@[simp] theorem car_cons (a d : SExp) : (SExp.cons a d).car = a := rfl
@[simp] theorem cdr_cons (a d : SExp) : (SExp.cons a d).cdr = d := rfl
@[simp] theorem consp_cons (a d : SExp) : (SExp.cons a d).consp = Bool.true := rfl
@[simp] theorem symbolp_cons (a d : SExp) : (SExp.cons a d).symbolp = Bool.false := rfl
@[simp] theorem integerp_cons (a d : SExp) : (SExp.cons a d).integerp = Bool.false := rfl
@[simp] theorem consp_sym (n : String) : (SExp.sym n).consp = Bool.false := rfl
@[simp] theorem symbolp_sym (n : String) : (SExp.sym n).symbolp = Bool.true := rfl
@[simp] theorem integerp_sym (n : String) : (SExp.sym n).integerp = Bool.false := rfl
@[simp] theorem ofList_nil : ofList [] = nil := rfl
@[simp] theorem ofList_cons (a : SExp) (l : List SExp) : ofList (a :: l) = .cons a (ofList l) := rfl
@[simp] theorem nil_car : nil.car = nil := rfl
@[simp] theorem nil_cdr : nil.cdr = nil := rfl
@[simp] theorem toList_nil : nil.toList = [] := rfl
@[simp] theorem toList_cons (a d : SExp) : (SExp.cons a d).toList = a :: d.toList := rfl
@[simp] theorem funsym_equal (l r : SExp) : (equal l r).funsym = .sym "equal" := rfl
@[simp] theorem arg1_equal (l r : SExp) : (equal l r).arg1 = l := rfl
@[simp] theorem arg2_equal (l r : SExp) : (equal l r).arg2 = r := rfl
@[simp] theorem lside_equal (l r : SExp) : (equal l r).lside = l := rfl
@[simp] theorem rside_equal (l r : SExp) : (equal l r).rside = r := rfl
@[simp] theorem lside_nequal (l r : SExp) : (nequal l r).lside = l := rfl
@[simp] theorem rside_nequal (l r : SExp) : (nequal l r).rside = r := rfl
@[simp] theorem cons_ne_nil (a d : SExp) : SExp.cons a d ≠ nil := by simp [nil]

/-! ### Size -/

def size : SExp → ℕ
  | .cons a d => 1 + a.size + d.size
  | _ => 1

theorem size_pos (t : SExp) : 0 < t.size := by cases t <;> simp [size]

@[simp] theorem size_cons (a d : SExp) : (SExp.cons a d).size = 1 + a.size + d.size := rfl

theorem size_car_lt {t : SExp} (h : t.consp = true) : t.car.size < t.size := by
  cases t with
  | cons a d => simp; omega
  | _ => simp [consp] at h

theorem size_car_le (t : SExp) : t.car.size ≤ t.size := by
  cases t with
  | cons a d => simp; omega
  | _ => exact le_rfl

theorem size_cdr_lt {t : SExp} (h : t.consp = true) : t.cdr.size < t.size := by
  cases t with
  | cons a d => simp
  | _ => simp [consp] at h

theorem size_cdr_le (t : SExp) : t.cdr.size ≤ t.size := by
  cases t with
  | cons a d => simp
  | _ => exact le_rfl

theorem size_lt_of_mem_toList {a t : SExp} (h : a ∈ t.toList) : a.size < t.size := by
  induction t with
  | cons b d _ ih =>
    simp only [toList_cons, List.mem_cons] at h
    rcases h with rfl | h
    · simp only [size_cons]
      omega
    · have := ih h
      simp only [size_cons]
      omega
  | _ => simp [toList] at h

theorem size_args_lt (f args : SExp) : args.car.size < (SExp.cons f args).size ∧
    args.cdr.car.size < (SExp.cons f args).size ∧
    args.cdr.cdr.car.size < (SExp.cons f args).size := by
  have h1 := size_car_le args
  have h2 := size_car_le args.cdr
  have h3 := size_car_le args.cdr.cdr
  have h4 := size_cdr_le args
  have h5 := size_cdr_le args.cdr
  rw [size_cons]
  omega

/-- Induction over a form and its arguments. -/
theorem argsInduction {motive : SExp → Prop} (atom : ∀ exp, exp.consp = false → motive exp)
    (cons : ∀ f args, (∀ arg ∈ args.toList, motive arg) → motive args.car →
      motive args.cdr.car → motive args.cdr.cdr.car → motive (.cons f args)) (exp : SExp) :
    motive exp := by
  induction hsize : exp.size using Nat.strong_induction_on generalizing exp with
  | h n ih =>
    subst hsize
    cases exp with
    | cons f args =>
      obtain ⟨h1, h2, h3⟩ := size_args_lt f args
      refine cons f args (fun arg harg => ih _ ?_ arg rfl) (ih _ h1 _ rfl) (ih _ h2 _ rfl) (ih _ h3 _ rfl)
      exact (size_lt_of_mem_toList harg).trans (size_cdr_lt (consp_cons f args))
    | _ => exact atom _ rfl

end SExp

end PVS.GroundProver
