import Mathlib.Data.List.OfFn
import PVS.GroundProver.Process
import PVS.Library.Environments

/-! Beta reduction of `interface.lisp`: bound variables are the symbols `*k*`, where `k` counts the
arguments of the binders `(lambda m e)` outwards from 1. -/

universe u

namespace PVS.GroundProver

open SExp Library.Environments

def dbIndexName (num : ℤ) : SExp := .sym ("*" ++ toString num ++ "*")

/-- `(string-trim "*" symstring)` -/
def symtrim (s : String) : List Char :=
  ((s.toList.dropWhile (· = '*')).reverse.dropWhile (· = '*')).reverse

/-- `lamvar?` -/
def lamvarp : SExp → Bool
  | .sym s => (symtrim s).all Char.isDigit
  | _ => false

def lamvarIndex : SExp → ℕ
  | .sym s => Nat.ofDigitChars 10 (symtrim s) 0
  | _ => 0

def isLambda (form : SExp) : Bool := form.consp && form.car == .sym "lambda"

def isDbLambda (form : SExp) : Bool :=
  isLambda form && decide (3 ≤ form.toList.length) && form.arg1.integerp

def dbBump (exp : SExp) (up localDepth : ℤ) : SExp :=
  if _h : exp.consp = true then
    if isDbLambda exp then
      form "lambda" [exp.arg1, dbBump exp.arg2 up (localDepth + exp.arg1.toInt)]
    else .cons exp.funsym (ofList (exp.argsof.toList.attach.map fun arg => dbBump arg.1 up localDepth))
  else if lamvarp exp then
    if lamvarIndex exp ≤ localDepth then exp else dbIndexName (lamvarIndex exp + up)
  else exp
  termination_by exp.size
  decreasing_by
    · exact (size_car_le _).trans_lt ((size_cdr_le _).trans_lt (size_cdr_lt _h))
    · exact (size_lt_of_mem_toList arg.2).trans (size_cdr_lt _h)

def substandard (exp : SExp) (bindings : List SExp) (depth : ℤ) : SExp :=
  if _h : exp.consp = true then
    if exp.funsym = .sym "lambda" then
      form "lambda" [exp.arg1, substandard exp.arg2 bindings (depth + exp.arg1.toInt)]
    else
      .cons exp.funsym (ofList (exp.argsof.toList.attach.map fun arg => substandard arg.1 bindings depth))
  else if lamvarp exp then
    if lamvarIndex exp ≤ depth then exp
    else if lamvarIndex exp > depth + bindings.length then
      dbIndexName (lamvarIndex exp - bindings.length)
    else dbBump (bindings.getD (lamvarIndex exp - (depth + 1)).toNat nil) depth 0
  else exp
  termination_by exp.size
  decreasing_by
    · exact (size_car_le _).trans_lt ((size_cdr_le _).trans_lt (size_cdr_lt _h))
    · exact (size_lt_of_mem_toList arg.2).trans (size_cdr_lt _h)

def lambdareduce (exp : SExp) : SExp := substandard exp.arg1.arg2 exp.cdr.cdr.toList 0

/-! ### Index names -/

theorem symtrim_dbIndexName (n : ℕ) : symtrim ("*" ++ toString (n : ℤ) ++ "*") = Nat.toDigits 10 n := by
  have hstar : ∀ c ∈ Nat.toDigits 10 n, ¬ decide (c = '*') = true := by
    intro c hc hstar
    have hdigit := Nat.isDigit_of_mem_toDigits (by omega) (by omega) hc
    rw [of_decide_eq_true hstar] at hdigit
    cases hdigit
  have hlist : ("*" ++ toString (n : ℤ) ++ "*").toList = '*' :: (Nat.toDigits 10 n ++ ['*']) := by
    rw [String.toList_append, String.toList_append, ← Nat.toList_repr]
    rfl
  have hkeep : ∀ l : List Char, (∀ c ∈ l, ¬ decide (c = '*') = true) → l ≠ [] → ∀ l',
      (l ++ l').dropWhile (· = '*') = l ++ l' := by
    intro l hl hne l'
    cases l with
    | nil => exact absurd rfl hne
    | cons c l => exact List.dropWhile_cons_of_neg (hl c List.mem_cons_self)
  have hne : Nat.toDigits 10 n ≠ [] := Nat.toDigits_ne_nil
  rw [symtrim, hlist, List.dropWhile_cons_of_pos rfl, hkeep _ hstar hne, List.reverse_append]
  have hback := hkeep (Nat.toDigits 10 n).reverse (fun c hc => hstar c (List.mem_reverse.1 hc))
    (List.reverse_ne_nil_iff.2 hne) []
  rw [List.append_nil] at hback
  rw [List.reverse_singleton, List.singleton_append, List.dropWhile_cons_of_pos rfl, hback,
    List.reverse_reverse]

@[simp] theorem lamvarp_dbIndexName (n : ℕ) : lamvarp (dbIndexName n) = true := by
  rw [dbIndexName, lamvarp, symtrim_dbIndexName, List.all_eq_true]
  exact fun c hc => Nat.isDigit_of_mem_toDigits (by omega) (by omega) hc

@[simp] theorem lamvarIndex_dbIndexName (n : ℕ) : lamvarIndex (dbIndexName n) = n := by
  rw [dbIndexName, lamvarIndex, symtrim_dbIndexName, Nat.ofDigitChars_ten_toDigits]

/-! ### Values -/

/-- What the symbols mean; a function symbol is not a variable. -/
structure Meaning (V : Type u) where
  atom : SExp → V
  apply : SExp → List V → V
  lambda : (m : ℕ) → ((Fin m → V) → V) → V

variable {V : Type u} (I : Meaning V)

def eval (env : ℕ → V) (exp : SExp) : V :=
  if _h : exp.consp = true then
    if exp.funsym = .sym "lambda" then
      I.lambda exp.arg1.toInt.toNat fun vs => eval (extend vs env) exp.arg2
    else I.apply exp.funsym (exp.argsof.toList.attach.map fun arg => eval env arg.1)
  else if lamvarp exp ∧ 0 < lamvarIndex exp then env (lamvarIndex exp)
  else I.atom exp
  termination_by exp.size
  decreasing_by
    · exact (size_car_le _).trans_lt ((size_cdr_le _).trans_lt (size_cdr_lt _h))
    · exact (size_lt_of_mem_toList arg.2).trans (size_cdr_lt _h)

/-- Expressions whose binders are all `(lambda m e)`. -/
inductive Binders : SExp → Prop
  | atom {exp : SExp} (h : exp.consp = false) : Binders exp
  | lambda (m : ℕ) {body : SExp} (h : Binders body) : Binders (form "lambda" [.int m, body])
  | app {f : SExp} {args : List SExp} (hf : f ≠ .sym "lambda") (h : ∀ arg ∈ args, Binders arg) :
    Binders (.cons f (ofList args))

section Equations

variable {I} {env : ℕ → V}

theorem eval_cons (f args : SExp) : eval I env (.cons f args) =
    if f = .sym "lambda" then
      I.lambda args.car.toInt.toNat fun vs => eval I (extend vs env) args.cdr.car
    else I.apply f (args.toList.map (eval I env)) := by
  rw [eval, dif_pos (consp_cons _ _)]
  simp only [car_cons, cdr_cons]
  rw [List.attach_map_val]
  rfl

theorem eval_lambda (m : ℕ) (body : SExp) :
    eval I env (form "lambda" [.int m, body]) = I.lambda m fun vs => eval I (extend vs env) body := by
  rw [eval_cons, if_pos rfl]
  rfl

theorem eval_app {f : SExp} (hf : f ≠ .sym "lambda") (args : List SExp) :
    eval I env (.cons f (ofList args)) = I.apply f (args.map (eval I env)) := by
  rw [eval_cons, if_neg hf, toList_ofList]

theorem eval_atom {exp : SExp} (h : exp.consp = false) : eval I env exp =
    if lamvarp exp ∧ 0 < lamvarIndex exp then env (lamvarIndex exp) else I.atom exp := by
  rw [eval, dif_neg (by rw [h]; exact Bool.false_ne_true)]

theorem eval_dbIndexName {n : ℕ} (hn : 0 < n) : eval I env (dbIndexName n) = env n := by
  rw [eval_atom rfl, lamvarp_dbIndexName, lamvarIndex_dbIndexName, if_pos ⟨rfl, hn⟩]

theorem dbBump_cons (f args : SExp) (up localDepth : ℤ) : dbBump (.cons f args) up localDepth =
    if isDbLambda (.cons f args) then
      form "lambda" [args.car, dbBump args.cdr.car up (localDepth + args.car.toInt)]
    else .cons f (ofList (args.toList.map fun arg => dbBump arg up localDepth)) := by
  rw [dbBump, dif_pos (consp_cons _ _)]
  simp only [car_cons, cdr_cons]
  rw [List.attach_map_val (f := fun arg => dbBump arg up localDepth)]
  rfl

theorem dbBump_lambda (m : ℕ) (body : SExp) (up localDepth : ℤ) :
    dbBump (form "lambda" [.int m, body]) up localDepth =
      form "lambda" [.int m, dbBump body up (localDepth + m)] := by
  have hdb : isDbLambda (form "lambda" [.int m, body]) = true := rfl
  rw [dbBump_cons, if_pos hdb]
  rfl

theorem dbBump_app {f : SExp} (hf : f ≠ .sym "lambda") (args : List SExp) (up localDepth : ℤ) :
    dbBump (.cons f (ofList args)) up localDepth =
      .cons f (ofList (args.map fun arg => dbBump arg up localDepth)) := by
  have hnot : isDbLambda (.cons f (ofList args)) = false := by
    rw [isDbLambda, isLambda, car_cons, beq_false_of_ne hf]
    rfl
  rw [dbBump_cons, hnot, if_neg Bool.false_ne_true, toList_ofList]

theorem dbBump_atom {exp : SExp} (h : exp.consp = false) (up localDepth : ℤ) :
    dbBump exp up localDepth = if lamvarp exp then
      if lamvarIndex exp ≤ localDepth then exp else dbIndexName (lamvarIndex exp + up) else exp := by
  rw [dbBump, dif_neg (by rw [h]; exact Bool.false_ne_true)]

theorem substandard_cons (f args : SExp) (bindings : List SExp) (depth : ℤ) :
    substandard (.cons f args) bindings depth = if f = .sym "lambda" then
      form "lambda" [args.car, substandard args.cdr.car bindings (depth + args.car.toInt)]
    else .cons f (ofList (args.toList.map fun arg => substandard arg bindings depth)) := by
  rw [substandard, dif_pos (consp_cons _ _)]
  simp only [car_cons, cdr_cons]
  rw [List.attach_map_val (f := fun arg => substandard arg bindings depth)]
  rfl

theorem substandard_lambda (m : ℕ) (body : SExp) (bindings : List SExp) (depth : ℤ) :
    substandard (form "lambda" [.int m, body]) bindings depth =
      form "lambda" [.int m, substandard body bindings (depth + m)] := by
  rw [substandard_cons, if_pos rfl]
  rfl

theorem substandard_app {f : SExp} (hf : f ≠ .sym "lambda") (args bindings : List SExp) (depth : ℤ) :
    substandard (.cons f (ofList args)) bindings depth =
      .cons f (ofList (args.map fun arg => substandard arg bindings depth)) := by
  rw [substandard_cons, if_neg hf, toList_ofList]

theorem substandard_atom {exp : SExp} (h : exp.consp = false) (bindings : List SExp) (depth : ℤ) :
    substandard exp bindings depth = if lamvarp exp then
      if lamvarIndex exp ≤ depth then exp
      else if lamvarIndex exp > depth + bindings.length then
        dbIndexName (lamvarIndex exp - bindings.length)
      else dbBump (bindings.getD (lamvarIndex exp - (depth + 1)).toNat nil) depth 0
    else exp := by
  rw [substandard, dif_neg (by rw [h]; exact Bool.false_ne_true)]

end Equations

/-! ### Substitution -/

/-- What is bumped over binders does not see their arguments. -/
theorem eval_dbBump {exp : SExp} (hexp : Binders exp) (up localDepth : ℕ) (env : ℕ → V) :
    eval I env (dbBump exp up localDepth) = eval I (skip up localDepth env) exp := by
  induction hexp generalizing localDepth env with
  | @atom exp h =>
    rw [dbBump_atom h, eval_atom h]
    by_cases hvar : lamvarp exp = true
    · rw [if_pos hvar]
      by_cases hle : lamvarIndex exp ≤ localDepth
      · rw [if_pos (by exact_mod_cast hle), eval_atom h, skip, if_pos hle]
      · rw [if_neg (by exact_mod_cast hle), if_pos ⟨hvar, by omega⟩, skip, if_neg hle,
          ← Nat.cast_add, eval_dbIndexName (by omega)]
    · rw [if_neg hvar, eval_atom h, if_neg fun hv => hvar hv.1, if_neg fun hv => hvar hv.1]
  | @lambda m body _ ih =>
    rw [dbBump_lambda, eval_lambda, eval_lambda]
    apply congrArg
    funext vs
    rw [← Nat.cast_add, ih, skip_extend]
  | app hf _ ih =>
    rw [dbBump_app hf, eval_app hf, eval_app hf, List.map_map]
    exact congrArg _ (List.map_congr_left fun arg harg => ih arg harg localDepth env)

/-- The substitution lemma. -/
theorem eval_substandard {exp : SExp} (hexp : Binders exp) {bindings : List SExp}
    (hbindings : ∀ b ∈ bindings, Binders b) (depth : ℕ) (env : ℕ → V) :
    eval I env (substandard exp bindings depth) =
      eval I (insertAt (fun k => eval I (skip depth 0 env) (bindings.get k)) depth env) exp := by
  induction hexp generalizing depth env with
  | @atom exp h =>
    rw [substandard_atom h, eval_atom h]
    by_cases hvar : lamvarp exp = true
    · rw [if_pos hvar]
      by_cases hle : lamvarIndex exp ≤ depth
      · rw [if_pos (by exact_mod_cast hle), eval_atom h, insertAt_of_le _ _ hle]
      · have hpos : lamvarp exp = true ∧ 0 < lamvarIndex exp := ⟨hvar, by omega⟩
        rw [if_neg (by exact_mod_cast hle), if_pos hpos]
        by_cases hlt : depth + bindings.length < lamvarIndex exp
        · rw [if_pos (by exact_mod_cast hlt), insertAt_of_lt _ _ hlt, ← Nat.cast_sub (by omega),
            eval_dbIndexName (by omega)]
        · have hin : lamvarIndex exp - (depth + 1) < bindings.length := by omega
          have hnth : ((lamvarIndex exp : ℤ) - (depth + 1)).toNat = lamvarIndex exp - (depth + 1) := by
            omega
          rw [if_neg (by exact_mod_cast hlt), insertAt, dif_pos ⟨by omega, by omega⟩, hnth,
            ← List.getElem_eq_getD (h := hin)]
          exact eval_dbBump I (hbindings _ (List.getElem_mem hin)) depth 0 env
    · rw [if_neg hvar, eval_atom h, if_neg fun hv => hvar hv.1, if_neg fun hv => hvar hv.1]
  | @lambda m body _ ih =>
    rw [substandard_lambda, eval_lambda, eval_lambda]
    apply congrArg
    funext vs
    rw [← Nat.cast_add, ih, skip_extend_zero, insertAt_extend]
  | app hf _ ih =>
    rw [substandard_app hf, eval_app hf, eval_app hf, List.map_map]
    exact congrArg _ (List.map_congr_left fun arg harg => ih arg harg depth env)

/-! ### Beta reduction -/

/-- An application `(APPLY-n (lambda n body) a₁ … aₙ)`. -/
structure ApplyLambda where
  term : SExp
  isapplylambda : isapplylambda term = true
  binders : Binders term
  arity : term.arg1.arg1 = .int term.cdr.cdr.toList.length

namespace ApplyLambda

variable (T : ApplyLambda)

def body : SExp := T.term.arg1.arg2

def args : List SExp := T.term.cdr.cdr.toList

theorem binders_args : Binders T.term.arg1 ∧ ∀ arg ∈ T.args, Binders arg := by
  obtain ⟨term, happly, hbinders, harity⟩ := T
  cases hbinders with
  | atom h => simp [GroundProver.isapplylambda, h] at happly
  | lambda m h => simp [GroundProver.isapplylambda, isApplyNXN] at happly
  | @app f args hf h =>
    cases args with
    | nil =>
      simp only [GroundProver.isapplylambda, Bool.and_eq_true, beq_iff_eq] at happly
      exact absurd happly.1.2 (show SExp.nil ≠ .sym "lambda" by decide)
    | cons a rest =>
      rw [List.forall_mem_cons, ← toList_ofList rest] at h
      exact h

theorem binders_body : Binders T.body := by
  have hlambda := T.binders_args.1
  have happly := T.isapplylambda
  simp only [GroundProver.isapplylambda, Bool.and_eq_true, beq_iff_eq] at happly
  have hfun := happly.1.2
  rw [body]
  generalize T.term.arg1 = f at hlambda hfun
  cases hlambda with
  | atom h =>
    cases f with
    | cons a d => cases h
    | _ => exact absurd hfun (show SExp.nil ≠ .sym "lambda" by decide)
  | lambda m h => exact h
  | app hf _ => exact absurd hfun hf

/-- Ground beta reduction is capture free. -/
theorem eval_lambdareduce (env : ℕ → V) : eval I env (lambdareduce T.term) =
    eval I (extend (fun k => eval I env (T.args.get k)) env) T.body := by
  have hvalue := eval_substandard I T.binders_body T.binders_args.2 0 env
  rw [skip_zero, insertAt_zero] at hvalue
  exact hvalue

end ApplyLambda

end PVS.GroundProver
