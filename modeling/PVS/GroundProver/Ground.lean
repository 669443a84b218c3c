import PVS.GroundProver.Process

/-! Ground terms over uninterpreted symbols and their first-order models. -/

namespace PVS.GroundProver

open SExp

/-- The symbols `process.lisp` treats in a way of their own. -/
def reserved : List String :=
  ["nil", "true", "false", "and", "or", "not", "implies", "iff", "equal", "nequal", "if", "if*",
    "lambda", "protect", "QUO", "PLUS", "MINUS", "DIFFERENCE", "TIMES", "DIVIDE", "lessp",
    "lesseqp", "greaterp", "greatereqp", "tupcons", "TUPSEL", "update", "arrayrest", "arraysel",
    "TUPSEL-", "TUPSEL-integer", "TUPSEL-number", "TUPSEL-bool"]

def Uninterpreted (n : String) : Prop := n ∉ reserved

instance (n : String) : Decidable (Uninterpreted n) := inferInstanceAs (Decidable (n ∉ reserved))

inductive TermOver (C : String → Prop) : SExp → Prop
  | const {n : String} : C n → TermOver C (.sym n)
  | app {f : String} {args : List SExp} : Uninterpreted f → args ≠ [] →
    (∀ a ∈ args, TermOver C a) → TermOver C (.cons (.sym f) (ofList args))

abbrev Ground : SExp → Prop := TermOver Uninterpreted

def Constant (n : String) : Prop := Uninterpreted n ∨ n = "true" ∨ n = "false"

/-- The terms that occur in the state: `true` and `false` come with `initprover`. -/
abbrev Term : SExp → Prop := TermOver Constant

theorem TermOver.mono {C C' : String → Prop} (h : ∀ n, C n → C' n) {t : SExp}
    (ht : TermOver C t) : TermOver C' t := by
  induction ht with
  | const hn => exact .const (h _ hn)
  | app hf hne _ ih => exact .app hf hne ih

theorem Ground.term {t : SExp} (h : Ground t) : Term t := h.mono fun _ => .inl

/-- What `adduse` puts on a use list: an application, or the application of a pair to one of its
components, by which `addneq` stores a disequality. -/
inductive Entry : SExp → Prop
  | app {f : String} {args : List SExp} : Uninterpreted f → args ≠ [] → (∀ a ∈ args, Term a) →
    Entry (.cons (.sym f) (ofList args))
  | pair {a b x : SExp} : Term a → Term b → x = a ∨ x = b → Entry (ofList [.cons a b, x])

inductive Head : SExp → Prop
  | fn {f : String} : Uninterpreted f → Head (.sym f)
  | pair {a b : SExp} : Head (.cons a b)

/-- The shape of the signature of an entry. -/
structure Sign (u : SExp) : Prop where
  head : Head u.funsym
  ne : u.argsof.toList ≠ []
  terms : ∀ a ∈ u.argsof.toList, Term a
  eq : u = .cons u.funsym (ofList u.argsof.toList)

def Node (v : SExp) : Prop := Term v ∨ Entry v

def IsPair (v : SExp) : Prop := v.car.consp

theorem Entry.sign {u : SExp} (h : Entry u) : Sign u := by
  cases h with
  | app hf hne ha => exact ⟨.fn hf, by simpa using hne, by simpa using ha, by simp⟩
  | pair ha hb hx =>
    refine ⟨.pair, by simp, ?_, by simp⟩
    obtain rfl | rfl := hx <;> simpa

theorem Term.entry {t : SExp} (h : Term t) (hc : t.consp) : Entry t := by
  cases h with
  | const => simp at hc
  | app hf hne ha => exact .app hf hne ha

theorem Term.not_isPair {t : SExp} (h : Term t) : ¬ IsPair t := by
  cases h with
  | const => simp [IsPair, car, nil, consp]
  | app => simp [IsPair]

theorem Entry.consp {u : SExp} (h : Entry u) : u.consp := by cases h <;> rfl

theorem Constant.ne_nil {n : String} (h : Constant n) : SExp.sym n ≠ nil := by
  rintro ⟨rfl⟩
  obtain h | h | h := h
  · exact h (by decide)
  · simp at h
  · simp at h

theorem Term.ne_nil {t : SExp} (h : Term t) : t ≠ nil := by
  cases h with
  | const hn => exact hn.ne_nil
  | app => simp

theorem Node.ne_nil {v : SExp} (h : Node v) : v ≠ nil := by
  obtain h | h := h
  · exact h.ne_nil
  · rw [h.sign.eq]
    simp

/-! ### The class tests of the code -/

theorem Uninterpreted.not_memq {f : String} (h : Uninterpreted f) {l : List String}
    (hl : ∀ n ∈ l, n ∈ reserved) : memq (.sym f) l = false := by
  simp only [memq, List.any_eq_false, beq_iff_eq, SExp.sym.injEq]
  rintro n hn rfl
  exact h (hl _ hn)

theorem Uninterpreted.ne {f : String} (h : Uninterpreted f) {n : String} (hn : n ∈ reserved) :
    f ≠ n := by
  rintro rfl
  exact h hn

theorem Head.not_memq {h : SExp} (hh : Head h) {l : List String}
    (hl : ∀ n ∈ l, n ∈ reserved) : memq h l = false := by
  cases hh with
  | fn hf => exact hf.not_memq hl
  | pair => simp [memq]

theorem Head.ne {h : SExp} (hh : Head h) {n : String} (hn : n ∈ reserved) : h ≠ .sym n := by
  cases hh with
  | fn hf => simpa using hf.ne hn
  | pair => simp

theorem Term.funsym_ne {t : SExp} (h : Term t) {n : String} (hn : n ∈ reserved) (hnil : n ≠ "nil") :
    t.funsym ≠ .sym n := by
  cases h with
  | const => simpa [car, nil] using hnil.symm
  | app hf => simpa using hf.ne hn

theorem Sign.uninterp {u : SExp} (h : Sign u) : uninterp u := by
  obtain ⟨a, as, ha⟩ := List.exists_cons_of_ne_nil h.ne
  have hta : Term a := h.terms a (by simp [ha])
  have ha1 : u.arg1 = a := by rw [h.eq, ha]; rfl
  have hi := h.head.not_memq (l := interpsyms) (by decide)
  have hs := h.head.not_memq (l := tupselList) (by decide)
  have hq : u.funsym ≠ .sym "QUO" := h.head.ne (by decide)
  have hl : u.arg1.funsym ≠ .sym "lambda" := ha1 ▸ hta.funsym_ne (by decide) (by decide)
  have hu : u.arg1.funsym ≠ .sym "update" := ha1 ▸ hta.funsym_ne (by decide) (by decide)
  have hint : u.integerp = false := by rw [h.eq]; rfl
  simp [GroundProver.uninterp, interp, qnumberp, isTupselN, isapplylambda, isapplyupdate, hi, hs,
    hq, hl, hu, hint]

theorem Node.plain {v : SExp} (h : Node v) : (!v.consp || GroundProver.uninterp v) = true := by
  obtain h | h := h
  · cases h with
    | const => rfl
    | app hf hne ha => simp [(Entry.app hf hne ha).sign.uninterp]
  · simp [h.sign.uninterp]

theorem Head.getq_eq {h : SExp} (hh : Head h) : getq h primtypealist = nil := by
  cases hh with
  | fn hf =>
    have e : ∀ p ∈ primtypealist, SExp.sym _ ≠ p.1 := fun p hp e => by
      have : ∀ p ∈ primtypealist, ∃ n ∈ reserved, p.1 = .sym n := by decide
      obtain ⟨n, hn, hp⟩ := this p hp
      exact hf.ne hn (by simpa [hp] using e)
    rw [getq, List.lookup_eq_none_iff.2 (by simpa using e)]
    rfl
  | pair =>
    rw [getq, List.lookup_eq_none_iff.2 (by simp [primtypealist])]
    rfl

/-- Nothing in the fragment has a type with a solver of its own. -/
theorem Sign.prtype {u : SExp} (h : Sign u) : prtype primtypealist u = nil := by
  rw [h.eq]
  have hif := h.head.ne (n := "if*") (by decide)
  have har := h.head.not_memq (l := arithops) (by decide)
  simp only [GroundProver.prtype, hif, har, h.head.getq_eq]
  simp

theorem Node.prtype {v : SExp} (h : Node v) :
    prtype primtypealist v = nil ∨ prtype primtypealist v = .sym "bool" := by
  obtain h | h := h
  · cases h with
    | const hn =>
      obtain hn | rfl | rfl := hn
      · exact .inl (by simpa [GroundProver.prtype] using (Head.fn hn).getq_eq)
      · exact .inr (by decide)
      · exact .inr (by decide)
    | app hf hne ha => exact .inl (Entry.app hf hne ha).sign.prtype
  · exact .inl h.sign.prtype

theorem Node.not_isineq {v : SExp} (h : Node v) : isineq v = false := by
  have key : ∀ u, Entry u → isineq u = false := fun u hu => by
    have := hu.sign.head.not_memq (l := arithrels) (by decide)
    simp [isineq, this]
  obtain h | h := h
  · cases h with
    | const => rfl
    | app hf hne ha => exact key _ (.app hf hne ha)
  · exact key _ h

theorem Node.not_integerp {v : SExp} (h : Node v) : v.integerp = false := by
  obtain h | h := h
  · cases h <;> rfl
  · cases h <;> rfl

theorem Node.not_isLambdaExpr {v : SExp} (h : Node v) : isLambdaExpr v = false := by
  have key : ∀ u, Entry u → isLambdaExpr u = false := fun u hu => by
    have := hu.sign.head.ne (n := "lambda") (by decide)
    simp [isLambdaExpr, this]
  obtain h | h := h
  · cases h with
    | const => simp [isLambdaExpr, car, nil]
    | app hf hne ha => exact key _ (.app hf hne ha)
  · exact key _ h

theorem Node.not_times {v : SExp} (h : Node v) :
    (v.consp && v.funsym == .sym "TIMES") = false := by
  have key : ∀ u, Entry u → u.funsym ≠ .sym "TIMES" := fun u hu => hu.sign.head.ne (by decide)
  obtain h | h := h
  · cases h with
    | const => rfl
    | app hf hne ha => simpa using key _ (.app hf hne ha)
  · simp [key _ h]

/-! ### Models -/

structure Model where
  D : Type
  fn : String → List D → D

mutual

/-- The value of a term. An application of a pair has the value of its argument. -/
def Model.eval (M : Model) : SExp → M.D
  | .sym n => M.fn n []
  | .int _ => M.fn "nil" []
  | .cons (.cons _ _) (.cons x _) => M.eval x
  | .cons (.sym f) args => M.fn f (M.evalArgs args)
  | .cons _ _ => M.fn "nil" []

def Model.evalArgs (M : Model) : SExp → List M.D
  | .cons a d => M.eval a :: M.evalArgs d
  | _ => []

end

@[simp] theorem Model.evalArgs_ofList (M : Model) (l : List SExp) :
    M.evalArgs (ofList l) = l.map M.eval := by
  induction l with
  | nil => rfl
  | cons a l ih => simp [evalArgs, ih]

inductive Literal
  | eq (l r : SExp)
  | ne (l r : SExp)

def Literal.toSExp : Literal → SExp
  | .eq l r => equal l r
  | .ne l r => form "not" [equal l r]

def Literal.Ground : Literal → Prop
  | .eq l r | .ne l r => GroundProver.Ground l ∧ GroundProver.Ground r

def Model.Holds (M : Model) : Literal → Prop
  | .eq l r => M.eval l = M.eval r
  | .ne l r => M.eval l ≠ M.eval r

def Satisfiable (lits : List Literal) : Prop := ∃ M : Model, ∀ l ∈ lits, M.Holds l

def Entails (lits : List Literal) (l : Literal) : Prop :=
  ∀ M : Model, (∀ l ∈ lits, M.Holds l) → M.Holds l

end PVS.GroundProver
