import Mathlib.Data.List.Basic
import PVS.GroundProver.SExp

/-! `liftif*` of `process.lisp`, which moves the conditionals of an expression to its top. -/

universe u

namespace PVS.GroundProver

open SExp

/-- The `case` of `if*` and `if`. -/
def ifp (f : SExp) : Bool := f == .sym "if*" || f == .sym "if"

/-- The global list of conditionals, the last one first. -/
def collectConditionals' (exp : SExp) (conditionals : List SExp) : List SExp :=
  match exp with
  | .cons f args =>
    if ifp f then
      collectConditionals' args.cdr.cdr.car (collectConditionals' args.cdr.car
        ((collectConditionals' args.car conditionals).insert args.car))
    else if f = .sym "lambda" then conditionals
    else args.toList.attach.foldl (fun acc arg => collectConditionals' arg.1 acc) conditionals
  | _ => conditionals
  termination_by exp.size
  decreasing_by
    · exact (size_args_lt f args).1
    · exact (size_args_lt f args).2.1
    · exact (size_args_lt f args).2.2
    · exact (size_lt_of_mem_toList arg.2).trans (size_cdr_lt (consp_cons f args))

def collectConditionals (exp : SExp) : List SExp := (collectConditionals' exp []).reverse

def makeIfExp (exp : SExp) (conds : List SExp) (alist : List (SExp × Bool)) (inProver : Bool) : SExp :=
  match conds with
  | cond :: conds =>
    form (if inProver then "if*" else "if") [makeIfExp cond [] alist inProver,
      makeIfExp exp conds ((cond, true) :: alist) inProver,
      makeIfExp exp conds ((cond, false) :: alist) inProver]
  | [] =>
    match exp with
    | .cons f args =>
      if ifp f then
        match alist.lookup args.car with
        | some true => makeIfExp args.cdr.car [] alist inProver
        | some false => makeIfExp args.cdr.cdr.car [] alist inProver
        | none => nil
      else if f = .sym "lambda" then exp
      else
        let newargs := args.toList.attach.map fun e => makeIfExp e.1 [] alist inProver
        if args.toList = newargs then exp else .cons f (ofList newargs)
    | exp => exp
  termination_by (conds.length, exp.size)
  decreasing_by
    · exact Prod.Lex.left _ _ (Nat.succ_pos _)
    · exact Prod.Lex.left _ _ (Nat.lt_succ_self _)
    · exact Prod.Lex.left _ _ (Nat.lt_succ_self _)
    · exact Prod.Lex.right _ (size_args_lt f args).2.1
    · exact Prod.Lex.right _ (size_args_lt f args).2.2
    · exact Prod.Lex.right _ ((size_lt_of_mem_toList e.2).trans (size_cdr_lt (consp_cons f args)))

def liftif (exp : SExp) (inProver : Bool) : SExp :=
  makeIfExp exp (collectConditionals exp) [] inProver

section Equations

variable {f : SExp} (args : SExp) (inProver : Bool) (alist : List (SExp × Bool))

theorem collectConditionals'_if (hif : ifp f = true) (conditionals : List SExp) :
    collectConditionals' (.cons f args) conditionals =
      collectConditionals' args.cdr.cdr.car (collectConditionals' args.cdr.car
        ((collectConditionals' args.car conditionals).insert args.car)) := by
  rw [collectConditionals', if_pos hif]

theorem collectConditionals'_lambda (conditionals : List SExp) :
    collectConditionals' (.cons (.sym "lambda") args) conditionals = conditionals := by
  rw [collectConditionals', if_neg (by decide), if_pos rfl]

theorem collectConditionals'_app (hif : ¬ ifp f = true) (hlambda : f ≠ .sym "lambda")
    (conditionals : List SExp) : collectConditionals' (.cons f args) conditionals =
      args.toList.foldl (fun acc arg => collectConditionals' arg acc) conditionals := by
  rw [collectConditionals', if_neg hif, if_neg hlambda]
  exact List.foldl_attach (f := fun acc arg => collectConditionals' arg acc)

theorem makeIfExp_cons (exp cond : SExp) (conds : List SExp) :
    makeIfExp exp (cond :: conds) alist inProver =
      form (if inProver then "if*" else "if") [makeIfExp cond [] alist inProver,
        makeIfExp exp conds ((cond, true) :: alist) inProver,
        makeIfExp exp conds ((cond, false) :: alist) inProver] := by
  rw [makeIfExp]

theorem makeIfExp_atom {exp : SExp} (hexp : exp.consp = false) :
    makeIfExp exp [] alist inProver = exp := by
  cases exp with
  | cons f args => cases hexp
  | _ => rw [makeIfExp]; exact fun _ _ h => nomatch h

theorem makeIfExp_if (hif : ifp f = true) : makeIfExp (.cons f args) [] alist inProver =
    match alist.lookup args.car with
    | some true => makeIfExp args.cdr.car [] alist inProver
    | some false => makeIfExp args.cdr.cdr.car [] alist inProver
    | none => nil := by
  rw [makeIfExp, if_pos hif]

theorem makeIfExp_lambda : makeIfExp (.cons (.sym "lambda") args) [] alist inProver =
    .cons (.sym "lambda") args := by
  rw [makeIfExp, if_neg (by decide), if_pos rfl]

theorem makeIfExp_app (hif : ¬ ifp f = true) (hlambda : f ≠ .sym "lambda") :
    ∃ newargs : SExp, makeIfExp (.cons f args) [] alist inProver = .cons f newargs ∧
      newargs.toList = args.toList.map fun e => makeIfExp e [] alist inProver := by
  have hmap : (args.toList.attach.map fun e => makeIfExp e.1 [] alist inProver) =
      args.toList.map fun e => makeIfExp e [] alist inProver :=
    List.attach_map_val (f := fun e => makeIfExp e [] alist inProver)
  rw [makeIfExp, if_neg hif, if_neg hlambda, hmap]
  by_cases hcheck : args.toList = args.toList.map fun e => makeIfExp e [] alist inProver
  · exact ⟨args, if_pos hcheck, hcheck⟩
  · exact ⟨_, if_neg hcheck, toList_ofList _⟩

end Equations

/-! ### Conditions -/

/-- The conditions of the conditionals outside of `lambda` bodies. -/
def conditions (exp : SExp) : List SExp :=
  match exp with
  | .cons f args =>
    if ifp f then
      conditions args.car ++ args.car :: (conditions args.cdr.car ++ conditions args.cdr.cdr.car)
    else if f = .sym "lambda" then []
    else args.toList.attach.flatMap fun arg => conditions arg.1
  | _ => []
  termination_by exp.size
  decreasing_by
    · exact (size_args_lt f args).1
    · exact (size_args_lt f args).2.1
    · exact (size_args_lt f args).2.2
    · exact (size_lt_of_mem_toList arg.2).trans (size_cdr_lt (consp_cons f args))

theorem conditions_atom {exp : SExp} (hexp : exp.consp = false) : conditions exp = [] := by
  cases exp with
  | cons f args => cases hexp
  | _ => rw [conditions]; exact fun _ _ h => nomatch h

theorem mem_conditions_if {f d : SExp} (hif : ifp f = true) (args : SExp) :
    d ∈ conditions (.cons f args) ↔ d ∈ conditions args.car ∨ d = args.car ∨
      d ∈ conditions args.cdr.car ∨ d ∈ conditions args.cdr.cdr.car := by
  rw [conditions, if_pos hif, List.mem_append, List.mem_cons, List.mem_append]

theorem conditions_lambda (args : SExp) : conditions (.cons (.sym "lambda") args) = [] := by
  rw [conditions, if_neg (by decide), if_pos rfl]

theorem mem_conditions_app {f d : SExp} (hif : ¬ ifp f = true) (hlambda : f ≠ .sym "lambda")
    (args : SExp) : d ∈ conditions (.cons f args) ↔ ∃ arg ∈ args.toList, d ∈ conditions arg := by
  rw [conditions, if_neg hif, if_neg hlambda, List.mem_flatMap]
  constructor
  · rintro ⟨arg, -, hd⟩
    exact ⟨arg.1, arg.2, hd⟩
  · rintro ⟨arg, harg, hd⟩
    exact ⟨⟨arg, harg⟩, List.mem_attach _ _, hd⟩

/-- The conditions within a condition come after it in the list, which has the last one first. -/
def InnerFirst : List SExp → Prop
  | [] => True
  | c :: l => conditions c ⊆ l ∧ InnerFirst l

theorem InnerFirst.insert {c : SExp} {l : List SExp} (hl : InnerFirst l) (hc : conditions c ⊆ l) :
    InnerFirst (l.insert c) := by
  by_cases hmem : c ∈ l
  · rwa [List.insert_of_mem hmem]
  · rw [List.insert_of_not_mem hmem]
    exact ⟨hc, hl⟩

theorem InnerFirst.of_append {l l' : List SExp} (h : InnerFirst (l ++ l')) : InnerFirst l' := by
  induction l with
  | nil => exact h
  | cons c l ih => exact ih h.2

/-- What `collect-conditionals*` does to the list. -/
structure Collects (exp : SExp) (l l' : List SExp) : Prop where
  innerFirst : InnerFirst l'
  keeps : l ⊆ l'
  complete : conditions exp ⊆ l'

theorem innerFirst_foldl {args : List SExp} (hargs : ∀ arg ∈ args, ∀ {l : List SExp}, InnerFirst l →
      Collects arg l (collectConditionals' arg l)) {l : List SExp} (hl : InnerFirst l) :
    InnerFirst (args.foldl (fun acc arg => collectConditionals' arg acc) l) ∧
      l ⊆ args.foldl (fun acc arg => collectConditionals' arg acc) l ∧
      ∀ arg ∈ args, conditions arg ⊆ args.foldl (fun acc arg => collectConditionals' arg acc) l := by
  induction args generalizing l with
  | nil => exact ⟨hl, List.Subset.refl l, fun arg harg => nomatch harg⟩
  | cons arg args ih =>
    rw [List.forall_mem_cons] at hargs
    have hfirst := hargs.1 hl
    obtain ⟨horder, hkeeps, hcomplete⟩ := ih hargs.2 hfirst.innerFirst
    rw [List.foldl_cons, List.forall_mem_cons]
    exact ⟨horder, fun d hd => hkeeps (hfirst.keeps hd), fun d hd => hkeeps (hfirst.complete hd),
      hcomplete⟩

theorem collects (exp : SExp) {l : List SExp} (hl : InnerFirst l) :
    Collects exp l (collectConditionals' exp l) := by
  induction exp using argsInduction generalizing l with
  | atom exp hexp =>
    cases exp with
    | cons f args => cases hexp
    | _ =>
      rw [collectConditionals']
      · exact ⟨hl, List.Subset.refl l, by rw [conditions_atom rfl]; exact List.nil_subset l⟩
      · exact fun _ _ h => nomatch h
  | cons f args ih ih1 ih2 ih3 =>
    by_cases hif : ifp f = true
    · rw [collectConditionals'_if args hif]
      have h1 := ih1 hl
      have h2 := ih2 (h1.innerFirst.insert h1.complete)
      have h3 := ih3 h2.innerFirst
      have hinsert : collectConditionals' args.car l ⊆
          (collectConditionals' args.car l).insert args.car :=
        fun d hd => List.mem_insert_of_mem hd
      refine ⟨h3.innerFirst, ?_, fun d hd => ?_⟩
      · exact fun d hd => h3.keeps (h2.keeps (hinsert (h1.keeps hd)))
      · rcases (mem_conditions_if hif args).1 hd with hd | rfl | hd | hd
        · exact h3.keeps (h2.keeps (hinsert (h1.complete hd)))
        · exact h3.keeps (h2.keeps (List.mem_insert_self))
        · exact h3.keeps (h2.complete hd)
        · exact h3.complete hd
    · by_cases hlambda : f = .sym "lambda"
      · rw [hlambda, collectConditionals'_lambda]
        exact ⟨hl, List.Subset.refl l, by rw [conditions_lambda]; exact List.nil_subset l⟩
      · rw [collectConditionals'_app args hif hlambda]
        obtain ⟨horder, hkeeps, hcomplete⟩ := innerFirst_foldl ih hl
        refine ⟨horder, hkeeps, fun d hd => ?_⟩
        obtain ⟨arg, harg, hd⟩ := (mem_conditions_app hif hlambda args).1 hd
        exact hcomplete arg harg hd

/-! ### Values -/

/-- What the symbols mean, and which values count as true in a condition. -/
structure Valuation (V : Type u) where
  atom : SExp → V
  apply : SExp → List V → V
  lambda : SExp → V
  holds : V → Bool

def Valuation.value {V : Type u} (v : Valuation V) (exp : SExp) : V :=
  match exp with
  | .cons f args =>
    if ifp f then
      if v.holds (v.value args.car) then v.value args.cdr.car else v.value args.cdr.cdr.car
    else if f = .sym "lambda" then v.lambda (.cons f args)
    else v.apply f (args.toList.attach.map fun arg => v.value arg.1)
  | exp => v.atom exp
  termination_by exp.size
  decreasing_by
    · exact (size_args_lt f args).1
    · exact (size_args_lt f args).2.1
    · exact (size_args_lt f args).2.2
    · exact (size_lt_of_mem_toList arg.2).trans (size_cdr_lt (consp_cons f args))

section Value

variable {V : Type u} (v : Valuation V)

theorem value_if {f : SExp} (hif : ifp f = true) (args : SExp) : v.value (.cons f args) =
    if v.holds (v.value args.car) then v.value args.cdr.car else v.value args.cdr.cdr.car := by
  rw [Valuation.value, if_pos hif]

theorem value_app {f : SExp} (hif : ¬ ifp f = true) (hlambda : f ≠ .sym "lambda") (args : SExp) :
    v.value (.cons f args) = v.apply f (args.toList.map v.value) := by
  rw [Valuation.value, if_neg hif, if_neg hlambda]
  exact congrArg _ (List.attach_map_val (f := v.value))

/-- What the conditionals on the way to an expression have assumed is so. -/
def Consistent (alist : List (SExp × Bool)) : Prop := ∀ p ∈ alist, v.holds (v.value p.1) = p.2

theorem lookup_of_consistent {alist : List (SExp × Bool)} (hconsistent : Consistent v alist)
    {c : SExp} (hc : c ∈ alist.map Prod.fst) : alist.lookup c = some (v.holds (v.value c)) := by
  induction alist with
  | nil => cases hc
  | cons p alist ih =>
    rw [Consistent, List.forall_mem_cons] at hconsistent
    rw [List.lookup_cons]
    by_cases hp : c = p.1
    · rw [hp, beq_self_eq_true, hconsistent.1]
    · rw [beq_false_of_ne hp]
      exact ih hconsistent.2 ((List.mem_cons.1 hc).resolve_left hp)

/-- Rebuilding keeps the value when all conditions are in the list. -/
theorem value_rebuild {exp : SExp} {alist : List (SExp × Bool)} (inProver : Bool)
    (hcomplete : conditions exp ⊆ alist.map Prod.fst) (hconsistent : Consistent v alist) :
    v.value (makeIfExp exp [] alist inProver) = v.value exp := by
  induction exp using argsInduction with
  | atom exp hexp => rw [makeIfExp_atom _ _ hexp]
  | cons f args ih ih1 ih2 ih3 =>
    by_cases hif : ifp f = true
    · have hmem := fun d hd => hcomplete ((mem_conditions_if (d := d) hif args).2 hd)
      rw [makeIfExp_if _ _ _ hif, value_if v hif,
        lookup_of_consistent v hconsistent (hmem _ (.inr (.inl rfl)))]
      cases v.holds (v.value args.car) with
      | true => exact ih2 fun d hd => hmem d (.inr (.inr (.inl hd)))
      | false => exact ih3 fun d hd => hmem d (.inr (.inr (.inr hd)))
    · by_cases hlambda : f = .sym "lambda"
      · rw [hlambda, makeIfExp_lambda]
      · obtain ⟨newargs, hnew, hmap⟩ := makeIfExp_app args inProver alist hif hlambda
        rw [hnew, value_app v hif hlambda, value_app v hif hlambda, hmap, List.map_map]
        refine congrArg _ (List.map_congr_left fun arg harg => ih arg harg fun d hd => ?_)
        exact hcomplete ((mem_conditions_app hif hlambda args).2 ⟨arg, harg, hd⟩)

theorem value_makeIfExp {exp : SExp} {conds : List SExp} {alist : List (SExp × Bool)} (inProver : Bool)
    (horder : InnerFirst (conds.reverse ++ alist.map Prod.fst))
    (hcomplete : conditions exp ⊆ conds.reverse ++ alist.map Prod.fst)
    (hconsistent : Consistent v alist) :
    v.value (makeIfExp exp conds alist inProver) = v.value exp := by
  induction conds generalizing alist with
  | nil => exact value_rebuild v inProver hcomplete hconsistent
  | cons cond conds ih =>
    rw [List.reverse_cons, List.append_assoc, List.singleton_append] at horder hcomplete
    have hcond := value_rebuild v inProver horder.of_append.1 hconsistent
    have hif : ifp (.sym (if inProver then "if*" else "if")) = true := by cases inProver <;> rfl
    rw [makeIfExp_cons, value_if v hif]
    simp only [ofList_cons, car_cons, cdr_cons, hcond]
    have hassume : Consistent v ((cond, v.holds (v.value cond)) :: alist) :=
      List.forall_mem_cons.2 ⟨rfl, hconsistent⟩
    cases hvalue : v.holds (v.value cond) with
    | true => exact ih horder hcomplete (hvalue ▸ hassume)
    | false => exact ih horder hcomplete (hvalue ▸ hassume)

end Value

/-! ### Hoisting -/

/-- Conditionals without conditionals below their conditions, and below the other forms. -/
inductive Hoisted : SExp → Prop
  | branch {f : String} {c a b : SExp} (hif : ifp (.sym f) = true) (hc : conditions c = [])
      (ha : Hoisted a) (hb : Hoisted b) : Hoisted (form f [c, a, b])
  | leaf {exp : SExp} (h : conditions exp = []) : Hoisted exp

theorem lookup_of_mem_keys {alist : List (SExp × Bool)} {c : SExp} (hc : c ∈ alist.map Prod.fst) :
    ∃ b, alist.lookup c = some b := by
  obtain ⟨p, hp, rfl⟩ := List.mem_map.1 hc
  apply Option.ne_none_iff_exists'.1
  intro hnone
  exact bne_iff_ne.1 (List.lookup_eq_none_iff.1 hnone p hp) rfl

theorem conditions_rebuild {exp : SExp} {alist : List (SExp × Bool)} (inProver : Bool)
    (hcomplete : conditions exp ⊆ alist.map Prod.fst) :
    conditions (makeIfExp exp [] alist inProver) = [] := by
  induction exp using argsInduction with
  | atom exp hexp => rw [makeIfExp_atom _ _ hexp, conditions_atom hexp]
  | cons f args ih ih1 ih2 ih3 =>
    by_cases hif : ifp f = true
    · have hmem := fun d hd => hcomplete ((mem_conditions_if (d := d) hif args).2 hd)
      obtain ⟨b, hb⟩ := lookup_of_mem_keys (hmem _ (.inr (.inl rfl)))
      rw [makeIfExp_if _ _ _ hif, hb]
      cases b with
      | true => exact ih2 fun d hd => hmem d (.inr (.inr (.inl hd)))
      | false => exact ih3 fun d hd => hmem d (.inr (.inr (.inr hd)))
    · by_cases hlambda : f = .sym "lambda"
      · rw [hlambda, makeIfExp_lambda, conditions_lambda]
      · obtain ⟨newargs, hnew, hmap⟩ := makeIfExp_app args inProver alist hif hlambda
        rw [hnew, List.eq_nil_iff_forall_not_mem]
        intro d hd
        obtain ⟨new, hmem, hd⟩ := (mem_conditions_app hif hlambda newargs).1 hd
        rw [hmap, List.mem_map] at hmem
        obtain ⟨arg, harg, rfl⟩ := hmem
        rw [ih arg harg fun d hd => hcomplete ((mem_conditions_app hif hlambda args).2 ⟨arg, harg, hd⟩)]
          at hd
        cases hd

theorem hoisted_makeIfExp {exp : SExp} {conds : List SExp} {alist : List (SExp × Bool)}
    (inProver : Bool) (horder : InnerFirst (conds.reverse ++ alist.map Prod.fst))
    (hcomplete : conditions exp ⊆ conds.reverse ++ alist.map Prod.fst) :
    Hoisted (makeIfExp exp conds alist inProver) := by
  induction conds generalizing alist with
  | nil => exact .leaf (conditions_rebuild inProver hcomplete)
  | cons cond conds ih =>
    rw [List.reverse_cons, List.append_assoc, List.singleton_append] at horder hcomplete
    rw [makeIfExp_cons]
    refine .branch (by cases inProver <;> rfl) ?_ (ih horder hcomplete) (ih horder hcomplete)
    exact conditions_rebuild inProver horder.of_append.1

theorem liftif_correct {V : Type u} (exp : SExp) (inProver : Bool) :
    (∀ v : Valuation V, v.value (liftif exp inProver) = v.value exp) ∧
      Hoisted (liftif exp inProver) := by
  obtain ⟨horder, -, hcomplete⟩ := collects exp (l := []) trivial
  have hlist : collectConditionals' exp [] =
      (collectConditionals exp).reverse ++ ([] : List (SExp × Bool)).map Prod.fst := by
    rw [collectConditionals, List.reverse_reverse, List.map_nil, List.append_nil]
  rw [hlist] at horder hcomplete
  constructor
  · intro v
    exact value_makeIfExp v inProver horder hcomplete fun p hp => nomatch hp
  · exact hoisted_makeIfExp inProver horder hcomplete

end PVS.GroundProver
