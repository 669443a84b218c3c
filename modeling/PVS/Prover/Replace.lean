import PVS.Prover.Expr

/-! Replacement of an expression by another one. -/

namespace PVS.Prover

/-! ### Renamed bindings -/

/-- What a list of renamed bindings makes of a variable. -/
def renameUid (alist : List (BindDecl × BindDecl)) (u : ℕ) : ℕ :=
  ((alist.find? fun a => a.1.uid = u).map fun a => a.2.uid).getD u

/-- `substit-pairlis` -/
def substitPairlis (bs bs' : List BindDecl) : List (BindDecl × BindDecl) :=
  (bs.zip bs').filter fun a => a.1.uid ≠ a.2.uid

theorem renameUid_substitPairlis_cons (b b' : BindDecl) (bs bs' : List BindDecl) (v : ℕ) :
    renameUid (substitPairlis (b :: bs) (b' :: bs')) v =
      if b.uid ≠ b'.uid ∧ b.uid = v then b'.uid else renameUid (substitPairlis bs bs') v := by
  unfold renameUid substitPairlis
  rw [List.zip_cons_cons, List.filter_cons]
  by_cases hne : b.uid = b'.uid
  · simp [hne]
  · by_cases hv : b.uid = v
    · simp [hv, hv ▸ hne]
    · simp [hne, hv]

/-- The loop of `make-nonclashing-bindings`; a copy is an object with the next number. -/
def nonclashing (newId : String → String) (ids : List String) :
    ℕ → List BindDecl → List BindDecl
  | _, [] => []
  | m, b :: bs =>
    (if b.id ∈ ids then { b with id := newId b.id, uid := m } else b) ::
      nonclashing newId ids (m + 1) bs

section Nonclashing

variable {newId : String → String} {ids : List String} {m : ℕ} {bs : List BindDecl}

theorem mem_nonclashing {b' : BindDecl} (h : b' ∈ nonclashing newId ids m bs) :
    (∃ b ∈ bs, b'.uid = b.uid) ∨ m ≤ b'.uid := by
  induction bs generalizing m with
  | nil => cases h
  | cons b bs ih =>
    rw [nonclashing, List.mem_cons] at h
    obtain rfl | h := h
    · split
      · exact .inr le_rfl
      · exact .inl ⟨b, List.mem_cons_self, rfl⟩
    · obtain ⟨c, hc, he⟩ | hle := ih h
      · exact .inl ⟨c, List.mem_cons_of_mem _ hc, he⟩
      · exact .inr (by omega)

theorem nodup_nonclashing (hlt : ∀ b ∈ bs, b.uid < m) (h : (bs.map BindDecl.uid).Nodup) :
    ((nonclashing newId ids m bs).map BindDecl.uid).Nodup := by
  induction bs generalizing m with
  | nil => exact .nil
  | cons b bs ih =>
    rw [List.map_cons, List.nodup_cons] at h
    have hlt' : ∀ c ∈ bs, c.uid < m := fun c hc => hlt c (List.mem_cons_of_mem _ hc)
    rw [nonclashing, List.map_cons, List.nodup_cons]
    refine ⟨?_, ih (fun c hc => (hlt' c hc).trans_le (by omega)) h.2⟩
    intro hmem
    obtain ⟨b', hb', he⟩ := List.mem_map.1 hmem
    have hb := hlt b List.mem_cons_self
    obtain ⟨c, hc, he'⟩ | hle := mem_nonclashing hb'
    · have hcm := hlt' c hc
      rw [he'] at he
      split at he
      · dsimp only at he
        omega
      · exact h.1 (List.mem_map.2 ⟨c, hc, he⟩)
    · split at he
      · dsimp only at he
        omega
      · omega

/-- A variable is kept, or its new number is not below the numbers of the copies. -/
theorem renameUid_nonclashing (v : ℕ) :
    renameUid (substitPairlis bs (nonclashing newId ids m bs)) v = v ∨
      m ≤ renameUid (substitPairlis bs (nonclashing newId ids m bs)) v := by
  induction bs generalizing m with
  | nil => exact .inl rfl
  | cons b bs ih =>
    have hrest : renameUid (substitPairlis bs (nonclashing newId ids (m + 1) bs)) v = v ∨
        m ≤ renameUid (substitPairlis bs (nonclashing newId ids (m + 1) bs)) v :=
      ih.imp_right (Nat.le_of_succ_le)
    rw [nonclashing, renameUid_substitPairlis_cons]
    by_cases hid : b.id ∈ ids
    · rw [if_pos hid]
      split
      · exact .inr le_rfl
      · exact hrest
    · simpa [hid] using hrest

/-- The renamed bindings have the values of the bindings. -/
theorem bindEnv_nonclashing {D : Type} (ρ : ℕ → D) (vals : ℕ → D)
    (hlt : ∀ b ∈ bs, b.uid < m) (h : (bs.map BindDecl.uid).Nodup) {v : ℕ} (hv : v < m) :
    bindEnv ρ ((nonclashing newId ids m bs).map BindDecl.uid) vals
        (renameUid (substitPairlis bs (nonclashing newId ids m bs)) v) =
      bindEnv ρ (bs.map BindDecl.uid) vals v := by
  induction bs generalizing m vals with
  | nil => rfl
  | cons b bs ih =>
    rw [List.map_cons, List.nodup_cons] at h
    have hb := hlt b List.mem_cons_self
    have hlt' : ∀ c ∈ bs, c.uid < m + 1 := fun c hc =>
      (hlt c (List.mem_cons_of_mem _ hc)).trans_le (by omega)
    have hrest := ih (fun i => vals (i + 1)) hlt' h.2 (hv.trans_le (by omega))
    have hkept : renameUid (substitPairlis bs (nonclashing newId ids (m + 1) bs)) v = v ∨
        m + 1 ≤ renameUid (substitPairlis bs (nonclashing newId ids (m + 1) bs)) v :=
      renameUid_nonclashing v
    rw [nonclashing, renameUid_substitPairlis_cons]
    by_cases hid : b.id ∈ ids
    · simp only [hid, if_true, hb.ne, ne_eq, not_false_eq_true, true_and, List.map_cons]
      by_cases hbv : b.uid = v
      · simp [hbv, bindEnv]
      · have hne : renameUid (substitPairlis bs (nonclashing newId ids (m + 1) bs)) v ≠ m := by
          omega
        rw [if_neg hbv, bindEnv, if_neg hne, hrest, bindEnv, if_neg (Ne.symm hbv)]
    · simp only [hid, if_false, ne_eq, not_true_eq_false, false_and, List.map_cons]
      rw [bindEnv, bindEnv, hrest]
      by_cases hbv : v = b.uid
      · have hkeep : renameUid (substitPairlis bs (nonclashing newId ids (m + 1) bs)) v = v := by
          have hnot : ∀ a ∈ substitPairlis bs (nonclashing newId ids (m + 1) bs), a.1.uid ≠ v := by
            rintro a ha rfl
            exact h.1 (List.mem_map.2 ⟨a.1, (List.of_mem_zip (List.mem_filter.1 ha).1).1, hbv⟩)
          rw [renameUid, List.find?_eq_none.2 (by simpa using hnot)]
          rfl
        rw [hkeep]
      · have hne : renameUid (substitPairlis bs (nonclashing newId ids (m + 1) bs)) v ≠ b.uid := by
          omega
        rw [if_neg hne, if_neg hbv]

end Nonclashing

/-- A number above those of the bindings, and not below `n`. -/
def Bindings.fresh (n : ℕ) (bs : Bindings) : ℕ := bs.uids.foldr (fun u m => max (u + 1) m) n

theorem Bindings.le_fresh (n : ℕ) (bs : Bindings) : n ≤ bs.fresh n := by
  unfold fresh
  induction bs.uids with
  | nil => exact le_rfl
  | cons u us ih => exact ih.trans (Nat.le_max_right ..)

theorem Bindings.lt_fresh (n : ℕ) (bs : Bindings) : ∀ u ∈ bs.uids, u < bs.fresh n := by
  unfold fresh
  induction bs.uids with
  | nil => exact fun u hu => nomatch hu
  | cons w us ih =>
    intro u hu
    obtain rfl | hu := List.mem_cons.1 hu
    · exact Nat.le_max_left ..
    · exact (ih u hu).trans_le (Nat.le_max_right ..)

/-- The copies of the bindings whose names are among `ids`. -/
def Bindings.nonclashing (newId : String → String) (ids : List String) (n : ℕ) (bs : Bindings) :
    Bindings where
  decls := Prover.nonclashing newId ids (bs.fresh n) bs.decls
  nodup := nodup_nonclashing
    (fun b hb => bs.lt_fresh n b.uid (List.mem_map_of_mem hb)) bs.nodup

/-! ### Names and numbers -/

def Connective.id : Connective → String
  | equation | boolEquation => "="
  | conjunction => "AND"
  | disjunction => "OR"
  | implication => "IMPLIES"
  | negation => "NOT"

def ArithOp.id : ArithOp → String
  | plus => "+"
  | minus => "-"
  | times => "*"
  | divide => "/"

namespace Expr

/-- `collect-free-ids*`, where the numbers are those of `*bound-variables*` -/
def freeIds : Expr → List ℕ → List String
  | cons a d, us => a.freeIds us ++ d.freeIds us
  | bool b, _ => [if b then "TRUE" else "FALSE"]
  | const c, _ => [c.id]
  | var x, us => if x.uid ∈ us then [] else [x.id]
  | arith op, _ => [op.id]
  | iff, _ => ["IFF"]
  | fieldAssign id, _ => [id]
  | accessorAssign c, _ => [c.id]
  | app op arg, us => op.freeIds us ++ arg.freeIds us
  | connective k arg, us => k.id :: arg.freeIds us
  | branch c f g, us => "IF" :: (c.freeIds us ++ (f.freeIds us ++ g.freeIds us))
  | unary _ arg, us => arg.freeIds us
  | tuple es, us => es.freeIds us
  | record as, us => as.freeIds us
  | update e as, us => e.freeIds us ++ as.freeIds us
  | assignment args e, us => args.freeIds us ++ e.freeIds us
  | binding _ bs e, us => e.freeIds (bs.uids ++ us)
  | cases e sels els, us => e.freeIds us ++ (sels.freeIds us ++ els.freeIds us)
  | selection c bs e, us => c.id :: e.freeIds (bs.uids ++ us)
  | nil, _ | number _, _ | projAssign _, _ => []

/-- A number above those of the variables. -/
def fresh (n : ℕ) : Expr → ℕ
  | var x => max (x.uid + 1) n
  | cons a d => a.fresh (d.fresh n)
  | app op arg => op.fresh (arg.fresh n)
  | connective _ arg => arg.fresh n
  | branch c f g => c.fresh (f.fresh (g.fresh n))
  | unary _ arg => arg.fresh n
  | tuple es => es.fresh n
  | record as => as.fresh n
  | update e as => e.fresh (as.fresh n)
  | assignment args e => args.fresh (e.fresh n)
  | binding _ bs e => bs.fresh (e.fresh n)
  | cases e sels els => e.fresh (sels.fresh (els.fresh n))
  | selection _ bs e => bs.fresh (e.fresh n)
  | _ => n

theorem le_fresh (e : Expr) (n : ℕ) : n ≤ e.fresh n := by
  induction e generalizing n with
  | nil | bool | const | number | arith | iff | projAssign | fieldAssign | accessorAssign =>
    exact le_rfl
  | var x => exact Nat.le_max_right ..
  | cons a d iha ihd => exact (ihd n).trans (iha _)
  | app op arg ihop iharg => exact (iharg n).trans (ihop _)
  | connective _ arg ih | unary _ arg ih => exact ih n
  | tuple es ih | record as ih => exact ih n
  | branch c f g ihc ihf ihg => exact (ihg n).trans ((ihf _).trans (ihc _))
  | update e as ihe ihas => exact (ihas n).trans (ihe _)
  | assignment args e ihargs ihe => exact (ihe n).trans (ihargs _)
  | binding _ bs e ih | selection _ bs e ih => exact (ih n).trans (bs.le_fresh _)
  | cases e sels els ihe ihsels ihels => exact (ihels n).trans ((ihsels _).trans (ihe _))

theorem lt_fresh (e : Expr) (n : ℕ) : ∀ u, u ∈ e.frees ∨ u ∈ e.bound → u < e.fresh n := by
  induction e generalizing n with
  | nil | bool | const | number | arith | iff | projAssign | fieldAssign | accessorAssign =>
    rintro u (⟨⟨⟩⟩ | ⟨⟨⟩⟩)
  | var x =>
    rintro u (rfl | ⟨⟨⟩⟩)
    exact Nat.le_max_left ..
  | cons a d iha ihd =>
    rintro u ((h | h) | (h | h))
    · exact iha _ u (.inl h)
    · exact (ihd n u (.inl h)).trans_le (a.le_fresh _)
    · exact iha _ u (.inr h)
    · exact (ihd n u (.inr h)).trans_le (a.le_fresh _)
  | app op arg ihop iharg =>
    rintro u ((h | h) | (h | h))
    · exact ihop _ u (.inl h)
    · exact (iharg n u (.inl h)).trans_le (op.le_fresh _)
    · exact ihop _ u (.inr h)
    · exact (iharg n u (.inr h)).trans_le (op.le_fresh _)
  | connective _ arg ih | unary _ arg ih => exact ih n
  | tuple es ih | record as ih => exact ih n
  | branch c f g ihc ihf ihg =>
    rintro u ((h | h | h) | (h | h | h))
    · exact ihc _ u (.inl h)
    · exact (ihf _ u (.inl h)).trans_le (c.le_fresh _)
    · exact ((ihg n u (.inl h)).trans_le (f.le_fresh _)).trans_le (c.le_fresh _)
    · exact ihc _ u (.inr h)
    · exact (ihf _ u (.inr h)).trans_le (c.le_fresh _)
    · exact ((ihg n u (.inr h)).trans_le (f.le_fresh _)).trans_le (c.le_fresh _)
  | update e as ihe ihas =>
    rintro u ((h | h) | (h | h))
    · exact ihe _ u (.inl h)
    · exact (ihas n u (.inl h)).trans_le (e.le_fresh _)
    · exact ihe _ u (.inr h)
    · exact (ihas n u (.inr h)).trans_le (e.le_fresh _)
  | assignment args e ihargs ihe =>
    rintro u ((h | h) | (h | h))
    · exact ihargs _ u (.inl h)
    · exact (ihe n u (.inl h)).trans_le (args.le_fresh _)
    · exact ihargs _ u (.inr h)
    · exact (ihe n u (.inr h)).trans_le (args.le_fresh _)
  | binding _ bs e ih | selection _ bs e ih =>
    rintro u (⟨h, -⟩ | (h | h))
    · exact (ih n u (.inl h)).trans_le (bs.le_fresh _)
    · exact bs.lt_fresh _ u h
    · exact (ih n u (.inr h)).trans_le (bs.le_fresh _)
  | cases e sels els ihe ihsels ihels =>
    rintro u ((h | h | h) | (h | h | h))
    · exact ihe _ u (.inl h)
    · exact (ihsels _ u (.inl h)).trans_le (e.le_fresh _)
    · exact ((ihels n u (.inl h)).trans_le (sels.le_fresh _)).trans_le (e.le_fresh _)
    · exact ihe _ u (.inr h)
    · exact (ihsels _ u (.inr h)).trans_le (e.le_fresh _)
    · exact ((ihels n u (.inr h)).trans_le (sels.le_fresh _)).trans_le (e.le_fresh _)

/-- The numbers in a list of expressions, if it has nothing else. -/
def numbers? : Expr → Option (List ℚ)
  | nil => some []
  | cons (number q) d => d.numbers?.map (q :: ·)
  | _ => none

end Expr

def groundArithDefined (op : ArithOp) (qs : List ℚ) : Bool :=
  op ≠ .divide || qs[1]?.any (· ≠ 0)

/-- `simplify-ground-arith` -/
def simplifyGroundArith (useRationals : Bool) : Expr → Expr → Option Expr
  | .arith op, .tuple es =>
    match es.numbers? with
    | some qs => if useRationals && groundArithDefined op qs then some (.number (op.apply qs)) else none
    | none => none
  | .arith op, .number q =>
    if useRationals && groundArithDefined op [q] then some (.number (op.apply [q])) else none
  | _, _ => none

def simplifyOrCopyApp (useRationals : Bool) (op arg : Expr) : Expr :=
  (simplifyGroundArith useRationals op arg).getD (.app op arg)

/-! ### Replacement -/

/-- The functions that are called. Objects that `substit` makes have numbers from the one that it is
given. -/
structure Callees where
  tcEq : Expr → Expr → Bool
  replaceEq : List BindDecl → Expr → Expr → Bool
  newBoundvarId : Expr → String → String
  substit : ℕ → Expr → List (BindDecl × BindDecl) → Expr
  tcEq_sound : ∀ {e e'}, tcEq e e' = true →
    ∀ {D : Type} (M : Model D) (ρ : ℕ → D), e.eval M ρ = e'.eval M ρ
  replaceEq_sound : ∀ {bs e e'}, (∀ u ∈ e.frees, u ∈ bs.map BindDecl.uid) →
    replaceEq bs e e' = true → ∀ {D : Type} (M : Model D) (ρ : ℕ → D), e.eval M ρ = e'.eval M ρ
  substit_eval : ∀ {m e alist}, (∀ a ∈ alist, a.1.uid ∉ e.bound ∧ a.2.uid ∉ e.bound) →
    ∀ {D : Type} (M : Model D) (ρ : ℕ → D),
      (substit m e alist).eval M ρ = e.eval M fun u => ρ (renameUid alist u)
  bound_substit : ∀ {m e alist u}, u ∈ (substit m e alist).bound → u ∈ e.bound ∨ m ≤ u

variable (C : Callees)

/-- `negate!` -/
def negateExpr : Expr → Expr
  | .connective .negation e => e
  | e =>
    if C.tcEq e (.bool true) then .bool false
    else if C.tcEq e (.bool false) then .bool true
    else .connective .negation e

/-- The two expressions that an argument of a connective stands for. -/
def newExprs : Expr → Expr × Expr
  | .tuple (.cons a (.cons b _)) => (a, b)
  | e => (.unary (.projection 1) e, .unary (.projection 2) e)

/-- What the methods on connectives make of the new argument. -/
def rebuildConnective (k : Connective) (newarg : Expr) : Expr :=
  let a := (newExprs newarg).1
  let b := (newExprs newarg).2
  match k with
  | .equation => if C.tcEq a b then .bool true else .connective k newarg
  | .boolEquation =>
    if C.tcEq a b then .bool true
    else if C.tcEq a (.bool true) then b
    else if C.tcEq b (.bool true) then a
    else .connective k newarg
  | .conjunction =>
    if C.tcEq a (.bool true) then b
    else if C.tcEq b (.bool true) then a
    else if C.tcEq a (.bool false) || C.tcEq b (.bool false) then .bool false
    else .connective k newarg
  | .disjunction =>
    if C.tcEq a (.bool false) then b
    else if C.tcEq b (.bool false) then a
    else if C.tcEq a (.bool true) || C.tcEq b (.bool true) then .bool true
    else .connective k newarg
  | .implication =>
    if C.tcEq a (.bool true) then b
    else if C.tcEq a (.bool false) || C.tcEq b (.bool true) then .bool true
    else if C.tcEq b (.bool false) then negateExpr C a
    else .connective k newarg
  | .negation =>
    if C.tcEq newarg (.bool true) then .bool false
    else if C.tcEq newarg (.bool false) then .bool true
    else .connective k newarg

/-- `make-nonclashing-bindings` -/
def makeNonclashingBindings (n : ℕ) (bs : Bindings) (rhs : Expr) : Option Bindings :=
  if bs.decls.any fun b => b.id ∈ rhs.freeIds [] then
    some (bs.nonclashing (C.newBoundvarId rhs) (rhs.freeIds []) n)
  else none

/-- What the method on binders makes of the new expression. -/
def rebuildBinding (n : ℕ) (rhs : Expr) (k : Binder) (bs : Bindings) (e nexpr : Expr) : Expr :=
  if nexpr = e then .binding k bs e
  else
    let m := nexpr.fresh n
    match makeNonclashingBindings C m bs rhs with
    | some bs' =>
      .binding k bs' (C.substit (bs'.fresh m) nexpr (substitPairlis bs.decls bs'.decls))
    | none => .binding k bs nexpr

/-- `replace-expr*`, where `bs` is `*bound-variables*` and objects that are made have numbers from
`n`. -/
def replaceExpr (useRationals : Bool) (n : ℕ) (lhs rhs : Expr) : Expr → List BindDecl → Expr
  | .nil, _ => .nil
  | .cons a d, bs =>
    .cons (replaceExpr useRationals n lhs rhs a bs) (replaceExpr useRationals n lhs rhs d bs)
  | .bool b, bs => if C.replaceEq bs lhs (.bool b) then rhs else .bool b
  | .const c, bs => if C.replaceEq bs lhs (.const c) then rhs else .const c
  | .var x, bs => if C.replaceEq bs lhs (.var x) then rhs else .var x
  | .arith op, bs => if C.replaceEq bs lhs (.arith op) then rhs else .arith op
  | .iff, bs => if C.replaceEq bs lhs .iff then rhs else .iff
  | .fieldAssign id, bs => if C.replaceEq bs lhs (.fieldAssign id) then rhs else .fieldAssign id
  | .number q, _ => if C.tcEq lhs (.number q) then rhs else .number q
  -- The class of an index is a subclass of that of numbers, the one of an accessor of that of names.
  | .projAssign i, _ => if C.tcEq lhs (.number i) then rhs else .projAssign i
  | .accessorAssign c, bs => if C.replaceEq bs lhs (.const c) then rhs else .accessorAssign c
  | .app op arg, bs =>
    if C.replaceEq bs lhs (.app op arg) then rhs
    else
      let op' := replaceExpr useRationals n lhs rhs op bs
      let arg' := replaceExpr useRationals n lhs rhs arg bs
      if op' = op ∧ arg' = arg then .app op arg else simplifyOrCopyApp useRationals op' arg'
  | .connective k arg, bs =>
    if C.replaceEq bs lhs (.connective k arg) then rhs
    else rebuildConnective C k (replaceExpr useRationals n lhs rhs arg bs)
  | .branch c f g, bs =>
    if C.replaceEq bs (.branch c f g) lhs then rhs
    else
      let c' := replaceExpr useRationals n lhs rhs c bs
      if C.tcEq c' (.bool true) then replaceExpr useRationals n lhs rhs f bs
      else if C.tcEq c' (.bool false) then replaceExpr useRationals n lhs rhs g bs
      else .branch c' (replaceExpr useRationals n lhs rhs f bs)
        (replaceExpr useRationals n lhs rhs g bs)
  | .unary u arg, bs =>
    if C.replaceEq bs lhs (.unary u arg) then rhs
    else
      let arg' := replaceExpr useRationals n lhs rhs arg bs
      match u with
      | .projection i =>
        if C.tcEq arg arg' then .unary (.projection i) arg else .unary (.projection i) arg'
      | u => .unary u arg'
  | .tuple es, bs =>
    if C.replaceEq bs lhs (.tuple es) then rhs
    else .tuple (replaceExpr useRationals n lhs rhs es bs)
  | .record as, bs =>
    if C.replaceEq bs lhs (.record as) then rhs
    else .record (replaceExpr useRationals n lhs rhs as bs)
  | .update e as, bs =>
    if C.replaceEq bs lhs (.update e as) then rhs
    else .update (replaceExpr useRationals n lhs rhs e bs) (replaceExpr useRationals n lhs rhs as bs)
  | .assignment args e, bs =>
    .assignment (replaceExpr useRationals n lhs rhs args bs)
      (replaceExpr useRationals n lhs rhs e bs)
  | .binding k vs e, bs =>
    if C.replaceEq bs lhs (.binding k vs e) then rhs
    else rebuildBinding C n rhs k vs e (replaceExpr useRationals n lhs rhs e (vs.decls ++ bs))
  | .cases e sels els, bs =>
    if C.replaceEq bs (.cases e sels els) lhs then rhs
    else .cases (replaceExpr useRationals n lhs rhs e bs)
      (replaceExpr useRationals n lhs rhs sels bs) (replaceExpr useRationals n lhs rhs els bs)
  | .selection c vs e, bs =>
    .selection c vs (replaceExpr useRationals n lhs rhs e (vs.decls ++ bs))

/-- No index and no accessor that selects what is assigned is taken for `lhs`, and no binder that is
renamed has one of the same bindings in its scope. -/
def Replaceable (lhs rhs : Expr) : Expr → List BindDecl → Prop
  | .projAssign i, _ => C.tcEq lhs (.number i) = false
  | .accessorAssign c, bs => C.replaceEq bs lhs (.const c) = false
  | .cons a d, bs => Replaceable lhs rhs a bs ∧ Replaceable lhs rhs d bs
  | .app op arg, bs => Replaceable lhs rhs op bs ∧ Replaceable lhs rhs arg bs
  | .connective _ arg, bs => Replaceable lhs rhs arg bs
  | .branch c f g, bs =>
    Replaceable lhs rhs c bs ∧ Replaceable lhs rhs f bs ∧ Replaceable lhs rhs g bs
  | .unary _ arg, bs => Replaceable lhs rhs arg bs
  | .tuple es, bs => Replaceable lhs rhs es bs
  | .record as, bs => Replaceable lhs rhs as bs
  | .update e as, bs => Replaceable lhs rhs e bs ∧ Replaceable lhs rhs as bs
  | .assignment args e, bs => Replaceable lhs rhs args bs ∧ Replaceable lhs rhs e bs
  | .binding _ vs e, bs =>
    Replaceable lhs rhs e (vs.decls ++ bs) ∧
      ((vs.decls.any fun b => b.id ∈ rhs.freeIds []) = true →
        ∀ b ∈ vs.decls, b.uid ∉ e.bound ∧ b.uid ∉ rhs.bound)
  | .cases e sels els, bs =>
    Replaceable lhs rhs e bs ∧ Replaceable lhs rhs sels bs ∧ Replaceable lhs rhs els bs
  | .selection _ vs e, bs => Replaceable lhs rhs e (vs.decls ++ bs)
  | _, _ => True

end PVS.Prover
