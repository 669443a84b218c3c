import Mathlib
import PVS.TccGen.Makes

/-! Substitution of bindings for bindings. -/

namespace PVS.TccGen

variable {T : Terms}

section Substit

variable (Q : Checker T)

/-- `substit*` on types, with its `:around` method. -/
def substTypeStar (t : T.Ty) (alist : Alist T) : T.Ty :=
  if (T.tyFreevars t).any fun fv => (alist.assq fv.uid).isSome then Q.substType t alist else t

/-- `bindings-subst-clash`, where what is substituted is a binding. -/
def bindingsSubstClash (bind : Binding T) (freevars : List (Binding T)) (alist : Alist T) : Bool :=
  freevars.any fun fv => (alist.assq fv.uid).any fun abd => abd.id = bind.id

/-- `make-new-bindings*`; `frees` are the free variables of the expression and of the new bindings.
A new binding keeps its number, so that `alist` needs no entry for it; `seen` has them for the
names. -/
def makeNewBindings (alist : Alist T) (expr : Formula T) :
    List (Binding T) → (seen : Alist T) → (frees : List (Binding T)) → List (Binding T)
  | [], _, _ => []
  | bind :: bs, seen, frees =>
    let check := bindingsSubstClash bind frees (seen ++ alist)
    let newBinding : Binding T := { bind with
      id := if check then Q.newBoundvarId bind.id expr else bind.id
      type := substTypeStar Q bind.type alist }
    newBinding :: makeNewBindings alist expr bs ((bind, newBinding) :: seen)
      ((fvUnion (T.tyFreevars newBinding.type) frees).filter fun d => !sameDeclaration d newBinding)

def substConjunction (f g : Formula T) : Formula T :=
  if Q.tcEq f .true then g
  else if Q.tcEq g .true then f
  else if Q.tcEq f .false || Q.tcEq g .false then .false
  else .and f g

def substDisjunction (f g : Formula T) : Formula T :=
  if Q.tcEq f .false then g
  else if Q.tcEq g .false then f
  else if Q.tcEq f .true || Q.tcEq g .true then .true
  else .or f g

/-- `negate!` -/
def negateBang : Formula T → Formula T
  | .not f => f
  | f => makeNegation Q f

def substImplication (f g : Formula T) : Formula T :=
  if Q.tcEq f .true then g
  else if Q.tcEq f .false || Q.tcEq g .true then .true
  else if Q.tcEq g .false then negateBang Q f
  else .implies f g

def substitPossible (f : Formula T) (alist : Alist T) : Bool :=
  f.freevars.any fun fv => (alist.assq fv.uid).isSome

def substitStar (dontSimplify : Bool) (alist : Alist T) : Formula T → Formula T
  | .true => .true
  | .false => .false
  | .atom a =>
    if (T.atomFreevars a).isEmpty then .atom a else Q.substAtom dontSimplify a alist
  | .not f =>
    if dontSimplify then .not (substitStar dontSimplify alist f)
    else makeNegation Q (substitStar dontSimplify alist f)
  | .and f g =>
    let f' := substitStar dontSimplify alist f
    let g' := substitStar dontSimplify alist g
    if dontSimplify then .and f' g' else substConjunction Q f' g'
  | .or f g =>
    let f' := substitStar dontSimplify alist f
    let g' := substitStar dontSimplify alist g
    if dontSimplify then .or f' g' else substDisjunction Q f' g'
  | .implies f g =>
    let f' := substitStar dontSimplify alist f
    let g' := substitStar dontSimplify alist g
    if dontSimplify then .implies f' g' else substImplication Q f' g'
  | .forAll bs f =>
    if substitPossible (.forAll bs f) alist then
      .forAll (makeNewBindings Q alist f bs [] f.freevars) (substitStar dontSimplify alist f)
    else .forAll bs f

/-- The entries that `substit` keeps. -/
def neededSubsts (freevars : List (Binding T)) (alist : Alist T) : Alist T :=
  alist.filter fun a => !(sameDeclaration a.1 a.2 || !memDecl a.1 freevars)

def substit (dontSimplify : Bool) (f : Formula T) (alist : Alist T) : Formula T :=
  let nalist := neededSubsts f.freevars alist
  if nalist.isEmpty then f else substitStar Q dontSimplify nalist f

/-- `substit` on a type. -/
def substitType (t : T.Ty) (alist : Alist T) : T.Ty :=
  let nalist := neededSubsts (T.tyFreevars t) alist
  if nalist.isEmpty then t else substTypeStar Q t nalist

end Substit

/-! ### Alists -/

namespace Alist

variable {alist : Alist T}

theorem rename_of_assq_none {u : ℕ} (h : alist.assq u = none) : alist.rename u = u := by
  rw [rename, h]
  rfl

theorem assq_eq_none {u : ℕ} : alist.assq u = none ↔ ∀ entry ∈ alist, entry.1.uid ≠ u := by
  simp [assq]

theorem rename_of_forall_ne {u : ℕ} (h : ∀ entry ∈ alist, entry.1.uid ≠ u) : alist.rename u = u :=
  rename_of_assq_none (assq_eq_none.2 h)

/-- A variable is kept, or it is renamed by an entry. -/
theorem rename_cases (alist : Alist T) (u : ℕ) :
    (alist.rename u = u ∧ ∀ entry ∈ alist, entry.1.uid ≠ u) ∨
      ∃ entry ∈ alist, entry.1.uid = u ∧ alist.rename u = entry.2.uid := by
  cases h : alist.find? fun entry => entry.1.uid = u with
  | none =>
    have hnone : alist.assq u = none := by rw [assq, h]; rfl
    exact .inl ⟨rename_of_assq_none hnone, assq_eq_none.1 hnone⟩
  | some entry =>
    refine .inr ⟨entry, List.mem_of_find?_eq_some h, by simpa using List.find?_some h, ?_⟩
    rw [rename, assq, h]
    rfl

theorem rename_cons (entry : Binding T × Binding T) (u : ℕ) :
    rename (entry :: alist) u = if entry.1.uid = u then entry.2.uid else alist.rename u := by
  rw [rename, assq, List.find?_cons]
  by_cases h : entry.1.uid = u
  · simp [h]
  · simp only [h, decide_false, if_false]
    rfl

theorem Apart.mono {S S' : Set ℕ} (h : alist.Apart S) (hS : S' ⊆ S) : alist.Apart S' :=
  fun entry hentry => ⟨fun hmem => (h entry hentry).1 (hS hmem),
    fun hmem => (h entry hentry).2 (hS hmem)⟩

/-- Where a variable is not in the list, a new value of it is no value of another. -/
theorem update_comp_rename {V : Type} {b : ℕ} (hkey : ∀ entry ∈ alist, entry.1.uid ≠ b)
    (hval : ∀ entry ∈ alist, entry.2.uid ≠ b) (env : ℕ → V) (v : V) :
    Function.update env b v ∘ alist.rename = Function.update (env ∘ alist.rename) b v := by
  funext u
  by_cases hu : u = b
  · subst hu
    rw [Function.comp_apply, rename_of_forall_ne hkey, Function.update_self, Function.update_self]
  · rw [Function.comp_apply, Function.update_of_ne hu, Function.comp_apply, Function.update_of_ne]
    rcases rename_cases alist u with ⟨h, -⟩ | ⟨entry, hentry, -, h⟩
    · rwa [h]
    · rw [h]
      exact hval entry hentry

end Alist

section Meaning

variable {Q : Checker T} {M : Model Q}

theorem tyFreevars_any_assq {t : T.Ty} {alist : Alist T}
    (h : ¬ ((T.tyFreevars t).any fun fv => (alist.assq fv.uid).isSome) = true) {u : ℕ}
    (hu : u ∈ T.tyFrees t) : alist.rename u = u := by
  obtain ⟨d, hd, rfl⟩ := hu
  rw [List.any_eq_true] at h
  push Not at h
  exact Alist.rename_of_assq_none (by simpa using h d hd)

theorem ty_substTypeStar {t : T.Ty} {alist : Alist T} (h : alist.Apart (T.tyBound t))
    (env : ℕ → M.Val) : M.ty (substTypeStar Q t alist) env = M.ty t (env ∘ alist.rename) := by
  rw [substTypeStar]
  split_ifs with hany
  · exact M.ty_subst t alist env h
  · refine M.loc.ty t _ _ fun u hu => ?_
    rw [Function.comp_apply, tyFreevars_any_assq hany hu]

/-- Values for the new bindings are values for the old ones. -/
theorem assigns_makeNewBindings {alist : Alist T} {expr : Formula T} {bs : List (Binding T)}
    {S : Set ℕ} (h : alist.Apart (boundList bs S)) (seen : Alist T) (frees : List (Binding T))
    (env : ℕ → M.Val) (e : ℕ → M.Val) :
    M.Assigns bs (env ∘ alist.rename) e ↔
      ∃ env', M.Assigns (makeNewBindings Q alist expr bs seen frees) env env' ∧
        e = env' ∘ alist.rename := by
  induction bs generalizing seen frees env with
  | nil =>
    simp only [Interpretation.Assigns, makeNewBindings]
    constructor
    · exact fun he => ⟨env, rfl, he⟩
    · rintro ⟨_, henv, he⟩
      rw [he, henv]
  | cons b bs ih =>
    have hty : alist.Apart (T.tyBound b.type) := h.mono fun _ hu => .inr (.inl hu)
    have hrest : alist.Apart (boundList bs S) := h.mono fun _ hu => .inr (.inr hu)
    have hcomp : ∀ v, Function.update env b.uid v ∘ alist.rename =
        Function.update (env ∘ alist.rename) b.uid v :=
      Alist.update_comp_rename (fun entry hentry heq => (h entry hentry).1 (.inl heq))
        (fun entry hentry heq => (h entry hentry).2 (.inl heq)) env
    rw [makeNewBindings]
    simp only [Interpretation.Assigns]
    rw [ty_substTypeStar hty]
    constructor
    · rintro ⟨v, hv, he⟩
      rw [← hcomp] at he
      obtain ⟨env', henv', rfl⟩ := (ih hrest _ _ _).1 he
      exact ⟨env', ⟨v, hv, henv'⟩, rfl⟩
    · rintro ⟨env', ⟨v, hv, henv'⟩, rfl⟩
      refine ⟨v, hv, ?_⟩
      rw [← hcomp]
      exact (ih hrest _ _ _).2 ⟨env', henv', rfl⟩

theorem forAll_makeNewBindings {alist : Alist T} {expr : Formula T} {bs : List (Binding T)}
    {S : Set ℕ} (h : alist.Apart (boundList bs S)) (seen : Alist T) (frees : List (Binding T))
    (P : (ℕ → M.Val) → Prop) (env : ℕ → M.Val) :
    M.ForAll bs P (env ∘ alist.rename) ↔
      M.ForAll (makeNewBindings Q alist expr bs seen frees) (fun env' => P (env' ∘ alist.rename))
        env := by
  rw [Interpretation.forAll_iff, Interpretation.forAll_iff]
  constructor
  · intro hall env' henv'
    exact hall _ ((assigns_makeNewBindings h seen frees env _).2 ⟨env', henv', rfl⟩)
  · intro hall e he
    obtain ⟨env', henv', rfl⟩ := (assigns_makeNewBindings h seen frees env e).1 he
    exact hall env' henv'

@[simp] theorem holds_substConjunction {f g : Formula T} {env : ℕ → M.Val} :
    M.Holds (substConjunction Q f g) env ↔ M.Holds f env ∧ M.Holds g env := by
  rw [substConjunction]
  split_ifs with h₁ h₂ h₃
  · simp [M.tcEq_holds _ _ h₁, Interpretation.Holds]
  · simp [M.tcEq_holds _ _ h₂, Interpretation.Holds]
  · rcases Bool.or_eq_true_iff.1 h₃ with h | h
    · simp [M.tcEq_holds _ _ h, Interpretation.Holds]
    · simp [M.tcEq_holds _ _ h, Interpretation.Holds]
  · rfl

theorem meaningful_substConjunction {f g : Formula T} {env : ℕ → M.Val}
    (h : M.Meaningful (.and f g) env) : M.Meaningful (substConjunction Q f g) env := by
  rw [substConjunction]
  split_ifs with h₁
  · exact h.2 ((M.tcEq_holds _ _ h₁ env).2 trivial)
  · exact h.1
  · trivial
  · exact h

@[simp] theorem holds_substDisjunction {f g : Formula T} {env : ℕ → M.Val} :
    M.Holds (substDisjunction Q f g) env ↔ M.Holds f env ∨ M.Holds g env := by
  rw [substDisjunction]
  split_ifs with h₁ h₂ h₃
  · simp [M.tcEq_holds _ _ h₁, Interpretation.Holds]
  · simp [M.tcEq_holds _ _ h₂, Interpretation.Holds]
  · rcases Bool.or_eq_true_iff.1 h₃ with h | h
    · simp [M.tcEq_holds _ _ h, Interpretation.Holds]
    · simp [M.tcEq_holds _ _ h, Interpretation.Holds]
  · rfl

theorem meaningful_substDisjunction {f g : Formula T} {env : ℕ → M.Val}
    (h : M.Meaningful (.or f g) env) : M.Meaningful (substDisjunction Q f g) env := by
  rw [substDisjunction]
  split_ifs with h₁
  · exact h.2 (mt (M.tcEq_holds _ _ h₁ env).1 id)
  · exact h.1
  · trivial
  · exact h

@[simp] theorem holds_negateBang {f : Formula T} {env : ℕ → M.Val} :
    M.Holds (negateBang Q f) env ↔ ¬ M.Holds f env := by
  cases f with
  | not f => exact not_not.symm
  | _ =>
    rw [negateBang]
    · exact holds_makeNegation
    · simp

@[simp] theorem meaningful_negateBang {f : Formula T} {env : ℕ → M.Val} :
    M.Meaningful (negateBang Q f) env ↔ M.Meaningful f env := by
  cases f with
  | not f => rfl
  | _ =>
    rw [negateBang]
    · exact meaningful_makeNegation
    · simp

@[simp] theorem holds_substImplication {f g : Formula T} {env : ℕ → M.Val} :
    M.Holds (substImplication Q f g) env ↔ (M.Holds f env → M.Holds g env) := by
  rw [substImplication]
  split_ifs with h₁ h₂ h₃
  · simp [M.tcEq_holds _ _ h₁, Interpretation.Holds]
  · rcases Bool.or_eq_true_iff.1 h₂ with h | h
    · simp [M.tcEq_holds _ _ h, Interpretation.Holds]
    · simp [M.tcEq_holds _ _ h, Interpretation.Holds]
  · simp [M.tcEq_holds _ _ h₃, Interpretation.Holds]
  · rfl

theorem meaningful_substImplication {f g : Formula T} {env : ℕ → M.Val}
    (h : M.Meaningful (.implies f g) env) : M.Meaningful (substImplication Q f g) env := by
  rw [substImplication]
  split_ifs with h₁
  · exact h.2 ((M.tcEq_holds _ _ h₁ env).2 trivial)
  · trivial
  · exact meaningful_negateBang.2 h.1
  · exact h

theorem rename_of_not_possible {f : Formula T} {alist : Alist T} (h : alist.Apart f.bound)
    (hpossible : ¬ substitPossible f alist = true) {u : ℕ} (hu : u ∈ f.frees) :
    alist.rename u = u := by
  rcases alist.rename_cases u with ⟨heq, -⟩ | ⟨entry, hentry, rfl, -⟩
  · exact heq
  · obtain ⟨d, hd, hduid⟩ := (Formula.mem_freevars (h entry hentry).1).2 hu
    rw [substitPossible, List.any_eq_true] at hpossible
    push Not at hpossible
    refine Alist.rename_of_assq_none ?_
    rw [← hduid]
    simpa using hpossible d hd

theorem holds_substitStar (s : Bool) {alist : Alist T} (f : Formula T)
    (h : alist.Apart f.bound) (env : ℕ → M.Val) :
    M.Holds (substitStar Q s alist f) env ↔ M.Holds f (env ∘ alist.rename) := by
  induction f generalizing env with
  | true => rfl
  | false => rfl
  | atom a =>
    rw [substitStar]
    split_ifs with hempty
    · refine M.loc.holds a _ _ fun u hu => ?_
      obtain ⟨d, hd, -⟩ := hu
      rw [List.isEmpty_iff.1 hempty] at hd
      cases hd
    · exact M.holds_subst s a alist env h
  | not f ih =>
    rw [substitStar]
    split_ifs
    · exact not_congr (ih h env)
    · rw [holds_makeNegation]
      exact not_congr (ih h env)
  | and f g ihf ihg =>
    have hf := ihf (h.mono Set.subset_union_left) env
    have hg := ihg (h.mono Set.subset_union_right) env
    rw [substitStar]
    split_ifs
    · exact and_congr hf hg
    · rw [holds_substConjunction]
      exact and_congr hf hg
  | or f g ihf ihg =>
    have hf := ihf (h.mono Set.subset_union_left) env
    have hg := ihg (h.mono Set.subset_union_right) env
    rw [substitStar]
    split_ifs
    · exact or_congr hf hg
    · rw [holds_substDisjunction]
      exact or_congr hf hg
  | implies f g ihf ihg =>
    have hf := ihf (h.mono Set.subset_union_left) env
    have hg := ihg (h.mono Set.subset_union_right) env
    rw [substitStar]
    split_ifs
    · exact imp_congr hf hg
    · rw [holds_substImplication]
      exact imp_congr hf hg
  | forAll bs f ih =>
    rw [substitStar]
    split_ifs with hpossible
    · have hbody : alist.Apart f.bound := h.mono fun u hu => mem_boundList.2 (.inr hu)
      rw [Interpretation.Holds, Interpretation.Holds, forAll_makeNewBindings h [] f.freevars]
      exact M.forAll_iff.trans ((forall₂_congr fun env' _ => ih hbody env').trans M.forAll_iff.symm)
    · refine holds_congr M.loc _ _ _ fun u hu => ?_
      rw [Function.comp_apply, rename_of_not_possible h hpossible hu]

theorem meaningful_substitStar (s : Bool) {alist : Alist T} (f : Formula T)
    (h : alist.Apart f.bound) (env : ℕ → M.Val) (hf : M.Meaningful f (env ∘ alist.rename)) :
    M.Meaningful (substitStar Q s alist f) env := by
  induction f generalizing env with
  | true => trivial
  | false => trivial
  | atom a =>
    rw [substitStar]
    split_ifs with hempty
    · refine (M.loc.meaningful a _ _ fun u hu => ?_).2 hf
      obtain ⟨d, hd, -⟩ := hu
      rw [List.isEmpty_iff.1 hempty] at hd
      cases hd
    · exact M.meaningful_subst s a alist env h hf
  | not f ih =>
    rw [substitStar]
    split_ifs
    · exact ih h env hf
    · exact meaningful_makeNegation.2 (ih h env hf)
  | and f g ihf ihg =>
    have hand : M.Meaningful (.and (substitStar Q s alist f) (substitStar Q s alist g)) env := by
      refine ⟨ihf (h.mono Set.subset_union_left) env hf.1, fun hholds => ?_⟩
      rw [holds_substitStar s f (h.mono Set.subset_union_left)] at hholds
      exact ihg (h.mono Set.subset_union_right) env (hf.2 hholds)
    rw [substitStar]
    split_ifs
    · exact hand
    · exact meaningful_substConjunction hand
  | or f g ihf ihg =>
    have hor : M.Meaningful (.or (substitStar Q s alist f) (substitStar Q s alist g)) env := by
      refine ⟨ihf (h.mono Set.subset_union_left) env hf.1, fun hholds => ?_⟩
      rw [holds_substitStar s f (h.mono Set.subset_union_left)] at hholds
      exact ihg (h.mono Set.subset_union_right) env (hf.2 hholds)
    rw [substitStar]
    split_ifs
    · exact hor
    · exact meaningful_substDisjunction hor
  | implies f g ihf ihg =>
    have himp : M.Meaningful (.implies (substitStar Q s alist f) (substitStar Q s alist g)) env := by
      refine ⟨ihf (h.mono Set.subset_union_left) env hf.1, fun hholds => ?_⟩
      rw [holds_substitStar s f (h.mono Set.subset_union_left)] at hholds
      exact ihg (h.mono Set.subset_union_right) env (hf.2 hholds)
    rw [substitStar]
    split_ifs
    · exact himp
    · exact meaningful_substImplication himp
  | forAll bs f ih =>
    rw [substitStar]
    split_ifs with hpossible
    · have hbody : alist.Apart f.bound := h.mono fun u hu => mem_boundList.2 (.inr hu)
      rw [Interpretation.Meaningful, forAll_makeNewBindings h [] f.freevars,
        Interpretation.forAll_iff] at hf
      rw [Interpretation.Meaningful, Interpretation.forAll_iff]
      exact fun env' henv' => ih hbody env' (hf env' henv')
    · refine (meaningful_congr M.loc _ _ _ fun u hu => ?_).2 hf
      rw [Function.comp_apply, rename_of_not_possible h hpossible hu]

/-! ### All of the substitution -/

/-- The keys are different, and those that are needed are not bound, nor are their values. -/
structure Alist.Fits (alist : Alist T) (frees bound : Set ℕ) : Prop where
  keys : (alist.map fun entry => entry.1.uid).Nodup
  apart : ∀ entry ∈ alist, entry.1.uid ∈ frees → entry.1.uid ∉ bound ∧ entry.2.uid ∉ bound

theorem Alist.Fits.mem_unique {alist : Alist T} {F B : Set ℕ} (h : alist.Fits F B)
    {e e' : Binding T × Binding T} (he : e ∈ alist) (he' : e' ∈ alist)
    (heq : e.1.uid = e'.1.uid) : e = e' :=
  List.inj_on_of_nodup_map h.keys he he' heq

/-- The entries that are left out change nothing. -/
theorem rename_neededSubsts {alist : Alist T} {F B : Set ℕ} (h : alist.Fits F B)
    {freevars : List (Binding T)}
    (hfree : ∀ u ∈ F, u ∉ B → ∃ d ∈ freevars, d.uid = u) {u : ℕ} (hu : u ∈ F) :
    (neededSubsts freevars alist).rename u = alist.rename u := by
  have hsub : ∀ entry ∈ neededSubsts freevars alist, entry ∈ alist :=
    fun entry hentry => (List.mem_filter.1 hentry).1
  rcases (neededSubsts freevars alist).rename_cases u with ⟨heq, hnone⟩ | ⟨entry, hentry, hkey, heq⟩
  · rw [heq]
    rcases alist.rename_cases u with ⟨heq', -⟩ | ⟨entry', hentry', hkey', heq'⟩
    · exact heq'.symm
    · -- the entry was left out since it changes nothing
      by_contra hne
      refine hnone entry' (List.mem_filter.2 ⟨hentry', ?_⟩) hkey'
      have hdecl : sameDeclaration entry'.1 entry'.2 = false := by
        rw [sameDeclaration, decide_eq_false_iff_not]
        intro hsame
        exact hne (by rw [heq', ← hsame, hkey'])
      have hmem : memDecl entry'.1 freevars = true := by
        rw [memDecl_iff, hkey']
        exact hfree u hu (hkey' ▸ (h.apart entry' hentry' (hkey' ▸ hu)).1)
      rw [hdecl, hmem]
      rfl
  · rcases alist.rename_cases u with ⟨-, hnone⟩ | ⟨entry', hentry', hkey', heq'⟩
    · exact absurd hkey (hnone entry (hsub entry hentry))
    · rw [heq, heq', h.mem_unique (hsub entry hentry) hentry' (hkey.trans hkey'.symm)]

theorem neededSubsts_apart {alist : Alist T} {F B : Set ℕ} (h : alist.Fits F B)
    {freevars : List (Binding T)} (hsub : ∀ d ∈ freevars, d.uid ∈ F) :
    (neededSubsts freevars alist).Apart B := by
  intro entry hentry
  obtain ⟨hmem, hkeep⟩ := List.mem_filter.1 hentry
  refine h.apart entry hmem ?_
  rw [Bool.not_eq_true', Bool.or_eq_false_iff, Bool.not_eq_false', memDecl_iff] at hkeep
  obtain ⟨d, hd, heq⟩ := hkeep.2
  exact heq ▸ hsub d hd

theorem holds_substit (s : Bool) {f : Formula T} {alist : Alist T}
    (h : alist.Fits f.frees f.bound) (env : ℕ → M.Val) :
    M.Holds (substit Q s f alist) env ↔ M.Holds f (env ∘ alist.rename) := by
  have hrename : ∀ u ∈ f.frees, (neededSubsts f.freevars alist).rename u = alist.rename u :=
    fun u hu => rename_neededSubsts h (fun u hu hb => (f.mem_freevars hb).2 hu) hu
  have hcongr : M.Holds f (env ∘ (neededSubsts f.freevars alist).rename) ↔
      M.Holds f (env ∘ alist.rename) := holds_congr M.loc _ _ _ fun u hu => by
    rw [Function.comp_apply, Function.comp_apply, hrename u hu]
  rw [substit, ← hcongr]
  split_ifs with hempty
  · rw [List.isEmpty_iff.1 hempty]
    rfl
  · exact holds_substitStar s f (neededSubsts_apart h f.freevars_subset) env

theorem meaningful_substit (s : Bool) {f : Formula T} {alist : Alist T}
    (h : alist.Fits f.frees f.bound) (env : ℕ → M.Val)
    (hf : M.Meaningful f (env ∘ alist.rename)) : M.Meaningful (substit Q s f alist) env := by
  have hrename : ∀ u ∈ f.frees, (neededSubsts f.freevars alist).rename u = alist.rename u :=
    fun u hu => rename_neededSubsts h (fun u hu hb => (f.mem_freevars hb).2 hu) hu
  have hf' : M.Meaningful f (env ∘ (neededSubsts f.freevars alist).rename) :=
    (meaningful_congr M.loc _ _ _ fun u hu => by
      rw [Function.comp_apply, Function.comp_apply, hrename u hu]).2 hf
  rw [substit]
  split_ifs with hempty
  · rw [List.isEmpty_iff.1 hempty] at hf'
    exact hf'
  · exact meaningful_substitStar s f (neededSubsts_apart h f.freevars_subset) env hf'

theorem ty_substitType {t : T.Ty} {alist : Alist T} (h : alist.Fits (T.tyFrees t) (T.tyBound t))
    (env : ℕ → M.Val) : M.ty (substitType Q t alist) env = M.ty t (env ∘ alist.rename) := by
  have hrename : ∀ u ∈ T.tyFrees t, (neededSubsts (T.tyFreevars t) alist).rename u = alist.rename u :=
    fun u hu => rename_neededSubsts h (fun u hu _ => hu) hu
  have hcongr : M.ty t (env ∘ (neededSubsts (T.tyFreevars t) alist).rename) =
      M.ty t (env ∘ alist.rename) := M.loc.ty t _ _ fun u hu => by
    rw [Function.comp_apply, Function.comp_apply, hrename u hu]
  rw [substitType, ← hcongr]
  split_ifs with hempty
  · rw [List.isEmpty_iff.1 hempty]
    rfl
  · exact ty_substTypeStar (neededSubsts_apart h fun d hd => ⟨d, hd, rfl⟩) env

end Meaning

/-! ### What is in the result -/

namespace PartWise

variable {Q : Checker T} {P : Formula T → Prop}

theorem substConjunction (hP : PartWise P) {f g : Formula T} (hf : P f) (hg : P g) :
    P (substConjunction Q f g) := by
  rw [TccGen.substConjunction]
  split_ifs
  · exact hg
  · exact hf
  · exact hP.false
  · exact (hP.and f g).2 ⟨hf, hg⟩

theorem substDisjunction (hP : PartWise P) {f g : Formula T} (hf : P f) (hg : P g) :
    P (substDisjunction Q f g) := by
  rw [TccGen.substDisjunction]
  split_ifs
  · exact hg
  · exact hf
  · exact hP.true
  · exact (hP.or f g).2 ⟨hf, hg⟩

theorem negateBang (hP : PartWise P) {f : Formula T} (hf : P f) : P (negateBang Q f) := by
  cases f with
  | not f => exact (hP.not f).1 hf
  | _ =>
    rw [TccGen.negateBang]
    · exact hP.makeNegation hf
    · simp

theorem substImplication (hP : PartWise P) {f g : Formula T} (hf : P f) (hg : P g) :
    P (substImplication Q f g) := by
  rw [TccGen.substImplication]
  split_ifs
  · exact hg
  · exact hP.true
  · exact hP.negateBang hf
  · exact (hP.implies f g).2 ⟨hf, hg⟩

end PartWise

section Contents

variable {Q : Checker T}

theorem tyFrees_substTypeStar {t : T.Ty} {alist : Alist T} {u : ℕ}
    (hu : u ∈ T.tyFrees (substTypeStar Q t alist)) : ∃ w ∈ T.tyFrees t, u = alist.rename w := by
  rw [substTypeStar] at hu
  split_ifs at hu with hany
  · exact Q.substType_frees t alist u hu
  · exact ⟨u, hu, (tyFreevars_any_assq hany hu).symm⟩

theorem tyBound_substTypeStar {t : T.Ty} {alist : Alist T} :
    T.tyBound (substTypeStar Q t alist) ⊆ T.tyBound t := by
  rw [substTypeStar]
  split_ifs
  · exact Q.substType_bound t alist
  · exact subset_rfl

theorem freesList_makeNewBindings {alist : Alist T} {expr : Formula T} {bs : List (Binding T)}
    {S S' B : Set ℕ} (h : alist.Apart (boundList bs B)) (hS : ∀ u ∈ S', ∃ w ∈ S, u = alist.rename w)
    (seen : Alist T) (frees : List (Binding T)) :
    ∀ u ∈ freesList (makeNewBindings Q alist expr bs seen frees) S',
      ∃ w ∈ freesList bs S, u = alist.rename w := by
  induction bs generalizing seen frees with
  | nil => exact hS
  | cons b bs ih =>
    rintro u (hu | ⟨hu, hne⟩)
    · obtain ⟨w, hw, rfl⟩ := tyFrees_substTypeStar hu
      exact ⟨w, .inl hw, rfl⟩
    · obtain ⟨w, hw, rfl⟩ := ih (h.mono fun _ hu => .inr (.inr hu)) _ _ u hu
      refine ⟨w, .inr ⟨hw, ?_⟩, rfl⟩
      rintro rfl
      exact hne (Alist.rename_of_forall_ne fun entry hentry heq => (h entry hentry).1 (.inl heq))

theorem boundList_makeNewBindings {alist : Alist T} {expr : Formula T} {bs : List (Binding T)}
    {S S' : Set ℕ} (hS : S' ⊆ S) (seen : Alist T) (frees : List (Binding T)) :
    boundList (makeNewBindings Q alist expr bs seen frees) S' ⊆ boundList bs S := by
  induction bs generalizing seen frees with
  | nil => exact hS
  | cons b bs ih =>
    rintro u (hu | hu | hu)
    · exact .inl hu
    · exact .inr (.inl (tyBound_substTypeStar hu))
    · exact .inr (.inr (ih _ _ hu))

theorem frees_substitStar (s : Bool) {alist : Alist T} (f : Formula T) (h : alist.Apart f.bound) :
    (substitStar Q s alist f).frees ⊆ { u | ∃ w ∈ f.frees, u = alist.rename w } := by
  induction f with
  | true => exact Set.empty_subset _
  | false => exact Set.empty_subset _
  | atom a =>
    rw [substitStar]
    split_ifs with hempty
    · rintro u ⟨d, hd, -⟩
      rw [List.isEmpty_iff.1 hempty] at hd
      cases hd
    · exact Q.substAtom_frees s a alist
  | not f ih =>
    rw [substitStar]
    split_ifs
    · exact ih h
    · exact (partWise_frees _).makeNegation (ih h)
  | and f g ihf ihg =>
    have hf : (substitStar Q s alist f).frees ⊆ { u | ∃ w ∈ f.frees ∪ g.frees, u = alist.rename w } :=
      fun u hu => (ihf (h.mono Set.subset_union_left) hu).imp fun w hw => ⟨.inl hw.1, hw.2⟩
    have hg : (substitStar Q s alist g).frees ⊆ { u | ∃ w ∈ f.frees ∪ g.frees, u = alist.rename w } :=
      fun u hu => (ihg (h.mono Set.subset_union_right) hu).imp fun w hw => ⟨.inr hw.1, hw.2⟩
    rw [substitStar]
    split_ifs
    · exact Set.union_subset hf hg
    · exact (partWise_frees _).substConjunction hf hg
  | or f g ihf ihg =>
    have hf : (substitStar Q s alist f).frees ⊆ { u | ∃ w ∈ f.frees ∪ g.frees, u = alist.rename w } :=
      fun u hu => (ihf (h.mono Set.subset_union_left) hu).imp fun w hw => ⟨.inl hw.1, hw.2⟩
    have hg : (substitStar Q s alist g).frees ⊆ { u | ∃ w ∈ f.frees ∪ g.frees, u = alist.rename w } :=
      fun u hu => (ihg (h.mono Set.subset_union_right) hu).imp fun w hw => ⟨.inr hw.1, hw.2⟩
    rw [substitStar]
    split_ifs
    · exact Set.union_subset hf hg
    · exact (partWise_frees _).substDisjunction hf hg
  | implies f g ihf ihg =>
    have hf : (substitStar Q s alist f).frees ⊆ { u | ∃ w ∈ f.frees ∪ g.frees, u = alist.rename w } :=
      fun u hu => (ihf (h.mono Set.subset_union_left) hu).imp fun w hw => ⟨.inl hw.1, hw.2⟩
    have hg : (substitStar Q s alist g).frees ⊆ { u | ∃ w ∈ f.frees ∪ g.frees, u = alist.rename w } :=
      fun u hu => (ihg (h.mono Set.subset_union_right) hu).imp fun w hw => ⟨.inr hw.1, hw.2⟩
    rw [substitStar]
    split_ifs
    · exact Set.union_subset hf hg
    · exact (partWise_frees _).substImplication hf hg
  | forAll bs f ih =>
    rw [substitStar]
    split_ifs with hpossible
    · exact freesList_makeNewBindings h
        (ih (h.mono fun u hu => mem_boundList.2 (.inr hu))) [] f.freevars
    · exact fun u hu => ⟨u, hu, (rename_of_not_possible h hpossible hu).symm⟩

theorem bound_substitStar (s : Bool) {alist : Alist T} (f : Formula T) :
    (substitStar Q s alist f).bound ⊆ f.bound := by
  induction f with
  | true => exact Set.empty_subset _
  | false => exact Set.empty_subset _
  | atom a =>
    rw [substitStar]
    split_ifs
    · exact subset_rfl
    · exact Q.substAtom_bound s a alist
  | not f ih =>
    rw [substitStar]
    split_ifs
    · exact ih
    · exact (partWise_bound _).makeNegation ih
  | and f g ihf ihg =>
    rw [substitStar]
    split_ifs
    · exact Set.union_subset_union ihf ihg
    · exact (partWise_bound _).substConjunction (fun u hu => .inl (ihf hu)) fun u hu => .inr (ihg hu)
  | or f g ihf ihg =>
    rw [substitStar]
    split_ifs
    · exact Set.union_subset_union ihf ihg
    · exact (partWise_bound _).substDisjunction (fun u hu => .inl (ihf hu)) fun u hu => .inr (ihg hu)
  | implies f g ihf ihg =>
    rw [substitStar]
    split_ifs
    · exact Set.union_subset_union ihf ihg
    · exact (partWise_bound _).substImplication (fun u hu => .inl (ihf hu)) fun u hu => .inr (ihg hu)
  | forAll bs f ih =>
    rw [substitStar]
    split_ifs
    · exact boundList_makeNewBindings ih [] f.freevars
    · exact subset_rfl

theorem frees_substit (s : Bool) {f : Formula T} {alist : Alist T}
    (h : alist.Fits f.frees f.bound) :
    ∀ u ∈ (substit Q s f alist).frees, ∃ w ∈ f.frees, u = alist.rename w := by
  have hrename : ∀ u ∈ f.frees, (neededSubsts f.freevars alist).rename u = alist.rename u :=
    fun u hu => rename_neededSubsts h (fun u hu hb => (f.mem_freevars hb).2 hu) hu
  rw [substit]
  split_ifs with hempty
  · intro u hu
    refine ⟨u, hu, ?_⟩
    rw [← hrename u hu, List.isEmpty_iff.1 hempty]
    rfl
  · intro u hu
    obtain ⟨w, hw, rfl⟩ := frees_substitStar s f (neededSubsts_apart h f.freevars_subset) hu
    exact ⟨w, hw, hrename w hw⟩

theorem bound_substit (s : Bool) {f : Formula T} {alist : Alist T} :
    (substit Q s f alist).bound ⊆ f.bound := by
  rw [substit]
  split_ifs
  · exact subset_rfl
  · exact bound_substitStar s f

theorem tyFrees_substitType {t : T.Ty} {alist : Alist T}
    (h : alist.Fits (T.tyFrees t) (T.tyBound t)) :
    ∀ u ∈ T.tyFrees (substitType Q t alist), ∃ w ∈ T.tyFrees t, u = alist.rename w := by
  have hrename : ∀ u ∈ T.tyFrees t, (neededSubsts (T.tyFreevars t) alist).rename u = alist.rename u :=
    fun u hu => rename_neededSubsts h (fun u hu _ => hu) hu
  rw [substitType]
  split_ifs with hempty
  · intro u hu
    refine ⟨u, hu, ?_⟩
    rw [← hrename u hu, List.isEmpty_iff.1 hempty]
    rfl
  · intro u hu
    obtain ⟨w, hw, rfl⟩ := tyFrees_substTypeStar hu
    exact ⟨w, hw, hrename w hw⟩

theorem tyBound_substitType {t : T.Ty} {alist : Alist T} :
    T.tyBound (substitType Q t alist) ⊆ T.tyBound t := by
  rw [substitType]
  split_ifs
  · exact subset_rfl
  · exact tyBound_substTypeStar

theorem known_substTypeStar {globals : List (Binding T)} {alist : Alist T} (h : alist.Spares globals)
    {t : T.Ty} (ht : Known globals (T.tyFreevars t)) :
    Known globals (T.tyFreevars (substTypeStar Q t alist)) := by
  rw [substTypeStar]
  split_ifs
  · exact Q.substType_known globals t alist h ht
  · exact ht

theorem known_makeNewBindings {globals : List (Binding T)} {alist : Alist T}
    (h : alist.Spares globals) {expr : Formula T} {bs : List (Binding T)}
    (hbs : ∀ b ∈ bs, Known globals (T.tyFreevars b.type)) (seen : Alist T)
    (frees : List (Binding T)) :
    ∀ b ∈ makeNewBindings Q alist expr bs seen frees, Known globals (T.tyFreevars b.type) := by
  induction bs generalizing seen frees with
  | nil => exact hbs
  | cons b bs ih =>
    rw [List.forall_mem_cons] at hbs
    rw [makeNewBindings, List.forall_mem_cons]
    exact ⟨known_substTypeStar h hbs.1, ih hbs.2 _ _⟩

theorem known_substitStar (s : Bool) {globals : List (Binding T)} {alist : Alist T}
    (h : alist.Spares globals) (f : Formula T) (hf : f.Known globals) :
    (substitStar Q s alist f).Known globals := by
  induction f with
  | true => trivial
  | false => trivial
  | atom a =>
    rw [substitStar]
    split_ifs
    · exact hf
    · exact Q.substAtom_known globals s a alist h hf
  | not f ih =>
    rw [substitStar]
    split_ifs
    · exact ih hf
    · exact (partWise_known globals).makeNegation (ih hf)
  | and f g ihf ihg =>
    rw [substitStar]
    split_ifs
    · exact ⟨ihf hf.1, ihg hf.2⟩
    · exact (partWise_known globals).substConjunction (ihf hf.1) (ihg hf.2)
  | or f g ihf ihg =>
    rw [substitStar]
    split_ifs
    · exact ⟨ihf hf.1, ihg hf.2⟩
    · exact (partWise_known globals).substDisjunction (ihf hf.1) (ihg hf.2)
  | implies f g ihf ihg =>
    rw [substitStar]
    split_ifs
    · exact ⟨ihf hf.1, ihg hf.2⟩
    · exact (partWise_known globals).substImplication (ihf hf.1) (ihg hf.2)
  | forAll bs f ih =>
    rw [substitStar]
    split_ifs
    · exact ⟨known_makeNewBindings h hf.1 [] f.freevars, ih hf.2⟩
    · exact hf

theorem Alist.Spares.needed {globals : List (Binding T)} {alist : Alist T} (h : alist.Spares globals)
    (freevars : List (Binding T)) : (neededSubsts freevars alist).Spares globals :=
  fun entry hentry => h entry (List.mem_filter.1 hentry).1

theorem known_substit (s : Bool) {globals : List (Binding T)} {alist : Alist T}
    (h : alist.Spares globals) {f : Formula T} (hf : f.Known globals) :
    (substit Q s f alist).Known globals := by
  rw [substit]
  split_ifs
  · exact hf
  · exact known_substitStar s (h.needed _) f hf

theorem known_substitType {globals : List (Binding T)} {alist : Alist T} (h : alist.Spares globals)
    {t : T.Ty} (ht : Known globals (T.tyFreevars t)) :
    Known globals (T.tyFreevars (substitType Q t alist)) := by
  rw [substitType]
  split_ifs
  · exact ht
  · exact known_substTypeStar (h.needed _) ht

end Contents

end PVS.TccGen
