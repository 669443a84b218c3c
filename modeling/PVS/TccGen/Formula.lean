import Mathlib.Data.Set.Insert
import Mathlib.Logic.Function.Basic

/-! Formulas with declared bindings, and what they mean. -/

namespace PVS.TccGen

inductive DeclKind
  | bindDecl
  | untypedBindDecl
  | varDecl
  deriving DecidableEq

/-- A declaration of a variable. The number stands for the object. -/
structure Decl (Ty : Type) where
  uid : ℕ
  id : String
  type : Ty
  kind : DeclKind

/-- Types, and the formulas below the propositional level. Free variables come with those of their
types; `bound` are the variables that are bound inside. -/
structure Terms where
  Ty : Type
  Atom : Type
  equation : Atom → Bool
  tyFreevars : Ty → List (Decl Ty)
  atomFreevars : Atom → List (Decl Ty)
  tyBound : Ty → Set ℕ
  atomBound : Atom → Set ℕ
  tyIds : Ty → List String
  atomNames : Atom → List (Decl Ty)
  atomIds : Atom → List String
  tyFreevars_nodup : ∀ t, ((tyFreevars t).map Decl.uid).Nodup
  atomFreevars_nodup : ∀ a, ((atomFreevars a).map Decl.uid).Nodup

abbrev Binding (T : Terms) := Decl T.Ty

inductive Formula (T : Terms)
  | true
  | false
  | atom (a : T.Atom)
  | not (f : Formula T)
  | and (f g : Formula T)
  | or (f g : Formula T)
  | implies (f g : Formula T)
  | forAll (bindings : List (Binding T)) (body : Formula T)

variable {T : Terms}

/-! ### Free variables -/

def sameDeclaration (d e : Binding T) : Bool := d.uid = e.uid

def memDecl (d : Binding T) (ds : List (Binding T)) : Bool := ds.any (sameDeclaration d)

/-- `fv-union` -/
def fvUnion (ds es : List (Binding T)) : List (Binding T) :=
  ds ++ es.filter fun e => !memDecl e ds

/-- The free variables of a list of bindings. -/
def freevarsList : List (Binding T) → List (Binding T)
  | [] => []
  | b :: bs => (fvUnion (T.tyFreevars b.type) (freevarsList bs)).filter fun d => !sameDeclaration d b

namespace Formula

def freevars : Formula T → List (Binding T)
  | true => []
  | false => []
  | atom a => T.atomFreevars a
  | not f => freevars f
  | and f g => fvUnion (freevars f) (freevars g)
  | or f g => fvUnion (freevars f) (freevars g)
  | implies f g => fvUnion (freevars f) (freevars g)
  | forAll bs f => fvUnion (freevarsList bs) ((freevars f).filter fun d => !memDecl d bs)

end Formula

/-- The variables on which a type depends. -/
def Terms.tyFrees (T : Terms) (t : T.Ty) : Set ℕ := { u | ∃ d ∈ T.tyFreevars t, d.uid = u }

def Terms.atomFrees (T : Terms) (a : T.Atom) : Set ℕ := { u | ∃ d ∈ T.atomFreevars a, d.uid = u }

/-- The variables on which something below the bindings depends. -/
def freesList : List (Binding T) → Set ℕ → Set ℕ
  | [], S => S
  | b :: bs, S => T.tyFrees b.type ∪ (freesList bs S \ {b.uid})

def boundList : List (Binding T) → Set ℕ → Set ℕ
  | [], S => S
  | b :: bs, S => {b.uid} ∪ (T.tyBound b.type ∪ boundList bs S)

namespace Formula

def frees : Formula T → Set ℕ
  | true => ∅
  | false => ∅
  | atom a => T.atomFrees a
  | not f => frees f
  | and f g => frees f ∪ frees g
  | or f g => frees f ∪ frees g
  | implies f g => frees f ∪ frees g
  | forAll bs f => freesList bs (frees f)

def bound : Formula T → Set ℕ
  | true => ∅
  | false => ∅
  | atom a => T.atomBound a
  | not f => bound f
  | and f g => bound f ∪ bound g
  | or f g => bound f ∪ bound g
  | implies f g => bound f ∪ bound g
  | forAll bs f => boundList bs (bound f)

end Formula

/-- Where a declaration of the list is mentioned, those that its type mentions are so too. -/
def Known (globals freevars : List (Binding T)) : Prop :=
  ∀ d ∈ freevars, ∀ g ∈ globals, d.uid = g.uid →
    d = g ∧ ∀ u ∈ T.tyFrees g.type, ∃ e ∈ freevars, e.uid = u

def Formula.Known (globals : List (Binding T)) : Formula T → Prop
  | true => True
  | false => True
  | atom a => TccGen.Known globals (T.atomFreevars a)
  | not f => Known globals f
  | and f g => Known globals f ∧ Known globals g
  | or f g => Known globals f ∧ Known globals g
  | implies f g => Known globals f ∧ Known globals g
  | forAll bs f => (∀ b ∈ bs, TccGen.Known globals (T.tyFreevars b.type)) ∧ Known globals f

theorem mem_uids_fvUnion {ds es : List (Binding T)} {u : ℕ} :
    (∃ d ∈ fvUnion ds es, d.uid = u) ↔ (∃ d ∈ ds, d.uid = u) ∨ ∃ e ∈ es, e.uid = u := by
  constructor
  · rintro ⟨d, hd, rfl⟩
    rcases List.mem_append.1 hd with hd | hd
    · exact .inl ⟨d, hd, rfl⟩
    · exact .inr ⟨d, (List.mem_filter.1 hd).1, rfl⟩
  · rintro (⟨d, hd, rfl⟩ | ⟨e, he, rfl⟩)
    · exact ⟨d, List.mem_append_left _ hd, rfl⟩
    · by_cases hmem : memDecl e ds = Bool.true
      · obtain ⟨d, hd, heq⟩ := List.any_eq_true.1 hmem
        exact ⟨d, List.mem_append_left _ hd, (of_decide_eq_true heq).symm⟩
      · exact ⟨e, List.mem_append_right _ (List.mem_filter.2 ⟨he, by simpa using hmem⟩), rfl⟩

theorem memDecl_iff {d : Binding T} {ds : List (Binding T)} :
    memDecl d ds = true ↔ ∃ e ∈ ds, e.uid = d.uid := by
  simp only [memDecl, List.any_eq_true, sameDeclaration, decide_eq_true_eq]
  exact exists_congr fun e => and_congr_right fun _ => eq_comm

/-! ### Models -/

structure Interpretation (T : Terms) where
  Val : Type
  ty : T.Ty → (ℕ → Val) → Set Val
  holds : T.Atom → (ℕ → Val) → Prop
  /-- Whether the atom is well typed where the variables have these values. -/
  meaningful : T.Atom → (ℕ → Val) → Prop

namespace Interpretation

variable (M : Interpretation T)

/-- For all values of the bindings. -/
def ForAll : List (Binding T) → ((ℕ → M.Val) → Prop) → (ℕ → M.Val) → Prop
  | [], P, env => P env
  | b :: bs, P, env => ∀ v ∈ M.ty b.type env, ForAll bs P (Function.update env b.uid v)

/-- The second assignment gives values to the bindings. -/
def Assigns : List (Binding T) → (ℕ → M.Val) → (ℕ → M.Val) → Prop
  | [], env, env' => env' = env
  | b :: bs, env, env' => ∃ v ∈ M.ty b.type env, Assigns bs (Function.update env b.uid v) env'

theorem forAll_iff {bs : List (Binding T)} {P : (ℕ → M.Val) → Prop} {env : ℕ → M.Val} :
    ForAll M bs P env ↔ ∀ env', M.Assigns bs env env' → P env' := by
  induction bs generalizing env with
  | nil => simp [ForAll, Assigns]
  | cons b bs ih =>
    simp only [ForAll, Assigns, ih]
    grind

def Holds : Formula T → (ℕ → M.Val) → Prop
  | .true, _ => True
  | .false, _ => False
  | .atom a, env => M.holds a env
  | .not f, env => ¬ Holds f env
  | .and f g, env => Holds f env ∧ Holds g env
  | .or f g, env => Holds f env ∨ Holds g env
  | .implies f g, env => Holds f env → Holds g env
  | .forAll bs f, env => ForAll M bs (Holds f) env

/-- Whether the formula is well typed, where each part may rely on those to its left. -/
def Meaningful : Formula T → (ℕ → M.Val) → Prop
  | .true, _ => True
  | .false, _ => True
  | .atom a, env => M.meaningful a env
  | .not f, env => Meaningful f env
  | .and f g, env => Meaningful f env ∧ (Holds M f env → Meaningful g env)
  | .or f g, env => Meaningful f env ∧ (¬ Holds M f env → Meaningful g env)
  | .implies f g, env => Meaningful f env ∧ (Holds M f env → Meaningful g env)
  | .forAll bs f, env => ForAll M bs (Meaningful f) env

end Interpretation

/-! ### What a formula depends on -/

section Congruence

variable {M : Interpretation T}

/-- Types and atoms depend on their free variables only. -/
structure Interpretation.Local (M : Interpretation T) : Prop where
  ty : ∀ t env env', (∀ u ∈ T.tyFrees t, env u = env' u) → M.ty t env = M.ty t env'
  holds : ∀ a env env', (∀ u ∈ T.atomFrees a, env u = env' u) → (M.holds a env ↔ M.holds a env')
  meaningful : ∀ a env env', (∀ u ∈ T.atomFrees a, env u = env' u) →
    (M.meaningful a env ↔ M.meaningful a env')

theorem forAll_congr (hM : M.Local) {P : (ℕ → M.Val) → Prop} {S : Set ℕ}
    (hP : ∀ env env', (∀ u ∈ S, env u = env' u) → (P env ↔ P env')) (bs : List (Binding T))
    (env env' : ℕ → M.Val) (h : ∀ u ∈ freesList bs S, env u = env' u) :
    M.ForAll bs P env ↔ M.ForAll bs P env' := by
  induction bs generalizing env env' with
  | nil => exact hP env env' h
  | cons b bs ih =>
    rw [Interpretation.ForAll, Interpretation.ForAll,
      hM.ty b.type env env' fun u hu => h u (.inl hu)]
    refine forall₂_congr fun v _ => ih _ _ fun u hu => ?_
    by_cases hb : u = b.uid
    · rw [hb, Function.update_self, Function.update_self]
    · rw [Function.update_of_ne hb, Function.update_of_ne hb]
      exact h u (.inr ⟨hu, hb⟩)

theorem holds_congr (hM : M.Local) (f : Formula T) (env env' : ℕ → M.Val)
    (h : ∀ u ∈ f.frees, env u = env' u) : M.Holds f env ↔ M.Holds f env' := by
  induction f generalizing env env' with
  | true => rfl
  | false => rfl
  | atom a => exact hM.holds a env env' h
  | not f ih => exact not_congr (ih env env' h)
  | and f g ihf ihg =>
    exact and_congr (ihf env env' fun u hu => h u (.inl hu)) (ihg env env' fun u hu => h u (.inr hu))
  | or f g ihf ihg =>
    exact or_congr (ihf env env' fun u hu => h u (.inl hu)) (ihg env env' fun u hu => h u (.inr hu))
  | implies f g ihf ihg =>
    exact imp_congr (ihf env env' fun u hu => h u (.inl hu)) (ihg env env' fun u hu => h u (.inr hu))
  | forAll bs f ih => exact forAll_congr hM ih bs env env' h

theorem meaningful_congr (hM : M.Local) (f : Formula T) (env env' : ℕ → M.Val)
    (h : ∀ u ∈ f.frees, env u = env' u) : M.Meaningful f env ↔ M.Meaningful f env' := by
  induction f generalizing env env' with
  | true => rfl
  | false => rfl
  | atom a => exact hM.meaningful a env env' h
  | not f ih => exact ih env env' h
  | and f g ihf ihg =>
    have hf := holds_congr hM f env env' fun u hu => h u (.inl hu)
    exact and_congr (ihf env env' fun u hu => h u (.inl hu))
      (imp_congr hf (ihg env env' fun u hu => h u (.inr hu)))
  | or f g ihf ihg =>
    have hf := holds_congr hM f env env' fun u hu => h u (.inl hu)
    exact and_congr (ihf env env' fun u hu => h u (.inl hu))
      (imp_congr (not_congr hf) (ihg env env' fun u hu => h u (.inr hu)))
  | implies f g ihf ihg =>
    have hf := holds_congr hM f env env' fun u hu => h u (.inl hu)
    exact and_congr (ihf env env' fun u hu => h u (.inl hu))
      (imp_congr hf (ihg env env' fun u hu => h u (.inr hu)))
  | forAll bs f ih => exact forAll_congr hM ih bs env env' h

/-- The free variables of a formula are those on which it depends, but for variables that are bound
in it. -/
theorem mem_freevarsList {bs : List (Binding T)} {S : Set ℕ} {u : ℕ} (hu : u ∉ boundList bs S) :
    (∃ d ∈ freevarsList bs, d.uid = u) ↔ u ∈ freesList bs ∅ := by
  induction bs with
  | nil => simp [freevarsList, freesList]
  | cons b bs ih =>
    have hne : u ≠ b.uid := fun h => hu (.inl h)
    have hrest : u ∉ boundList bs S := fun h => hu (.inr (.inr h))
    have hfilter : (∃ d ∈ freevarsList (b :: bs), d.uid = u) ↔
        ∃ d ∈ fvUnion (T.tyFreevars b.type) (freevarsList bs), d.uid = u := by
      constructor
      · rintro ⟨d, hd, rfl⟩
        exact ⟨d, (List.mem_filter.1 hd).1, rfl⟩
      · rintro ⟨d, hd, rfl⟩
        exact ⟨d, List.mem_filter.2 ⟨hd, by simpa [sameDeclaration] using hne⟩, rfl⟩
    rw [hfilter, mem_uids_fvUnion, ih hrest, freesList, Set.mem_union, Set.mem_sdiff,
      Set.mem_singleton_iff]
    exact or_congr Iff.rfl (by simp [hne])

theorem mem_freesList {bs : List (Binding T)} {S : Set ℕ} {u : ℕ} :
    u ∈ freesList bs S ↔ u ∈ freesList bs ∅ ∨ (u ∈ S ∧ ∀ b ∈ bs, b.uid ≠ u) := by
  induction bs with
  | nil => simp [freesList]
  | cons b bs ih =>
    simp only [freesList, Set.mem_union, Set.mem_sdiff, Set.mem_singleton_iff, ih,
      List.forall_mem_cons]
    grind

/-- What is free below bindings is free in one of their types or in the body. -/
theorem mem_freesList_cases {bs : List (Binding T)} {S : Set ℕ} {u : ℕ} (hu : u ∈ freesList bs S) :
    (∃ b ∈ bs, u ∈ T.tyFrees b.type) ∨ u ∈ S := by
  induction bs with
  | nil => exact .inr hu
  | cons b bs ih =>
    rcases hu with hu | ⟨hu, -⟩
    · exact .inl ⟨b, List.mem_cons_self, hu⟩
    · exact (ih hu).imp_left fun ⟨b', hb', hfree⟩ => ⟨b', List.mem_cons_of_mem _ hb', hfree⟩

theorem mem_types_of_freevarsList {bs : List (Binding T)} {d : Binding T} (hd : d ∈ freevarsList bs) :
    ∃ b ∈ bs, d ∈ T.tyFreevars b.type := by
  induction bs with
  | nil => cases hd
  | cons b bs ih =>
    rcases List.mem_append.1 (List.mem_filter.1 hd).1 with hd | hd
    · exact ⟨b, List.mem_cons_self, hd⟩
    · obtain ⟨b', hb', hmem⟩ := ih (List.mem_filter.1 hd).1
      exact ⟨b', List.mem_cons_of_mem _ hb', hmem⟩

theorem mem_freesList_of_type {bs : List (Binding T)} {S : Set ℕ} {b : Binding T} {u : ℕ}
    (hb : b ∈ bs) (hu : u ∈ T.tyFrees b.type) (hne : ∀ b' ∈ bs, b'.uid ≠ u) : u ∈ freesList bs S := by
  induction bs with
  | nil => cases hb
  | cons b' bs ih =>
    rw [List.forall_mem_cons] at hne
    rcases List.mem_cons.1 hb with rfl | hb
    · exact .inl hu
    · exact .inr ⟨ih hb hne.2, hne.1.symm⟩

theorem mem_boundList {bs : List (Binding T)} {S : Set ℕ} {u : ℕ} :
    u ∈ boundList bs S ↔ (∃ b ∈ bs, b.uid = u ∨ u ∈ T.tyBound b.type) ∨ u ∈ S := by
  induction bs with
  | nil => simp [boundList]
  | cons b bs ih =>
    simp only [boundList, Set.mem_union, Set.mem_singleton_iff, ih, List.mem_cons, exists_eq_or_imp]
    grind

theorem Formula.mem_freevars {f : Formula T} {u : ℕ} (hu : u ∉ f.bound) :
    (∃ d ∈ f.freevars, d.uid = u) ↔ u ∈ f.frees := by
  induction f with
  | true => simp [freevars, frees]
  | false => simp [freevars, frees]
  | atom a => rfl
  | not f ih => exact ih hu
  | and f g ihf ihg =>
    rw [freevars, mem_uids_fvUnion, ihf fun h => hu (.inl h), ihg fun h => hu (.inr h)]
    rfl
  | or f g ihf ihg =>
    rw [freevars, mem_uids_fvUnion, ihf fun h => hu (.inl h), ihg fun h => hu (.inr h)]
    rfl
  | implies f g ihf ihg =>
    rw [freevars, mem_uids_fvUnion, ihf fun h => hu (.inl h), ihg fun h => hu (.inr h)]
    rfl
  | forAll bs f ih =>
    rw [freevars, mem_uids_fvUnion, mem_freevarsList hu, frees, mem_freesList (S := f.frees),
      ← ih fun h => hu (mem_boundList.2 (.inr h))]
    refine or_congr Iff.rfl ?_
    constructor
    · rintro ⟨d, hd, rfl⟩
      rw [List.mem_filter, Bool.not_eq_true', Bool.eq_false_iff, Ne, memDecl_iff] at hd
      exact ⟨⟨d, hd.1, rfl⟩, fun b hb heq => hd.2 ⟨b, hb, heq⟩⟩
    · rintro ⟨⟨d, hd, rfl⟩, hbs⟩
      refine ⟨d, List.mem_filter.2 ⟨hd, ?_⟩, rfl⟩
      rw [Bool.not_eq_true', Bool.eq_false_iff, Ne, memDecl_iff]
      rintro ⟨b, hb, heq⟩
      exact hbs b hb heq

theorem freevarsList_subset (bs : List (Binding T)) :
    ∀ d ∈ freevarsList bs, d.uid ∈ freesList bs ∅ := by
  induction bs with
  | nil => simp [freevarsList]
  | cons b bs ih =>
    intro d hd
    obtain ⟨hd, hne⟩ := List.mem_filter.1 hd
    rcases mem_uids_fvUnion.1 ⟨d, hd, rfl⟩ with h | ⟨e, he, heq⟩
    · exact .inl h
    · refine .inr ⟨heq ▸ ih e he, ?_⟩
      simpa [sameDeclaration] using hne

theorem Formula.freevars_subset (f : Formula T) : ∀ d ∈ f.freevars, d.uid ∈ f.frees := by
  induction f with
  | true => simp [freevars]
  | false => simp [freevars]
  | atom a => exact fun d hd => ⟨d, hd, rfl⟩
  | not f ih => exact ih
  | forAll bs f ih =>
    intro d hd
    rcases mem_uids_fvUnion.1 ⟨d, hd, rfl⟩ with ⟨e, he, heq⟩ | ⟨e, he, heq⟩
    · exact mem_freesList.2 (.inl (heq ▸ freevarsList_subset bs e he))
    · obtain ⟨he, hnot⟩ := List.mem_filter.1 he
      rw [Bool.not_eq_true', Bool.eq_false_iff, Ne, memDecl_iff] at hnot
      exact mem_freesList.2 (.inr ⟨heq ▸ ih e he, fun b hb hbu => hnot ⟨b, hb, hbu.trans heq.symm⟩⟩)
  | _ f g ihf ihg =>
    intro d hd
    rcases mem_uids_fvUnion.1 ⟨d, hd, rfl⟩ with ⟨e, he, heq⟩ | ⟨e, he, heq⟩
    · exact .inl (heq ▸ ihf e he)
    · exact .inr (heq ▸ ihg e he)

end Congruence

end PVS.TccGen
