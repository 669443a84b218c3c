import Mathlib.Data.Int.Notation
import Mathlib.Data.List.Basic

/-! The largest type contained in two stacks of predicate subtypes. -/

namespace PVS.Equalities

/-- A type name, a function, tuple, cotuple or record type, or a predicate subtype. -/
inductive TypeExpr (N C P : Type) where
  | typeName (n : N)
  | compound (c : C)
  | subtype (supertype : TypeExpr N C P) (predicate : P)
  deriving DecidableEq

variable {N C P V : Type}

namespace TypeExpr

/-- `find-supertype` -/
def findSupertype : TypeExpr N C P → TypeExpr N C P
  | subtype st _ => st.findSupertype
  | t => t

/-- The predicates of the stack, from the last one up to the top type. -/
def predicates : TypeExpr N C P → List P
  | subtype st p => p :: st.predicates
  | _ => []

end TypeExpr

/-- The values of `all?`; `nil` is the empty list. -/
inductive Mode (P : Type) where
  | t
  | preds (l : List P)

namespace Mode

def isNil : Mode P → Bool
  | t => false
  | preds l => l.isEmpty

/-- `(and (consp all?) (member pred all?))` -/
def any (f : P → Bool) : Mode P → Bool
  | t => false
  | preds l => l.any f

end Mode

open TypeExpr

/-- What is called, and what names, compound types and predicates mean in one environment. -/
structure Callees (N C P V : Type) where
  tcEqName : N → N → Bool
  tcEqCompound : C → C → Bool
  tcEqExpr : P → P → Bool
  tcEqOps : P → P → Bool
  everywhereTrue : P → Bool
  singleConstructor : N → Bool
  recognizer : P → Bool
  ignoredTypeConstraint : TypeExpr N C P → Bool
  /-- What `type-predicates*` adds for the components, under `*subtypes-seen*`. -/
  componentPredicate : C → Mode P → List (TypeExpr N C P) → Option P
  strictCompatible : TypeExpr N C P → TypeExpr N C P → Bool
  subtypeConjuncts : TypeExpr N C P → TypeExpr N C P → Bool
  samePredicate : TypeExpr N C P → TypeExpr N C P → Bool
  memberDisjunct : P → P → Bool
  subtypeOfTop : TypeExpr N C P → TypeExpr N C P → Bool
  knownSubtypeOf : TypeExpr N C P → TypeExpr N C P → Bool
  nameValues : N → V → Prop
  compoundValues : C → V → Prop
  holds : P → V → Prop
  tcEqName_sound : ∀ {n n'}, tcEqName n n' = true → ∀ v, nameValues n v ↔ nameValues n' v
  tcEqCompound_sound : ∀ {c c'}, tcEqCompound c c' = true →
    ∀ v, compoundValues c v ↔ compoundValues c' v
  tcEqExpr_sound : ∀ {p q}, tcEqExpr p q = true → ∀ v, holds p v ↔ holds q v

namespace Callees

variable (S : Callees N C P V)

/-- `single-constructor?`, of an `adt-type-name` -/
def oneConstructor : TypeExpr N C P → Bool
  | typeName n => S.singleConstructor n
  | _ => false

/-- `tc-eq*` without `*strong-tc-eq-flag*` -/
def tcEq : TypeExpr N C P → TypeExpr N C P → Bool
  | subtype st1 p1, subtype st2 p2 =>
    if S.everywhereTrue p1 then
      if S.everywhereTrue p2 then tcEq st1 st2 else tcEq st1 (subtype st2 p2)
    else if S.everywhereTrue p2 then tcEq (subtype st1 p1) st2
    else tcEq st1 st2 && S.tcEqOps p1 p2
  | subtype st1 p1, typeName n =>
    (S.everywhereTrue p1 || S.oneConstructor st1 && S.recognizer p1) && tcEq st1 (typeName n)
  | typeName n, subtype st2 p2 =>
    (S.everywhereTrue p2 || S.oneConstructor st2 && S.recognizer p2) && tcEq (typeName n) st2
  | typeName n, typeName n' => S.tcEqName n n'
  | compound c, compound c' => S.tcEqCompound c c'
  | _, _ => false
termination_by t1 t2 => sizeOf t1 + sizeOf t2

/-- `simple-subtype-of?` -/
def simpleSubtypeOf : TypeExpr N C P → TypeExpr N C P → Bool
  | subtype st p, t2 => S.tcEq (subtype st p) t2 || simpleSubtypeOf st t2
  | t1, t2 => S.tcEq t1 t2

/-- `subtype-of*?` -/
def subtypeOfStar : TypeExpr N C P → TypeExpr N C P → Bool
  | subtype st1 p1, subtype st2 p2 =>
    let t1 := subtype st1 p1
    let t2 := subtype st2 p2
    if S.everywhereTrue p2 then subtypeOfStar t1 st2
    else S.tcEq t1 t2 || S.simpleSubtypeOf t1 t2 ||
      (if S.subtypeConjuncts t1 t2 then true
        else if S.samePredicate t1 t2 then subtypeOfStar st1 st2
        else if S.memberDisjunct p1 p2 then true
        else subtypeOfStar st1 t2) ||
      S.knownSubtypeOf t1 t2
  | t1, subtype st2 p2 =>
    let t2 := subtype st2 p2
    if S.everywhereTrue p2 then subtypeOfStar t1 st2
    else S.tcEq t1 t2 || S.simpleSubtypeOf t1 t2 ||
      (S.oneConstructor t1 && S.tcEq t1 st2 && S.recognizer p2) ||
      S.knownSubtypeOf t1 t2
  | subtype st1 p1, t2 =>
    let t1 := subtype st1 p1
    S.tcEq t1 t2 || S.simpleSubtypeOf t1 t2 || subtypeOfStar st1 t2 || S.knownSubtypeOf t1 t2
  | t1, t2 =>
    S.tcEq t1 t2 || S.simpleSubtypeOf t1 t2 || S.subtypeOfTop t1 t2 || S.knownSubtypeOf t1 t2
termination_by t1 t2 => sizeOf t1 + sizeOf t2

/-- `subtype-of?` -/
def subtypeOf (t1 t2 : TypeExpr N C P) : Bool :=
  S.strictCompatible t1.findSupertype t2.findSupertype && S.subtypeOfStar t1 t2

/-- `type-predicates*` -/
def typePredicatesStar (all : Mode P) :
    TypeExpr N C P → List P → List (TypeExpr N C P) → List P
  | typeName _, preds, _ => preds.reverse
  | compound c, preds, seen => (S.componentPredicate c all seen).toList ++ preds
  | subtype st pred, preds, seen =>
    let te := subtype st pred
    if seen.any (S.tcEq te) || all.isNil && S.ignoredTypeConstraint te then preds
    else typePredicatesStar all st (if all.any (S.tcEqExpr pred) then preds else pred :: preds)
      (te :: seen)

/-- `type-predicates` -/
def typePredicates (te : TypeExpr N C P) (all : Mode P) : List P :=
  S.typePredicatesStar all te [] []

/-- `make-intersection-subtype` -/
def makeIntersectionSubtype (ty : TypeExpr N C P) : List P → TypeExpr N C P
  | [] => ty
  | pred :: _ => subtype ty pred

/-- `intersection-type`; nothing is returned when its assertion fails. -/
def intersectionType (t1 t2 : TypeExpr N C P) : Option (TypeExpr N C P) :=
  if S.subtypeOf t1 t2 then some t1
  else if S.subtypeOf t2 t1 then some t2
  else
    let preds1 := S.typePredicates t1 .t
    let preds2 := S.typePredicates t2 (.preds preds1)
    if preds1.isEmpty || preds2.isEmpty then none
    else some (makeIntersectionSubtype t1 preds2)

/-- The value belongs to the type. -/
def mem : TypeExpr N C P → V → Prop
  | typeName n, v => S.nameValues n v
  | compound c, v => S.compoundValues c v
  | subtype st p, v => mem st v ∧ S.holds p v

/-- The predicates of `t2` that `t1` does not have. -/
def missing (t1 t2 : TypeExpr N C P) : List P :=
  t2.predicates.filter fun q => !t1.predicates.any (S.tcEqExpr q)

variable {S}

attribute [local simp] mem findSupertype predicates typePredicatesStar

theorem mem_iff (t : TypeExpr N C P) (v : V) :
    S.mem t v ↔ S.mem t.findSupertype v ∧ ∀ q ∈ t.predicates, S.holds q v := by
  induction t with
  | typeName n => simp [findSupertype, predicates]
  | compound c => simp [findSupertype, predicates]
  | subtype st p ih =>
    rw [mem, ih, findSupertype, predicates, List.forall_mem_cons]
    constructor
    · rintro ⟨⟨htop, hall⟩, hp⟩
      exact ⟨htop, hp, hall⟩
    · rintro ⟨htop, hp, hall⟩
      exact ⟨⟨htop, hall⟩, hp⟩

theorem findSupertype_cases (t : TypeExpr N C P) :
    (∃ n, t.findSupertype = typeName n) ∨ ∃ c, t.findSupertype = compound c := by
  induction t with
  | typeName n => exact .inl ⟨n, rfl⟩
  | compound c => exact .inr ⟨c, rfl⟩
  | subtype st p ih => exact ih

/-- Equal top types have the same values. -/
theorem mem_findSupertype {t1 t2 : TypeExpr N C P}
    (h : S.tcEq t1.findSupertype t2.findSupertype = true) (v : V) :
    S.mem t1.findSupertype v ↔ S.mem t2.findSupertype v := by
  obtain ⟨n, h1⟩ | ⟨c, h1⟩ := findSupertype_cases t1 <;>
    obtain ⟨n', h2⟩ | ⟨c', h2⟩ := findSupertype_cases t2 <;> rw [h1, h2] at h ⊢ <;>
    simp only [tcEq] at h
  · exact S.tcEqName_sound h v
  · cases h
  · cases h
  · exact S.tcEqCompound_sound h v

/-- The values of `t1` that belong to `t2` are those that the missing predicates hold of. -/
theorem mem_iff_missing {t1 t2 : TypeExpr N C P} {v : V}
    (htop : S.mem t1.findSupertype v ↔ S.mem t2.findSupertype v) (h : S.mem t1 v) :
    S.mem t2 v ↔ ∀ q ∈ S.missing t1 t2, S.holds q v := by
  have h1 := (mem_iff t1 v).1 h
  rw [mem_iff, ← htop]
  constructor
  · rintro ⟨-, hall⟩ q hq
    exact hall q (List.mem_filter.1 hq).1
  · intro hall
    refine ⟨h1.1, fun q hq => ?_⟩
    by_cases hany : t1.predicates.any (S.tcEqExpr q) = true
    · obtain ⟨p, hp, heq⟩ := List.any_eq_true.1 hany
      exact (S.tcEqExpr_sound heq v).2 (h1.2 p hp)
    · exact hall q (List.mem_filter.2 ⟨hq, by simpa using hany⟩)

theorem typePredicatesStar_t_ne_nil (te : TypeExpr N C P) {preds : List P}
    (h : preds ≠ []) (seen : List (TypeExpr N C P)) :
    S.typePredicatesStar .t te preds seen ≠ [] := by
  induction te generalizing preds seen with
  | typeName n => simpa [typePredicatesStar] using h
  | compound c => simp [typePredicatesStar, h]
  | subtype st p ih =>
    unfold typePredicatesStar
    dsimp only
    split
    · exact h
    · apply ih
      rw [if_neg (by simp [Mode.any])]
      exact List.cons_ne_nil p preds

theorem typePredicates_t_isEmpty (st : TypeExpr N C P) (p : P) :
    (S.typePredicates (subtype st p) .t).isEmpty = false := by
  rw [List.isEmpty_eq_false_iff, typePredicates, typePredicatesStar]
  simpa [Mode.any, Mode.isNil] using typePredicatesStar_t_ne_nil st (List.cons_ne_nil p []) _

variable (S) in
/-- The type that is returned contains exactly the values of both. -/
def Intersects (t1 t2 : TypeExpr N C P) : Prop :=
  ∃ t ∈ S.intersectionType t1 t2, ∀ v, S.mem t v ↔ S.mem t1 v ∧ S.mem t2 v

variable (S) in
/-- The predicate that the code takes, or none, stands for all those that are missing. -/
def FirstSuffices (t1 t2 : TypeExpr N C P) : Prop :=
  if S.subtypeOf t1 t2 then ∀ v, S.mem t1 v → ∀ q ∈ S.missing t1 t2, S.holds q v
  else if S.subtypeOf t2 t1 then ∀ v, S.mem t2 v → ∀ q ∈ S.missing t2 t1, S.holds q v
  else match S.typePredicates t2 (.preds (S.typePredicates t1 .t)) with
    | [] => False
    | p :: _ => ∀ v, S.mem t1 v → (S.holds p v ↔ ∀ q ∈ S.missing t1 t2, S.holds q v)

theorem intersects_iff (st1 st2 : TypeExpr N C P) (p1 p2 : P)
    (htop : ∀ v, S.mem st1.findSupertype v ↔ S.mem st2.findSupertype v) :
    S.Intersects (subtype st1 p1) (subtype st2 p2) ↔
      S.FirstSuffices (subtype st1 p1) (subtype st2 p2) := by
  have hne := typePredicates_t_isEmpty (S := S) st1 p1
  generalize h1 : subtype st1 p1 = t1 at *
  generalize h2 : subtype st2 p2 = t2 at *
  have htop1 : ∀ v, S.mem t1.findSupertype v ↔ S.mem t2.findSupertype v := by
    rw [← h1, ← h2]
    exact htop
  unfold Intersects FirstSuffices intersectionType
  split
  · simp only [Option.mem_def, Option.some.injEq, exists_eq_left']
    refine forall_congr' fun v => ?_
    rw [iff_self_and]
    exact imp_congr_right fun h => mem_iff_missing (htop1 v) h
  · split
    · simp only [Option.mem_def, Option.some.injEq, exists_eq_left']
      refine forall_congr' fun v => ?_
      rw [iff_and_self]
      exact imp_congr_right fun h => mem_iff_missing (htop1 v).symm h
    · dsimp only
      rw [hne, Bool.false_or]
      cases S.typePredicates t2 (.preds (S.typePredicates t1 .t)) with
      | nil => simp
      | cons p ps =>
        rw [if_neg (by simp)]
        simp only [Option.mem_def, Option.some.injEq, exists_eq_left', makeIntersectionSubtype]
        refine forall_congr' fun v => ?_
        rw [mem, and_congr_right_iff]
        refine imp_congr_right fun h => ?_
        rw [mem_iff_missing (htop1 v) h]

variable (S) in
/-- No predicate that `tc-eq` passes over. -/
def Plain (t : TypeExpr N C P) : Prop :=
  ∀ p ∈ t.predicates, S.everywhereTrue p = false ∧ S.recognizer p = false

theorem length_of_tcEq {t1 t2 : TypeExpr N C P} (h1 : S.Plain t1) (h2 : S.Plain t2)
    (h : S.tcEq t1 t2 = true) : t1.predicates.length = t2.predicates.length := by
  fun_induction tcEq S t1 t2 with
  | case1 st1 p1 st2 p2 ht1 ht2 ih => simp [h1 p1 (List.mem_cons_self ..)] at ht1
  | case2 st1 p1 st2 p2 ht1 ht2 ih => simp [h1 p1 (List.mem_cons_self ..)] at ht1
  | case3 st1 p1 st2 p2 ht1 ht2 ih => simp [h2 p2 (List.mem_cons_self ..)] at ht2
  | case4 st1 p1 st2 p2 ht1 ht2 ih =>
    rw [Bool.and_eq_true] at h
    rw [predicates, predicates, List.length_cons, List.length_cons,
      ih (fun p hp => h1 p (List.mem_cons_of_mem _ hp))
        (fun p hp => h2 p (List.mem_cons_of_mem _ hp)) h.1]
  | case5 st1 p1 n ih => simp [h1 p1 (List.mem_cons_self ..)] at h
  | case6 n st2 p2 ih => simp [h2 p2 (List.mem_cons_self ..)] at h
  | case7 n n' => rfl
  | case8 c c' => rfl
  | case9 => cases h

theorem typePredicatesStar_plain {all : Mode P} (hall : all.isNil = false) {n : N}
    {te : TypeExpr N C P} (htop : te.findSupertype = typeName n) (hte : S.Plain te)
    (preds : List P) {seen : List (TypeExpr N C P)}
    (hseen : ∀ t ∈ seen, S.Plain t ∧ te.predicates.length < t.predicates.length) :
    S.typePredicatesStar all te preds seen =
      preds.reverse ++ te.predicates.filter fun q => !all.any (S.tcEqExpr q) := by
  induction te generalizing preds seen with
  | typeName n => simp [typePredicatesStar, predicates]
  | compound c => cases htop
  | subtype st p ih =>
    have hst : S.Plain st := fun q hq => hte q (List.mem_cons_of_mem _ hq)
    have hnew : seen.any (S.tcEq (subtype st p)) = false := by
      rw [List.any_eq_false]
      intro t ht heq
      exact Nat.ne_of_lt (hseen t ht).2 (length_of_tcEq hte (hseen t ht).1 heq)
    have hlt : ∀ t ∈ subtype st p :: seen, S.Plain t ∧
        st.predicates.length < t.predicates.length := by
      rw [List.forall_mem_cons]
      refine ⟨⟨hte, Nat.lt_succ_self _⟩, fun t ht => ⟨(hseen t ht).1, ?_⟩⟩
      exact Nat.lt_trans (Nat.lt_succ_self _) (hseen t ht).2
    unfold typePredicatesStar
    dsimp only
    rw [hnew, hall, Bool.false_and, Bool.or_false, if_neg Bool.false_ne_true,
      ih htop hst _ hlt, predicates, List.filter_cons]
    cases all.any (S.tcEqExpr p) <;> simp

/-- Over a type name, the predicates that are computed are those that are missing. -/
theorem typePredicates_eq_missing {n1 n2 : N} {st1 t2 : TypeExpr N C P} {p1 : P}
    (htop1 : (subtype st1 p1).findSupertype = typeName n1)
    (htop2 : t2.findSupertype = typeName n2)
    (h1 : S.Plain (subtype st1 p1)) (h2 : S.Plain t2) :
    S.typePredicates t2 (.preds (S.typePredicates (subtype st1 p1) .t)) =
      S.missing (subtype st1 p1) t2 := by
  have hpreds1 : S.typePredicates (subtype st1 p1) .t = (subtype st1 p1).predicates := by
    rw [typePredicates, typePredicatesStar_plain rfl htop1 h1 [] (by simp)]
    simp [Mode.any]
  rw [hpreds1, typePredicates, typePredicatesStar_plain rfl htop2 h2 [] (by simp),
    List.reverse_nil, List.nil_append]
  rfl

/-- With one missing predicate nothing is lost. -/
theorem intersects_of_missing_eq {n1 n2 : N} {st1 st2 : TypeExpr N C P} {p1 p2 q : P}
    (htop1 : st1.findSupertype = typeName n1) (htop2 : st2.findSupertype = typeName n2)
    (htop : ∀ v, S.nameValues n1 v ↔ S.nameValues n2 v)
    (h1 : S.Plain (subtype st1 p1)) (h2 : S.Plain (subtype st2 p2))
    (hmissing : S.missing (subtype st1 p1) (subtype st2 p2) = [q])
    (h12 : S.subtypeOf (subtype st1 p1) (subtype st2 p2) = false)
    (h21 : S.subtypeOf (subtype st2 p2) (subtype st1 p1) = false) :
    S.Intersects (subtype st1 p1) (subtype st2 p2) := by
  have hpreds : S.typePredicates (subtype st2 p2)
      (.preds (S.typePredicates (subtype st1 p1) .t)) = [q] := by
    rw [← hmissing]
    exact typePredicates_eq_missing htop1 htop2 h1 h2
  rw [intersects_iff st1 st2 p1 p2 fun v => by rw [htop1, htop2]; exact htop v, FirstSuffices,
    if_neg (by simp [h12]), if_neg (by simp [h21]), hpreds, hmissing]
  intro v _
  simp

variable (S) in
/-- Both orders of the arguments return a type, with the same values. -/
def SameSwapped (t1 t2 : TypeExpr N C P) : Prop :=
  ∃ t ∈ S.intersectionType t1 t2, ∃ t' ∈ S.intersectionType t2 t1, ∀ v, S.mem t v ↔ S.mem t' v

end Callees

/-- Predicates on the integers. -/
inductive IntPred where
  | atLeast (k : ℤ)
  | atMost (k : ℤ)
  | multipleOf (k : ℤ)
  deriving DecidableEq

namespace IntPred

def Holds : IntPred → ℤ → Prop
  | atLeast k, v => k ≤ v
  | atMost k, v => v ≤ k
  | multipleOf k, v => k ∣ v

end IntPred

/-- One type name, `int`, and no compound types. -/
def integers : Callees Unit Empty IntPred ℤ where
  tcEqName _ _ := true
  tcEqCompound _ _ := true
  tcEqExpr p q := decide (p = q)
  tcEqOps p q := decide (p = q)
  everywhereTrue _ := false
  singleConstructor _ := false
  recognizer _ := false
  ignoredTypeConstraint _ := false
  componentPredicate _ _ _ := none
  strictCompatible _ _ := true
  subtypeConjuncts t1 t2 := decide (t2.predicates ⊆ t1.predicates)
  samePredicate _ _ := false
  memberDisjunct _ _ := false
  subtypeOfTop _ _ := true
  knownSubtypeOf _ _ := false
  nameValues _ _ := True
  compoundValues _ _ := True
  holds := IntPred.Holds
  tcEqName_sound _ _ := Iff.rfl
  tcEqCompound_sound _ _ := Iff.rfl
  tcEqExpr_sound h v := by rw [of_decide_eq_true h]

namespace Callees

end Callees

end PVS.Equalities
