import PVS.GroundProver.Arrays
import Mathlib.Tactic.Tauto

/-! Extensional models of array terms, and when the answer of `arraysolve` is equivalent to the
equation it is asked about. -/

namespace PVS.GroundProver

open SExp

/-- Which terms are array atoms, indices and values. -/
structure Sorts where
  array : SExp → Prop
  index : SExp → Prop
  value : SExp → Prop

inductive ArrayTerm (S : Sorts) : SExp → Prop
  | atom {t : SExp} : S.array t → updatep t = false → ArrayTerm S t
  | write {a i v : SExp} : ArrayTerm S a → S.index i → S.value v → ArrayTerm S (update a i v)

/-- An index of type `tuple` is a `tupcons`, the only index `translate-assign-args` builds from
several arguments. -/
def Sorts.WellIndexed (S : Sorts) (C : Calls) : Prop :=
  ∀ i, S.index i → prtype C.typealist i = .sym "tuple" →
    ∃ js, i = form "tupcons" js ∧ 2 ≤ js.length

structure ArrayModel (S : Sorts) where
  D : Type
  eval : SExp → D
  Holds : SExp → Prop
  select : D → D → D
  holds_true : Holds tt
  holds_false : ¬ Holds ff
  holds_equal (l r : SExp) : Holds (equal l r) ↔ eval l = eval r
  select_self {a i v : SExp} : ArrayTerm S (update a i v) →
    select (eval (update a i v)) (eval i) = eval v
  select_ne {a i v : SExp} {x : D} : ArrayTerm S (update a i v) → x ≠ eval i →
    select (eval (update a i v)) x = select (eval a) x
  eval_apply (type : SExp) {a i : SExp} : ArrayTerm S a → S.index i →
    eval (makeAryApply type a [i]) = select (eval a) (eval i)
  eval_applyTuple (type : SExp) {a : SExp} {js : List SExp} : ArrayTerm S a →
    S.index (form "tupcons" js) → 2 ≤ js.length →
    eval (makeAryApply type a js) = select (eval a) (eval (form "tupcons" js))
  ext {a b : SExp} : ArrayTerm S a → ArrayTerm S b → (∀ x, select (eval a) x = select (eval b) x) →
    eval a = eval b

section

variable {S : Sorts} {C : Calls} {a b i j v w x : SExp}

/-- The element of `a` at `i`. -/
def ArrayModel.at (M : ArrayModel S) (a i : SExp) : M.D := M.select (M.eval a) (M.eval i)

/-- `a` and `b` have the same elements, but maybe for the one at `i`. -/
def ArrayModel.AgreeOff (M : ArrayModel S) (i a b : SExp) : Prop :=
  ∀ x, x ≠ M.eval i → M.select (M.eval a) x = M.select (M.eval b) x

theorem ArrayTerm.of_update (h : ArrayTerm S (update a i v)) :
    ArrayTerm S a ∧ S.index i ∧ S.value v := by
  generalize e : update a i v = t at h
  cases h with
  | atom _ ht => simp [← e, updatep] at ht
  | write ha hi hv =>
    simp only [ofList_cons, SExp.cons.injEq, ofList_nil, and_true, true_and] at e
    obtain ⟨rfl, rfl, rfl⟩ := e
    exact ⟨ha, hi, hv⟩

theorem ArrayTerm.eq_update (h : ArrayTerm S x) (hu : updatep x = true) :
    x = update x.arg1 x.arg2 x.arg3 := by
  cases h with
  | atom _ ht => simp [hu] at ht
  | write => rfl

theorem ArrayModel.eval_readAt (M : ArrayModel S) (hS : S.WellIndexed C) (ha : ArrayTerm S a)
    (hi : S.index i) (v : SExp) : M.eval (readAt C a i v) = M.at a i := by
  unfold readAt indexArgs
  split
  case isTrue ht =>
    obtain ⟨js, rfl, hjs⟩ := hS i hi ht
    rw [cdr_cons, toList_ofList]
    exact M.eval_applyTuple _ ha hi hjs
  case isFalse => exact M.eval_apply _ ha hi

theorem ArrayModel.eq_update_iff (M : ArrayModel S) (hx : ArrayTerm S x)
    (hb : ArrayTerm S (update b i v)) :
    M.eval x = M.eval (update b i v) ↔ M.at x i = M.eval v ∧ M.AgreeOff i x b := by
  constructor
  · intro e
    unfold ArrayModel.at AgreeOff
    rw [e]
    exact ⟨M.select_self hb, fun z hz => M.select_ne hb hz⟩
  · rintro ⟨hv, hz⟩
    apply M.ext hx hb
    intro z
    by_cases e : z = M.eval i
    · rw [e, M.select_self hb]
      exact hv
    · rw [M.select_ne hb e]
      exact hz z e

theorem ArrayModel.update_eq_update_iff (M : ArrayModel S) (ha : ArrayTerm S (update a i v))
    (hb : ArrayTerm S (update b j w)) (hab : M.eval a = M.eval b) :
    M.eval (update a i v) = M.eval (update b j w) ↔
      (M.eval i = M.eval j ∧ M.eval v = M.eval w) ∨
        (M.eval i ≠ M.eval j ∧ M.at a i = M.eval v ∧ M.at a j = M.eval w) := by
  have hoff : ∀ z, z ≠ M.eval i → M.select (M.eval (update a i v)) z = M.select (M.eval b) z :=
    fun z hz => by rw [M.select_ne ha hz, hab]
  rw [M.eq_update_iff ha hb]
  unfold ArrayModel.at AgreeOff
  by_cases hij : M.eval i = M.eval j
  · rw [← hij, M.select_self ha]
    simp only [true_and, ne_eq, not_true_eq_false, false_and, or_false]
    exact and_iff_left hoff
  · rw [M.select_ne ha (Ne.symm hij)]
    simp only [hij, false_and, ne_eq, not_false_eq_true, true_and, false_or]
    constructor
    · rintro ⟨hw, hz⟩
      refine ⟨?_, hw⟩
      rw [hab, ← hz _ hij, M.select_self ha]
    · rintro ⟨hv, hw⟩
      refine ⟨hw, fun z hz => ?_⟩
      by_cases e : z = M.eval i
      · rw [e, M.select_self ha, ← hab]
        exact hv.symm
      · exact hoff z e

/-! ### Sound calls and exact answers -/

abbrev Context (S : Sorts) : Type 1 := ArrayModel S → Prop

def ArrayModel.Says (M : ArrayModel S) (l : List SExp) : Prop := ∀ a ∈ l, M.Holds a

/-- A sound answer to the question whether `P` holds. `nil` comes back whenever nothing is known of
`P`, so it promises nothing. -/
def Answer.Sound (Γ : Context S) (P : ArrayModel S → Prop) : Answer → Prop
  | .true => ∀ M, Γ M → P M
  | .false => ∀ M, Γ M → ¬ P M
  | .bools bs => bs ≠ [] → ∀ M, Γ M → (M.Says bs ↔ P M)

/-- The list is equivalent to the equation in the context. -/
def Exact (Γ : Context S) (bs : List SExp) (l r : SExp) : Prop :=
  ∀ M, Γ M → (M.Says bs ↔ M.eval l = M.eval r)

/-- The equations `arraysolve` may ask about two updates. -/
def updatesQueries (C : Calls) (l r : SExp) : List (SExp × SExp) :=
  [(l.arg1, r.arg1), (l.arg2, r.arg2), (l.arg3, r.arg3),
    (readAt C l.arg1 l.arg2 r.arg3, r.arg3), (readAt C r.arg1 r.arg2 l.arg3, l.arg3)]

/-- The equations it may ask about an update on the right side only. -/
def updateQueries (C : Calls) (l r : SExp) : List (SExp × SExp) :=
  [(readAt C l r.arg2 r.arg3, r.arg3), (l, r.arg1),
    (readAt C l r.arg2 r.arg3, readAt C r.arg1 r.arg2 r.arg3)]

def Calls.Answers (C : Calls) (Γ : Context S) (queries : List (SExp × SExp)) : Prop :=
  ∀ p ∈ queries, (C.processNoCanon (equal p.1 p.2)).Sound Γ fun M => M.eval p.1 = M.eval p.2

@[simp] theorem ArrayModel.says_singleton (M : ArrayModel S) (a : SExp) :
    M.Says [a] ↔ M.Holds a := by simp [Says]

@[simp] theorem ArrayModel.says_append (M : ArrayModel S) (l l' : List SExp) :
    M.Says (l ++ l') ↔ M.Says l ∧ M.Says l' := by simp [Says, or_imp, forall_and]

variable {Γ : Context S}

theorem exact_equal (l r : SExp) : Exact Γ [equal l r] l r := by
  intro M _
  rw [M.says_singleton, M.holds_equal]

theorem exact_true {l r : SExp} : Exact Γ [tt] l r ↔ ∀ M, Γ M → M.eval l = M.eval r := by
  unfold Exact
  simp only [ArrayModel.says_singleton, ArrayModel.holds_true, true_iff]

theorem exact_false {l r : SExp} : Exact Γ [ff] l r ↔ ∀ M, Γ M → M.eval l ≠ M.eval r := by
  unfold Exact
  simp only [ArrayModel.says_singleton, ArrayModel.holds_false, false_iff, ne_eq]

/-! ### Two updates -/

/-- What the two reads say, those left out that came back `nil`. Here `v` and `w` stand on the wrong
sides. -/
def ArrayModel.SwappedReads (M : ArrayModel S) (res1 res2 : Answer) (a i v j w : SExp) : Prop :=
  (res1 ≠ .bools [] → M.at a i = M.eval w) ∧ (res2 ≠ .bools [] → M.at a j = M.eval v)

/-- What makes two updates of `a` the same. -/
def ArrayModel.SameUpdate (M : ArrayModel S) (a i v j w : SExp) : Prop :=
  (M.eval i = M.eval j ∧ M.eval v = M.eval w) ∨
    (M.eval i ≠ M.eval j ∧ M.at a i = M.eval v ∧ M.at a j = M.eval w)

theorem ArrayModel.swappedReads_of_sameUpdate_iff (M : ArrayModel S) {res1 res2 : Answer}
    (h : res1 ≠ .bools [] ∨ res2 ≠ .bools []) :
    (M.SameUpdate a i v j w → M.SwappedReads res1 res2 a i v j w) ↔
      (M.eval i = M.eval j → M.eval v = M.eval w → M.at a i = M.eval v) ∧
      (M.eval i ≠ M.eval j → M.at a i = M.eval v → M.at a j = M.eval w → M.eval v = M.eval w) := by
  have hat : M.eval i = M.eval j → M.at a i = M.at a j := congrArg (M.select (M.eval a))
  unfold ArrayModel.SameUpdate ArrayModel.SwappedReads
  constructor
  · intro hread
    constructor
    · intro hij hvw
      have := hread (.inl ⟨hij, hvw⟩)
      grind
    · intro hij hv hw
      have := hread (.inr ⟨hij, hv, hw⟩)
      grind
  · rintro ⟨heq, hne⟩ (⟨hij, hvw⟩ | ⟨hij, hv, hw⟩)
    · have := heq hij hvw
      grind
    · have := hne hij hv hw
      grind

/-- A read that is refuted is harmless if the context refutes the other pairing as well. Reads that
are not refuted are harmless if equal writes at one place store what is there, writes at two places
that change nothing store equal values, and the reads make the two updates the same. -/
def ReadsSafe (Γ : Context S) (a i v j w : SExp) : Answer → Answer → Prop
  | .false, _ | _, .false => ∀ M, Γ M → M.eval i ≠ M.eval j →
      M.at a i = M.eval v → M.at a j ≠ M.eval w
  | .bools [], .bools [] => True
  | res1, res2 => ∀ M, Γ M →
      ((M.eval i = M.eval j → M.eval v = M.eval w → M.at a i = M.eval v) ∧
        (M.eval i ≠ M.eval j → M.at a i = M.eval v → M.at a j = M.eval w →
          M.eval v = M.eval w)) ∧
      (M.SwappedReads res1 res2 a i v j w → M.SameUpdate a i v j w)

/-- Two updates of one array at indices that are not known to be equal have safe reads. -/
def UpdatesSafe (C : Calls) (Γ : Context S) (l r : SExp) : Prop :=
  C.processNoCanon (equal l.arg1 r.arg1) = .true →
  C.processNoCanon (equal l.arg2 r.arg2) ≠ .true →
    ReadsSafe Γ l.arg1 l.arg2 l.arg3 r.arg2 r.arg3
      (C.processNoCanon (equal (readAt C l.arg1 l.arg2 r.arg3) r.arg3))
      (C.processNoCanon (equal (readAt C r.arg1 r.arg2 l.arg3) l.arg3))

theorem Answer.Sound.bools_iff {P : ArrayModel S → Prop} {bs : List SExp}
    (h : (Answer.bools bs).Sound Γ P) {M : ArrayModel S} (hM : Γ M) :
    M.Says bs ↔ (Answer.bools bs ≠ .bools [] → P M) := by
  by_cases e : bs = []
  · simp [e, ArrayModel.Says]
  · simpa [e] using h e M hM

/-- Indices that are known to be equal. -/
theorem arraysolveUpdates_exact (hb : ArrayTerm S (update b j w)) (ha : ArrayTerm S (update a i v))
    (hab : ∀ M, Γ M → M.eval a = M.eval b) (hij : ∀ M, Γ M → M.eval i = M.eval j)
    (hvw : (C.processNoCanon (equal v w)).Sound Γ fun M => M.eval v = M.eval w)
    (hv : Exact Γ (C.solve (equal v w)) v w) :
    Exact Γ (match C.processNoCanon (equal v w) with
      | .bools [] => C.solve (equal v w)
      | .true => [tt]
      | .false => [ff]
      | .bools resval => resval) (update a i v) (update b j w) := by
  have hval : ∀ M, Γ M → (M.eval (update a i v) = M.eval (update b j w) ↔
      M.eval v = M.eval w) := by
    intro M hM
    rw [M.update_eq_update_iff ha hb (hab M hM)]
    simp [hij M hM]
  cases e : C.processNoCanon (equal v w) with
  | true =>
    rw [e] at hvw
    exact exact_true.2 fun M hM => (hval M hM).2 (hvw M hM)
  | false =>
    rw [e] at hvw
    exact exact_false.2 fun M hM h => hvw M hM ((hval M hM).1 h)
  | bools bs =>
    rw [e] at hvw
    intro M hM
    rw [hval M hM]
    cases bs with
    | nil => exact hv M hM
    | cons x bs => exact hvw (by simp) M hM

theorem resultOfReads_exact_iff {l r : SExp} {res1 res2 : Answer}
    (hsame : ∀ M, Γ M → (M.eval l = M.eval r ↔ M.SameUpdate a l.arg2 l.arg3 r.arg2 r.arg3))
    (h1 : res1.Sound Γ fun M => M.at a l.arg2 = M.eval r.arg3)
    (h2 : res2.Sound Γ fun M => M.at a r.arg2 = M.eval l.arg3)
    (hi : Exact Γ (C.solve (equal l.arg2 r.arg2)) l.arg2 r.arg2)
    (hv : Exact Γ (C.solve (equal l.arg3 r.arg3)) l.arg3 r.arg3) :
    Exact Γ (resultOfReads C l r res1 res2) l r ↔
      ReadsSafe Γ a l.arg2 l.arg3 r.arg2 r.arg3 res1 res2 := by
  have hfalse : Exact Γ (C.solve (equal l.arg2 r.arg2) ++ C.solve (equal l.arg3 r.arg3)) l r ↔
      ∀ M, Γ M → M.eval l.arg2 ≠ M.eval r.arg2 →
        M.at a l.arg2 = M.eval l.arg3 → M.at a r.arg2 ≠ M.eval r.arg3 := by
    apply forall₂_congr
    intro M hM
    rw [M.says_append, hi M hM, hv M hM, hsame M hM, ArrayModel.SameUpdate]
    tauto
  have hreads (bs : List SExp) (hne : res1 ≠ .bools [] ∨ res2 ≠ .bools [])
      (hbs : ∀ M, Γ M → (M.Says bs ↔ M.SwappedReads res1 res2 a l.arg2 l.arg3 r.arg2 r.arg3)) :
      Exact Γ bs l r ↔ ∀ M, Γ M →
        ((M.eval l.arg2 = M.eval r.arg2 → M.eval l.arg3 = M.eval r.arg3 →
            M.at a l.arg2 = M.eval l.arg3) ∧
          (M.eval l.arg2 ≠ M.eval r.arg2 → M.at a l.arg2 = M.eval l.arg3 →
            M.at a r.arg2 = M.eval r.arg3 → M.eval l.arg3 = M.eval r.arg3)) ∧
        (M.SwappedReads res1 res2 a l.arg2 l.arg3 r.arg2 r.arg3 →
          M.SameUpdate a l.arg2 l.arg3 r.arg2 r.arg3) := by
    apply forall₂_congr
    intro M hM
    rw [hbs M hM, hsame M hM, ← M.swappedReads_of_sameUpdate_iff hne]
    exact iff_iff_implies_and_implies.trans and_comm
  cases res1 with
  | false => cases res2 <;> exact hfalse
  | true =>
    cases res2 with
    | false => exact hfalse
    | true =>
      apply hreads _ (.inl (by simp))
      intro M hM
      simp only [resultOfReads, ArrayModel.says_singleton, M.holds_true, ArrayModel.SwappedReads,
        h1 M hM, h2 M hM, imp_true_iff, and_self]
    | bools bs' =>
      apply hreads _ (.inl (by simp))
      intro M hM
      simp only [resultOfReads, h2.bools_iff hM, ArrayModel.SwappedReads, h1 M hM, imp_true_iff,
        true_and]
  | bools bs =>
    cases res2 with
    | false => cases bs <;> exact hfalse
    | true =>
      cases bs <;> apply hreads _ (.inr (by simp)) <;> intro M hM <;>
        simp only [resultOfReads, h1.bools_iff hM, ArrayModel.SwappedReads, h2 M hM, imp_true_iff,
          and_true]
    | bools bs' =>
      have hboth : ∀ M, Γ M → (M.Says (bs ++ bs') ↔
          M.SwappedReads (.bools bs) (.bools bs') a l.arg2 l.arg3 r.arg2 r.arg3) := by
        intro M hM
        rw [M.says_append, h1.bools_iff hM, h2.bools_iff hM, ArrayModel.SwappedReads]
      cases bs with
      | nil =>
        cases bs' with
        | nil => exact iff_of_true (exact_equal l r) trivial
        | cons => exact hreads _ (.inr (by simp)) hboth
      | cons => cases bs' <;> exact hreads _ (.inl (by simp)) hboth

theorem Answer.Sound.congr {P Q : ArrayModel S → Prop} {ans : Answer} (h : ans.Sound Γ P)
    (e : ∀ M, Γ M → (P M ↔ Q M)) : ans.Sound Γ Q := by
  cases ans with
  | true => exact fun M hM => (e M hM).1 (h M hM)
  | false => exact fun M hM hQ => h M hM ((e M hM).2 hQ)
  | bools bs => exact fun hbs M hM => (h hbs M hM).trans (e M hM)

theorem arraysolveUpdates_exact_iff (hS : S.WellIndexed C) (ha : ArrayTerm S (update a i v))
    (hb : ArrayTerm S (update b j w))
    (hC : C.Answers Γ (updatesQueries C (update a i v) (update b j w)))
    (hi : Exact Γ (C.solve (equal i j)) i j) (hv : Exact Γ (C.solve (equal v w)) v w) :
    Exact Γ (arraysolveUpdates C (update a i v) (update b j w)) (update a i v) (update b j w) ↔
      UpdatesSafe C Γ (update a i v) (update b j w) := by
  obtain ⟨ha', hia, -⟩ := ha.of_update
  obtain ⟨hb', hjb, -⟩ := hb.of_update
  simp only [Calls.Answers, updatesQueries, List.forall_mem_cons, arg1_update, arg2_update,
    arg3_update] at hC
  obtain ⟨hab, hij, hvw, hr1, hr2, -⟩ := hC
  simp only [arraysolveUpdates, UpdatesSafe, arg1_update, arg2_update, arg3_update]
  by_cases ea : C.processNoCanon (equal a b) = .true
  · rw [ea] at hab
    by_cases ei : C.processNoCanon (equal i j) = .true
    · rw [ei] at hij
      simp only [ea, ei, and_self, if_true, ne_eq, not_true_eq_false, false_imp_iff, imp_true_iff,
        iff_true]
      exact arraysolveUpdates_exact hb ha hab hij hvw hv
    · simp only [ea, ei, and_false, if_true, if_false, ne_eq, not_false_eq_true, true_imp_iff]
      apply resultOfReads_exact_iff
      · exact fun M hM => M.update_eq_update_iff ha hb (hab M hM)
      · apply hr1.congr
        intro M _
        rw [M.eval_readAt hS ha' hia]
        rfl
      · apply hr2.congr
        intro M hM
        rw [M.eval_readAt hS hb' hjb, ArrayModel.at, ← hab M hM]
        rfl
      · exact hi
      · exact hv
  · simp only [ea, false_and, if_false, exact_equal, false_imp_iff]

/-! ### An update on the right side -/

theorem ArrayModel.eq_iff (M : ArrayModel S) (ha : ArrayTerm S a) (hb : ArrayTerm S b) (i : SExp) :
    M.eval a = M.eval b ↔ M.AgreeOff i a b ∧ M.at a i = M.at b i := by
  unfold ArrayModel.at ArrayModel.AgreeOff
  constructor
  · intro e
    simp only [e, implies_true, and_self]
  · rintro ⟨hoff, hi⟩
    apply M.ext ha hb
    intro x
    by_cases e : x = M.eval i
    · rw [e, hi]
    · exact hoff x e

/-- An equation `x = b` that is not refuted is harmless if `b` has the value already wherever the two
sides are equal, and a read that is not refuted says all there is to say only if `x` and `b` agree
off the index. -/
def ReadSafe (Γ : Context S) (x b i v : SExp) : Answer → Answer → Prop
  | .true, .bools bs' => bs' ≠ [] → ∀ M, Γ M → M.AgreeOff i x b → M.at b i = M.eval v
  | .bools bs, .bools bs' => ∀ M, Γ M →
      (bs' ≠ [] → M.AgreeOff i x b → M.at x i = M.eval v → M.at b i = M.eval v) ∧
      (bs = [] → bs' ≠ [] → M.eval x = M.eval b → M.at b i = M.eval v) ∧
      (bs ≠ [] → bs' = [] → M.at x i = M.eval v → M.AgreeOff i x b)
  | _, _ => True

def UpdateSafe (C : Calls) (Γ : Context S) (l r : SExp) : Prop :=
  ReadSafe Γ l r.arg1 r.arg2 r.arg3 (C.processNoCanon (equal (readAt C l r.arg2 r.arg3) r.arg3))
    (processResult2 C l r.arg1)

theorem processResult2_sound {P : ArrayModel S → Prop}
    (h : (C.processNoCanon (equal x b)).Sound Γ P) : (processResult2 C x b).Sound Γ P := by
  unfold processResult2
  by_cases hb : updatep b = true
  · simpa [hb] using h
  · by_cases e : C.processNoCanon (equal x b) = .true
    · simpa [hb, e] using h
    · simp [hb, e, Answer.Sound]

theorem resultOfRead_exact_iff {res1 res2 : Answer} (hx : ArrayTerm S x)
    (hb : ArrayTerm S (update b i v)) (h1 : res1.Sound Γ fun M => M.at x i = M.eval v)
    (h2 : res2.Sound Γ fun M => M.eval x = M.eval b)
    (h3 : (C.processNoCanon (equal (readAt C x i v) (readAt C b i v))).Sound Γ
      fun M => M.at x i = M.at b i)
    (hread : ∀ M : ArrayModel S, M.eval (readAt C x i v) = M.at x i) :
    Exact Γ (resultOfRead C x (update b i v) res1 res2) x (update b i v) ↔
      ReadSafe Γ x b i v res1 res2 := by
  have hupd := fun M : ArrayModel S => M.eq_update_iff hx hb
  have heq := fun M : ArrayModel S => M.eq_iff hx hb.of_update.1 i
  have hfalse : res2 = .false → Exact Γ (resultOfRead C x (update b i v) .true .false) x
      (update b i v) := by
    intro e
    rw [e] at h2
    simp only [resultOfRead, arg1_update, arg2_update, arg3_update]
    by_cases ht : C.processNoCanon (equal (readAt C x i v) (readAt C b i v)) = .true
    · simp only [ht, if_true]
      rw [ht] at h3
      apply exact_false.2
      intro M hM hl
      exact h2 M hM ((heq M).2 ⟨((hupd M).1 hl).2, h3 M hM⟩)
    · simp only [ht, if_false]
      exact exact_equal x _
  cases res1 with
  | false =>
    apply iff_of_true _ trivial
    apply exact_false.2
    intro M hM hl
    exact h1 M hM ((hupd M).1 hl).1
  | true =>
    cases res2 with
    | false => exact iff_of_true (hfalse rfl) trivial
    | true =>
      apply iff_of_true _ trivial
      apply exact_true.2
      intro M hM
      exact (hupd M).2 ⟨h1 M hM, ((heq M).1 (h2 M hM)).1⟩
    | bools bs' =>
      by_cases e : bs' = []
      · simp only [resultOfRead, e, if_true, exact_equal, ReadSafe, ne_eq, not_true_eq_false,
          false_imp_iff]
      · simp only [resultOfRead, e, if_false, ReadSafe, ne_eq, not_false_eq_true, true_imp_iff]
        apply forall₂_congr
        intro M hM
        have hb' : M.Says bs' ↔ M.eval x = M.eval b := h2 e M hM
        have hv : M.at x i = M.eval v := h1 M hM
        rw [hb', hupd, heq, hv]
        simp only [true_and]
        constructor
        · exact fun h hoff => (h.2 hoff).2.symm
        · exact fun h => ⟨And.left, fun hoff => ⟨hoff, (h hoff).symm⟩⟩
  | bools bs =>
    cases res2 with
    | false => cases bs <;> exact iff_of_true (hfalse rfl) trivial
    | true =>
      have hval : ∀ M, Γ M → (M.eval x = M.eval (update b i v) ↔ M.at x i = M.eval v) := by
        intro M hM
        rw [hupd]
        exact and_iff_left ((heq M).1 (h2 M hM)).1
      cases bs with
      | nil =>
        apply iff_of_true _ trivial
        intro M hM
        rw [hval M hM, ← hread M]
        exact (M.says_singleton _).trans (M.holds_equal _ _)
      | cons =>
        apply iff_of_true _ trivial
        intro M hM
        rw [hval M hM]
        exact h1 (by simp) M hM
    | bools bs' =>
      by_cases hnil : bs = [] ∧ bs' = []
      · obtain ⟨rfl, rfl⟩ := hnil
        apply iff_of_true (exact_equal x _)
        simp [ReadSafe]
      · have hans : resultOfRead C x (update b i v) (.bools bs) (.bools bs') = bs' ++ bs := by
          cases bs <;> cases bs' <;> first | rfl | simp at hnil
        rw [hans]
        apply forall₂_congr
        intro M hM
        rw [M.says_append, h1.bools_iff hM, h2.bools_iff hM, hupd, heq]
        cases bs <;> cases bs' <;> simp at hnil ⊢ <;> grind

theorem arraysolveUpdate_exact_iff (hS : S.WellIndexed C) (hx : ArrayTerm S x)
    (hb : ArrayTerm S (update b i v)) (hC : C.Answers Γ (updateQueries C x (update b i v))) :
    Exact Γ (arraysolveUpdate C x (update b i v)) x (update b i v) ↔
      UpdateSafe C Γ x (update b i v) := by
  obtain ⟨hb', hi, -⟩ := hb.of_update
  simp only [Calls.Answers, updateQueries, List.forall_mem_cons, arg1_update, arg2_update,
    arg3_update] at hC
  obtain ⟨h1, h2, h3, -⟩ := hC
  simp only [arraysolveUpdate, UpdateSafe, arg1_update, arg2_update, arg3_update]
  apply resultOfRead_exact_iff hx hb
  · apply h1.congr
    intro M _
    rw [M.eval_readAt hS hx hi]
  · exact processResult2_sound h2
  · apply h3.congr
    intro M _
    rw [M.eval_readAt hS hx hi, M.eval_readAt hS hb' hi]
  · exact fun M => M.eval_readAt hS hx hi v

/-! ### Every equation between array terms -/

theorem Exact.symm_iff {bs : List SExp} {l r : SExp} : Exact Γ bs l r ↔ Exact Γ bs r l := by
  unfold Exact
  simp only [eq_comm]

/-- The calls `arraysolve` makes on the equation `l = r` are answered soundly, and the lists `solve`
gives for the indices and for the values are equivalent to their equations. -/
def Calls.Sound (C : Calls) (Γ : Context S) (l r : SExp) : Prop :=
  match updatep l, updatep r with
  | true, true => C.Answers Γ (updatesQueries C l r) ∧
      Exact Γ (C.solve (equal l.arg2 r.arg2)) l.arg2 r.arg2 ∧
      Exact Γ (C.solve (equal l.arg3 r.arg3)) l.arg3 r.arg3
  | false, true => C.Answers Γ (updateQueries C l r)
  | true, false => C.Answers Γ (updateQueries C r l)
  | false, false => True

def Safe (C : Calls) (Γ : Context S) (l r : SExp) : Prop :=
  l = r ∨ match updatep l, updatep r with
    | true, true => UpdatesSafe C Γ l r
    | false, true => UpdateSafe C Γ l r
    | true, false => UpdateSafe C Γ r l
    | false, false => True

theorem arraysolve_exact_iff (hS : S.WellIndexed C) {l r : SExp} (hl : ArrayTerm S l)
    (hr : ArrayTerm S r) (hC : C.Sound Γ l r) :
    Exact Γ (arraysolve C (equal l r)) l r ↔ Safe C Γ l r := by
  simp only [arraysolve, arraysolveEqual, funsym_equal, if_true, lside_equal, rside_equal, Safe]
  simp only [Calls.Sound] at hC
  by_cases e : l = r
  · subst e
    simp only [if_true, true_or, iff_true, ite_self]
    exact exact_true.2 fun _ _ => rfl
  · rcases Bool.eq_false_or_eq_true (updatep l) with ul | ul <;>
      rcases Bool.eq_false_or_eq_true (updatep r) with ur | ur <;> simp only [ul, ur] at hC ⊢ <;>
      simp only [e, Ne.symm e, Bool.not_true, Bool.not_false, Bool.and_true, Bool.and_false,
        if_true, if_false, false_or, Bool.false_eq_true]
    · obtain ⟨hC, hi, hv⟩ := hC
      obtain ⟨a, i, v, rfl⟩ : ∃ a i v, l = update a i v := ⟨_, _, _, hl.eq_update ul⟩
      obtain ⟨b, j, w, rfl⟩ : ∃ b j w, r = update b j w := ⟨_, _, _, hr.eq_update ur⟩
      exact arraysolveUpdates_exact_iff hS hl hr hC hi hv
    · obtain ⟨a, i, v, rfl⟩ : ∃ a i v, l = update a i v := ⟨_, _, _, hl.eq_update ul⟩
      rw [Exact.symm_iff]
      exact arraysolveUpdate_exact_iff hS hr hl hC
    · obtain ⟨b, j, w, rfl⟩ : ∃ b j w, r = update b j w := ⟨_, _, _, hr.eq_update ur⟩
      exact arraysolveUpdate_exact_iff hS hl hr hC
    · exact iff_of_true (exact_equal l r) trivial

end

/-! ### Two updates whose values are paired with the wrong reads -/

def twoCells : Sorts where
  array t := t = .sym "A"
  index t := t ∈ [.sym "i", .sym "j"]
  value t := t ∈ [.sym "v", .sym "w"]

/-- The answers in a context with `i ≠ j`, `A(i) = v`, `A(j) = w` and `v ≠ w`. -/
def twoCellsCalls : Calls where
  typealist := []
  processNoCanon e := if e.lside = e.rside then .true else .false
  solve e := [e]

def twoCellsContext : Context twoCells := fun M =>
  M.eval (.sym "i") ≠ M.eval (.sym "j") ∧ M.eval (.sym "v") ≠ M.eval (.sym "w") ∧
    M.at (.sym "A") (.sym "i") = M.eval (.sym "v") ∧ M.at (.sym "A") (.sym "j") = M.eval (.sym "w")

theorem twoCells_wellIndexed (C : Calls) (h : C.typealist = []) : twoCells.WellIndexed C := by
  intro i hi ht
  simp only [twoCells, List.mem_cons, List.not_mem_nil, or_false] at hi
  rcases hi with rfl | rfl <;> rw [h] at ht <;> exact absurd ht (by decide)

theorem twoCells_array {i v : SExp} (hi : twoCells.index i) (hv : twoCells.value v) :
    ArrayTerm twoCells (update (.sym "A") i v) :=
  .write (.atom rfl rfl) hi hv

namespace TwoCells

abbrev Dom : Type := Bool ⊕ (Bool → Bool)

def select : Dom → Dom → Dom
  | .inr f, .inl i => .inl (f i)
  | _, _ => .inl false

def write : Dom → Dom → Dom → Dom
  | .inr f, .inl i, .inl v => .inr (Function.update f i v)
  | a, _, _ => a

def eval : SExp → Dom
  | .sym "A" => .inr id
  | .sym n => .inl (n == "j" || n == "w")
  | .cons _ (.cons a (.cons i (.sym _))) => select (eval a) (eval i)
  | .cons _ (.cons a (.cons i (.cons v _))) => write (eval a) (eval i) (eval v)
  | _ => .inl false

theorem eval_update (a i v : SExp) : eval (update a i v) = write (eval a) (eval i) (eval v) := rfl

theorem eval_index {t : SExp} (h : twoCells.index t) : ∃ i, eval t = .inl i := by
  simp only [twoCells, List.mem_cons, List.not_mem_nil, or_false] at h
  rcases h with rfl | rfl <;> exact ⟨_, rfl⟩

theorem eval_value {t : SExp} (h : twoCells.value t) : ∃ v, eval t = .inl v := by
  simp only [twoCells, List.mem_cons, List.not_mem_nil, or_false] at h
  rcases h with rfl | rfl <;> exact ⟨_, rfl⟩

theorem eval_array {t : SExp} (h : ArrayTerm twoCells t) : ∃ f, eval t = .inr f := by
  induction h with
  | atom h _ => exact ⟨id, by rw [h, eval]⟩
  | write _ hi hv ih =>
    obtain ⟨f, hf⟩ := ih
    obtain ⟨i, hi⟩ := eval_index hi
    obtain ⟨v, hv⟩ := eval_value hv
    exact ⟨Function.update f i v, by rw [eval_update, hf, hi, hv]; rfl⟩

def Holds (e : SExp) : Prop := e ≠ ff ∧ (e.funsym = .sym "equal" → eval e.lside = eval e.rside)

end TwoCells

open TwoCells in
def twoCellsModel : ArrayModel twoCells where
  D := Dom
  eval := eval
  Holds := Holds
  select := select
  holds_true := ⟨by decide, fun h => absurd h (by decide)⟩
  holds_false h := h.1 rfl
  holds_equal l r := by simp [Holds]
  select_self {a i v} h := by
    obtain ⟨f, hf⟩ := eval_array h.of_update.1
    obtain ⟨k, hk⟩ := eval_index h.of_update.2.1
    obtain ⟨b, hb⟩ := eval_value h.of_update.2.2
    simp [eval_update, hf, hk, hb, write, select]
  select_ne {a i v x} h hx := by
    obtain ⟨f, hf⟩ := eval_array h.of_update.1
    obtain ⟨k, hk⟩ := eval_index h.of_update.2.1
    obtain ⟨b, hb⟩ := eval_value h.of_update.2.2
    cases x with
    | inl x =>
      have : x ≠ k := by simpa [hk] using hx
      simp [eval_update, hf, hk, hb, write, select, this]
    | inr x => simp [eval_update, hf, hk, hb, write, select]
  eval_apply type a i _ _ := rfl
  eval_applyTuple type a js _ h _ := by simp [twoCells] at h
  ext {a b} ha hb h := by
    obtain ⟨f, hf⟩ := eval_array ha
    obtain ⟨g, hg⟩ := eval_array hb
    rw [hf, hg]
    congr 1
    funext x
    simpa [hf, hg, select] using h (.inl x)

theorem twoCellsContext_model : twoCellsContext twoCellsModel := by
  refine ⟨?_, ?_, ?_, ?_⟩ <;> simp [twoCellsModel, ArrayModel.at, TwoCells.eval, TwoCells.select]

theorem twoCellsCalls_sound : twoCellsCalls.Sound twoCellsContext
    (update (.sym "A") (.sym "i") (.sym "v")) (update (.sym "A") (.sym "j") (.sym "w")) := by
  have hA : ArrayTerm twoCells (.sym "A") := .atom rfl rfl
  have hS := twoCells_wellIndexed twoCellsCalls rfl
  refine ⟨?_, exact_equal _ _, exact_equal _ _⟩
  simp only [Calls.Answers, updatesQueries, List.forall_mem_cons, arg1_update, arg2_update,
    arg3_update]
  refine ⟨fun M _ => trivial, fun M hM => hM.1, fun M hM => hM.2.1, ?_, ?_, by simp⟩
  · rintro M ⟨-, hvw, hi, -⟩ e
    rw [M.eval_readAt hS hA (by simp [twoCells]), hi] at e
    exact hvw e
  · rintro M ⟨-, hvw, -, hj⟩ e
    rw [M.eval_readAt hS hA (by simp [twoCells]), hj] at e
    exact hvw e.symm

theorem arraysolve_exact_iff_twoCells :
    Exact twoCellsContext (arraysolve twoCellsCalls
        (equal (update (.sym "A") (.sym "i") (.sym "v")) (update (.sym "A") (.sym "j") (.sym "w"))))
      (update (.sym "A") (.sym "i") (.sym "v")) (update (.sym "A") (.sym "j") (.sym "w")) ↔
    Safe twoCellsCalls twoCellsContext
      (update (.sym "A") (.sym "i") (.sym "v")) (update (.sym "A") (.sym "j") (.sym "w")) :=
  arraysolve_exact_iff (twoCells_wellIndexed twoCellsCalls rfl)
    (twoCells_array (by simp [twoCells]) (by simp [twoCells]))
    (twoCells_array (by simp [twoCells]) (by simp [twoCells])) twoCellsCalls_sound

/-- The two updates are the same, since both write what is there, but the answer is `i = j` and
`v = w`. -/
theorem not_exact_twoCells :
    twoCells.WellIndexed twoCellsCalls ∧
    ArrayTerm twoCells (update (.sym "A") (.sym "i") (.sym "v")) ∧
    ArrayTerm twoCells (update (.sym "A") (.sym "j") (.sym "w")) ∧
    twoCellsCalls.Sound twoCellsContext
      (update (.sym "A") (.sym "i") (.sym "v")) (update (.sym "A") (.sym "j") (.sym "w")) ∧
    ¬ Exact twoCellsContext (arraysolve twoCellsCalls
        (equal (update (.sym "A") (.sym "i") (.sym "v")) (update (.sym "A") (.sym "j") (.sym "w"))))
      (update (.sym "A") (.sym "i") (.sym "v")) (update (.sym "A") (.sym "j") (.sym "w")) := by
  have hl := twoCells_array (i := .sym "i") (v := .sym "v") (by simp [twoCells]) (by simp [twoCells])
  have hr := twoCells_array (i := .sym "j") (v := .sym "w") (by simp [twoCells]) (by simp [twoCells])
  refine ⟨twoCells_wellIndexed twoCellsCalls rfl, hl, hr, twoCellsCalls_sound, fun h => ?_⟩
  have hans : arraysolve twoCellsCalls
      (equal (update (.sym "A") (.sym "i") (.sym "v")) (update (.sym "A") (.sym "j") (.sym "w"))) =
      [equal (.sym "i") (.sym "j"), equal (.sym "v") (.sym "w")] := by decide
  have hc := twoCellsContext_model
  have heq := (twoCellsModel.update_eq_update_iff hl hr rfl).2 (.inr ⟨hc.1, hc.2.2⟩)
  have hans' := (h twoCellsModel hc).2 heq
  rw [hans] at hans'
  exact hc.1 ((twoCellsModel.holds_equal _ _).1 (hans' _ (by simp)))

end PVS.GroundProver
