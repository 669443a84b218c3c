import Mathlib.Data.List.Basic

/-! Values with components, and their update along paths. -/

namespace PVS.Library

/-- A value is given by its root and its components. -/
structure Components (V K R : Type) where
  root : V → R
  get : V → K → V
  put : V → K → V → V
  root_put : ∀ v k x, root (put v k x) = root v
  get_put_self : ∀ v k x, get (put v k x) k = x
  get_put_of_ne : ∀ v x {k k'}, k ≠ k' → get (put v k x) k' = get v k'
  ext : ∀ {v w}, root v = root w → (∀ k, get v k = get w k) → v = w

namespace Components

variable {V K R : Type} (S : Components V K R)

/-- The component that the path leads to is replaced. -/
def update (v : V) : List K → V → V
  | [], x => x
  | k :: p, x => S.put v k (update (S.get v k) p x)

/-- Updates one after the other. -/
def override (v : V) (l : List (List K × V)) : V := l.foldl (fun v a => S.update v a.1 a.2) v

/-- The updates of one component. -/
def under [DecidableEq K] (k : K) (l : List (List K × V)) : List (List K × V) :=
  l.filterMap fun a =>
    match a.1 with
    | [] => none
    | k' :: p => if k' = k then some (p, a.2) else none

/-- No update replaces the whole value. -/
def Inner (l : List (List K × V)) : Prop := ∀ a ∈ l, a.1 ≠ []

variable {S}

theorem override_append (v : V) (l l' : List (List K × V)) :
    S.override v (l ++ l') = S.override (S.override v l) l' :=
  List.foldl_append

/-- What is replaced as a whole does not depend on what was before. -/
theorem override_replace (v x : V) (l l' : List (List K × V)) :
    S.override v (l ++ ([], x) :: l') = S.override x l' := by
  rw [override_append]
  rfl

theorem root_override (v : V) {l : List (List K × V)} (h : Inner l) :
    S.root (S.override v l) = S.root v := by
  induction l generalizing v with
  | nil => rfl
  | cons a l ih =>
    obtain ⟨p, x⟩ := a
    rw [Inner, List.forall_mem_cons] at h
    cases p with
    | nil => exact absurd rfl h.1
    | cons k p => exact (ih _ h.2).trans (S.root_put _ _ _)

variable [DecidableEq K]

theorem under_append (k : K) (l l' : List (List K × V)) :
    under k (l ++ l') = under k l ++ under k l' :=
  List.filterMap_append

theorem get_override (v : V) (k : K) {l : List (List K × V)} (h : Inner l) :
    S.get (S.override v l) k = S.override (S.get v k) (under k l) := by
  induction l generalizing v with
  | nil => rfl
  | cons a l ih =>
    obtain ⟨p, x⟩ := a
    rw [Inner, List.forall_mem_cons] at h
    cases p with
    | nil => exact absurd rfl h.1
    | cons k' p =>
      have hstep : S.get (S.override v ((k' :: p, x) :: l)) k =
          S.override (S.get (S.put v k' (S.update (S.get v k') p x)) k) (under k l) := ih _ h.2
      rw [hstep]
      by_cases hk : k' = k
      · subst hk
        rw [S.get_put_self]
        simp [under, override]
      · rw [S.get_put_of_ne _ _ hk]
        simp [under, hk]

/-- Updates of components may be compared one component at a time. -/
theorem override_eq_iff {v w : V} {l l' : List (List K × V)} (h : Inner l) (h' : Inner l')
    (hroot : S.root v = S.root w) :
    S.override v l = S.override w l' ↔
      ∀ k, S.override (S.get v k) (under k l) = S.override (S.get w k) (under k l') := by
  constructor
  · intro heq k
    rw [← get_override v k h, ← get_override w k h', heq]
  · intro hall
    apply S.ext
    · rw [root_override v h, root_override w h', hroot]
    · intro k
      rw [get_override v k h, get_override w k h', hall]

/-- The values are the same once what is at the path is replaced. -/
def AgreeOff (S : Components V K R) (p : List K) (v w : V) : Prop :=
  ∀ x, S.update v p x = S.update w p x

theorem agreeOff_cons_iff {k : K} {p : List K} {v w : V} :
    S.AgreeOff (k :: p) v w ↔ S.root v = S.root w ∧ (∀ k', k' ≠ k → S.get v k' = S.get w k') ∧
      S.AgreeOff p (S.get v k) (S.get w k) := by
  constructor
  · intro h
    refine ⟨?_, fun k' hk' => ?_, fun x => ?_⟩
    · rw [← S.root_put v k (S.update (S.get v k) p v), ← S.root_put w k (S.update (S.get w k) p v)]
      exact congrArg S.root (h v)
    · rw [← S.get_put_of_ne v (S.update (S.get v k) p v) hk'.symm,
        ← S.get_put_of_ne w (S.update (S.get w k) p v) hk'.symm]
      exact congrArg (S.get · k') (h v)
    · rw [← S.get_put_self v k (S.update (S.get v k) p x),
        ← S.get_put_self w k (S.update (S.get w k) p x)]
      exact congrArg (S.get · k) (h x)
  · rintro ⟨hroot, hget, hoff⟩ x
    apply S.ext
    · rw [update, update, S.root_put, S.root_put, hroot]
    · intro k'
      rw [update, update]
      by_cases hk : k = k'
      · subst hk
        rw [S.get_put_self, S.get_put_self, hoff]
      · rw [S.get_put_of_ne _ _ hk, S.get_put_of_ne _ _ hk, hget k' (Ne.symm hk)]

/-- An update below the path is not seen off the path. -/
theorem agreeOff_update_append (v : V) (p q : List K) (x : V) :
    S.AgreeOff p v (S.update v (p ++ q) x) := by
  induction p generalizing v with
  | nil => exact fun y => rfl
  | cons k p ih =>
    rw [agreeOff_cons_iff, List.cons_append, update]
    refine ⟨(S.root_put _ _ _).symm, fun k' hk' => (S.get_put_of_ne _ _ hk'.symm).symm, ?_⟩
    rw [S.get_put_self]
    exact ih _

/-- Any update keeps values that agree off a path so. -/
theorem AgreeOff.update {p : List K} {v w : V} (h : S.AgreeOff p v w) (q : List K) (x : V) :
    S.AgreeOff p (S.update v q x) (S.update w q x) := by
  induction p generalizing v w q with
  | nil => exact fun y => rfl
  | cons k p ih =>
    cases q with
    | nil => exact fun y => rfl
    | cons k' q =>
      obtain ⟨hroot, hget, hoff⟩ := agreeOff_cons_iff.1 h
      rw [agreeOff_cons_iff, Components.update, Components.update]
      refine ⟨by rw [S.root_put, S.root_put, hroot], fun j hj => ?_, ?_⟩
      · by_cases hk : k' = j
        · subst hk
          rw [S.get_put_self, S.get_put_self, hget k' hj]
        · rw [S.get_put_of_ne _ _ hk, S.get_put_of_ne _ _ hk, hget j hj]
      · by_cases hk : k' = k
        · subst hk
          rw [S.get_put_self, S.get_put_self]
          exact ih hoff q
        · rw [S.get_put_of_ne _ _ hk, S.get_put_of_ne _ _ hk]
          exact hoff

theorem AgreeOff.override {p : List K} {v w : V} (h : S.AgreeOff p v w)
    (l : List (List K × V)) : S.AgreeOff p (S.override v l) (S.override w l) := by
  induction l generalizing v w with
  | nil => exact h
  | cons a l ih => exact ih (h.update a.1 a.2)

/-- An update is lost when a later one replaces what it is below. -/
theorem override_cons_of_replaced {p q : List K} (v x y : V) (l l' : List (List K × V)) :
    S.override v ((p ++ q, x) :: (l ++ (p, y) :: l')) = S.override v (l ++ (p, y) :: l') := by
  have hoff : S.AgreeOff p (S.override v l) (S.override (S.update v (p ++ q) x) l) :=
    (agreeOff_update_append v p q x).override l
  have h : S.override v ((p ++ q, x) :: (l ++ (p, y) :: l')) =
      S.override (S.override (S.update v (p ++ q) x) l) ((p, y) :: l') := by
    rw [← override_append]
    rfl
  rw [h, override_append]
  exact congrArg (S.override · l') (hoff y).symm

/-- Values as what is found at the end of each path. -/
def paths {A : Type} : Components (List K → A) K A where
  root v := v []
  get v k := fun p => v (k :: p)
  put v k x := fun
    | [] => v []
    | k' :: p => if k' = k then x p else v (k' :: p)
  root_put _ _ _ := rfl
  get_put_self v k x := funext fun p => if_pos rfl
  get_put_of_ne v x _ _ h := funext fun p => if_neg (Ne.symm h)
  ext hroot hget := funext fun
    | [] => hroot
    | k :: p => congrFun (hget k) p

end Components

end PVS.Library
