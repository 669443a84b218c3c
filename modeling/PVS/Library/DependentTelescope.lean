import Mathlib
import PVS.Library.DependentTerms
import PVS.Library.Telescope

/-! The values of dependent bindings are chosen at once -/

namespace PVS.Library.Dependent

open Telescope

variable {ν κ τ D : Type} [DecidableEq ν]

def entries : {k : Kind} → Node ν κ τ k → List (ν × TypeExpr ν κ τ)
  | _, .cons x type rest => (x, type) :: entries rest
  | _, _ => []

omit [DecidableEq ν] in
@[simp] theorem entries_nil : entries (.nil : Bindings ν κ τ) = [] := by
  simp [entries]

omit [DecidableEq ν] in
@[simp] theorem entries_cons (x : ν) (type : TypeExpr ν κ τ) (rest : Bindings ν κ τ) :
    entries (.cons x type rest) = (x, type) :: entries rest := by
  simp [entries]

omit [DecidableEq ν] in
theorem map_fst_entries (bs : Bindings ν κ τ) : (entries bs).map Prod.fst = bound bs := by
  induction bs using bindings_induction with
  | nil => simp
  | cons x type rest ih => simp [ih]

theorem entries_substit {σ : Subst ν κ τ} {bs : Bindings ν κ τ} (h : ∀ x ∈ bound bs, σ x = none) :
    entries (substit σ bs) = (entries bs).map fun s => (s.1, substit σ s.2) := by
  induction bs using bindings_induction with
  | nil => simp [substit]
  | cons x type rest ih =>
    rw [bound_cons, List.forall_mem_cons] at h
    have hx : σ.without [x] = σ := Subst.without_of_disjoint (by simpa using h.1)
    simp only [substit, entries_cons, hx, ih h.2, List.map_cons]

variable (M : Model κ τ D)

def member (bs : Bindings ν κ τ) (x : ν) (ρ : ν → D) (v : D) : Prop :=
  ∃ type, (x, type) ∈ entries bs ∧ eval M type ρ v

def dependencies (bs : Bindings ν κ τ) (x : ν) : List ν :=
  (entries bs).flatMap fun s => if s.1 = x then freevars s.2 else []

theorem member_congr (bs : Bindings ν κ τ) (x : ν) (ρ ρ' : ν → D)
    (h : ∀ y ∈ dependencies bs x, ρ y = ρ' y) (v : D) : member M bs x ρ v ↔ member M bs x ρ' v := by
  refine exists_congr fun type => and_congr_right fun htype => ?_
  rw [eval_same M type fun y hy => h y (List.mem_flatMap.2 ⟨_, htype, by simpa using hy⟩)]

theorem member_iff {bs : Bindings ν κ τ} (hnodup : (bound bs).Nodup) {s : ν × TypeExpr ν κ τ}
    (hs : s ∈ entries bs) {ρ : ν → D} {v : D} : member M bs s.1 ρ v ↔ eval M s.2 ρ v := by
  constructor
  · rintro ⟨type, htype, hv⟩
    rw [← map_fst_entries] at hnodup
    have heq := List.inj_on_of_nodup_map hnodup htype hs rfl
    rwa [← heq]
  · exact fun hv => ⟨s.2, hs, hv⟩

variable {M}

theorem eval_existsAll {mem : ν → (ν → D) → D → Prop} {bs : Bindings ν κ τ}
    (h : ∀ s ∈ entries bs, ∀ ρ v, mem s.1 ρ v ↔ eval M s.2 ρ v) (P : (ν → D) → Prop) (ρ : ν → D) :
    eval M bs ρ .exist P ↔ existsAll mem (bound bs) P ρ := by
  induction bs using bindings_induction generalizing ρ with
  | nil => simp [eval, existsAll]
  | cons x type rest ih =>
    rw [entries_cons, List.forall_mem_cons] at h
    rw [eval, bound_cons, existsAll]
    exact exists_congr fun v => and_congr (h.1 ρ v).symm (ih h.2 _)

theorem eval_forallAll {mem : ν → (ν → D) → D → Prop} {bs : Bindings ν κ τ}
    (h : ∀ s ∈ entries bs, ∀ ρ v, mem s.1 ρ v ↔ eval M s.2 ρ v) (P : (ν → D) → Prop) (ρ : ν → D) :
    eval M bs ρ .forAll P ↔ forallAll mem (bound bs) P ρ := by
  induction bs using bindings_induction generalizing ρ with
  | nil => simp [eval, forallAll]
  | cons x type rest ih =>
    rw [entries_cons, List.forall_mem_cons] at h
    rw [eval, bound_cons, forallAll]
    exact forall_congr' fun v => imp_congr (h.1 ρ v).symm (ih h.2 _)

/-- Distinct variables that are not free in the bindings -/
structure Proper (bs : Bindings ν κ τ) : Prop where
  nodup : (bound bs).Nodup
  free : ∀ y ∈ freevars bs, y ∉ bound bs

theorem Proper.rest {x : ν} {type : TypeExpr ν κ τ} {rest : Bindings ν κ τ}
    (h : Proper (.cons x type rest)) : Proper rest := by
  obtain ⟨hnodup, hfree⟩ := h
  rw [bound_cons, List.nodup_cons] at hnodup
  refine ⟨hnodup.2, fun y hy hbound => ?_⟩
  by_cases hyx : y = x
  · exact hnodup.1 (hyx ▸ hbound)
  · exact hfree y (by simp [freevars, hy, hyx]) (by simp [hbound])

theorem Proper.inOrder {bs : Bindings ν κ τ} (h : Proper bs) :
    InOrder (dependencies bs) (bound bs) := by
  suffices hall : ∀ bs' : Bindings ν κ τ, Proper bs' → (∀ x ∈ bound bs', ∀ y ∈ dependencies bs x,
      y ∈ dependencies bs' x) → InOrder (dependencies bs) (bound bs') from
    hall bs h fun _ _ _ hy => hy
  intro bs' h' hdeps
  induction bs' using bindings_induction with
  | nil => simp [InOrder]
  | cons x type rest ih =>
    have hnodup := h'.nodup
    rw [bound_cons, List.nodup_cons] at hnodup
    rw [bound_cons]
    refine ⟨fun y hy hdep => ?_, ih h'.rest fun z hz y hy => ?_⟩
    · have hmem := hdeps x (by simp) y hdep
      simp only [dependencies, entries_cons, List.flatMap_cons, if_true, List.mem_append,
        List.mem_flatMap] at hmem
      obtain htype | ⟨s, hs, hrest⟩ := hmem
      · exact h'.free y (by simp [freevars, htype]) (by simpa using hy)
      · split at hrest
        · rename_i hsx
          rw [← hsx, ← map_fst_entries] at hnodup
          exact hnodup.1 (List.mem_map_of_mem hs)
        · cases hrest
    · have hmem := hdeps z (by simp [hz]) y hy
      simp only [dependencies, entries_cons, List.flatMap_cons] at hmem ⊢
      have hne : x ≠ z := fun heq => hnodup.1 (heq ▸ hz)
      simpa [hne] using hmem

theorem eval_exist_iff {bs : Bindings ν κ τ} (h : Proper bs) (P : (ν → D) → Prop) (ρ : ν → D) :
    eval M bs ρ .exist P ↔ ∃ ρ' : ν → D, (∀ x, x ∉ bound bs → ρ' x = ρ x) ∧
      (∀ s ∈ entries bs, eval M s.2 ρ' (ρ' s.1)) ∧ P ρ' := by
  rw [eval_existsAll (fun s hs ρ v => member_iff M h.nodup hs) P ρ,
    existsAll_iff (member_congr M bs) h.inOrder h.nodup]
  refine exists_congr fun ρ' => and_congr_right fun _ => and_congr_left fun _ => ?_
  rw [← map_fst_entries, List.forall_mem_map]
  exact forall₂_congr fun s hs => member_iff M h.nodup hs

theorem eval_forAll_iff {bs : Bindings ν κ τ} (h : Proper bs) (P : (ν → D) → Prop) (ρ : ν → D) :
    eval M bs ρ .forAll P ↔ ∀ ρ' : ν → D, (∀ x, x ∉ bound bs → ρ' x = ρ x) →
      (∀ s ∈ entries bs, eval M s.2 ρ' (ρ' s.1)) → P ρ' := by
  rw [eval_forallAll (fun s hs ρ v => member_iff M h.nodup hs) P ρ, forallAll_iff,
    ← eval_existsAll (fun s hs ρ v => member_iff M h.nodup hs), eval_exist_iff h]
  simp only [not_exists, not_and, not_not]

end PVS.Library.Dependent
