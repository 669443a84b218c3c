import Mathlib.Algebra.BigOperators.Group.List.Basic
import Mathlib.Algebra.Ring.Basic
import Mathlib.Data.List.Sort
import Mathlib.Order.Basic

/-! Linear forms as sorted lists of coefficients. A form is determined by its values. -/

namespace PVS.Library

structure LinearForm (V K : Type) [LT V] [Zero K] where
  const : K
  coefs : List (V × K)
  sorted : coefs.Pairwise fun a b => a.1 < b.1
  nonzero : ∀ p ∈ coefs, p.2 ≠ 0

namespace LinearForm

variable {V K : Type} [Ring K]

def sumCoefs (ρ : V → K) (coefs : List (V × K)) : K := (coefs.map fun p => p.2 * ρ p.1).sum

@[simp] theorem sumCoefs_nil (ρ : V → K) : sumCoefs ρ [] = 0 := rfl

@[simp] theorem sumCoefs_cons (ρ : V → K) (p : V × K) (coefs : List (V × K)) :
    sumCoefs ρ (p :: coefs) = p.2 * ρ p.1 + sumCoefs ρ coefs := by
  simp [sumCoefs]

theorem sumCoefs_zero (coefs : List (V × K)) : sumCoefs (fun _ => 0) coefs = 0 := by
  induction coefs with
  | nil => rfl
  | cons p coefs ih => rw [sumCoefs_cons, ih, mul_zero, add_zero]

variable [LinearOrder V]

def value (ρ : V → K) (f : LinearForm V K) : K := f.const + sumCoefs ρ f.coefs

/-- The assignment of 1 to `x` and of 0 to everything else. -/
def unit (x : V) : V → K := fun y => if y = x then 1 else 0

theorem sumCoefs_unit_of_notMem {x : V} {coefs : List (V × K)} (h : ∀ p ∈ coefs, p.1 ≠ x) :
    sumCoefs (unit x) coefs = 0 := by
  induction coefs with
  | nil => rfl
  | cons p coefs ih =>
    rw [List.forall_mem_cons] at h
    rw [sumCoefs_cons, ih h.2, unit, if_neg h.1, mul_zero, add_zero]

theorem sumCoefs_unit_of_mem {x : V} {q : K} {coefs : List (V × K)}
    (hs : coefs.Pairwise fun a b => a.1 < b.1) (h : (x, q) ∈ coefs) :
    sumCoefs (unit x) coefs = q := by
  induction coefs with
  | nil => cases h
  | cons p coefs ih =>
    rw [List.pairwise_cons] at hs
    rw [sumCoefs_cons]
    rcases List.mem_cons.1 h with rfl | h
    · rw [sumCoefs_unit_of_notMem fun p hp => (hs.1 p hp).ne', unit, if_pos rfl, mul_one, add_zero]
    · rw [ih hs.2 h, unit, if_neg (hs.1 _ h).ne, mul_zero, zero_add]

theorem mem_coefs_iff (f : LinearForm V K) {x : V} {q : K} :
    (x, q) ∈ f.coefs ↔ q ≠ 0 ∧ sumCoefs (unit x) f.coefs = q := by
  constructor
  · intro h
    exact ⟨f.nonzero _ h, sumCoefs_unit_of_mem f.sorted h⟩
  · rintro ⟨hq, h⟩
    by_cases hx : ∃ p ∈ f.coefs, p.1 = x
    · obtain ⟨⟨x, r⟩, hp, rfl⟩ := hx
      rwa [← h, sumCoefs_unit_of_mem f.sorted hp]
    · refine absurd ?_ hq
      rw [← h]
      apply sumCoefs_unit_of_notMem
      intro p hp e
      exact hx ⟨p, hp, e⟩

theorem nodup_coefs (f : LinearForm V K) : f.coefs.Nodup :=
  f.sorted.imp fun h e => h.ne (congrArg Prod.fst e)

theorem ext_of_value {f g : LinearForm V K} (h : ∀ ρ, f.value ρ = g.value ρ) : f = g := by
  have hc : f.const = g.const := by simpa [value, sumCoefs_zero] using h fun _ => 0
  have hu : ∀ x, sumCoefs (unit x) f.coefs = sumCoefs (unit x) g.coefs := by
    intro x
    simpa [value, hc] using h (unit x)
  have hl : f.coefs = g.coefs := by
    apply List.Perm.eq_of_pairwise _ f.sorted g.sorted
    · apply (List.perm_ext_iff_of_nodup f.nodup_coefs g.nodup_coefs).2
      rintro ⟨x, q⟩
      rw [f.mem_coefs_iff, g.mem_coefs_iff, hu]
    · intro a b _ _ hab hba
      exact absurd (hab.trans hba) (lt_irrefl _)
  cases f
  cases g
  simp only at hc hl
  subst hc hl
  rfl

end LinearForm

end PVS.Library
