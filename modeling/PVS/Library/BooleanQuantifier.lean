import Mathlib

/-! Quantified Boolean functions; for `true` the quantifier is existential, for `false` universal. -/

namespace PVS.Library

/-- Points that differ in the variables of `S` only -/
def AgreeOff (S : Set ℕ) (ρ y : ℕ → Bool) : Prop := ∀ u ∉ S, y u = ρ u

/-- `ψ` takes the value `b` where `φ` does at a point that differs in `S` only. -/
def Quantifies (b : Bool) (S : Set ℕ) (φ ψ : (ℕ → Bool) → Bool) : Prop :=
  ∀ ρ, ψ ρ = b ↔ ∃ y, AgreeOff S ρ y ∧ φ y = b

/-- The function does not depend on the variable. -/
def Ignores (φ : (ℕ → Bool) → Bool) (v : ℕ) : Prop := ∀ ρ c, φ (Function.update ρ v c) = φ ρ

/-- The point with another value of `v` -/
def flipAt (v : ℕ) (ρ : ℕ → Bool) : ℕ → Bool := Function.update ρ v (!ρ v)

variable {b : Bool} {S : Set ℕ} {φ φ₁ φ₂ ψ ψ₁ ψ₂ ψ' : (ℕ → Bool) → Bool} {ρ y : ℕ → Bool} {u v : ℕ}

theorem AgreeOff.refl (S : Set ℕ) (ρ : ℕ → Bool) : AgreeOff S ρ ρ := fun _ _ => rfl

theorem AgreeOff.update (h : AgreeOff S ρ y) (hv : v ∈ S) (c : Bool) :
    AgreeOff S ρ (Function.update y v c) := by
  intro u hu
  have hne : u ≠ v := by
    rintro rfl
    exact hu hv
  rw [Function.update_of_ne hne, h u hu]

theorem flipAt_apply (v : ℕ) (ρ : ℕ → Bool) : flipAt v ρ v = !ρ v := Function.update_self _ _ _

theorem flipAt_apply_of_ne (h : u ≠ v) (ρ : ℕ → Bool) : flipAt v ρ u = ρ u :=
  Function.update_of_ne h _ _

theorem flipAt_flipAt (v : ℕ) (ρ : ℕ → Bool) : flipAt v (flipAt v ρ) = ρ := by
  funext u
  by_cases h : u = v
  · rw [h, flipAt_apply, flipAt_apply, Bool.not_not]
  · rw [flipAt_apply_of_ne h, flipAt_apply_of_ne h]

theorem AgreeOff.flip (h : AgreeOff S ρ y) (v : ℕ) : AgreeOff S (flipAt v ρ) (flipAt v y) := by
  intro u hu
  by_cases huv : u = v
  · rw [huv, flipAt_apply, flipAt_apply, h v (huv ▸ hu)]
  · rw [flipAt_apply_of_ne huv, flipAt_apply_of_ne huv, h u hu]

theorem Ignores.flipAt (h : Ignores φ v) (ρ : ℕ → Bool) : φ (flipAt v ρ) = φ ρ := h ρ _

theorem Ignores.and (hφ : Ignores φ v) (hψ : Ignores ψ v) : Ignores (fun ρ => φ ρ && ψ ρ) v :=
  fun ρ c => congrArg₂ Bool.and (hφ ρ c) (hψ ρ c)

theorem eq_of_eq_iff {x z : Bool} (h : x = b ↔ z = b) : x = z := by
  cases b <;> cases x <;> cases z <;> simp_all

namespace Quantifies

/-- A function that depends on no variable in `S` stays as it is. -/
theorem self (h : ∀ ρ y, AgreeOff S ρ y → φ y = φ ρ) : Quantifies b S φ φ := by
  intro ρ
  constructor
  · exact fun hb => ⟨ρ, .refl S ρ, hb⟩
  · rintro ⟨y, hy, hb⟩
    rwa [← h ρ y hy]

theorem congr (h : Quantifies b S φ ψ) (hψ : ∀ ρ, ψ' ρ = ψ ρ) : Quantifies b S φ ψ' := fun ρ => by
  rw [hψ]
  exact h ρ

theorem congr_left (h : Quantifies b S φ ψ) (hφ : ∀ ρ, φ₁ ρ = φ ρ) : Quantifies b S φ₁ ψ := by
  rwa [funext hφ]

theorem compl (h : Quantifies b S φ ψ) : Quantifies (!b) S (fun ρ => !φ ρ) fun ρ => !ψ ρ := by
  intro ρ
  simp only [Bool.not_inj_iff]
  exact h ρ

open Classical in
/-- A function can be quantified. -/
theorem exists_quantifies (b : Bool) (S : Set ℕ) (φ : (ℕ → Bool) → Bool) : ∃ ψ, Quantifies b S φ ψ := by
  refine ⟨fun ρ => if ∃ y, AgreeOff S ρ y ∧ φ y = b then b else !b, fun ρ => ?_⟩
  dsimp only
  split
  · rename_i h
    exact iff_of_true rfl h
  · rename_i h
    exact iff_of_false (by simp) h

/-- The quantifier of a variable joins both branches. -/
theorem mem (hv : v ∈ S) (hφ : ∀ ρ, φ ρ = if ρ v then φ₁ ρ else φ₂ ρ) (h₁ : Ignores φ₁ v)
    (h₂ : Ignores φ₂ v) (hq₁ : Quantifies b S φ₁ ψ₁) (hq₂ : Quantifies b S φ₂ ψ₂)
    (hψ : ∀ ρ, ψ ρ = b ↔ ψ₁ ρ = b ∨ ψ₂ ρ = b) : Quantifies b S φ ψ := by
  intro ρ
  rw [hψ, hq₁, hq₂]
  constructor
  · rintro (⟨y, hy, hb⟩ | ⟨y, hy, hb⟩)
    · exact ⟨_, hy.update hv true, by rw [hφ, Function.update_self, if_pos rfl, h₁, hb]⟩
    · exact ⟨_, hy.update hv false, by rw [hφ, Function.update_self, if_neg (by simp), h₂, hb]⟩
  · rintro ⟨y, hy, hb⟩
    rw [hφ] at hb
    split at hb
    · exact .inl ⟨y, hy, hb⟩
    · exact .inr ⟨y, hy, hb⟩

/-- Another variable stays on top. -/
theorem notMem (hv : v ∉ S) (hφ : ∀ ρ, φ ρ = if ρ v then φ₁ ρ else φ₂ ρ)
    (hq₁ : Quantifies b S φ₁ ψ₁) (hq₂ : Quantifies b S φ₂ ψ₂)
    (hψ : ∀ ρ, ψ ρ = if ρ v then ψ₁ ρ else ψ₂ ρ) : Quantifies b S φ ψ := by
  intro ρ
  rw [hψ]
  have hy : ∀ y, AgreeOff S ρ y → φ y = if ρ v then φ₁ y else φ₂ y := fun y hy => by
    rw [hφ, hy v hv]
  have hex : (∃ y, AgreeOff S ρ y ∧ φ y = b) ↔
      ∃ y, AgreeOff S ρ y ∧ (if ρ v then φ₁ y else φ₂ y) = b :=
    exists_congr fun y => and_congr_right fun h => by rw [hy y h]
  rw [hex]
  split
  · exact hq₁ ρ
  · exact hq₂ ρ

theorem flip (h : Quantifies b S φ ψ) (v : ℕ) :
    Quantifies b S (fun ρ => φ (flipAt v ρ)) fun ρ => ψ (flipAt v ρ) := by
  intro ρ
  rw [h]
  constructor
  · rintro ⟨y, hy, hb⟩
    refine ⟨flipAt v y, ?_, ?_⟩
    · have hflip := hy.flip v
      rwa [flipAt_flipAt] at hflip
    · rwa [← flipAt_flipAt v y] at hb
  · rintro ⟨y, hy, hb⟩
    exact ⟨_, hy.flip v, hb⟩

theorem ignores (h : Quantifies b S φ ψ) (hv : Ignores φ v) : Ignores ψ v := by
  intro ρ c
  refine eq_of_eq_iff (b := b) ?_
  rw [h, h]
  have key : ∀ {ρ ρ' : ℕ → Bool}, (∀ u, u ≠ v → ρ u = ρ' u) →
      (∃ y, AgreeOff S ρ y ∧ φ y = b) → ∃ y, AgreeOff S ρ' y ∧ φ y = b := by
    rintro ρ ρ' hρ ⟨y, hy, hb⟩
    refine ⟨Function.update y v (ρ' v), fun u hu => ?_, by rw [hv, hb]⟩
    by_cases huv : u = v
    · rw [huv, Function.update_self]
    · rw [Function.update_of_ne huv, hy u hu, hρ u huv]
  exact ⟨key fun u hu => Function.update_of_ne hu _ _,
    key fun u hu => (Function.update_of_ne hu _ _).symm⟩

end Quantifies

end PVS.Library
