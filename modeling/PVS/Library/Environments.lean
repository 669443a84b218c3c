import Mathlib.Logic.Function.Basic
import Mathlib.Tactic.Linarith

/-! Environments of indices that count from 1 over binders of several arguments. -/

universe u

namespace PVS.Library.Environments

variable {V : Type u}

/-- The indices from 1 to `m` are the arguments of the binder. -/
def extend {m : ℕ} (vs : Fin m → V) (env : ℕ → V) (i : ℕ) : V :=
  if h : 0 < i ∧ i ≤ m then vs ⟨i - 1, by omega⟩ else env (i - m)

/-- The indices after `depth` are `up` further out. -/
def skip (up depth : ℕ) (env : ℕ → V) (i : ℕ) : V := if i ≤ depth then env i else env (i + up)

/-- The indices after `depth` are first the `vs`. -/
def insertAt {m : ℕ} (vs : Fin m → V) (depth : ℕ) (env : ℕ → V) (i : ℕ) : V :=
  if h : depth < i ∧ i ≤ depth + m then vs ⟨i - (depth + 1), by omega⟩
  else if i ≤ depth then env i else env (i - m)

theorem extend_of_le {m i : ℕ} (vs : Fin m → V) (env : ℕ → V) (hpos : 0 < i) (hle : i ≤ m) :
    extend vs env i = vs ⟨i - 1, by omega⟩ := dif_pos ⟨hpos, hle⟩

theorem extend_of_lt {m i : ℕ} (vs : Fin m → V) (env : ℕ → V) (hlt : m < i) :
    extend vs env i = env (i - m) := dif_neg fun h => absurd h.2 (by omega)

theorem extend_zero {m : ℕ} (vs : Fin m → V) (env : ℕ → V) : extend vs env 0 = env 0 := by
  rw [extend, dif_neg fun h => absurd h.1 (by omega), Nat.zero_sub]

@[simp] theorem skip_zero (depth : ℕ) (env : ℕ → V) : skip 0 depth env = env := by
  funext i
  rw [skip, Nat.add_zero, ite_self]

theorem skip_extend {m : ℕ} (up depth : ℕ) (vs : Fin m → V) (env : ℕ → V) :
    skip up (depth + m) (extend vs env) = extend vs (skip up depth env) := by
  funext i
  rcases Nat.eq_zero_or_pos i with rfl | hpos
  · rw [extend_zero, skip, skip, if_pos (Nat.zero_le _), if_pos (Nat.zero_le _), extend_zero]
  · by_cases hle : i ≤ m
    · rw [skip, if_pos (by omega), extend_of_le vs _ hpos hle, extend_of_le vs _ hpos hle]
    · rw [skip, extend_of_lt vs (skip up depth env) (by omega), skip]
      by_cases hdepth : i - m ≤ depth
      · rw [if_pos hdepth, if_pos (by omega), extend_of_lt vs _ (by omega)]
      · rw [if_neg hdepth, if_neg (by omega), extend_of_lt vs _ (by omega)]
        exact congrArg env (by omega)

theorem insertAt_of_le {m depth i : ℕ} (vs : Fin m → V) (env : ℕ → V) (hle : i ≤ depth) :
    insertAt vs depth env i = env i := by
  rw [insertAt, dif_neg (by omega), if_pos hle]

theorem insertAt_of_lt {m depth i : ℕ} (vs : Fin m → V) (env : ℕ → V) (hlt : depth + m < i) :
    insertAt vs depth env i = env (i - m) := by
  rw [insertAt, dif_neg (by omega), if_neg (by omega)]

theorem insertAt_extend {m n : ℕ} (vs : Fin m → V) (ws : Fin n → V) (depth : ℕ) (env : ℕ → V) :
    insertAt ws (depth + m) (extend vs env) = extend vs (insertAt ws depth env) := by
  funext i
  rcases Nat.eq_zero_or_pos i with rfl | hpos
  · rw [extend_zero, insertAt_of_le _ _ (Nat.zero_le _), insertAt_of_le _ _ (Nat.zero_le _), extend_zero]
  · by_cases hle : i ≤ m
    · rw [insertAt_of_le _ _ (by omega), extend_of_le vs _ hpos hle, extend_of_le vs _ hpos hle]
    · rw [extend_of_lt vs (insertAt ws depth env) (by omega)]
      by_cases hdepth : i - m ≤ depth
      · rw [insertAt_of_le _ _ hdepth, insertAt_of_le _ _ (by omega), extend_of_lt vs _ (by omega)]
      · by_cases hin : i ≤ depth + m + n
        · rw [insertAt, dif_pos ⟨by omega, hin⟩, insertAt, dif_pos ⟨by omega, by omega⟩]
          exact congrArg ws (Fin.ext (by simp only; omega))
        · rw [insertAt_of_lt _ _ (by omega), insertAt_of_lt _ _ (by omega), extend_of_lt vs _ (by omega)]
          exact congrArg env (by omega)

theorem insertAt_zero {m : ℕ} (vs : Fin m → V) (env : ℕ → V) : insertAt vs 0 env = extend vs env := by
  funext i
  rcases Nat.eq_zero_or_pos i with rfl | hpos
  · rw [extend_zero, insertAt_of_le _ _ le_rfl]
  · by_cases hle : i ≤ m
    · rw [insertAt, dif_pos ⟨hpos, by omega⟩, extend_of_le vs _ hpos hle]
    · rw [insertAt_of_lt _ _ (by omega), extend_of_lt vs _ (by omega)]

/-- The arguments of the binders within are out of the way of what is bumped over them. -/
theorem skip_extend_zero {m : ℕ} (depth : ℕ) (vs : Fin m → V) (env : ℕ → V) :
    skip (depth + m) 0 (extend vs env) = skip depth 0 env := by
  funext i
  rw [skip, skip]
  rcases Nat.eq_zero_or_pos i with rfl | hpos
  · rw [if_pos le_rfl, if_pos le_rfl, extend_zero]
  · rw [if_neg (by omega), if_neg (by omega), extend_of_lt vs _ (by omega)]
    exact congrArg env (by omega)

end PVS.Library.Environments
