import Mathlib.Algebra.Group.Hom.Defs
import Mathlib.Algebra.Group.Nat.Hom
import Mathlib.Order.Nat

/-! The lexicographic order of the weights of the elements of a monoid. -/

universe u

namespace PVS.Library.WeightOrder

variable {M : Type u} [AddCommMonoid M]

/-- The first weight that differs is smaller. -/
def LexLt : List (M →+ ℕ) → M → M → Prop
  | [], _, _ => False
  | w :: ws, a, b => w a < w b ∨ w a = w b ∧ LexLt ws a b

variable {ws : List (M →+ ℕ)} {a b c : M}

theorem LexLt.irrefl (ws : List (M →+ ℕ)) (a : M) : ¬ LexLt ws a a := by
  induction ws with
  | nil => exact id
  | cons w ws ih =>
    rintro (h | h)
    · exact lt_irrefl _ h
    · exact ih h.2

theorem LexLt.trans (hab : LexLt ws a b) (hbc : LexLt ws b c) : LexLt ws a c := by
  induction ws with
  | nil => exact hab
  | cons w ws ih =>
    rcases hab with hab | ⟨hab, hab'⟩ <;> rcases hbc with hbc | ⟨hbc, hbc'⟩
    · exact .inl (hab.trans hbc)
    · exact .inl (hbc ▸ hab)
    · exact .inl (hab ▸ hbc)
    · exact .inr ⟨hab.trans hbc, ih hab' hbc'⟩

theorem LexLt.asymm (hab : LexLt ws a b) : ¬ LexLt ws b a :=
  fun hba => LexLt.irrefl ws a (hab.trans hba)

theorem lexLt_trichotomy (ws : List (M →+ ℕ)) (a b : M) :
    LexLt ws a b ∨ (∀ w ∈ ws, w a = w b) ∨ LexLt ws b a := by
  induction ws with
  | nil => exact .inr (.inl fun w hw => nomatch hw)
  | cons w ws ih =>
    rcases lt_trichotomy (w a) (w b) with h | h | h
    · exact .inl (.inl h)
    · rcases ih with h' | h' | h'
      · exact .inl (.inr ⟨h, h'⟩)
      · exact .inr (.inl (List.forall_mem_cons.2 ⟨h, h'⟩))
      · exact .inr (.inr (.inr ⟨h.symm, h'⟩))
    · exact .inr (.inr (.inl h))

theorem lexLt_add_left (c : M) : LexLt ws (c + a) (c + b) ↔ LexLt ws a b := by
  induction ws with
  | nil => exact Iff.rfl
  | cons w ws ih => rw [LexLt, LexLt, ih, map_add, map_add, Nat.add_lt_add_iff_left, Nat.add_left_cancel_iff]

/-- The weights before the one that decides are equal. -/
theorem lexLt_append {us : List (M →+ ℕ)} {w : M →+ ℕ} (heq : ∀ u ∈ us, u a = u b)
    (hlt : w a < w b) : LexLt (us ++ w :: ws) a b := by
  induction us with
  | nil => exact .inl hlt
  | cons u us ih =>
    rw [List.forall_mem_cons] at heq
    exact .inr ⟨heq.1, ih heq.2⟩

end PVS.Library.WeightOrder
