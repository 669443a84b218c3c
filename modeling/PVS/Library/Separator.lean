import Mathlib.Data.List.Basic

/-! Lists that are joined with a separator. -/

namespace PVS.Library

variable {α : Type}

/-- The second part does not contain the separator, so the last separator is the one that joins. -/
theorem append_cons_eq_iff {s : α} {a b c d : List α} (hb : s ∉ b) (hd : s ∉ d) :
    a ++ s :: b = c ++ s :: d ↔ a = c ∧ b = d := by
  constructor
  · intro h
    obtain ⟨w, hc, hw⟩ | ⟨w, ha, hw⟩ := List.append_eq_append_iff.1 h
    · cases w with
      | nil =>
        rw [List.append_nil] at hc
        exact ⟨hc.symm, (List.cons.inj hw).2⟩
      | cons x w =>
        have hmem : b = w ++ s :: d := (List.cons.inj hw).2
        exact absurd (hmem ▸ List.mem_append_right _ (List.mem_cons_self ..)) hb
    · cases w with
      | nil =>
        rw [List.append_nil] at ha
        exact ⟨ha, (List.cons.inj hw).2.symm⟩
      | cons x w =>
        have hmem : d = w ++ s :: b := (List.cons.inj hw).2
        exact absurd (hmem ▸ List.mem_append_right _ (List.mem_cons_self ..)) hd
  · rintro ⟨rfl, rfl⟩
    rfl

/-- The first part of one goes on beyond the separator of the other. -/
def Shifted (s : α) (a b c d : List α) : Prop :=
  (c = a ++ [s] ∧ b = s :: d) ∨ ∃ u, c = a ++ s :: s :: u ∧ b = u ++ s :: s :: d

theorem eq_or_shifted {s : α} {a b c d w : List α} (hc : c = a ++ w)
    (hw : s :: s :: b = w ++ s :: s :: d) : (a = c ∧ b = d) ∨ Shifted s a b c d := by
  cases w with
  | nil =>
    rw [List.append_nil] at hc
    exact .inl ⟨hc.symm, (List.cons.inj (List.cons.inj hw).2).2⟩
  | cons x w =>
    rw [List.cons_append, List.cons.injEq] at hw
    obtain ⟨rfl, hw⟩ := hw
    cases w with
    | nil => exact .inr (.inl ⟨hc, (List.cons.inj hw).2⟩)
    | cons y u =>
      rw [List.cons_append, List.cons.injEq] at hw
      obtain ⟨rfl, hw⟩ := hw
      exact .inr (.inr ⟨u, hc, hw⟩)

theorem append_cons_cons_eq_iff {s : α} {a b c d : List α} :
    a ++ s :: s :: b = c ++ s :: s :: d ↔
      (a = c ∧ b = d) ∨ Shifted s a b c d ∨ Shifted s c d a b := by
  constructor
  · intro h
    obtain ⟨w, hc, hw⟩ | ⟨w, ha, hw⟩ := List.append_eq_append_iff.1 h
    · obtain h | h := eq_or_shifted hc hw
      · exact .inl h
      · exact .inr (.inl h)
    · obtain ⟨hca, hdb⟩ | h := eq_or_shifted ha hw
      · exact .inl ⟨hca.symm, hdb.symm⟩
      · exact .inr (.inr h)
  · rintro (⟨rfl, rfl⟩ | (⟨rfl, rfl⟩ | ⟨u, rfl, rfl⟩) | (⟨rfl, rfl⟩ | ⟨u, rfl, rfl⟩)) <;> simp

end PVS.Library
