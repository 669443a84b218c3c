import Mathlib.Data.List.Induction

/-! A table that keeps, under a key, the first value that was met with it. -/

namespace PVS.Library

variable {α κ β : Type} [DecidableEq κ] (key : α → κ)

/-- The value used for `a`: the one in the table under its key, else `a` itself, which is added. -/
def memoUse (table : List (κ × α)) (a : α) : α × List (κ × α) :=
  match table.lookup (key a) with
  | some c => (c, table)
  | none => (a, table ++ [(key a, a)])

/-- The table after the values of a list were met. -/
def memoTable (l : List α) : List (κ × α) := l.foldl (fun t a => (memoUse key t a).2) []

variable {key}

theorem lookup_concat (t : List (κ × α)) (j k : κ) (a : α) :
    (t ++ [(j, a)]).lookup k = (t.lookup k).or (if k = j then some a else none) := by
  induction t with
  | nil =>
    by_cases h : k = j
    · simp [h]
    · simp [h, List.lookup_cons, beq_eq_false_iff_ne.2 h]
  | cons p t ih =>
    rw [List.cons_append, List.lookup_cons, List.lookup_cons, ih]
    cases k == p.1 <;> rfl

/-- The table holds the first value with each key. -/
theorem lookup_memoTable (l : List α) (k : κ) :
    (memoTable key l).lookup k = l.find? fun a => key a = k := by
  induction l using List.reverseRecOn with
  | nil => rfl
  | append_singleton l a ih =>
    have hstep : memoTable key (l ++ [a]) = (memoUse key (memoTable key l) a).2 := by
      simp [memoTable]
    rw [hstep, List.find?_append, memoUse]
    cases ha : (memoTable key l).lookup (key a) with
    | some c =>
      simp only
      rw [ih]
      by_cases hk : key a = k
      · rw [hk, ih] at ha
        simp [ha]
      · simp [hk]
    | none =>
      simp only
      rw [lookup_concat, ih]
      by_cases hk : key a = k
      · simp [hk]
      · simp [hk, Ne.symm hk]

theorem memoUse_memoTable (l : List α) (a : α) :
    (memoUse key (memoTable key l) a).1 = (l.find? fun b => key b = key a).getD a := by
  rw [← lookup_memoTable l (key a), memoUse]
  cases (memoTable key l).lookup (key a) <;> rfl

variable (key)

/-- The value used for a member of the list that was met. -/
theorem exists_memoUse {l : List α} {a : α} (ha : a ∈ l) :
    ∃ c ∈ l, key c = key a ∧ (memoUse key (memoTable key l) a).1 = c := by
  rw [memoUse_memoTable]
  cases hc : l.find? fun b => key b = key a with
  | none =>
    have hne := List.find?_eq_none.1 hc a ha
    simp at hne
  | some c =>
    exact ⟨c, List.mem_of_find?_eq_some hc, by simpa using List.find?_some hc, rfl⟩

/-- What is used has the property `f` of what it is used for, at every step, just when the key
determines the property on the list. -/
theorem forall_memoUse_iff (f : α → β) (l : List α) :
    (∀ p a, p ++ [a] <+: l → f (memoUse key (memoTable key p) a).1 = f a) ↔
      ∀ a ∈ l, ∀ b ∈ l, key a = key b → f a = f b := by
  constructor
  · intro h
    -- both are the first value with their key
    have hfirst : ∀ a ∈ l, ∀ c, (l.find? fun b => key b = key a) = some c → f c = f a := by
      intro a ha c hc
      obtain ⟨p, q, rfl⟩ := List.append_of_mem ha
      have hused := h p a ⟨q, by simp⟩
      rw [memoUse_memoTable] at hused
      rw [List.find?_append] at hc
      cases hp : p.find? fun b => key b = key a with
      | some d =>
        rw [hp] at hc hused
        obtain rfl : d = c := by simpa using hc
        exact hused
      | none =>
        rw [hp] at hc
        obtain rfl : a = c := by simpa using hc
        rfl
    intro a ha b hb hk
    cases hc : l.find? fun d => key d = key a with
    | none =>
      have hne := List.find?_eq_none.1 hc a ha
      simp at hne
    | some c =>
      rw [← hfirst a ha c hc]
      apply hfirst b hb c
      rw [← hk]
      exact hc
  · rintro h p a ⟨q, rfl⟩
    rw [memoUse_memoTable]
    cases hc : p.find? fun b => key b = key a with
    | none => rfl
    | some c =>
      have hmem := List.mem_of_find?_eq_some hc
      exact h c (by simp [hmem]) a (by simp) (by simpa using List.find?_some hc)

end PVS.Library
