import Mathlib

/-! Hash tables with chaining: the number of chains is a power of two, and an item is in the chain
of its hash value. -/

namespace PVS.Library

structure ChainedTable (α : Type) where
  log2size : ℕ
  entries : ℕ → List α

namespace ChainedTable

variable {α : Type} (hash : ℕ → α → ℕ)

def size (t : ChainedTable α) : ℕ := 2 ^ t.log2size

def items (t : ChainedTable α) : List α := (List.range t.size).flatMap t.entries

def empty (log2size : ℕ) : ChainedTable α := ⟨log2size, fun _ => []⟩

def insert (t : ChainedTable α) (a : α) : ChainedTable α :=
  { t with
    entries := Function.update t.entries (hash t.log2size a) (a :: t.entries (hash t.log2size a)) }

def filter (p : α → Bool) (t : ChainedTable α) : ChainedTable α :=
  { t with entries := fun i => (t.entries i).filter p }

/-- The items are inserted, chain after chain, in an empty table. -/
def rehash (t : ChainedTable α) (log2size : ℕ) : ChainedTable α :=
  t.items.foldl (insert hash) (empty log2size)

/-! ### The items of a table -/

theorem mem_items {t : ChainedTable α} {a : α} : a ∈ t.items ↔ ∃ i < t.size, a ∈ t.entries i := by
  simp [items, List.mem_flatMap]

@[simp]
theorem items_empty (k : ℕ) : (empty k : ChainedTable α).items = [] := by
  simp [items, empty]

/-- One list of a concatenation gets one more item. -/
theorem flatMap_perm_cons {l : List ℕ} (hl : l.Nodup) {i : ℕ} (hi : i ∈ l) {f g : ℕ → List α} {a : α}
    (h : (g i).Perm (a :: f i)) (hoff : ∀ j ∈ l, j ≠ i → g j = f j) :
    (l.flatMap g).Perm (a :: l.flatMap f) := by
  induction l with
  | nil => cases hi
  | cons j l ih =>
    rw [List.nodup_cons] at hl
    rw [List.flatMap_cons, List.flatMap_cons]
    by_cases hij : i = j
    · subst hij
      have htail : l.flatMap g = l.flatMap f := by
        refine List.flatMap_congr fun k hk => hoff k (List.mem_cons_of_mem _ hk) ?_
        rintro rfl
        exact hl.1 hk
      rw [htail]
      exact h.append_right _
    · rw [hoff j List.mem_cons_self (Ne.symm hij)]
      have hmem := ih hl.2 (List.mem_of_ne_of_mem hij hi)
        fun k hk => hoff k (List.mem_cons_of_mem _ hk)
      exact (hmem.append_left _).trans List.perm_middle

theorem items_insert (t : ChainedTable α) {a : α} (ha : hash t.log2size a < t.size) :
    (t.insert hash a).items.Perm (a :: t.items) := by
  refine flatMap_perm_cons List.nodup_range (List.mem_range.2 ha) ?_ fun j _ hj => ?_
  · simp [insert]
  · exact Function.update_of_ne hj _ _

theorem items_filter (p : α → Bool) (t : ChainedTable α) : (t.filter p).items = t.items.filter p := by
  simp only [items, filter, List.filter_flatMap]
  rfl

/-! ### Items in the chains of their hash values -/

def Hashed (t : ChainedTable α) : Prop := ∀ i, ∀ a ∈ t.entries i, hash t.log2size a = i

variable {hash}

theorem hashed_empty (k : ℕ) : (empty k : ChainedTable α).Hashed hash := fun _ _ ha => absurd ha List.not_mem_nil

theorem Hashed.insert {t : ChainedTable α} (ht : t.Hashed hash) (a : α) :
    (t.insert hash a).Hashed hash := by
  intro i b hb
  change hash t.log2size b = i
  by_cases hi : i = hash t.log2size a
  · subst hi
    simp only [ChainedTable.insert, Function.update_self, List.mem_cons] at hb
    rcases hb with rfl | hb
    · rfl
    · exact ht _ b hb
  · simp only [ChainedTable.insert, Function.update_of_ne hi] at hb
    exact ht i b hb

theorem Hashed.filter {t : ChainedTable α} (ht : t.Hashed hash) (p : α → Bool) :
    (t.filter p).Hashed hash :=
  fun i a ha => ht i a (List.mem_of_mem_filter ha)

theorem Hashed.congr {hash' : ℕ → α → ℕ} {t : ChainedTable α} (ht : t.Hashed hash)
    (h : ∀ i, ∀ a ∈ t.entries i, hash' t.log2size a = hash t.log2size a) : t.Hashed hash' :=
  fun i a ha => (h i a ha).trans (ht i a ha)

/-- A search for an item only needs the chain of its hash value. -/
theorem Hashed.mem_items_iff {t : ChainedTable α} (ht : t.Hashed hash)
    (hlt : ∀ k a, hash k a < 2 ^ k) {a : α} :
    a ∈ t.items ↔ a ∈ t.entries (hash t.log2size a) := by
  rw [mem_items]
  constructor
  · rintro ⟨i, _, ha⟩
    rwa [ht i a ha]
  · exact fun ha => ⟨_, hlt _ _, ha⟩

variable (hash)

theorem log2size_foldl_insert (l : List α) (t : ChainedTable α) :
    (l.foldl (insert hash) t).log2size = t.log2size := by
  induction l generalizing t with
  | nil => rfl
  | cons a l ih => rw [List.foldl_cons, ih, insert]

@[simp]
theorem log2size_rehash (t : ChainedTable α) (k : ℕ) : (t.rehash hash k).log2size = k :=
  log2size_foldl_insert hash t.items (empty k)

variable {hash}

theorem Hashed.foldl_insert {t : ChainedTable α} (ht : t.Hashed hash) (l : List α) :
    (l.foldl (ChainedTable.insert hash) t).Hashed hash := by
  induction l generalizing t with
  | nil => exact ht
  | cons a l ih => exact ih (ht.insert a)

theorem hashed_rehash (t : ChainedTable α) (k : ℕ) : (t.rehash hash k).Hashed hash :=
  (hashed_empty k).foldl_insert t.items

theorem items_foldl_insert (hlt : ∀ k a, hash k a < 2 ^ k) (l : List α) (t : ChainedTable α) :
    (l.foldl (insert hash) t).items.Perm (l ++ t.items) := by
  induction l generalizing t with
  | nil => exact .refl _
  | cons a l ih =>
    rw [List.foldl_cons]
    exact (ih (t.insert hash a)).trans
      (((items_insert hash t (hlt _ _)).append_left l).trans List.perm_middle)

/-- A table has the same items after its size was changed. -/
theorem items_rehash (hlt : ∀ k a, hash k a < 2 ^ k) (t : ChainedTable α) (k : ℕ) :
    (t.rehash hash k).items.Perm t.items := by
  have := items_foldl_insert hlt t.items (empty k)
  rwa [items_empty, List.append_nil] at this

end ChainedTable

end PVS.Library
