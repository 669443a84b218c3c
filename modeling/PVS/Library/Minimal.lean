import Mathlib.Data.List.Pairwise

/-! Lists of minimal elements of a preorder that is given as a test. -/

universe u

namespace PVS.Library

variable {α : Type u} (le : α → α → Bool)

/-- The list with an element, unless one of the list is below it; those above it go. -/
def insertMinimal (a : α) (l : List α) : List α :=
  if l.any fun b => le b a then l else a :: l.filter fun b => !le a b

/-- The test is transitive on a list. -/
def TransOn (l : List α) : Prop :=
  ∀ a ∈ l, ∀ b ∈ l, ∀ c ∈ l, le a b = true → le b c = true → le a c = true

/-- The list is what is minimal of the elements that were added. -/
structure MinimalOf (added l : List α) : Prop where
  subset : l ⊆ added
  covers : ∀ a ∈ added, ∃ b ∈ l, le b a = true
  antichain : l.Pairwise fun a b => le a b = false ∧ le b a = false

variable {le} {added added' l l' : List α} {a : α}

theorem TransOn.mono (h : TransOn le l') (hsub : l ⊆ l') : TransOn le l :=
  fun a ha b hb c hc => h a (hsub ha) b (hsub hb) c (hsub hc)

namespace MinimalOf

theorem nil : MinimalOf le [] [] where
  subset _ h := h
  covers _ h := nomatch h
  antichain := .nil

theorem eq_of_le (h : MinimalOf le added l) {b c : α} (hb : b ∈ l) (hc : c ∈ l)
    (hle : le b c = true) : b = c := by
  by_contra hne
  have : Std.Symm fun a b => le a b = false ∧ le b a = false := ⟨fun _ _ h => h.symm⟩
  have hnot := (h.antichain.forall hb hc hne).1
  rw [hle] at hnot
  cases hnot

/-- What was added does not matter but for its elements. -/
theorem congr (h : MinimalOf le added l) (hsame : ∀ a, a ∈ added ↔ a ∈ added') :
    MinimalOf le added' l where
  subset a ha := (hsame a).1 (h.subset ha)
  covers a ha := h.covers a ((hsame a).2 ha)
  antichain := h.antichain

theorem insertMinimal (h : MinimalOf le added l) (hrefl : ∀ a, le a a = true)
    (htrans : TransOn le (a :: added)) : MinimalOf le (a :: added) (insertMinimal le a l) := by
  unfold Library.insertMinimal
  split
  · rename_i hany
    obtain ⟨b, hb, hle⟩ := List.any_eq_true.1 hany
    refine ⟨fun c hc => List.mem_cons_of_mem _ (h.subset hc), ?_, h.antichain⟩
    intro c hc
    obtain rfl | hc := List.mem_cons.1 hc
    · exact ⟨b, hb, hle⟩
    · exact h.covers c hc
  · rename_i hany
    rw [Bool.not_eq_true, List.any_eq_false] at hany
    refine ⟨?_, ?_, ?_⟩
    · intro c hc
      obtain rfl | hc := List.mem_cons.1 hc
      · exact List.mem_cons_self
      · exact List.mem_cons_of_mem _ (h.subset (List.mem_filter.1 hc).1)
    · intro c hc
      obtain rfl | hc := List.mem_cons.1 hc
      · exact ⟨c, List.mem_cons_self, hrefl c⟩
      · obtain ⟨b, hb, hle⟩ := h.covers c hc
        by_cases hab : le a b = true
        · refine ⟨a, List.mem_cons_self, ?_⟩
          exact htrans a List.mem_cons_self b (.tail _ (h.subset hb)) c (.tail _ hc) hab hle
        · exact ⟨b, List.mem_cons_of_mem _ (List.mem_filter.2 ⟨hb, by simpa using hab⟩), hle⟩
    · rw [List.pairwise_cons]
      refine ⟨?_, h.antichain.filter _⟩
      intro b hb
      rw [List.mem_filter, Bool.not_eq_true'] at hb
      exact ⟨hb.2, Bool.eq_false_iff.2 (hany b hb.1)⟩

theorem foldl (h : MinimalOf le added l) (hrefl : ∀ a, le a a = true) (news : List α)
    (htrans : TransOn le (added ++ news)) :
    MinimalOf le (added ++ news) (news.foldl (fun l a => Library.insertMinimal le a l) l) := by
  induction news generalizing added l with
  | nil => rwa [List.append_nil]
  | cons a news ih =>
    have hsame : ∀ b, b ∈ a :: (added ++ news) ↔ b ∈ added ++ a :: news := by
      intro b
      simp only [List.mem_cons, List.mem_append]
      exact or_left_comm
    have htrans' : TransOn le (a :: added ++ news) := htrans.mono fun b hb => (hsame b).1 hb
    have hstep := h.insertMinimal hrefl (htrans'.mono (List.subset_append_left ..))
    exact (ih hstep htrans').congr hsame

/-- Elements of the list may be added. -/
theorem append_of_subset (h : MinimalOf le added l) (hrefl : ∀ a, le a a = true) {news : List α}
    (hsub : news ⊆ l) : MinimalOf le (added ++ news) l where
  subset _ ha := List.mem_append_left _ (h.subset ha)
  covers a ha := by
    obtain ha | ha := List.mem_append.1 ha
    · exact h.covers a ha
    · exact ⟨a, hsub ha, hrefl a⟩
  antichain := h.antichain

/-- Whatever the order, an element that is kept is equivalent to one that is kept. -/
theorem exists_equiv (h : MinimalOf le added l) (h' : MinimalOf le added' l')
    (hsame : ∀ a, a ∈ added ↔ a ∈ added') (htrans : TransOn le added) :
    ∀ b ∈ l, ∃ c ∈ l', le b c = true ∧ le c b = true := by
  intro b hb
  have hbadded := h.subset hb
  obtain ⟨c, hc, hcb⟩ := h'.covers b ((hsame b).1 hbadded)
  have hcadded := (hsame c).2 (h'.subset hc)
  obtain ⟨b', hb', hb'c⟩ := h.covers c hcadded
  have hb'b := htrans b' (h.subset hb') c hcadded b hbadded hb'c hcb
  rw [h.eq_of_le hb' hb hb'b] at hb'c
  exact ⟨c, hc, hb'c, hcb⟩

end MinimalOf

end PVS.Library
