import Mathlib

/-! Depth-first traversal of the marked nodes of a graph, which unmarks them. -/

namespace PVS.Library

variable {α : Type}

/-- The nodes that are visited from `v` on, in order, and those that are still marked. -/
def preorder [DecidableEq α] (succ : α → List α) : ℕ → List α → α → List α × List α
  | 0, marked, _ => ([], marked)
  | n + 1, marked, v =>
    (succ v).foldl (fun r w =>
      if w ∈ r.2 then (r.1 ++ (preorder succ n r.2 w).1, (preorder succ n r.2 w).2) else r)
      ([v], marked.erase v)

/-- A path through marked nodes -/
inductive Within (succ : α → List α) (marked : List α) : α → α → Prop
  | refl {v : α} : v ∈ marked → Within succ marked v v
  | step {v w a : α} : v ∈ marked → w ∈ succ v → Within succ marked w a → Within succ marked v a

variable {succ : α → List α} {marked marked' : List α} {u v w a : α} {n : ℕ}

namespace Within

theorem left (h : Within succ marked v a) : v ∈ marked := by
  cases h with
  | refl hv => exact hv
  | step hv _ _ => exact hv

theorem right (h : Within succ marked v a) : a ∈ marked := by
  induction h with
  | refl hv => exact hv
  | step _ _ _ ih => exact ih

theorem trans (h : Within succ marked u v) (h' : Within succ marked v a) : Within succ marked u a := by
  induction h with
  | refl _ => exact h'
  | step hv hw _ ih => exact .step hv hw (ih h')

theorem mono (h : Within succ marked v a) (hsub : marked ⊆ marked') : Within succ marked' v a := by
  induction h with
  | refl hv => exact .refl (hsub hv)
  | step hv hw _ ih => exact .step (hsub hv) hw ih

theorem congr {succ' : α → List α} (h : Within succ marked v a) (hsucc : ∀ u ∈ marked, succ' u = succ u) :
    Within succ' marked v a := by
  induction h with
  | refl hv => exact .refl hv
  | step hv hw _ ih => exact .step hv (by rwa [hsucc _ hv]) ih

variable [DecidableEq α]

/-- A path stays among the nodes that are left, or meets one that is not. -/
theorem stays_or (h : Within succ marked v a) (rest : List α) :
    Within succ rest v a ∨ ∃ x ∈ marked, x ∉ rest ∧ Within succ marked x a := by
  induction h with
  | @refl v hv =>
    by_cases hmem : v ∈ rest
    · exact .inl (.refl hmem)
    · exact .inr ⟨v, hv, hmem, .refl hv⟩
  | @step v w a hv hw h ih =>
    rcases ih with hstay | hmeet
    · by_cases hmem : v ∈ rest
      · exact .inl (.step hmem hw hstay)
      · exact .inr ⟨v, hv, hmem, .step hv hw h⟩
    · exact .inr hmeet

/-- After its last visit to `v` a path goes on without it. -/
theorem after (h : Within succ marked u a) (hne : a ≠ v) : Within succ (marked.erase v) u a ∨
    ∃ w ∈ succ v, Within succ (marked.erase v) w a := by
  induction h with
  | refl hu => exact .inl (.refl ((List.mem_erase_of_ne hne).2 hu))
  | @step u w a hu hw _ ih =>
    rcases ih hne with hstay | hafter
    · by_cases huv : u = v
      · exact .inr ⟨w, huv ▸ hw, hstay⟩
      · exact .inl (.step ((List.mem_erase_of_ne huv).2 hu) hw hstay)
    · exact .inr hafter

end Within

/-- What a traversal from `roots` does: it visits what is reached within the marked nodes, once. -/
structure Traverses (succ : α → List α) (marked : List α) (roots : List α) (visited left : List α) :
    Prop where
  perm : (visited ++ left).Perm marked
  within : ∀ a ∈ visited, ∃ w ∈ roots, Within succ marked w a
  left : ∀ a ∈ left, ∀ w ∈ roots, ¬Within succ marked w a

theorem Traverses.nil : Traverses succ marked [] [] marked :=
  ⟨.refl _, fun _ h => absurd h List.not_mem_nil, fun _ _ _ h => absurd h List.not_mem_nil⟩

/-- A node that is not marked is passed over. -/
theorem Traverses.skip {roots visited left : List α} (hw : w ∉ marked)
    (h : Traverses succ marked roots visited left) :
    Traverses succ marked (w :: roots) visited left where
  perm := h.perm
  within a ha := by
    obtain ⟨u, hu, hwithin⟩ := h.within a ha
    exact ⟨u, List.mem_cons_of_mem _ hu, hwithin⟩
  left a ha u hu hwithin := by
    rcases List.mem_cons.1 hu with rfl | hu
    · exact hw hwithin.left
    · exact h.left a ha u hu hwithin

variable [DecidableEq α]

theorem Traverses.append {roots visited visited' left left' : List α}
    (h : Traverses succ marked [w] visited left) (h' : Traverses succ left roots visited' left') :
    Traverses succ marked (w :: roots) (visited ++ visited') left' := by
  have hsub : left ⊆ marked := fun a ha => h.perm.mem_iff.1 (List.mem_append_right _ ha)
  constructor
  · rw [List.append_assoc]
    exact (h'.perm.append_left visited).trans h.perm
  · intro a ha
    rcases List.mem_append.1 ha with ha | ha
    · obtain ⟨u, hu, hwithin⟩ := h.within a ha
      obtain rfl := List.mem_singleton.1 hu
      exact ⟨u, List.mem_cons_self, hwithin⟩
    · obtain ⟨u, hu, hwithin⟩ := h'.within a ha
      exact ⟨u, List.mem_cons_of_mem _ hu, hwithin.mono hsub⟩
  · intro a ha u hu hwithin
    have haleft : a ∈ left := h'.perm.mem_iff.1 (List.mem_append_right _ ha)
    rcases List.mem_cons.1 hu with rfl | hu
    · exact h.left a haleft u (List.mem_singleton.2 rfl) hwithin
    · rcases hwithin.stays_or left with hstay | ⟨x, hx, hxleft, hxa⟩
      · exact h'.left a ha u hu hstay
      · -- `x` was visited from `w`, so `a` was too
        have hxvis : x ∈ visited := by
          rcases List.mem_append.1 (h.perm.mem_iff.2 hx) with hmem | hmem
          · exact hmem
          · exact absurd hmem hxleft
        obtain ⟨y, hy, hwx⟩ := h.within x hxvis
        obtain rfl := List.mem_singleton.1 hy
        exact h.left a haleft y (List.mem_singleton.2 rfl) (hwx.trans hxa)

theorem traverses_foldl (visit : List α → α → List α × List α) (roots acc : List α)
    (hnodup : marked.Nodup) (hvisit : ∀ {m : List α}, m.Nodup → m.length ≤ marked.length → ∀ w ∈ m,
      Traverses succ m [w] (visit m w).1 (visit m w).2) :
    ∃ visited left, roots.foldl (fun r w =>
        if w ∈ r.2 then (r.1 ++ (visit r.2 w).1, (visit r.2 w).2) else r) (acc, marked) =
      (acc ++ visited, left) ∧ Traverses succ marked roots visited left := by
  induction roots generalizing marked acc with
  | nil => exact ⟨[], marked, by rw [List.append_nil]; rfl, .nil⟩
  | cons w roots ih =>
    rw [List.foldl_cons]
    by_cases hw : w ∈ marked
    · have h := hvisit hnodup le_rfl w hw
      have hleft : (visit marked w).2.Nodup :=
        (List.nodup_append.1 (h.perm.nodup_iff.2 hnodup)).2.1
      have hlen : (visit marked w).2.length ≤ marked.length := by
        rw [← h.perm.length_eq, List.length_append]
        exact Nat.le_add_left _ _
      obtain ⟨visited, left, heq, h'⟩ := ih (acc ++ (visit marked w).1) hleft
        fun hm hle => hvisit hm (hle.trans hlen)
      refine ⟨(visit marked w).1 ++ visited, left, ?_, h.append h'⟩
      rw [if_pos hw, heq, List.append_assoc]
    · obtain ⟨visited, left, heq, h'⟩ := ih acc hnodup hvisit
      exact ⟨visited, left, by rw [if_neg hw, heq], h'.skip hw⟩

/-- Every node that is reached from `v` within the marked ones is visited once, and no other. -/
theorem traverses_preorder (hnodup : marked.Nodup) (hlen : marked.length ≤ n) (hv : v ∈ marked) :
    Traverses succ marked [v] (preorder succ n marked v).1 (preorder succ n marked v).2 := by
  induction n generalizing marked v with
  | zero =>
    rw [List.length_eq_zero_iff.1 (Nat.le_zero.1 hlen)] at hv
    cases hv
  | succ n ih =>
    have hlen' := List.length_erase_of_mem hv
    obtain ⟨visited, left, heq, h⟩ := traverses_foldl (preorder succ n) (succ v) [v]
      (hnodup.erase v) fun hm hle w hw => ih hm (by omega) hw
    rw [preorder, heq]
    have hsub : marked.erase v ⊆ marked := List.erase_subset
    constructor
    · rw [List.append_assoc, List.singleton_append]
      exact (h.perm.cons v).trans (List.perm_cons_erase hv).symm
    · intro a ha
      refine ⟨v, List.mem_singleton.2 rfl, ?_⟩
      rcases List.mem_append.1 ha with ha | ha
      · obtain rfl := List.mem_singleton.1 ha
        exact .refl hv
      · obtain ⟨w, hw, hwithin⟩ := h.within a ha
        exact .step hv hw (hwithin.mono hsub)
    · intro a ha w hw hwithin
      obtain rfl := List.mem_singleton.1 hw
      have hmem : a ∈ marked.erase w := h.perm.mem_iff.1 (List.mem_append_right _ ha)
      have hne : a ≠ w := by
        rintro rfl
        exact hnodup.not_mem_erase hmem
      rcases hwithin.after hne with hstay | ⟨u, hu, hwithin'⟩
      · exact hnodup.not_mem_erase hstay.left
      · exact h.left a ha u hu hwithin'

/-- Where all marked nodes are reached, all are visited. -/
theorem perm_preorder (hnodup : marked.Nodup) (hv : v ∈ marked)
    (h : ∀ a ∈ marked, Within succ marked v a) :
    (preorder succ marked.length marked v).1.Perm marked := by
  have htrav : Traverses succ marked [v] (preorder succ marked.length marked v).1
      (preorder succ marked.length marked v).2 := traverses_preorder hnodup le_rfl hv
  have hleft : (preorder succ marked.length marked v).2 = [] :=
    List.eq_nil_iff_forall_not_mem.2 fun a ha => htrav.left a ha v (List.mem_singleton.2 rfl)
      (h a (htrav.perm.mem_iff.1 (List.mem_append_right _ ha)))
  have hperm := htrav.perm
  rwa [hleft, List.append_nil] at hperm

end PVS.Library
