import Mathlib.Data.List.Basic
import Mathlib.Data.List.Lookmap
import Mathlib.Data.Finset.Card

/-! Union-find over an association list of parents to which links between roots are only added. -/

namespace PVS.Library.UnionFind

variable {α : Type} [DecidableEq α]

/-- The root of `v`: a new link `(a, b)` in front sends the class of `a` to `b`. -/
def rep : List (α × α) → α → α
  | [], v => v
  | (a, b) :: l, v => if rep l v = a then b else rep l v

/-- Every link was added between two different roots. -/
def WF : List (α × α) → Prop
  | [] => True
  | (a, b) :: l => rep l a = a ∧ rep l b = b ∧ a ≠ b ∧ WF l

theorem lookup_cons_ne {β : Type} {v a : α} (h : v ≠ a) (b : β) (l : List (α × β)) :
    ((a, b) :: l).lookup v = l.lookup v := by
  rw [List.lookup_cons, beq_eq_false_iff_ne.2 h]

theorem lookup_cons_self {β : Type} (a : α) (b : β) (l : List (α × β)) :
    ((a, b) :: l).lookup a = some b := by
  rw [List.lookup_cons, beq_self_eq_true]

theorem rep_cons (a b : α) (l : List (α × α)) (v : α) :
    rep ((a, b) :: l) v = if rep l v = a then b else rep l v := rfl

theorem rep_congr {l : List (α × α)} {v w : α} (h : rep l v = rep l w) (p : α × α) :
    rep (p :: l) v = rep (p :: l) w := by
  rw [rep_cons, rep_cons, h]

theorem rep_rep {l : List (α × α)} (h : WF l) (v : α) : rep l (rep l v) = rep l v := by
  induction l with
  | nil => rfl
  | cons p l ih =>
    obtain ⟨a, b⟩ := p
    obtain ⟨_, hb, hab, hl⟩ := h
    by_cases hv : rep l v = a
    · simp [rep_cons, hv, hb, hab.symm]
    · simp [rep_cons, hv, ih hl]

theorem lookup_eq_none_iff {l : List (α × α)} (h : WF l) (v : α) :
    l.lookup v = none ↔ rep l v = v := by
  induction l with
  | nil => simp [rep]
  | cons p l ih =>
    obtain ⟨a, b⟩ := p
    obtain ⟨ha, hb, hab, hl⟩ := h
    by_cases hv : v = a
    · subst hv
      simp [rep_cons, ha, hab.symm]
    · rw [lookup_cons_ne hv, ih hl, rep_cons]
      by_cases hr : rep l v = a
      · rw [if_pos hr, hr]
        refine ⟨fun e => absurd e.symm hv, fun e => ?_⟩
        subst e
        exact absurd (hb.symm.trans hr) hab.symm
      · rw [if_neg hr]

theorem rep_of_lookup {l : List (α × α)} (h : WF l) {v u : α} (hv : l.lookup v = some u) :
    rep l u = rep l v := by
  induction l with
  | nil => simp at hv
  | cons p l ih =>
    obtain ⟨a, b⟩ := p
    obtain ⟨ha, hb, hab, hl⟩ := h
    by_cases hva : v = a
    · subst hva
      simp only [List.lookup_cons, beq_self_eq_true, Option.some.injEq] at hv
      subst hv
      simp [rep_cons, ha, hb, hab.symm]
    · rw [lookup_cons_ne hva] at hv
      exact rep_congr (ih hl hv) (a, b)

theorem rep_of_mem {l : List (α × α)} (h : WF l) {p : α × α} (hp : p ∈ l) :
    rep l p.1 = rep l p.2 := by
  induction l with
  | nil => simp at hp
  | cons q l ih =>
    obtain ⟨a, b⟩ := q
    obtain ⟨ha, hb, hab, hl⟩ := h
    obtain rfl | hp := List.mem_cons.1 hp
    · simp [rep_cons, ha, hb, hab.symm]
    · exact rep_congr (ih hl hp) (a, b)

/-- Following the links ends: induction along the path from `v` to its root. -/
theorem path_induction {l : List (α × α)} (h : WF l) {P : α → Prop}
    (root : ∀ v, l.lookup v = none → P v)
    (link : ∀ v u, l.lookup v = some u → P u → P v) (v : α) : P v := by
  induction l generalizing v with
  | nil => exact root v rfl
  | cons p l ih =>
    obtain ⟨a, b⟩ := p
    obtain ⟨ha, hb, hab, hl⟩ := h
    have hla : l.lookup a = none := (lookup_eq_none_iff hl a).2 ha
    have hlb : l.lookup b = none := (lookup_eq_none_iff hl b).2 hb
    refine ih hl (fun v hv => ?_) (fun v u hv hu => ?_) v
    · by_cases hva : v = a
      · subst hva
        exact link v b (lookup_cons_self v b l) (root b ((lookup_cons_ne hab.symm b l).trans hlb))
      · exact root v ((lookup_cons_ne hva b l).trans hv)
    · have hva : v ≠ a := fun e => by simp [e, hla] at hv
      exact link v u ((lookup_cons_ne hva b l).trans hv) hu

theorem rep_eq_self_or_mem (l : List (α × α)) (v : α) :
    rep l v = v ∨ ∃ p ∈ l, p.2 = rep l v := by
  induction l with
  | nil => exact .inl rfl
  | cons p l ih =>
    obtain ⟨a, b⟩ := p
    rw [rep_cons]
    by_cases hv : rep l v = a
    · exact .inr ⟨(a, b), by simp, by simp [hv]⟩
    · rw [if_neg hv]
      obtain e | ⟨q, hq, e⟩ := ih
      · exact .inl e
      · exact .inr ⟨q, by simp [hq], e⟩

/-- What holds across every link holds between an element and its root. -/
theorem rep_rel {R : α → α → Prop} (refl : ∀ v, R v v)
    (trans : ∀ {u v w}, R u v → R v w → R u w) {l : List (α × α)} (h : ∀ p ∈ l, R p.1 p.2)
    (v : α) : R v (rep l v) := by
  induction l with
  | nil => exact refl v
  | cons p l ih =>
    obtain ⟨a, b⟩ := p
    have hv := ih fun q hq => h q (by simp [hq])
    rw [rep_cons]
    by_cases e : rep l v = a
    · rw [if_pos e]
      exact trans (e ▸ hv) (h (a, b) (by simp))
    · rwa [if_neg e]

/-- An element gets one parent at most, so a set of `n` elements takes `n` links at most. -/
theorem nodup_keys {l : List (α × α)} (h : WF l) : (l.map Prod.fst).Nodup := by
  induction l with
  | nil => exact .nil
  | cons p l ih =>
    obtain ⟨a, b⟩ := p
    obtain ⟨ha, hb, hab, hl⟩ := h
    refine List.nodup_cons.2 ⟨fun hm => ?_, ih hl⟩
    obtain ⟨q, hq, e⟩ := List.mem_map.1 hm
    have hn := List.lookup_eq_none_iff.1 ((lookup_eq_none_iff hl a).2 ha) q hq
    simp [e] at hn

theorem length_le_card {l : List (α × α)} (h : WF l) {X : Finset α} (hX : ∀ p ∈ l, p.1 ∈ X) :
    l.length ≤ X.card := by
  rw [← List.length_map (f := Prod.fst), ← List.toFinset_card_of_nodup (nodup_keys h)]
  refine Finset.card_le_card fun x hx => ?_
  obtain ⟨p, hp, rfl⟩ := List.mem_map.1 (List.mem_toFinset.1 hx)
  exact hX p hp

theorem rep_link {l : List (α × α)} {a b : α} (ha : rep l a = a) :
    rep ((a, b) :: l) a = b := by simp [rep_cons, ha]

end PVS.Library.UnionFind
