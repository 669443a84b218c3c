import Mathlib.Data.List.Nodup
import Mathlib.Logic.Function.Basic

/-! Quantifiers over variables whose ranges may depend on earlier ones. -/

namespace PVS.Library.Telescope

variable {X V : Type} [DecidableEq X] (mem : X → (X → V) → V → Prop) (deps : X → List X)

def existsAll : List X → ((X → V) → Prop) → (X → V) → Prop
  | [], P, ρ => P ρ
  | b :: bs, P, ρ => ∃ v, mem b ρ v ∧ existsAll bs P (Function.update ρ b v)

def forallAll : List X → ((X → V) → Prop) → (X → V) → Prop
  | [], P, ρ => P ρ
  | b :: bs, P, ρ => ∀ v, mem b ρ v → forallAll bs P (Function.update ρ b v)

/-- The range of a variable depends on earlier ones only. -/
def InOrder : List X → Prop
  | [] => True
  | b :: bs => (∀ x ∈ b :: bs, x ∉ deps b) ∧ InOrder bs

omit [DecidableEq X] in
theorem InOrder.sublist {bs bs' : List X} (h : InOrder deps bs') (hsub : bs.Sublist bs') :
    InOrder deps bs := by
  induction hsub with
  | slnil => trivial
  | cons b hsub ih => exact ih h.2
  | cons_cons b hsub ih =>
    refine ⟨fun x hx => h.1 x ?_, ih h.2⟩
    exact (hsub.cons_cons b).subset hx

omit [DecidableEq X] in
theorem inOrder_append {bs bs' : List X} :
    InOrder deps (bs ++ bs') ↔
      InOrder deps bs ∧ InOrder deps bs' ∧ ∀ b ∈ bs, ∀ x ∈ bs', x ∉ deps b := by
  induction bs with
  | nil => simp [InOrder]
  | cons b bs ih =>
    rw [List.cons_append]
    constructor
    · rintro ⟨hb, h⟩
      obtain ⟨hbs, hbs', hcross⟩ := ih.1 h
      refine ⟨⟨fun x hx => hb x ?_, hbs⟩, hbs',
        List.forall_mem_cons.2 ⟨fun x hx => hb x ?_, hcross⟩⟩
      · exact List.mem_append_left bs' hx
      · exact List.mem_append_right (b :: bs) hx
    · rintro ⟨⟨hb, hbs⟩, hbs', hcross⟩
      rw [List.forall_mem_cons] at hcross
      refine ⟨fun x hx => ?_, ih.2 ⟨hbs, hbs', hcross.2⟩⟩
      obtain hx | hx := List.mem_append.1 (List.cons_append ▸ hx : x ∈ (b :: bs) ++ bs')
      · exact hb x hx
      · exact hcross.1 x hx

theorem existsAll_congr {P Q : (X → V) → Prop} (h : ∀ ρ, P ρ ↔ Q ρ) (bs : List X) (ρ : X → V) :
    existsAll mem bs P ρ ↔ existsAll mem bs Q ρ := by
  rw [funext fun ρ => propext (h ρ)]

theorem forallAll_iff (bs : List X) (P : (X → V) → Prop) (ρ : X → V) :
    forallAll mem bs P ρ ↔ ¬ existsAll mem bs (fun ρ => ¬ P ρ) ρ := by
  induction bs generalizing ρ with
  | nil => exact not_not.symm
  | cons b bs ih =>
    rw [forallAll, existsAll, not_exists]
    exact forall_congr' fun v => by rw [ih, not_and]

variable {mem deps}

section Congr

variable (hcongr : ∀ b ρ ρ', (∀ x ∈ deps b, ρ x = ρ' x) → ∀ v, mem b ρ v ↔ mem b ρ' v)
include hcongr

/-- The values may be chosen at once. -/
theorem existsAll_iff {bs : List X} (horder : InOrder deps bs) (hnodup : bs.Nodup)
    (P : (X → V) → Prop) (ρ : X → V) :
    existsAll mem bs P ρ ↔
      ∃ ρ', (∀ x, x ∉ bs → ρ' x = ρ x) ∧ (∀ b ∈ bs, mem b ρ' (ρ' b)) ∧ P ρ' := by
  induction bs generalizing ρ with
  | nil =>
    constructor
    · intro h
      exact ⟨ρ, fun _ _ => rfl, by simp, h⟩
    · rintro ⟨ρ', hρ', -, h⟩
      rwa [funext fun x => hρ' x List.not_mem_nil] at h
  | cons b bs ih =>
    rw [List.nodup_cons] at hnodup
    rw [existsAll]
    simp only [ih horder.2 hnodup.2]
    constructor
    · rintro ⟨v, hv, ρ', hρ', hbs, hP⟩
      have hb : ρ' b = v := by rw [hρ' b hnodup.1, Function.update_self]
      refine ⟨ρ', fun x hx => ?_, ?_, hP⟩
      · rw [List.mem_cons, not_or] at hx
        rw [hρ' x hx.2, Function.update_of_ne hx.1]
      · rw [List.forall_mem_cons, hb]
        refine ⟨(hcongr b ρ ρ' (fun x hx => ?_) v).1 hv, hbs⟩
        have hne : x ≠ b := fun h => horder.1 b (List.mem_cons_self ..) (h ▸ hx)
        have hnot : x ∉ bs := fun h => horder.1 x (List.mem_cons_of_mem _ h) hx
        rw [hρ' x hnot, Function.update_of_ne hne]
    · rintro ⟨ρ', hρ', hmem, hP⟩
      rw [List.forall_mem_cons] at hmem
      refine ⟨ρ' b, (hcongr b ρ ρ' (fun x hx => ?_) _).2 hmem.1, ρ', fun x hx => ?_, hmem.2, hP⟩
      · exact (hρ' x fun h => horder.1 x h hx).symm
      · by_cases hxb : x = b
        · rw [hxb, Function.update_self]
        · rw [Function.update_of_ne hxb, hρ' x (by simp [hxb, hx])]

theorem of_forallAll {bs : List X} (horder : InOrder deps bs) (hnodup : bs.Nodup)
    {P : (X → V) → Prop} {ρ ρ' : X → V} (h : forallAll mem bs P ρ)
    (hρ' : ∀ x, x ∉ bs → ρ' x = ρ x) (hmem : ∀ b ∈ bs, mem b ρ' (ρ' b)) : P ρ' := by
  by_contra hP
  rw [forallAll_iff] at h
  exact h ((existsAll_iff hcongr horder hnodup _ ρ).2 ⟨ρ', hρ', hmem, hP⟩)

/-- Ranges have values where they are not empty under values that are in theirs. -/
theorem exists_of_nonempty {bs : List X} (horder : InOrder deps bs) (hnodup : bs.Nodup)
    (hne : ∀ b ∈ bs, ∀ ρ, (∀ x ∈ deps b, mem x ρ (ρ x)) → ∃ v, mem b ρ v) (typed : X → Prop)
    (ρ : X → V) (htyped : ∀ x, typed x → mem x ρ (ρ x))
    (houter : ∀ x, typed x → ∀ b ∈ bs, b ∉ deps x)
    (hdeps : ∀ b ∈ bs, ∀ x ∈ deps b, x ∈ bs ∨ typed x) :
    ∃ ρ', (∀ x, x ∉ bs → ρ' x = ρ x) ∧ ∀ b ∈ bs, mem b ρ' (ρ' b) := by
  suffices hall : existsAll mem bs (fun _ => True) ρ by
    obtain ⟨ρ', hρ', hmem, -⟩ := (existsAll_iff hcongr horder hnodup _ ρ).1 hall
    exact ⟨ρ', hρ', hmem⟩
  clear hnodup
  induction bs generalizing ρ typed with
  | nil => trivial
  | cons b bs ih =>
    obtain ⟨hb, horder⟩ := horder
    rw [List.forall_mem_cons] at hne
    have hearlier : ∀ x ∈ deps b, typed x := fun x hx =>
      (hdeps b (List.mem_cons_self ..) x hx).resolve_left fun h => hb x h hx
    obtain ⟨v, hv⟩ := hne.1 ρ fun x hx => htyped x (hearlier x hx)
    have hupdate : ∀ x, b ∉ deps x → ∀ w, mem x ρ w ↔ mem x (Function.update ρ b v) w :=
      fun x hx => hcongr x _ _ fun y hy => 
        (Function.update_of_ne (fun h : y = b => hx (h ▸ hy)) v ρ).symm
    refine ⟨v, hv, ih horder hne.2 (fun x => x = b ∨ typed x) _ ?_ ?_ ?_⟩
    · intro x hx
      by_cases hxb : x = b
      · subst hxb
        rw [Function.update_self]
        exact (hupdate x (hb x (List.mem_cons_self ..)) v).1 hv
      · have hx := hx.resolve_left hxb
        rw [Function.update_of_ne hxb]
        exact (hupdate x (houter x hx b (List.mem_cons_self ..)) _).1 (htyped x hx)
    · rintro x (rfl | hx) c hc
      · exact hb c (List.mem_cons_of_mem _ hc)
      · exact houter x hx c (List.mem_cons_of_mem _ hc)
    · intro c hc x hx
      obtain hx | hx := hdeps c (List.mem_cons_of_mem _ hc) x hx
      · obtain rfl | hx := List.mem_cons.1 hx
        · exact Or.inr (Or.inl rfl)
        · exact Or.inl hx
      · exact Or.inr (Or.inr hx)

end Congr

end PVS.Library.Telescope
