import Mathlib.Data.List.Sort
import Mathlib.Order.Basic

/-! Terms that are compared through representatives: the order this gives, and the terms it leaves
incomparable. -/

namespace PVS.Library

/-- A term of some kind is compared by its representative and then by the rest of it; any other term
by its key, and pairs with the same key component by component. -/
structure WrappedOrder (α K κ : Type) [LinearOrder κ] where
  lt : α → α → Prop
  size : α → ℕ
  kind : α → Option K
  rep : α → α
  rest : α → α
  key : α → κ
  pair : α → Option (α × α)
  size_rep_lt {u : α} {k : K} : kind u = some k → size (rep u) < size u
  size_rest_lt {u : α} {k : K} : kind u = some k → size (rest u) < size u
  size_pair_lt {u : α} {p : α × α} : pair u = some p → size p.1 < size u ∧ size p.2 < size u
  lt_same {u v : α} {k : K} : kind u = some k → kind v = some k →
    (lt u v ↔ lt (rep u) (rep v) ∨ rep u = rep v ∧ lt (rest u) (rest v))
  lt_left {u v : α} {k : K} : kind u = some k → kind v ≠ some k →
    (lt u v ↔ rep u = v ∨ lt (rep u) v)
  lt_right {u v : α} {k : K} : kind u = none → kind v = some k → (lt u v ↔ lt u (rep v))
  lt_base {u v : α} : kind u = none → kind v = none →
    (lt u v ↔ key u < key v ∨ ∃ p q, pair u = some p ∧ pair v = some q ∧
      (p.1 ≠ q.1 ∧ lt p.1 q.1 ∨ p.1 = q.1 ∧ lt p.2 q.2))
  key_eq_of_pair {u v : α} {p q : α × α} : pair u = some p → pair v = some q → key u = key v
  eq_or_pair {u v : α} : kind u = none → kind v = none → key u = key v →
    u = v ∨ ∃ p q, pair u = some p ∧ pair v = some q ∧ (p = q → u = v)

namespace WrappedOrder

variable {α K κ : Type} [LinearOrder κ] (O : WrappedOrder α K κ) {u v w : α} {j k : K}

/-! ### A strict order -/

theorem irrefl (u : α) : ¬O.lt u u := by
  induction hn : O.size u using Nat.strong_induction_on generalizing u with
  | _ n ih =>
    subst hn
    cases hu : O.kind u with
    | some k =>
      rw [O.lt_same hu hu]
      rintro (h | ⟨-, h⟩)
      · exact ih _ (O.size_rep_lt hu) _ rfl h
      · exact ih _ (O.size_rest_lt hu) _ rfl h
    | none =>
      rw [O.lt_base hu hu]
      rintro (h | ⟨p, q, hp, hq, h⟩)
      · exact lt_irrefl _ h
      · cases Option.some.inj (hp.symm.trans hq)
        obtain ⟨hne, -⟩ | ⟨-, h⟩ := h
        · exact hne rfl
        · exact ih _ (O.size_pair_lt hp).2 _ rfl h

/-- A term is before its representative. -/
theorem lt_rep_self (hu : O.kind u = some k) : O.lt u (O.rep u) := by
  induction hn : O.size u using Nat.strong_induction_on generalizing u with
  | _ n ih =>
    subst hn
    by_cases hr : O.kind (O.rep u) = some k
    · exact (O.lt_same hu hr).2 (.inl (ih _ (O.size_rep_lt hu) hr rfl))
    · exact (O.lt_left hu hr).2 (.inl rfl)

/-- What is before a term is before its representative. -/
theorem lt_rep_of_lt (hw : O.kind w = some k) (h : O.lt v w) : O.lt v (O.rep w) := by
  induction hn : O.size v + O.size w using Nat.strong_induction_on generalizing v w k with
  | _ n ih =>
    subst hn
    have hsw := O.size_rep_lt hw
    cases hv : O.kind v with
    | none => exact (O.lt_right hv hw).1 h
    | some j =>
      have hsv := O.size_rep_lt hv
      -- the representative of `v` is before that of `w`, or it is `w` or the representative of `w`
      have hreps : O.lt (O.rep v) (O.rep w) ∨ O.rep v = O.rep w := by
        by_cases hjk : O.kind w = some j
        · obtain h | ⟨h, -⟩ := (O.lt_same hv hjk).1 h
          · exact .inl h
          · exact .inr h
        · obtain rfl | h := (O.lt_left hv hjk).1 h
          · exact .inl (O.lt_rep_self hw)
          · exact .inl (ih _ (by omega) hw h rfl)
      by_cases hr : O.kind (O.rep w) = some j
      · refine (O.lt_same hv hr).2 (.inl ?_)
        obtain h | h := hreps
        · exact ih _ (by omega) hr h rfl
        · exact h ▸ O.lt_rep_self (h ▸ hr)
      · exact (O.lt_left hv hr).2 hreps.symm

/-- Pairs in lexicographic order. -/
theorem trans_pair {p q r : α × α} (h₁ : O.lt p.1 q.1 → O.lt q.1 r.1 → O.lt p.1 r.1)
    (h₂ : O.lt p.2 q.2 → O.lt q.2 r.2 → O.lt p.2 r.2)
    (hpq : p.1 ≠ q.1 ∧ O.lt p.1 q.1 ∨ p.1 = q.1 ∧ O.lt p.2 q.2)
    (hqr : q.1 ≠ r.1 ∧ O.lt q.1 r.1 ∨ q.1 = r.1 ∧ O.lt q.2 r.2) :
    p.1 ≠ r.1 ∧ O.lt p.1 r.1 ∨ p.1 = r.1 ∧ O.lt p.2 r.2 := by
  have hne {x y : α} (h : O.lt x y) : x ≠ y := fun he => O.irrefl y (he ▸ h)
  cases hpq with
  | inl hpq =>
    have hlt : O.lt p.1 r.1 := by
      cases hqr with
      | inl hqr => exact h₁ hpq.2 hqr.2
      | inr hqr => exact hqr.1 ▸ hpq.2
    exact .inl ⟨hne hlt, hlt⟩
  | inr hpq =>
    rw [hpq.1]
    cases hqr with
    | inl hqr => exact .inl hqr
    | inr hqr => exact .inr ⟨hqr.1, h₂ hpq.2 hqr.2⟩

theorem trans (huv : O.lt u v) (hvw : O.lt v w) : O.lt u w := by
  induction hn : O.size u + O.size v + O.size w using Nat.strong_induction_on
    generalizing u v w with
  | _ n ih =>
    subst hn
    cases hu : O.kind u with
    | none =>
      cases hv : O.kind v with
      | none =>
        cases hw : O.kind w with
        | none =>
          rw [O.lt_base hu hv] at huv
          rw [O.lt_base hv hw] at hvw
          rw [O.lt_base hu hw]
          obtain huv | ⟨p, q, hp, hq, hpq⟩ := huv
          · obtain hvw | ⟨q, r, hq, hr, -⟩ := hvw
            · exact .inl (huv.trans hvw)
            · exact .inl (O.key_eq_of_pair hq hr ▸ huv)
          · obtain hvw | ⟨q', r, hq', hr, hqr⟩ := hvw
            · exact .inl (O.key_eq_of_pair hp hq ▸ hvw)
            · cases Option.some.inj (hq.symm.trans hq')
              have := O.size_pair_lt hp
              have := O.size_pair_lt hq
              have := O.size_pair_lt hr
              refine .inr ⟨p, r, hp, hr, O.trans_pair (fun h h' => ?_) (fun h h' => ?_) hpq hqr⟩
              · exact ih _ (by omega) h h' rfl
              · exact ih _ (by omega) h h' rfl
        | some k =>
          have := O.size_rep_lt hw
          rw [O.lt_right hv hw] at hvw
          exact (O.lt_right hu hw).2 (ih _ (by omega) huv hvw rfl)
      | some j =>
        have := O.size_rep_lt hv
        rw [O.lt_right hu hv] at huv
        by_cases hw : O.kind w = some j
        · have := O.size_rep_lt hw
          refine (O.lt_right hu hw).2 ?_
          obtain h | ⟨h, -⟩ := (O.lt_same hv hw).1 hvw
          · exact ih _ (by omega) huv h rfl
          · exact h ▸ huv
        · obtain rfl | h := (O.lt_left hv hw).1 hvw
          · exact huv
          · exact ih _ (by omega) huv h rfl
    | some j =>
      have := O.size_rep_lt hu
      by_cases hv : O.kind v = some j
      · have := O.size_rep_lt hv
        by_cases hw : O.kind w = some j
        · have := O.size_rep_lt hw
          rw [O.lt_same hu hv] at huv
          rw [O.lt_same hv hw] at hvw
          rw [O.lt_same hu hw]
          obtain huv | ⟨he, huv⟩ := huv
          · obtain hvw | ⟨he', -⟩ := hvw
            · exact .inl (ih _ (by omega) huv hvw rfl)
            · exact .inl (he' ▸ huv)
          · obtain hvw | ⟨he', hvw⟩ := hvw
            · exact .inl (he ▸ hvw)
            · have := O.size_rest_lt hu
              have := O.size_rest_lt hv
              have := O.size_rest_lt hw
              exact .inr ⟨he.trans he', ih _ (by omega) huv hvw rfl⟩
        · rw [O.lt_left hu hw]
          have hle : O.rep u = O.rep v ∨ O.lt (O.rep u) (O.rep v) := by
            obtain h | ⟨h, -⟩ := (O.lt_same hu hv).1 huv
            · exact .inr h
            · exact .inl h
          obtain rfl | h := (O.lt_left hv hw).1 hvw
          · exact hle
          · obtain he | hlt := hle
            · exact .inr (he ▸ h)
            · exact .inr (ih _ (by omega) hlt h rfl)
      · by_cases hw : O.kind w = some j
        · have := O.size_rep_lt hw
          have hvr := O.lt_rep_of_lt hw hvw
          refine (O.lt_same hu hw).2 (.inl ?_)
          obtain rfl | h := (O.lt_left hu hv).1 huv
          · exact hvr
          · exact ih _ (by omega) h hvr rfl
        · refine (O.lt_left hu hw).2 (.inr ?_)
          obtain rfl | h := (O.lt_left hu hv).1 huv
          · exact hvw
          · exact ih _ (by omega) h hvw rfl

theorem asymm (huv : O.lt u v) : ¬O.lt v u := fun hvu => O.irrefl u (O.trans huv hvu)

/-! ### Incomparable terms -/

/-- Terms that the order does not tell apart. -/
inductive Tied : α → α → Prop
  | same {u v : α} {k : K} : O.kind u = some k → O.kind v = some k → O.rep u = O.rep v →
      O.rest u = O.rest v → u ≠ v → Tied u v
  | rest {u v : α} {k : K} : O.kind u = some k → O.kind v = some k → O.rep u = O.rep v →
      Tied (O.rest u) (O.rest v) → Tied u v
  | reps {u v : α} {j k : K} : O.kind u = some j → O.kind v = some k →
      Tied (O.rep u) (O.rep v) → Tied u v
  | left {u v : α} {k : K} : O.kind u = some k → O.kind v ≠ some k → Tied (O.rep u) v → Tied u v
  | right {u v : α} {k : K} : O.kind v = some k → O.kind u ≠ some k → Tied u (O.rep v) → Tied u v
  | mixed {u v : α} {j k : K} : O.kind u = some j → O.kind v = some k → j ≠ k →
      O.rep u = O.rep v → Tied u v
  | betweenLeft {u v : α} {j k : K} : O.kind u = some j → O.kind v = some k → j ≠ k →
      O.lt v (O.rep u) → O.lt (O.rep u) (O.rep v) → Tied u v
  | betweenRight {u v : α} {j k : K} : O.kind u = some j → O.kind v = some k → j ≠ k →
      O.lt u (O.rep v) → O.lt (O.rep v) (O.rep u) → Tied u v
  | fst {u v : α} {p q : α × α} : O.kind u = none → O.kind v = none → O.pair u = some p →
      O.pair v = some q → Tied p.1 q.1 → Tied u v
  | snd {u v : α} {p q : α × α} : O.kind u = none → O.kind v = none → O.pair u = some p →
      O.pair v = some q → p.1 = q.1 → Tied p.2 q.2 → Tied u v

def Incomparable (u v : α) : Prop := u ≠ v ∧ ¬O.lt u v ∧ ¬O.lt v u

theorem Incomparable.symm {O : WrappedOrder α K κ} (h : O.Incomparable u v) :
    O.Incomparable v u := ⟨h.1.symm, h.2.2, h.2.1⟩

/-- A term is incomparable to a term of another kind when its representative is. -/
theorem incomparable_of_rep (hu : O.kind u = some k) (hv : O.kind v ≠ some k)
    (h : O.Incomparable (O.rep u) v) : O.Incomparable u v := by
  obtain ⟨hne, hlt, hgt⟩ := h
  refine ⟨fun he => hv (he ▸ hu), fun huv => ?_, fun hvu => hgt (O.lt_rep_of_lt hu hvu)⟩
  obtain h | h := (O.lt_left hu hv).1 huv
  · exact hne h
  · exact hlt h

theorem incomparable_of_reps {j : K} (hu : O.kind u = some j) (hv : O.kind v = some k)
    (h : O.Incomparable (O.rep u) (O.rep v)) : O.Incomparable u v := by
  by_cases hjk : O.kind v = some j
  · obtain ⟨hne, hlt, hgt⟩ := h
    refine ⟨fun he => hne (he ▸ rfl), ?_, ?_⟩
    · rw [O.lt_same hu hjk]
      rintro (h | h)
      · exact hlt h
      · exact hne h.1
    · rw [O.lt_same hjk hu]
      rintro (h | h)
      · exact hgt h
      · exact hne h.1.symm
  · obtain ⟨hne, hlt, hgt⟩ := h
    have hju : O.kind u ≠ some k := fun he => hjk (hv.trans (he.symm.trans hu))
    refine ⟨fun he => hne (he ▸ rfl), ?_, ?_⟩
    · rw [O.lt_left hu hjk]
      rintro (h | h)
      · exact hlt (by rw [h]; exact O.lt_rep_self hv)
      · exact hlt (O.lt_rep_of_lt hv h)
    · rw [O.lt_left hv hju]
      rintro (h | h)
      · exact hgt (by rw [h]; exact O.lt_rep_self hu)
      · exact hgt (O.lt_rep_of_lt hu h)

/-- Two kinds, and a representative between the other term and its representative, or equal to
it. -/
theorem incomparable_of_between (hu : O.kind u = some j) (hv : O.kind v = some k) (hjk : j ≠ k)
    (hlow : O.lt v (O.rep u)) (hhigh : O.rep u = O.rep v ∨ O.lt (O.rep u) (O.rep v)) :
    O.Incomparable u v := by
  have hvj : O.kind v ≠ some j := fun he => hjk (Option.some.inj (he.symm.trans hv))
  have huk : O.kind u ≠ some k := fun he => hjk (Option.some.inj (hu.symm.trans he))
  have hur : O.lt u (O.rep v) := by
    obtain h | h := hhigh
    · exact h ▸ O.lt_rep_self hu
    · exact O.trans (O.lt_rep_self hu) h
  refine ⟨fun he => hvj (he ▸ hu), ?_, ?_⟩
  · rw [O.lt_left hu hvj]
    rintro (h | h)
    · exact O.irrefl v (h ▸ hlow)
    · exact O.asymm hlow h
  · rw [O.lt_left hv huk]
    rintro (h | h)
    · exact O.irrefl u (h ▸ hur)
    · exact O.asymm hur h

/-- The order of two pairs is that of the first components that differ. -/
theorem lt_pair_iff {p q : α × α} (hu : O.kind u = none) (hv : O.kind v = none)
    (hp : O.pair u = some p) (hq : O.pair v = some q) :
    O.lt u v ↔ p.1 ≠ q.1 ∧ O.lt p.1 q.1 ∨ p.1 = q.1 ∧ O.lt p.2 q.2 := by
  rw [O.lt_base hu hv, O.key_eq_of_pair hp hq]
  constructor
  · rintro (h | ⟨p', q', hp', hq', h⟩)
    · exact absurd h (lt_irrefl _)
    · cases Option.some.inj (hp.symm.trans hp')
      cases Option.some.inj (hq.symm.trans hq')
      exact h
  · exact fun h => .inr ⟨p, q, hp, hq, h⟩

theorem incomparable_of_fst {p q : α × α} (hu : O.kind u = none) (hv : O.kind v = none)
    (hp : O.pair u = some p) (hq : O.pair v = some q) (h : O.Incomparable p.1 q.1) :
    O.Incomparable u v := by
  obtain ⟨hne, hlt, hgt⟩ := h
  refine ⟨?_, ?_, ?_⟩
  · rintro rfl
    exact hne (congrArg Prod.fst (Option.some.inj (hp.symm.trans hq)))
  · rw [O.lt_pair_iff hu hv hp hq]
    rintro (h | h)
    · exact hlt h.2
    · exact hne h.1
  · rw [O.lt_pair_iff hv hu hq hp]
    rintro (h | h)
    · exact hgt h.2
    · exact hne h.1.symm

theorem incomparable_of_snd {p q : α × α} (hu : O.kind u = none) (hv : O.kind v = none)
    (hp : O.pair u = some p) (hq : O.pair v = some q) (he : p.1 = q.1)
    (h : O.Incomparable p.2 q.2) : O.Incomparable u v := by
  obtain ⟨hne, hlt, hgt⟩ := h
  refine ⟨?_, ?_, ?_⟩
  · rintro rfl
    exact hne (congrArg Prod.snd (Option.some.inj (hp.symm.trans hq)))
  · rw [O.lt_pair_iff hu hv hp hq]
    rintro (h | h)
    · exact h.1 he
    · exact hlt h.2
  · rw [O.lt_pair_iff hv hu hq hp]
    rintro (h | h)
    · exact h.1 he.symm
    · exact hgt h.2

theorem Tied.incomparable {O : WrappedOrder α K κ} (h : O.Tied u v) : O.Incomparable u v := by
  induction h with
  | same hu hv hrep hrest hne =>
    refine ⟨hne, ?_, ?_⟩
    · rw [O.lt_same hu hv, hrep, hrest]
      rintro (h | h)
      · exact O.irrefl _ h
      · exact O.irrefl _ h.2
    · rw [O.lt_same hv hu, hrep, hrest]
      rintro (h | h)
      · exact O.irrefl _ h
      · exact O.irrefl _ h.2
  | rest hu hv hrep _ ih =>
    obtain ⟨hne, hlt, hgt⟩ := ih
    refine ⟨fun he => hne (he ▸ rfl), ?_, ?_⟩
    · rw [O.lt_same hu hv, hrep]
      rintro (h | h)
      · exact O.irrefl _ h
      · exact hlt h.2
    · rw [O.lt_same hv hu, hrep]
      rintro (h | h)
      · exact O.irrefl _ h
      · exact hgt h.2
  | reps hu hv _ ih => exact O.incomparable_of_reps hu hv ih
  | left hu hv _ ih => exact O.incomparable_of_rep hu hv ih
  | right hv hu _ ih => exact (O.incomparable_of_rep hv hu ih.symm).symm
  | mixed hu hv hjk hrep =>
    exact O.incomparable_of_between hu hv hjk (hrep ▸ O.lt_rep_self hv) (.inl hrep)
  | betweenLeft hu hv hjk hlow hhigh => exact O.incomparable_of_between hu hv hjk hlow (.inr hhigh)
  | betweenRight hu hv hjk hlow hhigh =>
    exact (O.incomparable_of_between hv hu hjk.symm hlow (.inr hhigh)).symm
  | fst hu hv hp hq _ ih => exact O.incomparable_of_fst hu hv hp hq ih
  | snd hu hv hp hq he _ ih => exact O.incomparable_of_snd hu hv hp hq he ih

theorem Incomparable.tied {O : WrappedOrder α K κ} (h : O.Incomparable u v) : O.Tied u v := by
  induction hn : O.size u + O.size v using Nat.strong_induction_on generalizing u v with
  | _ n ih =>
    subst hn
    obtain ⟨hne, hlt, hgt⟩ := h
    cases hu : O.kind u with
    | some j =>
      have := O.size_rep_lt hu
      by_cases hvj : O.kind v = some j
      · have := O.size_rep_lt hvj
        rw [O.lt_same hu hvj] at hlt
        rw [O.lt_same hvj hu] at hgt
        by_cases hrep : O.rep u = O.rep v
        · by_cases hrest : O.rest u = O.rest v
          · exact .same hu hvj hrep hrest hne
          · have := O.size_rest_lt hu
            have := O.size_rest_lt hvj
            refine .rest hu hvj hrep (ih _ (by omega) ⟨hrest, fun h => ?_, fun h => ?_⟩ rfl)
            · exact hlt (.inr ⟨hrep, h⟩)
            · exact hgt (.inr ⟨hrep.symm, h⟩)
        · refine .reps hu hvj (ih _ (by omega) ⟨hrep, fun h => ?_, fun h => ?_⟩ rfl)
          · exact hlt (.inl h)
          · exact hgt (.inl h)
      · rw [O.lt_left hu hvj, not_or] at hlt
        by_cases hvr : O.lt v (O.rep u)
        · cases hv : O.kind v with
          | none => exact absurd ((O.lt_right hv hu).2 hvr) hgt
          | some k =>
            have := O.size_rep_lt hv
            have hjk : j ≠ k := fun he => hvj (he ▸ hv)
            have huk : O.kind u ≠ some k := fun he => hjk (Option.some.inj (hu.symm.trans he))
            rw [O.lt_left hv huk, not_or] at hgt
            by_cases hur : O.lt u (O.rep v)
            · -- each is before the other's representative
              by_cases hrep : O.rep u = O.rep v
              · exact .mixed hu hv hjk hrep
              · by_cases h : O.lt (O.rep u) (O.rep v)
                · exact .betweenLeft hu hv hjk hvr h
                · by_cases h' : O.lt (O.rep v) (O.rep u)
                  · exact .betweenRight hu hv hjk hur h'
                  · exact .reps hu hv (ih _ (by omega) ⟨hrep, h, h'⟩ rfl)
            · exact .right hv huk (ih _ (by omega) ⟨fun he => hgt.1 he.symm, hur, hgt.2⟩ rfl)
        · exact .left hu hvj (ih _ (by omega) ⟨hlt.1, hlt.2, hvr⟩ rfl)
    | none =>
      cases hv : O.kind v with
      | some k =>
        have := O.size_rep_lt hv
        have huk : O.kind u ≠ some k := by simp [hu]
        rw [O.lt_right hu hv] at hlt
        rw [O.lt_left hv huk, not_or] at hgt
        exact .right hv huk (ih _ (by omega) ⟨fun he => hgt.1 he.symm, hlt, hgt.2⟩ rfl)
      | none =>
        have hkey : O.key u = O.key v := by
          rw [O.lt_base hu hv, not_or] at hlt
          rw [O.lt_base hv hu, not_or] at hgt
          exact le_antisymm (not_lt.1 hgt.1) (not_lt.1 hlt.1)
        obtain h | ⟨p, q, hp, hq, hpq⟩ := O.eq_or_pair hu hv hkey
        · exact absurd h hne
        · have := O.size_pair_lt hp
          have := O.size_pair_lt hq
          rw [O.lt_pair_iff hu hv hp hq, not_or] at hlt
          rw [O.lt_pair_iff hv hu hq hp, not_or] at hgt
          by_cases he : p.1 = q.1
          · refine .snd hu hv hp hq he
              (ih _ (by omega) ⟨fun he' => ?_, fun h => ?_, fun h => ?_⟩ rfl)
            · exact hne (hpq (Prod.ext he he'))
            · exact hlt.2 ⟨he, h⟩
            · exact hgt.2 ⟨he.symm, h⟩
          · refine .fst hu hv hp hq (ih _ (by omega) ⟨he, fun h => ?_, fun h => ?_⟩ rfl)
            · exact hlt.1 ⟨he, h⟩
            · exact hgt.1 ⟨fun he' => he he'.symm, h⟩

/-- Of two different terms one is before the other, unless they are tied. -/
theorem lt_or_gt_iff (hne : u ≠ v) : (O.lt u v ∨ O.lt v u) ↔ ¬O.Tied u v := by
  constructor
  · rintro (h | h) ht
    · exact ht.incomparable.2.1 h
    · exact ht.incomparable.2.2 h
  · intro h
    by_contra hno
    rw [not_or] at hno
    exact h (Incomparable.tied ⟨hne, hno⟩)

end WrappedOrder

/-! ### Sorting by a strict order -/

section Sorting

variable {α : Type} {r le : α → α → Prop} [DecidableRel le] {u v : α}

/-- Two members may come first. -/
theorem exists_perm_cons_cons {l : List α} (hu : u ∈ l) (hv : v ∈ l) (huv : u ≠ v) :
    ∃ m, (u :: v :: m).Perm l := by
  obtain ⟨s, t, rfl⟩ := List.append_of_mem hu
  have hv' : v ∈ s ++ t := by simpa [huv.symm] using hv
  obtain ⟨s', t', h⟩ := List.append_of_mem hv'
  refine ⟨s' ++ t', ?_⟩
  have hperm : (v :: (s' ++ t')).Perm (s ++ t) := h ▸ List.perm_middle.symm
  exact (hperm.cons u).trans List.perm_middle.symm

/-- Elements that are in order may be inserted in either order. -/
theorem orderedInsert_comm (hle : ∀ a b, le a b ↔ ¬r b a)
    (htrans : ∀ {a b c}, r a b → r b c → r a c) (huv : r u v) (hvu : ¬r v u) (l : List α) :
    (l.orderedInsert le v).orderedInsert le u = (l.orderedInsert le u).orderedInsert le v := by
  induction l with
  | nil => simp [hle, huv, hvu]
  | cons x l ih =>
    by_cases hxv : r x v
    · by_cases hxu : r x u
      · simp [hle, hxv, hxu, ih]
      · simp [hle, hxv, hxu, huv]
    · have hxu : ¬r x u := fun h => hxv (htrans h huv)
      simp [hle, hxv, hxu, huv, hvu]

theorem insertionSort_eq_of_perm (hle : ∀ a b, le a b ↔ ¬r b a)
    (htrans : ∀ {a b c}, r a b → r b c → r a c) (hirrefl : ∀ a, ¬r a a) {l l' : List α}
    (hp : l.Perm l') (hcomp : ∀ a ∈ l, ∀ b ∈ l, a ≠ b → r a b ∨ r b a) :
    l.insertionSort le = l'.insertionSort le := by
  have hasymm {a b : α} (h : r a b) : ¬r b a := fun h' => hirrefl a (htrans h h')
  induction hp with
  | nil => rfl
  | cons x _ ih =>
    rw [List.insertionSort_cons, List.insertionSort_cons,
      ih fun a ha b hb => hcomp a (.tail _ ha) b (.tail _ hb)]
  | swap x y l =>
    simp only [List.insertionSort_cons]
    by_cases hxy : x = y
    · rw [hxy]
    · obtain h | h := hcomp x (by simp) y (by simp) hxy
      · exact (orderedInsert_comm hle htrans h (hasymm h) _).symm
      · exact orderedInsert_comm hle htrans h (hasymm h) _
  | trans hp _ ih₁ ih₂ =>
    exact (ih₁ hcomp).trans (ih₂ fun a ha b hb => hcomp a (hp.symm.subset ha) b (hp.symm.subset hb))

/-- Only elements that are before the inserted one stand in front of it. -/
theorem exists_orderedInsert (hle : ∀ a b, le a b ↔ ¬r b a) (u : α) (l : List α) :
    ∃ p q, l.orderedInsert le u = p ++ u :: q ∧ ∀ x ∈ p, r x u := by
  induction l with
  | nil => exact ⟨[], [], rfl, by simp⟩
  | cons x l ih =>
    by_cases hx : r x u
    · obtain ⟨p, q, he, hp⟩ := ih
      refine ⟨x :: p, q, by simp [hle, hx, he], ?_⟩
      rw [List.forall_mem_cons]
      exact ⟨hx, hp⟩
    · exact ⟨[], x :: l, by simp [hle, hx], by simp⟩

theorem append_cons_ne_append_cons {p p' q q' : List α} (huv : u ≠ v) (hv : v ∉ p) (hu : u ∉ p') :
    p ++ u :: q ≠ p' ++ v :: q' := by
  induction p generalizing p' with
  | nil =>
    cases p' with
    | nil => simp [huv]
    | cons y p' => simp_all
  | cons x p ih =>
    cases p' with
    | nil =>
      rw [List.mem_cons, not_or] at hv
      simp [hv.1, eq_comm]
    | cons y p' =>
      rw [List.mem_cons, not_or] at hv hu
      simp [ih hv.2 hu.2]

/-- Elements that are not in order stay as they came. -/
theorem orderedInsert_ne (hle : ∀ a b, le a b ↔ ¬r b a) (huv : u ≠ v)
    (hlt : ¬r u v) (hgt : ¬r v u) (l : List α) :
    (l.orderedInsert le v).orderedInsert le u ≠ (l.orderedInsert le u).orderedInsert le v := by
  obtain ⟨p, q, he, hp⟩ := exists_orderedInsert hle u (l.orderedInsert le v)
  obtain ⟨p', q', he', hp'⟩ := exists_orderedInsert hle v (l.orderedInsert le u)
  rw [he, he']
  exact append_cons_ne_append_cons huv (fun h => hgt (hp v h)) fun h => hlt (hp' u h)

theorem insertionSort_perm_iff (hle : ∀ a b, le a b ↔ ¬r b a)
    (htrans : ∀ {a b c}, r a b → r b c → r a c) (hirrefl : ∀ a, ¬r a a) (l : List α) :
    (∀ l' : List α, l'.Perm l → l'.insertionSort le = l.insertionSort le) ↔
      ∀ a ∈ l, ∀ b ∈ l, a ≠ b → r a b ∨ r b a := by
  constructor
  · intro h a ha b hb hab
    by_contra hno
    rw [not_or] at hno
    obtain ⟨m, hm⟩ : ∃ m, (a :: b :: m).Perm l := exists_perm_cons_cons ha hb hab
    refine orderedInsert_ne hle hab hno.1 hno.2 (m.insertionSort le) ?_
    exact (h _ hm).trans (h _ ((List.Perm.swap a b m).trans hm)).symm
  · intro hcomp l' hp
    exact (insertionSort_eq_of_perm hle htrans hirrefl hp.symm hcomp).symm

/-- Steps that commute while an invariant holds may be taken in any order. -/
theorem foldl_eq_of_perm {β : Type} {f : β → α → β} {P : β → Prop} {l l' : List α} {s : β}
    (hp : l.Perm l') (hs : P s) (hstep : ∀ s, P s → ∀ a ∈ l, P (f s a))
    (hcomm : ∀ s, P s → ∀ a ∈ l, ∀ b ∈ l, f (f s a) b = f (f s b) a) :
    l.foldl f s = l'.foldl f s := by
  induction hp generalizing s with
  | nil => rfl
  | cons x _ ih =>
    rw [List.foldl_cons, List.foldl_cons]
    exact ih (hstep s hs x (by simp)) (fun s hs a ha => hstep s hs a (.tail _ ha))
      fun s hs a ha b hb => hcomm s hs a (.tail _ ha) b (.tail _ hb)
  | swap x y l =>
    rw [List.foldl_cons, List.foldl_cons, List.foldl_cons, List.foldl_cons,
      hcomm s hs x (by simp) y (by simp)]
  | trans hp _ ih₁ ih₂ =>
    exact (ih₁ hs hstep hcomm).trans (ih₂ hs (fun s hs a ha => hstep s hs a (hp.symm.subset ha))
      fun s hs a ha b hb => hcomm s hs a (hp.symm.subset ha) b (hp.symm.subset hb))

/-- Two members stand in one order only. -/
theorem not_pair_sublist {l : List α} (hl : l.Nodup) (huv : [u, v].Sublist l) :
    ¬[v, u].Sublist l := by
  induction l with
  | nil => cases huv
  | cons x l ih =>
    rw [List.nodup_cons] at hl
    intro hvu
    cases huv with
    | cons _ huv =>
      cases hvu with
      | cons _ hvu => exact ih hl.2 huv hvu
      | cons_cons _ hvu => exact hl.1 (huv.subset (by simp))
    | cons_cons _ huv =>
      cases hvu with
      | cons _ hvu => exact hl.1 (hvu.subset (by simp))
      | cons_cons _ hvu => exact hl.1 (hvu.subset (by simp))

end Sorting

end PVS.Library
