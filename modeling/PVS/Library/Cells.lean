import Mathlib.Algebra.Order.Group.Nat
import Mathlib.Data.List.TakeDrop

/-! List cells in a heap, and the removal that reuses the cells of its argument. -/

universe u

namespace PVS.Library

/-- A cell is its element and its tail, which is an older cell. -/
structure Cells (α : Type u) where
  cells : List (α × Option ℕ)
  older : ∀ (p q : ℕ) (x : α), cells[p]? = some (x, some q) → q < p

namespace Cells

variable {α : Type u}

section Reading

variable (h : Cells α)

/-- The tail of a cell -/
def next (p : ℕ) : Option ℕ := (h.cells[p]?).bind Prod.snd

/-- A pointer to a cell that there is, or to none -/
def Mem (r : Option ℕ) : Prop := ∀ p ∈ r, p < h.cells.length

variable {h} in
theorem next_lt {p q : ℕ} (hq : h.next p = some q) : q < p := by
  obtain ⟨⟨x, r⟩, hp, hr⟩ := Option.bind_eq_some_iff.1 hq
  subst hr
  exact h.older p q x hp

/-- The cells from a pointer on -/
def chain (r : Option ℕ) : List (ℕ × α) :=
  match r with
  | none => []
  | some p =>
    match h.cells[p]? with
    | none => []
    | some (x, _) =>
      match _hn : h.next p with
      | none => [(p, x)]
      | some q => (p, x) :: chain (some q)
termination_by r.elim 0 (· + 1)
decreasing_by simpa using next_lt ‹_›

def list (r : Option ℕ) : List α := (h.chain r).map Prod.snd

/-- The first pointer, from one on, to an element that does not pass -/
def skip (test : α → Bool) (r : Option ℕ) : Option ℕ :=
  ((h.chain r).find? fun c => !test c.2).map Prod.fst

/-- The cell stays, and the one after it goes. -/
def Spliced (test : α → Bool) (r : Option ℕ) (p : ℕ) : Prop :=
  ∃ x q y, (p, x) ∈ h.chain r ∧ test x = false ∧ h.next p = some q ∧
    (h.cells[q]?).map Prod.fst = some y ∧ test y = true

end Reading

variable {h h' : Cells α} {p q : ℕ} {x y : α} {r r' : Option ℕ} {test : α → Bool}

theorem next_eq (hp : p < h.cells.length) : h.next p = (h.cells[p]).2 := by
  simp [next, List.getElem?_eq_getElem hp]

theorem Mem.none : h.Mem none := nofun

theorem Mem.next (hp : p < h.cells.length) : h.Mem (h.next p) :=
  fun _ hq => (next_lt hq).trans hp

@[simp] theorem chain_none : h.chain none = [] := by rw [chain]

@[simp] theorem list_none : h.list none = [] := by simp [list]

theorem chain_some (hp : p < h.cells.length) :
    h.chain (some p) = (p, (h.cells[p]).1) :: h.chain (h.next p) := by
  rw [chain]
  simp only [List.getElem?_eq_getElem hp]
  split
  · rename_i hn
    simp [hn]
  · rename_i q hn
    simp [hn]

theorem chain_of_not_lt (hp : ¬ p < h.cells.length) : h.chain (some p) = [] := by
  rw [chain]
  simp [List.getElem?_eq_none (not_lt.1 hp)]

theorem list_some (hp : p < h.cells.length) :
    h.list (some p) = (h.cells[p]).1 :: h.list (h.next p) := by
  simp [list, chain_some hp]

/-- Induction along the tails -/
theorem chain_induction {motive : Option ℕ → Prop} (none : motive none)
    (dangling : ∀ p, ¬ p < h.cells.length → motive (some p))
    (cell : ∀ p, p < h.cells.length → motive (h.next p) → motive (some p)) (r : Option ℕ) :
    motive r := by
  cases r with
  | none => exact none
  | some p =>
    induction p using Nat.strongRecOn with
    | _ p ih =>
      by_cases hp : p < h.cells.length
      · refine cell p hp ?_
        cases hn : h.next p with
        | none => exact none
        | some q => exact ih q (next_lt hn)
      · exact dangling p hp

theorem lt_of_mem_chain (hmem : (q, x) ∈ h.chain r) :
    (h.cells[q]?).map Prod.fst = some x ∧ ∀ p ∈ r, q ≤ p := by
  induction r using chain_induction (h := h) with
  | none => simp at hmem
  | dangling p hp => simp [chain_of_not_lt hp] at hmem
  | cell p hp ih =>
    rw [chain_some hp] at hmem
    obtain heq | hmem := List.mem_cons.1 hmem
    · obtain ⟨rfl, rfl⟩ := Prod.mk.inj heq
      simp [List.getElem?_eq_getElem hp]
    · obtain ⟨hx, hle⟩ := ih hmem
      refine ⟨hx, ?_⟩
      rintro _ ⟨⟩
      cases hn : h.next p with
      | none => simp [hn] at hmem
      | some p' => exact (hle p' hn).trans (next_lt hn).le

/-! ### Writing -/

def rplacd (h : Cells α) (p : ℕ) (r : Option ℕ) (hr : ∀ q ∈ r, q < p) : Cells α where
  cells := h.cells.modify p fun c => (c.1, r)
  older p' q x hp' := by
    rw [List.getElem?_modify] at hp'
    obtain ⟨⟨y, r'⟩, hc, heq⟩ := Option.map_eq_some_iff.1 hp'
    by_cases hpp : p = p'
    · subst hpp
      simp only [if_true, Prod.mk.injEq] at heq
      exact hr q heq.2
    · simp only [hpp, if_false] at heq
      exact h.older p' q x (heq ▸ hc)

def cons (h : Cells α) (x : α) (r : Option ℕ) (hr : h.Mem r) : Cells α where
  cells := h.cells ++ [(x, r)]
  older p q y hp := by
    rw [List.getElem?_append] at hp
    split at hp
    · exact h.older p q y hp
    · rename_i hlt
      rw [List.getElem?_singleton] at hp
      split at hp
      · obtain ⟨rfl, rfl⟩ := Prod.mk.inj (Option.some.inj hp)
        exact (hr q rfl).trans_le (not_lt.1 hlt)
      · cases hp

@[simp] theorem length_rplacd {hr : ∀ q ∈ r, q < p} :
    (h.rplacd p r hr).cells.length = h.cells.length := by
  simp [rplacd]

theorem car_rplacd {hr : ∀ q ∈ r, q < p} :
    ((h.rplacd p r hr).cells[q]?).map Prod.fst = (h.cells[q]?).map Prod.fst := by
  rw [rplacd, List.getElem?_modify, Option.map_eq_map, Option.map_map]
  congr 1
  funext c
  by_cases hpq : p = q <;> simp [hpq]

theorem next_rplacd_self {hr : ∀ q ∈ r, q < p} (hp : p < h.cells.length) :
    (h.rplacd p r hr).next p = r := by
  simp [next, rplacd, List.getElem?_eq_getElem hp]

theorem next_rplacd_of_ne {hr : ∀ q ∈ r, q < p} (hne : p ≠ q) :
    (h.rplacd p r hr).next q = h.next q := by
  simp [next, rplacd, hne]

/-- The cells of two heaps agree, but for their tails. -/
def SameCars (h h' : Cells α) : Prop :=
  ∀ p : ℕ, (h'.cells[p]?).map Prod.fst = (h.cells[p]?).map Prod.fst

theorem SameCars.length (hs : SameCars h h') : h'.cells.length = h.cells.length := by
  refine le_antisymm ?_ ?_ <;> by_contra hlt
  · have := hs h.cells.length
    simp [List.getElem?_eq_getElem (not_le.1 hlt)] at this
  · have := hs h'.cells.length
    simp [List.getElem?_eq_getElem (not_le.1 hlt)] at this

theorem SameCars.car (hs : SameCars h h') (hp : p < h.cells.length)
    (hp' : p < h'.cells.length) : (h'.cells[p]).1 = (h.cells[p]).1 := by
  have := hs p
  simpa [List.getElem?_eq_getElem hp, List.getElem?_eq_getElem hp'] using this

/-- A chain is the same where its tails are. -/
theorem SameCars.chain_congr (hs : SameCars h h')
    (hnext : ∀ c ∈ h.chain r, h'.next c.1 = h.next c.1) : h'.chain r = h.chain r := by
  induction r using chain_induction (h := h) with
  | none => simp
  | dangling p hp => rw [chain_of_not_lt hp, chain_of_not_lt (hs.length ▸ hp)]
  | cell p hp ih =>
    have hp' : p < h'.cells.length := hs.length ▸ hp
    rw [chain_some hp] at hnext ⊢
    have htail := ih fun c hc => hnext c (List.mem_cons_of_mem _ hc)
    have hhead := hnext _ List.mem_cons_self
    rw [chain_some hp', hs.car hp hp', hhead, htail]

theorem chain_rplacd {hr : ∀ q ∈ r, q < p} (hlt : ∀ q ∈ r', q < p) :
    (h.rplacd p r hr).chain r' = h.chain r' := by
  have hs : SameCars h (h.rplacd p r hr) := fun _ => car_rplacd
  refine hs.chain_congr fun c hc => next_rplacd_of_ne ?_
  rintro rfl
  cases hr' : r' with
  | none => simp [hr'] at hc
  | some q => exact absurd (hlt q hr') (not_lt.2 ((lt_of_mem_chain hc).2 q hr'))

/-! ### The removal -/

section Removal

variable (test)

/-- `delete-if` from a cell on; the cell before it is the last one that stayed. -/
def deleteLoop (h : Cells α) (head previous : Option ℕ) (current : Option ℕ)
    (hin : h.Mem current) (hbelow : ∀ q ∈ previous, ∀ c ∈ current, c < q) :
    Cells α × Option ℕ :=
  match current, hin, hbelow with
  | none, _, _ => (h, head)
  | some c, hin, hbelow =>
    have hc : c < h.cells.length := hin c rfl
    if test (h.cells[c]).1 then
      match previous, hbelow with
      | none, _ => deleteLoop h (h.next c) none (h.next c) (.next hc) nofun
      | some q, hbelow =>
        have hlt : ∀ c' ∈ h.next c, c' < q := fun _ hc' => (next_lt hc').trans (hbelow q rfl c rfl)
        deleteLoop (h.rplacd q (h.next c) hlt) head (some q) (h.next c)
          (fun _ hc' => by simpa using Mem.next hc _ hc')
          (by rintro _ ⟨⟩; exact hlt)
    else deleteLoop h head (some c) (h.next c) (.next hc)
      (by rintro _ ⟨⟩ _ hc'; exact next_lt hc')
termination_by current.elim 0 (· + 1)
decreasing_by
  all_goals
    cases hn : h.next c with
    | none => simp
    | some q => simpa using next_lt hn

/-- The list, of which the cells are reused, without the elements that pass -/
def deleteIf (h : Cells α) (r : Option ℕ) (hin : h.Mem r) : Cells α × Option ℕ :=
  deleteLoop test h r none r hin nofun

variable {test}

theorem skip_some_of_pass (hp : p < h.cells.length) (hx : test (h.cells[p]).1 = true) :
    h.skip test (some p) = h.skip test (h.next p) := by
  simp [skip, chain_some hp, hx]

theorem skip_some_of_not_pass (hp : p < h.cells.length) (hx : ¬ test (h.cells[p]).1 = true) :
    h.skip test (some p) = some p := by
  simp [skip, chain_some hp, hx]

/-- The tails after the removal: where a cell stays, its tail leaves out what passes. -/
structure Removed (test : α → Bool) (h : Cells α) (previous current : Option ℕ) (h' : Cells α) :
    Prop where
  cars : SameCars h h'
  stays : ∀ p, (p ∈ previous ∨ ∃ x, (p, x) ∈ h.chain current ∧ test x = false) →
    h'.next p = h.skip test (h.next p)
  frame : ∀ p, p ∉ previous → (∀ x, (p, x) ∈ h.chain current → test x = true) →
    h'.next p = h.next p

theorem skip_rplacd {hr : ∀ q ∈ r, q < p} (hlt : ∀ q ∈ r', q < p) :
    (h.rplacd p r hr).skip test r' = h.skip test r' := by
  rw [skip, skip, chain_rplacd hlt]

theorem deleteLoop_removed (h : Cells α) (head previous current : Option ℕ)
    (hin : h.Mem current) (hbelow : ∀ q ∈ previous, ∀ c ∈ current, c < q)
    (hprev : ∀ q ∈ previous, q < h.cells.length ∧ h.next q = current) :
    Removed test h previous current (deleteLoop test h head previous current hin hbelow).1 := by
  fun_induction deleteLoop test h head previous current hin hbelow with
  | case1 h head previous hin hbelow =>
    refine ⟨fun _ => rfl, ?_, fun _ _ _ => rfl⟩
    rintro p (hp | ⟨x, hp, -⟩)
    · simp [(hprev p hp).2, skip]
    · simp at hp
  | case2 h head c hin hc hx hbelow _ _ _ _ ih =>
    obtain ⟨hcars, hstays, hframe⟩ := ih nofun
    refine ⟨hcars, ?_, ?_⟩
    · rintro p (hp | ⟨x, hp, hpx⟩)
      · cases hp
      · rw [chain_some hc] at hp
        obtain heq | hp := List.mem_cons.1 hp
        · obtain ⟨rfl, rfl⟩ := Prod.mk.inj heq
          rw [hx] at hpx
          cases hpx
        · exact hstays p (.inr ⟨x, hp, hpx⟩)
    · intro p _ hp
      refine hframe p nofun fun x hx' => hp x ?_
      rw [chain_some hc]
      exact List.mem_cons_of_mem _ hx'
  | case3 h head c hin hc hx q hbelow hlt _ _ _ _ ih =>
    have hqh : q < h.cells.length := (hprev q rfl).1
    have hself : (h.rplacd q (h.next c) hlt).next q = h.next c := next_rplacd_self hqh
    have hchain : (h.rplacd q (h.next c) hlt).chain (h.next c) = h.chain (h.next c) :=
      chain_rplacd hlt
    obtain ⟨hcars, hstays, hframe⟩ := ih (by
      rintro _ ⟨⟩
      exact ⟨by simpa using hqh, hself⟩)
    rw [hchain] at hstays hframe
    have hqp : ∀ {p x}, (p, x) ∈ h.chain (h.next c) → p < q := by
      intro p x hp
      cases hn : h.next c with
      | none => simp [hn] at hp
      | some c' => exact ((lt_of_mem_chain hp).2 c' hn).trans_lt (hlt c' hn)
    refine ⟨fun p => (hcars p).trans car_rplacd, ?_, ?_⟩
    · rintro p (hp | ⟨x, hp, hpx⟩)
      · cases hp
        rw [hstays q (.inl rfl), hself, skip_rplacd hlt, (hprev q rfl).2, skip_some_of_pass hc hx]
      · rw [chain_some hc] at hp
        obtain heq | hp := List.mem_cons.1 hp
        · obtain ⟨rfl, rfl⟩ := Prod.mk.inj heq
          rw [hx] at hpx
          cases hpx
        · rw [hstays p (.inr ⟨x, hp, hpx⟩), next_rplacd_of_ne (hqp hp).ne']
          exact skip_rplacd fun p' hp' => (next_lt hp').trans (hqp hp)
    · intro p hpq hp
      have hne : p ≠ q := fun he => hpq (congrArg some he.symm)
      rw [hframe p hpq, next_rplacd_of_ne hne.symm]
      intro x hx'
      refine hp x ?_
      rw [chain_some hc]
      exact List.mem_cons_of_mem _ hx'
  | case4 h head previous c hin hbelow hc hx _ _ ih =>
    obtain ⟨hcars, hstays, hframe⟩ := ih (by rintro _ ⟨⟩; exact ⟨hc, rfl⟩)
    have hnot : ∀ p ∈ previous, ∀ x, (p, x) ∉ h.chain (some c) := fun p hp x hmem =>
      absurd ((lt_of_mem_chain hmem).2 c rfl) (not_le.2 (hbelow p hp c rfl))
    rw [chain_some hc] at hnot
    refine ⟨hcars, ?_, ?_⟩ <;> rw [chain_some hc]
    · rintro p (hp | ⟨x, hp, hpx⟩)
      · have hne : p ≠ c := (hbelow p hp c rfl).ne'
        rw [hframe p (fun he => hne (Option.some.inj he).symm), (hprev p hp).2,
          skip_some_of_not_pass hc hx]
        exact fun x hx' => absurd (List.mem_cons_of_mem _ hx') (hnot p hp x)
      · obtain heq | hp := List.mem_cons.1 hp
        · obtain ⟨rfl, -⟩ := Prod.mk.inj heq
          exact hstays p (.inl rfl)
        · exact hstays p (.inr ⟨x, hp, hpx⟩)
    · intro p _ hp
      refine hframe p ?_ fun x hx' => hp x (List.mem_cons_of_mem _ hx')
      rintro ⟨⟩
      exact hx (hp _ List.mem_cons_self)

theorem deleteLoop_head (h : Cells α) (head previous current : Option ℕ)
    (hin : h.Mem current) (hbelow : ∀ q ∈ previous, ∀ c ∈ current, c < q)
    (hhead : previous = none → head = current) :
    (deleteLoop test h head previous current hin hbelow).2 =
      if previous.isSome then head else h.skip test current := by
  fun_induction deleteLoop test h head previous current hin hbelow with
  | case1 h head previous hin hbelow =>
    cases previous with
    | none => simp [hhead, skip]
    | some q => simp
  | case2 h head c hin hc hx hbelow _ _ _ _ ih => simpa [skip_some_of_pass hc hx] using ih
  | case3 h head c hin hc hx q hbelow hlt _ _ _ _ ih => simpa using ih
  | case4 h head previous c hin hbelow hc hx _ _ ih =>
    cases previous with
    | none => simpa [skip_some_of_not_pass hc hx, hhead] using ih
    | some q => simpa using ih

/-! ### What other lists see of the removal -/

section Deleted

variable (hin : h.Mem r)

theorem deleteIf_removed : Removed test h none r (deleteIf test h r hin).1 :=
  deleteLoop_removed h r none r hin nofun nofun

theorem deleteIf_head : (deleteIf test h r hin).2 = h.skip test r := by
  rw [deleteIf, deleteLoop_head _ _ _ _ _ _ fun _ => rfl]
  simp

end Deleted

theorem length_chain_skip_le : (h.chain (h.skip test r)).length ≤ (h.chain r).length := by
  induction r using chain_induction (h := h) with
  | none => simp [skip]
  | dangling p hp => simp [skip, chain_of_not_lt hp]
  | cell p hp ih =>
    by_cases hx : test (h.cells[p]).1 = true
    · rw [skip_some_of_pass hp hx, chain_some hp]
      exact ih.trans (Nat.le_succ _)
    · rw [skip_some_of_not_pass hp hx]

theorem length_chain_skip_lt (hp : p < h.cells.length) (hx : test (h.cells[p]).1 = true) :
    (h.chain (h.skip test (some p))).length < (h.chain (some p)).length := by
  rw [skip_some_of_pass hp hx, chain_some hp]
  exact Nat.lt_succ_of_le length_chain_skip_le

theorem skip_lt (hlt : ∀ q ∈ r, q < p) : ∀ q ∈ h.skip test r, q < p := by
  intro q hq
  obtain ⟨c, hc, rfl⟩ := Option.map_eq_some_iff.1 hq
  have hmem := List.mem_of_find?_eq_some hc
  cases hr : r with
  | none => simp [hr] at hmem
  | some p' => exact ((lt_of_mem_chain hmem).2 p' hr).trans_lt (hlt p' hr)

namespace Removed

theorem nil : Removed test h none none h where
  cars _ := rfl
  stays p hp := by simp at hp
  frame _ _ _ := rfl

variable (hr : Removed test h none r h')
include hr

theorem next_eq_or (p : ℕ) :
    h'.next p = h.next p ∨
      h'.next p = h.skip test (h.next p) ∧ ∃ x, (p, x) ∈ h.chain r ∧ test x = false := by
  by_cases hp : ∃ x, (p, x) ∈ h.chain r ∧ test x = false
  · exact .inr ⟨hr.stays p (.inr hp), hp⟩
  · refine .inl (hr.frame p nofun fun x hx => ?_)
    by_contra hpx
    exact hp ⟨x, hx, by simpa using hpx⟩

theorem next_of_not_spliced (hns : ¬ h.Spliced test r p) : h'.next p = h.next p := by
  obtain heq | ⟨heq, x, hx, hpx⟩ := hr.next_eq_or p
  · exact heq
  · rw [heq]
    cases hn : h.next p with
    | none => simp [skip]
    | some q =>
      have hq : q < h.cells.length := by
        refine (next_lt hn).trans ?_
        have := (lt_of_mem_chain hx).1
        by_contra hge
        rw [List.getElem?_eq_none (not_lt.1 hge)] at this
        cases this
      refine skip_some_of_not_pass hq fun hy => hns ?_
      exact ⟨x, q, (h.cells[q]).1, hx, hpx, hn, by simp [List.getElem?_eq_getElem hq], hy⟩

theorem next_of_spliced (hs : h.Spliced test r p) :
    (h.chain (h'.next p)).length < (h.chain (h.next p)).length := by
  obtain ⟨x, q, y, hx, hpx, hn, hy, hqy⟩ := hs
  have hq : q < h.cells.length := by
    by_contra hge
    rw [List.getElem?_eq_none (not_lt.1 hge)] at hy
    cases hy
  rw [List.getElem?_eq_getElem hq] at hy
  rw [hr.stays p (.inr ⟨x, hx, hpx⟩), hn]
  refine length_chain_skip_lt hq ?_
  rwa [Option.some.inj hy]

theorem length_next_le (p : ℕ) :
    (h.chain (h'.next p)).length ≤ (h.chain (h.next p)).length := by
  obtain heq | ⟨heq, -⟩ := hr.next_eq_or p <;> rw [heq]
  exact length_chain_skip_le

theorem length_chain_le (n : ℕ) (r' : Option ℕ) (hn : ∀ p ∈ r', p < n) :
    (h'.chain r').length ≤ (h.chain r').length := by
  induction n generalizing r' with
  | zero =>
    cases r' with
    | none => simp
    | some p => cases hn p rfl
  | succ n ih =>
    cases r' with
    | none => simp
    | some p =>
      by_cases hp : p < h.cells.length
      · have hp' : p < h'.cells.length := hr.cars.length ▸ hp
        rw [chain_some hp, chain_some hp']
        have htail := ih (h'.next p) fun q hq =>
          (next_lt hq).trans_le (Nat.le_of_lt_succ (hn p rfl))
        exact Nat.succ_le_succ (htail.trans (hr.length_next_le p))
      · have hp' : ¬ p < h'.cells.length := hr.cars.length ▸ hp
        rw [chain_of_not_lt hp, chain_of_not_lt hp']

/-- A list that has a spliced cell loses an element. -/
theorem length_chain_lt {c : ℕ × α} {r' : Option ℕ} (hc : c ∈ h.chain r')
    (hs : h.Spliced test r c.1) : (h'.chain r').length < (h.chain r').length := by
  induction r' using chain_induction (h := h) with
  | none => simp at hc
  | dangling p hp => simp [chain_of_not_lt hp] at hc
  | cell p hp ih =>
    have hp' : p < h'.cells.length := hr.cars.length ▸ hp
    have hle := hr.length_chain_le p (h'.next p) fun q hq => next_lt hq
    rw [chain_some hp] at hc ⊢
    rw [chain_some hp']
    refine Nat.succ_lt_succ ?_
    by_cases hsp : h.Spliced test r p
    · exact hle.trans_lt (hr.next_of_spliced hsp)
    · obtain rfl | hc := List.mem_cons.1 hc
      · exact absurd hs hsp
      · rw [hr.next_of_not_spliced hsp]
        exact ih hc

/-- A list stays as it is, unless one of its cells is spliced. -/
theorem list_eq_iff (r' : Option ℕ) :
    h'.list r' = h.list r' ↔ ∀ c ∈ h.chain r', ¬ h.Spliced test r c.1 := by
  constructor
  · intro heq c hc hs
    have hlen := congrArg List.length heq
    simp only [list, List.length_map] at hlen
    exact (hr.length_chain_lt hc hs).ne hlen
  · intro hns
    rw [list, list, hr.cars.chain_congr fun c hc => hr.next_of_not_spliced (hns c hc)]

theorem list_skip (r' : Option ℕ) (hsub : ∀ c ∈ h.chain r', c ∈ h.chain r) :
    h'.list (h.skip test r') = (h.list r').filter fun x => !test x := by
  induction r' using chain_induction (h := h) with
  | none => simp [skip]
  | dangling p hp => simp [skip, list, chain_of_not_lt hp]
  | cell p hp ih =>
    have hp' : p < h'.cells.length := hr.cars.length ▸ hp
    rw [chain_some hp] at hsub
    have htail := ih fun c hc => hsub c (List.mem_cons_of_mem _ hc)
    rw [list_some hp]
    by_cases hx : test (h.cells[p]).1 = true
    · rw [skip_some_of_pass hp hx, htail, List.filter_cons_of_neg (by simpa using hx)]
    · have hmem := hsub _ List.mem_cons_self
      rw [skip_some_of_not_pass hp hx, list_some hp', hr.cars.car hp hp',
        hr.stays p (.inr ⟨_, hmem, by simpa using hx⟩), htail,
        List.filter_cons_of_pos (by simpa using hx)]

end Removed

/-- What the removal returns is the list filtered. -/
theorem list_deleteIf (hin : h.Mem r) :
    (deleteIf test h r hin).1.list (deleteIf test h r hin).2 =
      (h.list r).filter fun x => !test x := by
  rw [deleteIf_head]
  exact (deleteIf_removed hin).list_skip r fun _ hc => hc

theorem deleteIf_mem (hin : h.Mem r) : (deleteIf test h r hin).1.Mem (deleteIf test h r hin).2 := by
  intro p hp
  rw [deleteIf_head] at hp
  rw [(deleteIf_removed hin).cars.length]
  exact skip_lt hin p hp

end Removal

/-! ### A new cell -/

section Cons

variable (hin : h.Mem r)

@[simp] theorem length_cons : (h.cons x r hin).cells.length = h.cells.length + 1 := by simp [cons]

theorem getElem?_cons (hp : p < h.cells.length) :
    (h.cons x r hin).cells[p]? = h.cells[p]? := List.getElem?_append_left hp

theorem chain_cons (hr' : h.Mem r') : (h.cons x r hin).chain r' = h.chain r' := by
  induction r' using chain_induction (h := h) with
  | none => simp
  | dangling p hp => exact absurd (hr' p rfl) hp
  | cell p hp ih =>
    have hp' : p < (h.cons x r hin).cells.length := by simp; omega
    have hcell : (h.cons x r hin).cells[p] = h.cells[p] := List.getElem_append_left hp
    rw [chain_some hp, chain_some hp', next_eq hp', hcell, ← next_eq hp, ih (.next hp)]

theorem list_cons_of_mem (hr' : h.Mem r') : (h.cons x r hin).list r' = h.list r' := by
  rw [list, list, chain_cons hin hr']

theorem list_cons : (h.cons x r hin).list (some h.cells.length) = x :: h.list r := by
  have hp : h.cells.length < (h.cons x r hin).cells.length := by simp
  have hcell : (h.cons x r hin).cells[h.cells.length] = (x, r) := by simp [cons]
  rw [list_some hp, next_eq hp, hcell, list_cons_of_mem hin hin]

end Cons

end Cells
end PVS.Library
