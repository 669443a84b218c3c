import PVS.GroundProver.Chaining
import PVS.GroundProver.Solved

/-! Of two bounds the better one implies the other, and between two bounds there are only so many
integers. -/

namespace PVS.GroundProver

open Library SExp

variable {ρ : String → ℚ} {a b x y : SExp} {op : String}

/-! ### Comparing numbers -/

theorem qval_lt_iff {n m d e : ℤ} (hd : 0 < d) (he : 0 < e) :
    (n : ℚ) / d < m / e ↔ n * e < m * d := by
  have hd' : (0 : ℚ) < d := by exact_mod_cast hd
  have he' : (0 : ℚ) < e := by exact_mod_cast he
  rw [div_lt_div_iff₀ hd' he']
  exact_mod_cast Iff.rfl

theorem qlessp_iff (hx : PosNumber x) (hy : PosNumber y) : qlessp x y = true ↔ qval x < qval y := by
  cases hx with
  | int i =>
    cases hy with
    | int j => simp [qlessp]
    | @quo m e he =>
      have h := qval_lt_iff (n := i) (m := m) one_pos he
      rw [Int.cast_one, div_one, mul_one] at h
      rw [qval_int, qval_qmake, h]
      exact decide_eq_true_iff
  | @quo n d hd =>
    cases hy with
    | int j =>
      have h := qval_lt_iff (n := n) (m := j) hd one_pos
      rw [Int.cast_one, div_one, mul_one] at h
      rw [qval_int, qval_qmake, h]
      exact decide_eq_true_iff
    | @quo m e he =>
      rw [qval_qmake, qval_qmake, qval_lt_iff hd he]
      exact decide_eq_true_iff

theorem qgreaterp_eq (hx : PosNumber x) (hy : PosNumber y) : qgreaterp x y = qlessp y x := by
  cases hx <;> cases hy <;> rfl

theorem qgreaterp_iff (hx : PosNumber x) (hy : PosNumber y) :
    qgreaterp x y = true ↔ qval y < qval x := by
  rw [qgreaterp_eq hx hy, qlessp_iff hy hx]

theorem qlesseqp_iff (hx : PosNumber x) (hy : PosNumber y) :
    qlesseqp x y = true ↔ qval x ≤ qval y := by
  rw [qlesseqp, Bool.not_eq_true', ← Bool.not_eq_true, qgreaterp_iff hx hy, not_lt]

theorem qmin_mem (x : SExp) (l : List SExp) : qmin x l ∈ x :: l := by
  unfold qmin
  induction l generalizing x with
  | nil => exact List.mem_singleton_self x
  | cons y l ih =>
    rw [List.foldl_cons]
    rcases List.mem_cons.1 (ih (if qlessp y x then y else x)) with h | h
    · rw [h]
      split <;> simp
    · exact List.mem_cons_of_mem _ (List.mem_cons_of_mem _ h)

theorem qmax_mem (x : SExp) (l : List SExp) : qmax x l ∈ x :: l := by
  unfold qmax
  induction l generalizing x with
  | nil => exact List.mem_singleton_self x
  | cons y l ih =>
    rw [List.foldl_cons]
    rcases List.mem_cons.1 (ih (if qgreaterp y x then y else x)) with h | h
    · rw [h]
      split <;> simp
    · exact List.mem_cons_of_mem _ (List.mem_cons_of_mem _ h)

/-! ### Subsumed inequalities -/

theorem isUpper_iff {u : SExp} : isUpper u = true ↔ u.funsym = .sym "lesseqp" ∨ u.funsym = .sym "lessp" := by
  simp [isUpper]

theorem isLower_iff {u : SExp} :
    isLower u = true ↔ u.funsym = .sym "greatereqp" ∨ u.funsym = .sym "greaterp" := by
  simp [isLower]

theorem holds_upper {u : SExp} (hu : isUpper u = true) :
    (value ρ u.arg1 < value ρ u.arg2 → Holds ρ u) ∧ (Holds ρ u → value ρ u.arg1 ≤ value ρ u.arg2) := by
  rcases isUpper_iff.1 hu with e | e
  · refine ⟨fun h => ⟨_, e, h.le⟩, ?_⟩
    rintro ⟨op, e', h⟩
    obtain rfl : "lesseqp" = op := by simpa [e] using e'
    exact h
  · refine ⟨fun h => ⟨_, e, h⟩, ?_⟩
    rintro ⟨op, e', h⟩
    obtain rfl : "lessp" = op := by simpa [e] using e'
    exact le_of_lt h

theorem holds_lower {u : SExp} (hu : isLower u = true) :
    (value ρ u.arg2 < value ρ u.arg1 → Holds ρ u) ∧ (Holds ρ u → value ρ u.arg2 ≤ value ρ u.arg1) := by
  rcases isLower_iff.1 hu with e | e
  · refine ⟨fun h => ⟨_, e, h.le⟩, ?_⟩
    rintro ⟨op, e', h⟩
    obtain rfl : "greatereqp" = op := by simpa [e] using e'
    exact h
  · refine ⟨fun h => ⟨_, e, h⟩, ?_⟩
    rintro ⟨op, e', h⟩
    obtain rfl : "greaterp" = op := by simpa [e] using e'
    exact le_of_lt h

/-- Where a side is numeric it is a number. -/
def BoundsNumeric (l : List SExp) : Prop := ∀ u ∈ l, qnumberp u.arg2 = true → PosNumber u.arg2

theorem best_upper {ineqs : List SExp} {u : SExp} {lower : Option SExp} (hnum : BoundsNumeric ineqs)
    (hside : ∀ v ∈ ineqs, v.arg1 = u.arg1) (hu : u ∈ ineqs) {upper : SExp}
    (hupper : upper ∈ numericUpperBounds ineqs) (hup : isUpper u = true)
    (hn : qnumberp u.arg2 = true) (hlt : qlessp upper u.arg2 = true) :
    ∃ v ∈ ineqs, subsumedIneq v (some upper) lower = false ∧ ∀ ρ, Holds ρ v → Holds ρ u := by
  obtain ⟨v, hv, rfl⟩ := List.mem_map.1 hupper
  rw [List.mem_filter, Bool.and_eq_true] at hv
  obtain ⟨hv, hvn, hvup⟩ := hv
  refine ⟨v, hv, ?_, fun ρ h => (holds_upper hup).1 ?_⟩
  · have hself : qlessp v.arg2 v.arg2 = false := by
      rw [← Bool.not_eq_true, qlessp_iff (hnum v hv hvn) (hnum v hv hvn)]
      exact lt_irrefl _
    simp [subsumedIneq, hvup, hself]
  · have hle := (holds_upper hvup).2 h
    have hlt := (qlessp_iff (hnum v hv hvn) (hnum u hu hn)).1 hlt
    rw [hside v hv, value_number (hnum v hv hvn).number] at hle
    rw [value_number (hnum u hu hn).number]
    exact lt_of_le_of_lt hle hlt

theorem not_isUpper_of_isLower {u : SExp} (h : isLower u = true) : isUpper u = false := by
  rcases isLower_iff.1 h with e | e <;> simp [isUpper, e]

theorem best_lower {ineqs : List SExp} {u : SExp} {upper : Option SExp} (hnum : BoundsNumeric ineqs)
    (hside : ∀ v ∈ ineqs, v.arg1 = u.arg1) (hu : u ∈ ineqs) {lower : SExp}
    (hlower : lower ∈ numericLowerBounds ineqs) (hlow : isLower u = true)
    (hn : qnumberp u.arg2 = true) (hlt : qlessp u.arg2 lower = true) :
    ∃ v ∈ ineqs, subsumedIneq v upper (some lower) = false ∧ ∀ ρ, Holds ρ v → Holds ρ u := by
  obtain ⟨v, hv, rfl⟩ := List.mem_map.1 hlower
  rw [List.mem_filter, Bool.and_eq_true] at hv
  obtain ⟨hv, hvn, hvlow⟩ := hv
  refine ⟨v, hv, ?_, fun ρ h => (holds_lower hlow).1 ?_⟩
  · have hself : qlessp v.arg2 v.arg2 = false := by
      rw [← Bool.not_eq_true, qlessp_iff (hnum v hv hvn) (hnum v hv hvn)]
      exact lt_irrefl _
    simp [subsumedIneq, hvlow, not_isUpper_of_isLower hvlow, hself]
  · have hle := (holds_lower hvlow).2 h
    have hlt := (qlessp_iff (hnum u hu hn) (hnum v hv hvn)).1 hlt
    rw [hside v hv, value_number (hnum v hv hvn).number] at hle
    rw [value_number (hnum u hu hn).number]
    exact lt_of_lt_of_le hlt hle

theorem mem_of_bestupper {ineqs : List SExp} {upper : SExp} (h : bestupper ineqs = some upper) :
    upper ∈ numericUpperBounds ineqs := by
  unfold bestupper at h
  split at h
  · cases h
  · rename_i e
    rw [e, ← Option.some.inj h]
    exact qmin_mem _ _

theorem mem_of_bestlower {ineqs : List SExp} {lower : SExp} (h : bestlower ineqs = some lower) :
    lower ∈ numericLowerBounds ineqs := by
  unfold bestlower at h
  split at h
  · cases h
  · rename_i e
    rw [e, ← Option.some.inj h]
    exact qmax_mem _ _

/-- What the filter of `chainineqs` drops is implied by an inequality that it keeps. -/
theorem okayIneqs_keeps {ineqs : List SExp} (hnum : BoundsNumeric ineqs)
    (hside : ∀ v ∈ ineqs, v.arg1 = a) {u : SExp} (hu : u ∈ ineqs) :
    ∃ v ∈ okayIneqs ineqs, ∀ ρ, Holds ρ v → Holds ρ u := by
  by_cases hkept : u ∈ okayIneqs ineqs
  · exact ⟨u, hkept, fun _ h => h⟩
  have hside' : ∀ v ∈ ineqs, v.arg1 = u.arg1 := fun v hv => (hside v hv).trans (hside u hu).symm
  have hmem : ∀ v, v ∈ okayIneqs ineqs ↔ v ∈ ineqs ∧
      subsumedIneq v (bestupper ineqs) (bestlower ineqs) = false := by
    intro v
    rw [okayIneqs, List.mem_filter, Bool.not_eq_true']
  rw [hmem, not_and, Bool.not_eq_false, subsumedIneq.eq_def, Bool.and_eq_true] at hkept
  obtain ⟨hn, hlt⟩ := hkept hu
  split at hlt
  · rename_i hbest hupper
    obtain ⟨v, hv, h, himp⟩ := best_upper hnum hside' hu (mem_of_bestupper hbest) hupper hn hlt
    exact ⟨v, (hmem v).2 ⟨hv, hbest ▸ h⟩, himp⟩
  · rename_i hbest hlower _
    obtain ⟨v, hv, h, himp⟩ := best_lower hnum hside' hu (mem_of_bestlower hbest) hlower hn hlt
    exact ⟨v, (hmem v).2 ⟨hv, hbest ▸ h⟩, himp⟩
  · cases hlt

theorem subsumedUpper_implies (ha : PosNumber a.arg2) (hb : PosNumber b.arg2) (hup : isUpper a = true)
    (h : subsumedUpper a b = true) (hρ : Holds ρ b) : Holds ρ a := by
  rw [subsumedUpper, Bool.and_eq_true, beq_iff_eq] at h
  obtain ⟨hside, h⟩ := h
  obtain ⟨op, hop, hb'⟩ := hρ
  rw [← hside, value_number hb.number] at hb'
  split at h
  · rename_i hle
    obtain rfl : "lesseqp" = op := by simpa [hle] using hop
    rw [Bool.or_eq_true, Bool.and_eq_true, beq_iff_eq, qlessp_iff hb ha, qlesseqp_iff hb ha] at h
    rcases h with h | ⟨hfn, h⟩
    · apply (holds_upper hup).1
      rw [value_number ha.number]
      exact lt_of_le_of_lt hb' h
    · refine ⟨_, hfn, ?_⟩
      rw [value_number ha.number]
      exact le_trans hb' h
  · rw [Bool.and_eq_true, beq_iff_eq, qlesseqp_iff hb ha] at h
    obtain rfl : "lessp" = op := by simpa [h.1] using hop
    apply (holds_upper hup).1
    rw [value_number ha.number]
    exact lt_of_lt_of_le hb' h.2

theorem subsumedLower_implies (ha : PosNumber a.arg2) (hb : PosNumber b.arg2) (hlow : isLower a = true)
    (h : subsumedLower a b = true) (hρ : Holds ρ b) : Holds ρ a := by
  rw [subsumedLower, Bool.and_eq_true, beq_iff_eq] at h
  obtain ⟨hside, h⟩ := h
  obtain ⟨op, hop, hb'⟩ := hρ
  rw [← hside, value_number hb.number] at hb'
  split at h
  · rename_i hle
    obtain rfl : "greatereqp" = op := by simpa [hle] using hop
    rw [Bool.or_eq_true, Bool.and_eq_true, beq_iff_eq, qlessp_iff ha hb, qlesseqp_iff ha hb] at h
    rcases h with h | ⟨hfn, h⟩
    · apply (holds_lower hlow).1
      rw [value_number ha.number]
      exact lt_of_lt_of_le h hb'
    · refine ⟨_, hfn, ?_⟩
      rw [value_number ha.number]
      exact le_trans h hb'
  · rw [Bool.and_eq_true, beq_iff_eq, qlesseqp_iff ha hb] at h
    obtain rfl : "greaterp" = op := by simpa [h.1] using hop
    apply (holds_lower hlow).1
    rw [value_number ha.number]
    exact lt_of_le_of_lt h.2 hb'

theorem isLower_of_not_isUpper (h : isineq a = true) (hup : isUpper a = false) : isLower a = true := by
  rw [isineq, Bool.and_eq_true] at h
  have hmem := h.2
  simp only [memq, arithrels, List.any_cons, List.any_nil, Bool.or_false, Bool.or_eq_true,
    beq_iff_eq] at hmem
  rw [isLower_iff]
  rcases hmem with e | e | e | e
  · simp [isUpper, e] at hup
  · simp [isUpper, e] at hup
  · exact .inr e
  · exact .inl e

theorem subsumedIneqList_implies {s : List SExp} (ha : PosNumber a.arg2) (hineq : isineq a = true)
    (hs : ∀ b ∈ s, boundInequality b = true → PosNumber b.arg2) (h : subsumedIneqList a s = true) :
    ∃ b ∈ s, ∀ ρ, Holds ρ b → Holds ρ a := by
  unfold subsumedIneqList at h
  split at h
  · rename_i hup
    obtain ⟨b, hb, h⟩ := List.any_eq_true.1 h
    rw [Bool.and_eq_true] at h
    exact ⟨b, hb, fun ρ => subsumedUpper_implies ha (hs b hb h.1) hup h.2⟩
  · rename_i hup
    obtain ⟨b, hb, h⟩ := List.any_eq_true.1 h
    rw [Bool.and_eq_true] at h
    have hlow := isLower_of_not_isUpper hineq (Bool.not_eq_true _ ▸ hup)
    exact ⟨b, hb, fun ρ => subsumedLower_implies ha (hs b hb h.1) hlow h.2⟩

/-- The numeric bounds among the atoms are numbers. -/
def NumericAtoms (l : List SExp) : Prop := ∀ u ∈ l, boundInequality u = true → PosNumber u.arg2

/-- What `add2pot` does not push is implied by an atom of the list. -/
theorem add2pot_keeps (T : Theories) {atoms : List SExp} {st st' : ProverState}
    {r : Except Signal Unit} (hatoms : NumericAtoms atoms) (hs : NumericAtoms st.s)
    (h : Evals (add2pot { T with subsumedIneqList := subsumedIneqList } atoms) st r st') :
    st.s ⊆ st'.s ∧ ∀ u ∈ atoms, u ∈ st'.s ∨ ∃ v ∈ st'.s, ∀ ρ, Holds ρ v → Holds ρ u := by
  obtain ⟨-, rfl⟩ := h.unique (evals_modify _ _)
  clear h
  have key : ∀ atoms : List SExp, NumericAtoms atoms → ∀ s, s = atoms.foldr
      (fun a s => if boundInequality a && subsumedIneqList a s then s else a :: s) st.s →
      NumericAtoms s ∧ st.s ⊆ s ∧
        ∀ u ∈ atoms, u ∈ s ∨ ∃ v ∈ s, ∀ ρ, Holds ρ v → Holds ρ u := by
    intro atoms hatoms
    induction atoms with
    | nil =>
      rintro s rfl
      exact ⟨hs, fun _ h => h, fun _ h => nomatch h⟩
    | cons a atoms ih =>
      rintro s rfl
      obtain ⟨hnum, hsub, hkeep⟩ := ih (fun u hu => hatoms u (List.mem_cons_of_mem _ hu)) _ rfl
      rw [List.foldr_cons]
      generalize atoms.foldr (fun a s => if boundInequality a && subsumedIneqList a s then s
        else a :: s) st.s = s at hnum hsub hkeep
      split
      · rename_i hdrop
        rw [Bool.and_eq_true] at hdrop
        have hineq : isineq a = true := by
          have h := hdrop.1
          rw [boundInequality, Bool.and_eq_true] at h
          exact h.1
        refine ⟨hnum, hsub, List.forall_mem_cons.2 ⟨.inr ?_, hkeep⟩⟩
        exact subsumedIneqList_implies (hatoms a List.mem_cons_self hdrop.1) hineq hnum hdrop.2
      · refine ⟨List.forall_mem_cons.2 ⟨hatoms a List.mem_cons_self, hnum⟩,
          fun _ h => List.mem_cons_of_mem _ (hsub h),
          List.forall_mem_cons.2 ⟨.inl List.mem_cons_self, fun u hu => ?_⟩⟩
        rcases hkeep u hu with h | ⟨v, hv, h⟩
        · exact .inl (List.mem_cons_of_mem _ h)
        · exact .inr ⟨v, List.mem_cons_of_mem _ hv, h⟩
  exact (key atoms hatoms _ rfl).2

/-! ### Equations from bounds -/

/-- What an atom that `process1` is given says. -/
def AtomHolds (ρ : String → ℚ) (atom : SExp) : Prop :=
  if isForm "or" atom then ∃ e ∈ atom.cdr.toList, Holds ρ e
  else if isForm "equal" atom && atom.arg2 == tt && isineq atom.arg1 then Holds ρ atom.arg1
  else atom = tt ∨ Holds ρ atom

theorem FlatTerm.not_isineq (h : FlatTerm a) : isineq a = false := by
  cases h with
  | num q =>
    unfold qrep
    split <;> rfl
  | var hn => rfl
  | scaled q hn => rfl
  | sum hl => rfl

theorem atomHolds_literal (hop : op ∈ literalOps) (ha : FlatTerm a) :
    AtomHolds ρ (literal op a b) ↔ Holds ρ (literal op a b) := by
  have hor : isForm "or" (literal op a b) = false := by
    simp only [literalOps, List.mem_cons, List.not_mem_nil, or_false] at hop
    rcases hop with rfl | rfl | rfl | rfl | rfl <;> rfl
  have harg : (literal op a b).arg1 = a := rfl
  rw [AtomHolds, hor, harg, ha.not_isineq, Bool.and_false]
  simp

theorem atomHolds_or {l : List SExp} : AtomHolds ρ (form "or" l) ↔ ∃ e ∈ l, Holds ρ e := by
  have hor : isForm "or" (form "or" l) = true := rfl
  have hargs : (form "or" l).cdr.toList = l := toList_ofList l
  rw [AtomHolds, hor, hargs, if_pos rfl]

theorem mem_takeWhile_range {p : ℕ → Bool} {i n : ℕ} (hi : i < n) (hp : ∀ j ≤ i, p j = true) :
    i ∈ (List.range n).takeWhile p := by
  obtain ⟨k, rfl⟩ := Nat.exists_eq_add_of_lt hi
  have hrange : List.range (i + k + 1) =
      List.range (i + 1) ++ (List.range k).map (i + 1 + ·) := by
    rw [← List.range_add, Nat.add_right_comm]
  rw [hrange, List.takeWhile_append_of_pos fun j hj => hp j (Nat.lt_succ_iff.1 (List.mem_range.1 hj))]
  exact List.mem_append_left _ (List.mem_range.2 (Nat.lt_succ_self i))

/-- An integer between an integer and a bound that is `c` above it. -/
theorem makeEqualsFromBounds_holds (ha : FlatTerm a) {lb : SExp} (hlb : FlatTerm lb) {m k : ℤ}
    (hm : value ρ a = m) (hk : value ρ lb = k) {c : ℚ} (hle : (k : ℚ) ≤ m) (hge : (m : ℚ) ≤ k + c) :
    AtomHolds ρ (makeEqualsFromBounds a lb (qrep c)) := by
  have hzero := qzerop_iff (qnumber_qrep c)
  rw [qval_qrep] at hzero
  unfold makeEqualsFromBounds
  split
  · rename_i h
    rw [hzero.1 h, add_zero] at hge
    rw [atomHolds_literal (by decide) ha, holds_literal, hm, hk]
    exact le_antisymm hge hle
  · obtain ⟨i, rfl⟩ : ∃ i : ℕ, m = k + i := by
      have h : k ≤ m := by exact_mod_cast hle
      exact ⟨(m - k).toNat, by omega⟩
    have hi : (i : ℚ) ≤ c := by
      push_cast at hge
      linarith
    have hgreater : ∀ j ≤ i, (!qgreaterp (.int j) (qrep c)) = true := by
      intro j hj
      rw [Bool.not_eq_true', ← Bool.not_eq_true, qgreaterp_iff (.int _) (posNumber_qrep c), qval_qrep]
      have h : (j : ℚ) ≤ i := by exact_mod_cast hj
      simpa using h.trans hi
    have htop : i < loopEnd (qrep c) := by
      have hnum : (i : ℤ) ≤ c.num := by
        have hden : (1 : ℚ) ≤ c.den := by exact_mod_cast c.den_pos
        have hmul : (i : ℚ) * c.den ≤ c.num := by
          rw [← Rat.mul_den_eq_num c]
          exact mul_le_mul_of_nonneg_right hi (by positivity)
        have h : (i : ℚ) ≤ i * c.den := le_mul_of_one_le_right (by positivity) hden
        exact_mod_cast h.trans hmul
      have hend : loopEnd (qrep c) = c.num.toNat + 1 := by
        unfold qrep
        split <;> rfl
      rw [hend]
      omega
    rw [atomHolds_or]
    refine ⟨_, List.mem_map_of_mem (mem_takeWhile_range htop hgreater), ?_⟩
    have hsum := (Addend.sigplus (l := [.int i, lb])
      (List.forall_mem_cons.2 ⟨.inr (.int i), List.forall_mem_singleton.2 (.inl hlb)⟩)).2 ρ
    rw [holds_literal, hsum, hm]
    simp only [List.map_cons, List.map_nil, List.sum_cons, List.sum_nil, value_int, hk]
    push_cast
    exact (by ring : (k : ℚ) + i = i + (k + 0))

section

variable {typealist : List (SExp × SExp)}

variable (typealist) in
/-- A strict bound on an integer, moved by 1 where it is an integer itself. -/
theorem strict_bound (hb : FlatTerm b) (x : ℤ) :
    let t := if prtype typealist b = .sym "integer" then sigplus (plus [.int x, b]) else b
    FlatTerm t ∧ ((∀ ρ, value ρ t = value ρ b) ∨
      prtype typealist b = .sym "integer" ∧ ∀ ρ, value ρ t = value ρ b + x) := by
  intro t
  by_cases h : prtype typealist b = .sym "integer"
  · obtain ⟨hl, hv⟩ := Addend.sigplus (l := [.int x, b])
      (List.forall_mem_cons.2 ⟨.inr (.int x), List.forall_mem_singleton.2 (.inl hb)⟩)
    have e : t = sigplus (plus [.int x, b]) := if_pos h
    rw [e]
    refine ⟨hl.flat, .inr ⟨h, fun ρ => (hv ρ).trans ?_⟩⟩
    simp [add_comm]
  · have e : t = b := if_neg h
    rw [e]
    exact ⟨hb, .inl fun _ => rfl⟩

theorem setBound_upper (hquo : FractionsDeclared typealist) (hρ : IntegerValued typealist ρ)
    (hb : FlatTerm b) {m : ℤ} (hm : value ρ a = m) (hup : isUpper (literal op a b) = true)
    (h : Holds ρ (literal op a b)) (p : SExp × SExp) :
    ∃ ub, setBound typealist (literal op a b) p = (p.1, ub) ∧ FlatTerm ub ∧
      (∃ c, ∀ ρ, value ρ ub = value ρ b + c) ∧ value ρ a ≤ value ρ ub := by
  rw [holds_literal] at h
  rcases isUpper_iff.1 hup with e | e
  · obtain rfl : op = "lesseqp" := by simpa using e
    exact ⟨b, rfl, hb, ⟨0, fun _ => (add_zero _).symm⟩, h⟩
  · obtain rfl : op = "lessp" := by simpa using e
    have hlt : value ρ a < value ρ b := h
    obtain ⟨hflat, hv⟩ := strict_bound typealist hb (-1)
    refine ⟨_, rfl, hflat, ?_⟩
    rcases hv with hv | ⟨hint, hv⟩
    · exact ⟨⟨0, fun ρ => (hv ρ).trans (add_zero _).symm⟩, (hlt.trans_eq (hv ρ).symm).le⟩
    · obtain ⟨k, hk⟩ := hb.integer hquo hρ hint
      refine ⟨⟨_, hv⟩, ?_⟩
      rw [hm, hk] at hlt
      have h : m ≤ k + -1 := by
        have h : m < k := by exact_mod_cast hlt
        omega
      refine le_of_le_of_eq ?_ (hv ρ).symm
      rw [hm, hk]
      exact_mod_cast h

theorem setBound_lower (hquo : FractionsDeclared typealist) (hρ : IntegerValued typealist ρ)
    (hb : FlatTerm b) {m : ℤ} (hm : value ρ a = m) (hlow : isLower (literal op a b) = true)
    (h : Holds ρ (literal op a b)) (p : SExp × SExp) :
    ∃ lb, setBound typealist (literal op a b) p = (lb, p.2) ∧ FlatTerm lb ∧
      (∃ c, ∀ ρ, value ρ lb = value ρ b + c) ∧ value ρ lb ≤ value ρ a := by
  rw [holds_literal] at h
  rcases isLower_iff.1 hlow with e | e
  · obtain rfl : op = "greatereqp" := by simpa using e
    exact ⟨b, rfl, hb, ⟨0, fun _ => (add_zero _).symm⟩, h⟩
  · obtain rfl : op = "greaterp" := by simpa using e
    have hlt : value ρ b < value ρ a := h
    obtain ⟨hflat, hv⟩ := strict_bound typealist hb 1
    refine ⟨_, rfl, hflat, ?_⟩
    rcases hv with hv | ⟨hint, hv⟩
    · exact ⟨⟨0, fun ρ => (hv ρ).trans (add_zero _).symm⟩, ((hv ρ).trans_lt hlt).le⟩
    · obtain ⟨k, hk⟩ := hb.integer hquo hρ hint
      refine ⟨⟨_, hv⟩, ?_⟩
      rw [hm, hk] at hlt
      have h : k + 1 ≤ m := by
        have h : k < m := by exact_mod_cast hlt
        omega
      refine le_of_eq_of_le (hv ρ) ?_
      rw [hm, hk]
      exact_mod_cast h

/-- The bounds that an inequality and one of the opposite sense set. -/
theorem setBound_opposite (hquo : FractionsDeclared typealist) (hρ : IntegerValued typealist ρ)
    {op₁ op₂ : String} {b₁ b₂ : SExp} (hb₁ : FlatTerm b₁) (hb₂ : FlatTerm b₂) {m : ℤ}
    (hm : value ρ a = m) (hopp : oppsensep (.sym op₁) (.sym op₂) = true)
    (h₁ : Holds ρ (literal op₁ a b₁)) (h₂ : Holds ρ (literal op₂ a b₂)) {c : ℚ}
    (hdif : ∀ ρ, value ρ b₁ - value ρ b₂ = c) : ∃ lb ub,
      setBound typealist (literal op₂ a b₂) (setBound typealist (literal op₁ a b₁) (nil, nil)) =
        (lb, ub) ∧ FlatTerm lb ∧ FlatTerm ub ∧ (∃ c, ∀ ρ, value ρ ub - value ρ lb = c) ∧
      value ρ lb ≤ value ρ a ∧ value ρ a ≤ value ρ ub := by
  have hsense : (isUpper (literal op₁ a b₁) = true ∧ isLower (literal op₂ a b₂) = true) ∨
      (isLower (literal op₁ a b₁) = true ∧ isUpper (literal op₂ a b₂) = true) := by
    unfold oppsensep at hopp
    split at hopp
    · rename_i hup
      exact .inl ⟨isUpper_iff.2 hup, by simpa [isLower] using hopp⟩
    · split at hopp
      · rename_i hlow
        exact .inr ⟨isLower_iff.2 hlow.symm, by simpa [isUpper] using hopp⟩
      · cases hopp
  rcases hsense with ⟨hup, hlow⟩ | ⟨hlow, hup⟩
  · obtain ⟨ub, e₁, hub, ⟨cu, hcu⟩, hle⟩ := setBound_upper hquo hρ hb₁ hm hup h₁ (nil, nil)
    obtain ⟨lb, e₂, hlb, ⟨cl, hcl⟩, hge⟩ := setBound_lower hquo hρ hb₂ hm hlow h₂ (nil, ub)
    refine ⟨lb, ub, by rw [e₁, e₂], hlb, hub, ⟨c + cu - cl, fun ρ => ?_⟩, hge, hle⟩
    rw [hcu, hcl, ← hdif ρ]
    ring
  · obtain ⟨lb, e₁, hlb, ⟨cl, hcl⟩, hge⟩ := setBound_lower hquo hρ hb₁ hm hlow h₁ (nil, nil)
    obtain ⟨ub, e₂, hub, ⟨cu, hcu⟩, hle⟩ := setBound_upper hquo hρ hb₂ hm hup h₂ (lb, nil)
    refine ⟨lb, ub, by rw [e₁, e₂], hlb, hub, ⟨cu - cl - c, fun ρ => ?_⟩, hge, hle⟩
    rw [hcu, hcl, ← hdif ρ]
    ring

/-- The disjunction that is added holds. -/
theorem addDisjunctOfEquals_holds (hquo : FractionsDeclared typealist)
    (hρ : IntegerValued typealist ρ) (jmrDist : SExp) {op₁ op₂ : String} {b₁ b₂ : SExp}
    (ha : FlatTerm a) (hb₁ : FlatTerm b₁) (hb₂ : FlatTerm b₂)
    (hopp : oppsensep (.sym op₁) (.sym op₂) = true)
    (h₁ : Holds ρ (literal op₁ a b₁)) (h₂ : Holds ρ (literal op₂ a b₂)) {c : ℚ}
    (hdif : ∀ ρ, value ρ b₁ - value ρ b₂ = c) {pot : List SExp} (hpot : ∀ e ∈ pot, AtomHolds ρ e) :
    ∀ e ∈ addDisjunctOfEquals typealist jmrDist (literal op₁ a b₁) (literal op₂ a b₂) pot,
      AtomHolds ρ e := by
  have harg : (literal op₁ a b₁).arg1 = a := rfl
  unfold addDisjunctOfEquals
  rw [harg]
  split
  · rename_i htype
    obtain ⟨m, hm⟩ := ha.integer hquo hρ htype
    obtain ⟨lb, ub, e, hlb, hub, ⟨c, hc⟩, hge, hle⟩ :=
      setBound_opposite hquo hρ hb₁ hb₂ hm hopp h₁ h₂ hdif
    obtain ⟨hl, hv⟩ := Addend.sigdifference (.inl hub) (.inl hlb)
    have hnumber : sigdifference (form "DIFFERENCE" [ub, lb]) = qrep c :=
      hl.eq_qrep fun ρ => (hv ρ).trans (hc ρ)
    rw [e]
    simp only [hnumber]
    split
    · rename_i hclose
      rw [Bool.and_eq_true, beq_iff_eq] at hclose
      obtain ⟨k, hk⟩ := hlb.integer hquo hρ hclose.2
      refine List.forall_mem_cons.2 ⟨makeEqualsFromBounds_holds ha hlb hm hk ?_ ?_, hpot⟩
      · rwa [← hk, ← hm]
      · rw [← hm, ← hk, ← hc ρ]
        linarith
    · exact hpot
  · exact hpot

end

end PVS.GroundProver
