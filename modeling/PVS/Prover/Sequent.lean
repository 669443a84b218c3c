import Mathlib.Data.Int.Basic
import Mathlib.Data.List.Nodup
import PVS.Prover.Formula

/-! The formulas of a sequent and their numbers: 1, 2, … for those that are no negations, -1, -2, …
for the others. -/

namespace PVS.Prover

/-- `s-formula` -/
structure SForm (α τ : Type) where
  formula : Formula α τ
  label : List String
  deriving DecidableEq

variable {α τ : Type}

def SForm.sign (x : SForm α τ) : Bool := !x.formula.isNegation

/-! ### Selectors -/

/-- An element of a flat selector: a number, or the name of a symbol. -/
inductive Fnum
  | num (n : ℤ)
  | sym (name : String)
  deriving DecidableEq

inductive Fnums
  | nil
  | atom (a : Fnum)
  | string (s : String)
  | cons (a d : Fnums)
  deriving DecidableEq

def cleanupFnums : Fnums → List Fnum
  | .cons a (.cons x d) =>
    if a = .atom (.sym "quote") then cleanupFnums x else cleanupFnums a ++ cleanupFnums (.cons x d)
  | .cons a d => if a = .atom (.sym "quote") then [] else cleanupFnums a ++ cleanupFnums d
  | .nil => []
  | .string s => [.sym s]
  | .atom a => [a]

def inSformnums (sform : SForm α τ) (pos neg : ℤ) (sformnums : List Fnum) : Bool :=
  if .sym "*" ∈ sformnums then true
  else if .sym "+" ∈ sformnums ∧ sform.sign then true
  else if .sym "-" ∈ sformnums ∧ !sform.sign then true
  else if sform.label.any fun lbl => .sym lbl ∈ sformnums then true
  else if sform.sign then .num pos ∈ sformnums
  else .num neg ∈ sformnums

def selectSeq1 (nums : List Fnum) : List (SForm α τ) → ℤ → ℤ → List (SForm α τ) → List (SForm α τ)
  | [], _, _, selected => selected.reverse
  | x :: seq, pos, neg, selected =>
    if x.formula.isNegation then
      selectSeq1 nums seq pos (neg - 1)
        (if .sym "-" ∈ nums ∨ .num neg ∈ nums ∨ x.label.any fun lbl => .sym lbl ∈ nums then
          x :: selected else selected)
    else
      selectSeq1 nums seq (pos + 1) neg
        (if .sym "+" ∈ nums ∨ .num pos ∈ nums ∨ x.label.any fun lbl => .sym lbl ∈ nums then
          x :: selected else selected)

def selectSeq (seq : List (SForm α τ)) (nums : Fnums) : List (SForm α τ) :=
  let nums := cleanupFnums nums
  if .sym "*" ∈ nums then seq else selectSeq1 nums seq 1 (-1) []

def deleteSeq1 (nums : List Fnum) : List (SForm α τ) → ℤ → ℤ → List (SForm α τ) → List (SForm α τ)
  | [], _, _, selected => selected.reverse
  | x :: seq, pos, neg, selected =>
    if x.formula.isNegation then
      deleteSeq1 nums seq pos (neg - 1)
        (if .sym "-" ∈ nums ∨ .num neg ∈ nums ∨ x.label.any fun lbl => .sym lbl ∈ nums then selected
          else x :: selected)
    else
      deleteSeq1 nums seq (pos + 1) neg
        (if .sym "+" ∈ nums ∨ .num pos ∈ nums ∨ x.label.any fun lbl => .sym lbl ∈ nums then selected
          else x :: selected)

def deleteSeq (seq : List (SForm α τ)) (nums : Fnums) : List (SForm α τ) :=
  let nums := cleanupFnums nums
  if .sym "*" ∈ nums then [] else deleteSeq1 nums seq 1 (-1) []

def gatherSeq1 (yesnums nonums : List Fnum) (pred : SForm α τ → Bool) :
    List (SForm α τ) → ℤ → ℤ → List (SForm α τ) → List (SForm α τ)
  | [], _, _, selected => selected.reverse
  | x :: seq, pos, neg, selected =>
    let selected :=
      if inSformnums x pos neg yesnums && !inSformnums x pos neg nonums && pred x then x :: selected
      else selected
    if x.formula.isNegation then gatherSeq1 yesnums nonums pred seq pos (neg - 1) selected
    else gatherSeq1 yesnums nonums pred seq (pos + 1) neg selected

def gatherSeq (seq : List (SForm α τ)) (yesnums nonums : Fnums) (pred : SForm α τ → Bool) :
    List (SForm α τ) :=
  gatherSeq1 (cleanupFnums yesnums) (cleanupFnums nonums) pred seq 1 (-1) []

def findAllSformnums1 (sformnums : List Fnum) (pred : Formula α τ → Bool) :
    List (SForm α τ) → ℤ → ℤ → List ℤ → List ℤ
  | [], _, _, acc => acc.reverse
  | x :: sforms, pos, neg, acc =>
    findAllSformnums1 sformnums pred sforms (if x.sign then pos + 1 else pos)
      (if x.sign then neg else neg - 1)
      (if inSformnums x pos neg sformnums && pred x.formula then (if x.sign then pos else neg) :: acc
        else acc)

def findAllSformnums (sforms : List (SForm α τ)) (sformnums : Fnums) (pred : Formula α τ → Bool) :
    List ℤ :=
  findAllSformnums1 (cleanupFnums sformnums) pred sforms 1 (-1) []

/-- `find-sform*`, where `sformnum` is a number or a symbol. -/
def findSform1 (sformnum : Fnum) (pred : SForm α τ → Bool) : List (SForm α τ) → ℤ → ℤ → Option ℤ
  | [], _, _ => none
  | x :: sforms, pos, neg =>
    if x.formula.isNegation then
      if (sformnum = .sym "*" ∨ sformnum = .sym "-" ∨ sformnum = .num neg ∨
          x.label.any fun lbl => sformnum = .sym lbl) ∧ pred x then some neg
      else findSform1 sformnum pred sforms pos (neg - 1)
    else if (sformnum = .sym "*" ∨ sformnum = .sym "+" ∨ sformnum = .num pos ∨
        x.label.any fun lbl => sformnum = .sym lbl) ∧ pred x then some pos
    else findSform1 sformnum pred sforms (pos + 1) neg

def findSform (sforms : List (SForm α τ)) (sformnum : Fnum) (pred : SForm α τ → Bool) : Option ℤ :=
  findSform1 sformnum pred sforms 1 (-1)

/-! ### Positions -/

/-- A formula of a sequent with the two counters when a recursion comes to it. -/
structure Position (α τ : Type) where
  sform : SForm α τ
  pos : ℤ
  neg : ℤ

def Position.number (p : Position α τ) : ℤ := if p.sform.sign then p.pos else p.neg

def Position.selected (nums : List Fnum) (p : Position α τ) : Bool :=
  inSformnums p.sform p.pos p.neg nums

def positions : List (SForm α τ) → ℤ → ℤ → List (Position α τ)
  | [], _, _ => []
  | x :: seq, pos, neg =>
    ⟨x, pos, neg⟩ :: positions seq (if x.sign then pos + 1 else pos) (if x.sign then neg else neg - 1)

theorem map_sform_positions (seq : List (SForm α τ)) (pos neg : ℤ) :
    (positions seq pos neg).map Position.sform = seq := by
  induction seq generalizing pos neg with
  | nil => rfl
  | cons x seq ih => rw [positions, List.map_cons, ih]

/-- The numbers go up from `pos` and down from `neg`. -/
theorem number_bounds {seq : List (SForm α τ)} {pos neg : ℤ} (hpos : 0 < pos) (hneg : neg < 0)
    {p : Position α τ} (hp : p ∈ positions seq pos neg) :
    if p.sform.sign then pos ≤ p.number else p.number ≤ neg := by
  induction seq generalizing pos neg with
  | nil => cases hp
  | cons x seq ih =>
    obtain rfl | hp := List.mem_cons.1 hp
    · cases hx : x.sign <;> simp [Position.number, hx]
    · have h := ih (by split <;> omega) (by split <;> omega) hp
      split at h
      · rename_i hs
        rw [if_pos hs]
        split at h <;> omega
      · rename_i hs
        rw [if_neg hs]
        split at h <;> omega

theorem pairwise_number {seq : List (SForm α τ)} {pos neg : ℤ} (hpos : 0 < pos) (hneg : neg < 0) :
    (positions seq pos neg).Pairwise fun p q => p.number ≠ q.number := by
  induction seq generalizing pos neg with
  | nil => exact .nil
  | cons x seq ih =>
    rw [positions, List.pairwise_cons]
    refine ⟨fun q hq => ?_, ih (by split <;> omega) (by split <;> omega)⟩
    have h := number_bounds (by split <;> omega) (by split <;> omega) hq
    have hnumber : (⟨x, pos, neg⟩ : Position α τ).number = if x.sign then pos else neg := rfl
    rw [hnumber]
    cases hx : x.sign with
    | true =>
      simp only [hx, if_true] at h ⊢
      split at h <;> omega
    | false =>
      simp only [hx, Bool.false_eq_true, if_false] at h ⊢
      split at h <;> omega

/-! ### What is selected -/

theorem sign_eq (x : SForm α τ) : x.sign = !x.formula.isNegation := rfl

/-- Without `*`, a formula is selected by its sign, its number or a label. -/
theorem inSformnums_iff {nums : List Fnum} (hstar : .sym "*" ∉ nums) (x : SForm α τ) (pos neg : ℤ) :
    inSformnums x pos neg nums = true ↔
      if x.formula.isNegation then
        .sym "-" ∈ nums ∨ .num neg ∈ nums ∨ (x.label.any fun lbl => .sym lbl ∈ nums) = true
      else .sym "+" ∈ nums ∨ .num pos ∈ nums ∨ (x.label.any fun lbl => .sym lbl ∈ nums) = true := by
  unfold inSformnums
  rw [if_neg hstar, sign_eq]
  cases x.formula.isNegation with
  | true =>
    by_cases hminus : Fnum.sym "-" ∈ nums
    · simp [hminus]
    · by_cases hlabel : (x.label.any fun lbl => .sym lbl ∈ nums) = true
      · simp only [hlabel, if_true, ite_self, or_true]
      · simp [hminus, hlabel]
  | false =>
    by_cases hplus : Fnum.sym "+" ∈ nums
    · simp [hplus]
    · by_cases hlabel : (x.label.any fun lbl => .sym lbl ∈ nums) = true
      · simp only [hlabel, if_true, ite_self, or_true]
      · simp [hplus, hlabel]

theorem inSformnums_star {nums : List Fnum} (hstar : .sym "*" ∈ nums) (x : SForm α τ) (pos neg : ℤ) :
    inSformnums x pos neg nums = true := if_pos hstar

theorem selectSeq1_eq {nums : List Fnum} (hstar : .sym "*" ∉ nums) (seq : List (SForm α τ))
    (pos neg : ℤ) (selected : List (SForm α τ)) : selectSeq1 nums seq pos neg selected =
      selected.reverse ++
        ((positions seq pos neg).filter (Position.selected nums)).map Position.sform := by
  induction seq generalizing pos neg selected with
  | nil => simp [selectSeq1, positions]
  | cons x seq ih =>
    have hin := inSformnums_iff hstar x pos neg
    rw [selectSeq1, positions, List.filter_cons, Position.selected, sign_eq]
    cases hx : x.formula.isNegation with
    | true =>
      simp only [hx, if_true] at hin
      simp only [if_true, ih, ← hin, Bool.not_true, Bool.false_eq_true, if_false]
      split <;> simp
    | false =>
      simp only [hx, Bool.false_eq_true, if_false] at hin
      simp only [Bool.false_eq_true, if_false, ih, ← hin, Bool.not_false, if_true]
      split <;> simp

theorem deleteSeq1_eq {nums : List Fnum} (hstar : .sym "*" ∉ nums) (seq : List (SForm α τ))
    (pos neg : ℤ) (selected : List (SForm α τ)) : deleteSeq1 nums seq pos neg selected =
      selected.reverse ++
        ((positions seq pos neg).filter fun p => !p.selected nums).map Position.sform := by
  induction seq generalizing pos neg selected with
  | nil => simp [deleteSeq1, positions]
  | cons x seq ih =>
    have hin := inSformnums_iff hstar x pos neg
    rw [deleteSeq1, positions, List.filter_cons, Position.selected, sign_eq]
    cases hx : x.formula.isNegation with
    | true =>
      simp only [hx, if_true] at hin
      simp only [if_true, ih, ← hin, Bool.not_true, Bool.false_eq_true, if_false]
      cases inSformnums x pos neg nums <;> simp
    | false =>
      simp only [hx, Bool.false_eq_true, if_false] at hin
      simp only [Bool.false_eq_true, if_false, ih, ← hin, Bool.not_false, if_true]
      cases inSformnums x pos neg nums <;> simp

theorem findAllSformnums1_eq (nums : List Fnum) (pred : Formula α τ → Bool) (seq : List (SForm α τ))
    (pos neg : ℤ) (acc : List ℤ) : findAllSformnums1 nums pred seq pos neg acc =
      acc.reverse ++ ((positions seq pos neg).filter fun p =>
        p.selected nums && pred p.sform.formula).map Position.number := by
  induction seq generalizing pos neg acc with
  | nil => simp [findAllSformnums1, positions]
  | cons x seq ih =>
    rw [findAllSformnums1, positions, List.filter_cons, Position.selected, ih]
    split <;> simp [Position.number]

theorem gatherSeq1_eq (yesnums nonums : List Fnum) (pred : SForm α τ → Bool) (seq : List (SForm α τ))
    (pos neg : ℤ) (selected : List (SForm α τ)) :
    gatherSeq1 yesnums nonums pred seq pos neg selected =
      selected.reverse ++ ((positions seq pos neg).filter fun p =>
        p.selected yesnums && !p.selected nonums && pred p.sform).map Position.sform := by
  induction seq generalizing pos neg selected with
  | nil => simp [gatherSeq1, positions]
  | cons x seq ih =>
    rw [gatherSeq1, positions, List.filter_cons, Position.selected, Position.selected, sign_eq]
    cases hx : x.formula.isNegation with
    | true =>
      simp only [if_true, ih, Bool.not_true, Bool.false_eq_true, if_false]
      split <;> simp
    | false =>
      simp only [Bool.false_eq_true, if_false, ih, Bool.not_false, if_true]
      split <;> simp

/-- One element selects like a list of it. -/
theorem findSform1_eq (sformnum : Fnum) (pred : SForm α τ → Bool) (seq : List (SForm α τ))
    (pos neg : ℤ) : findSform1 sformnum pred seq pos neg =
      (((positions seq pos neg).filter fun p =>
        p.selected [sformnum] && pred p.sform).map Position.number).head? := by
  induction seq generalizing pos neg with
  | nil => rfl
  | cons x seq ih =>
    have hin : inSformnums x pos neg [sformnum] = true ↔ sformnum = .sym "*" ∨
        (if x.formula.isNegation then sformnum = .sym "-" ∨ sformnum = .num neg
          else sformnum = .sym "+" ∨ sformnum = .num pos) ∨
        (x.label.any fun lbl => sformnum = .sym lbl) = true := by
      have hmem : ∀ a : Fnum, a ∈ [sformnum] ↔ sformnum = a := fun a =>
        List.mem_singleton.trans eq_comm
      by_cases hstar : sformnum = .sym "*"
      · rw [inSformnums_star ((hmem _).2 hstar)]
        simp [hstar]
      · rw [inSformnums_iff (fun h => hstar ((hmem _).1 h))]
        simp only [hmem, hstar, false_or]
        split <;> rw [or_assoc]
    rw [findSform1, positions, List.filter_cons, Position.selected, sign_eq]
    cases hx : x.formula.isNegation with
    | true =>
      simp only [hx, if_true, or_assoc] at hin
      simp only [if_true, ih, ← hin, Bool.not_true, Bool.false_eq_true, if_false, Bool.and_eq_true]
      split
      · simp [Position.number, sign_eq, hx]
      · rfl
    | false =>
      simp only [hx, Bool.false_eq_true, if_false, or_assoc] at hin
      simp only [Bool.false_eq_true, if_false, ih, ← hin, Bool.not_false, if_true, Bool.and_eq_true]
      split
      · simp [Position.number, sign_eq, hx]
      · rfl

/-! ### The selectors agree -/

theorem selectSeq_eq (seq : List (SForm α τ)) (sel : Fnums) : selectSeq seq sel =
    ((positions seq 1 (-1)).filter (Position.selected (cleanupFnums sel))).map Position.sform := by
  unfold selectSeq
  by_cases hstar : Fnum.sym "*" ∈ cleanupFnums sel
  · have hall : ∀ p ∈ positions seq 1 (-1), Position.selected (cleanupFnums sel) p = true :=
      fun p _ => inSformnums_star hstar _ _ _
    rw [List.filter_eq_self.2 hall, map_sform_positions]
    exact if_pos hstar
  · exact (if_neg hstar).trans (selectSeq1_eq hstar seq 1 (-1) [])

theorem deleteSeq_eq (seq : List (SForm α τ)) (sel : Fnums) : deleteSeq seq sel =
    ((positions seq 1 (-1)).filter fun p => !p.selected (cleanupFnums sel)).map Position.sform := by
  unfold deleteSeq
  by_cases hstar : Fnum.sym "*" ∈ cleanupFnums sel
  · have hnone : ∀ p ∈ positions seq 1 (-1), ¬ (!p.selected (cleanupFnums sel)) = true := by
      intro p _
      rw [Position.selected, inSformnums_star hstar]
      decide
    rw [List.filter_eq_nil_iff.2 hnone]
    exact if_pos hstar
  · exact (if_neg hstar).trans (deleteSeq1_eq hstar seq 1 (-1) [])

theorem findAllSformnums_eq (seq : List (SForm α τ)) (sel : Fnums) :
    findAllSformnums seq sel (fun _ => true) =
      ((positions seq 1 (-1)).filter (Position.selected (cleanupFnums sel))).map Position.number := by
  rw [findAllSformnums, findAllSformnums1_eq, List.reverse_nil, List.nil_append]
  simp only [Bool.and_true]

theorem number_mem_findAllSformnums {seq : List (SForm α τ)} {sel : Fnums} {p : Position α τ}
    (hp : p ∈ positions seq 1 (-1)) :
    p.number ∈ findAllSformnums seq sel (fun _ => true) ↔ p.selected (cleanupFnums sel) = true := by
  rw [findAllSformnums_eq, List.mem_map]
  constructor
  · rintro ⟨q, hq, e⟩
    rw [List.mem_filter] at hq
    have hnodup : ((positions seq 1 (-1)).map Position.number).Nodup :=
      List.pairwise_map.2 (pairwise_number (by decide) (by decide))
    rw [← List.inj_on_of_nodup_map hnodup hq.1 hp e]
    exact hq.2
  · exact fun h => ⟨p, List.mem_filter.2 ⟨hp, h⟩, rfl⟩

theorem numbers_of_consequents (seq : List (SForm α τ)) (pos neg : ℤ) :
    ((positions seq pos neg).filter fun p => p.sform.sign).map Position.number =
      (List.range (seq.countP SForm.sign)).map fun i : ℕ => pos + i := by
  induction seq generalizing pos neg with
  | nil => rfl
  | cons x seq ih =>
    rw [positions, List.filter_cons, List.countP_cons]
    cases hx : x.sign with
    | true =>
      simp only [if_true, List.map_cons, ih, List.range_succ_eq_map, List.map_map]
      refine List.cons_eq_cons.2 ⟨by simp [Position.number, hx], List.map_congr_left fun i _ => ?_⟩
      simp only [Function.comp_apply]
      push_cast
      omega
    | false => simp only [Bool.false_eq_true, if_false, ih, Nat.add_zero]

theorem numbers_of_antecedents (seq : List (SForm α τ)) (pos neg : ℤ) :
    ((positions seq pos neg).filter fun p => !p.sform.sign).map Position.number =
      (List.range (seq.countP fun x => !x.sign)).map fun i : ℕ => neg - i := by
  induction seq generalizing pos neg with
  | nil => rfl
  | cons x seq ih =>
    rw [positions, List.filter_cons, List.countP_cons]
    cases hx : x.sign with
    | true => simp only [Bool.not_true, Bool.false_eq_true, if_false, if_true, ih, Nat.add_zero]
    | false =>
      simp only [Bool.not_false, Bool.false_eq_true, if_false, if_true, List.map_cons, ih,
        List.range_succ_eq_map, List.map_map]
      refine List.cons_eq_cons.2 ⟨by simp [Position.number, hx], List.map_congr_left fun i _ => ?_⟩
      simp only [Function.comp_apply]
      push_cast
      omega

/-- Selectors that differ in numbers of no formula select the same. -/
theorem selected_congr {nums nums' : List Fnum} {seq : List (SForm α τ)}
    (h : ∀ a, (∀ n, a = .num n → ∃ p ∈ positions seq 1 (-1), p.number = n) → (a ∈ nums ↔ a ∈ nums'))
    {p : Position α τ} (hp : p ∈ positions seq 1 (-1)) : p.selected nums = p.selected nums' := by
  have hsym : ∀ s, Fnum.sym s ∈ nums ↔ Fnum.sym s ∈ nums' := fun s => h _ fun _ e => by cases e
  have hnum : Fnum.num p.number ∈ nums ↔ Fnum.num p.number ∈ nums' := by
    refine h _ fun n e => ⟨p, hp, ?_⟩
    cases e
    rfl
  unfold Position.selected inSformnums
  simp only [hsym]
  cases hx : p.sform.sign with
  | true =>
    rw [Position.number, hx, if_pos rfl] at hnum
    simp only [hnum, if_true]
  | false =>
    rw [Position.number, hx, if_neg Bool.false_ne_true] at hnum
    simp only [hnum, Bool.false_eq_true, if_false]

/-- All recursions over a sequent number it alike and select the same of it. -/
theorem selectors_agree (seq : List (SForm α τ)) (sel : Fnums) :
    let ps := positions seq 1 (-1)
    let selected := Position.selected (α := α) (τ := τ) (cleanupFnums sel)
    ps.map Position.sform = seq ∧
    (ps.filter fun p => p.sform.sign).map Position.number =
      (List.range (seq.countP SForm.sign)).map (fun i : ℕ => 1 + (i : ℤ)) ∧
    (ps.filter fun p => !p.sform.sign).map Position.number =
      (List.range (seq.countP fun x => !x.sign)).map (fun i : ℕ => -1 - (i : ℤ)) ∧
    selectSeq seq sel = (ps.filter selected).map Position.sform ∧
    deleteSeq seq sel = (ps.filter fun p => !selected p).map Position.sform ∧
    findAllSformnums seq sel (fun _ => true) = (ps.filter selected).map Position.number ∧
    (∀ p ∈ ps, (p.number ∈ findAllSformnums seq sel fun _ => true) ↔
      inSformnums p.sform p.pos p.neg (cleanupFnums sel) = true) ∧
    gatherSeq seq sel .nil (fun _ => true) = selectSeq seq sel ∧
    (∀ a, sel = .atom a → findSform seq a (fun _ => true) =
      (findAllSformnums seq sel fun _ => true).head?) ∧
    ∀ sel', (∀ a, (∀ n, a = .num n → ∃ p ∈ ps, p.number = n) →
        (a ∈ cleanupFnums sel' ↔ a ∈ cleanupFnums sel)) →
      selectSeq seq sel' = selectSeq seq sel ∧ deleteSeq seq sel' = deleteSeq seq sel ∧
        findAllSformnums seq sel' (fun _ => true) = findAllSformnums seq sel fun _ => true := by
  refine ⟨map_sform_positions seq 1 (-1), numbers_of_consequents seq 1 (-1),
    numbers_of_antecedents seq 1 (-1), selectSeq_eq seq sel, deleteSeq_eq seq sel,
    findAllSformnums_eq seq sel, fun p hp => number_mem_findAllSformnums hp, ?_, ?_, ?_⟩
  · rw [gatherSeq, gatherSeq1_eq, selectSeq_eq]
    have hnone : ∀ p : Position α τ, p.selected (cleanupFnums .nil) = false := by
      intro p
      simp [Position.selected, inSformnums, cleanupFnums]
    simp only [hnone, Bool.not_false, Bool.and_true, List.reverse_nil, List.nil_append]
  · rintro a rfl
    rw [findSform, findSform1_eq, findAllSformnums_eq]
    simp only [Bool.and_true]
    rfl
  · intro sel' h
    have hsame : ∀ p ∈ positions seq 1 (-1),
        p.selected (cleanupFnums sel') = p.selected (cleanupFnums sel) := fun p hp =>
      selected_congr h hp
    rw [selectSeq_eq, selectSeq_eq, deleteSeq_eq, deleteSeq_eq, findAllSformnums_eq,
      findAllSformnums_eq]
    refine ⟨?_, ?_, ?_⟩
    · rw [List.filter_congr hsame]
    · rw [List.filter_congr fun p hp => by rw [hsame p hp]]
    · rw [List.filter_congr hsame]

end PVS.Prover
