import Mathlib
import PVS.GroundProver.Congruence
import PVS.GroundProver.Cuts

/-! `normineq` gives back a literal that says the same. -/

namespace PVS.GroundProver

open SExp Library

variable {ρ : String → ℚ} {op : String} {a b dif lit : SExp}

/-! ### Comparisons -/

theorem holdsOp_sub (hop : op ∈ literalOps) (x y : ℚ) : holdsOp op (x - y) 0 ↔ holdsOp op x y := by
  simp only [literalOps, List.mem_cons, List.not_mem_nil, or_false] at hop
  rcases hop with rfl | rfl | rfl | rfl | rfl <;> simp [holdsOp, sub_eq_zero]

theorem holdsOp_mul (hop : op ∈ literalOps) {c : ℚ} (hc : 0 < c) (x : ℚ) :
    holdsOp op (c * x) 0 ↔ holdsOp op x 0 := by
  simp only [literalOps, List.mem_cons, List.not_mem_nil, or_false] at hop
  rcases hop with rfl | rfl | rfl | rfl | rfl <;>
    simp [holdsOp, hc.ne', mul_neg_iff, mul_nonpos_iff, hc, hc.le, hc.not_gt, hc.not_ge]

theorem exists_antifnsym (hop : op ∈ literalOps) : ∃ op' ∈ literalOps,
    antifnsym (.sym op) = .sym op' ∧ ∀ x y, holdsOp op' x y ↔ holdsOp op y x := by
  simp only [literalOps, List.mem_cons, List.not_mem_nil, or_false] at hop
  rcases hop with rfl | rfl | rfl | rfl | rfl
  · exact ⟨"equal", by decide, by decide, fun x y => eq_comm⟩
  · exact ⟨"greaterp", by decide, by decide, fun x y => Iff.rfl⟩
  · exact ⟨"greatereqp", by decide, by decide, fun x y => Iff.rfl⟩
  · exact ⟨"lessp", by decide, by decide, fun x y => Iff.rfl⟩
  · exact ⟨"lesseqp", by decide, by decide, fun x y => Iff.rfl⟩

/-! ### The solved form -/

theorem monomial_cases (p : String × ℚ) :
    (p.2 = 1 ∧ monomial p = .sym p.1) ∨ (p.2 ≠ 1 ∧ monomial p = times [qrep p.2, .sym p.1]) := by
  unfold monomial
  split
  · exact .inl ⟨‹_›, rfl⟩
  · exact .inr ⟨‹_›, rfl⟩

theorem varof_monomial (p : String × ℚ) : varof (monomial p) = .sym p.1 := by
  rcases monomial_cases p with ⟨-, e⟩ | ⟨-, e⟩ <;> rw [e]
  · rfl
  · simp [varof, isForm, arg1, arg2, (qnumber_qrep p.2).qnumberp]

theorem coefof_monomial (p : String × ℚ) : coefof (monomial p) = qrep p.2 := by
  rcases monomial_cases p with ⟨h, e⟩ | ⟨-, e⟩ <;> rw [e]
  · rw [h]
    exact (qrep_intCast 1).symm
  · simp [coefof, isForm, arg1, (qnumber_qrep p.2).qnumberp]

theorem qnumberp_monomial (p : String × ℚ) : qnumberp (monomial p) = false := by
  rcases monomial_cases p with ⟨-, e⟩ | ⟨-, e⟩ <;> rw [e] <;> simp

theorem occursin_monomial (eq : Bool) (x : String) (p : String × ℚ) :
    occursin eq (.sym x) (monomial p) = (x == p.1) := by
  have hsym : occursin eq (.sym x) (.sym p.1) = (x == p.1) := by
    simp [occursin, occursinOther, isForm, consp]
  rcases monomial_cases p with ⟨-, e⟩ | ⟨-, e⟩ <;> rw [e]
  · exact hsym
  · rw [times, form, ofList_cons, ofList_cons, occursin, if_pos ⟨rfl, (qnumber_qrep p.2).qnumberp⟩]
    exact hsym

theorem occursin_qrep (eq : Bool) (x : String) (q : ℚ) : occursin eq (.sym x) (qrep q) = false := by
  unfold qrep
  split
  · simp [occursin, occursinOther, isForm, consp]
  · rw [qmake, form, ofList_cons, ofList_cons, occursin, if_neg (fun h => absurd h.1 (by decide))]
    simp [occursinOther, isForm]

theorem onlyoccurrencep_of_sorted {eq : Bool} {cs : List (String × ℚ)}
    (hcs : cs.Pairwise fun p p' => p.1 < p'.1) {p : String × ℚ} (hp : p ∈ cs) {ms : List SExp}
    (hms : ∀ m ∈ ms, (∃ q, m = qrep q) ∨ ∃ p ∈ cs, m = monomial p) :
    onlyoccurrencep eq (.sym p.1) (monomial p) ms = true := by
  rw [onlyoccurrencep, List.all_eq_true]
  intro m hm
  rcases hms m hm with ⟨q, rfl⟩ | ⟨p', hp', rfl⟩
  · rw [occursin_qrep, Bool.and_false, Bool.not_false]
  · rw [occursin_monomial]
    by_cases h : p.1 = p'.1
    · obtain rfl : p' = p := by
        have hnodup : (cs.map Prod.fst).Nodup := List.pairwise_map.2 (hcs.imp fun h => h.ne)
        exact List.inj_on_of_nodup_map hnodup hp' hp h.symm
      simp
    · simp [h]

/-- A linear term that is no number is solved for one of its variables. -/
theorem solvable_toTerm (eq : Bool) {f : LinForm} (hf : ∀ p ∈ f.coefs, IsVar p.1)
    (hne : f.coefs ≠ []) : ∃ n q, IsVar n ∧ q ≠ 0 ∧ solvable eq (toTerm f) = some (.sym n, qrep q) := by
  have hmono : ∀ p ∈ f.coefs, IsVar p.1 ∧ p.2 ≠ 0 := fun p hp => ⟨hf p hp, f.nonzero p hp⟩
  have hsum : ∀ ms : List SExp, (∀ m ∈ ms, (∃ q, m = qrep q) ∨ ∃ p ∈ f.coefs, m = monomial p) →
      (∃ p ∈ f.coefs, monomial p ∈ ms) →
      ∃ n q, IsVar n ∧ q ≠ 0 ∧ solvable eq (plus ms) = some (.sym n, qrep q) := by
    rintro ms hms ⟨p, hp, hmem⟩
    have hfind : (ms.find? fun term =>
        !qnumberp term && onlyoccurrencep eq (varof term) term ms).isSome := by
      rw [List.find?_isSome]
      refine ⟨monomial p, hmem, ?_⟩
      rw [varof_monomial, qnumberp_monomial, onlyoccurrencep_of_sorted f.sorted hp hms]
      rfl
    obtain ⟨m, hm⟩ := Option.isSome_iff_exists.1 hfind
    have hnumber := List.find?_some hm
    rw [Bool.and_eq_true, Bool.not_eq_true'] at hnumber
    rcases hms m (List.mem_of_find?_eq_some hm) with ⟨q, rfl⟩ | ⟨p', hp', rfl⟩
    · rw [(qnumber_qrep q).qnumberp] at hnumber
      cases hnumber.1
    · refine ⟨p'.1, p'.2, (hmono p' hp').1, (hmono p' hp').2, ?_⟩
      have e : solvable eq (plus ms) = (ms.find? fun term =>
          !qnumberp term && onlyoccurrencep eq (varof term) term ms).map fun term =>
            (varof term, coefof term) := by
        have hplus : isForm "PLUS" (plus ms) = true := rfl
        have hargs : (plus ms).cdr.toList = ms := toList_ofList ms
        rw [solvable, if_pos hplus, hargs]
      rw [e, hm, Option.map_some, varof_monomial, coefof_monomial]
  have hms : ∀ m ∈ f.coefs.map monomial, (∃ q, m = qrep q) ∨ ∃ p ∈ f.coefs, m = monomial p := by
    intro m hm
    obtain ⟨p, hp, rfl⟩ := List.mem_map.1 hm
    exact .inr ⟨p, hp, rfl⟩
  have hfirst : ∃ p ∈ f.coefs, monomial p ∈ f.coefs.map monomial := by
    obtain ⟨p, hp⟩ := List.exists_mem_of_ne_nil _ hne
    exact ⟨p, hp, List.mem_map_of_mem hp⟩
  have hconst := hsum (qrep f.const :: f.coefs.map monomial)
    (List.forall_mem_cons.2 ⟨.inl ⟨_, rfl⟩, hms⟩)
    (hfirst.imp fun p h => ⟨h.1, List.mem_cons_of_mem _ h.2⟩)
  have hplain := hsum _ hms hfirst
  unfold toTerm sumTerm
  split
  · rename_i h
    exact absurd (List.map_eq_nil_iff.1 h) hne
  · rename_i t h
    obtain ⟨p, hp⟩ := List.exists_mem_of_ne_nil _ hne
    obtain rfl : monomial p = t := by
      have hmem := List.mem_map_of_mem (f := monomial) hp
      rw [h] at hmem
      exact List.mem_singleton.1 hmem
    split
    · refine ⟨p.1, p.2, (hmono p hp).1, (hmono p hp).2, ?_⟩
      rcases monomial_cases p with ⟨h1, e⟩ | ⟨-, e⟩
      · rw [e, h1]
        exact congrArg some (congrArg (Prod.mk _) (qrep_intCast 1).symm)
      · have hform : solvable eq (monomial p) = some (varof (monomial p), coefof (monomial p)) := by
          rw [e]
          rfl
        rw [hform, varof_monomial, coefof_monomial]
    · rw [h] at hconst
      exact hconst
  · split
    · exact hplain
    · exact hconst

theorem qnumberp_toTerm {f : LinForm} (hne : f.coefs ≠ []) : qnumberp (toTerm f) = false := by
  unfold toTerm sumTerm
  split
  · rename_i h
    exact absurd (List.map_eq_nil_iff.1 h) hne
  · rename_i t h
    split
    · obtain ⟨p, hp⟩ := List.exists_mem_of_ne_nil _ hne
      have hmem := List.mem_map_of_mem (f := monomial) hp
      rw [h] at hmem
      rw [← List.mem_singleton.1 hmem, qnumberp_monomial]
    · rfl
  · split <;> rfl

theorem qtimes_neg_one {x : SExp} (hx : QNumber x) : qtimes (.int (-1)) x = qminus x := by
  cases hx <;> simp [qtimes, qminus]

/-- The literal that is solved for a variable says that the difference compares to 0. -/
theorem solvedFor_spec (hop : op ∈ literalOps) (hdif : IsLinear dif) {n : String} (hn : IsVar n)
    {q : ℚ} (hq : q ≠ 0) : ∃ op' b, op' ∈ literalOps ∧
      solvedFor (.sym op) dif (.sym n, qrep q) = literal op' (.sym n) b ∧ FlatTerm b ∧
      ∀ ρ, (holdsOp op' (ρ n) (value ρ b) ↔ holdsOp op (value ρ dif) 0) := by
  have hm : IsMonomial (monomial (n, 1)) := .mono hn one_ne_zero
  have hone : monomial (n, 1) = .sym n := by simp [monomial]
  obtain ⟨houter, hproduct⟩ := sigtimes_around [-q] [] hm.isLinear
  have hargs : around [-q] (monomial (n, 1)) [] = [qtimes (.int (-1)) (qrep q), .sym n] := by
    rw [qtimes_neg_one (qnumber_qrep q), qminus_qrep, hone]
    rfl
  rw [hargs] at houter hproduct
  have hnumber : QNumber (qtimes (.int (-1)) (qrep q)) := (QNumber.int (-1)).qtimes (qnumber_qrep q)
  have hvar : ∀ ρ, value ρ (sigtimes (times [qtimes (.int (-1)) (qrep q), .sym n])) = -q * ρ n := by
    intro ρ
    rw [(canonizes_times_pair houter (.num hnumber) (.sym hn.ne_infinity)).value_eq,
      value_number hnumber, qval_qtimes (.int (-1)) (qnumber_qrep q), qval_qrep, value_sym]
    simp
  obtain ⟨hsum, hvalue⟩ := Addend.sigplus
    (l := [sigtimes (times [qtimes (.int (-1)) (qrep q), .sym n]), dif])
    (List.forall_mem_cons.2 ⟨.inl hproduct.flat, List.forall_mem_singleton.2 (.inl hdif.flat)⟩)
  have hcoef : qnorm (qquotient (.int (-1)) (qrep q)) = qrep (-1 / q) := by
    have h := qval_qquotient (.int (-1)) (qnumber_qrep q) (by rwa [qval_qrep])
    rw [qnorm_eq ((QNumber.int (-1)).qquotient (qnumber_qrep q) (by rwa [qval_qrep])), h, qval_qrep]
    simp
  have hlinear : LinearTerm (times [qrep (-1 / q),
      sigplus (plus [sigtimes (times [qtimes (.int (-1)) (qrep q), .sym n]), dif])]) := by
    refine .times ?_ ?_
    · rw [List.forall_mem_cons, List.forall_mem_singleton]
      exact ⟨.const _, hsum.flat.linearTerm.1⟩
    · rw [List.pairwise_pair]
      exact .inl ⟨_, fun ρ => by rw [value_number (qnumber_qrep _), qval_qrep]⟩
  have hsimple : SimpleQuotients (times [qrep (-1 / q),
      sigplus (plus [sigtimes (times [qtimes (.int (-1)) (qrep q), .sym n]), dif])]) := by
    rw [SimpleQuotients, simpleQuotientsArgs_iff, toList_ofList, List.forall_mem_cons,
      List.forall_mem_singleton]
    exact ⟨by simp, (FlatTerm.num _).linearTerm.2, hsum.flat.linearTerm.2⟩
  obtain ⟨hb, hdistributes⟩ := isLinear_arithcan hlinear hsimple
  have hbvalue : ∀ ρ, value ρ (arithcan (times [qrep (-1 / q),
      sigplus (plus [sigtimes (times [qtimes (.int (-1)) (qrep q), .sym n]), dif])])) =
        ρ n - value ρ dif / q := by
    intro ρ
    rw [value_arithcan (hlinear.arithTerm ρ) hdistributes, value_times]
    simp only [List.map_cons, List.map_nil, List.prod_cons, List.prod_nil, mul_one,
      value_number (qnumber_qrep _), qval_qrep, hvalue, hvar, List.sum_cons, List.sum_nil, add_zero]
    field_simp
    ring
  have hliteral : ∀ fnsym, solvedFor fnsym dif (.sym n, qrep q) =
      ofList [if qminusp (qrep q) then antifnsym fnsym else fnsym, .sym n,
        arithcan (times [qrep (-1 / q),
          sigplus (plus [sigtimes (times [qtimes (.int (-1)) (qrep q), .sym n]), dif])])] := by
    intro fnsym
    rw [solvedFor, hcoef]
  have hminus := qminusp_iff (posNumber_qrep q)
  rw [qval_qrep] at hminus
  rcases lt_or_gt_of_ne hq with hneg | hpos
  · obtain ⟨op', hop', hanti, hswap⟩ := exists_antifnsym hop
    refine ⟨op', _, hop', ?_, hb.flat, fun ρ => ?_⟩
    · rw [hliteral, if_pos (hminus.2 hneg), hanti]
      rfl
    · have hdiv : ρ n - value ρ dif / q - ρ n = -1 / q * value ρ dif := by ring
      rw [hswap, hbvalue, ← holdsOp_sub hop, hdiv]
      exact holdsOp_mul hop (div_pos_of_neg_of_neg (by norm_num) hneg) _
  · refine ⟨op, _, hop, ?_, hb.flat, fun ρ => ?_⟩
    · rw [hliteral, if_neg (fun h => (hminus.1 h).not_gt hpos)]
      rfl
    · have hdiv : ρ n - (ρ n - value ρ dif / q) = 1 / q * value ρ dif := by ring
      rw [hbvalue, ← holdsOp_sub hop, hdiv]
      exact holdsOp_mul hop (by positivity) _

/-- A verdict on a literal, or a literal that says the same about a variable. -/
inductive SolvedForm (lit : SExp) : SExp → Prop
  | true {r : SExp} : r = tt ∨ r = ident → (∀ ρ, Holds ρ lit) → SolvedForm lit r
  | false : (∀ ρ, ¬ Holds ρ lit) → SolvedForm lit ff
  | solved {op : String} {n : String} {b : SExp} : op ∈ literalOps → IsVar n → FlatTerm b →
    (∀ ρ, Holds ρ (literal op (.sym n) b) ↔ Holds ρ lit) → SolvedForm lit (literal op (.sym n) b)

theorem normconstdif_spec (hop : op ∈ literalOps) {c : ℚ}
    (hc : ∀ ρ, Holds ρ lit ↔ holdsOp op c 0) :
    SolvedForm lit (normconstdif (.sym op) (qrep c)) := by
  have hzero := qzerop_iff (qnumber_qrep c)
  have hminus := qminusp_iff (posNumber_qrep c)
  rw [qval_qrep] at hzero hminus
  have hverdict : ∀ r, (r = tt ∨ r = ident) ∧ holdsOp op c 0 ∨ r = ff ∧ ¬ holdsOp op c 0 →
      SolvedForm lit r := by
    rintro r (⟨hr, h⟩ | ⟨rfl, h⟩)
    · exact .true hr fun ρ => (hc ρ).2 h
    · exact .false fun ρ hρ => h ((hc ρ).1 hρ)
  apply hverdict
  simp only [normconstdif, hzero, hminus]
  simp only [literalOps, List.mem_cons, List.not_mem_nil, or_false] at hop
  rcases lt_trichotomy c 0 with h | rfl | h
  · rw [if_neg h.ne, if_pos h]
    rcases hop with rfl | rfl | rfl | rfl | rfl <;>
      simp [holdsOp, h, h.ne, h.le, h.not_gt, h.not_ge]
  · rw [if_pos rfl]
    rcases hop with rfl | rfl | rfl | rfl | rfl <;> simp [holdsOp]
  · rw [if_neg h.ne', if_neg h.not_gt]
    rcases hop with rfl | rfl | rfl | rfl | rfl <;>
      simp [holdsOp, h, h.ne', h.le, h.not_gt, h.not_ge]

theorem normineq2_literal (op : String) (a b : SExp) : normineq2 (literal op a b) =
    let dif := sigdifference (form "DIFFERENCE" [a, b])
    if qnumberp dif then normconstdif (.sym op) dif
    else
      match solvable false dif with
      | some p => solvedFor (.sym op) dif p
      | none =>
        match solvable (SExp.sym op == .sym "equal") dif with
        | some p => solvedFor (.sym op) dif p
        | none => literal op a b := rfl

theorem normineq2_spec (hop : op ∈ literalOps) (ha : FlatTerm a) (hb : FlatTerm b) :
    SolvedForm (literal op a b) (normineq2 (literal op a b)) := by
  obtain ⟨hl, hv⟩ := Addend.sigdifference (.inl ha) (.inl hb)
  have hholds : ∀ ρ, Holds ρ (literal op a b) ↔
      holdsOp op (value ρ (sigdifference (form "DIFFERENCE" [a, b]))) 0 := by
    intro ρ
    rw [holds_literal, hv, holdsOp_sub hop]
  rw [normineq2_literal]
  generalize sigdifference (form "DIFFERENCE" [a, b]) = dif at hl hholds
  obtain ⟨f, hf, rfl⟩ := hl
  by_cases hne : f.coefs = []
  · have hconst : toTerm f = qrep f.const := by rw [toTerm, hne, List.map_nil, sumTerm]
    simp only [hconst] at hholds ⊢
    rw [if_pos (qnumber_qrep _).qnumberp]
    refine normconstdif_spec hop fun ρ => ?_
    rw [hholds, value_number (qnumber_qrep _), qval_qrep]
  · obtain ⟨n, q, hn, hq, hsolvable⟩ := solvable_toTerm false hf hne
    obtain ⟨op', b', hop', e, hb', h⟩ := solvedFor_spec hop ⟨f, hf, rfl⟩ hn hq
    simp only [qnumberp_toTerm hne, Bool.false_eq_true, if_false, hsolvable, e]
    refine .solved hop' hn hb' fun ρ => ?_
    rw [holds_literal, hholds, value_sym, h]

/-! ### `normineq` -/

section

variable {st : ProverState}

/-- The integer variables are integers, and the disequalities on the use lists hold. -/
structure StateValuation (st : ProverState) (ρ : String → ℚ) : Prop where
  integer : IntegerValued st.typealist ρ
  disequal : ∀ x, ∀ u ∈ use st x, u.consp = true → u.car.consp = true →
    value ρ u.car.car ≠ value ρ u.car.cdr

theorem isStrict_spec (hρ : StateValuation st ρ) (h : isStrict st (literal op a b) = true) :
    value ρ a ≠ value ρ b := by
  obtain ⟨u, hu, h⟩ := List.any_eq_true.1 h
  simp only [Bool.and_eq_true, beq_iff_eq] at h
  obtain ⟨⟨⟨hcons, hpair⟩, hleft⟩, hright⟩ := h
  have hne := hρ.disequal _ u hu hcons hpair
  rw [← hleft, ← hright] at hne
  exact hne

/-- A verdict on a literal under the valuation, or a literal that says the same. -/
inductive Normalizes (ρ : String → ℚ) (lit : SExp) : SExp → Prop
  | true {r : SExp} : r = tt ∨ r = ident → Holds ρ lit → Normalizes ρ lit r
  | false : ¬ Holds ρ lit → Normalizes ρ lit ff
  | solved {op n : String} {b : SExp} : op ∈ literalOps → IsVar n → FlatTerm b →
    (Holds ρ (literal op (.sym n) b) ↔ Holds ρ lit) → Normalizes ρ lit (literal op (.sym n) b)

theorem Normalizes.of_iff {lit lit' r : SExp} (h : Normalizes ρ lit r) (e : Holds ρ lit ↔ Holds ρ lit') :
    Normalizes ρ lit' r := by
  cases h with
  | true hr h => exact .true hr (e.1 h)
  | false h => exact .false fun h' => h (e.2 h')
  | solved hop hn hb h => exact .solved hop hn hb (h.trans e)

/-- The check is right about the equation of a variable with a term. -/
def ChecksStrict (ρ : String → ℚ) (checkStrict : SExp → Bool) : Prop :=
  ∀ op n b, IsVar n → FlatTerm b → checkStrict (literal op (.sym n) b) = true → ρ n ≠ value ρ b

variable {checkStrict : SExp → Bool}

theorem makeStrict_spec (hρ : StateValuation st ρ) (hcheck : ChecksStrict ρ checkStrict)
    (hop : op ∈ literalOps) {n : String} (hn : IsVar n) (hb : FlatTerm b) :
    Normalizes ρ (literal op (.sym n) b) (makeStrict st checkStrict (literal op (.sym n) b)) := by
  have hself : Normalizes ρ (literal op (.sym n) b) (literal op (.sym n) b) :=
    .solved hop hn hb Iff.rfl
  have hne : ∀ op, (isStrict st (literal op (.sym n) b) ||
      checkStrict (literal op (.sym n) b)) = true → ρ n ≠ value ρ b := by
    intro op h
    rcases Bool.or_eq_true _ _ ▸ h with h | h
    · simpa using isStrict_spec hρ h
    · exact hcheck op n b hn hb h
  simp only [literalOps, List.mem_cons, List.not_mem_nil, or_false] at hop
  rcases hop with rfl | rfl | rfl | rfl | rfl
  · have e : makeStrict st checkStrict (literal "equal" (.sym n) b) =
        if isStrict st (literal "equal" (.sym n) b) then ff else literal "equal" (.sym n) b := rfl
    rw [e]
    split
    · rename_i h
      exact .false fun h' => isStrict_spec hρ h (holds_literal.1 h')
    · exact hself
  · exact hself
  · have e : makeStrict st checkStrict (literal "lesseqp" (.sym n) b) =
        if isStrict st (literal "lesseqp" (.sym n) b) ||
          checkStrict (literal "lesseqp" (.sym n) b) then literal "lessp" (.sym n) b
        else literal "lesseqp" (.sym n) b := rfl
    rw [e]
    split
    · rename_i h
      refine .solved (by decide) hn hb ?_
      rw [holds_literal, holds_literal, value_sym]
      exact ⟨le_of_lt, fun hle => lt_of_le_of_ne hle (hne _ h)⟩
    · exact hself
  · exact hself
  · have e : makeStrict st checkStrict (literal "greatereqp" (.sym n) b) =
        if isStrict st (literal "greatereqp" (.sym n) b) ||
          checkStrict (literal "greatereqp" (.sym n) b) then literal "greaterp" (.sym n) b
        else literal "greatereqp" (.sym n) b := rfl
    rw [e]
    split
    · rename_i h
      refine .solved (by decide) hn hb ?_
      rw [holds_literal, holds_literal, value_sym]
      exact ⟨le_of_lt, fun hle => lt_of_le_of_ne hle (hne _ h).symm⟩
    · exact hself

theorem Replaces.normalizes {n : String} {r : SExp} (hn : IsVar n)
    (h : Replaces ρ (literal op (.sym n) b) r) : Normalizes ρ (literal op (.sym n) b) r := by
  rcases h with ⟨rfl, h⟩ | ⟨op', b', hop', rfl, hb', h⟩
  · exact .false h
  · exact .solved hop' hn hb' h

/-- The second cut. -/
theorem Normalizes.integercut (hquo : FractionsDeclared st.typealist) (hρ : StateValuation st ρ) {r : SExp}
    (h : Normalizes ρ lit r) : Normalizes ρ lit (integercut st.typealist r) := by
  cases h with
  | true hr h =>
    rcases hr with rfl | rfl
    · exact .true (.inl rfl) h
    · exact .true (.inr rfl) h
  | false h => exact .false h
  | @solved op n b hop hn hb h =>
    exact ((integercut_replaces hquo hρ.integer hop (.var hn) hb).normalizes hn).of_iff h

theorem normineq1_spec (hρ : StateValuation st ρ) (hcheck : ChecksStrict ρ checkStrict)
    (hop : op ∈ literalOps) (ha : FlatTerm a) (hb : FlatTerm b) :
    Normalizes ρ (literal op a b) (normineq1 st checkStrict (literal op a b)) := by
  have h := normineq2_spec hop ha hb
  unfold normineq1
  generalize normineq2 (literal op a b) = norm at h
  cases h with
  | true hr h =>
    rcases hr with rfl | rfl
    · exact .true (.inl rfl) (h ρ)
    · exact .true (.inr rfl) (h ρ)
  | false h => exact .false (h ρ)
  | solved hop' hn hb' h => exact (makeStrict_spec hρ hcheck hop' hn hb').of_iff (h ρ)

theorem normineqWith_spec (hquo : FractionsDeclared st.typealist) (hρ : StateValuation st ρ)
    (hcheck : ChecksStrict ρ checkStrict) (hop : op ∈ literalOps) (ha : FlatTerm a)
    (hb : FlatTerm b) :
    Normalizes ρ (literal op a b) (normineqWith st checkStrict (literal op a b)) := by
  have hresult : ∀ (ilit result : SExp), Normalizes ρ (literal op a b) result →
      Normalizes ρ (literal op a b)
        (if result = ident ∧ literal op a b ≠ ilit then tt else result) := by
    intro ilit result h
    split
    · rename_i hident
      cases h with
      | true _ h => exact .true (.inl rfl) h
      | false h => exact absurd hident.1 (by decide)
      | solved => cases hident.1
    · exact h
  apply hresult
  rcases integercut_replaces hquo hρ.integer hop ha hb with ⟨e, h⟩ | ⟨op', b', hop', e, hb', h⟩
  · rw [e]
    exact .false h
  · rw [e]
    exact ((normineq1_spec hρ hcheck hop' ha hb').integercut hquo hρ).of_iff (e ▸ h)

/-- An equation that `equalsolve` refutes or finds among the disequalities fails. -/
theorem checksStrict_checkStrict (hquo : FractionsDeclared st.typealist) (hρ : StateValuation st ρ)
    (cancelHead : SExp → List SExp) :
    ChecksStrict ρ (GroundProver.checkStrict st cancelHead) := by
  intro op n b hn hb h
  have hnever : ChecksStrict ρ fun _ => false := fun _ _ _ _ _ h => nomatch h
  have hequal : "equal" ∈ literalOps := by decide
  have hnorm := normineqWith_spec hquo hρ hnever hequal (.var hn) hb
  have hfails : ¬ Holds ρ (literal "equal" (.sym n) b) := by
    have hunfold : GroundProver.checkStrict st cancelHead (literal op (.sym n) b) =
        checkStrictRec st (equalsolve st cancelHead (literal "equal" (.sym n) b)) := rfl
    rw [hunfold, equalsolve] at h
    generalize normineqWith st (fun _ => false) (literal "equal" (.sym n) b) = norm at hnorm h
    cases hnorm with
    | true hr _ => rcases hr with rfl | rfl <;> cases h
    | false hfalse => exact hfalse
    | @solved op' m b' hop' hm hb' hiff =>
      have hhead : (isForm "TIMES" (literal op' (.sym m) b').arg1 ||
          isForm "DIVIDE" (literal op' (.sym m) b').arg1) = false := rfl
      simp only [consp, if_true, hhead, Bool.false_eq_true, if_false] at h
      split at h
      · have hstrict : ((literal op' (.sym m) b').funsym == .sym "equal" &&
            isStrict st (literal op' (.sym m) b')) = true := by
          simpa [checkStrictRec, consp] using h
        rw [Bool.and_eq_true, beq_iff_eq] at hstrict
        obtain ⟨hequal, hstrict⟩ := hstrict
        obtain rfl : op' = "equal" := by simpa using hequal
        rw [← hiff, holds_literal]
        exact isStrict_spec hρ hstrict
      · simp [checkStrictRec, consp] at h
  intro e
  exact hfails (holds_literal.2 (by simpa [holdsOp] using e))

theorem normineq_normalizes (hquo : FractionsDeclared st.typealist) (hρ : StateValuation st ρ)
    (cancelHead : SExp → List SExp) (hop : op ∈ literalOps) (ha : FlatTerm a) (hb : FlatTerm b) :
    Normalizes ρ (literal op a b) (normineq st cancelHead (literal op a b)) :=
  normineqWith_spec hquo hρ (checksStrict_checkStrict hquo hρ cancelHead) hop ha hb

end

end PVS.GroundProver
