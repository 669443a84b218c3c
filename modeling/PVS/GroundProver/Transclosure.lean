import Mathlib
import PVS.GroundProver.Bounds
import PVS.GroundProver.Congruence

/-! What `transclosure` adds follows from the inequality and the true ones that it is chained with. -/

namespace PVS.GroundProver

open Library SExp

variable {ρ : String → ℚ} {a b u : SExp} {op : String} {st : ProverState}

/-! ### Verdicts of `normineq` -/

theorem shifted_sum {x : SExp} (hx : QNumber x) (hb : FlatTerm b) :
    ∀ ρ, value ρ (sigplus (plus [x, b])) = value ρ b + qval x := by
  intro ρ
  rw [(Addend.sigplus (List.forall_mem_cons.2 ⟨.inr hx, List.forall_mem_singleton.2 (.inl hb)⟩)).2]
  simp [value_number hx, add_comm]

/-- A cut moves the right side by a number. -/
theorem integercut_shift (op : String) (a : SExp) {typealist : List (SExp × SExp)} (hquo : FractionsDeclared typealist)
    (hb : FlatTerm b) : integercut typealist (literal op a b) = ff ∨
      ∃ op' b' c, integercut typealist (literal op a b) = literal op' a b' ∧
        ∀ ρ, value ρ b' = value ρ b + c := by
  have hself : ∃ op' b' c, literal op a b = literal op' a b' ∧ ∀ ρ, value ρ b' = value ρ b + c :=
    ⟨op, b, 0, rfl, fun _ => (add_zero _).symm⟩
  unfold integercut
  split
  · split
    · exact .inr hself
    · rename_i f hf
      have hzero : IntegerValued typealist fun _ => 0 := fun _ _ => ⟨0, rfl⟩
      have hnumber := (fractpt_spec hb hquo hzero hf).number.number
      split
      · right
        unfold zerocut
        split
        · exact ⟨_, _, _, rfl, shifted_sum (.int (-1)) hb⟩
        · split
          · exact ⟨_, _, _, rfl, shifted_sum (.int 1) hb⟩
          · exact hself
      · split
        · unfold minuscut
          split
          · exact .inl rfl
          · split
            · exact .inr ⟨_, _, _, rfl, shifted_sum (hnumber.qplus (.int 1)).qminus hb⟩
            · refine .inr ⟨_, _, -qval f, rfl, fun ρ => ?_⟩
              have h := (Addend.sigdifference (.inl hb) (.inr hnumber)).2 ρ
              rw [value_number hnumber, sub_eq_add_neg] at h
              exact h
        · unfold poscut
          split
          · exact .inl rfl
          · split
            · exact .inr ⟨_, _, _, rfl, shifted_sum hnumber.qminus hb⟩
            · exact .inr ⟨_, _, _, rfl, shifted_sum (qval_qdifference (.int 1) hnumber).1 hb⟩
  · exact .inr hself

theorem normineq2_verdict (ha : FlatTerm a) (hb : FlatTerm b)
    (h : (normineq2 (literal op a b)).consp = false) :
    ∃ c, (∀ ρ, value ρ a - value ρ b = c) ∧
      normineq2 (literal op a b) = normconstdif (.sym op) (qrep c) := by
  obtain ⟨⟨f, hf, e⟩, hv⟩ := Addend.sigdifference (.inl ha) (.inl hb)
  rw [normineq2_literal] at h ⊢
  rw [e] at h ⊢ hv
  by_cases hne : f.coefs = []
  · have hconst : toTerm f = qrep f.const := by rw [toTerm, hne, List.map_nil, sumTerm]
    simp only [hconst] at hv ⊢
    rw [if_pos (qnumber_qrep _).qnumberp]
    refine ⟨f.const, fun ρ => ?_, rfl⟩
    rw [← hv, value_number (qnumber_qrep _), qval_qrep]
  · obtain ⟨n, q, hn, hq, hsolvable⟩ := solvable_toTerm false hf hne
    simp only [qnumberp_toTerm hne, Bool.false_eq_true, if_false, hsolvable] at h
    cases h

theorem normconstdif_ident {c : ℚ} (h : normconstdif (.sym op) (qrep c) = ident) : c = 0 := by
  by_contra hne
  have hzero : qzerop (qrep c) ≠ true := by
    rw [ne_eq, qzerop_iff (qnumber_qrep c), qval_qrep]
    exact hne
  unfold normconstdif at h
  rw [if_neg hzero] at h
  have hverdict : ∀ p : Prop, [Decidable p] → (if p then tt else ff) ≠ ident := by
    intro p _
    split <;> decide
  split at h
  · exact hverdict _ h
  · exact hverdict _ h

theorem normconstdif_equal (dif : SExp) : normconstdif (.sym "equal") dif ≠ ident := by
  unfold normconstdif
  split
  · decide
  · split <;> decide

theorem literal_inj {op op' : String} {a a' b b' : SExp} (h : literal op a b = literal op' a' b') :
    op = op' ∧ a = a' ∧ b = b' := by
  simpa [form] using h

/-- A cut of a linear literal is `false`, or a linear literal with a moved right side. -/
theorem integercut_cases (hquo : FractionsDeclared st.typealist) (hop : op ∈ literalOps)
    (ha : FlatTerm a) (hb : FlatTerm b) : integercut st.typealist (literal op a b) = ff ∨
      ∃ op' b' c, op' ∈ literalOps ∧ integercut st.typealist (literal op a b) = literal op' a b' ∧
        FlatTerm b' ∧ ∀ ρ, value ρ b' = value ρ b + c := by
  have hzero : IntegerValued st.typealist fun _ => 0 := fun _ _ => ⟨0, rfl⟩
  rcases integercut_shift op a hquo hb with e | ⟨op₁, b₁, c, e, hc⟩
  · exact .inl e
  · rcases integercut_replaces hquo hzero hop ha hb with ⟨e', -⟩ | ⟨op₂, b₂, hop₂, e', hb₂, -⟩
    · exact .inl e'
    · obtain ⟨rfl, -, rfl⟩ := literal_inj (e.symm.trans e')
      exact .inr ⟨op₁, b₁, c, hop₂, e, hb₂, hc⟩

theorem makeStrict_cases (st : ProverState) (checkStrict : SExp → Bool) (op : String) (a b : SExp) :
    makeStrict st checkStrict (literal op a b) = ff ∨
      ∃ op', makeStrict st checkStrict (literal op a b) = literal op' a b := by
  unfold makeStrict
  split
  · split
    · exact .inl rfl
    · exact .inr ⟨op, rfl⟩
  · split
    · split
      · exact .inr ⟨_, rfl⟩
      · exact .inr ⟨op, rfl⟩
    · split
      · split
        · exact .inr ⟨_, rfl⟩
        · exact .inr ⟨op, rfl⟩
      · exact .inr ⟨op, rfl⟩

/-- Only a number for the difference makes `normineq1` answer `true` or `ident`. -/
theorem normineq1_verdict (hquo : FractionsDeclared st.typealist) (checkStrict : SExp → Bool)
    (hop : op ∈ literalOps) (ha : FlatTerm a) (hb : FlatTerm b) {r : SExp} (hr : r = tt ∨ r = ident)
    (h : integercut st.typealist (normineq1 st checkStrict (literal op a b)) = r) :
    (normineq2 (literal op a b)).consp = false ∧ normineq2 (literal op a b) = r := by
  have hsolved := normineq2_spec hop ha hb
  have hne : ∀ op' a' b', literal op' a' b' ≠ r := by
    rintro op' a' b' rfl
    rcases hr with hr | hr <;> cases hr
  have hff : ff ≠ r := by
    rintro rfl
    revert hr
    decide
  have hatom : ∀ x : SExp, x.consp = false → integercut st.typealist x = x := by
    intro x hx
    rw [integercut, hx]
    rfl
  unfold normineq1 at h
  generalize normineq2 (literal op a b) = norm at hsolved h
  cases hsolved with
  | true ht _ =>
    rcases ht with rfl | rfl
    · rw [if_neg (by decide), hatom _ rfl] at h
      exact ⟨rfl, h⟩
    · rw [if_neg (by decide), hatom _ rfl] at h
      exact ⟨rfl, h⟩
  | false _ =>
    rw [if_neg (by decide), hatom _ rfl] at h
    exact absurd h hff
  | @solved op' n b' hop' hn hb' _ =>
    have h : integercut st.typealist (makeStrict st checkStrict (literal op' (.sym n) b')) = r := h
    rcases makeStrict_cases st checkStrict op' (.sym n) b' with e | ⟨op'', e⟩
    · rw [e, hatom _ rfl] at h
      exact absurd h hff
    · rw [e] at h
      rcases integercut_shift op'' (.sym n) hquo hb' with e' | ⟨_, _, _, e', -⟩
      · exact absurd (e'.symm.trans h) hff
      · exact absurd (e'.symm.trans h) (hne _ _ _)

theorem normineq_verdict (hquo : FractionsDeclared st.typealist) (cancelHead : SExp → List SExp)
    (hop : op ∈ literalOps) (ha : FlatTerm a) (hb : FlatTerm b) {r : SExp} (hr : r = tt ∨ r = ident)
    (h : normineq st cancelHead (literal op a b) = r) :
    (∃ c, ∀ ρ, value ρ a - value ρ b = c) ∧
      (r = ident → op ≠ "equal" ∧ ∀ ρ, value ρ a = value ρ b) := by
  rw [normineq, normineqWith] at h
  rcases integercut_cases hquo hop ha hb with e | ⟨op', b', c, hop', e, hb', hc⟩
  · rw [e] at h
    have hff : ff = r := h
    rw [← hff] at hr
    exact absurd hr (by decide)
  · have hcons : (literal op' a b').consp = true := rfl
    simp only [e, hcons, if_true] at h
    have hverdict : ∀ r, r = tt ∨ r = ident → integercut st.typealist
        (normineq1 st (checkStrict st cancelHead) (literal op' a b')) = r →
        ∃ d, (∀ ρ, value ρ a - value ρ b' = d) ∧ normconstdif (.sym op') (qrep d) = r := by
      intro r hr h
      obtain ⟨hatom, h2⟩ := normineq1_verdict hquo _ hop' ha hb' hr h
      obtain ⟨d, hd, h3⟩ := normineq2_verdict ha hb' hatom
      exact ⟨d, hd, h3.symm.trans h2⟩
    have hconst : ∀ {d}, (∀ ρ, value ρ a - value ρ b' = d) → ∃ c, ∀ ρ, value ρ a - value ρ b = c := by
      intro d hd
      refine ⟨d + c, fun ρ => ?_⟩
      rw [← hd ρ, hc]
      ring
    split at h
    · rename_i hcut
      obtain ⟨d, hd, -⟩ := hverdict ident (.inr rfl) hcut.1
      refine ⟨hconst hd, fun hident => ?_⟩
      rw [hident] at h
      exact absurd h (by decide)
    · rename_i hcut
      obtain ⟨d, hd, h3⟩ := hverdict r hr h
      refine ⟨hconst hd, fun hident => ?_⟩
      have hsame : literal op a b = literal op' a b' := by
        by_contra hne
        exact hcut ⟨h.trans hident, hne⟩
      obtain ⟨rfl, -, rfl⟩ := literal_inj hsame
      rw [hident] at h3
      refine ⟨?_, fun ρ => ?_⟩
      · rintro rfl
        exact normconstdif_equal _ h3
      · rw [← sub_eq_zero, hd, normconstdif_ident h3]

/-! ### The inequalities to chain with -/

/-- `pr-find` comes to `true`. -/
def FindsTrue (st : ProverState) (u : SExp) : Prop := ∃ st', Evals (prFind u) st (.ok tt) st'

/-- The inequalities on the use list of their left side `a` whose `pr-find` is `true`. -/
def TrueChains (st : ProverState) (a : SExp) (P : SExp → Prop) : Prop :=
  ∀ u ∈ use st a, isineq u = true → u.arg1 = a → FindsTrue st u → P u

def LinearIneq (a u : SExp) : Prop := ∃ op b, op ∈ arithrels ∧ FlatTerm b ∧ u = literal op a b

structure ChainContext (ρ : String → ℚ) (a : SExp) (st : ProverState) : Prop where
  quo : FractionsDeclared st.typealist
  valuation : StateValuation st ρ
  linear : TrueChains st a (LinearIneq a)
  holds : TrueChains st a (Holds ρ)

/-- The links that `pr-find` follows. -/
def findSteps (findalist : List (SExp × SExp)) : ℕ → SExp → Option SExp
  | 0, _ => none
  | k + 1, v => if getq v findalist = nil then some v else findSteps findalist k (getq v findalist)

theorem run_prFind (n : ℕ) (v : SExp) (st : ProverState) :
    (prFind v).run n st = (findSteps st.findalist n v).map fun t => (.ok t, st) := by
  have hloop : ∀ k v, (Fueled.loopN (fun v => do
      let u := find1 (← get) v
      if u = nil then pure (.inr v) else pure (.inl u)) k v : ProverM SExp).run n st =
        (findSteps st.findalist k v).map fun t => (.ok t, st) := by
    intro k
    induction k with
    | zero => intro v; rfl
    | succ k ih =>
      intro v
      rw [Fueled.loopN, findSteps, Fueled.run_bind]
      by_cases h : getq v st.findalist = nil
      · have hbody : ((do
            let u := find1 (← get) v
            if u = nil then pure (.inr v) else pure (.inl u)) : ProverM (SExp ⊕ SExp)).run n st =
              some (.ok (.inr v), st) := by
          have h' : find1 st v = nil := h
          rw [Fueled.run_bind]
          change (if find1 st v = nil then pure (.inr v) else pure (.inl (find1 st v)) :
            ProverM (SExp ⊕ SExp)).run n st = _
          rw [if_pos h']
          rfl
        rw [hbody, if_pos h]
        rfl
      · have hbody : ((do
            let u := find1 (← get) v
            if u = nil then pure (.inr v) else pure (.inl u)) : ProverM (SExp ⊕ SExp)).run n st =
              some (.ok (.inl (getq v st.findalist)), st) := by
          have h' : ¬ find1 st v = nil := h
          rw [Fueled.run_bind]
          change (if find1 st v = nil then pure (.inr v) else pure (.inl (find1 st v)) :
            ProverM (SExp ⊕ SExp)).run n st = _
          rw [if_neg h']
          rfl
        rw [hbody, if_neg h]
        exact ih _
  exact hloop n v

theorem ensures_prFind (v : SExp) (st : ProverState) :
    Ensures (· = st) (prFind v) fun t s => s = st ∧ (t = tt → FindsTrue st v) := by
  have hfind : Ensures (· = st) (prFind v) fun _ s => s = st := by
    rintro s r s' rfl ⟨n, hn⟩
    rw [run_prFind, Option.map_eq_some_iff] at hn
    obtain ⟨t, -, e⟩ := hn
    cases e
    exact ⟨t, rfl, rfl⟩
  refine hfind.evals.mono fun t s h => ⟨h.1, ?_⟩
  rintro rfl
  exact ⟨s, h.2⟩

theorem FindsTrue.congr {st' : ProverState} (h : st.findalist = st'.findalist) :
    FindsTrue st u → FindsTrue st' u := by
  rintro ⟨s, n, hn⟩
  rw [run_prFind, Option.map_eq_some_iff] at hn
  obtain ⟨t, ht, e⟩ := hn
  cases e
  refine ⟨st', n, ?_⟩
  rw [run_prFind, ← h, ht]
  rfl

/-- A new term on the use lists of its arguments. -/
theorem ChainContext.registerNew (hC : ChainContext ρ a st) {newterm : SExp}
    (hcar : newterm.car.consp = false)
    (hnew : isineq newterm = true → newterm.arg1 = a → LinearIneq a newterm ∧ Holds ρ newterm) :
    ChainContext ρ a (registerNew newterm st) := by
  have hregister : ChainContext ρ a (register newterm st) := by
    obtain ⟨ul, e⟩ := register_frame newterm st
    have htypes : (register newterm st).typealist = st.typealist := by rw [e]
    have hfinds : (register newterm st).findalist = st.findalist := by rw [e]
    have huse : ∀ {x u}, u ∈ use (register newterm st) x → u ∈ use st x ∨ u = newterm := fun hu =>
      (mem_use_register.1 hu).imp id And.left
    have hchains : ∀ {P : SExp → Prop}, TrueChains st a P →
        (isineq newterm = true → newterm.arg1 = a → P newterm) →
        TrueChains (register newterm st) a P := by
      intro P hP hPnew u hu hineq harg hfind
      rcases huse hu with hu | rfl
      · exact hP u hu hineq harg (hfind.congr hfinds)
      · exact hPnew hineq harg
    refine ⟨htypes ▸ hC.quo, ⟨htypes ▸ hC.valuation.integer, ?_⟩, ?_, ?_⟩
    · intro x u hu hcons hpair
      rcases huse hu with hu | rfl
      · exact hC.valuation.disequal x u hu hcons hpair
      · rw [hcar] at hpair
        cases hpair
    · exact hchains hC.linear fun h h' => (hnew h h').1
    · exact hchains hC.holds fun h h' => (hnew h h').2
  unfold GroundProver.registerNew
  split
  · split
    · exact hC
    · exact hregister
  · exact hC

/-! ### `arithcan` -/

section

variable (cancelHead : SExp → List SExp)

theorem FlatTerm.car_consp (h : FlatTerm a) : a.car.consp = false := by
  cases h with
  | num q =>
    unfold qrep
    split <;> rfl
  | var hn => rfl
  | scaled q hn => rfl
  | sum hl => rfl

theorem arithcanUseArgs_ofList {l : List SExp}
    (hl : ∀ t ∈ l, Ensures (ChainContext ρ a) (arithcanUse cancelHead t)
      fun r s => r = arithcan t ∧ ChainContext ρ a s) :
    Ensures (ChainContext ρ a) (arithcanUseArgs cancelHead (ofList l))
      fun rs s => rs = l.map arithcan ∧ ChainContext ρ a s := by
  induction l with
  | nil => exact ensures_pure fun s hs => ⟨rfl, hs⟩
  | cons t l ih =>
    rw [ofList_cons, arithcanUseArgs]
    refine (hl t List.mem_cons_self).bind fun r => .of_pure fun hr => ?_
    refine (ih fun t ht => hl t (List.mem_cons_of_mem _ ht)).bind fun rs => .of_pure fun hrs => ?_
    exact ensures_pure fun s hs => ⟨by rw [hr, hrs, List.map_cons], hs⟩

/-- `arithcan` of an interpreted term that is no inequality. -/
theorem arithcanUse_form {f : String} {l : List SExp} (hinterp : interp (form f l) = true)
    (hineq : memq (.sym f) arithrels = false)
    (hcan : arithcan (form f l) = sigmaArith (form f (l.map arithcan)))
    (hflat : FlatTerm (arithcan (form f l)))
    (hl : ∀ t ∈ l, Ensures (ChainContext ρ a) (arithcanUse cancelHead t)
      fun r s => r = arithcan t ∧ ChainContext ρ a s) :
    Ensures (ChainContext ρ a) (arithcanUse cancelHead (form f l))
      fun r s => r = arithcan (form f l) ∧ ChainContext ρ a s := by
  rw [form, arithcanUse, if_pos hinterp]
  refine (arithcanUseArgs_ofList cancelHead hl).bind fun rs => .of_pure fun hrs => ?_
  refine ensures_get_bind fun st hst => Ensures.of_eq ?_ hst
  have hnot : isineq (.cons (.sym f) (ofList rs)) = false := by
    have h : isineq (.cons (.sym f) (ofList rs)) = memq (.sym f) arithrels := rfl
    rw [h, hineq]
  have hterm : sigmaArith (.cons (.sym f) (ofList rs)) = arithcan (form f l) := by
    rw [hcan, hrs, form]
  simp only [hnot, Bool.false_eq_true, if_false, hterm]
  refine (ensures_modify fun s hs => hs.registerNew hflat.car_consp ?_).bind fun _ =>
    ensures_pure fun s hs => ⟨rfl, hs⟩
  rw [hflat.not_isineq]
  intro h
  cases h

theorem arithcanUse_flat {t : SExp} (ht : FlatTerm t) :
    Ensures (ChainContext ρ a) (arithcanUse cancelHead t)
      fun r s => r = arithcan t ∧ ChainContext ρ a s := by
  have hflat : ∀ {t}, FlatTerm t → FlatTerm (arithcan t) := fun h =>
    (isLinear_arithcan h.linearTerm.1 h.linearTerm.2).1.flat
  have hint : ∀ i : ℤ, Ensures (ChainContext ρ a) (arithcanUse cancelHead (.int i))
      fun r s => r = arithcan (.int i) ∧ ChainContext ρ a s :=
    fun i => ensures_pure fun s hs => ⟨rfl, hs⟩
  have hnum : ∀ q : ℚ, Ensures (ChainContext ρ a) (arithcanUse cancelHead (qrep q))
      fun r s => r = arithcan (qrep q) ∧ ChainContext ρ a s := by
    intro q
    have h := hflat (.num q)
    unfold qrep at h ⊢
    split
    · exact hint _
    · rename_i hden
      rw [if_neg hden] at h
      refine arithcanUse_form cancelHead (by simp [interp]) (by decide) ?_ h ?_
      · simp [arithcan, sigmaArith]
      · rw [List.forall_mem_cons, List.forall_mem_singleton]
        exact ⟨hint _, hint _⟩
  have hvar : ∀ {n : String}, Ensures (ChainContext ρ a) (arithcanUse cancelHead (.sym n))
      fun r s => r = arithcan (.sym n) ∧ ChainContext ρ a s :=
    ensures_pure fun s hs => ⟨rfl, hs⟩
  induction ht with
  | num q => exact hnum q
  | var hn => exact hvar
  | @scaled q n hn =>
    refine arithcanUse_form cancelHead (by simp [interp, memq, interpsyms]) (by decide)
      (arithcan_form _ (by decide)) (hflat (.scaled q hn)) ?_
    rw [List.forall_mem_cons, List.forall_mem_singleton]
    exact ⟨hnum q, hvar⟩
  | @sum l hl ih =>
    exact arithcanUse_form cancelHead (by simp [interp, memq, interpsyms]) (by decide)
      (arithcan_form _ (by decide)) (hflat (.sum hl)) ih

theorem flat_arithcan {t : SExp} (ht : FlatTerm t) :
    FlatTerm (arithcan t) ∧ ∀ ρ, value ρ (arithcan t) = value ρ t := by
  obtain ⟨hl, hd⟩ := isLinear_arithcan ht.linearTerm.1 ht.linearTerm.2
  exact ⟨hl.flat, fun ρ => value_arithcan (ht.linearTerm.1.arithTerm ρ) hd⟩

/-- `true`, or a solved literal that holds. -/
inductive Derived (ρ : String → ℚ) : SExp → Prop
  | true : Derived ρ tt
  | solved {op n : String} {b : SExp} : op ∈ literalOps → IsVar n → FlatTerm b →
    Holds ρ (literal op (.sym n) b) → Derived ρ (literal op (.sym n) b)

theorem Normalizes.derived {lit r : SExp} (h : Normalizes ρ lit r) (hlit : Holds ρ lit) :
    Derived ρ (if r = ident then tt else r) := by
  cases h with
  | true hr _ =>
    rcases hr with rfl | rfl
    · exact .true
    · exact .true
  | false h => exact absurd hlit h
  | solved hop hn hb h =>
    rw [if_neg (fun h => by cases h)]
    exact .solved hop hn hb (h.2 hlit)

theorem Derived.atomHolds {r : SExp} (h : Derived ρ r) : AtomHolds ρ r := by
  cases h with
  | true => exact .inl rfl
  | solved hop hn _ h => exact (atomHolds_literal hop (.var hn)).2 h

theorem Derived.ne_ff {r : SExp} (h : Derived ρ r) : r ≠ ff := by
  cases h with
  | true => decide
  | solved => exact fun h => by cases h

theorem mem_literalOps (h : op ∈ arithrels) : op ∈ literalOps := List.mem_cons_of_mem _ h

theorem mem_arithrels_of_isineq (h : isineq (literal op a b) = true) : op ∈ arithrels := by
  have h : memq (.sym op) arithrels = true := h
  simpa [memq, arithrels] using h

theorem arithcanUse_literal (hop : op ∈ arithrels) {c : SExp} (hc : FlatTerm c) (hb : FlatTerm b)
    (hholds : Holds ρ (literal op c b)) : Ensures (ChainContext ρ a)
      (arithcanUse cancelHead (literal op c b)) fun r s => Derived ρ r ∧ ChainContext ρ a s := by
  have hsyms : interp (literal op c b) = true ∧ isineq (literal op c b) = true := by
    simp only [arithrels, List.mem_cons, List.not_mem_nil, or_false] at hop
    rcases hop with rfl | rfl | rfl | rfl <;> exact ⟨by simp [interp, memq, interpsyms], rfl⟩
  obtain ⟨hcflat, hcv⟩ := flat_arithcan hc
  obtain ⟨hbflat, hbv⟩ := flat_arithcan hb
  have hlit : Holds ρ (literal op (arithcan c) (arithcan b)) := by
    rw [holds_literal, hcv, hbv]
    exact holds_literal.1 hholds
  rw [literal, form, arithcanUse, if_pos hsyms.1]
  have hargs : ∀ t ∈ [c, b], Ensures (ChainContext ρ a) (arithcanUse cancelHead t)
      fun r s => r = arithcan t ∧ ChainContext ρ a s := by
    rw [List.forall_mem_cons, List.forall_mem_singleton]
    exact ⟨arithcanUse_flat cancelHead hc, arithcanUse_flat cancelHead hb⟩
  refine (arithcanUseArgs_ofList cancelHead hargs).bind fun rs => .of_pure ?_
  rintro rfl
  refine ensures_get_bind fun st hst => Ensures.of_eq ?_ hst
  have hineq : isineq (.cons (.sym op) (ofList [arithcan c, arithcan b])) = true := hsyms.2
  have hderived : Derived ρ (sigmaIneq cancelHead st (literal op (arithcan c) (arithcan b))) :=
    (normineq_normalizes hst.quo hst.valuation cancelHead (mem_literalOps hop) hcflat hbflat).derived
      hlit
  simp only [List.map_cons, List.map_nil, hineq, if_true]
  change Ensures _ (do
    modify (registerNew (sigmaIneq cancelHead st (literal op (arithcan c) (arithcan b))))
    pure (sigmaIneq cancelHead st (literal op (arithcan c) (arithcan b)))) _
  generalize sigmaIneq cancelHead st (literal op (arithcan c) (arithcan b)) = r at hderived
  refine (ensures_modify fun s hs => hs.registerNew ?_ ?_).bind fun _ =>
    ensures_pure fun s hs => ⟨hderived, hs⟩
  · cases hderived <;> rfl
  · intro hineq harg
    cases hderived with
    | true => cases hineq
    | @solved op' n b' _ _ hb' h =>
      have harg : .sym n = a := harg
      exact ⟨⟨op', b', mem_arithrels_of_isineq hineq, hb', by rw [harg]⟩, h⟩

end

/-! ### The candidates -/

theorem chainSquareIneq_flat (ha : FlatTerm a) : chainSquareIneq (literal op a b) = [] := by
  have hsquare : (isForm "TIMES" a && squareList a.cdr.toList) = false := by
    cases ha with
    | num q =>
      rw [isForm_qrep _ (by decide)]
      rfl
    | var hn => rfl
    | @scaled q n hn =>
      have hne : qrep q ≠ .sym n := by
        unfold qrep
        split <;> exact fun h => by cases h
      have hargs : (times [qrep q, .sym n]).cdr.toList = [qrep q, .sym n] := rfl
      rw [hargs, squareList]
      simp [hne]
    | sum hl => rfl
  have harg : (literal op a b).arg1 = a := rfl
  rw [chainSquareIneq, harg, Bool.and_assoc, hsquare, Bool.and_false]
  rfl

theorem isineq_of_oppsensep {x y : SExp} (h : oppsensep x y.funsym = true) : isineq y = true := by
  have hsym : ∃ n ∈ arithrels, y.funsym = .sym n := by
    unfold oppsensep at h
    split at h
    · rw [Bool.or_eq_true, beq_iff_eq, beq_iff_eq] at h
      rcases h with h | h
      · exact ⟨_, by decide, h⟩
      · exact ⟨_, by decide, h⟩
    · split at h
      · rw [Bool.or_eq_true, beq_iff_eq, beq_iff_eq] at h
        rcases h with h | h
        · exact ⟨_, by decide, h⟩
        · exact ⟨_, by decide, h⟩
      · cases h
  obtain ⟨n, hn, e⟩ := hsym
  have hcons : y.consp = true := by
    cases y with
    | cons _ _ => rfl
    | sym m =>
      cases e
      exact absurd hn (by decide)
    | int i =>
      cases e
      exact absurd hn (by decide)
  rw [isineq, hcons, e]
  simpa [memq] using hn

/-- What is collected chains with `ineq`, and its `pr-find` is `true`. -/
def Chains (st : ProverState) (ineq u : SExp) : Prop :=
  oppsensep ineq.funsym u.funsym = true ∧ u ∈ use st ineq.arg1 ∧ isineq u = true ∧
    u.arg1 = ineq.arg1 ∧ FindsTrue st u

theorem ensures_trueChainineqs (ineq : SExp) {us : List SExp} (hus : ∀ u ∈ us, u ∈ use st ineq.arg1) :
    Ensures (· = st) (trueChainineqs ineq us) fun l s => (∀ u ∈ l, Chains st ineq u) ∧ s = st := by
  induction us with
  | nil => exact ensures_pure fun s hs => ⟨(fun _ h => nomatch h), hs⟩
  | cons u us ih =>
    have ih := ih fun u hu => hus u (List.mem_cons_of_mem _ hu)
    rw [trueChainineqs]
    split
    · rename_i h
      rw [Bool.and_eq_true, beq_iff_eq] at h
      refine (ensures_prFind u st).bind fun t => ?_
      rintro s r s' ⟨rfl, hfind⟩ hr
      refine (ih.bind (R := fun l s' => (∀ u ∈ l, Chains s ineq u) ∧ s' = s) fun rest =>
        .of_pure fun hrest => ensures_pure ?_) s r s' rfl hr
      rintro s' rfl
      refine ⟨?_, rfl⟩
      split
      · rename_i ht
        exact List.forall_mem_cons.2 ⟨⟨h.1, hus u List.mem_cons_self, isineq_of_oppsensep h.1,
          h.2.symm, hfind ht⟩, hrest⟩
      · exact hrest
    · exact ih

theorem ensures_chainCandidates (op : String) (b : SExp) (ha : FlatTerm a) : Ensures (· = st)
    (chainCandidates (literal op a b)) fun l s =>
      (∀ u ∈ l, Chains st (literal op a b) u) ∧ s = st := by
  unfold chainCandidates
  refine ensures_get_bind fun s hs => ?_
  subst hs
  refine (ensures_trueChainineqs (literal op a b) fun _ h => h).bind fun us =>
    .of_pure fun hus => ensures_pure fun s' hs' => ⟨?_, hs'⟩
  rw [chainSquareIneq_flat ha, List.nil_append]
  exact hus

/-- An inequality that is filtered out is implied by one that is kept. -/
theorem chainineqs_keeps (hlinear : TrueChains st a (LinearIneq a)) {l : List SExp}
    (hl : ∀ u ∈ l, Chains st (literal op a b) u) {u : SExp} (hu : u ∈ l) :
    ∃ v ∈ okayIneqs l, ∀ ρ, Holds ρ v → Holds ρ u := by
  have hside : ∀ v ∈ l, v.arg1 = a := fun v hv => (hl v hv).2.2.2.1
  refine okayIneqs_keeps (a := a) (fun v hv hnum => ?_) hside hu
  obtain ⟨-, huse, hineq, harg, hfind⟩ := hl v hv
  obtain ⟨op', b', -, hb', rfl⟩ := hlinear v huse hineq harg hfind
  have hnum : qnumberp b' = true := hnum
  change PosNumber b'
  cases hb' with
  | num q => exact posNumber_qrep q
  | var hn => cases hnum
  | scaled q hn => cases hnum
  | sum hl => cases hnum

/-! ### The chained inequalities -/

theorem residue_holds (hop : op ∈ arithrels) {op' : String} (hop' : op' ∈ arithrels) {b' : SExp}
    (hopp : oppsensep (.sym op) (.sym op') = true) (h : Holds ρ (literal op a b))
    (h' : Holds ρ (literal op' a b')) : ∃ opr ∈ literalOps,
      residue (literal op a b) (literal op' a b') = literal opr b' b ∧ Holds ρ (literal opr b' b) := by
  rw [holds_literal] at h h'
  simp only [arithrels, List.mem_cons, List.not_mem_nil, or_false] at hop hop'
  rcases hop' with rfl | rfl | rfl | rfl
  · refine ⟨"greaterp", by decide, rfl, holds_literal.2 ?_⟩
    rcases hop with rfl | rfl | rfl | rfl
    · exact absurd hopp (by decide)
    · exact absurd hopp (by decide)
    · exact lt_trans (a := value ρ b) h h'
    · exact lt_of_le_of_lt (a := value ρ b) h h'
  · rcases hop with rfl | rfl | rfl | rfl
    · exact absurd hopp (by decide)
    · exact absurd hopp (by decide)
    · exact ⟨"greaterp", by decide, rfl, holds_literal.2 (lt_of_lt_of_le (a := value ρ b) h h')⟩
    · exact ⟨"greatereqp", by decide, rfl, holds_literal.2 (le_trans (a := value ρ b) h h')⟩
  · refine ⟨"lessp", by decide, rfl, holds_literal.2 ?_⟩
    rcases hop with rfl | rfl | rfl | rfl
    · exact lt_trans (a := value ρ b') h' h
    · exact lt_of_lt_of_le (a := value ρ b') h' h
    · exact absurd hopp (by decide)
    · exact absurd hopp (by decide)
  · rcases hop with rfl | rfl | rfl | rfl
    · exact ⟨"lessp", by decide, rfl, holds_literal.2 (lt_of_le_of_lt (a := value ρ b') h' h)⟩
    · exact ⟨"lesseqp", by decide, rfl, holds_literal.2 (le_trans (a := value ρ b') h' h)⟩
    · exact absurd hopp (by decide)
    · exact absurd hopp (by decide)

/-- An inequality and one of the opposite sense with the same bound make an equation. -/
theorem eq_of_opposite {op' : String} {b' : SExp}
    (hopp : oppsensep (.sym op) (.sym op') = true) (h : Holds ρ (literal op a b))
    (h' : Holds ρ (literal op' a b')) (he : value ρ b' = value ρ b) : value ρ a = value ρ b := by
  unfold oppsensep at hopp
  split at hopp
  · rename_i hup
    have hlow : isLower (literal op' a b') = true := by simpa [isLower] using hopp
    have hle : value ρ a ≤ value ρ b := (holds_upper (u := literal op a b) (isUpper_iff.2 hup)).2 h
    have hge : value ρ b' ≤ value ρ a := (holds_lower hlow).2 h'
    exact le_antisymm hle (he ▸ hge)
  · split at hopp
    · rename_i hlow
      have hup : isUpper (literal op' a b') = true := by simpa [isUpper] using hopp
      have hge : value ρ b ≤ value ρ a := (holds_lower (u := literal op a b) (isLower_iff.2 hlow.symm)).2 h
      have hle : value ρ a ≤ value ρ b' := (holds_upper hup).2 h'
      exact le_antisymm (he ▸ hle) hge
    · cases hopp

/-- What `normineq` makes of an equation is one. -/
theorem funsym_normineq_equal (st : ProverState) (a b : SExp) (cancelHead : SExp → List SExp)
    (h : (normineq st cancelHead (equal a b)).consp = true) :
    (normineq st cancelHead (equal a b)).funsym = .sym "equal" := by
  have hcut : ∀ lit, (lit.consp = true → lit.funsym = .sym "equal") →
      (integercut st.typealist lit).consp = true →
      (integercut st.typealist lit).funsym = .sym "equal" := by
    intro lit hlit hcons
    unfold integercut at hcons ⊢
    split at hcons
    · rename_i hint
      rw [Bool.and_eq_true] at hint
      have hlit := hlit hint.1
      rw [if_pos (by rwa [Bool.and_eq_true])]
      split at hcons
      · exact hlit
      · split at hcons
        · rename_i hz
          rw [if_pos hz, zerocut, hlit, if_neg (by decide), if_neg (by decide), hlit]
        · split at hcons
          · rw [minuscut, if_pos hlit] at hcons
            cases hcons
          · rw [poscut, if_pos hlit] at hcons
            cases hcons
    · rename_i hint
      rw [if_neg hint]
      exact hlit hcons
  have hone : (normineq1 st (checkStrict st cancelHead) (equal a b)).consp = true →
      (normineq1 st (checkStrict st cancelHead) (equal a b)).funsym = .sym "equal" := by
    unfold normineq1
    dsimp only
    split
    · rename_i hcons
      have hequal := funsym_normineq2_equal hcons
      rw [makeStrict, if_pos hequal]
      split
      · intro h
        cases h
      · exact fun _ => hequal
    · rename_i hcons
      exact fun h => absurd h hcons
  rw [normineq, normineqWith] at h ⊢
  rcases integercut_equal (a := a) (b := b) st.typealist with e | e
  · simp only [equal, e] at h
    cases h
  · have hcons : (literal "equal" a b).consp = true := rfl
    simp only [equal, e, hcons, if_true] at h ⊢
    split at h
    · cases h
    · rename_i hident
      rw [if_neg hident]
      exact hcut _ hone h

theorem equalsolve_holds (hquo : FractionsDeclared st.typealist) (hρ : StateValuation st ρ)
    (cancelHead : SExp → List SExp) (ha : FlatTerm a) (hb : FlatTerm b)
    (h : Holds ρ (literal "equal" a b)) :
    ∀ e ∈ equalsolve st cancelHead (literal "equal" a b), AtomHolds ρ e := by
  have hop : "equal" ∈ literalOps := by decide
  have hnorm := normineq_normalizes hquo hρ cancelHead hop ha hb
  have hident : normineq st cancelHead (literal "equal" a b) ≠ ident := fun e =>
    ((normineq_verdict hquo cancelHead (by decide) ha hb (.inr rfl) e).2 rfl).1 rfl
  have hequal := funsym_normineq_equal st a b cancelHead
  have e : normineqWith st (fun _ => false) (literal "equal" a b) =
      normineq st cancelHead (literal "equal" a b) := normineqWith_equal _ _
  rw [equalsolve, e]
  simp only [equal] at hequal
  generalize normineq st cancelHead (literal "equal" a b) = norm at hnorm hident hequal
  cases hnorm with
  | true hr _ =>
    rcases hr with rfl | rfl
    · exact List.forall_mem_singleton.2 (.inl rfl)
    · exact absurd rfl hident
  | false hfalse => exact absurd h hfalse
  | @solved op' n b' hop' hn hb' hiff =>
    obtain rfl : op' = "equal" := by simpa using hequal rfl
    have hholds := hiff.2 h
    have hhead : (isForm "TIMES" (literal "equal" (.sym n) b').arg1 ||
        isForm "DIVIDE" (literal "equal" (.sym n) b').arg1) = false := rfl
    have hcons : (literal "equal" (.sym n) b').consp = true := rfl
    simp only [hcons, if_true, hhead, Bool.false_eq_true, if_false]
    split
    · exact List.forall_mem_singleton.2 ((atomHolds_literal (by decide) (.var hn)).2 hholds)
    · have heq : value ρ (.sym n) = value ρ b' := holds_literal.1 hholds
      rw [List.forall_mem_cons, List.forall_mem_singleton]
      exact ⟨(atomHolds_literal (by decide) (.var hn)).2 (holds_literal.2 heq.le),
        (atomHolds_literal (by decide) (.var hn)).2 (holds_literal.2 heq.ge)⟩

section

variable (cancelHead : SExp → List SExp) (jmrDist : SExp) (tcEhdmTest : Bool)

theorem equalsolve_normineq_holds (hquo : FractionsDeclared st.typealist) (hρ : StateValuation st ρ)
    (ha : FlatTerm a) (hb : FlatTerm b) (h : Holds ρ (literal "equal" a b))
    (hcons : (normineq st cancelHead (equal a b)).consp = true) :
    ∀ e ∈ equalsolve st cancelHead (normineq st cancelHead (equal a b)), AtomHolds ρ e := by
  have hop : "equal" ∈ literalOps := by decide
  have hnorm := normineq_normalizes hquo hρ cancelHead hop ha hb
  have hequal := funsym_normineq_equal st a b cancelHead hcons
  simp only [equal] at hequal hcons ⊢
  generalize normineq st cancelHead (literal "equal" a b) = norm at hnorm hequal hcons
  cases hnorm with
  | true hr _ => rcases hr with rfl | rfl <;> cases hcons
  | false hfalse => exact absurd h hfalse
  | @solved op' n b' hop' hn hb' hiff =>
    obtain rfl : op' = "equal" := by simpa using hequal
    exact equalsolve_holds hquo hρ cancelHead (.var hn) hb' (hiff.2 h)

theorem ensures_chainLoop (hop : op ∈ arithrels) (ha : FlatTerm a) (hb : FlatTerm b)
    (h : Holds ρ (literal op a b)) {us : List SExp}
    (hus : ∀ u ∈ us, LinearIneq a u ∧ oppsensep (.sym op) u.funsym = true ∧ Holds ρ u)
    {pot : List SExp} (hpot : ∀ e ∈ pot, AtomHolds ρ e) : Ensures (ChainContext ρ a)
      (chainLoop cancelHead jmrDist tcEhdmTest (literal op a b) us pot)
      fun pot _ => ∀ e ∈ pot, AtomHolds ρ e := by
  induction us generalizing pot with
  | nil => exact ensures_pure fun _ _ => hpot
  | cons u us ih =>
    have ih := fun {pot} => @ih (fun u hu => hus u (List.mem_cons_of_mem _ hu)) pot
    obtain ⟨⟨op', b', hop', hb', rfl⟩, hopp, hu⟩ := hus u List.mem_cons_self
    have hopp : oppsensep (.sym op) (.sym op') = true := hopp
    rw [chainLoop]
    refine (arithcanUse_flat cancelHead hb').bind fun bound => .of_pure ?_
    rintro rfl
    refine ensures_get_bind fun st hst => Ensures.of_eq ?_ hst
    obtain ⟨hcan, hv⟩ := flat_arithcan hb'
    have hu : Holds ρ (literal op' a (arithcan b')) := by
      rw [holds_literal, hv]
      exact holds_literal.1 hu
    obtain ⟨opr, hopr, hresidue, hholds⟩ := residue_holds hop hop' hopp h hu
    have hchain : ofList [(literal op' a b').funsym, (literal op' a b').arg1, arithcan b'] =
        literal op' a (arithcan b') := rfl
    simp only [hchain, hresidue]
    have hnorm := normineq_normalizes hst.quo hst.valuation cancelHead hopr hcan hb
    have hverdict := fun r hr => normineq_verdict (r := r) hst.quo cancelHead hopr hcan hb hr
    generalize normineq st cancelHead (literal opr (arithcan b') b) = norm at hnorm hverdict
    split
    · rename_i htt
      obtain ⟨c, hc⟩ := (hverdict norm (.inl htt) rfl).1
      refine ih (addDisjunctOfEquals_holds hst.quo hst.valuation.integer jmrDist ha hb hcan hopp h hu
        (c := -c) (fun ρ => ?_) hpot)
      rw [← hc ρ, neg_sub]
    · rename_i htt
      split
      · rename_i hff
        rw [hff] at hnorm
        have hd := hnorm.derived hholds
        rw [if_neg (by decide)] at hd
        exact absurd rfl hd.ne_ff
      · rename_i hff
        split
        · rename_i hident
          have heq := ((hverdict norm (.inr hident) rfl).2 hident).2 ρ
          have hequal : Holds ρ (literal "equal" a b) :=
            holds_literal.2 (eq_of_opposite hopp h hu heq)
          have hadd : ∀ (newEqn : SExp) (bad : Bool),
              (newEqn.consp = true → ∀ e ∈ equalsolve st cancelHead newEqn, AtomHolds ρ e) →
              Ensures (ChainContext ρ a) (if (!newEqn.consp || bad) = true then
                chainLoop cancelHead jmrDist tcEhdmTest (literal op a b) us pot
                else pure ((equalsolve st cancelHead newEqn).reverse ++ pot))
                fun pot _ => ∀ e ∈ pot, AtomHolds ρ e := by
            intro newEqn bad hnew
            split
            · exact ih hpot
            · rename_i hskip
              rw [Bool.or_eq_true, not_or, Bool.not_eq_true', Bool.not_eq_false] at hskip
              refine ensures_pure fun _ _ e he => ?_
              rcases List.mem_append.1 he with he | he
              · exact hnew hskip.1 e (List.mem_reverse.1 he)
              · exact hpot e he
          split
          · exact hadd _ _ fun _ => equalsolve_holds hst.quo hst.valuation cancelHead ha hb hequal
          · exact hadd _ _ (equalsolve_normineq_holds cancelHead hst.quo hst.valuation ha hb hequal)
        · rename_i hident
          have hd := hnorm.derived hholds
          rw [if_neg hident] at hd
          exact ih (List.forall_mem_cons.2 ⟨hd.atomHolds, hpot⟩)

theorem ensures_chainineqs (ha : FlatTerm a) : Ensures (ChainContext ρ a)
    (chainineqs (literal op a b)) fun us s =>
      (∀ u ∈ us, LinearIneq a u ∧ oppsensep (.sym op) u.funsym = true ∧ Holds ρ u) ∧
        ChainContext ρ a s := by
  intro st r st' hst hr
  have hcandidates : Ensures (· = st) (chainineqs (literal op a b)) fun us s =>
      (∀ u ∈ us, LinearIneq a u ∧ oppsensep (.sym op) u.funsym = true ∧ Holds ρ u) ∧
        ChainContext ρ a s := by
    refine (ensures_chainCandidates _ _ ha).bind fun l => .of_pure fun hl => ensures_pure ?_
    rintro s rfl
    refine ⟨fun u hu => ?_, hst⟩
    obtain ⟨hopp, huse, hineq, harg, hfind⟩ := hl u (List.mem_of_mem_filter hu)
    exact ⟨hst.linear u huse hineq harg hfind, hopp, hst.holds u huse hineq harg hfind⟩
  exact hcandidates st r st' rfl hr

theorem Derived.normineqatom (hst : ChainContext ρ a st) {r : SExp} (h : Derived ρ r) :
    Derived ρ (normineqatom cancelHead st r) := by
  cases h with
  | true => exact .true
  | @solved op n b hop hn hb h =>
    exact (normineq_normalizes hst.quo hst.valuation cancelHead hop (.var hn) hb).derived h

theorem ensures_transclosure (stack : List SExp) (hop : op ∈ arithrels) (ha : FlatTerm a)
    (hb : FlatTerm b) (h : Holds ρ (literal op a b)) : Ensures (ChainContext ρ a)
      (transclosure cancelHead jmrDist tcEhdmTest stack (literal op a b))
      fun pot _ => ∀ e ∈ pot, AtomHolds ρ e := by
  unfold transclosure
  split
  · exact ensures_pure fun _ _ _ he => nomatch he
  refine (arithcanUse_literal cancelHead hop ha hb h).bind fun can => .of_pure fun hcan => ?_
  refine ensures_get_bind fun st hst => Ensures.of_eq ?_ hst
  have hnrm := hcan.normineqatom cancelHead hst
  dsimp only
  generalize normineqatom cancelHead st can = nrmineq at hnrm
  rw [if_neg hnrm.ne_ff]
  have hequal : (!nrmineq.consp || nrmineq == literal op a b) = true →
      AtomHolds ρ (equal nrmineq tt) := by
    intro hsame
    cases hnrm with
    | true => exact .inr ⟨"equal", rfl, rfl⟩
    | @solved op' n b' hop' hn hb' hholds =>
      have he : literal op' (.sym n) b' = literal op a b := by simpa [consp] using hsame
      obtain ⟨rfl, rfl, rfl⟩ := literal_inj he
      have hineq : isineq (literal op' (.sym n) b') = true := by
        simpa [isineq, memq, consp] using hop
      have harg : (equal (literal op' (.sym n) b') tt).arg1 = literal op' (.sym n) b' := rfl
      have hor : isForm "or" (equal (literal op' (.sym n) b') tt) = false := rfl
      have hform : isForm "equal" (equal (literal op' (.sym n) b') tt) = true := rfl
      have harg2 : ((equal (literal op' (.sym n) b') tt).arg2 == tt) = true := rfl
      rw [AtomHolds, hor, hform, harg2, harg, hineq]
      exact hholds
  have hpot : ∀ e ∈ (if (!nrmineq.consp || nrmineq == literal op a b) = true then []
      else [nrmineq]), AtomHolds ρ e := by
    split
    · exact fun _ he => nomatch he
    · exact List.forall_mem_singleton.2 hnrm.atomHolds
  refine (ensures_chainineqs ha).bind fun us => .of_pure fun hus => ?_
  refine (ensures_chainLoop cancelHead jmrDist tcEhdmTest hop ha hb h hus hpot).bind fun pot => ?_
  refine ensures_pure fun _ hpot => ?_
  split
  · rename_i hsame
    exact List.forall_mem_cons.2 ⟨hequal hsame, hpot⟩
  · exact hpot

end

/-- `0 < x` is known of an integer. -/
def positiveState : ProverState := { emptyState with
  typealist := [(.sym "QUO", .sym "number"), (.sym "x", .sym "integer")]
  findalist := [(literal "greaterp" (.sym "x") (.int 0), tt)]
  usealist := [(.sym "x", [literal "greaterp" (.sym "x") (.int 0)])] }

theorem uses_positiveState {u : SExp} (hu : u ∈ use positiveState (.sym "x")) :
    u = literal "greaterp" (.sym "x") (.int 0) := List.mem_singleton.1 hu

/-- `x ≠ y` is known. -/
def distinctState : ProverState := { emptyState with
  typealist := [(.sym "QUO", .sym "number"), (.sym "x", .sym "number"), (.sym "y", .sym "number")]
  usealist := [(.sym "x", [ofList [.cons (.sym "x") (.sym "y"), .sym "x"]])] }

end PVS.GroundProver
