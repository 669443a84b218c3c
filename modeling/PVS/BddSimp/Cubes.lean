import PVS.BddSimp.Translate
import Mathlib.Data.Finset.Card
import Mathlib.Data.Finset.Range

/-! What the axioms on recognizers add, and what a cube comes to. -/

namespace PVS.BddSimp

open PVS.Library

variable {T : Terms}

/-! ### Constructors -/

/-- The variables `names` are the recognizers of different constructors of one value. -/
structure Separates (ρ : ℕ → Bool) (size con : ℕ) (names : List ℕ) (conOf : ℕ → ℕ) : Prop where
  nodup : names.Nodup
  lt : ∀ n ∈ names, conOf n < size
  injective : ∀ n ∈ names, ∀ m ∈ names, conOf n = conOf m → n = m
  eval : ∀ n ∈ names, ρ n = decide (con = conOf n)

namespace Separates

variable {ρ : ℕ → Bool} {size con : ℕ} {names : List ℕ} {conOf : ℕ → ℕ}

/-- As many variables as there are constructors are all of them. -/
theorem covers (h : Separates ρ size con names conOf) (hcon : con < size) {ns : List ℕ}
    (hsub : ∀ n ∈ ns, n ∈ names) (hnodup : ns.Nodup) (hlength : ns.length = size) :
    ∃ n ∈ ns, con = conOf n := by
  have hmap : (ns.map conOf).Nodup :=
    List.Nodup.map_on (fun n hn m hm heq => h.injective n (hsub n hn) m (hsub m hm) heq) hnodup
  have hsubset : (ns.map conOf).toFinset ⊆ Finset.range size := by
    intro c hc
    obtain ⟨n, hn, rfl⟩ := List.mem_map.1 (List.mem_toFinset.1 hc)
    exact Finset.mem_range.2 (h.lt n (hsub n hn))
  have hcard : (ns.map conOf).toFinset.card = (Finset.range size).card := by
    rw [List.toFinset_card_of_nodup hmap, List.length_map, hlength, Finset.card_range]
  have hall := Finset.eq_of_subset_of_card_le hsubset hcard.ge
  have hmem : con ∈ (ns.map conOf).toFinset := hall ▸ Finset.mem_range.2 hcon
  obtain ⟨n, hn, heq⟩ := List.mem_map.1 (List.mem_toFinset.1 hmem)
  exact ⟨n, hn, heq.symm⟩

theorem exclusive (h : Separates ρ size con names conOf) {n m : ℕ} (hn : n ∈ names)
    (hm : m ∈ names) (hne : n ≠ m) (htrue : ρ n = true) : ρ m = false := by
  rw [h.eval n hn, decide_eq_true_eq] at htrue
  rw [h.eval m hm, decide_eq_false_iff_not]
  intro heq
  exact hne (h.injective n hn m hm (htrue.symm.trans heq))

theorem tail (h : Separates ρ size con names conOf) {ns : List ℕ} (hsub : ns.Sublist names) :
    Separates ρ size con ns conOf where
  nodup := h.nodup.sublist hsub
  lt n hn := h.lt n (hsub.subset hn)
  injective n hn m hm := h.injective n (hsub.subset hn) m (hsub.subset hm)
  eval n hn := h.eval n (hsub.subset hn)

end Separates

/-- A form of the alist, in a model. -/
theorem BddState.Valid.separates {Q : TcEq T} {A : Set (Expr T)} (hA : NoTwins Q A)
    {s : BddState T} (hs : s.Valid Q A) {form : T.Arg × List ℕ} (hform : form ∈ s.recognizerForms) :
    ∃ conOf, ∀ (M : Model Q) ρ, Agrees M.toInterpretation s ρ →
      Separates ρ (T.size form.1) (M.con form.1) form.2 conOf := by
  obtain ⟨hnodup, hall⟩ := hs.form form hform
  choose! conOf hcon using hall
  refine ⟨conOf, fun M ρ hρ => ⟨hnodup, fun n hn => ?_, fun n hn m hm heq => ?_, fun n hn => ?_⟩⟩
  · obtain ⟨e, -, a, hrec, harg, -⟩ := hcon n hn
    rw [← Q.size_eq a form.1 harg]
    exact Expr.recognized_lt hrec
  · obtain ⟨e₁, he₁, a₁, hrec₁, harg₁, hvar₁⟩ := hcon n hn
    obtain ⟨e₂, he₂, a₂, hrec₂, harg₂, hvar₂⟩ := hcon m hm
    rw [← heq] at hrec₂
    have harg : Q.arg a₁ a₂ = true := Q.arg_trans _ _ _ harg₁ (Q.arg_symm _ _ harg₂)
    have hkey := hA e₁ he₁ e₂ he₂ a₁ a₂ _ hrec₁ hrec₂ harg
    have hsame : s.varid Q e₁.normalized = s.varid Q e₂.normalized := by
      rw [BddState.varid, BddState.varid]
      congr 2
      funext entry
      exact sameKey_congr hkey entry.1
    rw [hvar₁, hvar₂] at hsame
    exact Option.some.inj hsame
  · obtain ⟨e, -, a, hrec, harg, hvar⟩ := hcon n hn
    obtain ⟨k, hk, hkey⟩ := hs.lookup hvar
    rw [hρ n k hk, M.expr_eq _ _ (sameKey_iff.1 hkey).2, M.eval_normalized,
      M.eval_recognized hrec, M.arg_eq a form.1 harg]

theorem BddState.Valid.form_lookup {Q : TcEq T} {A : Set (Expr T)} {s : BddState T}
    (hs : s.Valid Q A) {form : T.Arg × List ℕ} (hform : form ∈ s.recognizerForms) {n : ℕ}
    (hn : n ∈ form.2) : ∃ e, s.bddPvs.lookup n = some e := by
  obtain ⟨c, e, -, a, -, -, hvar⟩ := (hs.form form hform).2 n hn
  obtain ⟨k, hk, -⟩ := hs.lookup hvar
  exact ⟨k, hk⟩

/-! ### Axioms -/

section Axioms

variable {P : BddPackage} {ρ : ℕ → Bool}

theorem eval_foldl_or (bdds : List Bdd) (bdd : Bdd) :
    (bdds.foldl P.or bdd).eval ρ = (bdd.eval ρ || bdds.any fun b => b.eval ρ) := by
  induction bdds generalizing bdd with
  | nil => simp
  | cons b bdds ih => rw [List.foldl_cons, ih, P.eval_or, List.any_cons, Bool.or_assoc]

theorem eval_bddOrStar (bdds : List Bdd) :
    (bddOrStar P bdds).eval ρ = bdds.any fun b => b.eval ρ := by
  cases bdds with
  | nil => rfl
  | cons bdd bdds => rw [bddOrStar, eval_foldl_or, List.any_cons]

theorem vars_foldl_or {S : Set ℕ} (bdds : List Bdd) (bdd : Bdd) (hbdd : ∀ n ∈ bdd.vars, n ∈ S)
    (hbdds : ∀ b ∈ bdds, ∀ n ∈ b.vars, n ∈ S) : ∀ n ∈ (bdds.foldl P.or bdd).vars, n ∈ S := by
  induction bdds generalizing bdd with
  | nil => exact hbdd
  | cons b bdds ih =>
    refine ih _ (fun n hn => ?_) fun b' hb' => hbdds b' (List.mem_cons_of_mem _ hb')
    rcases List.mem_append.1 (P.vars_or _ _ hn) with hn | hn
    · exact hbdd n hn
    · exact hbdds b List.mem_cons_self n hn

theorem vars_bddOrStar {S : Set ℕ} (bdds : List Bdd) (hbdds : ∀ b ∈ bdds, ∀ n ∈ b.vars, n ∈ S) :
    ∀ n ∈ (bddOrStar P bdds).vars, n ∈ S := by
  cases bdds with
  | nil =>
    intro n hn
    cases hn
  | cons bdd bdds =>
    exact vars_foldl_or bdds bdd (hbdds bdd List.mem_cons_self) fun b hb =>
      hbdds b (List.mem_cons_of_mem _ hb)

/-- An axiom, if there is one, is true. -/
def Axiom (ρ : ℕ → Bool) (bdd? : Option Bdd) : Prop := ∀ bdd ∈ bdd?, bdd.eval ρ = true

/-- An axiom, if there is one, is about known variables. -/
def Known (S : Set ℕ) (bdd? : Option Bdd) : Prop := ∀ bdd ∈ bdd?, ∀ n ∈ bdd.vars, n ∈ S

theorem Axiom.andMaybe {bdd? : Option Bdd} {bdd : Bdd} (h : Axiom ρ bdd?)
    (hbdd : bdd.eval ρ = true) : Axiom ρ (andMaybe P bdd? bdd) := by
  rintro _ ⟨⟩
  cases bdd? with
  | none => exact hbdd
  | some bdd' => rw [P.eval_and, h bdd' rfl, hbdd, Bool.and_self]

variable {S : Set ℕ}

theorem vars_and {bdd bdd' : Bdd} (h : ∀ n ∈ bdd.vars, n ∈ S) (h' : ∀ n ∈ bdd'.vars, n ∈ S) :
    ∀ n ∈ (P.and bdd bdd').vars, n ∈ S := by
  intro n hn
  rcases List.mem_append.1 (P.vars_and _ _ hn) with hn | hn
  · exact h n hn
  · exact h' n hn

theorem Known.andMaybe {bdd? : Option Bdd} {bdd : Bdd} (h : Known S bdd?)
    (hbdd : ∀ n ∈ bdd.vars, n ∈ S) : Known S (andMaybe P bdd? bdd) := by
  rintro _ ⟨⟩
  cases bdd? with
  | none => exact hbdd
  | some bdd' => exact vars_and (h bdd' rfl) hbdd

theorem vars_map_var {names : List ℕ} (hnames : ∀ n ∈ names, n ∈ S) :
    ∀ b ∈ names.map P.var, ∀ n ∈ b.vars, n ∈ S := by
  intro b hb n hn
  obtain ⟨m, hm, rfl⟩ := List.mem_map.1 hb
  rw [List.mem_singleton.1 (P.vars_var m hn)]
  exact hnames m hm

theorem makeEnumExclusiveBdd_axiom {size con : ℕ} {names : List ℕ} {conOf : ℕ → ℕ}
    (h : Separates ρ size con names conOf) {bdd? : Option Bdd} (hbdd : Axiom ρ bdd?) :
    Axiom ρ (makeEnumExclusiveBdd P (names.map P.var) bdd?) := by
  induction names generalizing bdd? with
  | nil => exact hbdd
  | cons first names ih =>
    cases names with
    | nil => exact hbdd
    | cons second names =>
      refine ih (h.tail (List.sublist_cons_self _ _)) (hbdd.andMaybe ?_)
      rw [P.eval_or, P.eval_not, P.eval_not, P.eval_var, ← List.map_cons, eval_bddOrStar]
      cases hfirst : ρ first with
      | false => rfl
      | true =>
        -- the others are false
        rw [Bool.not_true, Bool.false_or, Bool.not_eq_true', List.any_eq_false]
        intro b hb
        obtain ⟨m, hm, rfl⟩ := List.mem_map.1 hb
        have hne : first ≠ m := by
          rintro rfl
          exact (List.nodup_cons.1 h.nodup).1 hm
        rw [P.eval_var, h.exclusive List.mem_cons_self (List.mem_cons_of_mem _ hm) hne hfirst]
        simp

theorem makeEnumExclusiveBdd_known {names : List ℕ} (hnames : ∀ n ∈ names, n ∈ S)
    {bdd? : Option Bdd} (hbdd : Known S bdd?) :
    Known S (makeEnumExclusiveBdd P (names.map P.var) bdd?) := by
  induction names generalizing bdd? with
  | nil => exact hbdd
  | cons first names ih =>
    cases names with
    | nil => exact hbdd
    | cons second names =>
      have hnames' : ∀ n ∈ second :: names, n ∈ S := fun n hn =>
        hnames n (List.mem_cons_of_mem _ hn)
      refine ih hnames' (hbdd.andMaybe fun n hn => ?_)
      rcases List.mem_append.1 (P.vars_or _ _ hn) with hn | hn
      · exact vars_map_var hnames _ List.mem_cons_self n (P.vars_not _ hn)
      · rw [← List.map_cons] at hn
        exact vars_bddOrStar _ (vars_map_var hnames') n (P.vars_not _ hn)

theorem makeEnumInclusiveBdd_axiom {form : T.Arg × List ℕ} {con : ℕ} {conOf : ℕ → ℕ}
    (h : Separates ρ (T.size form.1) con form.2 conOf) (hcon : con < T.size form.1) :
    Axiom ρ (makeEnumInclusiveBdd P form) := by
  rw [makeEnumInclusiveBdd]
  split_ifs with hsize
  · rintro _ ⟨⟩
    obtain ⟨n, hn, heq⟩ := h.covers hcon (fun _ hn => hn) h.nodup hsize.symm
    rw [eval_bddOrStar, List.any_eq_true]
    refine ⟨P.var n, List.mem_map_of_mem hn, ?_⟩
    rw [P.eval_var, h.eval n hn, decide_eq_true heq]
  · rintro _ ⟨⟩

theorem makeEnumInclusiveBdd_known {form : T.Arg × List ℕ} (hnames : ∀ n ∈ form.2, n ∈ S) :
    Known S (makeEnumInclusiveBdd P form) := by
  rw [makeEnumInclusiveBdd]
  split_ifs
  · rintro _ ⟨⟩
    exact vars_bddOrStar _ (vars_map_var hnames)
  · rintro _ ⟨⟩

/-- The axioms change nothing where they are true. -/
theorem addEnumBdds_eval {bdd : Bdd} (forms : List (T.Arg × List ℕ)) (enumBdds : Option Bdd)
    (hforms : ∀ form ∈ forms, ∃ con conOf, con < T.size form.1 ∧
      Separates ρ (T.size form.1) con form.2 conOf) (henum : Axiom ρ enumBdds) :
    (addEnumBdds P bdd forms enumBdds).eval ρ = bdd.eval ρ := by
  induction forms generalizing enumBdds with
  | nil =>
    cases enumBdds with
    | none => rfl
    | some c => exact P.eval_constrain bdd c ρ (henum c rfl)
  | cons form forms ih =>
    obtain ⟨con, conOf, hcon, hsep⟩ := hforms form List.mem_cons_self
    have hexcl : Axiom ρ (makeEnumExclusiveBdd P (form.2.map P.var) none) :=
      makeEnumExclusiveBdd_axiom hsep (by rintro _ ⟨⟩)
    have hincl : Axiom ρ (makeEnumInclusiveBdd P form) := makeEnumInclusiveBdd_axiom hsep hcon
    rw [addEnumBdds]
    refine ih _ (fun form' hform' => hforms form' (List.mem_cons_of_mem _ hform')) ?_
    cases hE : makeEnumExclusiveBdd P (form.2.map P.var) none with
    | none =>
      cases hI : makeEnumInclusiveBdd P form with
      | none => exact henum
      | some incl => exact henum.andMaybe (hincl incl hI)
    | some excl =>
      cases hI : makeEnumInclusiveBdd P form with
      | none => exact henum.andMaybe (hexcl excl hE)
      | some incl =>
        exact henum.andMaybe (by rw [P.eval_and, hexcl excl hE, hincl incl hI, Bool.and_self])

theorem addEnumBdds_known {bdd : Bdd} (forms : List (T.Arg × List ℕ)) (enumBdds : Option Bdd)
    (hforms : ∀ form ∈ forms, ∀ n ∈ form.2, n ∈ S) (henum : Known S enumBdds)
    (hbdd : ∀ n ∈ bdd.vars, n ∈ S) : ∀ n ∈ (addEnumBdds P bdd forms enumBdds).vars, n ∈ S := by
  induction forms generalizing enumBdds with
  | nil =>
    cases enumBdds with
    | none => exact hbdd
    | some c =>
      intro n hn
      rcases List.mem_append.1 (P.vars_constrain _ _ hn) with hn | hn
      · exact hbdd n hn
      · exact henum c rfl n hn
  | cons form forms ih =>
    have hnames := hforms form List.mem_cons_self
    have hexcl : Known S (makeEnumExclusiveBdd P (form.2.map P.var) none) :=
      makeEnumExclusiveBdd_known hnames (by rintro _ ⟨⟩)
    have hincl : Known S (makeEnumInclusiveBdd P form) := makeEnumInclusiveBdd_known hnames
    rw [addEnumBdds]
    refine ih _ (fun form' hform' => hforms form' (List.mem_cons_of_mem _ hform')) ?_
    cases hE : makeEnumExclusiveBdd P (form.2.map P.var) none with
    | none =>
      cases hI : makeEnumInclusiveBdd P form with
      | none => exact henum
      | some incl => exact henum.andMaybe (hincl incl hI)
    | some excl =>
      cases hI : makeEnumInclusiveBdd P form with
      | none => exact henum.andMaybe (hexcl excl hE)
      | some incl => exact henum.andMaybe (vars_and (hexcl excl hE) (hincl incl hI))

end Axioms

/-! ### The diagram of the selected formulas -/

section Sforms

variable {Q : TcEq T} {A : Set (Expr T)} {P : BddPackage}

/-- The formulas are false in the model. -/
def AllFalse (M : Interpretation T) (sforms : List (SForm T)) : Prop :=
  ∀ sform ∈ sforms, M.eval sform.formula = false

theorem makeSformsBdd_spec (hA : NoTwins Q A) (sforms : List (SForm T)) (bdd? : Option Bdd)
    (s : BddState T) (hs : s.Valid Q A)
    (hatoms : ∀ sform ∈ sforms, ∀ e ∈ sform.formula.atoms, e ∈ A)
    (hvars : Known { n | ∃ e, s.bddPvs.lookup n = some e } bdd?)
    (hne : sforms ≠ [] ∨ bdd?.isSome) :
    ∃ bdd s', makeSformsBdd Q P sforms bdd? s = some (bdd, s') ∧ s'.Valid Q A ∧
      s.Extends Q s' ∧ (∀ n ∈ bdd.vars, ∃ e, s'.bddPvs.lookup n = some e) ∧
        ∀ (M : Model Q) ρ, Agrees M.toInterpretation s' ρ →
          (bdd.eval ρ = true ↔ Axiom ρ bdd? ∧ AllFalse M.toInterpretation sforms) := by
  induction sforms generalizing bdd? s with
  | nil =>
    cases bdd? with
    | none => simp at hne
    | some bdd =>
      refine ⟨_, s, rfl, hs, .refl s, ?_, fun M ρ hρ => ?_⟩
      · exact addEnumBdds_known _ none (fun form hform n hn => hs.form_lookup hform hn)
          (by rintro _ ⟨⟩) (hvars bdd rfl)
      · rw [addEnumBdds_eval _ none _ (by rintro _ ⟨⟩)]
        · constructor
          · exact fun h => ⟨by rintro _ ⟨⟩; exact h, by rintro sform ⟨⟩⟩
          · exact fun h => h.1 bdd rfl
        · intro form hform
          obtain ⟨conOf, hsep⟩ := hs.separates hA hform
          exact ⟨_, conOf, (M.con form.1).2, hsep M ρ hρ⟩
  | cons sform sforms ih =>
    have htrans := translateToBdd_translates (P := P) sform.formula s hs
      (hatoms sform List.mem_cons_self)
    have hknown : Known { n | ∃ e, (translateToBdd Q P sform.formula s).2.bddPvs.lookup n = some e }
        (andMaybe P bdd? (P.not (translateToBdd Q P sform.formula s).1)) := by
      refine Known.andMaybe (fun bdd hbdd n hn => ?_) fun n hn =>
        htrans.denotes.vars n (P.vars_not _ hn)
      obtain ⟨e, he⟩ := hvars bdd hbdd n hn
      exact ⟨e, htrans.extends_.lookup n e he⟩
    obtain ⟨bdd, s', hmake, hs', hext, hvars', heval⟩ := ih _ _ htrans.valid
      (fun sform' hsform' => hatoms sform' (List.mem_cons_of_mem _ hsform')) hknown (.inr rfl)
    refine ⟨bdd, s', hmake, hs', htrans.extends_.trans hext, hvars', fun M ρ hρ => ?_⟩
    have hsform : (translateToBdd Q P sform.formula s).1.eval ρ = M.eval sform.formula :=
      htrans.denotes.eval M ρ (hρ.mono hext)
    have hand : Axiom ρ (andMaybe P bdd? (P.not (translateToBdd Q P sform.formula s).1)) ↔
        Axiom ρ bdd? ∧ M.eval sform.formula = false := by
      cases bdd? with
      | none => simp [Axiom, andMaybe, hsform]
      | some bdd' => simp [Axiom, andMaybe, hsform]
    rw [heval M ρ hρ, hand, and_assoc, AllFalse, AllFalse, List.forall_mem_cons]

end Sforms

end PVS.BddSimp
