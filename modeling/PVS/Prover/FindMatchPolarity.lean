import Mathlib
import PVS.Prover.FindMatchPositions

/-! The polarities at which the searches for a matching subterm look at a position -/

namespace PVS.Prover.Matches

variable {β ι σ : Type}

def place : Expr β ι → ι
  | .atom place | .unary place .. | .binary place .. | .application place .. | .component place _
  | .cases place .. | .binding place .. | .record place _ | .tuple place _ | .update place ..
  | .other place => place

/-- The positions of an arithmetic expression with their polarities -/
def polaritiesArith : Expr β ι → Option Polarity → List (ι × Option Polarity)
  | .unary place .minus _ argument, polarity =>
    (place, polarity) :: polaritiesArith argument (polarity.map .toggle)
  | .binary place .less _ args1 args2, polarity =>
    (place, polarity) :: (polaritiesArith args1 (arithPolarity polarity .less) ++
      polaritiesArith args2 (arithPolarity polarity .more))
  | .binary place .greater _ args1 args2, polarity =>
    (place, polarity) :: (polaritiesArith args1 (arithPolarity polarity .more) ++
      polaritiesArith args2 (arithPolarity polarity .less))
  | .binary place .plus _ args1 args2, polarity =>
    (place, polarity) :: (polaritiesArith args1 polarity ++ polaritiesArith args2 polarity)
  | .binary place .subMinus _ args1 args2, polarity =>
    (place, polarity) ::
      (polaritiesArith args1 polarity ++ polaritiesArith args2 (polarity.map .toggle))
  | e, polarity => [(place e, polarity)]

/-- The positions of a formula, whose polarity changes under negations and in the antecedents of
implications -/
def polarities : Expr β ι → Polarity → List (ι × Option Polarity)
  | .unary place .negation _ argument, polarity =>
    (place, some polarity) :: polarities argument polarity.toggle
  | .binary place .implication _ args1 args2, polarity =>
    (place, some polarity) :: (polarities args1 polarity.toggle ++ polarities args2 polarity)
  | .binary place .conjunction _ args1 args2, polarity =>
    (place, some polarity) :: (polarities args1 polarity ++ polarities args2 polarity)
  | .binary place .disjunction _ args1 args2, polarity =>
    (place, some polarity) :: (polarities args1 polarity ++ polarities args2 polarity)
  | .binding place _ expression, polarity =>
    (place, some polarity) :: polarities expression polarity
  | e, polarity => polaritiesArith e (some polarity)

/-- The matches found before an arithmetic expression are kept: every application in it is one of
the relations and operators with a polarity. -/
def keepsArith : Expr β ι → Bool
  | .unary _ .minus _ argument => keepsArith argument
  | .binary _ .less _ args1 args2 => keepsArith args1 && keepsArith args2
  | .binary _ .greater _ args1 args2 => keepsArith args1 && keepsArith args2
  | .binary _ .plus _ args1 args2 => keepsArith args1 && keepsArith args2
  | .binary _ .subMinus _ args1 args2 => keepsArith args1 && keepsArith args2
  | .unary .. | .binary .. | .application .. => false
  | _ => true

def keeps : Expr β ι → Bool
  | .unary _ .negation _ argument => keeps argument
  | .binary _ .implication _ args1 args2 => keeps args1 && keeps args2
  | .binary _ .conjunction _ args1 args2 => keeps args1 && keeps args2
  | .binary _ .disjunction _ args1 args2 => keeps args1 && keeps args2
  | .binding _ _ expression => keeps expression
  | e => keepsArith e

/-- No `>` or `>=` is reached, no relation in another one, and what comes first keeps the matches
found before. -/
def UniformArith : Expr β ι → Option Polarity → Prop
  | .unary _ .minus _ argument, polarity => UniformArith argument (polarity.map .toggle)
  | .binary _ .less _ args1 args2, polarity =>
    UniformArith args1 (arithPolarity polarity .less) ∧
      UniformArith args2 (arithPolarity polarity .more) ∧ keepsArith args1
  | .binary _ .greater .., _ => False
  | .binary _ .plus _ args1 args2, polarity =>
    UniformArith args1 polarity ∧ UniformArith args2 polarity ∧ keepsArith args1
  | .binary _ .subMinus _ args1 args2, polarity =>
    UniformArith args1 polarity ∧ UniformArith args2 (polarity.map .toggle) ∧ keepsArith args1
  | _, polarity => polarity ≠ none

/-- A formula of negations, conjunctions, disjunctions and binders over applications -/
def Uniform : Expr β ι → Polarity → Prop
  | .unary _ .negation _ argument, polarity => Uniform argument polarity.toggle
  | .binary _ .implication .., _ => False
  | .binary _ .conjunction _ args1 args2, polarity | .binary _ .disjunction _ args1 args2, polarity =>
    Uniform args1 polarity ∧ Uniform args2 polarity ∧ keeps args1
  | .binding _ _ expression, polarity => Uniform expression polarity
  | .unary place kind operator argument, polarity =>
    UniformArith (.unary place kind operator argument) (some polarity)
  | .binary place kind operator args1 args2, polarity =>
    UniformArith (.binary place kind operator args1 args2) (some polarity)
  | .application .., _ => True
  | _, _ => False

/-! ### Results -/

section Results

variable {callMatch : List β → Expr β ι → Option σ} {template : Option Polarity}

@[simp] theorem findOutMatchPolarity_eq_none {out : Bool} {bound : List β} {e : Expr β ι}
    {insub : Option σ} {polarity : Option Polarity} :
    findOutMatchPolarity callMatch template out bound e insub polarity = none ↔
      (template ≠ polarity → callMatch bound e = none) ∧ insub = none := by
  cases insub with
  | none => simp [findOutMatchPolarity]
  | some insub =>
    by_cases hout : out ∧ template ≠ polarity <;> simp [findOutMatchPolarity, hout]

theorem findOutAllMatches_append {bound : List β} {e : Expr β ι} (accum accum' : List σ) :
    findOutAllMatches callMatch bound e (accum ++ accum') =
      findOutAllMatches callMatch bound e accum ++ accum' := by
  cases h : callMatch bound e <;> simp [findOutAllMatches, h]

theorem findOutAllMatchesPolarity_append {bound : List β} {e : Expr β ι} (accum accum' : List σ)
    (polarity : Option Polarity) :
    findOutAllMatchesPolarity callMatch template bound e (accum ++ accum') polarity =
      findOutAllMatchesPolarity callMatch template bound e accum polarity ++ accum' := by
  rw [findOutAllMatchesPolarity, findOutAllMatchesPolarity]
  split
  · exact findOutAllMatches_append accum accum'
  · rfl

theorem findOutAllMatchesPolarity_eq_nil {bound : List β} {e : Expr β ι} {accum : List σ}
    {polarity : Option Polarity} :
    findOutAllMatchesPolarity callMatch template bound e accum polarity = [] ↔
      (polarity ≠ none → template ≠ polarity → callMatch bound e = none) ∧ accum = [] := by
  rw [findOutAllMatchesPolarity]
  split
  · rename_i hlook
    cases h : callMatch bound e <;> simp [findOutAllMatches, h, hlook.1, hlook.2]
  · rename_i hlook
    constructor
    · exact fun h => ⟨fun hpol htemp => absurd ⟨hpol, htemp⟩ hlook, h⟩
    · exact fun h => h.2

/-- A search adds to the matches found before, which it keeps or drops. -/
def Adds (search : List σ → List σ) (keep : Bool) : Prop :=
  ∀ accum, search accum = search [] ++ if keep then accum else []

theorem Adds.comp {search search' : List σ → List σ} {keep keep' : Bool} (h : Adds search keep)
    (h' : Adds search' keep') : Adds (fun accum => search (search' accum)) (keep && keep') := by
  intro accum
  simp only
  rw [h (search' accum), h (search' []), h' accum]
  cases keep <;> cases keep' <;> simp

theorem Adds.findOut {search : List σ → List σ} {keep : Bool} (h : Adds search keep)
    (bound : List β) (e : Expr β ι) (polarity : Option Polarity) :
    Adds (fun accum => findOutAllMatchesPolarity callMatch template bound e (search accum) polarity)
      keep := by
  intro accum
  simp only
  rw [h accum, findOutAllMatchesPolarity_append]

theorem Adds.id : Adds (fun accum : List σ => accum) true := fun _ => rfl

theorem Adds.const (accum : List σ) : Adds (fun _ => accum) false := fun _ => by simp

/-- An expression whose arguments have no arithmetic polarity -/
structure ArithLeaf (e : Expr β ι) : Prop where
  findMatch : ∀ (σ : Type) (callMatch : List β → Expr β ι → Option σ) template out bound polarity,
    findMatchArithPolarity callMatch template out bound e polarity =
      findOutMatchPolarity callMatch template out bound e none polarity
  findAllMatches : ∀ (σ : Type) (callMatch : List β → Expr β ι → Option σ) template bound accum
    polarity, findAllMatchesArithPolarity callMatch template bound e accum polarity =
      findOutAllMatchesPolarity callMatch template bound e (if keepsArith e then accum else [])
        polarity
  polarities : ∀ polarity, polaritiesArith e polarity = [(place e, polarity)]
  uniform : ∀ polarity, UniformArith e polarity ↔ polarity ≠ none

theorem arithLeaf_of (e : Expr β ι)
    (hminus : ∀ place operator argument, e ≠ .unary place .minus operator argument)
    (hless : ∀ place operator args1 args2, e ≠ .binary place .less operator args1 args2)
    (hgreater : ∀ place operator args1 args2, e ≠ .binary place .greater operator args1 args2)
    (hplus : ∀ place operator args1 args2, e ≠ .binary place .plus operator args1 args2)
    (hsub : ∀ place operator args1 args2, e ≠ .binary place .subMinus operator args1 args2) :
    ArithLeaf e := by
  cases e with
  | unary place kind operator argument =>
    cases kind with
    | minus => exact (hminus _ _ _ rfl).elim
    | _ =>
      exact ⟨by simp [findMatchArithPolarity], by simp [findAllMatchesArithPolarity, keepsArith],
        by simp [polaritiesArith], by simp [UniformArith]⟩
  | binary place kind operator args1 args2 =>
    cases kind with
    | less => exact (hless _ _ _ _ rfl).elim
    | greater => exact (hgreater _ _ _ _ rfl).elim
    | plus => exact (hplus _ _ _ _ rfl).elim
    | subMinus => exact (hsub _ _ _ _ rfl).elim
    | _ =>
      exact ⟨by simp [findMatchArithPolarity], by simp [findAllMatchesArithPolarity, keepsArith],
        by simp [polaritiesArith], by simp [UniformArith]⟩
  | _ =>
    exact ⟨by simp [findMatchArithPolarity], by simp [findAllMatchesArithPolarity, keepsArith],
      by simp [polaritiesArith], by simp [UniformArith]⟩

/-- Induction over the arguments with an arithmetic polarity -/
theorem arith_induction {motive : Expr β ι → Prop}
    (minus : ∀ place operator argument, motive argument →
      motive (.unary place .minus operator argument))
    (less : ∀ place operator args1 args2, motive args1 → motive args2 →
      motive (.binary place .less operator args1 args2))
    (greater : ∀ place operator args1 args2, motive args1 → motive args2 →
      motive (.binary place .greater operator args1 args2))
    (plus : ∀ place operator args1 args2, motive args1 → motive args2 →
      motive (.binary place .plus operator args1 args2))
    (subMinus : ∀ place operator args1 args2, motive args1 → motive args2 →
      motive (.binary place .subMinus operator args1 args2))
    (leaf : ∀ e, ArithLeaf e → motive e) (e : Expr β ι) : motive e := by
  induction e, (none : Option Polarity) using polaritiesArith.induct with
  | case1 place operator argument _ ih => exact minus _ _ _ ih
  | case2 place operator args1 args2 _ ih1 ih2 => exact less _ _ _ _ ih1 ih2
  | case3 place operator args1 args2 _ ih1 ih2 => exact greater _ _ _ _ ih1 ih2
  | case4 place operator args1 args2 _ ih1 ih2 => exact plus _ _ _ _ ih1 ih2
  | case5 place operator args1 args2 _ ih1 ih2 => exact subMinus _ _ _ _ ih1 ih2
  | case6 e _ hminus hless hgreater hplus hsub =>
    exact leaf e (arithLeaf_of e hminus hless hgreater hplus hsub)

theorem adds_arith (callMatch : List β → Expr β ι → Option σ) (template : Option Polarity)
    (bound : List β) (e : Expr β ι) (polarity : Option Polarity) :
    Adds (fun accum => findAllMatchesArithPolarity callMatch template bound e accum polarity)
      (keepsArith e) := by
  induction e using arith_induction generalizing polarity with
  | minus p operator argument ih =>
    simp only [findAllMatchesArithPolarity, keepsArith]
    exact (ih _).findOut _ _ _
  | less p operator args1 args2 ih1 ih2 | greater p operator args1 args2 ih1 ih2
  | plus p operator args1 args2 ih1 ih2 | subMinus p operator args1 args2 ih1 ih2 =>
    simp only [findAllMatchesArithPolarity, keepsArith]
    exact ((ih1 _).comp (ih2 _)).findOut _ _ _
  | leaf e hleaf =>
    intro accum
    simp only [hleaf.findAllMatches]
    cases keepsArith e with
    | false => simp
    | true => simpa using findOutAllMatchesPolarity_append [] accum polarity

/-- An application that is no connective is searched as an arithmetic one. -/
structure Applies (e : Expr β ι) : Prop where
  findMatch : ∀ (σ : Type) (callMatch : List β → Expr β ι → Option σ) template out bound polarity,
    findMatchPolarity callMatch template out bound e polarity =
      findOutMatchPolarity callMatch template out bound e
        (findMatchArithPolarity callMatch template out bound e (some polarity)) (some polarity)
  findAllMatches : ∀ (σ : Type) (callMatch : List β → Expr β ι → Option σ) template bound accum
    polarity, findAllMatchesPolarity callMatch template bound e accum polarity =
      findOutAllMatchesPolarity callMatch template bound e
        (findAllMatchesArithPolarity callMatch template bound e accum (some polarity))
        (some polarity)
  keeps : keeps e = keepsArith e
  polarities : ∀ polarity, polarities e polarity = polaritiesArith e (some polarity)
  uniform : ∀ polarity, Uniform e polarity ↔ UniformArith e (some polarity)

/-- For any other expression but a binder the polarity does not count in one of the searches. -/
structure Ignores (e : Expr β ι) : Prop where
  findMatch : ∀ (σ : Type) (callMatch : List β → Expr β ι → Option σ) template out bound polarity,
    findMatchPolarity callMatch template out bound e polarity = findMatch callMatch out bound e
  findAllMatches : ∀ (σ : Type) (callMatch : List β → Expr β ι → Option σ) template bound accum
    polarity, findAllMatchesPolarity callMatch template bound e accum polarity =
      findOutAllMatchesPolarity callMatch template bound e accum (some polarity)
  keeps : keeps e = true
  polarities : ∀ polarity, polarities e polarity = [(place e, some polarity)]
  not_uniform : ∀ polarity, ¬ Uniform e polarity

theorem applies_or_ignores (e : Expr β ι)
    (hneg : ∀ place operator argument, e ≠ .unary place .negation operator argument)
    (himp : ∀ place operator args1 args2, e ≠ .binary place .implication operator args1 args2)
    (hconj : ∀ place operator args1 args2, e ≠ .binary place .conjunction operator args1 args2)
    (hdisj : ∀ place operator args1 args2, e ≠ .binary place .disjunction operator args1 args2)
    (hbind : ∀ place bindings expression, e ≠ .binding place bindings expression) :
    Applies e ∨ Ignores e := by
  cases e with
  | unary place kind operator argument =>
    cases kind with
    | negation => exact (hneg _ _ _ rfl).elim
    | _ =>
      exact .inl ⟨by simp [findMatchPolarity], by simp [findAllMatchesPolarity], by simp [keeps],
        by simp [polarities], by simp [Uniform]⟩
  | binary place kind operator args1 args2 =>
    cases kind with
    | implication => exact (himp _ _ _ _ rfl).elim
    | conjunction => exact (hconj _ _ _ _ rfl).elim
    | disjunction => exact (hdisj _ _ _ _ rfl).elim
    | _ =>
      exact .inl ⟨by simp [findMatchPolarity], by simp [findAllMatchesPolarity], by simp [keeps],
        by simp [polarities], by simp [Uniform]⟩
  | application place operator arguments =>
    exact .inl ⟨by simp [findMatchPolarity], by simp [findAllMatchesPolarity], by simp [keeps],
      by simp [polarities], by simp [Uniform, UniformArith]⟩
  | binding => exact (hbind _ _ _ rfl).elim
  | _ =>
    exact .inr ⟨by simp [findMatchPolarity], by simp [findAllMatchesPolarity],
      by simp [keeps, keepsArith], by simp [polarities, polaritiesArith, place], by simp [Uniform]⟩

theorem polarity_induction {motive : Expr β ι → Prop}
    (negation : ∀ place operator argument, motive argument →
      motive (.unary place .negation operator argument))
    (implication : ∀ place operator args1 args2, motive args1 → motive args2 →
      motive (.binary place .implication operator args1 args2))
    (conjunction : ∀ place operator args1 args2, motive args1 → motive args2 →
      motive (.binary place .conjunction operator args1 args2))
    (disjunction : ∀ place operator args1 args2, motive args1 → motive args2 →
      motive (.binary place .disjunction operator args1 args2))
    (binding : ∀ place bindings expression, motive expression →
      motive (.binding place bindings expression))
    (applies : ∀ e, Applies e → motive e) (ignores : ∀ e, Ignores e → motive e) (e : Expr β ι) :
    motive e := by
  induction e, Polarity.positive using polarities.induct with
  | case1 place operator argument _ ih => exact negation _ _ _ ih
  | case2 place operator args1 args2 _ ih1 ih2 => exact implication _ _ _ _ ih1 ih2
  | case3 place operator args1 args2 _ ih1 ih2 => exact conjunction _ _ _ _ ih1 ih2
  | case4 place operator args1 args2 _ ih1 ih2 => exact disjunction _ _ _ _ ih1 ih2
  | case5 place bindings expression _ ih => exact binding _ _ _ ih
  | case6 e _ hneg himp hconj hdisj hbind =>
    exact (applies_or_ignores e hneg himp hconj hdisj hbind).elim (applies e) (ignores e)

theorem adds_polarity (callMatch : List β → Expr β ι → Option σ) (template : Option Polarity)
    (bound : List β) (e : Expr β ι) (polarity : Polarity) :
    Adds (fun accum => findAllMatchesPolarity callMatch template bound e accum polarity)
      (keeps e) := by
  induction e using polarity_induction generalizing bound polarity with
  | negation p operator argument ih =>
    simp only [findAllMatchesPolarity, keeps]
    exact (ih _ _).findOut _ _ _
  | implication p operator args1 args2 ih1 ih2 =>
    simp only [findAllMatchesPolarity, keeps]
    rw [Bool.and_comm]
    exact ((ih2 _ _).comp (ih1 _ _)).findOut _ _ _
  | conjunction p operator args1 args2 ih1 ih2 | disjunction p operator args1 args2 ih1 ih2 =>
    simp only [findAllMatchesPolarity, keeps]
    exact ((ih1 _ _).comp (ih2 _ _)).findOut _ _ _
  | binding p bindings expression ih =>
    simp only [findAllMatchesPolarity, keeps]
    exact (ih _ _).findOut _ _ _
  | applies e happ =>
    simp only [happ.findAllMatches, happ.keeps]
    exact (adds_arith _ _ _ _ _).findOut _ _ _
  | ignores e hign =>
    simp only [hign.findAllMatches, hign.keeps]
    exact Adds.id.findOut _ _ _

end Results

/-! ### Places -/

def places (e : Expr β ι) : List ι := (positions [] e).map (place ∘ Prod.snd)

theorem mem_places_of_position {bound : List β} {e : Expr β ι} {p : List β × Expr β ι}
    (h : p ∈ positions bound e) : place p.2 ∈ places e := by
  have hmem : p.2 ∈ (positions [] e).map Prod.snd :=
    map_snd_positions bound [] e ▸ List.mem_map_of_mem h
  rw [places, ← List.map_map]
  exact List.mem_map_of_mem hmem

theorem place_mem_places (e : Expr β ι) : place e ∈ places e := by
  cases e <;> simp [places, positions, place]

theorem polaritiesArith_place (e : Expr β ι) (polarity : Option Polarity) :
    (place e, polarity) ∈ polaritiesArith e polarity := by
  fun_cases polaritiesArith e polarity <;> simp [place]

theorem polarities_place (e : Expr β ι) (polarity : Polarity) :
    (place e, some polarity) ∈ polarities e polarity := by
  fun_cases polarities e polarity with
  | case6 => exact polaritiesArith_place e _
  | _ => simp [place]

theorem self_mem_positions (bound : List β) (e : Expr β ι) : (bound, e) ∈ positions bound e := by
  cases e <;> simp [positions]

@[simp] theorem places_unary (p : ι) (kind : Unary) (operator argument : Expr β ι) :
    places (.unary p kind operator argument) = p :: (places operator ++ places argument) := by
  simp [places, positions, place]

@[simp] theorem places_binary (p : ι) (kind : Binary) (operator args1 args2 : Expr β ι) :
    places (.binary p kind operator args1 args2) =
      p :: (places operator ++ (places args1 ++ places args2)) := by
  simp [places, positions, place]

@[simp] theorem places_binding (p : ι) (bindings : List β) (expression : Expr β ι) :
    places (.binding p bindings expression) = p :: places expression := by
  have hbound := map_snd_positions (bindings ++ []) [] expression
  rw [List.append_nil] at hbound
  simp only [places, positions, List.map_cons, ← List.map_map, List.append_nil, hbound]
  rfl

section Misses

variable {callMatch : List β → Expr β ι → Option σ} {template : Option Polarity}

/-- Nothing is found where no position matches. -/
theorem arith_misses (out : Bool) {bound : List β} {e : Expr β ι} (polarity : Option Polarity)
    (h : ∀ p ∈ positions bound e, callMatch p.1 p.2 = none) :
    findMatchArithPolarity callMatch template out bound e polarity = none ∧
      findAllMatchesArithPolarity callMatch template bound e [] polarity = [] := by
  have hself := h _ (self_mem_positions bound e)
  simp only at hself
  induction e using arith_induction generalizing polarity with
  | minus p operator argument ih =>
    simp only [positions, List.forall_mem_cons, List.forall_mem_append] at h
    have harg := ih (polarity.map .toggle) h.2.2 (h.2.2 _ (self_mem_positions bound argument))
    simp [findMatchArithPolarity, findAllMatchesArithPolarity, findOutAllMatchesPolarity_eq_nil,
      hself, harg]
  | less p operator args1 args2 ih1 ih2 | greater p operator args1 args2 ih1 ih2
  | plus p operator args1 args2 ih1 ih2 | subMinus p operator args1 args2 ih1 ih2 =>
    simp only [positions, List.forall_mem_cons, List.forall_mem_append] at h
    have h1 := fun polarity => ih1 polarity h.2.2.1 (h.2.2.1 _ (self_mem_positions bound args1))
    have h2 := fun polarity => ih2 polarity h.2.2.2 (h.2.2.2 _ (self_mem_positions bound args2))
    simp [findMatchArithPolarity, findAllMatchesArithPolarity, findOutAllMatchesPolarity_eq_nil,
      hself, h1, h2]
  | leaf e hleaf =>
    simp [hleaf.findMatch, hleaf.findAllMatches, findOutAllMatchesPolarity_eq_nil, hself]

theorem polarity_misses (out : Bool) {bound : List β} {e : Expr β ι} (polarity : Polarity)
    (h : ∀ p ∈ positions bound e, callMatch p.1 p.2 = none) :
    findMatchPolarity callMatch template out bound e polarity = none ∧
      findAllMatchesPolarity callMatch template bound e [] polarity = [] := by
  induction e using polarity_induction generalizing bound polarity with
  | negation p operator argument ih =>
    simp only [positions, List.forall_mem_cons, List.forall_mem_append] at h
    have harg := ih polarity.toggle h.2.2
    simp [findMatchPolarity, findAllMatchesPolarity, findOutAllMatchesPolarity_eq_nil, h.1, harg]
  | implication p operator args1 args2 ih1 ih2 | conjunction p operator args1 args2 ih1 ih2
  | disjunction p operator args1 args2 ih1 ih2 =>
    simp only [positions, List.forall_mem_cons, List.forall_mem_append] at h
    have h1 := fun polarity => ih1 polarity h.2.2.1
    have h2 := fun polarity => ih2 polarity h.2.2.2
    simp [findMatchPolarity, findAllMatchesPolarity, findOutAllMatchesPolarity_eq_nil, h.1, h1, h2]
  | binding p bindings expression ih =>
    simp only [positions, List.forall_mem_cons] at h
    have hexpr := ih polarity h.2
    simp [findMatchPolarity, findAllMatchesPolarity, findOutAllMatchesPolarity_eq_nil, h.1, hexpr]
  | applies e happ =>
    have hself := h _ (self_mem_positions bound e)
    simp only at hself
    obtain ⟨hmatch, hall⟩ :
        findMatchArithPolarity callMatch template out bound e (some polarity) = none ∧
          findAllMatchesArithPolarity callMatch template bound e [] (some polarity) = [] :=
      arith_misses out _ h
    rw [happ.findMatch, happ.findAllMatches, findOutMatchPolarity_eq_none,
      findOutAllMatchesPolarity_eq_nil]
    exact ⟨⟨fun _ => hself, hmatch⟩, fun _ _ => hself, hall⟩
  | ignores e hign =>
    have hself := h _ (self_mem_positions bound e)
    simp only at hself
    rw [hign.findMatch, hign.findAllMatches, findOutAllMatchesPolarity_eq_nil]
    refine ⟨?_, fun _ _ => hself, rfl⟩
    by_contra hsome
    obtain ⟨sub, hsub⟩ := Option.ne_none_iff_exists'.1 hsome
    obtain ⟨p, hp, hmatch⟩ := findMatch_eq_some hsub
    cases (h p hp).symm.trans hmatch

end Misses

theorem polaritiesArith_subset {e : Expr β ι} {polarity : Option Polarity} {i : ι}
    {test : Option Polarity} (h : (i, test) ∈ polaritiesArith e polarity) : i ∈ places e := by
  induction e using arith_induction generalizing polarity with
  | minus p operator argument ih =>
    simp only [polaritiesArith, List.mem_cons, Prod.mk.injEq] at h
    rw [places_unary, List.mem_cons, List.mem_append]
    exact h.imp And.left fun h => .inr (ih h)
  | less p operator args1 args2 ih1 ih2 | greater p operator args1 args2 ih1 ih2
  | plus p operator args1 args2 ih1 ih2 | subMinus p operator args1 args2 ih1 ih2 =>
    simp only [polaritiesArith, List.mem_cons, Prod.mk.injEq, List.mem_append] at h
    rw [places_binary, List.mem_cons, List.mem_append, List.mem_append]
    exact h.imp And.left fun h => .inr (h.imp ih1 ih2)
  | leaf e hleaf =>
    rw [hleaf.polarities, List.mem_singleton, Prod.mk.injEq] at h
    exact h.1 ▸ place_mem_places e

theorem polarities_subset {e : Expr β ι} {polarity : Polarity} {i : ι} {test : Option Polarity}
    (h : (i, test) ∈ polarities e polarity) : i ∈ places e := by
  induction e using polarity_induction generalizing polarity with
  | negation p operator argument ih =>
    simp only [polarities, List.mem_cons, Prod.mk.injEq] at h
    rw [places_unary, List.mem_cons, List.mem_append]
    exact h.imp And.left fun h => .inr (ih h)
  | implication p operator args1 args2 ih1 ih2 | conjunction p operator args1 args2 ih1 ih2
  | disjunction p operator args1 args2 ih1 ih2 =>
    simp only [polarities, List.mem_cons, Prod.mk.injEq, List.mem_append] at h
    rw [places_binary, List.mem_cons, List.mem_append, List.mem_append]
    exact h.imp And.left fun h => .inr (h.imp ih1 ih2)
  | binding p bindings expression ih =>
    simp only [polarities, List.mem_cons, Prod.mk.injEq] at h
    rw [places_binding, List.mem_cons]
    exact h.imp And.left ih
  | applies e happ => exact polaritiesArith_subset (happ.polarities polarity ▸ h)
  | ignores e hign =>
    rw [hign.polarities, List.mem_singleton, Prod.mk.injEq] at h
    exact h.1 ▸ place_mem_places e

end PVS.Prover.Matches
