import PVS.Prover.FindMatch
import Mathlib.Data.List.Perm.Basic

/-! The positions that the searches for a matching subterm look at -/

namespace PVS.Prover.Matches

variable {β ι σ : Type}

/-- All subterms, under the variables bound there -/
def positions : {k : Kind} → List β → Node β ι k → List (List β × Expr β ι)
  | _, _, .nil => []
  | _, bound, .cons car cdr => positions bound car ++ positions bound cdr
  | _, bound, .atom place => [(bound, .atom place)]
  | _, bound, .unary place kind operator argument =>
    (bound, .unary place kind operator argument) ::
      (positions bound operator ++ positions bound argument)
  | _, bound, .binary place kind operator args1 args2 =>
    (bound, .binary place kind operator args1 args2) ::
      (positions bound operator ++ (positions bound args1 ++ positions bound args2))
  | _, bound, .application place operator arguments =>
    (bound, .application place operator arguments) ::
      (positions bound operator ++ positions bound arguments)
  | _, bound, .component place argument =>
    (bound, .component place argument) :: positions bound argument
  | _, bound, .cases place expression selections elsePart =>
    (bound, .cases place expression selections elsePart) ::
      (positions bound expression ++ (positions bound selections ++ positions bound elsePart))
  | _, bound, .selection args expression => positions (args ++ bound) expression
  | _, bound, .binding place bindings expression =>
    (bound, .binding place bindings expression) :: positions (bindings ++ bound) expression
  | _, bound, .record place expressions =>
    (bound, .record place expressions) :: positions bound expressions
  | _, bound, .tuple place exprs => (bound, .tuple place exprs) :: positions bound exprs
  | _, bound, .update place expression assignments =>
    (bound, .update place expression assignments) ::
      (positions bound expression ++ positions bound assignments)
  | _, bound, .assignment arguments expression =>
    positions bound arguments ++ positions bound expression
  | _, bound, .other place => [(bound, .other place)]

/-- No CASES has an ELSE part, no assignment has arguments with subterms, and no expression is of a
class without a method. -/
def Plain : {k : Kind} → Node β ι k → Prop
  | _, .nil => True
  | _, .cons car cdr => Plain car ∧ Plain cdr
  | _, .atom _ => True
  | _, .unary _ _ operator argument => Plain operator ∧ Plain argument
  | _, .binary _ _ operator args1 args2 => Plain operator ∧ Plain args1 ∧ Plain args2
  | _, .application _ operator arguments => Plain operator ∧ Plain arguments
  | _, .component _ argument => Plain argument
  | _, .cases _ expression selections elsePart =>
    Plain expression ∧ Plain selections ∧ positions [] elsePart = []
  | _, .selection _ expression => Plain expression
  | _, .binding _ _ expression => Plain expression
  | _, .record _ expressions => Plain expressions
  | _, .tuple _ exprs => Plain exprs
  | _, .update _ expression assignments => Plain expression ∧ Plain assignments
  | _, .assignment arguments expression => positions [] arguments = [] ∧ Plain expression
  | _, .other _ => False

/-- The positions that `find-all-matches` looks at -/
def searched : {k : Kind} → List β → Node β ι k → List (List β × Expr β ι)
  | _, _, .nil => []
  | _, bound, .cons car cdr => searched bound car ++ searched bound cdr
  | _, bound, .atom place => [(bound, .atom place)]
  | _, bound, .unary place kind operator argument =>
    (bound, .unary place kind operator argument) ::
      (searched bound operator ++ searched bound argument)
  | _, bound, .binary place kind operator args1 args2 =>
    (bound, .binary place kind operator args1 args2) ::
      (searched bound operator ++ (searched bound args1 ++ searched bound args2))
  | _, bound, .application place operator arguments =>
    (bound, .application place operator arguments) ::
      (searched bound operator ++ searched bound arguments)
  | _, bound, .component place argument =>
    (bound, .component place argument) :: searched bound argument
  | _, bound, .cases place expression selections elsePart =>
    (bound, .cases place expression selections elsePart) ::
      (searched bound expression ++ searched bound selections)
  | _, bound, .selection args expression => searched (args ++ bound) expression
  | _, bound, .binding place bindings expression =>
    (bound, .binding place bindings expression) :: searched (bindings ++ bound) expression
  | _, bound, .record place expressions =>
    (bound, .record place expressions) :: searched bound expressions
  | _, bound, .tuple place exprs => (bound, .tuple place exprs) :: searched bound exprs
  | _, bound, .update place expression assignments =>
    (bound, .update place expression assignments) ::
      (searched bound expression ++ searched bound assignments)
  | _, bound, .assignment _ expression => searched bound expression
  | _, _, .other _ => []

attribute [local simp] positions searched findMatch findAllMatches

/-- The variables bound outside do not matter to which subterms there are. -/
theorem map_snd_positions (bound bound' : List β) {k : Kind} (e : Node β ι k) :
    (positions bound e).map Prod.snd = (positions bound' e).map Prod.snd := by
  induction e generalizing bound bound' with
  | nil | atom | other => rfl
  | cons operator argument ihop iharg | unary _ _ operator argument ihop iharg
  | application _ operator argument ihop iharg | update _ operator argument ihop iharg
  | assignment operator argument ihop iharg =>
    simp only [positions, List.map_cons, List.map_append, ihop bound bound', iharg bound bound']
  | cases _ operator args1 args2 ihop ih1 ih2 | binary _ _ operator args1 args2 ihop ih1 ih2 =>
    simp only [positions, List.map_cons, List.map_append, ihop bound bound', ih1 bound bound',
      ih2 bound bound']
  | component _ argument ih | record _ argument ih | tuple _ argument ih =>
    simp only [positions, List.map_cons, ih bound bound']
  | selection args expression ih => exact ih _ _
  | binding _ bindings expression ih =>
    simp only [positions, List.map_cons, ih (bindings ++ bound) (bindings ++ bound')]

theorem positions_length (bound bound' : List β) {k : Kind} (e : Node β ι k) :
    (positions bound e).length = (positions bound' e).length := by
  rw [← List.length_map (f := Prod.snd), map_snd_positions bound bound', List.length_map]

theorem positions_eq_nil {bound : List β} {k : Kind} {e : Node β ι k} (h : positions [] e = []) :
    positions bound e = [] := by
  rw [← List.length_eq_zero_iff, positions_length bound [], h, List.length_nil]

section Match

variable {callMatch : List β → Expr β ι → Option σ}

@[simp] theorem someFindMatch_eq_none {try1 try2 : Option σ} :
    someFindMatch try1 try2 = none ↔ try1 = none ∧ try2 = none := by
  cases try1 <;> simp [someFindMatch]

theorem someFindMatch_eq_some {try1 try2 : Option σ} {sub : σ}
    (h : someFindMatch try1 try2 = some sub) : try1 = some sub ∨ try2 = some sub := by
  cases try1 with
  | none => exact .inr h
  | some insub => exact .inl h

@[simp] theorem findOutMatch_eq_none {out : Bool} {bound : List β} {e : Expr β ι}
    {insub : Option σ} :
    findOutMatch callMatch out bound e insub = none ↔ callMatch bound e = none ∧ insub = none := by
  cases insub <;> cases out <;> simp [findOutMatch]

theorem findOutMatch_eq_some {out : Bool} {bound : List β} {e : Expr β ι} {insub : Option σ}
    {sub : σ} (h : findOutMatch callMatch out bound e insub = some sub) :
    callMatch bound e = some sub ∨ insub = some sub := by
  cases insub with
  | none => exact .inl h
  | some insub =>
    cases out with
    | false => exact .inr h
    | true => exact someFindMatch_eq_some h

theorem findOutAllMatches_eq {bound : List β} {e : Expr β ι} {accum : List σ}
    {ps : List (List β × Expr β ι)} :
    findOutAllMatches callMatch bound e (ps.filterMap (fun p => callMatch p.1 p.2) ++ accum) =
      ((bound, e) :: ps).filterMap (fun p => callMatch p.1 p.2) ++ accum := by
  cases h : callMatch bound e <;> simp [findOutAllMatches, h]

theorem findAllMatches_eq {k : Kind} (bound : List β) (e : Node β ι k) (accum : List σ) :
    findAllMatches callMatch bound e accum =
      (searched bound e).filterMap (fun p => callMatch p.1 p.2) ++ accum := by
  induction e generalizing bound accum with
  | nil | other => simp [findAllMatches, searched]
  | atom place => cases h : callMatch bound (.atom place) <;>
      simp [findAllMatches, findOutAllMatches, searched, h]
  | cons car cdr ihcar ihcdr =>
    simp only [findAllMatches, searched, ihcar, ihcdr, List.filterMap_append, List.append_assoc]
  | unary place kind operator argument ihop iharg | application place operator argument ihop iharg
  | update place operator argument ihop iharg | cases place operator argument _ ihop iharg =>
    simp only [findAllMatches, searched, ihop, iharg]
    rw [← List.append_assoc, ← List.filterMap_append, findOutAllMatches_eq]
  | binary place kind operator args1 args2 ihop ih1 ih2 =>
    simp only [findAllMatches, searched, ihop, ih1, ih2]
    rw [← List.append_assoc, ← List.append_assoc, ← List.filterMap_append, ← List.filterMap_append,
      findOutAllMatches_eq, List.append_assoc]
  | component place argument ih | binding place bindings argument ih | record place argument ih
  | tuple place argument ih =>
    simp only [findAllMatches, searched, ih]
    rw [findOutAllMatches_eq]
  | selection args expression ih => exact ih _ _
  | assignment arguments expression _ ih => exact ih _ _

theorem findMatch_of_positions_eq_nil {out : Bool} {k : Kind} {bound : List β} {e : Node β ι k}
    (h : positions bound e = []) : findMatch callMatch out bound e = none := by
  induction e generalizing bound with
  | nil => rfl
  | cons car cdr ihcar ihcdr | assignment car cdr ihcar ihcdr =>
    obtain ⟨hcar, hcdr⟩ := List.append_eq_nil_iff.1 h
    rw [findMatch, ihcar hcar, ihcdr hcdr]
    rfl
  | selection args expression ih => exact ih h
  | _ => simp [positions] at h

theorem findMatch_eq_some {out : Bool} {k : Kind} {bound : List β} {e : Node β ι k} {sub : σ}
    (h : findMatch callMatch out bound e = some sub) :
    ∃ p ∈ positions bound e, callMatch p.1 p.2 = some sub := by
  induction e generalizing bound with
  | nil | other => simp [findMatch] at h
  | atom place => exact ⟨_, List.mem_singleton_self _, h⟩
  | cons car cdr ihcar ihcdr | assignment car cdr ihcar ihcdr =>
    simp only [positions, List.mem_append, or_and_right, exists_or]
    exact (someFindMatch_eq_some h).imp ihcar ihcdr
  | unary place kind operator argument ihop iharg | application place operator argument ihop iharg
  | update place operator argument ihop iharg =>
    simp only [positions, List.exists_mem_cons_iff, List.mem_append, or_and_right, exists_or]
    exact (findOutMatch_eq_some h).imp_right fun h => (someFindMatch_eq_some h).imp ihop iharg
  | cases place expression selections elsePart ihexpr ihsel =>
    simp only [positions, List.exists_mem_cons_iff, List.mem_append, or_and_right, exists_or]
    exact (findOutMatch_eq_some h).imp_right fun h =>
      (someFindMatch_eq_some h).imp ihexpr fun h => .inl (ihsel h)
  | binary place kind operator args1 args2 ihop ih1 ih2 =>
    simp only [positions, List.exists_mem_cons_iff, List.mem_append, or_and_right, exists_or]
    exact (findOutMatch_eq_some h).imp_right fun h =>
      (someFindMatch_eq_some h).imp ihop fun h => (someFindMatch_eq_some h).imp ih1 ih2
  | component place argument ih | binding place bindings argument ih | record place argument ih
  | tuple place argument ih =>
    simp only [positions, List.exists_mem_cons_iff]
    exact (findOutMatch_eq_some h).imp_right ih
  | selection args expression ih => exact ih h

/-- A search is a search in the list that the other one goes through. -/
theorem findMatch_eq_none {out : Bool} {k : Kind} {bound : List β} {e : Node β ι k}
    (h : Plain e) : findMatch callMatch out bound e = none ↔
      ∀ p ∈ positions bound e, callMatch p.1 p.2 = none := by
  induction e generalizing bound with
  | nil => simp [findMatch, positions]
  | other => exact h.elim
  | atom => simp [findMatch, positions]
  | cons car cdr ihcar ihcdr =>
    simp only [findMatch, positions, someFindMatch_eq_none, ihcar h.1, ihcdr h.2,
      List.forall_mem_append]
  | unary place kind operator argument ihop iharg | application place operator argument ihop iharg
  | update place operator argument ihop iharg =>
    simp only [findMatch, positions, findOutMatch_eq_none, someFindMatch_eq_none, ihop h.1,
      iharg h.2, List.forall_mem_cons, List.forall_mem_append]
  | cases place expression selections elsePart ihexpr ihsel =>
    simp only [findMatch, positions, findOutMatch_eq_none, someFindMatch_eq_none, ihexpr h.1,
      ihsel h.2.1, positions_eq_nil h.2.2, List.append_nil, List.forall_mem_cons,
      List.forall_mem_append]
  | binary place kind operator args1 args2 ihop ih1 ih2 =>
    simp only [findMatch, positions, findOutMatch_eq_none, someFindMatch_eq_none, ihop h.1,
      ih1 h.2.1, ih2 h.2.2, List.forall_mem_cons, List.forall_mem_append]
  | component place argument ih | binding place bindings argument ih | record place argument ih
  | tuple place argument ih =>
    simp only [findMatch, positions, findOutMatch_eq_none, ih h, List.forall_mem_cons]
  | selection args expression ih => exact ih h
  | assignment arguments expression iharg ih =>
    rw [findMatch, positions, someFindMatch_eq_none, ih h.2, positions_eq_nil h.1,
      findMatch_of_positions_eq_nil (positions_eq_nil h.1), List.nil_append]
    simp

end Match

theorem searched_of_plain {bound : List β} {k : Kind} {e : Node β ι k} (h : Plain e) :
    searched bound e = positions bound e := by
  induction e generalizing bound with
  | nil | atom => rfl
  | other => exact h.elim
  | cons operator argument ihop iharg | unary _ _ operator argument ihop iharg
  | application _ operator argument ihop iharg | update _ operator argument ihop iharg =>
    simp only [searched, positions, ihop h.1, iharg h.2]
  | cases _ expression selections elsePart ihexpr ihsel =>
    simp only [searched, positions, ihexpr h.1, ihsel h.2.1, positions_eq_nil h.2.2,
      List.append_nil]
  | binary _ _ operator args1 args2 ihop ih1 ih2 =>
    simp only [searched, positions, ihop h.1, ih1 h.2.1, ih2 h.2.2]
  | component _ argument ih | record _ argument ih | tuple _ argument ih
  | binding _ bindings argument ih =>
    simp only [searched, positions, ih h]
  | selection args expression ih => exact ih h
  | assignment arguments expression _ ih =>
    simp only [searched, positions, ih h.2, positions_eq_nil h.1, List.nil_append]

/-- Every position is looked at only where nothing is left out. -/
theorem plain_of_length {k : Kind} (bound : List β) (e : Node β ι k) :
    (searched bound e).length ≤ (positions bound e).length ∧
      ((positions bound e).length ≤ (searched bound e).length → Plain e) := by
  induction e generalizing bound with
  | nil | atom => exact ⟨Nat.le_refl _, fun _ => trivial⟩
  | other => simp [searched, positions]
  | cons operator argument ihop iharg | unary _ _ operator argument ihop iharg
  | application _ operator argument ihop iharg | update _ operator argument ihop iharg =>
    obtain ⟨hop, hop'⟩ := ihop bound
    obtain ⟨harg, harg'⟩ := iharg bound
    simp only [searched, positions, List.length_cons, List.length_append]
    exact ⟨by omega, fun h => ⟨hop' (by omega), harg' (by omega)⟩⟩
  | cases _ expression selections elsePart ihexpr ihsel =>
    obtain ⟨hexpr, hexpr'⟩ := ihexpr bound
    obtain ⟨hsel, hsel'⟩ := ihsel bound
    simp only [searched, positions, List.length_cons, List.length_append]
    refine ⟨by omega, fun h => ⟨hexpr' (by omega), hsel' (by omega), ?_⟩⟩
    rw [← List.length_eq_zero_iff, positions_length [] bound]
    omega
  | binary _ _ operator args1 args2 ihop ih1 ih2 =>
    obtain ⟨hop, hop'⟩ := ihop bound
    obtain ⟨h1, h1'⟩ := ih1 bound
    obtain ⟨h2, h2'⟩ := ih2 bound
    simp only [searched, positions, List.length_cons, List.length_append]
    exact ⟨by omega, fun h => ⟨hop' (by omega), h1' (by omega), h2' (by omega)⟩⟩
  | component _ argument ih | record _ argument ih | tuple _ argument ih =>
    obtain ⟨h, h'⟩ := ih bound
    simp only [searched, positions, List.length_cons]
    exact ⟨by omega, fun hlen => h' (by omega)⟩
  | binding _ bindings argument ih =>
    obtain ⟨h, h'⟩ := ih (bindings ++ bound)
    simp only [searched, positions, List.length_cons]
    exact ⟨by omega, fun hlen => h' (by omega)⟩
  | selection args expression ih => exact ih _
  | assignment arguments expression _ ih =>
    obtain ⟨h, h'⟩ := ih bound
    simp only [searched, positions, List.length_append]
    refine ⟨by omega, fun hlen => ⟨?_, h' (by omega)⟩⟩
    rw [← List.length_eq_zero_iff, positions_length [] bound]
    omega

/-- The two searches agree: one fails where the other finds nothing, and finds one of those that
the other finds. -/
def Agree {k : Kind} (bound : List β) (e : Node β ι k) : Prop :=
  ∀ (σ : Type) (callMatch : List β → Expr β ι → Option σ) (out : Bool),
    (findMatch callMatch out bound e = none ↔ findAllMatches callMatch bound e [] = []) ∧
      ∀ sub, findMatch callMatch out bound e = some sub →
        sub ∈ findAllMatches callMatch bound e []

/-- A match at any position is found. -/
def LooksEverywhere {k : Kind} (bound : List β) (e : Node β ι k) : Prop :=
  ∀ (σ : Type) (callMatch : List β → Expr β ι → Option σ) (out : Bool),
    ∀ p ∈ positions bound e, callMatch p.1 p.2 ≠ none → findMatch callMatch out bound e ≠ none

/-- What is found where everything matches are all positions. -/
def CollectsEverywhere {k : Kind} (bound : List β) (e : Node β ι k) : Prop :=
  (findAllMatches (fun bound e => some (bound, e)) bound e []).Perm (positions bound e)

theorem findMatch_mem {callMatch : List β → Expr β ι → Option σ} {out : Bool} {bound : List β}
    {k : Kind} {e : Node β ι k} {sub : σ} (h : Plain e)
    (hsub : findMatch callMatch out bound e = some sub) :
    sub ∈ findAllMatches callMatch bound e [] := by
  rw [findAllMatches_eq, searched_of_plain h, List.append_nil, List.mem_filterMap]
  exact findMatch_eq_some hsub

/-- The searches agree, and look at every position, exactly where nothing is left out. -/
theorem searches_iff {k : Kind} (bound : List β) (e : Node β ι k) :
    (Agree bound e ∧ LooksEverywhere bound e ∧ CollectsEverywhere bound e) ↔ Plain e := by
  constructor
  · rintro ⟨-, -, h⟩
    refine (plain_of_length bound e).2 ?_
    rw [CollectsEverywhere, findAllMatches_eq] at h
    have hlen : (searched bound e).length = (positions bound e).length := by simpa using h.length_eq
    exact Nat.le_of_eq hlen.symm
  · intro h
    refine ⟨fun σ callMatch out => ⟨?_, fun sub => findMatch_mem h⟩,
      fun σ callMatch out p hp hmatch hnone => ?_, ?_⟩
    · rw [findMatch_eq_none h, findAllMatches_eq, searched_of_plain h]
      simp [List.filterMap_eq_nil_iff]
    · exact hmatch ((findMatch_eq_none h).1 hnone p hp)
    · rw [CollectsEverywhere, findAllMatches_eq, searched_of_plain h]
      simp

end PVS.Prover.Matches
