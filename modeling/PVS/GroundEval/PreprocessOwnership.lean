import PVS.GroundEval.PreprocessScope
import PVS.Library.Ownership

/-! Ownership of references on the paths through preprocessed expressions. -/

namespace PVS.GroundEval.IR

open PVS.Library

/-! ### Paths -/

/-- The variables of the size of an array, for a type that is one. -/
def highVars : Option Bound → List Var
  | none => []
  | some b => b.vars

def Operand.event (o : Operand) : OwnEvent Var := if o.last then .consume o.var else .use o.var

section Paths

variable (T : VarTypes)

/-- What happens to variables on a path through an expression that is not preprocessed. The variables
of the size of the array that is expected are `size`. -/
def Expr.Path (size : List Var) : Expr → List (OwnEvent Var) → Prop
  | .flat n, t =>
    t = (if n.converts T then size.map .use else []) ++ n.operands.map .use
  | .letIn _ x high a b, t =>
    ∃ r s, a.Path (highVars high) r ∧ b.Path size s ∧ t = r ++ .bind x :: s
  | .lambda xs high b, t =>
    ∃ s, Repeated (fun r => ∃ q, b.Path (highVars high) q ∧ r = xs.map .bind ++ q) s ∧
      t = size.map .use ++ s
  | .forAll x low high b, t | .exist x low high b, t =>
    ∃ s, Repeated (fun r => ∃ q, b.Path [] q ∧ r = .bind x :: q) s ∧
      t = low.vars.map .use ++ (high.vars.map .use ++ s)
  | .ift c a b, t => ∃ s, (a.Path size s ∨ b.Path size s) ∧ t = .use c :: s

/-- What happens to variables on a path. -/
def Marked.Path (size : List Var) : Marked → List (OwnEvent Var) → Prop
  | .flat n, t =>
    t = (if (n.map Operand.var).converts T then size.map .use else []) ++
      n.operands.map Operand.event
  | .letIn _ x high a b, t =>
    ∃ r s, a.Path (highVars high) r ∧ b.Path size s ∧ t = r ++ .bind x :: s
  | .lambda xs lastvars high b, t =>
    ∃ (s : List (OwnEvent Var)) (l : List Var),
      Repeated (fun r => ∃ q, b.Path (highVars high) q ∧ r = xs.map .bind ++ q) s ∧
      l.Nodup ∧ l.toFinset = lastvars ∧ t = size.map .use ++ (s ++ l.map .consume)
  | .forAll x low high b, t =>
    ∃ s, Repeated (fun r => ∃ q, b.Path [] q ∧ r = .bind x :: q) s ∧
      t = low.vars.map .use ++ (high.vars.map .use ++ s)
  | .exist _ x low high b, t => (Expr.exist x low high b).Path T [] t
  | .ift c a b, t => ∃ s, (a.Path size s ∨ b.Path size s) ∧ t = c.event :: s
  | .release pre post b, t =>
    ∃ (l l' : List Var) (s : List (OwnEvent Var)), b.Path size s ∧ l.Nodup ∧ l.toFinset = pre ∧ l'.Nodup ∧ l'.toFinset = post ∧
      t = l.map .consume ++ (s ++ l'.map .consume)

/-- The variables that are bound in an expression. -/
def Expr.binders : Expr → List Var
  | .flat _ => []
  | .letIn _ x _ a b => x :: (a.binders ++ b.binders)
  | .lambda xs _ b => xs ++ b.binders
  | .forAll x _ _ b => x :: b.binders
  | .exist x _ _ b => x :: b.binders
  | .ift _ a b => a.binders ++ b.binders

/-! ### When references are owned linearly -/

/-- The variables that are counted as free after preprocessing, where `size` are those of the array
that is expected. -/
def Expr.remaining (size exp livevars : Finset Var) (bindings : Bindings) : Expr → Finset Var
  | .flat n => (n.map (getAssoc bindings)).freevars T size
  | .letIn lett x high a b =>
    if x ∈ b.freevars T exp then
      let livevarsWithBody := applyBindings bindings (b.freevars T exp) ∪ livevars
      if b = .flat (.operand x) ∧ T.isArraytype x = false then
        a.remaining size (arrayExpected high) livevarsWithBody bindings
      else
        match replacement T lett x (a.copyOf T (arrayExpected high) livevarsWithBody bindings) with
        | some y => b.remaining size exp livevars ((x, y) :: bindings)
        | none =>
          let rest := b.remaining size exp livevars bindings
          if x ∈ rest then
            a.remaining (applyBindings bindings (arrayExpected high)) (arrayExpected high)
              livevarsWithBody bindings ∪ rest.erase x
          else rest
    else b.remaining size exp livevars bindings
  | .lambda xs high b =>
    size ∪ (b.remaining (applyBindings bindings (arrayExpected high)) (arrayExpected high)
      (applyBindings bindings ((Expr.lambda xs high b).freevars T exp) ∪ livevars) bindings \
        xs.toFinset)
  | .forAll x low high b =>
    if x ∈ b.freevars T ∅ then
      (applyBindings bindings low.freevars ∪ applyBindings bindings high.freevars ∪
        b.remaining size exp livevars bindings).erase x
    else b.remaining size exp livevars bindings
  | .exist x low high b => applyBindings bindings ((Expr.exist x low high b).freevars T exp)
  | .ift c a b => {getAssoc bindings c} ∪
      (a.remaining size exp livevars bindings ∪ b.remaining size exp livevars bindings)

/-- The references among `s` are among `t`. -/
def RefSubset (s t : Finset Var) : Prop := ∀ v ∈ s, T.isRef v = true → v ∈ t

/-- No reference is marked twice, and none is counted as free that is not marked. -/
def Flat.ConsumesOnce (exp livevars : Finset Var) (bindings : Bindings) (n : Flat Var) : Prop :=
  (n.converts T ∨ (n.map (getAssoc bindings)).converts T →
    RefSubset T (applyBindings bindings exp)
      (applyBindings bindings n.operands.toFinset ∪ livevars)) ∧
  match n with
  | .apply f params args =>
    (params.any T.isFuntype → RefSubset T
      (applyBindings bindings exp ∩ applyBindings bindings args.toFinset)
      (applyBindings bindings params.toFinset ∪ livevars)) ∧
    (params.any T.isFuntype ∨ args.any T.isFuntype → RefSubset T
      (applyBindings bindings exp ∩ applyBindings bindings f.operands.toFinset)
      (applyBindings bindings params.toFinset ∪
        (applyBindings bindings args.toFinset ∪ livevars)))
  | .lookup .. | .update .. =>
    ∀ v ∈ n.operands.map (getAssoc bindings), T.isRef v = true → v ∉ livevars →
      (n.operands.map (getAssoc bindings)).count v ≤ 1
  | _ => True

/-- The conditions under which each reference is consumed once: a loop that remains has no free
reference that is not used after it, an `exist` binds none, operands that are marked apart are not the
same, and no reference is counted as free where it does not remain. -/
def Expr.ConsumesOnce (exp livevars : Finset Var) (bindings : Bindings) : Expr → Prop
  | .flat n => n.ConsumesOnce T exp livevars bindings
  | .letIn lett x high a b =>
    if x ∈ b.freevars T exp then
      let livevarsWithBody := applyBindings bindings (b.freevars T exp) ∪ livevars
      if b = .flat (.operand x) ∧ T.isArraytype x = false then
        (T.isFuntype x = true → RefSubset T (applyBindings bindings exp) livevars) ∧
          a.ConsumesOnce (arrayExpected high) livevarsWithBody bindings
      else
        match replacement T lett x (a.copyOf T (arrayExpected high) livevarsWithBody bindings) with
        | some y =>
          RefSubset T (applyBindings bindings (a.freevars T (arrayExpected high)))
            (applyBindings ((x, y) :: bindings) (b.freevars T exp) ∪ livevars) ∧
          b.ConsumesOnce exp livevars ((x, y) :: bindings)
        | none => a.ConsumesOnce (arrayExpected high) livevarsWithBody bindings ∧
            b.ConsumesOnce exp livevars bindings
    else b.ConsumesOnce exp livevars bindings
  | .lambda xs high b =>
    RefSubset T xs.toFinset (b.freevars T (arrayExpected high)) ∧
      b.ConsumesOnce (arrayExpected high)
        (applyBindings bindings ((Expr.lambda xs high b).freevars T exp) ∪ livevars) bindings
  | .forAll x low high b =>
    (if x ∈ b.freevars T ∅ then
      RefSubset T (applyBindings bindings ((Expr.forAll x low high b).freevars T exp)) livevars
    else RefSubset T (applyBindings bindings (low.freevars ∪ high.freevars))
      (applyBindings bindings (b.freevars T exp) ∪ livevars)) ∧
      b.ConsumesOnce exp livevars bindings
  | .exist x low high b =>
    RefSubset T (applyBindings bindings ((Expr.exist x low high b).freevars T exp)) livevars ∧
      RefSubset T (Expr.exist x low high b).free livevars ∧
      RefSubset T (Expr.exist x low high b).binders.toFinset ∅
  | .ift _ a b =>
    (RefSubset T (applyBindings bindings (a.freevars T exp))
        (applyBindings bindings (a.remaining T exp exp livevars bindings) ∪ livevars) ∧
      RefSubset T (applyBindings bindings (a.remaining T exp exp livevars bindings))
        (applyBindings bindings (a.freevars T exp) ∪ livevars)) ∧
    (RefSubset T (applyBindings bindings (b.freevars T exp))
        (applyBindings bindings (b.remaining T exp exp livevars bindings) ∪ livevars) ∧
      RefSubset T (applyBindings bindings (b.remaining T exp exp livevars bindings))
        (applyBindings bindings (b.freevars T exp) ∪ livevars)) ∧
    a.ConsumesOnce exp livevars bindings ∧ b.ConsumesOnce exp livevars bindings

end Paths

instance (T : VarTypes) (s t : Finset Var) : Decidable (RefSubset T s t) :=
  inferInstanceAs (Decidable (∀ v ∈ s, T.isRef v = true → v ∈ t))

instance Flat.decidableConsumesOnce (T : VarTypes) (exp livevars : Finset Var) (bindings : Bindings) :
    (n : Flat Var) → Decidable (n.ConsumesOnce T exp livevars bindings)
  | .operand _ | .literal _ | .record _ | .arrayLiteral _ | .get .. =>
    inferInstanceAs (Decidable ((_ → RefSubset T _ _) ∧ True))
  | .apply _ params args => inferInstanceAs (Decidable ((_ → RefSubset T _ _) ∧
      (params.any T.isFuntype → RefSubset T _ _) ∧
      (params.any T.isFuntype ∨ args.any T.isFuntype → RefSubset T _ _)))
  | .lookup .. | .update .. => inferInstanceAs (Decidable ((_ → RefSubset T _ _) ∧ ∀ v ∈ _, _ → _ → _))

instance Expr.decidableConsumesOnce (T : VarTypes) : (exp livevars : Finset Var) →
    (bindings : Bindings) → (e : Expr) → Decidable (e.ConsumesOnce T exp livevars bindings)
  | exp, livevars, bindings, .flat n => n.decidableConsumesOnce T exp livevars bindings
  | exp, livevars, bindings, .letIn lett x high a b =>
    have (L : Finset Var) := decidableConsumesOnce T (arrayExpected high) L bindings a
    have (B : Bindings) := decidableConsumesOnce T exp livevars B b
    if hfree : x ∈ b.freevars T exp then
      let livevarsWithBody := applyBindings bindings (b.freevars T exp) ∪ livevars
      if hbody : b = .flat (.operand x) ∧ T.isArraytype x = false then
        decidable_of_iff ((_ → RefSubset T _ _) ∧
            a.ConsumesOnce T (arrayExpected high) livevarsWithBody bindings)
          (by rw [Expr.ConsumesOnce, if_pos hfree, if_pos hbody])
      else
        match hrep : replacement T lett x
            (a.copyOf T (arrayExpected high) livevarsWithBody bindings) with
        | some y =>
          decidable_of_iff (RefSubset T _ _ ∧ b.ConsumesOnce T exp livevars ((x, y) :: bindings))
            (by rw [Expr.ConsumesOnce, if_pos hfree, if_neg hbody, hrep])
        | none =>
          decidable_of_iff (a.ConsumesOnce T (arrayExpected high) livevarsWithBody bindings ∧
              b.ConsumesOnce T exp livevars bindings)
            (by rw [Expr.ConsumesOnce, if_pos hfree, if_neg hbody, hrep])
    else decidable_of_iff (b.ConsumesOnce T exp livevars bindings)
      (by rw [Expr.ConsumesOnce, if_neg hfree])
  | exp, livevars, bindings, .lambda xs high b =>
    have := decidableConsumesOnce T (arrayExpected high)
      (applyBindings bindings ((Expr.lambda xs high b).freevars T exp) ∪ livevars) bindings b
    inferInstanceAs (Decidable (RefSubset T _ _ ∧ _))
  | exp, livevars, bindings, .forAll x _ _ b =>
    have := decidableConsumesOnce T exp livevars bindings b
    inferInstanceAs (Decidable ((if x ∈ b.freevars T ∅ then RefSubset T _ _ else RefSubset T _ _) ∧ _))
  | _, _, _, .exist .. =>
    inferInstanceAs (Decidable (RefSubset T _ _ ∧ RefSubset T _ _ ∧ RefSubset T _ _))
  | exp, livevars, bindings, .ift _ a b =>
    have := decidableConsumesOnce T exp livevars bindings a
    have := decidableConsumesOnce T exp livevars bindings b
    inferInstanceAs (Decidable ((RefSubset T _ _ ∧ RefSubset T _ _) ∧
      (RefSubset T _ _ ∧ RefSubset T _ _) ∧ _ ∧ _))

variable {T : VarTypes} {B : Bindings} {scope E livevars : Finset Var} {x y v : Var}

/-! ### Operands -/

theorem mem_applyBindings_toFinset {xs : List Var} :
    v ∈ applyBindings B xs.toFinset ↔ v ∈ xs.map (getAssoc B) := by
  simp [mem_applyBindings]

theorem mem_applyBindings_singleton : v ∈ applyBindings B {x} ↔ v = getAssoc B x := by
  rw [mem_applyBindings]
  simp [eq_comm]

theorem event_preprocessVar (L : Finset Var) (B : Bindings) (x : Var) :
    (preprocessVar L B x).event =
      if getAssoc B x ∈ L then .use (getAssoc B x) else .consume (getAssoc B x) := by
  by_cases h : getAssoc B x ∈ L <;> simp [preprocessVar, Operand.event, h]

/-- An operand is consumed just when it is not live after it, which is `w`. -/
theorem ownRun_preprocessVar {L : Finset Var} {o w : Bool}
    (hw : v = getAssoc B x → (w = true ↔ v ∈ L)) (ho : o = true ↔ v = getAssoc B x ∨ w = true) :
    ownRun v o [(preprocessVar L B x).event] = some w := by
  rw [event_preprocessVar]
  by_cases hv : v = getAssoc B x
  · have htrue : o = true := ho.2 (.inl hv)
    subst htrue
    by_cases hL : getAssoc B x ∈ L
    · have hw' : w = true := (hw hv).2 (hv ▸ hL)
      simp [ownRun, OwnEvent.step, hv, hL, hw']
    · have hw' : w = false := Bool.eq_false_iff.2 fun h => hL (hv ▸ (hw hv).1 h)
      simp [ownRun, OwnEvent.step, hv, hL, hw']
  · have ho' : o = w := by
      rw [Bool.eq_iff_iff, ho]
      exact or_iff_right hv
    by_cases hL : getAssoc B x ∈ L <;> simp [ownRun, OwnEvent.step, Ne.symm hv, hL, ho']

/-- The variables of a list that are not live are consumed, at their last occurrences. -/
theorem ownRun_preprocessVars {L : Finset Var} {l : List Var} {o w : Bool}
    (hw : v ∈ l.map (getAssoc B) → (w = true ↔ v ∈ L))
    (ho : o = true ↔ v ∈ l.map (getAssoc B) ∨ w = true) :
    ownRun v o ((preprocessVars L B l).map Operand.event) = some w := by
  induction l generalizing o with
  | nil =>
    have ho' : o = w := Bool.eq_iff_iff.2 (by simpa using ho)
    rw [ho']
    rfl
  | cons x l ih =>
    rw [List.map_cons, List.mem_cons] at hw ho
    apply ownRun_trans (s := [_]) (m := decide (v ∈ l.map (getAssoc B) ∨ w = true))
    · apply ownRun_preprocessVar
      · intro hv
        rw [decide_eq_true_iff, Finset.mem_union, mem_applyBindings_toFinset, hw (.inl hv)]
      · rw [ho, decide_eq_true_iff, or_assoc]
    · exact ih (fun hmem => hw (.inr hmem)) decide_eq_true_iff

theorem preprocessFields_snd (L : Finset Var) (B : Bindings) (fs : List (Name × Var)) :
    (preprocessFields L B fs).map Prod.snd = preprocessVars L B (fs.map Prod.snd) := by
  induction fs with
  | nil => rfl
  | cons f fs ih => simp [preprocessFields, preprocessVars, ih]

theorem count_eq_zero_of_le {l : List Var} (h : (v :: l).count v ≤ 1) : v ∉ l := by
  rw [List.count_cons_self] at h
  exact List.count_eq_zero.1 (by omega)

/-- Operands that are marked apart are consumed once, where the same one does not occur twice. -/
theorem ownRun_apart {L : Finset Var} {l : List Var} {o w : Bool}
    (hw : v ∈ l.map (getAssoc B) → (w = true ↔ v ∈ L))
    (ho : o = true ↔ v ∈ l.map (getAssoc B) ∨ w = true)
    (hcount : w = false → (l.map (getAssoc B)).count v ≤ 1) :
    ownRun v o ((l.map (preprocessVar L B)).map Operand.event) = some w := by
  induction l generalizing o with
  | nil =>
    have ho' : o = w := Bool.eq_iff_iff.2 (by simpa using ho)
    rw [ho']
    rfl
  | cons x l ih =>
    rw [List.map_cons, List.mem_cons] at hw ho
    rw [List.map_cons] at hcount
    by_cases hx : v = getAssoc B x
    · have hrest : w = false → v ∉ l.map (getAssoc B) := by
        intro hfalse
        rw [← hx] at hcount
        exact count_eq_zero_of_le (hcount hfalse)
      apply ownRun_trans (s := [_]) (m := w)
      · apply ownRun_preprocessVar fun _ => hw (.inl hx)
        rw [ho]
        constructor
        · exact fun _ => .inl hx
        · exact fun _ => .inl (.inl hx)
      · apply ih (fun hmem => hw (.inr hmem))
        · constructor
          · exact .inr
          · rintro (hmem | htrue)
            · cases w with
              | true => rfl
              | false => exact absurd hmem (hrest rfl)
            · exact htrue
        · intro hfalse
          rw [List.count_eq_zero.2 (hrest hfalse)]
          exact Nat.zero_le 1
    · apply ownRun_trans (s := [_]) (m := decide (v ∈ l.map (getAssoc B) ∨ w = true))
      · apply ownRun_preprocessVar fun hv => absurd hv hx
        rw [ho, decide_eq_true_iff, or_assoc]
      · apply ih (fun hmem => hw (.inr hmem)) decide_eq_true_iff
        intro hfalse
        have hle := hcount hfalse
        rwa [List.count_cons_of_ne (Ne.symm hx)] at hle

theorem mem_varsFreevars {xs : List Var} :
    v ∈ applyBindings B (varsFreevars T E xs) ↔
      v ∈ xs.map (getAssoc B) ∨ xs.any T.isFuntype = true ∧ v ∈ applyBindings B E := by
  rw [varsFreevars, applyBindings_union, Finset.mem_union, mem_applyBindings_toFinset]
  split
  · rename_i h
    simp only [h, true_and]
  · rename_i h
    simp [h]

theorem count_singleton_le {w : Bool} (x : Var) (_ : w = false) :
    ([x].map (getAssoc B)).count v ≤ 1 := List.count_le_length

theorem ownRun_head {L : Finset Var} {f : Head Var} {o w : Bool}
    (hw : v ∈ f.operands.map (getAssoc B) → (w = true ↔ v ∈ L))
    (ho : o = true ↔ v ∈ f.operands.map (getAssoc B) ∨ w = true) :
    ownRun v o ((f.map (preprocessVar L B)).operands.map Operand.event) = some w := by
  cases f with
  | var x => exact ownRun_apart (l := [x]) hw ho (count_singleton_le x)
  | fn g => exact ownRun_apart (l := []) hw ho fun _ => Nat.zero_le 1

/-- The operands of an application are marked as those of one list would be. -/
theorem ownRun_apply {L : Finset Var} {f : Head Var} {params args : List Var} {o w : Bool}
    (hcond : (Flat.apply f params args).ConsumesOnce T E L B) (hv : T.isRef v = true)
    (hw : v ∈ (Flat.apply f params args).operands.map (getAssoc B) → (w = true ↔ v ∈ L))
    (ho : o = true ↔ v ∈ (Flat.apply f params args).operands.map (getAssoc B) ∨ w = true) :
    ownRun v o ((((Flat.apply f params args).preprocess T E L B).operands).map Operand.event) =
      some w := by
  obtain ⟨-, hargs, hfun⟩ := hcond
  simp only [Flat.operands, List.map_append, List.mem_append] at hw ho
  simp only [Flat.preprocess, Flat.operands, List.map_append]
  -- what is owned after the function, and after the arguments
  apply ownRun_trans
    (m := decide (v ∈ args.map (getAssoc B) ∨ v ∈ params.map (getAssoc B) ∨ w = true))
  · apply ownRun_head
    · intro hf
      have hlive := hw (.inl hf)
      have hsub : params.any T.isFuntype = true ∨ args.any T.isFuntype = true →
          v ∈ applyBindings B E →
          v ∈ params.map (getAssoc B) ∨ v ∈ args.map (getAssoc B) ∨ v ∈ L := by
        intro htype hE
        have hboth := Finset.mem_inter.2 ⟨hE, mem_applyBindings_toFinset.2 hf⟩
        simpa only [Finset.mem_union, mem_applyBindings_toFinset] using hfun htype v hboth hv
      rw [decide_eq_true_iff, Finset.mem_union, Finset.mem_union, mem_varsFreevars,
        mem_varsFreevars, hlive]
      clear hw ho hargs hfun hlive
      grind
    · rw [ho, decide_eq_true_iff, or_assoc, or_assoc]
  · apply ownRun_trans (m := decide (v ∈ params.map (getAssoc B) ∨ w = true))
    · apply ownRun_preprocessVars
      · intro hmem
        have hlive := hw (.inr (.inl hmem))
        have hsub : params.any T.isFuntype = true → v ∈ applyBindings B E →
            v ∈ params.map (getAssoc B) ∨ v ∈ L := by
          intro htype hE
          have hboth := Finset.mem_inter.2 ⟨hE, mem_applyBindings_toFinset.2 hmem⟩
          simpa only [Finset.mem_union, mem_applyBindings_toFinset] using hargs htype v hboth hv
        rw [decide_eq_true_iff, Finset.mem_union, mem_varsFreevars, hlive]
        clear hw ho hargs hfun hlive
        grind
      · rw [decide_eq_true_iff, decide_eq_true_iff]
    · exact ownRun_preprocessVars (fun hmem => hw (.inr (.inr hmem))) decide_eq_true_iff

/-- The references that are not live are consumed by the operands, once each. -/
theorem Flat.ownRun_operands {L : Finset Var} {n : Flat Var} {o w : Bool}
    (hcond : n.ConsumesOnce T E L B) (hv : T.isRef v = true)
    (hw : v ∈ n.operands.map (getAssoc B) → (w = true ↔ v ∈ L))
    (ho : o = true ↔ v ∈ n.operands.map (getAssoc B) ∨ w = true) :
    ownRun v o ((n.preprocess T E L B).operands.map Operand.event) = some w := by
  have hcount : w = false → v ∈ n.operands.map (getAssoc B) → v ∉ L := by
    intro hfalse hmem hL
    rw [(hw hmem).2 hL] at hfalse
    cases hfalse
  cases n with
  | operand x => exact ownRun_apart (l := [x]) hw ho (count_singleton_le x)
  | literal c => exact ownRun_preprocessVars (l := []) (L := L) hw ho
  | apply f params args => exact ownRun_apply hcond hv hw ho
  | record fields =>
    simp only [operands, preprocess, preprocessFields_snd] at hw ho ⊢
    exact ownRun_preprocessVars hw ho
  | arrayLiteral xs => exact ownRun_preprocessVars hw ho
  | get r f => exact ownRun_apart (l := [r]) hw ho (count_singleton_le r)
  | lookup a i =>
    refine ownRun_apart (l := [a, i]) hw ho fun hfalse => ?_
    by_cases hmem : v ∈ ([a, i] : List Var).map (getAssoc B)
    · exact hcond.2 v hmem hv (hcount hfalse hmem)
    · exact (List.count_eq_zero.2 hmem).trans_le (Nat.zero_le 1)
  | update t l r =>
    have hops : ((Flat.update t l r).preprocess T E L B).operands =
        ((Flat.update t l r).operands).map (preprocessVar L B) := by
      cases l <;> rfl
    rw [hops]
    refine ownRun_apart hw ho fun hfalse => ?_
    by_cases hmem : v ∈ ((Flat.update t l r).operands).map (getAssoc B)
    · exact hcond.2 v hmem hv (hcount hfalse hmem)
    · exact (List.count_eq_zero.2 hmem).trans_le (Nat.zero_le 1)

/-! ### Paths of expressions that are left as they were -/

theorem path_repeated {l : List Var} {p : List (OwnEvent Var) → Prop} {o : Bool} (hx : v ∉ l)
    (hp : ∀ q, p q → ownRun v o q = some o) {s : List (OwnEvent Var)}
    (hs : Repeated (fun r => ∃ q, p q ∧ r = l.map .bind ++ q) s) : ownRun v o s = some o := by
  refine ownRun_repeated ?_ hs
  rintro _ ⟨q, hq, rfl⟩
  exact ownRun_trans (ownRun_binds_of_notMem hx) (hp q hq)

theorem mem_highVars {high : Option Bound} : v ∈ highVars high ↔ v ∈ arrayExpected high := by
  cases high with
  | none => simp [highVars, arrayExpected]
  | some h => exact List.mem_toFinset.symm

/-- A reference that is not bound in an expression is only used on its paths. -/
theorem Expr.ownRun_path (e : Expr) {size : List Var} {o : Bool} (hbind : v ∉ e.binders)
    (hsize : v ∈ size → o = true) (ho : v ∈ e.free → o = true) {t : List (OwnEvent Var)}
    (ht : e.Path T size t) : ownRun v o t = some o := by
  induction e generalizing size t with
  | flat n =>
    rw [Path] at ht
    subst ht
    apply ownRun_trans
    · split
      · exact ownRun_uses hsize
      · rfl
    · exact ownRun_uses fun hmem => ho (List.mem_toFinset.2 hmem)
  | letIn lett x high a b iha ihb =>
    obtain ⟨r, s, hr, hs, rfl⟩ := ht
    simp only [binders, List.mem_cons, List.mem_append, not_or] at hbind
    simp only [free, Finset.mem_union, Finset.mem_erase] at ho
    apply ownRun_trans
    · exact iha hbind.2.1 (fun hmem => ho (.inl (.inl (mem_highVars.1 hmem))))
        (fun hmem => ho (.inl (.inr hmem))) hr
    · rw [ownRun_bind_of_ne (Ne.symm hbind.1)]
      exact ihb hbind.2.2 hsize (fun hmem => ho (.inr ⟨hbind.1, hmem⟩)) hs
  | lambda xs high b ih =>
    obtain ⟨s, hs, rfl⟩ := ht
    simp only [binders, List.mem_append, not_or] at hbind
    simp only [free, Finset.mem_sdiff, Finset.mem_union, List.mem_toFinset] at ho
    apply ownRun_trans (ownRun_uses hsize)
    refine path_repeated hbind.1 (fun q hq => ih hbind.2 ?_ ?_ hq) hs
    · exact fun hmem => ho ⟨.inl (mem_highVars.1 hmem), hbind.1⟩
    · exact fun hmem => ho ⟨.inr hmem, hbind.1⟩
  | forAll x low high b ih | exist x low high b ih =>
    obtain ⟨s, hs, rfl⟩ := ht
    simp only [binders, List.mem_cons, not_or] at hbind
    simp only [free, Finset.mem_union, Finset.mem_erase] at ho
    apply ownRun_trans (ownRun_uses fun hmem => ho (.inl (.inl (List.mem_toFinset.2 hmem))))
    apply ownRun_trans (ownRun_uses fun hmem => ho (.inl (.inr (List.mem_toFinset.2 hmem))))
    refine path_repeated (l := [x]) (by simpa using hbind.1) (fun q hq => ?_) hs
    exact ih hbind.2 (fun hmem => absurd hmem List.not_mem_nil)
      (fun hmem => ho (.inr ⟨hbind.1, hmem⟩)) hq
  | ift c a b iha ihb =>
    obtain ⟨s, hs, rfl⟩ := ht
    simp only [binders, List.mem_append, not_or] at hbind
    simp only [free, Finset.mem_union, Finset.mem_singleton] at ho
    apply ownRun_trans (s := [c].map .use)
    · exact ownRun_uses fun hmem => ho (.inl (List.mem_singleton.1 hmem))
    · rcases hs with hs | hs
      · exact iha hbind.1 hsize (fun hmem => ho (.inr (.inl hmem))) hs
      · exact ihb hbind.2 hsize (fun hmem => ho (.inr (.inr hmem))) hs

/-- No variable in scope is bound again. -/
theorem Expr.binders_notMem (e : Expr) (hws : e.WellScoped scope) : ∀ v ∈ e.binders, v ∉ scope := by
  induction e generalizing scope with
  | flat n =>
    intro v hv
    cases hv
  | letIn lett x high a b iha ihb =>
    obtain ⟨hx, -, ha, hb⟩ := hws
    intro v hv
    simp only [binders, List.mem_cons, List.mem_append] at hv
    rcases hv with rfl | hv | hv
    · exact hx
    · exact iha ha v hv
    · exact fun hmem => ihb hb v hv (Finset.mem_insert_of_mem hmem)
  | lambda xs high b ih =>
    obtain ⟨-, hdisj, -, hb⟩ := hws
    intro v hv
    rcases List.mem_append.1 hv with hv | hv
    · exact Finset.disjoint_left.1 hdisj (List.mem_toFinset.2 hv)
    · exact fun hmem => ih hb v hv (Finset.mem_union_left _ hmem)
  | forAll x low high b ih | exist x low high b ih =>
    obtain ⟨hx, -, -, hb⟩ := hws
    intro v hv
    rcases List.mem_cons.1 hv with rfl | hv
    · exact hx
    · exact fun hmem => ih hb v hv (Finset.mem_insert_of_mem hmem)
  | ift c a b iha ihb =>
    obtain ⟨-, ha, hb⟩ := hws
    intro v hv
    rcases List.mem_append.1 hv with hv | hv
    · exact iha ha v hv
    · exact ihb hb v hv

/-- What is counted as free after preprocessing is what remains. -/
theorem freevars_preprocessIr (e : Expr) (F E livevars : Finset Var) (B : Bindings) :
    (preprocessIr T E livevars B e).freevars T F = e.remaining T F E livevars B := by
  induction e generalizing F E livevars B with
  | flat n => rw [preprocessIr, Marked.freevars, Flat.preprocess_var, Expr.remaining]
  | letIn lett x high a b iha ihb =>
    by_cases hfree : x ∈ b.freevars T E
    · simp only [preprocessIr, Expr.remaining, if_pos hfree, operand?_preprocessIr]
      by_cases hbody : b = .flat (.operand x) ∧ T.isArraytype x = false
      · rw [if_pos hbody, if_pos hbody]
        exact iha _ _ _ _
      · rw [if_neg hbody, if_neg hbody]
        cases replacement T lett x (a.copyOf T (arrayExpected high)
            (applyBindings B (b.freevars T E) ∪ livevars) B) with
        | some y => exact ihb _ _ _ _
        | none => simp only [Marked.freevars, iha, ihb, arrayExpected_preprocess]
    · rw [preprocessIr, if_neg hfree, Expr.remaining, if_neg hfree]
      exact ihb _ _ _ _
  | lambda xs high b ih =>
    simp only [preprocessIr, Marked.freevars, Expr.remaining, ih, arrayExpected_preprocess]
  | forAll x low high b ih =>
    rw [preprocessIr, Expr.remaining]
    split
    · simp only [Marked.freevars, Bound.freevars_preprocess, ih]
    · exact ih _ _ _ _
  | exist x low high b ih => rfl
  | ift c a b iha ihb =>
    simp only [preprocessIr, Marked.freevars, freevars_mkIrRelease, Expr.remaining, iha, ihb,
      preprocessVar]

/-! ### Ownership on the paths of preprocessed expressions -/

theorem ownRun_of_iff {s s' l : Finset Var} {t : List (OwnEvent Var)} (h : v ∈ s ↔ v ∈ s')
    (ht : ownRun v (decide (v ∈ s')) t = some (decide (v ∈ l))) :
    ownRun v (decide (v ∈ s)) t = some (decide (v ∈ l)) := by
  rwa [decide_eq_decide.2 h]

/-- Variables that are bound are owned after it, and consumed where they leave their scope. -/
theorem ownRun_binds {l : List Var} {s r : Finset Var} {t : List (OwnEvent Var)}
    (hnodup : l.Nodup) (hdisj : Disjoint l.toFinset scope) (hs : v ∈ l → v ∈ s)
    (hl : v ∈ l → v ∉ r)
    (ht : ownRun v (decide (v ∈ s ∩ (scope ∪ l.toFinset))) t =
      some (decide (v ∈ r ∩ (scope ∪ l.toFinset)))) :
    ownRun v (decide (v ∈ s ∩ scope)) (l.map .bind ++ t) = some (decide (v ∈ r ∩ scope)) := by
  simp only [Finset.mem_inter, Finset.mem_union, List.mem_toFinset] at ht ⊢
  by_cases hx : v ∈ l
  · have hscope : v ∉ scope := Finset.disjoint_left.1 hdisj (List.mem_toFinset.2 hx)
    simp only [hx, hs hx, hl hx, hscope, or_true, and_true, and_false, decide_true,
      decide_false] at ht ⊢
    exact ownRun_trans (ownRun_binds_of_mem hnodup hx) ht
  · simp only [hx, or_false] at ht
    exact ownRun_trans (ownRun_binds_of_notMem hx) ht

theorem insert_eq_union (x : Var) (s : Finset Var) : insert x s = s ∪ [x].toFinset := by
  rw [Finset.insert_eq, Finset.union_comm]
  rfl

theorem disjoint_singleton (hx : x ∉ scope) : Disjoint [x].toFinset scope :=
  Finset.disjoint_singleton_left.2 hx

theorem ownRun_bind {s l : Finset Var} {t : List (OwnEvent Var)} (hx : x ∉ scope)
    (hs : v = x → v ∈ s) (hl : x ∉ l)
    (ht : ownRun v (decide (v ∈ s ∩ insert x scope)) t = some (decide (v ∈ l ∩ insert x scope))) :
    ownRun v (decide (v ∈ s ∩ scope)) (.bind x :: t) = some (decide (v ∈ l ∩ scope)) := by
  rw [insert_eq_union] at ht
  refine ownRun_binds (l := [x]) (List.nodup_singleton x) (disjoint_singleton hx) ?_ ?_ ht
  · exact fun hv => hs (List.mem_singleton.1 hv)
  · intro hv
    rwa [List.mem_singleton.1 hv]

/-- The variables that are released are those that are owned before and not after. -/
theorem ownRun_release {l : List Var} {s r : Finset Var} {t : List (OwnEvent Var)} {o : Option Bool}
    (hl : l.Nodup) (hs : v ∈ s ↔ v ∈ l.toFinset ∨ v ∈ r) (hr : v ∈ l.toFinset → v ∉ r)
    (ht : ownRun v (decide (v ∈ r)) t = o) :
    ownRun v (decide (v ∈ s)) (l.map .consume ++ t) = o := by
  by_cases hv : v ∈ l
  · have hv' := List.mem_toFinset.2 hv
    rw [decide_eq_true (hs.2 (.inl hv'))]
    rw [decide_eq_false (hr hv')] at ht
    exact ownRun_trans (ownRun_consumes_of_mem hl hv) ht
  · have hiff : v ∈ s ↔ v ∈ r := by
      rw [hs]
      exact or_iff_right fun hmem => hv (List.mem_toFinset.1 hmem)
    rw [decide_eq_decide.2 hiff]
    exact ownRun_trans (ownRun_consumes_of_notMem hv) ht

theorem path_mkIrRelease {s : Finset Var} {p : Marked} {size : List Var} {t : List (OwnEvent Var)}
    (ht : (mkIrRelease s p).Path T size t) :
    ∃ (l : List Var) (q : List (OwnEvent Var)), p.Path T size q ∧ l.Nodup ∧ l.toFinset = s ∧
      t = l.map .consume ++ q := by
  rw [mkIrRelease] at ht
  split at ht
  · rename_i hs
    exact ⟨[], t, ht, List.nodup_nil, hs.symm, rfl⟩
  · obtain ⟨l, l', q, hq, hl, hs, -, hpost, rfl⟩ := ht
    obtain rfl : l' = [] := List.toFinset_eq_empty_iff l' |>.1 hpost
    exact ⟨l, q, hq, hl, hs, by rw [List.map_nil, List.append_nil]⟩

theorem Renames.mem_apply_iff (h : Renames scope B) {s r : Finset Var} (hr : Disjoint r scope) :
    v ∈ applyBindings B s ↔ v ∈ r ∧ v ∈ s ∨ v ∈ applyBindings B (s \ r) := by
  constructor
  · intro hv
    obtain ⟨w, hw, rfl⟩ := mem_applyBindings.1 hv
    by_cases hwr : w ∈ r
    · rw [h.outside w (Finset.disjoint_left.1 hr hwr)]
      exact .inl ⟨hwr, hw⟩
    · exact .inr (mem_applyBindings.2 ⟨w, Finset.mem_sdiff.2 ⟨hw, hwr⟩, rfl⟩)
  · rintro (⟨hvr, hvs⟩ | hv)
    · exact mem_applyBindings.2 ⟨v, hvs, h.outside v (Finset.disjoint_left.1 hr hvr)⟩
    · exact applyBindings_subset Finset.sdiff_subset hv

theorem Renames.mem_apply_erase (h : Renames scope B) {s : Finset Var} (hx : x ∉ scope) :
    v ∈ applyBindings B s ↔ v = x ∧ x ∈ s ∨ v ∈ applyBindings B (s.erase x) := by
  rw [h.mem_apply_iff (disjoint_singleton hx), Finset.erase_eq]
  simp only [List.toFinset_cons, List.toFinset_nil, insert_empty_eq, Finset.mem_singleton]
  grind

theorem Renames.apply_mem_scope (h : Renames scope B) {s : Finset Var} (hs : s ⊆ scope)
    (hv : v ∈ applyBindings B s) : v ∈ scope := h.subset (applyBindings_subset hs hv)

end PVS.GroundEval.IR
