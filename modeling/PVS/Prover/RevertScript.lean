import PVS.Prover.Script
import Mathlib.Tactic.Common

/-! What a script says, and what `revert-justification` can make of an edited one. -/

namespace PVS.Prover

open Sexp

attribute [local simp] revertJustification revertEach

theorem Justification.induct {P : Justification → Prop}
    (h : ∀ label rule subgoals comment, (∀ k ∈ subgoals, P k) → P (.mk label rule subgoals comment)) :
    ∀ j, P j :=
  Justification.rec (motive_2 := fun js => ∀ k ∈ js, P k) h (fun _ hk => nomatch hk)
    fun _ _ hj hjs => List.forall_mem_cons.2 ⟨hj, hjs⟩

/-! ### What a script says -/

mutual

/-- The slots of the s-expression are those of the justification. -/
def IsScript : Justification → Sexp → Prop
  | .mk label rule subgoals comment, s => s.label = some (.str label) ∧ s.rule = some rule ∧
    (∃ t, s.subgoals = some t ∧ AreScripts subgoals t) ∧ s.comment = some (commentSexp comment)

def AreScripts : List Justification → Sexp → Prop
  | [], s => s = .nil
  | j :: js, s => ∃ a d, s = .cons a d ∧ IsScript j a ∧ AreScripts js d

end

/-- Two s-expressions are the same script. -/
def SameScript (s s' : Sexp) : Prop := ∃ j, IsScript j s ∧ IsScript j s'

theorem sexpUnparse_eq (s : Sexp) : sexpUnparse s = s := by
  induction s with
  | cons a d iha ihd => rw [sexpUnparse, iha, ihd]
  | _ => rfl

@[simp] theorem areScripts_nil {s : Sexp} : AreScripts [] s ↔ s = .nil := by rw [AreScripts]

@[simp] theorem areScripts_cons {j : Justification} {js : List Justification} {a d : Sexp} :
    AreScripts (j :: js) (.cons a d) ↔ IsScript j a ∧ AreScripts js d := by
  rw [AreScripts]
  constructor
  · rintro ⟨a', d', e, h⟩
    cases e
    exact h
  · exact fun h => ⟨a, d, rfl, h⟩

theorem AreScripts.cases {j : Justification} {js : List Justification} {s : Sexp}
    (h : AreScripts (j :: js) s) : ∃ a d, s = .cons a d ∧ IsScript j a ∧ AreScripts js d := by
  rwa [AreScripts] at h

theorem not_isScript_of_not_consp {j : Justification} {s : Sexp} (hs : s.consp = false) :
    ¬ IsScript j s := by
  obtain ⟨l, r, subgoals, c⟩ := j
  rw [IsScript]
  rintro ⟨hlabel, -, -, hcomment⟩
  cases s with
  | cons a d => cases hs
  | nil => cases hlabel
  | _ => cases hcomment

section

variable {a u v t : Sexp} {l : String} {r : Sexp} {subgoals : List Justification} {c : Option String}

/-- An entry of a script has a label in front of its rule and its subgoals. -/
theorem isScript_entry (ha : a.listp = false) :
    IsScript (.mk l r subgoals c) (.cons a (.cons u (.cons v t))) ↔
      a = .str l ∧ u = r ∧ AreScripts subgoals v ∧ t.car = some (commentSexp c) := by
  rw [IsScript]
  simp [Sexp.label, Sexp.rule, Sexp.subgoals, Sexp.comment, ha, cadr, caddr, Sexp.cdr, Sexp.car]

theorem label_of_isScript (h : IsScript (.mk l r subgoals c) (.cons a (.cons u t))) :
    a = .str l ∨ a.listp = true ∧ u = .str l := by
  rw [IsScript] at h
  cases ha : a.listp with
  | false => exact .inl (by simpa [Sexp.label, ha] using h.1)
  | true => exact .inr ⟨rfl, by simpa [Sexp.label, ha, Sexp.car] using h.1⟩

end

theorem isScript_extract (j : Justification) : IsScript j (extractJustificationSexp j) := by
  induction j using Justification.induct with
  | h l r subgoals c ih =>
    have hall : AreScripts subgoals (extractAll subgoals) := by
      induction subgoals with
      | nil => exact areScripts_nil.2 rfl
      | cons k ks ihks =>
        obtain ⟨hk, hks⟩ := List.forall_mem_cons.1 ih
        exact areScripts_cons.2 ⟨hk, ihks hks⟩
    rw [extractJustificationSexp, sexpUnparse_eq]
    exact (isScript_entry rfl).2 ⟨rfl, rfl, hall, rfl⟩

theorem commentSexp_injective : Function.Injective commentSexp := by
  intro c c' h
  cases c <;> cases c' <;> simp_all [commentSexp]

theorem IsScript.unique {j j' : Justification} {s : Sexp} (h : IsScript j s) (h' : IsScript j' s) :
    j = j' := by
  induction j using Justification.induct generalizing j' s with
  | h l r subgoals c ih =>
    obtain ⟨l', r', subgoals', c'⟩ := j'
    rw [IsScript] at h h'
    obtain ⟨hl, hr, ⟨t, ht, hall⟩, hc⟩ := h
    obtain ⟨hl', hr', ⟨t', ht', hall'⟩, hc'⟩ := h'
    obtain rfl : l = l' := by simpa [hl] using hl'
    obtain rfl : r = r' := by simpa [hr] using hr'
    obtain rfl : t = t' := by simpa [ht] using ht'
    obtain rfl : c = c' := commentSexp_injective (by simpa [hc] using hc')
    have hsubgoals : subgoals = subgoals' := by
      clear ht ht'
      induction subgoals generalizing t subgoals' with
      | nil =>
        obtain rfl := areScripts_nil.1 hall
        cases subgoals' with
        | nil => rfl
        | cons k' ks' =>
          obtain ⟨a, d, e, -⟩ := hall'.cases
          cases e
      | cons k ks ihks =>
        obtain ⟨a, d, rfl, hk, hks⟩ := hall.cases
        cases subgoals' with
        | nil => cases areScripts_nil.1 hall'
        | cons k' ks' =>
          obtain ⟨hk', hks'⟩ := areScripts_cons.1 hall'
          obtain ⟨ihk, ihrest⟩ := List.forall_mem_cons.1 ih
          rw [ihk hk hk', ihks ihrest _ _ hks hks']
    rw [hsubgoals]

theorem sameScript_extract_iff {j : Justification} {s : Sexp} :
    SameScript s (extractJustificationSexp j) ↔ IsScript j s := by
  constructor
  · rintro ⟨j', hs, hj⟩
    rwa [(isScript_extract j).unique hj]
  · exact fun h => ⟨j, h, isScript_extract j⟩

/-! ### What `revert-justification` makes -/

section

variable {label top rest s : Sexp}

theorem revert_of_not_consp (hs : s.consp = false) {t : Sexp}
    (h : revertJustification s label = some t) : s = .nil ∧ t = .nil := by
  cases s with
  | cons a d => cases hs
  | nil =>
    rw [revertJustification] at h
    exact ⟨rfl, (Option.some.inj h).symm⟩
  | _ => simp [revertJustification] at h

theorem singleton_eq_some {s x : Sexp} (h : s.singleton = some x) : s = .cons x .nil := by
  cases s with
  | cons a d =>
    cases d with
    | nil =>
      rw [Option.some.inj h]
    | _ => cases h
  | _ => cases h

/-- With no label given. -/
theorem revert_first_cases (h : revertJustification (.cons top rest) .nil = some s) :
    (rest = .nil ∧ s = ofList [top, .nil, .nil]) ∨
    (∃ second rest' t, rest = .cons second rest' ∧ second.listp = true ∧
      revertJustification rest' top = some t ∧ s = ofList [top, unformatRule second, t]) ∨
    (∃ second rest' x, rest = .cons second rest' ∧ second.listp = false ∧
      revertJustification rest' top = some (.cons x .nil) ∧ x.append (ofList [second]) = some s) := by
  rw [revertJustification.eq_def] at h
  simp only [if_true] at h
  cases rest with
  | nil => exact .inl ⟨rfl, (Option.some.inj h).symm⟩
  | cons second rest =>
    cases hlist : second.listp with
    | true =>
      simp only [hlist, if_true, Option.bind_eq_bind, Option.bind_eq_some_iff] at h
      obtain ⟨t, ht, h⟩ := h
      exact .inr (.inl ⟨second, rest, t, rfl, hlist, ht, (Option.some.inj h).symm⟩)
    | false =>
      simp only [hlist, Bool.false_eq_true, if_false, Option.bind_eq_bind,
        Option.bind_eq_some_iff] at h
      obtain ⟨rjust, ht, x, hx, h⟩ := h
      rw [singleton_eq_some hx] at ht
      exact .inr (.inr ⟨second, rest, x, rfl, hlist, ht, h⟩)
  | _ => cases h

/-- A rule application: a list with no list in front. -/
def isStep : Sexp → Bool
  | .cons (.cons _ _) _ => false
  | .cons _ _ => true
  | _ => false

/-- With the label of the node above. -/
theorem revert_step_cases (hlabel : label ≠ .nil)
    (h : revertJustification (.cons top rest) label = some s) :
    (top.consp = true ∧ isStep top = false ∧ revertEach top = some s) ∨
    (∃ t, isStep top = true ∧ revertJustification rest label = some t ∧
      s = ofList [ofList [label, unformatRule top, t]]) ∨
    (top.consp = false ∧ revertJustification rest label = some s) ∨
    (∃ c t, top = .str c ∧ revertJustification rest label = some t ∧
      t.append (ofList [.str c]) = some s) := by
  rw [revertJustification.eq_def] at h
  simp only [if_neg hlabel] at h
  cases top with
  | nil => exact .inr (.inr (.inl ⟨rfl, h⟩))
  | str c =>
    simp only [Option.bind_eq_bind] at h
    split at h
    · exact .inr (.inr (.inl ⟨rfl, h⟩))
    · obtain ⟨t, ht, h⟩ := Option.bind_eq_some_iff.1 h
      exact .inr (.inr (.inr ⟨c, t, rfl, ht, h⟩))
  | cons a d =>
    cases a with
    | cons x y => exact .inl ⟨rfl, rfl, h⟩
    | _ =>
      obtain ⟨t, ht, h⟩ := Option.bind_eq_some_iff.1 h
      exact .inr (.inl ⟨t, rfl, ht, (Option.some.inj h).symm⟩)
  | _ => cases h

theorem revert_step (hlabel : label ≠ .nil) (hstep : isStep top = true) :
    revertJustification (.cons top rest) label =
      (revertJustification rest label).map fun t => ofList [ofList [label, unformatRule top, t]] := by
  rw [revertJustification.eq_def]
  simp only [if_neg hlabel]
  cases top with
  | cons a d =>
    cases a with
    | cons x y => cases hstep
    | _ => cases h : revertJustification rest label <;> simp
  | _ => cases hstep

theorem revertEach_of_not_consp (hs : s.consp = false) {t : Sexp} (h : revertEach s = some t) :
    t = .nil := by
  cases s with
  | cons a d => cases hs
  | nil =>
    rw [revertEach] at h
    exact (Option.some.inj h).symm
  | _ => simp [revertEach] at h

theorem revertEach_eq_some {e es : Sexp} (h : revertEach (.cons e es) = some s) :
    ∃ a d, s = .cons a d ∧ revertJustification e .nil = some a ∧ revertEach es = some d := by
  rw [revertEach] at h
  obtain ⟨a, ha, h⟩ := Option.bind_eq_some_iff.1 h
  obtain ⟨d, hd, h⟩ := Option.bind_eq_some_iff.1 h
  exact ⟨a, d, (Option.some.inj h).symm, ha, hd⟩

end

/-! ### The rules of a script -/

/-- How deep the lists are nested. -/
def Sexp.depth : Sexp → ℕ
  | .cons a d => max (a.depth + 1) d.depth
  | _ => 0

theorem depth_le_cons (a d : Sexp) : d.depth ≤ (Sexp.cons a d).depth := by
  rw [depth]
  omega

theorem listp_of_isStep {s : Sexp} (h : isStep s = true) : s.listp = true := by
  cases s with
  | cons a d => rfl
  | _ => cases h

theorem typeForm_eq_some {a d t : Sexp} (h : typeForm a d = some t) : ∃ k type,
    d = ofList [.sym k, type] ∧ t = ofList [.sym "typechecked", a, type] ∧ ∃ s, a = .str s := by
  unfold typeForm at h
  split at h
  · split at h
    · exact ⟨_, _, rfl, (Option.some.inj h).symm, _, rfl⟩
    · cases h
  · cases h

theorem depth_unformatRule (s : Sexp) : (unformatRule s).depth = s.depth := by
  induction s with
  | cons a d iha ihd =>
    rw [unformatRule]
    cases h : typeForm a d with
    | none => rw [Option.getD_none, depth, depth, iha, ihd]
    | some t =>
      obtain ⟨k, type, rfl, rfl, s, rfl⟩ := typeForm_eq_some h
      simp [ofList, depth]
  | _ => rfl

theorem consp_unformatRule (s : Sexp) : (unformatRule s).consp = s.consp := by
  cases s with
  | cons a d =>
    rw [unformatRule]
    cases h : typeForm a d with
    | none => rfl
    | some t =>
      obtain ⟨k, type, rfl, rfl, s, rfl⟩ := typeForm_eq_some h
      rfl
  | _ => rfl

theorem listp_eq (s : Sexp) : s.listp = (s == .nil || s.consp) := by
  cases s <;> rfl

theorem listp_unformatRule (s : Sexp) : (unformatRule s).listp = s.listp := by
  cases s with
  | cons a d =>
    rw [listp_eq, consp_unformatRule]
    exact Bool.or_true _
  | _ => rfl

theorem depth_car_le {s a : Sexp} (h : s.car = some a) : a.depth ≤ s.depth - 1 := by
  cases s with
  | cons b d =>
    cases h
    rw [depth]
    omega
  | nil =>
    cases h
    exact Nat.zero_le _
  | _ => cases h

theorem depth_cadr_le {s a : Sexp} (h : s.cadr = some a) : a.depth ≤ s.depth - 1 := by
  cases s with
  | cons b d =>
    have hd := depth_car_le h
    rw [depth]
    omega
  | nil =>
    cases h
    exact Nat.zero_le _
  | _ => cases h

theorem depth_formatRule {r f : Sexp} (h : formatRule r = some f) : f.depth ≤ r.depth := by
  induction r generalizing f with
  | cons a d iha ihd =>
    by_cases htyped : a = .sym "typechecked"
    · subst htyped
      rw [formatRule] at h
      obtain ⟨form, hform, h⟩ := Option.bind_eq_some_iff.1 h
      obtain ⟨type, htype, h⟩ := Option.bind_eq_some_iff.1 h
      obtain rfl := Option.some.inj h
      have hform := depth_car_le hform
      have htype := depth_cadr_le htype
      simp only [ofList, depth]
      omega
    · rw [formatRule.eq_3 _ _ htyped] at h
      obtain ⟨a', ha, h⟩ := Option.bind_eq_some_iff.1 h
      obtain ⟨d', hd, h⟩ := Option.bind_eq_some_iff.1 h
      obtain rfl := Option.some.inj h
      have ha := iha ha
      have hd := ihd hd
      simp only [depth]
      omega
  | _ =>
    obtain rfl := Option.some.inj h
    exact Nat.le_refl _

/-- The rule of a node of the justification. -/
inductive HasRule (r : Sexp) : Justification → Prop
  | root (label : String) (subgoals : List Justification) (comment : Option String) :
    HasRule r (.mk label r subgoals comment)
  | sub {label : String} {rule : Sexp} {subgoals : List Justification} {comment : Option String}
    {k : Justification} (hk : k ∈ subgoals) (h : HasRule r k) :
    HasRule r (.mk label rule subgoals comment)

/-- An entry that is made: a label, a list as the rule, the subgoals. -/
def Entry (x : Sexp) : Prop := ∃ a u v t, x = .cons a (.cons u (.cons v t)) ∧ u.listp = true

theorem Entry.isScript_of_append {x s b : Sexp} (hx : Entry x) (h : x.append (ofList [b]) = some s)
    {l : String} {r : Sexp} {subgoals : List Justification} {c : Option String}
    (hs : IsScript (.mk l r subgoals c) s) : ∃ c', IsScript (.mk l r subgoals c') x := by
  obtain ⟨a, u, v, t, rfl, hu⟩ := hx
  simp only [append, Option.map_map, Option.map_eq_some_iff] at h
  obtain ⟨t', ht, rfl⟩ := h
  rcases label_of_isScript hs with rfl | ⟨-, rfl⟩
  · obtain ⟨-, hr, hv, hc⟩ := (isScript_entry rfl).1 hs
    cases t with
    | nil => exact ⟨none, (isScript_entry rfl).2 ⟨rfl, hr, hv, rfl⟩⟩
    | cons t₁ t₂ =>
      obtain ⟨t₃, -, rfl⟩ := Option.map_eq_some_iff.1 ht
      exact ⟨c, (isScript_entry rfl).2 ⟨rfl, hr, hv, hc⟩⟩
    | _ => cases ht
  · cases hu

theorem Sexp.sizeOf_car_lt (a d : Sexp) : sizeOf a < sizeOf (Sexp.cons a d) := by
  rw [Sexp.cons.sizeOf_spec]
  omega

theorem Sexp.sizeOf_cdr_lt (a d : Sexp) : sizeOf d < sizeOf (Sexp.cons a d) := by
  rw [Sexp.cons.sizeOf_spec]
  omega

theorem Sexp.sizeOf_cddr_lt (a b d : Sexp) : sizeOf d < sizeOf (Sexp.cons a (Sexp.cons b d)) :=
  (sizeOf_cdr_lt b d).trans (sizeOf_cdr_lt a _)

theorem Sexp.sizeInduct {P : Sexp → Prop} (h : ∀ e, (∀ e', sizeOf e' < sizeOf e → P e') → P e)
    (e : Sexp) : P e :=
  (measure sizeOf).wf.induction e h

/-- What is made of one node is an entry. -/
theorem revert_entry (e : Sexp) :
    (∀ s, e.consp = true → revertJustification e .nil = some s → Entry s) ∧
    (∀ label x, label ≠ .nil → revertJustification e label = some (.cons x .nil) →
      Entry x ∨ ∃ c, x = .str c) := by
  induction e using Sexp.sizeInduct with
  | h e ih =>
    cases e with
    | cons top rest =>
      refine ⟨fun s _ h => ?_, fun label x hlabel h => ?_⟩
      · rcases revert_first_cases h with ⟨-, rfl⟩ | ⟨second, rest, t, rfl, hlist, -, rfl⟩ |
          ⟨second, rest, x, rfl, hlist, hrest, h⟩
        · exact ⟨_, _, _, _, rfl, rfl⟩
        · exact ⟨_, _, _, _, rfl, (listp_unformatRule _).trans hlist⟩
        · have ihrest := ih rest (sizeOf_cddr_lt _ _ _)
          have hentry : Entry x := by
            by_cases htop : top = .nil
            · subst htop
              cases hcons : rest.consp with
              | true =>
                obtain ⟨a, u, v, t, e, -⟩ := ihrest.1 _ hcons hrest
                cases e
              | false => cases (revert_of_not_consp hcons hrest).2
            · rcases ihrest.2 _ _ htop hrest with hx | ⟨c, rfl⟩
              · exact hx
              · cases h
          obtain ⟨a, u, v, t, rfl, hu⟩ := hentry
          simp only [append, Option.map_map, Option.map_eq_some_iff] at h
          obtain ⟨t', -, rfl⟩ := h
          exact ⟨_, _, _, _, rfl, hu⟩
      · rcases revert_step_cases hlabel h with ⟨hcons, hstep, h⟩ | ⟨t, hstep, -, h⟩ | ⟨-, h⟩ |
          ⟨c, t, -, -, h⟩
        · cases top with
          | cons a d =>
            cases a with
            | cons a₁ a₂ =>
              obtain ⟨x', d', e, hx, -⟩ := revertEach_eq_some h
              obtain ⟨rfl, -⟩ : x = x' ∧ Sexp.nil = d' := by simpa using e
              exact .inl ((ih _ ((sizeOf_car_lt _ _).trans (sizeOf_car_lt _ _))).1 _ rfl hx)
            | _ => cases hstep
          | _ => cases hcons
        · obtain rfl : x = _ := by simpa [ofList] using h
          refine .inl ⟨_, _, _, _, rfl, ?_⟩
          rw [listp_unformatRule]
          cases top with
          | cons a d => rfl
          | _ => cases hstep
        · exact (ih _ (sizeOf_cdr_lt _ _)).2 _ _ hlabel h
        · cases t with
          | nil =>
            obtain rfl : Sexp.str c = x := by simpa [append, ofList] using h
            exact .inr ⟨c, rfl⟩
          | cons a d =>
            obtain ⟨d', hd, e⟩ := Option.map_eq_some_iff.1 h
            obtain ⟨-, rfl⟩ : a = x ∧ d' = Sexp.nil := by simpa using e
            cases d with
            | nil => cases hd
            | cons a₁ d₁ =>
              obtain ⟨_, -, e⟩ := Option.map_eq_some_iff.1 hd
              cases e
            | _ => cases hd
          | _ => cases h
    | _ =>
      refine ⟨fun s hcons => ?_, fun label x hlabel h => ?_⟩
      · cases hcons
      · cases (revert_of_not_consp rfl h).2

/-- The rules are lists, and come from inside `e`. -/
structure RulesFrom (e : Sexp) (j : Justification) : Prop where
  listp : j.rule.listp = true
  depth : ∀ r, HasRule r j → r.depth < e.depth

theorem RulesFrom.mono {e e' : Sexp} {j : Justification} (h : RulesFrom e j)
    (hdepth : e.depth ≤ e'.depth) : RulesFrom e' j :=
  ⟨h.listp, fun r hr => (h.depth r hr).trans_le hdepth⟩

theorem RulesFrom.of_node {e r : Sexp} {subgoals : List Justification} (hlist : r.listp = true)
    (hdepth : r.depth < e.depth) (hsubgoals : ∀ k ∈ subgoals, RulesFrom e k) (l : String)
    (c : Option String) : RulesFrom e (.mk l r subgoals c) := by
  refine ⟨hlist, fun r' hr' => ?_⟩
  cases hr' with
  | root => exact hdepth
  | sub hk h => exact (hsubgoals _ hk).depth _ h

theorem HasRule.of_comment {r r' : Sexp} {l : String} {subgoals : List Justification}
    {c : Option String} (h : HasRule r' (.mk l r subgoals c)) (c' : Option String) :
    HasRule r' (.mk l r subgoals c') := by
  cases h with
  | root => exact .root ..
  | sub hk h => exact .sub hk h

theorem areScripts_of_nil {js : List Justification} (h : AreScripts js .nil) : js = [] := by
  cases js with
  | nil => rfl
  | cons j js =>
    obtain ⟨_, _, e, -⟩ := h.cases
    cases e

theorem not_areScripts_append {t s : Sexp} {c : String} (h : t.append (ofList [.str c]) = some s)
    (js : List Justification) : ¬ AreScripts js s := by
  induction t generalizing s js with
  | nil =>
    obtain rfl : ofList [.str c] = s := by simpa [append] using h
    cases js with
    | nil => exact fun hs => by cases areScripts_nil.1 hs
    | cons k ks => exact fun hs => not_isScript_of_not_consp rfl (areScripts_cons.1 hs).1
  | cons a d _ ih =>
    obtain ⟨d', hd, rfl⟩ := Option.map_eq_some_iff.1 h
    cases js with
    | nil => exact fun hs => by cases areScripts_nil.1 hs
    | cons k ks => exact fun hs => ih hd ks (areScripts_cons.1 hs).2
  | _ => cases h

theorem revert_rules (e : Sexp) :
    (∀ label s js, label ≠ .nil → revertJustification e label = some s → AreScripts js s →
      ∀ k ∈ js, RulesFrom e k) ∧
    (∀ s j, revertJustification e .nil = some s → IsScript j s → RulesFrom e j) ∧
    (∀ s js, revertEach e = some s → AreScripts js s → ∀ k ∈ js, RulesFrom e k) := by
  induction e using Sexp.sizeInduct with
  | h e ih =>
    cases e with
    | cons top rest =>
      refine ⟨fun label s js hlabel h hs => ?_, fun s j h hs => ?_, fun s js h hs => ?_⟩
      · rcases revert_step_cases hlabel h with ⟨-, -, h⟩ | ⟨t, hstep, ht, rfl⟩ | ⟨-, h⟩ |
          ⟨c, t, -, -, h⟩
        · have htop : top.depth ≤ (Sexp.cons top rest).depth := by
            rw [depth]
            omega
          exact fun k hk => ((ih _ (sizeOf_car_lt _ _)).2.2 _ _ h hs k hk).mono htop
        · have ihrest := (ih rest (sizeOf_cdr_lt _ _)).1
          cases js with
          | nil => exact fun k hk => nomatch hk
          | cons k ks =>
            obtain ⟨hk, hks⟩ := areScripts_cons.1 hs
            obtain ⟨l, r, subgoals, c⟩ := k
            have hlist : (unformatRule top).listp = true := by
              rw [listp_unformatRule]
              exact listp_of_isStep hstep
            have hnode : RulesFrom (.cons top rest) (.mk l r subgoals c) := by
              rcases label_of_isScript hk with rfl | ⟨-, e⟩
              · obtain ⟨-, rfl, hsubgoals, -⟩ := (isScript_entry rfl).1 hk
                refine .of_node hlist ?_ (fun k hk => ?_) l c
                · rw [depth_unformatRule, depth]
                  omega
                · exact (ihrest _ _ _ hlabel ht hsubgoals k hk).mono (depth_le_cons _ _)
              · rw [e] at hlist
                cases hlist
            cases ks with
            | nil => exact List.forall_mem_singleton.2 hnode
            | cons k' ks' =>
              obtain ⟨_, _, e, -⟩ := hks.cases
              cases e
        · exact fun k hk =>
            ((ih _ (sizeOf_cdr_lt _ _)).1 _ _ _ hlabel h hs k hk).mono (depth_le_cons _ _)
        · exact absurd hs (not_areScripts_append h js)
      · obtain ⟨l, r, subgoals, c⟩ := j
        rcases revert_first_cases h with ⟨rfl, rfl⟩ | ⟨second, rest, t, rfl, hlist, ht, rfl⟩ |
          ⟨second, rest, x, rfl, hlist, hrest, h⟩
        · rcases label_of_isScript hs with rfl | ⟨-, e⟩
          · obtain ⟨-, rfl, hsubgoals, -⟩ := (isScript_entry rfl).1 hs
            refine .of_node rfl (by simp [depth]) (fun k hk => ?_) l c
            cases subgoals with
            | nil => cases hk
            | cons k' ks =>
              obtain ⟨_, _, e, -⟩ := hsubgoals.cases
              cases e
          · cases e
        · rcases label_of_isScript hs with rfl | ⟨-, e⟩
          · obtain ⟨-, rfl, hsubgoals, -⟩ := (isScript_entry rfl).1 hs
            refine .of_node ((listp_unformatRule _).trans hlist) ?_ (fun k hk => ?_) l c
            · rw [depth_unformatRule, depth, depth]
              omega
            · exact ((ih rest (sizeOf_cddr_lt _ _ _)).1 _ _ _ (by simp) ht hsubgoals k hk).mono
                ((depth_le_cons _ _).trans (depth_le_cons _ _))
          · rw [← listp_unformatRule, e] at hlist
            cases hlist
        · have htop : top ≠ .nil := by
            rintro rfl
            cases hcons : rest.consp with
            | true =>
              obtain ⟨a, u, v, t, e, -⟩ := (revert_entry rest).1 _ hcons hrest
              cases e
            | false => cases (revert_of_not_consp hcons hrest).2
          have hentry : Entry x := by
            rcases (revert_entry rest).2 _ _ htop hrest with hx | ⟨c, rfl⟩
            · exact hx
            · cases h
          obtain ⟨c', hx⟩ := hentry.isScript_of_append h hs
          have hrules : RulesFrom rest (.mk l r subgoals c') :=
            (ih rest (sizeOf_cddr_lt _ _ _)).1 _ _ [.mk l r subgoals c'] htop hrest
              (areScripts_cons.2 ⟨hx, areScripts_nil.2 rfl⟩) _ (List.mem_singleton_self _)
          have hle : rest.depth ≤ (Sexp.cons top (.cons second rest)).depth :=
            (depth_le_cons _ _).trans (depth_le_cons _ _)
          exact ⟨hrules.listp, fun r' hr' => (hrules.depth _ (hr'.of_comment c')).trans_le hle⟩
      · obtain ⟨a, d, rfl, ha, hd⟩ := revertEach_eq_some h
        cases js with
        | nil => exact fun k hk => nomatch hk
        | cons j js =>
          obtain ⟨hj, hjs⟩ := areScripts_cons.1 hs
          have htop : top.depth ≤ (Sexp.cons top rest).depth := by
            rw [depth]
            omega
          refine List.forall_mem_cons.2 ⟨?_, fun k hk => ?_⟩
          · exact ((ih top (sizeOf_car_lt _ _)).2.1 _ _ ha hj).mono htop
          · exact ((ih rest (sizeOf_cdr_lt _ _)).2.2 _ _ hd hjs k hk).mono (depth_le_cons _ _)
    | _ =>
      refine ⟨fun label s js _ h hs k hk => ?_, fun s j h hs => ?_, fun s js h hs k hk => ?_⟩
      · obtain ⟨-, rfl⟩ := revert_of_not_consp rfl h
        cases areScripts_of_nil hs
        cases hk
      · obtain ⟨-, rfl⟩ := revert_of_not_consp rfl h
        exact absurd hs (not_isScript_of_not_consp rfl)
      · obtain rfl := revertEach_of_not_consp rfl h
        cases areScripts_of_nil hs
        cases hk

end PVS.Prover
