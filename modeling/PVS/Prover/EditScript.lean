import Mathlib
import PVS.Prover.RevertScript

/-! Which scripts come back from an edit unchanged. -/

namespace PVS.Prover

open Sexp

/-! ### The edited form -/

section

variable {l : String} {r e : Sexp} {subgoals : List Justification} {c label : Option String}

def withComment (c : Option String) (e : Sexp) : Sexp :=
  match c with
  | some c => .cons (.str c) e
  | none => e

theorem editable_of_reruns (h : reruns r l = some true) :
    editableJustification (.mk l r subgoals c) label = r.cadr := by
  rw [editableJustification, h]
  rfl

theorem editable_eq (h : reruns r l = some false) :
    editableJustification (.mk l r subgoals c) label =
      (formatRule r).bind fun f => (editableSubgoals l subgoals).bind fun rest =>
        let e := withComment c (.cons f rest)
        some (if some l = label then e else .cons (.str l) e) := by
  rw [editableJustification, h]
  rfl

theorem editable_cases (h : editableJustification (.mk l r subgoals c) label = some e) :
    (reruns r l = some true ∧ r.cadr = some e) ∨
    (reruns r l = some false ∧ ∃ f rest, formatRule r = some f ∧
      editableSubgoals l subgoals = some rest ∧
      e = if some l = label then withComment c (.cons f rest)
        else .cons (.str l) (withComment c (.cons f rest))) := by
  cases hr : reruns r l with
  | none =>
    rw [editableJustification, hr] at h
    cases h
  | some b =>
    cases b with
    | true =>
      rw [editable_of_reruns hr] at h
      exact .inl ⟨rfl, h⟩
    | false =>
      rw [editable_eq hr] at h
      obtain ⟨f, hf, h⟩ := Option.bind_eq_some_iff.1 h
      obtain ⟨rest, hrest, h⟩ := Option.bind_eq_some_iff.1 h
      exact .inr ⟨rfl, f, rest, hf, hrest, (Option.some.inj h).symm⟩

theorem consp_formatRule {f : Sexp} (h : formatRule r = some f) :
    f.consp = r.consp ∧ (r.consp = false → f = r) := by
  cases r with
  | cons a d =>
    refine ⟨?_, fun h => nomatch h⟩
    by_cases htyped : a = .sym "typechecked"
    · subst htyped
      rw [formatRule] at h
      obtain ⟨form, -, h⟩ := Option.bind_eq_some_iff.1 h
      obtain ⟨type, -, h⟩ := Option.bind_eq_some_iff.1 h
      rw [← Option.some.inj h]
      rfl
    · rw [formatRule.eq_3 _ _ htyped] at h
      obtain ⟨a', -, h⟩ := Option.bind_eq_some_iff.1 h
      obtain ⟨d', -, h⟩ := Option.bind_eq_some_iff.1 h
      rw [← Option.some.inj h]
      rfl
  | _ =>
    obtain rfl := Option.some.inj h
    exact ⟨rfl, fun _ => rfl⟩

theorem depth_lt_of_reruns (h : reruns r l = some true) (he : r.cadr = some e) :
    e.depth < r.depth := by
  have hle := depth_cadr_le he
  cases r with
  | cons a d =>
    rw [depth] at hle ⊢
    omega
  | _ => cases h

/-- A step of a chain, and the steps below it. -/
theorem areScripts_step_iff {f rest : Sexp} {l' : String} (hstep : isStep f = true) :
    (∃ s, revertJustification (.cons f rest) (.str l) = some s ∧
      AreScripts [.mk l' r subgoals c] s) ↔ l' = l ∧ unformatRule f = r ∧ c = none ∧
        ∃ t, revertJustification rest (.str l) = some t ∧ AreScripts subgoals t := by
  rw [revert_step (by simp) hstep]
  constructor
  · rintro ⟨s, h, hs⟩
    obtain ⟨t, ht, rfl⟩ := Option.map_eq_some_iff.1 h
    obtain ⟨hl, hr, hsubgoals, hc⟩ := (isScript_entry rfl).1 (areScripts_cons.1 hs).1
    refine ⟨(Sexp.str.inj hl).symm, hr, ?_, t, ht, hsubgoals⟩
    exact commentSexp_injective (Option.some.inj hc).symm
  · rintro ⟨rfl, hr, rfl, t, ht, hsubgoals⟩
    refine ⟨_, Option.map_eq_some_iff.2 ⟨t, ht, rfl⟩, areScripts_cons.2 ⟨?_, areScripts_nil.2 rfl⟩⟩
    exact (isScript_entry rfl).2 ⟨rfl, hr, hsubgoals, rfl⟩

/-! ### What does not come back -/

/-- A comment within a chain is dropped, or becomes a subgoal. -/
theorem not_areScripts_of_comment {js : List Justification} {c : String} {s : Sexp}
    (h : revertJustification (.cons (.str c) e) (.str l) = some s)
    (he : ∀ s, revertJustification e (.str l) = some s → ¬ AreScripts js s) : ¬ AreScripts js s := by
  rcases revert_step_cases (by simp) h with ⟨hcons, -⟩ | ⟨t, hstep, -⟩ | ⟨-, h⟩ | ⟨c, t, -, -, h⟩
  · cases hcons
  · cases hstep
  · exact he s h
  · exact not_areScripts_append h js

/-- A rule that is no step is taken for a list of subgoals, for a label or for a comment. -/
theorem not_areScripts_of_not_step {f rest s : Sexp} {k : Justification}
    (hf : formatRule r = some f) (hstep : isStep f = false) (hr : HasRule r k)
    (hrule : k.rule = r ∨ k.rule = .nil)
    (hnil : k.rule = .nil → ∀ s, revertJustification rest (.str l) = some s → ¬ AreScripts [k] s)
    (h : revertJustification (.cons f rest) (.str l) = some s) : ¬ AreScripts [k] s := by
  intro hs
  rcases revert_step_cases (by simp) h with ⟨-, -, h⟩ | ⟨t, hstep', -⟩ | ⟨hcons, h⟩ | ⟨c, t, -, -, h⟩
  · have hrules := (revert_rules f).2.2 _ _ h hs k (List.mem_singleton_self k)
    exact absurd (hrules.depth r hr) (Nat.not_lt.2 (depth_formatRule hf))
  · rw [hstep] at hstep'
    cases hstep'
  · by_cases hk : k.rule = .nil
    · exact hnil hk s h hs
    · have hlist := ((revert_rules rest).1 _ _ _ (by simp) h hs k (List.mem_singleton_self k)).listp
      have hrcons : r.consp = false := (consp_formatRule hf).1 ▸ hcons
      have hkr := hrule.resolve_right hk
      rw [hkr] at hk hlist
      rw [listp_eq, hrcons, Bool.or_false, beq_iff_eq] at hlist
      exact hk hlist
  · exact not_areScripts_append h _ hs

/-- A single subgoal has the label of its parent. -/
inductive Labelled : Justification → Prop
  | mk {label : String} {rule : Sexp} {subgoals : List Justification} {comment : Option String}
    (hone : ∀ k, subgoals = [k] → k.label = label) (hall : ∀ k ∈ subgoals, Labelled k) :
    Labelled (.mk label rule subgoals comment)

/-- The subgoals do not stand in for a node without a rule, if a single one does not. -/
theorem not_areScripts_of_subgoals {rest s : Sexp} {k : Justification} (hk : k.rule = .nil)
    (hone : ∀ j, subgoals = [j] → ∀ e s, editableJustification j (some l) = some e →
      revertJustification e (.str l) = some s → ¬ AreScripts [k] s)
    (hrest : editableSubgoals l subgoals = some rest)
    (h : revertJustification rest (.str l) = some s) : ¬ AreScripts [k] s := by
  intro hs
  cases subgoals with
  | nil =>
    rw [editableSubgoals, Option.some.injEq] at hrest
    subst hrest
    obtain ⟨-, rfl⟩ := revert_of_not_consp rfl h
    cases areScripts_of_nil hs
  | cons j₁ js =>
    cases js with
    | nil =>
      rw [editableSubgoals] at hrest
      exact hone j₁ rfl _ _ hrest h hs
    | cons j₂ js =>
      rw [editableSubgoals] at hrest
      obtain ⟨e₁, -, hrest⟩ := Option.bind_eq_some_iff.1 hrest
      obtain ⟨es, hes, hrest⟩ := Option.bind_eq_some_iff.1 hrest
      obtain rfl := Option.some.inj hrest
      rw [editableEach] at hes
      obtain ⟨e₂, -, hes⟩ := Option.bind_eq_some_iff.1 hes
      obtain ⟨es', -, hes⟩ := Option.bind_eq_some_iff.1 hes
      obtain rfl := Option.some.inj hes
      rcases revert_step_cases (by simp) h with ⟨-, -, h⟩ | ⟨t, hstep, -, rfl⟩ | ⟨hcons, -⟩ |
        ⟨c, t, e, -⟩
      · obtain ⟨a, d, rfl, -, hd⟩ := revertEach_eq_some h
        obtain ⟨a', d', rfl, -⟩ := revertEach_eq_some hd
        cases areScripts_nil.1 (areScripts_cons.1 hs).2
      · obtain ⟨l', r', subgoals', c'⟩ := k
        have hrule := ((isScript_entry rfl).1 (areScripts_cons.1 hs).1).2.1
        rw [Justification.rule] at hk
        rw [hk] at hrule
        have hcons := consp_unformatRule (.cons e₁ (.cons e₂ es'))
        rw [hrule] at hcons
        cases hcons
      · cases hcons
      · cases e

theorem not_areScripts_of_nil (j : Justification) (hj : Labelled j) (k : Justification)
    (hk : k.rule = .nil) (hrules : ∀ r, HasRule r j → HasRule r k) (e s : Sexp)
    (he : editableJustification j (some j.label) = some e)
    (h : revertJustification e (.str j.label) = some s) : ¬ AreScripts [k] s := by
  induction j using Justification.induct generalizing e s with
  | h l r subgoals c ih =>
    obtain ⟨hone, hall⟩ := hj
    rw [Justification.label] at he h
    rcases editable_cases he with ⟨hreruns, hcadr⟩ | ⟨-, f, rest, hf, hrest, rfl⟩
    · intro hs
      have hfrom := (revert_rules e).1 _ _ _ (by simp) h hs k (List.mem_singleton_self k)
      have hlt := hfrom.depth r (hrules r (.root ..))
      exact absurd (depth_lt_of_reruns hreruns hcadr) hlt.le.not_gt
    · rw [if_pos rfl] at h
      have hsubgoals : ∀ s, revertJustification rest (.str l) = some s → ¬ AreScripts [k] s := by
        intro s hs
        refine not_areScripts_of_subgoals hk (fun j hj e s he h => ?_) hrest hs
        have hmem : j ∈ subgoals := by simp [hj]
        rw [← hone j hj] at he h
        exact ih j hmem (hall j hmem) (fun r hr => hrules r (.sub hmem hr)) e s he h
      have hhead : ∀ s, revertJustification (.cons f rest) (.str l) = some s →
          ¬ AreScripts [k] s := by
        intro s h
        cases hstep : isStep f with
        | true =>
          obtain ⟨l', r', subgoals', c'⟩ := k
          intro hs
          obtain ⟨-, hrule, -⟩ := (areScripts_step_iff hstep).1 ⟨s, h, hs⟩
          have hcons := consp_unformatRule f
          rw [Justification.rule] at hk
          rw [hrule, hk] at hcons
          cases f with
          | cons a d => cases hcons
          | _ => cases hstep
        | false =>
          exact not_areScripts_of_not_step hf hstep (hrules r (.root ..)) (.inr hk)
            (fun _ => hsubgoals) h
      cases c with
      | none => exact hhead s h
      | some c => exact not_areScripts_of_comment h hhead

/-! ### What comes back -/

/-- The arguments of `typechecked`: a string and a type. -/
def isAnnotation : Sexp → Bool
  | .cons (.str _) (.cons _ .nil) => true
  | _ => false

/-- What `unformat-rule` takes for an annotation is one, and every annotation is taken for one. -/
def annotated : Sexp → Bool
  | .cons a d =>
    if a = .sym "typechecked" then isAnnotation d
    else (typeForm a d).isNone && annotated a && annotated d
  | _ => true

theorem unformatRule_of_not_consp {s t : Sexp} (ht : t.consp = false) (h : unformatRule s = t) :
    s = t := by
  have hs : s.consp = false := by rw [← consp_unformatRule, h, ht]
  cases s with
  | cons a d => cases hs
  | _ => exact h

theorem unformatRule_cons {a d : Sexp} (h : typeForm a d = none) :
    unformatRule (.cons a d) = .cons (unformatRule a) (unformatRule d) := by
  rw [unformatRule, h, Option.getD_none]

/-- Where the head is no annotation, none was formatted. -/
theorem unformatRule_eq_cons {s a d : Sexp} (ha : a ≠ .sym "typechecked")
    (h : unformatRule s = .cons a d) :
    ∃ a' d', s = .cons a' d' ∧ typeForm a' d' = none ∧ unformatRule a' = a ∧ unformatRule d' = d := by
  cases s with
  | cons a' d' =>
    rw [unformatRule] at h
    cases ht : typeForm a' d' with
    | none =>
      rw [ht, Option.getD_none] at h
      cases h
      exact ⟨a', d', rfl, ht, rfl, rfl⟩
    | some t =>
      obtain ⟨k, type, -, rfl, -⟩ := typeForm_eq_some ht
      rw [ht, Option.getD_some] at h
      cases h
      exact absurd rfl ha
  | _ => cases h

theorem typeForm_unformatRule {a d : Sexp} :
    typeForm (unformatRule a) (unformatRule d) = none ↔ typeForm a d = none := by
  constructor
  · intro h
    cases ht : typeForm a d with
    | none => rfl
    | some t =>
      obtain ⟨k, type, rfl, -, s, rfl⟩ := typeForm_eq_some ht
      have hd : unformatRule (ofList [.sym k, type]) = ofList [.sym k, unformatRule type] := by
        rw [ofList, unformatRule_cons rfl, ofList, unformatRule_cons]
        · rfl
        · cases type <;> rfl
      rw [hd] at h
      simp only [typeForm, unformatRule, ofList] at h ht
      split at ht
      · rename_i hk
        rw [if_pos hk] at h
        cases h
      · cases ht
  · intro h
    cases ht : typeForm (unformatRule a) (unformatRule d) with
    | none => rfl
    | some t =>
      obtain ⟨k, type, hd, -, s, ha⟩ := typeForm_eq_some ht
      obtain rfl := unformatRule_of_not_consp rfl ha
      have hk : Sexp.sym k ≠ .sym "typechecked" := by
        rintro e
        rw [hd, e] at ht
        cases ht
      obtain ⟨a', d', rfl, -, ha', hd'⟩ := unformatRule_eq_cons hk hd
      obtain rfl := unformatRule_of_not_consp rfl ha'
      cases d' with
      | cons x q =>
        rw [unformatRule] at hd'
        cases hx : typeForm x q with
        | none =>
          rw [hx, Option.getD_none] at hd'
          obtain rfl : q = .nil := unformatRule_of_not_consp rfl (Sexp.cons.inj hd').2
          rw [hd] at ht
          simp only [typeForm, ofList] at h ht
          split at h
          · cases h
          · rename_i hk
            simp [unformatRule, hk] at ht
        | some t' =>
          obtain ⟨k', type', -, rfl, -⟩ := typeForm_eq_some hx
          rw [hx] at hd'
          cases hd'
      | _ => cases hd'

theorem annotated_of_unformatRule {f : Sexp} (hf : formatRule r = some f) (hr : unformatRule f = r) :
    annotated r = true := by
  induction r generalizing f with
  | cons a d iha ihd =>
    rw [annotated]
    by_cases ha : a = .sym "typechecked"
    · subst ha
      rw [if_pos rfl]
      rw [formatRule] at hf
      obtain ⟨form, hform, hf⟩ := Option.bind_eq_some_iff.1 hf
      obtain ⟨type, -, hf⟩ := Option.bind_eq_some_iff.1 hf
      obtain rfl := Option.some.inj hf
      rw [ofList, unformatRule] at hr
      cases ht : typeForm form (ofList [.sym "!type", type]) with
      | some t =>
        obtain ⟨k, type', e, rfl, s, rfl⟩ := typeForm_eq_some ht
        rw [ht] at hr
        cases hr
        rfl
      | none =>
        rw [ht, Option.getD_none] at hr
        obtain ⟨hhead, rfl⟩ := Sexp.cons.inj hr
        obtain rfl := unformatRule_of_not_consp rfl hhead
        rw [ofList, unformatRule_cons rfl] at hform
        simp [Sexp.car, unformatRule] at hform
    · rw [if_neg ha]
      rw [formatRule.eq_3 _ _ ha] at hf
      obtain ⟨a', ha', hf⟩ := Option.bind_eq_some_iff.1 hf
      obtain ⟨d', hd', hf⟩ := Option.bind_eq_some_iff.1 hf
      obtain rfl := Option.some.inj hf
      obtain ⟨a'', d'', e, ht, rfl, rfl⟩ := unformatRule_eq_cons ha hr
      cases e
      rw [iha ha' rfl, ihd hd' rfl, typeForm_unformatRule.2 ht]
      rfl
  | _ => rfl

theorem exists_formatRule (h : annotated r = true) :
    ∃ f, formatRule r = some f ∧ unformatRule f = r := by
  induction r with
  | cons a d iha ihd =>
    rw [annotated] at h
    by_cases ha : a = .sym "typechecked"
    · subst ha
      rw [if_pos rfl] at h
      unfold isAnnotation at h
      split at h
      · exact ⟨_, rfl, rfl⟩
      · cases h
    · rw [if_neg ha, Bool.and_eq_true, Bool.and_eq_true, Option.isNone_iff_eq_none] at h
      obtain ⟨⟨ht, ha'⟩, hd'⟩ := h
      obtain ⟨fa, hfa, rfl⟩ := iha ha'
      obtain ⟨fd, hfd, rfl⟩ := ihd hd'
      refine ⟨.cons fa fd, ?_, unformatRule_cons (typeForm_unformatRule.1 ht)⟩
      rw [formatRule.eq_3 _ _ ha, hfa, hfd]
      rfl
  | _ => exact ⟨_, rfl, rfl⟩

theorem isStep_unformatRule (s : Sexp) : isStep (unformatRule s) = isStep s := by
  cases s with
  | cons a d =>
    rw [unformatRule]
    cases h : typeForm a d with
    | none =>
      have ha := consp_unformatRule a
      cases a with
      | cons x y =>
        rw [Option.getD_none]
        cases hx : unformatRule (.cons x y) with
        | cons x' y' => rfl
        | _ =>
          rw [hx] at ha
          cases ha
      | _ => rfl
    | some t =>
      obtain ⟨k, type, rfl, rfl, s, rfl⟩ := typeForm_eq_some h
      rfl
  | _ => rfl

/-- The node comes back from an edit: in a chain it has no comment, under a comment or in a chain its
rule is a step. -/
structure Keeps (chain : Bool) (l : String) (r : Sexp) (c : Option String) : Prop where
  reruns : reruns r l = some false
  rule : annotated r = true
  step : isStep r = true ∨ (r.listp = true ∧ chain = false ∧ c = none)
  comment : chain = true → c = none

/-- The edited form of a labelled node comes back as the node. -/
def Returns (j : Justification) : Prop := ∃ e s, editableJustification j none = some e ∧
  revertJustification e .nil = some s ∧ IsScript j s

/-- The edited form of a single subgoal. -/
def ReturnsIn (l : String) (j : Justification) : Prop :=
  ∃ e s, editableJustification j (some l) = some e ∧
    revertJustification e (.str l) = some s ∧ AreScripts [j] s

def AllReturn (l : String) (subgoals : List Justification) : Prop :=
  ∃ e s, editableSubgoals l subgoals = some e ∧ revertJustification e (.str l) = some s ∧
    AreScripts subgoals s

theorem allReturn_nil : AllReturn l [] := ⟨.nil, .nil, rfl, by rw [revertJustification], areScripts_nil.2 rfl⟩

theorem allReturn_singleton {j : Justification} : AllReturn l [j] ↔ ReturnsIn l j := by
  rw [AllReturn, ReturnsIn, editableSubgoals]

theorem editableEach_cons {j : Justification} {js : List Justification}
    (h : editableEach (j :: js) = some e) : ∃ a d, e = .cons a d := by
  rw [editableEach] at h
  obtain ⟨a, -, h⟩ := Option.bind_eq_some_iff.1 h
  obtain ⟨d, -, h⟩ := Option.bind_eq_some_iff.1 h
  exact ⟨a, d, (Option.some.inj h).symm⟩

theorem each_returns {js : List Justification} :
    (∃ e s, editableEach js = some e ∧ revertEach e = some s ∧ AreScripts js s) ↔
      ∀ j ∈ js, Returns j := by
  induction js with
  | nil =>
    refine ⟨fun _ _ hj => (nomatch hj), fun _ => ⟨.nil, .nil, rfl, by rw [revertEach], ?_⟩⟩
    exact areScripts_nil.2 rfl
  | cons j js ih =>
    rw [List.forall_mem_cons, ← ih]
    constructor
    · rintro ⟨e, s, he, h, hs⟩
      rw [editableEach] at he
      obtain ⟨e₁, he₁, he⟩ := Option.bind_eq_some_iff.1 he
      obtain ⟨es, hes, he⟩ := Option.bind_eq_some_iff.1 he
      obtain rfl := Option.some.inj he
      obtain ⟨a, d, rfl, ha, hd⟩ := revertEach_eq_some h
      obtain ⟨hj, hjs⟩ := areScripts_cons.1 hs
      exact ⟨⟨e₁, a, he₁, ha, hj⟩, es, d, hes, hd, hjs⟩
    · rintro ⟨⟨e₁, a, he₁, ha, hj⟩, es, d, hes, hd, hjs⟩
      refine ⟨.cons e₁ es, .cons a d, ?_, ?_, areScripts_cons.2 ⟨hj, hjs⟩⟩
      · rw [editableEach, he₁, hes]
        rfl
      · rw [revertEach, ha, hd]
        rfl

/-- What comes back from the edited form of a node is made from a list. -/
theorem consp_of_isScript {e s : Sexp} {j : Justification}
    (h : revertJustification e .nil = some s) (hs : IsScript j s) : e.consp = true := by
  cases hcons : e.consp with
  | true => rfl
  | false =>
    obtain ⟨-, rfl⟩ := revert_of_not_consp hcons h
    exact absurd hs (not_isScript_of_not_consp rfl)

theorem editableSubgoals_many {j₁ j₂ : Justification} {js : List Justification} :
    editableSubgoals l (j₁ :: j₂ :: js) =
      (editableEach (j₁ :: j₂ :: js)).map fun es => .cons es .nil := by
  rw [editableSubgoals, editableEach.eq_2 j₁]
  cases editableJustification j₁ none with
  | none => rfl
  | some e => cases editableEach (j₂ :: js) <;> rfl

theorem allReturn_many {j₁ j₂ : Justification} {js : List Justification} :
    AllReturn l (j₁ :: j₂ :: js) ↔ ∀ j ∈ j₁ :: j₂ :: js, Returns j := by
  rw [← each_returns, AllReturn, editableSubgoals_many]
  constructor
  · rintro ⟨e, s, he, h, hs⟩
    obtain ⟨es, hes, rfl⟩ := Option.map_eq_some_iff.1 he
    refine ⟨es, s, hes, ?_, hs⟩
    rcases revert_step_cases (by simp) h with ⟨-, -, h⟩ | ⟨t, -, -, rfl⟩ | ⟨hcons, -⟩ |
      ⟨c, t, rfl, -⟩
    · exact h
    · obtain ⟨-, hrest⟩ := areScripts_cons.1 hs
      obtain ⟨a, d, e, -⟩ := hrest.cases
      cases e
    · obtain ⟨e₁, es', rfl⟩ := editableEach_cons hes
      cases hcons
    · obtain ⟨e₁, es', e⟩ := editableEach_cons hes
      cases e
  · rintro ⟨es, s, hes, h, hs⟩
    refine ⟨.cons es .nil, s, Option.map_eq_some_iff.2 ⟨es, hes, rfl⟩, ?_, hs⟩
    obtain ⟨e₁, es', rfl⟩ := editableEach_cons hes
    obtain ⟨a, d, rfl, ha, -⟩ := revertEach_eq_some h
    have hcons := consp_of_isScript ha (areScripts_cons.1 hs).1
    cases e₁ with
    | cons x y => rwa [revertJustification.eq_def]
    | _ => cases hcons

theorem not_areScripts_of_node (h : Labelled (.mk l r subgoals c)) {f rest s : Sexp}
    (hf : formatRule r = some f) (hstep : isStep f = false)
    (hrest : editableSubgoals l subgoals = some rest)
    (hs : revertJustification (.cons f rest) (.str l) = some s) (c' : Option String) :
    ¬ AreScripts [.mk l r subgoals c'] s := by
  obtain ⟨hone, hall⟩ := h
  refine not_areScripts_of_not_step hf hstep (.root ..) (.inl rfl) (fun hnil s hs => ?_) hs
  refine not_areScripts_of_subgoals hnil (fun j hj e s he h => ?_) hrest hs
  have hmem : j ∈ subgoals := by simp [hj]
  rw [← hone j hj] at he h
  exact not_areScripts_of_nil j (hall j hmem) _ hnil (fun r hr => .sub hmem hr) e s he h

theorem not_reruns_of_rulesFrom {j : Justification} (hj : HasRule r j) (h : RulesFrom e j)
    (hreruns : reruns r l = some true) : r.cadr ≠ some e := by
  intro he
  exact absurd (depth_lt_of_reruns hreruns he) (h.depth r hj).le.not_gt

/-- A single subgoal comes back as a step of the chain above it. -/
theorem returnsIn_iff (h : Labelled (.mk l r subgoals c)) :
    ReturnsIn l (.mk l r subgoals c) ↔ Keeps true l r c ∧ AllReturn l subgoals := by
  constructor
  · rintro ⟨e, s, he, hs, hscript⟩
    rcases editable_cases he with ⟨hreruns, hcadr⟩ | ⟨hreruns, f, rest, hf, hrest, rfl⟩
    · have hrules := (revert_rules e).1 _ _ _ (by simp) hs hscript _ (List.mem_singleton_self _)
      exact absurd hcadr (not_reruns_of_rulesFrom (.root ..) hrules hreruns)
    · rw [if_pos rfl] at hs
      have hhead : ∀ s, revertJustification (.cons f rest) (.str l) = some s →
          AreScripts [.mk l r subgoals c] s → Keeps true l r c ∧ AllReturn l subgoals := by
        intro s hs hscript
        cases hstep : isStep f with
        | true =>
          obtain ⟨-, hr, rfl, t, ht, hsubgoals⟩ := (areScripts_step_iff hstep).1 ⟨s, hs, hscript⟩
          refine ⟨⟨hreruns, annotated_of_unformatRule hf hr, ?_, fun _ => rfl⟩, rest, t, hrest, ht,
            hsubgoals⟩
          rw [← hr, isStep_unformatRule]
          exact .inl hstep
        | false => exact absurd hscript (not_areScripts_of_node h hf hstep hrest hs c)
      cases c with
      | none => exact hhead s hs hscript
      | some c =>
        refine absurd hscript (not_areScripts_of_comment hs fun s hs hscript => ?_)
        cases (hhead s hs hscript).1.comment rfl
  · rintro ⟨⟨hreruns, hrule, hstep, hcomment⟩, rest, t, hrest, ht, hsubgoals⟩
    obtain ⟨f, hf, hr⟩ := exists_formatRule hrule
    obtain rfl := hcomment rfl
    have hf' : isStep f = true := by
      rw [← isStep_unformatRule, hr]
      exact hstep.resolve_right fun h => nomatch h.2.1
    obtain ⟨s, hs, hscript⟩ :=
      (areScripts_step_iff hf').2 ⟨rfl, hr, rfl, t, ht, hsubgoals⟩
    refine ⟨.cons f rest, s, ?_, hs, hscript⟩
    rw [editable_eq hreruns, hf, hrest]
    simp [withComment]

/-- The entry of a labelled node, before its comment is put in its place. -/
theorem entry_of_append {e x b s : Sexp} (h : revertJustification e (.str l) = some (.cons x .nil))
    (hx : x.append (ofList [b]) = some s) (hs : IsScript (.mk l r subgoals c) s) :
    ∃ c', AreScripts [.mk l r subgoals c'] (.cons x .nil) := by
  rcases (revert_entry e).2 _ _ (by simp) h with hentry | ⟨c, rfl⟩
  · obtain ⟨c', hx⟩ := hentry.isScript_of_append hx hs
    exact ⟨c', areScripts_cons.2 ⟨hx, areScripts_nil.2 rfl⟩⟩
  · cases hx

theorem Returns.node (h : Labelled (.mk l r subgoals c)) (hreturns : Returns (.mk l r subgoals c)) :
    Keeps false l r c ∧ AllReturn l subgoals := by
  obtain ⟨e, s, he, hs, hscript⟩ := hreturns
  rcases editable_cases he with ⟨hreruns, hcadr⟩ | ⟨hreruns, f, rest, hf, hrest, rfl⟩
  · have hrules := (revert_rules e).2.1 _ _ hs hscript
    exact absurd hcadr (not_reruns_of_rulesFrom (.root ..) hrules hreruns)
  · rw [if_neg (by simp)] at hs
    cases c with
    | none =>
      rcases revert_first_cases hs with ⟨e, -⟩ | ⟨second, rest', t, e, hlist, ht, rfl⟩ |
        ⟨second, rest', x, e, hlist, hx, happend⟩
      · cases e
      · cases e
        obtain ⟨-, hr, hsubgoals, -⟩ := (isScript_entry rfl).1 hscript
        refine ⟨⟨hreruns, annotated_of_unformatRule hf hr, ?_,
          fun h => absurd h Bool.false_ne_true⟩, rest, t, hrest, ht, hsubgoals⟩
        rw [← hr, listp_unformatRule]
        exact .inr ⟨hlist, rfl, rfl⟩
      · cases e
        obtain ⟨c', hscripts⟩ := entry_of_append hx happend hscript
        have hrules := (revert_rules rest).1 _ _ _ (by simp) hx hscripts _ (List.mem_singleton_self _)
        have hlist' : r.listp = true := hrules.listp
        rw [listp_eq, Bool.or_eq_false_iff] at hlist
        rw [← (consp_formatRule hf).2 ((consp_formatRule hf).1 ▸ hlist.2), listp_eq, hlist.1,
          hlist.2] at hlist'
        cases hlist'
    | some c =>
      rcases revert_first_cases hs with ⟨e, -⟩ | ⟨second, rest', t, e, hlist, ht, rfl⟩ |
        ⟨second, rest', x, e, hlist, hx, happend⟩
      · cases e
      · cases e
        cases hlist
      · cases e
        obtain ⟨c', hscripts⟩ := entry_of_append hx happend hscript
        cases hstep : isStep f with
        | true =>
          obtain ⟨-, hr, -, t, ht, hsubgoals⟩ := (areScripts_step_iff hstep).1 ⟨_, hx, hscripts⟩
          refine ⟨⟨hreruns, annotated_of_unformatRule hf hr, ?_,
            fun h => absurd h Bool.false_ne_true⟩, rest, t, hrest, ht, hsubgoals⟩
          rw [← hr, isStep_unformatRule]
          exact .inl hstep
        | false => exact absurd hscripts (not_areScripts_of_node h hf hstep hrest hx c')

theorem returns_iff (h : Labelled (.mk l r subgoals c)) :
    Returns (.mk l r subgoals c) ↔ Keeps false l r c ∧ AllReturn l subgoals := by
  refine ⟨Returns.node h, ?_⟩
  rintro ⟨⟨hreruns, hrule, hstep, -⟩, rest, t, hrest, ht, hsubgoals⟩
  obtain ⟨f, hf, hr⟩ := exists_formatRule hrule
  have hlist : f.listp = true := by
    rw [← listp_unformatRule, hr]
    exact hstep.elim listp_of_isStep fun h => h.1
  have heditable : editableJustification (.mk l r subgoals c) none =
      some (.cons (.str l) (withComment c (.cons f rest))) := by
    rw [editable_eq hreruns, hf, hrest]
    simp
  cases c with
  | none =>
    refine ⟨_, ofList [.str l, unformatRule f, t], heditable, ?_, ?_⟩
    · rw [withComment, revertJustification.eq_def]
      simp [hlist, ht]
    · exact (isScript_entry rfl).2 ⟨rfl, hr, hsubgoals, rfl⟩
  | some c =>
    have hf' : isStep f = true := by
      rw [← isStep_unformatRule, hr]
      exact hstep.resolve_right fun h => nomatch h.2.2
    refine ⟨_, ofList [.str l, unformatRule f, t, .str c], heditable, ?_, ?_⟩
    · rw [withComment, revertJustification.eq_def]
      simp only [if_true]
      rw [revert_step (by simp) hf', ht]
      rfl
    · exact (isScript_entry rfl).2 ⟨rfl, hr, hsubgoals, rfl⟩

end

/-! ### The whole script -/

/-- Every node comes back: the chains are those of the single subgoals. -/
inductive Survives : Bool → Justification → Prop
  | mk {chain : Bool} {label : String} {rule : Sexp} {subgoals : List Justification}
    {comment : Option String} (hkeeps : Keeps chain label rule comment)
    (hsubgoals : ∀ k ∈ subgoals, Survives (subgoals.length == 1) k) :
    Survives chain (.mk label rule subgoals comment)

theorem survives_iff {chain : Bool} {l : String} {r : Sexp} {subgoals : List Justification}
    {c : Option String} : Survives chain (.mk l r subgoals c) ↔
      Keeps chain l r c ∧ ∀ k ∈ subgoals, Survives (subgoals.length == 1) k :=
  ⟨fun ⟨hkeeps, hsubgoals⟩ => ⟨hkeeps, hsubgoals⟩, fun h => ⟨h.1, h.2⟩⟩

theorem returns_iff_survives (j : Justification) (h : Labelled j) :
    (Returns j ↔ Survives false j) ∧ (ReturnsIn j.label j ↔ Survives true j) := by
  induction j using Justification.induct with
  | h l r subgoals c ih =>
    have hsubgoals : AllReturn l subgoals ↔ ∀ k ∈ subgoals, Survives (subgoals.length == 1) k := by
      obtain ⟨hone, hall⟩ := h
      match subgoals with
      | [] => exact ⟨fun _ _ hk => (nomatch hk), fun _ => allReturn_nil⟩
      | [k] =>
        have hk := (ih k (by simp) (hall k (by simp))).2
        rw [hone k rfl] at hk
        simpa [allReturn_singleton] using hk
      | k₁ :: k₂ :: ks =>
        rw [allReturn_many]
        refine forall_congr' fun k => forall_congr' fun hk => ?_
        simpa using (ih k hk (hall k hk)).1
    rw [Justification.label, returns_iff h, returnsIn_iff h, hsubgoals, survives_iff, survives_iff]
    exact ⟨Iff.rfl, Iff.rfl⟩

/-- The edited form of a script, unchanged, is reverted to the same script. -/
def RoundTrips (j : Justification) : Prop := ∃ e s, editableJustification j none = some e ∧
  revertJustification e .nil = some s ∧ SameScript s (extractJustificationSexp j)

theorem editRoundTrips_iff (j : Justification) (h : Labelled j) : RoundTrips j ↔ Survives false j := by
  rw [← (returns_iff_survives j h).1]
  simp only [RoundTrips, Returns, sameScript_extract_iff]

/-! ### A script that does not come back -/

/-- Two steps, the second one with a comment. -/
def commented : Justification :=
  .mk "" (ofList [.sym "flatten"]) [.mk "" (ofList [.sym "assert"]) [] (some ";;; done")] none

theorem labelled_commented : Labelled commented := by
  refine .mk (fun k hk => ?_) fun k hk => ?_
  · obtain rfl := List.singleton_inj.1 hk
    rfl
  · obtain rfl := List.mem_singleton.1 hk
    exact .mk (fun _ h => (nomatch h)) fun _ h => nomatch h

theorem editRoundTrips_commented_iff : RoundTrips commented ↔ Survives false commented :=
  editRoundTrips_iff commented labelled_commented

/-- The comment comes back as a second subgoal. -/
theorem not_editRoundTrips_commented : Labelled commented ∧ ¬ RoundTrips commented := by
  refine ⟨labelled_commented, ?_⟩
  rintro ⟨e, s, he, hs, hsame⟩
  have heditable : editableJustification commented none = some (ofList
      [.str "", ofList [.sym "flatten"], .str ";;; done", ofList [.sym "assert"]]) := by decide
  obtain rfl := Option.some.inj (he.symm.trans heditable)
  have hreverted : revertJustification (ofList
      [.str "", ofList [.sym "flatten"], .str ";;; done", ofList [.sym "assert"]]) .nil =
      some (ofList [.str "", ofList [.sym "flatten"],
        ofList [ofList [.str "", ofList [.sym "assert"], .nil], .str ";;; done"]]) := by decide
  obtain rfl := Option.some.inj (hs.symm.trans hreverted)
  obtain ⟨-, -, hsubgoals, -⟩ := (isScript_entry rfl).1 (sameScript_extract_iff.1 hsame)
  cases areScripts_nil.1 (areScripts_cons.1 hsubgoals).2

end PVS.Prover
