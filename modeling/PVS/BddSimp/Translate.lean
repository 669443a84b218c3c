import Mathlib
import PVS.BddSimp.BddSimp

/-! What a diagram stands for. -/

namespace PVS.BddSimp

open PVS.Library

variable {T : Terms}

/-! ### Models -/

/-- The constructor of each argument, and the truth of each atom. -/
structure Interpretation (T : Terms) where
  con : (a : T.Arg) → Fin (T.size a)
  holds : T.Atom → Bool

namespace Interpretation

def eval (M : Interpretation T) : Expr T → Bool
  | .true => true
  | .false => false
  | .not e => !M.eval e
  | .and e₁ e₂ => M.eval e₁ && M.eval e₂
  | .or e₁ e₂ => M.eval e₁ || M.eval e₂
  | .implies e₁ e₂ => !M.eval e₁ || M.eval e₂
  | .iff e₁ e₂ => M.eval e₁ == M.eval e₂
  | .disequation e₁ e₂ => !(M.eval e₁ == M.eval e₂)
  | .branch e₁ e₂ e₃ => if M.eval e₁ then M.eval e₂ else M.eval e₃
  | .recognizer _ arg con => M.con arg = con
  | .equation _ _ arg con => M.con arg = con
  | .injection arg index => M.con arg = index
  | .atom a => M.holds a

end Interpretation

/-- A model in which expressions that are `tc-eq` are equal. -/
structure Model (Q : TcEq T) extends Interpretation T where
  arg_eq : ∀ a₁ a₂, Q.arg a₁ a₂ = true → (con a₁).val = (con a₂).val
  expr_eq : ∀ e₁ e₂, Q.expr e₁ e₂ = true → toInterpretation.eval e₁ = toInterpretation.eval e₂

namespace Expr

/-- What a formula is made of, below its connectives. -/
def atoms : Expr T → List (Expr T)
  | .true => []
  | .false => []
  | .not e => e.atoms
  | .and e₁ e₂ => e₁.atoms ++ e₂.atoms
  | .or e₁ e₂ => e₁.atoms ++ e₂.atoms
  | .implies e₁ e₂ => e₁.atoms ++ e₂.atoms
  | .iff e₁ e₂ => e₁.atoms ++ e₂.atoms
  | .disequation e₁ e₂ => e₁.atoms ++ e₂.atoms
  | .branch e₁ e₂ e₃ => e₁.atoms ++ (e₂.atoms ++ e₃.atoms)
  | e => [e]

/-- The argument and the constructor of a recognizer application. -/
def recognized : Expr T → Option (T.Arg × ℕ)
  | .recognizer _ arg con => some (arg, con)
  | .equation _ _ arg con => some (arg, con)
  | .injection arg index => some (arg, index)
  | _ => none

/-- The key of an atom. -/
def normalized (e : Expr T) : Expr T := (recognizerApplication? e).getD e

theorem recognized_normalized (e : Expr T) : e.normalized.recognized = e.recognized := by
  cases e <;> rfl

theorem recognizerArg_eq (e : Expr T) : recognizerArg e = e.recognized.map Prod.fst := by
  cases e <;> rfl

theorem recognized_lt {e : Expr T} {a : T.Arg} {c : ℕ} (h : e.recognized = some (a, c)) :
    c < T.size a := by
  cases e with
  | recognizer op arg con => cases h; exact con.2
  | equation unit left arg con => cases h; exact con.2
  | injection arg index => cases h; exact index.2
  | _ => cases h

end Expr

theorem Interpretation.eval_normalized (M : Interpretation T) (e : Expr T) :
    M.eval e.normalized = M.eval e := by
  cases e <;> rfl

theorem Interpretation.eval_recognized (M : Interpretation T) {e : Expr T} {a : T.Arg} {c : ℕ}
    (h : e.recognized = some (a, c)) : M.eval e = decide ((M.con a).val = c) := by
  cases e with
  | recognizer op arg con =>
    cases h
    exact decide_eq_decide.2 Fin.ext_iff
  | equation unit left arg con =>
    cases h
    exact decide_eq_decide.2 Fin.ext_iff
  | injection arg index =>
    cases h
    exact decide_eq_decide.2 Fin.ext_iff
  | _ => cases h

/-! ### Keys -/

section Keys

variable {Q : TcEq T}

theorem sameKey_iff {e₁ e₂ : Expr T} :
    sameKey Q e₁ e₂ = true ↔ Q.sxhash e₁ = Q.sxhash e₂ ∧ Q.expr e₁ e₂ = true := by
  simp [sameKey]

theorem sameKey_refl (e : Expr T) : sameKey Q e e = true :=
  sameKey_iff.2 ⟨rfl, Q.expr_refl e⟩

theorem sameKey_congr {e₁ e₂ : Expr T} (h : sameKey Q e₁ e₂ = true) (e : Expr T) :
    sameKey Q e e₁ = sameKey Q e e₂ := by
  obtain ⟨hhash, heq⟩ := sameKey_iff.1 h
  rw [Bool.eq_iff_iff, sameKey_iff, sameKey_iff, hhash]
  constructor
  · exact fun ⟨he, heq'⟩ => ⟨he, Q.expr_trans _ _ _ heq' heq⟩
  · exact fun ⟨he, heq'⟩ => ⟨he, Q.expr_trans _ _ _ heq' (Q.expr_symm _ _ heq)⟩

/-- No two recognizer applications of one constructor to one argument have different keys. -/
def NoTwins (Q : TcEq T) (A : Set (Expr T)) : Prop :=
  ∀ e₁ ∈ A, ∀ e₂ ∈ A, ∀ a₁ a₂ c, e₁.recognized = some (a₁, c) → e₂.recognized = some (a₂, c) →
    Q.arg a₁ a₂ = true → sameKey Q e₁.normalized e₂.normalized = true

end Keys

/-! ### States -/

section States

variable {Q : TcEq T} {A : Set (Expr T)}

def BddState.varid (Q : TcEq T) (s : BddState T) (e : Expr T) : Option ℕ :=
  (s.pvsBdd.find? fun entry => sameKey Q entry.1 e).map Prod.snd

/-- A variable of a form is the one of a recognizer application to the argument of the form. -/
def Recognizes (Q : TcEq T) (A : Set (Expr T)) (s : BddState T) (k : T.Arg) (n c : ℕ) : Prop :=
  ∃ e ∈ A, ∃ a, e.recognized = some (a, c) ∧ Q.arg a k = true ∧ s.varid Q e.normalized = some n

structure BddState.Valid (Q : TcEq T) (A : Set (Expr T)) (s : BddState T) : Prop where
  entry : ∀ ent ∈ s.pvsBdd, s.bddPvs.lookup ent.2 = some ent.1
  bound : ∀ n e, s.bddPvs.lookup n = some e → n ≤ s.counter
  form : ∀ form ∈ s.recognizerForms, form.2.Nodup ∧ ∀ n ∈ form.2, ∃ c, Recognizes Q A s form.1 n c

/-- Nothing in the tables changes. -/
structure BddState.Extends (Q : TcEq T) (s s' : BddState T) : Prop where
  varid : ∀ e n, s.varid Q e = some n → s'.varid Q e = some n
  lookup : ∀ n e, s.bddPvs.lookup n = some e → s'.bddPvs.lookup n = some e

theorem BddState.Extends.refl (s : BddState T) : s.Extends Q s := ⟨fun _ _ h => h, fun _ _ h => h⟩

theorem BddState.Extends.trans {s s' s'' : BddState T} (h₁ : s.Extends Q s')
    (h₂ : s'.Extends Q s'') : s.Extends Q s'' :=
  ⟨fun e n h => h₂.varid e n (h₁.varid e n h), fun n e h => h₂.lookup n e (h₁.lookup n e h)⟩

theorem Recognizes.mono {s s' : BddState T} (hext : s.Extends Q s') {k : T.Arg} {n c : ℕ}
    (h : Recognizes Q A s k n c) : Recognizes Q A s' k n c := by
  obtain ⟨e, he, a, hrec, hk, hn⟩ := h
  exact ⟨e, he, a, hrec, hk, hext.varid _ _ hn⟩

theorem BddState.Valid.lookup {s : BddState T} (hs : s.Valid Q A) {e : Expr T} {n : ℕ}
    (hn : s.varid Q e = some n) : ∃ k, s.bddPvs.lookup n = some k ∧ sameKey Q k e = true := by
  obtain ⟨ent, hent, rfl⟩ := Option.map_eq_some_iff.1 hn
  have hkey := List.find?_some hent
  exact ⟨ent.1, hs.entry ent (List.mem_of_find?_eq_some hent), hkey⟩

/-! ### Forms -/

theorem enterForm_valid {s s' : BddState T} (hext : s.Extends Q s') {a : T.Arg} {n c : ℕ} {e : Expr T}
    (he : e ∈ A) (hrec : e.recognized = some (a, c)) (hn : s'.varid Q e.normalized = some n)
    (forms : List (T.Arg × List ℕ))
    (hforms : ∀ form ∈ forms, form.2.Nodup ∧ ∀ n ∈ form.2, ∃ c, Recognizes Q A s form.1 n c) :
    ∀ form ∈ (enterForm Q a n forms).getD ((a, [n]) :: forms),
      form.2.Nodup ∧ ∀ n ∈ form.2, ∃ c, Recognizes Q A s' form.1 n c := by
  have hold : ∀ form ∈ forms, form.2.Nodup ∧ ∀ n ∈ form.2, ∃ c, Recognizes Q A s' form.1 n c := by
    intro form hform
    obtain ⟨hnodup, hall⟩ := hforms form hform
    refine ⟨hnodup, fun m hm => ?_⟩
    obtain ⟨c, hc⟩ := hall m hm
    exact ⟨c, hc.mono hext⟩
  have hsome : ∀ forms', enterForm Q a n forms = some forms' → ∀ form ∈ forms',
      form.2.Nodup ∧ ∀ n ∈ form.2, ∃ c, Recognizes Q A s' form.1 n c := by
    clear hforms
    induction forms with
    | nil =>
      intro forms' h
      cases h
    | cons entry forms ih =>
      intro forms' h form hform
      rw [enterForm] at h
      by_cases harg : Q.arg a entry.1 = true
      · rw [if_pos harg] at h
        cases h
        rcases List.mem_cons.1 hform with rfl | hform
        · obtain ⟨hnodup, hall⟩ := hold entry List.mem_cons_self
          dsimp only
          split_ifs with hmem
          · exact ⟨hnodup, hall⟩
          · refine ⟨List.nodup_cons.2 ⟨hmem, hnodup⟩, fun m hm => ?_⟩
            rcases List.mem_cons.1 hm with rfl | hm
            · exact ⟨c, e, he, a, hrec, harg, hn⟩
            · exact hall m hm
        · exact hold form (List.mem_cons_of_mem _ hform)
      · rw [if_neg harg] at h
        obtain ⟨rest, hrest, rfl⟩ := Option.map_eq_some_iff.1 h
        rcases List.mem_cons.1 hform with rfl | hform
        · exact hold _ List.mem_cons_self
        · exact ih (fun form hform => hold form (List.mem_cons_of_mem _ hform)) rest hrest form hform
  intro form hform
  cases hres : enterForm Q a n forms with
  | none =>
    rw [hres] at hform
    rcases List.mem_cons.1 hform with rfl | hform
    · refine ⟨List.nodup_singleton n, fun m hm => ?_⟩
      rw [List.mem_singleton] at hm
      subst hm
      exact ⟨c, e, he, a, hrec, Q.arg_refl a, hn⟩
    · exact hold form hform
  | some forms' =>
    rw [hres] at hform
    exact hsome forms' hres form hform

/-- The tables do not depend on the forms. -/
theorem enterIntoRecognizerFormAlist_tables (e : Expr T) (n : ℕ) (s : BddState T) :
    (enterIntoRecognizerFormAlist Q e n s).pvsBdd = s.pvsBdd ∧
      (enterIntoRecognizerFormAlist Q e n s).bddPvs = s.bddPvs ∧
        (enterIntoRecognizerFormAlist Q e n s).counter = s.counter := by
  rw [enterIntoRecognizerFormAlist]
  split
  · exact ⟨rfl, rfl, rfl⟩
  · exact ⟨rfl, rfl, rfl⟩

theorem enterIntoRecognizerFormAlist_valid {s s' : BddState T} (hs : s.Valid Q A)
    (hext : s.Extends Q s') {e : Expr T} (he : e ∈ A) {n : ℕ}
    (hforms : s'.recognizerForms = s.recognizerForms)
    (hentry : ∀ ent ∈ s'.pvsBdd, s'.bddPvs.lookup ent.2 = some ent.1)
    (hbound : ∀ n e, s'.bddPvs.lookup n = some e → n ≤ s'.counter)
    (hn : s'.varid Q e.normalized = some n) :
    (enterIntoRecognizerFormAlist Q e.normalized n s').Valid Q A ∧
      s.Extends Q (enterIntoRecognizerFormAlist Q e.normalized n s') ∧
        (enterIntoRecognizerFormAlist Q e.normalized n s').varid Q e.normalized = some n := by
  obtain ⟨hpvs, hbdd, hcounter⟩ := enterIntoRecognizerFormAlist_tables (Q := Q) e.normalized n s'
  have hvarid : ∀ x, (enterIntoRecognizerFormAlist Q e.normalized n s').varid Q x = s'.varid Q x :=
    fun x => by rw [BddState.varid, hpvs, BddState.varid]
  have hext' : s'.Extends Q (enterIntoRecognizerFormAlist Q e.normalized n s') :=
    ⟨fun x m hm => by rwa [hvarid], fun m x hm => by rwa [hbdd]⟩
  refine ⟨⟨by rwa [hpvs, hbdd], by rwa [hbdd, hcounter], ?_⟩, hext.trans hext',
    by rwa [hvarid]⟩
  rw [enterIntoRecognizerFormAlist, Expr.recognizerArg_eq, Expr.recognized_normalized]
  cases hrec : e.recognized with
  | none =>
    dsimp only [Option.map_none]
    rw [hforms]
    intro form hform
    obtain ⟨hnodup, hall⟩ := hs.form form hform
    refine ⟨hnodup, fun m hm => ?_⟩
    obtain ⟨c, hc⟩ := hall m hm
    exact ⟨c, hc.mono hext⟩
  | some ac =>
    obtain ⟨a, c⟩ := ac
    dsimp only [Option.map_some]
    rw [hforms]
    intro form hform
    obtain ⟨hnodup, hall⟩ := enterForm_valid hext he hrec hn s.recognizerForms hs.form form hform
    exact ⟨hnodup, hall⟩

/-- The variable of an atom. -/
theorem makeBddVar_valid (P : BddPackage) {s : BddState T} (hs : s.Valid Q A) {e : Expr T}
    (he : e ∈ A) : ∃ n, (makeBddVar Q P e s).1 = P.var n ∧ (makeBddVar Q P e s).2.Valid Q A ∧
      s.Extends Q (makeBddVar Q P e s).2 ∧
        (makeBddVar Q P e s).2.varid Q e.normalized = some n := by
  rw [makeBddVar]
  dsimp only
  rw [show (recognizerApplication? e).getD e = e.normalized from rfl]
  cases hfind : s.pvsBdd.find? fun entry => sameKey Q entry.1 e.normalized with
  | some entry =>
    have hn : s.varid Q e.normalized = some entry.2 := by
      rw [BddState.varid, hfind]
      rfl
    exact ⟨entry.2, rfl, enterIntoRecognizerFormAlist_valid hs (.refl s) he rfl hs.entry hs.bound hn⟩
  | none =>
    let s' : BddState T := { s with
      pvsBdd := s.pvsBdd ++ [(e.normalized, s.counter + 1)]
      bddPvs := s.bddPvs ++ [(s.counter + 1, e.normalized)], counter := s.counter + 1 }
    have hlookup : ∀ n x, s.bddPvs.lookup n = some x → s'.bddPvs.lookup n = some x := by
      intro n x hx
      rw [List.lookup_append, hx]
      rfl
    have hnew : s'.bddPvs.lookup (s.counter + 1) = some e.normalized := by
      cases hold : s.bddPvs.lookup (s.counter + 1) with
      | some x =>
        have := hs.bound _ x hold
        omega
      | none =>
        rw [List.lookup_append, hold]
        simp [List.lookup]
    have hext : s.Extends Q s' := by
      refine ⟨fun x n hx => ?_, hlookup⟩
      obtain ⟨ent, hent, rfl⟩ := Option.map_eq_some_iff.1 hx
      rw [BddState.varid, List.find?_append, hent]
      rfl
    have hn : s'.varid Q e.normalized = some (s.counter + 1) := by
      rw [BddState.varid, List.find?_append, hfind]
      simp [sameKey_refl]
    refine ⟨s.counter + 1, rfl, enterIntoRecognizerFormAlist_valid hs hext he rfl ?_ ?_ hn⟩
    · intro ent hent
      rcases List.mem_append.1 hent with hent | hent
      · exact hlookup _ _ (hs.entry ent hent)
      · rw [List.mem_singleton] at hent
        subst hent
        exact hnew
    · intro n x hx
      change n ≤ s.counter + 1
      cases hold : s.bddPvs.lookup n with
      | some y => exact (hs.bound n y hold).trans (Nat.le_succ _)
      | none =>
        rw [List.lookup_append, hold, Option.none_or, List.lookup_cons] at hx
        split at hx
        case h_1 heq => exact (beq_iff_eq.1 heq).le
        case h_2 => cases hx

end States

/-! ### Diagrams -/

section Diagrams

variable {Q : TcEq T} {A : Set (Expr T)} {P : BddPackage}

/-- The variables have the truth of their atoms. -/
def Agrees (M : Interpretation T) (s : BddState T) (ρ : ℕ → Bool) : Prop :=
  ∀ n e, s.bddPvs.lookup n = some e → ρ n = M.eval e

theorem Agrees.mono {M : Interpretation T} {s s' : BddState T} {ρ : ℕ → Bool}
    (h : Agrees M s' ρ) (hext : s.Extends Q s') : Agrees M s ρ :=
  fun n e he => h n e (hext.lookup n e he)

/-- The diagram stands for the formula, and its variables are in the table. -/
structure Denotes (Q : TcEq T) (s : BddState T) (bdd : Bdd) (e : Expr T) : Prop where
  eval : ∀ (M : Model Q) ρ, Agrees M.toInterpretation s ρ → bdd.eval ρ = M.eval e
  vars : ∀ n ∈ bdd.vars, ∃ x, s.bddPvs.lookup n = some x

theorem Denotes.mono {s s' : BddState T} (hext : s.Extends Q s') {bdd : Bdd} {e : Expr T}
    (h : Denotes Q s bdd e) : Denotes Q s' bdd e := by
  refine ⟨fun M ρ hρ => h.eval M ρ (hρ.mono hext), fun n hn => ?_⟩
  obtain ⟨x, hx⟩ := h.vars n hn
  exact ⟨x, hext.lookup n x hx⟩

/-- What a translation is to do. -/
structure Translates (Q : TcEq T) (A : Set (Expr T)) (s : BddState T) (e : Expr T)
    (r : Bdd × BddState T) : Prop where
  valid : r.2.Valid Q A
  extends_ : s.Extends Q r.2
  denotes : Denotes Q r.2 r.1 e

theorem makeBddVar_translates {s : BddState T} (hs : s.Valid Q A) {e : Expr T} (he : e ∈ A) :
    Translates Q A s e (makeBddVar Q P e s) := by
  obtain ⟨n, hvar, hvalid, hext, hn⟩ := makeBddVar_valid P hs he
  obtain ⟨k, hk, hkey⟩ := hvalid.lookup hn
  refine ⟨hvalid, hext, fun M ρ hρ => ?_, fun m hm => ?_⟩
  · rw [hvar, P.eval_var, hρ n k hk, M.expr_eq _ _ (sameKey_iff.1 hkey).2, M.eval_normalized]
  · rw [hvar] at hm
    have := P.vars_var n hm
    rw [List.mem_singleton] at this
    subst this
    exact ⟨k, hk⟩

theorem constant_translates {s : BddState T} (hs : s.Valid Q A) {e : Expr T} {bdd : Bdd}
    (heval : ∀ (M : Model Q) ρ, bdd.eval ρ = M.eval e) (hvars : bdd.vars = []) :
    Translates Q A s e (bdd, s) := by
  refine ⟨hs, .refl s, fun M ρ _ => heval M ρ, ?_⟩
  rw [hvars]
  intro n hn
  cases hn

theorem translateExpr_translates {s : BddState T} (hs : s.Valid Q A) {e : Expr T}
    (he : Q.expr e .true = false → Q.expr e .false = false → e ∈ A) :
    Translates Q A s e (translateExpr Q P e s) := by
  rw [translateExpr]
  split_ifs with htrue hfalse
  · exact constant_translates hs (fun M ρ => (M.expr_eq _ _ htrue).symm) rfl
  · exact constant_translates hs (fun M ρ => (M.expr_eq _ _ hfalse).symm) rfl
  · exact makeBddVar_translates hs (he (Bool.eq_false_iff.2 htrue) (Bool.eq_false_iff.2 hfalse))

/-- Two translations, one after the other, and an operation on what they return. -/
theorem Translates.binary {s : BddState T} {e₁ e₂ e : Expr T} {r₁ r₂ : Bdd × BddState T} {bdd : Bdd}
    (h₁ : Translates Q A s e₁ r₁) (h₂ : Translates Q A r₁.2 e₂ r₂)
    (heval : ∀ (M : Model Q) ρ, r₁.1.eval ρ = M.eval e₁ → r₂.1.eval ρ = M.eval e₂ →
      bdd.eval ρ = M.eval e) (hvars : bdd.vars ⊆ r₁.1.vars ++ r₂.1.vars) :
    Translates Q A s e (bdd, r₂.2) := by
  have h₁' := h₁.denotes.mono h₂.extends_
  refine ⟨h₂.valid, h₁.extends_.trans h₂.extends_, fun M ρ hρ => ?_, fun n hn => ?_⟩
  · exact heval M ρ (h₁'.eval M ρ hρ) (h₂.denotes.eval M ρ hρ)
  · rcases List.mem_append.1 (hvars hn) with hn | hn
    · exact h₁'.vars n hn
    · exact h₂.denotes.vars n hn

theorem translateToBdd_translates (e : Expr T) (s : BddState T) (hs : s.Valid Q A)
    (he : ∀ x ∈ e.atoms, x ∈ A) : Translates Q A s e (translateToBdd Q P e s) := by
  induction e generalizing s with
  | true =>
    refine translateExpr_translates hs fun htrue => ?_
    rw [Q.expr_refl] at htrue
    cases htrue
  | false =>
    refine translateExpr_translates hs fun _ hfalse => ?_
    rw [Q.expr_refl] at hfalse
    cases hfalse
  | not e ih =>
    have h := ih s hs he
    refine ⟨h.valid, h.extends_, fun M ρ hρ => ?_, fun n hn => h.denotes.vars n (P.vars_not _ hn)⟩
    rw [translateToBdd, P.eval_not, h.denotes.eval M ρ hρ, Interpretation.eval]
  | and e₁ e₂ ih₁ ih₂ =>
    have h₁ := ih₁ s hs fun x hx => he x (List.mem_append_left _ hx)
    have h₂ := ih₂ _ h₁.valid fun x hx => he x (List.mem_append_right _ hx)
    refine h₁.binary h₂ (fun M ρ hv₁ hv₂ => ?_) (P.vars_and _ _)
    rw [P.eval_and, hv₁, hv₂, Interpretation.eval]
  | or e₁ e₂ ih₁ ih₂ =>
    have h₁ := ih₁ s hs fun x hx => he x (List.mem_append_left _ hx)
    have h₂ := ih₂ _ h₁.valid fun x hx => he x (List.mem_append_right _ hx)
    refine h₁.binary h₂ (fun M ρ hv₁ hv₂ => ?_) (P.vars_or _ _)
    rw [P.eval_or, hv₁, hv₂, Interpretation.eval]
  | implies e₁ e₂ ih₁ ih₂ =>
    have h₁ := ih₁ s hs fun x hx => he x (List.mem_append_left _ hx)
    have h₂ := ih₂ _ h₁.valid fun x hx => he x (List.mem_append_right _ hx)
    refine h₁.binary h₂ (fun M ρ hv₁ hv₂ => ?_) (P.vars_implies _ _)
    rw [P.eval_implies, hv₁, hv₂, Interpretation.eval]
  | iff e₁ e₂ ih₁ ih₂ =>
    have h₁ := ih₁ s hs fun x hx => he x (List.mem_append_left _ hx)
    have h₂ := ih₂ _ h₁.valid fun x hx => he x (List.mem_append_right _ hx)
    refine h₁.binary h₂ (fun M ρ hv₁ hv₂ => ?_) (P.vars_equiv _ _)
    rw [P.eval_equiv, hv₁, hv₂, Interpretation.eval]
  | disequation e₁ e₂ ih₁ ih₂ =>
    have h₁ := ih₁ s hs fun x hx => he x (List.mem_append_left _ hx)
    have h₂ := ih₂ _ h₁.valid fun x hx => he x (List.mem_append_right _ hx)
    refine h₁.binary h₂ (fun M ρ hv₁ hv₂ => ?_) (fun u hu => P.vars_equiv _ _ (P.vars_not _ hu))
    rw [P.eval_not, P.eval_equiv, hv₁, hv₂, Interpretation.eval]
  | branch e₁ e₂ e₃ ih₁ ih₂ ih₃ =>
    have h₁ := ih₁ s hs fun x hx => he x (List.mem_append_left _ hx)
    have h₂ := ih₂ _ h₁.valid fun x hx =>
      he x (List.mem_append_right _ (List.mem_append_left _ hx))
    have h₃ := ih₃ _ h₂.valid fun x hx =>
      he x (List.mem_append_right _ (List.mem_append_right _ hx))
    have h₁' := (h₁.denotes.mono h₂.extends_).mono h₃.extends_
    have h₂' := h₂.denotes.mono h₃.extends_
    refine ⟨h₃.valid, (h₁.extends_.trans h₂.extends_).trans h₃.extends_, fun M ρ hρ => ?_,
      fun n hn => ?_⟩
    · rw [translateToBdd, P.eval_ite, h₁'.eval M ρ hρ, h₂'.eval M ρ hρ, h₃.denotes.eval M ρ hρ,
        Interpretation.eval]
    · rcases List.mem_append.1 (P.vars_ite _ _ _ hn) with hn | hn
      · exact h₁'.vars n hn
      · rcases List.mem_append.1 hn with hn | hn
        · exact h₂'.vars n hn
        · exact h₃.denotes.vars n hn
  | recognizer op arg con => exact makeBddVar_translates hs (he _ (List.mem_singleton_self _))
  | equation unit left arg con => exact makeBddVar_translates hs (he _ (List.mem_singleton_self _))
  | injection arg index =>
    exact translateExpr_translates hs fun _ _ => he _ (List.mem_singleton_self _)
  | atom a =>
    rw [translateToBdd]
    split_ifs
    · exact makeBddVar_translates hs (he _ (List.mem_singleton_self _))
    · exact translateExpr_translates hs fun _ _ => he _ (List.mem_singleton_self _)

end Diagrams

end PVS.BddSimp
