import Mathlib.Data.List.Basic
import Mathlib.Data.List.Nodup

/-! Decision diagrams as trees, their cubes, and what a package of operations on them is. -/

namespace PVS.Library

inductive Bdd
  | zero
  | one
  | node (var : ℕ) (pos neg : Bdd)
  deriving DecidableEq

namespace Bdd

/-! ### Values -/

def eval (ρ : ℕ → Bool) : Bdd → Bool
  | zero => false
  | one => true
  | node v pos neg => if ρ v then eval ρ pos else eval ρ neg

def vars : Bdd → List ℕ
  | zero => []
  | one => []
  | node v pos neg => v :: (vars pos ++ vars neg)

theorem eval_congr {ρ σ : ℕ → Bool} (f : Bdd) (h : ∀ v ∈ f.vars, ρ v = σ v) :
    f.eval ρ = f.eval σ := by
  induction f with
  | zero => rfl
  | one => rfl
  | node v pos neg ihp ihn =>
    have hpos := ihp fun u hu => h u (List.mem_cons_of_mem _ (List.mem_append_left _ hu))
    have hneg := ihn fun u hu => h u (List.mem_cons_of_mem _ (List.mem_append_right _ hu))
    rw [eval, eval, h v List.mem_cons_self, hpos, hneg]

/-! ### Cubes -/

/-- A conjunction of literals of different variables. -/
inductive IsCube : Bdd → Prop
  | one : IsCube one
  | pos {v : ℕ} {c : Bdd} : IsCube c → v ∉ c.vars → IsCube (node v c zero)
  | neg {v : ℕ} {c : Bdd} : IsCube c → v ∉ c.vars → IsCube (node v zero c)

theorem IsCube.ne_zero {c : Bdd} (hc : IsCube c) : c ≠ zero := by
  cases hc with
  | _ => rintro ⟨⟩

/-- A cube has a model. -/
theorem IsCube.exists_eval {c : Bdd} (hc : IsCube c) : ∃ ρ, c.eval ρ = true := by
  induction hc with
  | one => exact ⟨fun _ => true, rfl⟩
  | @pos v c _ hv ih =>
    obtain ⟨ρ, hρ⟩ := ih
    refine ⟨fun u => if u = v then true else ρ u, ?_⟩
    rw [eval, if_pos (by simp), eval_congr c (σ := ρ), hρ]
    intro u hu
    have hne : u ≠ v := by
      rintro rfl
      exact hv hu
    exact if_neg hne
  | @neg v c _ hv ih =>
    obtain ⟨ρ, hρ⟩ := ih
    refine ⟨fun u => if u = v then false else ρ u, ?_⟩
    rw [eval, if_neg (by simp), eval_congr c (σ := ρ), hρ]
    intro u hu
    have hne : u ≠ v := by
      rintro rfl
      exact hv hu
    exact if_neg hne

end Bdd

/-! ### Packages -/

/-- Operations on diagrams. `constrain f c` is only known where `c` holds. -/
structure BddPackage where
  var : ℕ → Bdd
  not : Bdd → Bdd
  and : Bdd → Bdd → Bdd
  or : Bdd → Bdd → Bdd
  implies : Bdd → Bdd → Bdd
  equiv : Bdd → Bdd → Bdd
  ite : Bdd → Bdd → Bdd → Bdd
  constrain : Bdd → Bdd → Bdd
  sumOfCubes : Bdd → Bool → List Bdd
  eval_var : ∀ v ρ, (var v).eval ρ = ρ v
  eval_not : ∀ f ρ, (not f).eval ρ = !f.eval ρ
  eval_and : ∀ f g ρ, (and f g).eval ρ = (f.eval ρ && g.eval ρ)
  eval_or : ∀ f g ρ, (or f g).eval ρ = (f.eval ρ || g.eval ρ)
  eval_implies : ∀ f g ρ, (implies f g).eval ρ = (!f.eval ρ || g.eval ρ)
  eval_equiv : ∀ f g ρ, (equiv f g).eval ρ = (f.eval ρ == g.eval ρ)
  eval_ite : ∀ f g h ρ, (ite f g h).eval ρ = if f.eval ρ then g.eval ρ else h.eval ρ
  eval_constrain : ∀ f c ρ, c.eval ρ = true → (constrain f c).eval ρ = f.eval ρ
  isCube : ∀ f irredundant, ∀ c ∈ sumOfCubes f irredundant, c.IsCube
  eval_sumOfCubes : ∀ f irredundant ρ,
    ((sumOfCubes f irredundant).any fun c => c.eval ρ) = f.eval ρ
  vars_var : ∀ v, (var v).vars ⊆ [v]
  vars_not : ∀ f, (not f).vars ⊆ f.vars
  vars_and : ∀ f g, (and f g).vars ⊆ f.vars ++ g.vars
  vars_or : ∀ f g, (or f g).vars ⊆ f.vars ++ g.vars
  vars_implies : ∀ f g, (implies f g).vars ⊆ f.vars ++ g.vars
  vars_equiv : ∀ f g, (equiv f g).vars ⊆ f.vars ++ g.vars
  vars_ite : ∀ f g h, (ite f g h).vars ⊆ f.vars ++ (g.vars ++ h.vars)
  vars_constrain : ∀ f c, (constrain f c).vars ⊆ f.vars ++ c.vars
  vars_sumOfCubes : ∀ f irredundant, ∀ c ∈ sumOfCubes f irredundant, c.vars ⊆ f.vars

attribute [simp] BddPackage.eval_var BddPackage.eval_not BddPackage.eval_and BddPackage.eval_or
  BddPackage.eval_implies BddPackage.eval_equiv BddPackage.eval_ite

/-- What is never true has no cubes. -/
theorem BddPackage.sumOfCubes_eq_nil (P : BddPackage) {f : Bdd} (irredundant : Bool)
    (hf : ∀ ρ, f.eval ρ = false) : P.sumOfCubes f irredundant = [] := by
  rw [List.eq_nil_iff_forall_not_mem]
  intro c hc
  obtain ⟨ρ, hρ⟩ := (P.isCube f irredundant c hc).exists_eval
  have hany := P.eval_sumOfCubes f irredundant ρ
  rw [hf ρ, List.any_eq_false] at hany
  exact hany c hc hρ

/-! ### Trees without sharing -/

namespace Bdd

def ite : Bdd → Bdd → Bdd → Bdd
  | zero, _, h => h
  | one, g, _ => g
  | node v pos neg, g, h => node v (ite pos g h) (ite neg g h)

theorem eval_ite (f g h : Bdd) (ρ : ℕ → Bool) :
    (ite f g h).eval ρ = if f.eval ρ then g.eval ρ else h.eval ρ := by
  induction f with
  | zero => rfl
  | one => rfl
  | node v pos neg ihp ihn =>
    rw [ite, eval, eval, ihp, ihn]
    cases ρ v <;> rfl

theorem vars_ite (f g h : Bdd) : (ite f g h).vars ⊆ f.vars ++ (g.vars ++ h.vars) := by
  induction f with
  | zero => simp [ite]
  | one => simp [ite]
  | node v pos neg ihp ihn =>
    intro u hu
    simp only [ite, vars, List.mem_cons, List.mem_append] at hu ⊢
    rcases hu with rfl | hu | hu
    · exact .inl (.inl rfl)
    · have := ihp hu
      simp only [List.mem_append] at this
      tauto
    · have := ihn hu
      simp only [List.mem_append] at this
      tauto

/-- The cubes of the paths to `one`; `path` has the variables that were decided. -/
def cubes : (path : List (ℕ × Bool)) → Bdd → List Bdd
  | _, zero => []
  | _, one => [one]
  | path, node v pos neg =>
    match path.lookup v with
    | some true => cubes path pos
    | some false => cubes path neg
    | none => (cubes ((v, true) :: path) pos).map (node v · zero) ++
        (cubes ((v, false) :: path) neg).map (node v zero ·)

theorem cubes_vars (f : Bdd) (path : List (ℕ × Bool)) :
    ∀ c ∈ cubes path f, (∀ v ∈ c.vars, v ∈ f.vars ∧ path.lookup v = none) := by
  induction f generalizing path with
  | zero => simp [cubes]
  | one => simp [cubes, vars]
  | node u pos neg ihp ihn =>
    intro c hc v hv
    rw [cubes] at hc
    cases hu : path.lookup u with
    | some b =>
      cases b with
      | true =>
        rw [hu] at hc
        obtain ⟨hvar, hfree⟩ := ihp path c hc v hv
        exact ⟨List.mem_cons_of_mem _ (List.mem_append_left _ hvar), hfree⟩
      | false =>
        rw [hu] at hc
        obtain ⟨hvar, hfree⟩ := ihn path c hc v hv
        exact ⟨List.mem_cons_of_mem _ (List.mem_append_right _ hvar), hfree⟩
    | none =>
      rw [hu] at hc
      have hlookup : ∀ b, List.lookup v ((u, b) :: path) = none → path.lookup v = none := by
        intro b hnone
        rw [List.lookup_cons] at hnone
        split at hnone
        · cases hnone
        · exact hnone
      rcases List.mem_append.1 hc with hc | hc
      · obtain ⟨d, hd, rfl⟩ := List.mem_map.1 hc
        simp only [vars, List.append_nil, List.mem_cons] at hv
        rcases hv with rfl | hv
        · exact ⟨List.mem_cons_self, hu⟩
        · obtain ⟨hvar, hfree⟩ := ihp _ d hd v hv
          exact ⟨List.mem_cons_of_mem _ (List.mem_append_left _ hvar), hlookup true hfree⟩
      · obtain ⟨d, hd, rfl⟩ := List.mem_map.1 hc
        simp only [vars, List.nil_append, List.mem_cons] at hv
        rcases hv with rfl | hv
        · exact ⟨List.mem_cons_self, hu⟩
        · obtain ⟨hvar, hfree⟩ := ihn _ d hd v hv
          exact ⟨List.mem_cons_of_mem _ (List.mem_append_right _ hvar), hlookup false hfree⟩

theorem cubes_isCube (f : Bdd) (path : List (ℕ × Bool)) : ∀ c ∈ cubes path f, c.IsCube := by
  induction f generalizing path with
  | zero => simp [cubes]
  | one =>
    intro c hc
    rw [cubes, List.mem_singleton] at hc
    exact hc ▸ .one
  | node u pos neg ihp ihn =>
    intro c hc
    rw [cubes] at hc
    cases hu : path.lookup u with
    | some b =>
      rw [hu] at hc
      cases b with
      | true => exact ihp path c hc
      | false => exact ihn path c hc
    | none =>
      rw [hu] at hc
      -- the variable is decided below, so that it does not come up there
      have hfresh : ∀ b (g : Bdd), ∀ d ∈ cubes ((u, b) :: path) g, u ∉ d.vars := by
        intro b g d hd hmem
        have := (cubes_vars g _ d hd u hmem).2
        simp at this
      rcases List.mem_append.1 hc with hc | hc
      · obtain ⟨d, hd, rfl⟩ := List.mem_map.1 hc
        exact .pos (ihp _ d hd) (hfresh true pos d hd)
      · obtain ⟨d, hd, rfl⟩ := List.mem_map.1 hc
        exact .neg (ihn _ d hd) (hfresh false neg d hd)

theorem eval_cubes (f : Bdd) (path : List (ℕ × Bool)) (ρ : ℕ → Bool)
    (hpath : ∀ v b, path.lookup v = some b → ρ v = b) :
    ((cubes path f).any fun c => c.eval ρ) = f.eval ρ := by
  induction f generalizing path with
  | zero => rfl
  | one => rfl
  | node u pos neg ihp ihn =>
    rw [cubes, eval]
    cases hu : path.lookup u with
    | some b =>
      have hb := hpath u b hu
      cases b with
      | true => simp [hb, ihp path hpath]
      | false => simp [hb, ihn path hpath]
    | none =>
      have hcons : ∀ v b, List.lookup v ((u, ρ u) :: path) = some b → ρ v = b := by
        intro v b hv
        rw [List.lookup_cons] at hv
        split at hv
        case h_1 heq =>
          cases hv
          rw [beq_iff_eq.1 heq]
        case h_2 => exact hpath v b hv
      simp only [List.any_append, List.any_map, Function.comp_def, eval]
      cases hρ : ρ u with
      | true =>
        rw [hρ] at hcons
        simp [ihp _ hcons]
      | false =>
        rw [hρ] at hcons
        simp [ihn _ hcons]

end Bdd

/-- Operations on trees; here `constrain f c` is the conjunction. -/
def treePackage : BddPackage where
  var v := .node v .one .zero
  not f := f.ite .zero .one
  and f g := f.ite g .zero
  or f g := f.ite .one g
  implies f g := f.ite g .one
  equiv f g := f.ite g (g.ite .zero .one)
  ite := Bdd.ite
  constrain f c := f.ite c .zero
  sumOfCubes f _ := f.cubes []
  eval_var v ρ := by cases h : ρ v <;> simp [Bdd.eval, h]
  eval_not f ρ := by cases h : f.eval ρ <;> simp [Bdd.eval_ite, Bdd.eval, h]
  eval_and f g ρ := by cases h : f.eval ρ <;> simp [Bdd.eval_ite, Bdd.eval, h]
  eval_or f g ρ := by cases h : f.eval ρ <;> simp [Bdd.eval_ite, Bdd.eval, h]
  eval_implies f g ρ := by cases h : f.eval ρ <;> simp [Bdd.eval_ite, Bdd.eval, h]
  eval_equiv f g ρ := by cases h : f.eval ρ <;> cases h' : g.eval ρ <;> simp [Bdd.eval_ite, Bdd.eval, h, h']
  eval_ite := Bdd.eval_ite
  eval_constrain f c ρ hc := by cases h : f.eval ρ <;> simp [Bdd.eval_ite, Bdd.eval, h, hc]
  isCube f _ := f.cubes_isCube []
  eval_sumOfCubes f _ ρ := f.eval_cubes [] ρ (by simp)
  vars_var v := by simp [Bdd.vars]
  vars_not f := by simpa [Bdd.vars] using f.vars_ite .zero .one
  vars_and f g := by simpa [Bdd.vars] using f.vars_ite g .zero
  vars_or f g := by simpa [Bdd.vars] using f.vars_ite .one g
  vars_implies f g := by simpa [Bdd.vars] using f.vars_ite g .one
  vars_equiv f g := by
    intro v hv
    have hg := g.vars_ite .zero .one
    have hf := f.vars_ite g (g.ite .zero .one) hv
    simp only [Bdd.vars, List.append_nil, List.mem_append] at hg hf ⊢
    rcases hf with hf | hf | hf
    · exact .inl hf
    · exact .inr hf
    · exact .inr (hg hf)
  vars_ite := Bdd.vars_ite
  vars_constrain f c := by simpa [Bdd.vars] using f.vars_ite c .zero
  vars_sumOfCubes f _ c hc v hv := (f.cubes_vars [] c hc v hv).1

end PVS.Library
