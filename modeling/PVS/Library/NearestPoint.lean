import Mathlib
import PVS.Library.ReducedBdd

/-! The point of a diagram that is nearest to another one. -/

namespace PVS.Library.Bdd

/-- Where only one branch can hold that one is taken, else the branch of the point itself. -/
def nearest : Bdd → (ℕ → Bool) → (ℕ → Bool)
  | zero, ρ => ρ
  | one, ρ => ρ
  | node v pos neg, ρ =>
    if neg = zero ∨ (pos ≠ zero ∧ ρ v = true) then Function.update (nearest pos ρ) v true
    else Function.update (nearest neg ρ) v false

variable {c f g : Bdd} {v : ℕ} {rank space : ℕ → ℕ} {lo : ℕ} {ρ x y : ℕ → Bool}

theorem nearest_update (hv : v ∉ c.vars) (ρ : ℕ → Bool) (b : Bool) :
    c.nearest (Function.update ρ v b) = Function.update (c.nearest ρ) v b := by
  induction c with
  | zero => rfl
  | one => rfl
  | node u pos neg ihp ihn =>
    simp only [vars, List.mem_cons, List.mem_append, not_or] at hv
    obtain ⟨hne, hpos, hneg⟩ := hv
    rw [nearest, nearest, Function.update_of_ne (Ne.symm hne), ihp hpos, ihn hneg]
    split
    · rw [Function.update_comm (Ne.symm hne)]
    · rw [Function.update_comm (Ne.symm hne)]

theorem nearest_apply (hv : v ∉ c.vars) (ρ : ℕ → Bool) : c.nearest ρ v = ρ v := by
  have h := congrFun (nearest_update hv ρ (ρ v)) v
  rwa [Function.update_eq_self, Function.update_self] at h

theorem eval_update_of_isReduced (hf : IsReduced rank (rank v + 1) f) (ρ : ℕ → Bool) (b : Bool) :
    f.eval (Function.update ρ v b) = f.eval ρ :=
  eval_update_of_notMem (hf.notMem_vars (Nat.lt_succ_self _)) ρ b

/-- The nearest point is one where the diagram holds. -/
theorem IsReduced.eval_nearest (hc : IsReduced rank lo c) (hne : c ≠ Bdd.zero) (ρ : ℕ → Bool) :
    c.eval (c.nearest ρ) = true := by
  induction hc with
  | zero => exact absurd rfl hne
  | one => rfl
  | @node lo v pos neg _ hpos hneg hpn ihp ihn =>
    rw [nearest]
    split
    · rename_i h
      rw [eval, Function.update_self, if_pos rfl, eval_update_of_isReduced hpos]
      refine ihp ?_
      rintro rfl
      rcases h with rfl | h
      · exact hpn rfl
      · exact h.1 rfl
    · rename_i h
      rw [eval, Function.update_self, if_neg (by simp), eval_update_of_isReduced hneg]
      exact ihn fun hzero => h (.inl hzero)

/-- A point where the diagram holds is its own nearest point. -/
theorem nearest_of_eval (h : c.eval ρ = true) : c.nearest ρ = ρ := by
  induction c with
  | zero => rfl
  | one => rfl
  | node v pos neg ihp ihn =>
    rw [eval] at h
    rw [nearest]
    cases hv : ρ v with
    | true =>
      rw [hv, if_pos rfl] at h
      have hne : pos ≠ zero := by
        rintro rfl
        cases h
      rw [if_pos (.inr ⟨hne, rfl⟩), ihp h, ← hv, Function.update_eq_self]
    | false =>
      rw [hv, if_neg (by simp)] at h
      have hne : neg ≠ zero := by
        rintro rfl
        cases h
      rw [if_neg (by simp [hne]), ihn h, ← hv, Function.update_eq_self]

/-! ### Points chosen for others -/

/-- A point where `c` holds, the same one where possible, that differs in the variables of `c` only. -/
structure IsChoice (c : Bdd) (x y : ℕ → Bool) : Prop where
  eval : c.eval y = true
  eq : c.eval x = true → y = x
  apply : ∀ v ∉ c.vars, y v = x v

theorem IsReduced.isChoice_nearest (hc : IsReduced rank lo c) (hne : c ≠ Bdd.zero) (ρ : ℕ → Bool) :
    c.IsChoice ρ (c.nearest ρ) :=
  ⟨hc.eval_nearest hne ρ, nearest_of_eval, fun _ hv => nearest_apply hv ρ⟩

section Choice

variable {pos neg d : Bdd} (hp : v ∉ pos.vars) (hn : v ∉ neg.vars)
include hp hn

theorem IsChoice.node_pos (h : pos.IsChoice x y) (hx : neg = zero ∨ x v = true) :
    (node v pos neg).IsChoice x (Function.update y v true) where
  eval := by rw [eval_node_update hp hn, if_pos rfl, h.eval]
  eq hc := by
    rw [Bdd.eval] at hc
    have hv : x v = true := by
      rcases hx with rfl | hx
      · by_contra hv
        rw [if_neg hv] at hc
        cases hc
      · exact hx
    rw [hv, if_pos rfl] at hc
    rw [h.eq hc, ← hv, Function.update_eq_self]
  apply u hu := by
    simp only [vars, List.mem_cons, List.mem_append, not_or] at hu
    rw [Function.update_of_ne hu.1, h.apply u hu.2.1]

theorem IsChoice.node_neg (h : neg.IsChoice x y) (hx : pos = zero ∨ x v = false) :
    (node v pos neg).IsChoice x (Function.update y v false) where
  eval := by rw [eval_node_update hp hn, if_neg (by simp), h.eval]
  eq hc := by
    rw [Bdd.eval] at hc
    have hv : x v = false := by
      rcases hx with rfl | hx
      · by_contra hv
        rw [Bool.not_eq_false] at hv
        rw [if_pos hv] at hc
        cases hc
      · exact hx
    rw [hv, if_neg (by simp)] at hc
    rw [h.eq hc, ← hv, Function.update_eq_self]
  apply u hu := by
    simp only [vars, List.mem_cons, List.mem_append, not_or] at hu
    rw [Function.update_of_ne hu.1, h.apply u hu.2.2]

/-- A choice where one of the branches holds makes one where the node does. -/
theorem IsChoice.exists (hd : ∀ ρ, d.eval ρ = (pos.eval ρ || neg.eval ρ))
    (hvars : ∀ u ∈ d.vars, u ∈ pos.vars ∨ u ∈ neg.vars) (h : d.IsChoice x y) :
    ∃ b, (node v pos neg).IsChoice x (Function.update y v b) := by
  have happly : ∀ b, ∀ u ∉ (node v pos neg).vars, Function.update y v b u = x u := by
    intro b u hu
    simp only [vars, List.mem_cons, List.mem_append, not_or] at hu
    rw [Function.update_of_ne hu.1]
    exact h.apply u fun hmem => (hvars u hmem).elim hu.2.1 hu.2.2
  have hx : (node v pos neg).eval x = true → d.eval x = true := by
    intro hc
    rw [Bdd.eval] at hc
    rw [hd, Bool.or_eq_true]
    split at hc
    · exact .inl hc
    · exact .inr hc
  have hy := h.eval
  rw [hd, Bool.or_eq_true] at hy
  -- the value of `v` stays where its branch holds
  by_cases hkeep : (node v pos neg).eval (Function.update y v (x v)) = true
  · exact ⟨x v, hkeep, fun hc => by rw [h.eq (hx hc), Function.update_eq_self], happly _⟩
  · refine ⟨!x v, ?_, fun hc => ?_, happly _⟩
    · rw [eval_node_update hp hn] at hkeep ⊢
      cases hv : x v with
      | true =>
        rw [hv, if_pos rfl] at hkeep
        exact hy.resolve_left hkeep
      | false =>
        rw [hv, if_neg (by simp)] at hkeep
        exact hy.resolve_right hkeep
    · rw [h.eq (hx hc), Function.update_eq_self] at hkeep
      exact absurd hc hkeep

end Choice

/-! ### The nearest point is at the least distance -/

/-- The distance of two points; an earlier variable weighs more than all later ones. -/
def dist (space : ℕ → ℕ) (n : ℕ) (x y : ℕ → Bool) : ℕ :=
  ∑ i ∈ Finset.range n, if x (space i) = y (space i) then 0 else 2 ^ (n - i)

theorem sum_two_pow_lt (n k : ℕ) (h : k < n) :
    ∑ i ∈ Finset.Ico (k + 1) n, 2 ^ (n - i) < 2 ^ (n - k) := by
  induction hd : n - k generalizing k with
  | zero => omega
  | succ d ih =>
    by_cases hk : k + 1 < n
    · rw [Finset.sum_eq_sum_Ico_succ_bot hk]
      have hrest := ih (k + 1) hk (by omega)
      have heq : n - (k + 1) = d := by omega
      rw [heq]
      rw [Nat.pow_succ]
      omega
    · rw [Finset.Ico_eq_empty (by omega), Finset.sum_empty]
      exact Nat.two_pow_pos _

/-- Points that agree before rank `k` and differ there are farther than all that agree so far. -/
theorem dist_lt_of_agree {k n : ℕ} (hk : k < n) {z : ℕ → Bool} (hz : ∀ i ≤ k, x (space i) = z (space i))
    (hy : x (space k) ≠ y (space k)) : dist space n x z < dist space n x y := by
  have hlow : dist space n x z ≤ ∑ i ∈ Finset.Ico (k + 1) n, 2 ^ (n - i) := by
    rw [dist, ← Finset.sum_range_add_sum_Ico _ (show k + 1 ≤ n from hk)]
    have hzero : ∑ i ∈ Finset.range (k + 1),
        (if x (space i) = z (space i) then 0 else 2 ^ (n - i)) = 0 :=
      Finset.sum_eq_zero fun i hi => if_pos (hz i (Nat.le_of_lt_succ (Finset.mem_range.1 hi)))
    rw [hzero, Nat.zero_add]
    refine Finset.sum_le_sum fun i _ => ?_
    split
    · exact Nat.zero_le _
    · exact le_rfl
  have hhigh : 2 ^ (n - k) ≤ dist space n x y := by
    have h := Finset.single_le_sum (f := fun i => if x (space i) = y (space i) then 0 else 2 ^ (n - i))
      (fun i _ => Nat.zero_le _) (Finset.mem_range.2 hk)
    rw [dist]
    simpa only [if_neg hy] using h
  exact hlow.trans_lt ((sum_two_pow_lt n k hk).trans_le hhigh)

theorem dist_update {k n : ℕ} {b : Bool} (hk : k < n) (hinj : Function.Injective space)
    (hxy : x (space k) = y (space k)) (hb : x (space k) ≠ b) :
    dist space n x (Function.update y (space k) b) = 2 ^ (n - k) + dist space n x y := by
  rw [dist, dist, ← Finset.add_sum_erase _ _ (Finset.mem_range.2 hk),
    ← Finset.add_sum_erase _ _ (Finset.mem_range.2 hk), if_pos hxy, Nat.zero_add,
    Function.update_self, if_neg hb]
  congr 1
  refine Finset.sum_congr rfl fun i hi => ?_
  rw [Function.update_of_ne (hinj.ne (Finset.ne_of_mem_erase hi))]

theorem IsReduced.nearest_of_lt (hc : IsReduced rank lo c) (hv : rank v < lo) (ρ : ℕ → Bool) :
    c.nearest ρ v = ρ v := nearest_apply (hc.notMem_vars hv) ρ

/-- No point where the diagram holds is nearer. -/
theorem IsReduced.dist_nearest_le (hspace : ∀ i, rank (space i) = i) (hrank : ∀ v, space (rank v) = v)
    (hc : IsReduced rank lo c) {n : ℕ} (hn : ∀ v ∈ c.vars, rank v < n) (x : ℕ → Bool)
    (hy : c.eval y = true) : dist space n x (c.nearest x) ≤ dist space n x y := by
  have hinj : Function.Injective space := Function.LeftInverse.injective hspace
  induction hc generalizing y with
  | zero => cases hy
  | one =>
    have hzero : dist space n x x = 0 := Finset.sum_eq_zero fun i _ => if_pos rfl
    rw [nearest, hzero]
    exact Nat.zero_le _
  | @node lo v pos neg _ hpos hneg hpn ihp ihn =>
    have hk := hn v (by simp [vars])
    have hnp : ∀ u ∈ pos.vars, rank u < n := fun u hu => hn u (by simp [vars, hu])
    have hnn : ∀ u ∈ neg.vars, rank u < n := fun u hu => hn u (by simp [vars, hu])
    -- the branch that is taken, with the value of `v` there
    have key : ∀ (br : Bdd) (b : Bool), IsReduced rank (rank v + 1) br →
        (∀ {y : ℕ → Bool}, br.eval y = true →
          dist space n x (br.nearest x) ≤ dist space n x y) →
        (y v = b → br.eval y = true) → (x v ≠ b → y v = b) →
        dist space n x (Function.update (br.nearest x) v b) ≤ dist space n x y := by
      intro br b hbr ih hyb hforced
      have hkeep : ∀ i ≤ rank v, br.nearest x (space i) = x (space i) := fun i hi =>
        hbr.nearest_of_lt (by rw [hspace]; omega) x
      have hv : br.nearest x v = x v := hbr.nearest_of_lt (Nat.lt_succ_self _) x
      by_cases hxb : x v = b
      · rw [← hxb, ← hv, Function.update_eq_self]
        by_cases hyv : y v = b
        · exact ih (hyb hyv)
        · refine (dist_lt_of_agree hk (fun i hi => (hkeep i hi).symm) ?_).le
          rw [hrank, hxb]
          exact Ne.symm hyv
      · have hyv := hforced hxb
        have hupd := dist_update hk hinj (hkeep _ le_rfl).symm (b := b) (by rwa [hrank])
        have hupdy := dist_update (y := Function.update y v (x v)) (b := b) hk hinj
          (by rw [hrank, Function.update_self]) (by rwa [hrank])
        rw [hrank] at hupd hupdy
        rw [Function.update_idem, ← hyv, Function.update_eq_self] at hupdy
        rw [← hyv] at hupd
        rw [← hyv, hupd, hupdy]
        refine Nat.add_le_add_left (ih ?_) _
        rw [eval_update_of_isReduced hbr]
        exact hyb hyv
    rw [eval] at hy
    rw [nearest]
    split
    · rename_i h
      refine key pos true hpos (ihp hnp) (fun hyv => by rwa [hyv, if_pos rfl] at hy) fun hxv => ?_
      rcases h with rfl | h
      · by_contra hyv
        rw [if_neg hyv] at hy
        cases hy
      · exact absurd h.2 hxv
    · rename_i h
      rw [not_or, not_and] at h
      refine key neg false hneg (ihn hnn) (fun hyv => by rwa [hyv, if_neg (by simp)] at hy)
        fun hxv => ?_
      have hx : x v = true := by simpa using hxv
      have hzero : pos = Bdd.zero := by
        by_contra hne
        exact h.2 hne hx
      rw [hzero] at hy
      cases hyv : y v with
      | false => rfl
      | true =>
        rw [hyv, if_pos rfl] at hy
        cases hy

end PVS.Library.Bdd
