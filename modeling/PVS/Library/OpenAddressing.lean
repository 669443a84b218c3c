import Mathlib.Data.Finset.Card
import Mathlib.Data.Finset.Range
import Mathlib.Data.Int.ModEq
import Mathlib.Data.Nat.Find
import Mathlib.Logic.Function.Iterate

/-! Searching a cyclic table by linear probing. -/

namespace PVS.Library

section Search

variable {σ : Type} {next : σ → σ} {stop : σ → Option Bool}

/-- `while (!stop(s)) s = next(s)`, cut off after `n` tests; a test can fail. -/
def search (next : σ → σ) (stop : σ → Option Bool) : ℕ → σ → Option σ
  | 0, _ => none
  | n + 1, s => do if ← stop s then some s else search next stop n (next s)

theorem search_eq_some_iff {n : ℕ} {s t : σ} :
    search next stop n s = some t ↔
      ∃ d < n, next^[d] s = t ∧ stop t = some true ∧ ∀ e < d, stop (next^[e] s) = some false := by
  induction n generalizing s with
  | zero => simp [search]
  | succ n ih =>
    rw [search]
    constructor
    · intro h
      cases hs : stop s with
      | none => simp [hs] at h
      | some b =>
        cases b with
        | true =>
          simp only [hs, Option.bind_eq_bind, Option.bind_some, if_true, Option.some_inj] at h
          subst h
          exact ⟨0, Nat.succ_pos n, rfl, hs, fun e he => absurd he (Nat.not_lt_zero e)⟩
        | false =>
          simp only [hs, Option.bind_eq_bind, Option.bind_some, Bool.false_eq_true, if_false] at h
          obtain ⟨d, hd, ht, hstop, hlt⟩ := ih.1 h
          refine ⟨d + 1, Nat.succ_lt_succ hd, ht, hstop, ?_⟩
          intro e he
          cases e with
          | zero => exact hs
          | succ e => exact hlt e (Nat.lt_of_succ_lt_succ he)
    · rintro ⟨d, hd, ht, hstop, hlt⟩
      cases d with
      | zero =>
        obtain rfl : s = t := ht
        simp [hstop]
      | succ d =>
        have hs : stop s = some false := hlt 0 (Nat.succ_pos d)
        simp only [hs, Option.bind_eq_bind, Option.bind_some, Bool.false_eq_true, if_false]
        refine ih.2 ⟨d, Nat.lt_of_succ_lt_succ hd, ht, hstop, ?_⟩
        intro e he
        exact hlt (e + 1) (Nat.succ_lt_succ he)

end Search

section Probe

variable {m : ℕ} {full : ℕ → Prop}

theorem iterate_probe (m h d : ℕ) : (fun i => (i + 1) % m)^[d] (h % m) = (h + d) % m := by
  induction d with
  | zero => rfl
  | succ d ih =>
    rw [Function.iterate_succ_apply', ih]
    rw [Nat.mod_add_mod, Nat.add_assoc]

theorem probe_inj {h d e : ℕ} (hd : d < m) (he : e < m) (heq : (h + d) % m = (h + e) % m) :
    d = e := by
  have hmod : d % m = e % m := Nat.ModEq.add_left_cancel' h heq
  rwa [Nat.mod_eq_of_lt hd, Nat.mod_eq_of_lt he] at hmod

/-- Slot `j` is reached from hash `h` over full slots. -/
def Reach (full : ℕ → Prop) (m h j : ℕ) : Prop :=
  ∃ d < m, (h + d) % m = j ∧ ∀ e < d, full ((h + e) % m)

theorem Reach.mono {full' : ℕ → Prop} {h j : ℕ} (hr : Reach full m h j)
    (hf : ∀ i, full i → full' i) : Reach full' m h j := by
  obtain ⟨d, hd, hj, hlt⟩ := hr
  exact ⟨d, hd, hj, fun e he => hf _ (hlt e he)⟩

theorem exists_probe {j : ℕ} (hj : j < m) (h : ℕ) : ∃ d < m, (h + d) % m = j := by
  have hm : 0 < m := Nat.lt_of_le_of_lt (Nat.zero_le j) hj
  have hh : h % m < m := Nat.mod_lt h hm
  refine ⟨(j + (m - h % m)) % m, Nat.mod_lt _ hm, ?_⟩
  rw [Nat.add_mod_mod, ← Nat.mod_add_mod]
  have hsum : h % m + (j + (m - h % m)) = j + m := by omega
  rw [hsum, Nat.add_mod_right, Nat.mod_eq_of_lt hj]

/-- A probe ends at the first slot that is not full. -/
theorem exists_reach_not_full [DecidablePred full] {j : ℕ} (hj : j < m) (hf : ¬full j) (h : ℕ) :
    ∃ d < m, ¬full ((h + d) % m) ∧ ∀ e < d, full ((h + e) % m) := by
  obtain ⟨d, hd, rfl⟩ := exists_probe hj h
  have hex : ∃ d, ¬full ((h + d) % m) := ⟨d, hf⟩
  refine ⟨Nat.find hex, Nat.lt_of_le_of_lt (Nat.find_min' hex hf) hd, Nat.find_spec hex, ?_⟩
  intro e he
  exact not_not.1 (Nat.find_min hex he)

end Probe

theorem card_filter_range_eq_countP {α : Type} (p : α → Bool) (l : List α) :
    ((Finset.range l.length).filter fun j => (l[j]?.any p) = true).card = l.countP p := by
  induction l using List.reverseRecOn with
  | nil => rfl
  | append_singleton l a ih =>
    have hcongr : ((Finset.range l.length).filter fun j => ((l ++ [a])[j]?.any p) = true) =
        (Finset.range l.length).filter fun j => (l[j]?.any p) = true := by
      apply Finset.filter_congr
      intro j hj
      rw [List.getElem?_append_left (Finset.mem_range.1 hj)]
    rw [List.length_append, List.length_singleton, Finset.range_add_one, Finset.filter_insert,
      List.getElem?_concat_length, List.countP_append, hcongr]
    cases hp : p a with
    | true => simp [hp, ih]
    | false => simp [hp, ih]

end PVS.Library
