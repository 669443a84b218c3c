import Mathlib.Logic.Basic
import Mathlib.Order.Basic
import Mathlib.Order.Defs.Unbundled
import Mathlib.Data.Nat.Init

/-! Imperative code whose loops are cut off: `run n` bounds the rounds of every loop by `n`, `none`
is a loop that was cut off, and a larger bound changes nothing else. -/

namespace PVS.Library

/-- Code with a state `σ`, exceptions `ε` and a result `α`. -/
structure Fueled (σ ε α : Type) where
  run : ℕ → σ → Option (Except ε α × σ)
  mono : ∀ {n n' : ℕ} {s : σ} {x : Except ε α × σ}, n ≤ n' → run n s = some x → run n' s = some x

variable {σ ε α β γ : Type}

namespace Fueled

theorem ext {m m' : Fueled σ ε α} (h : ∀ n s, m.run n s = m'.run n s) : m = m' := by
  cases m
  cases m'
  simp only [mk.injEq]
  exact funext fun n => funext fun s => h n s

def bindRun (m : Fueled σ ε α) (f : α → Fueled σ ε β) (n : ℕ) (s : σ) :
    Option (Except ε β × σ) :=
  match m.run n s with
  | none => none
  | some (.error e, s') => some (.error e, s')
  | some (.ok a, s') => (f a).run n s'

theorem bindRun_mono (m : Fueled σ ε α) (f : α → Fueled σ ε β) {n n' : ℕ} {s : σ}
    {x : Except ε β × σ} (hn : n ≤ n') (h : bindRun m f n s = some x) :
    bindRun m f n' s = some x := by
  unfold bindRun at h ⊢
  cases hm : m.run n s with
  | none => simp [hm] at h
  | some y =>
    obtain ⟨e | a, s'⟩ := y
    · rw [m.mono hn hm]
      simpa only [hm] using h
    · rw [m.mono hn hm]
      simp only [hm] at h
      exact (f a).mono hn h

instance : Monad (Fueled σ ε) where
  pure a := ⟨fun _ s => some (.ok a, s), fun _ h => h⟩
  bind m f := ⟨bindRun m f, bindRun_mono m f⟩

instance : MonadStateOf σ (Fueled σ ε) where
  get := ⟨fun _ s => some (.ok s, s), fun _ h => h⟩
  set s := ⟨fun _ _ => some (.ok ⟨⟩, s), fun _ h => h⟩
  modifyGet f := ⟨fun _ s => some (.ok (f s).1, (f s).2), fun _ h => h⟩

instance : MonadExceptOf ε (Fueled σ ε) where
  throw e := ⟨fun _ s => some (.error e, s), fun _ h => h⟩
  tryCatch m f := ⟨fun n s => match m.run n s with
    | some (.error e, s') => (f e).run n s'
    | x => x, by
      intro n n' s x hn h
      cases hm : m.run n s with
      | none => simp [hm] at h
      | some y =>
        obtain ⟨e | a, s'⟩ := y
        · rw [m.mono hn hm]
          simp only [hm] at h
          exact (f e).mono hn h
        · rw [m.mono hn hm]
          simpa only [hm] using h⟩

theorem run_bind (m : Fueled σ ε α) (f : α → Fueled σ ε β) (n : ℕ) (s : σ) :
    (m >>= f).run n s = match m.run n s with
      | none => none
      | some (.error e, s') => some (.error e, s')
      | some (.ok a, s') => (f a).run n s' := rfl

instance : LawfulMonad (Fueled σ ε) := LawfulMonad.mk' _
  (fun m => by
    refine ext fun n s => ?_
    change (m >>= fun a => pure (id a)).run n s = _
    rw [run_bind]
    rcases m.run n s with _ | ⟨_ | _, _⟩ <;> rfl)
  (fun _ _ => rfl)
  (fun m f g => by
    refine ext fun n s => ?_
    rw [run_bind, run_bind, run_bind]
    rcases m.run n s with _ | ⟨_ | _, _⟩ <;> rfl)

/-- `m` in a state of its own: `enter` sets it up, `leave` has the outcome and the old state. -/
def within (enter : σ → σ) (leave : σ → Except ε α × σ → Except ε β × σ) (m : Fueled σ ε α) :
    Fueled σ ε β where
  run n s := (m.run n (enter s)).map (leave s)
  mono hn h := by
    obtain ⟨y, hy, rfl⟩ := Option.map_eq_some_iff.1 h
    rw [m.mono hn hy]
    rfl

/-- `body` is run until it answers `.inr`, `k` times at most. -/
def loopN (body : β → Fueled σ ε (β ⊕ α)) : ℕ → β → Fueled σ ε α
  | 0, _ => ⟨fun _ _ => none, fun _ h => h⟩
  | k + 1, b => do
    match ← body b with
    | .inl b' => loopN body k b'
    | .inr a => pure a

theorem loopN_mono (body : β → Fueled σ ε (β ⊕ α)) {k k' n : ℕ} {b : β} {s : σ}
    {x : Except ε α × σ} (hk : k ≤ k') (h : (loopN body k b).run n s = some x) :
    (loopN body k' b).run n s = some x := by
  induction k generalizing k' b s with
  | zero => simp [loopN] at h
  | succ k ih =>
    obtain ⟨k', rfl⟩ := Nat.exists_eq_add_of_le' (Nat.one_le_of_lt hk)
    rw [loopN, run_bind] at h ⊢
    generalize (body b).run n s = y at h ⊢
    obtain _ | ⟨_ | (b' | a), s'⟩ := y
    · exact h
    · exact h
    · exact ih (by omega) h
    · exact h

def loop (body : β → Fueled σ ε (β ⊕ α)) (b : β) : Fueled σ ε α where
  run n s := (loopN body n b).run n s
  mono {_ n'} _ _ hn h := (loopN body n' b).mono hn (loopN_mono body hn h)

end Fueled

/-- The code ends with the outcome `r` in the state `s'`. -/
def Evals (m : Fueled σ ε α) (s : σ) (r : Except ε α) (s' : σ) : Prop :=
  ∃ n, m.run n s = some (r, s')

theorem Evals.unique {m : Fueled σ ε α} {s : σ} {r r' : Except ε α} {s' s'' : σ}
    (h : Evals m s r s') (h' : Evals m s r' s'') : r = r' ∧ s' = s'' := by
  obtain ⟨n, hn⟩ := h
  obtain ⟨n', hn'⟩ := h'
  have e := (m.mono (Nat.le_max_left n n') hn).symm.trans (m.mono (Nat.le_max_right n n') hn')
  simpa using e

theorem evals_pure (a : α) (s : σ) : Evals (ε := ε) (pure a) s (.ok a) s := ⟨0, rfl⟩

theorem evals_get (s : σ) : Evals (ε := ε) get s (.ok s) s := ⟨0, rfl⟩

theorem evals_modify (f : σ → σ) (s : σ) : Evals (ε := ε) (modify f) s (.ok ⟨⟩) (f s) := ⟨0, rfl⟩

theorem evals_throw (e : ε) (s : σ) : Evals (α := α) (throw e) s (.error e) s := ⟨0, rfl⟩

theorem Evals.bind {m : Fueled σ ε α} {f : α → Fueled σ ε β} {s s₁ s₂ : σ} {a : α}
    {r : Except ε β} (h : Evals m s (.ok a) s₁) (h' : Evals (f a) s₁ r s₂) :
    Evals (m >>= f) s r s₂ := by
  obtain ⟨n, hn⟩ := h
  obtain ⟨n', hn'⟩ := h'
  refine ⟨max n n', ?_⟩
  rw [Fueled.run_bind, m.mono (Nat.le_max_left n n') hn]
  exact (f a).mono (Nat.le_max_right n n') hn'

theorem Evals.bind_throw {m : Fueled σ ε α} {f : α → Fueled σ ε β} {s s₁ : σ} {e : ε}
    (h : Evals m s (.error e) s₁) : Evals (m >>= f) s (.error e) s₁ := by
  obtain ⟨n, hn⟩ := h
  exact ⟨n, by rw [Fueled.run_bind, hn]⟩

theorem Evals.within {enter : σ → σ} {leave : σ → Except ε α × σ → Except ε β × σ}
    {m : Fueled σ ε α} {s s' : σ} {r : Except ε α} (h : Evals m (enter s) r s') :
    Evals (m.within enter leave) s (leave s (r, s')).1 (leave s (r, s')).2 := by
  obtain ⟨n, hn⟩ := h
  exact ⟨n, Option.map_eq_some_iff.2 ⟨_, hn, rfl⟩⟩

theorem Evals.forM {f : β → Fueled σ ε PUnit} {g : σ → β → σ} {I : σ → Prop} {l : List β}
    (h : ∀ b ∈ l, ∀ s, I s → Evals (f b) s (.ok ⟨⟩) (g s b) ∧ I (g s b)) {s : σ} (hs : I s) :
    Evals (l.forM f) s (.ok ⟨⟩) (l.foldl g s) ∧ I (l.foldl g s) := by
  induction l generalizing s with
  | nil => exact ⟨evals_pure _ _, hs⟩
  | cons b l ih =>
    obtain ⟨hb, hi⟩ := h b (by simp) s hs
    obtain ⟨hl, hi⟩ := ih (fun b hb => h b (by simp [hb])) hi
    exact ⟨hb.bind hl, hi⟩

/-- The rounds a loop still has and the bound of the loops inside `body` are kept apart here: the
first one goes down with every round. -/
def LoopEvals (body : β → Fueled σ ε (β ⊕ α)) (b : β) (s : σ) (r : Except ε α) (s' : σ) : Prop :=
  ∃ k n, (Fueled.loopN body k b).run n s = some (r, s')

variable {body : β → Fueled σ ε (β ⊕ α)} {b b' : β} {s s₁ s' : σ} {r : Except ε α}

theorem LoopEvals.evals (h : LoopEvals body b s r s') : Evals (Fueled.loop body b) s r s' := by
  obtain ⟨k, n, hn⟩ := h
  exact ⟨max k n, (Fueled.loopN body _ b).mono (Nat.le_max_right k n)
    (Fueled.loopN_mono body (Nat.le_max_left k n) hn)⟩

theorem LoopEvals.done {a : α} (h : Evals (body b) s (.ok (.inr a)) s') :
    LoopEvals body b s (.ok a) s' := by
  obtain ⟨n, hn⟩ := h
  refine ⟨1, n, ?_⟩
  rw [Fueled.loopN, Fueled.run_bind, hn]
  rfl

theorem LoopEvals.step (h : Evals (body b) s (.ok (.inl b')) s₁)
    (h' : LoopEvals body b' s₁ r s') : LoopEvals body b s r s' := by
  obtain ⟨n, hn⟩ := h
  obtain ⟨k, n', hn'⟩ := h'
  refine ⟨k + 1, max n n', ?_⟩
  rw [Fueled.loopN, Fueled.run_bind, (body b).mono (Nat.le_max_left n n') hn]
  exact (Fueled.loopN body k b').mono (Nat.le_max_right n n') hn'

theorem LoopEvals.throw {e : ε} (h : Evals (body b) s (.error e) s') :
    LoopEvals body b s (.error e) s' := by
  obtain ⟨n, hn⟩ := h
  exact ⟨1, n, by rw [Fueled.loopN, Fueled.run_bind, hn]⟩

/-! ### What holds across all code -/

theorem Evals.of_bind {m : Fueled σ ε α} {f : α → Fueled σ ε γ} {r : Except ε γ}
    (h : Evals (m >>= f) s r s') : (∃ e, r = .error e ∧ Evals m s (.error e) s') ∨
      ∃ a s₁, Evals m s (.ok a) s₁ ∧ Evals (f a) s₁ r s' := by
  obtain ⟨n, hn⟩ := h
  rw [Fueled.run_bind] at hn
  cases hm : m.run n s with
  | none => simp [hm] at hn
  | some y =>
    obtain ⟨e | a, s₁⟩ := y
    · obtain ⟨rfl, rfl⟩ : r = .error e ∧ s' = s₁ := by simpa [hm, eq_comm] using hn
      exact .inl ⟨e, rfl, n, hm⟩
    · exact .inr ⟨a, s₁, ⟨n, hm⟩, n, by simpa [hm] using hn⟩

/-- What ends without an exception went through both parts. -/
theorem Evals.ok_of_bind {m : Fueled σ ε α} {f : α → Fueled σ ε γ} {c : γ}
    (h : Evals (m >>= f) s (.ok c) s') :
    ∃ a s₁, Evals m s (.ok a) s₁ ∧ Evals (f a) s₁ (.ok c) s' := by
  obtain ⟨e, he, -⟩ | h := h.of_bind
  · cases he
  · exact h

theorem Evals.of_within {enter : σ → σ} {leave : σ → Except ε α × σ → Except ε γ × σ}
    {m : Fueled σ ε α} {r : Except ε γ} (h : Evals (m.within enter leave) s r s') :
    ∃ r₁ s₁, Evals m (enter s) r₁ s₁ ∧ leave s (r₁, s₁) = (r, s') := by
  obtain ⟨n, hn⟩ := h
  obtain ⟨⟨r₁, s₁⟩, hm, he⟩ := Option.map_eq_some_iff.1 hn
  exact ⟨r₁, s₁, ⟨n, hm⟩, he⟩

/-- The states before and after `m` are related, also when `m` ends with an exception. -/
def Preserves (R : σ → σ → Prop) (m : Fueled σ ε α) : Prop := ∀ s r s', Evals m s r s' → R s s'

section Preserves

variable {R : σ → σ → Prop} [Std.Refl R]

theorem preserves_pure (a : α) : Preserves R (pure a : Fueled σ ε α) := fun s _ _ h => by
  obtain ⟨-, rfl⟩ := h.unique (evals_pure a s)
  exact Std.Refl.refl _

theorem preserves_get : Preserves R (get : Fueled σ ε σ) := fun s _ _ h => by
  obtain ⟨-, rfl⟩ := h.unique (evals_get s)
  exact Std.Refl.refl _

theorem preserves_throw (e : ε) : Preserves R (throw e : Fueled σ ε α) := fun s _ _ h => by
  obtain ⟨-, rfl⟩ := h.unique (evals_throw e s)
  exact Std.Refl.refl _

omit [Std.Refl R] in
theorem preserves_modify {f : σ → σ} (hf : ∀ s, R s (f s)) :
    Preserves R (modify f : Fueled σ ε PUnit) := fun s _ _ h => by
  obtain ⟨-, rfl⟩ := h.unique (evals_modify f s)
  exact hf s

variable [IsTrans σ R]

omit [Std.Refl R] in
theorem Preserves.bind {m : Fueled σ ε α} {f : α → Fueled σ ε γ} (hm : Preserves R m)
    (hf : ∀ a, Preserves R (f a)) : Preserves R (m >>= f) := fun s r s' h => by
  obtain ⟨e, -, h⟩ | ⟨a, s₁, h, h'⟩ := h.of_bind
  · exact hm s _ s' h
  · exact IsTrans.trans _ _ _ (hm s _ s₁ h) (hf a s₁ r s' h')

theorem Preserves.forM {f : γ → Fueled σ ε PUnit} (hf : ∀ c, Preserves R (f c)) (l : List γ) :
    Preserves R (l.forM f) := by
  induction l with
  | nil => exact preserves_pure _
  | cons c l ih => exact (hf c).bind fun _ => ih

theorem Preserves.loop {body : β → Fueled σ ε (β ⊕ α)} (hbody : ∀ b, Preserves R (body b)) (b : β) :
    Preserves R (Fueled.loop body b) := by
  have hloop : ∀ k b, Preserves R (Fueled.loopN body k b) := by
    intro k
    induction k with
    | zero =>
      rintro b s r s' ⟨n, hn⟩
      cases hn
    | succ k ih =>
      intro b
      refine (hbody b).bind fun x => ?_
      cases x with
      | inl b' => exact ih b'
      | inr a => exact preserves_pure a
  rintro s r s' ⟨n, hn⟩
  exact hloop n b s r s' ⟨n, hn⟩

end Preserves

/-! ### Runs that do not throw -/

/-- From a state with `P` every run ends without an exception, as `Q` says. -/
def Ensures (P : σ → Prop) (m : Fueled σ ε α) (Q : α → σ → Prop) : Prop :=
  ∀ s r s', P s → Evals m s r s' → ∃ a, r = .ok a ∧ Q a s'

section Ensures

variable {P : σ → Prop} {Q : α → σ → Prop} {R : γ → σ → Prop}

theorem ensures_pure {a : α} (h : ∀ s, P s → Q a s) : Ensures P (pure a : Fueled σ ε α) Q := by
  intro s r s' hs hr
  obtain ⟨rfl, rfl⟩ := hr.unique (evals_pure a s)
  exact ⟨a, rfl, h _ hs⟩

theorem ensures_modify {f : σ → σ} (h : ∀ s, P s → P (f s)) :
    Ensures P (modify f : Fueled σ ε PUnit) fun _ => P := by
  intro s r s' hs hr
  obtain ⟨rfl, rfl⟩ := hr.unique (evals_modify f s)
  exact ⟨⟨⟩, rfl, h _ hs⟩

theorem Ensures.bind {m : Fueled σ ε α} {f : α → Fueled σ ε γ} (hm : Ensures P m Q)
    (hf : ∀ a, Ensures (Q a) (f a) R) : Ensures P (m >>= f) R := by
  intro s r s' hs h
  obtain ⟨e, -, he⟩ | ⟨a, s₁, ha, hr⟩ := h.of_bind
  · obtain ⟨a, ha, -⟩ := hm s _ s' hs he
    cases ha
  · obtain ⟨a', ha', hq⟩ := hm s _ s₁ hs ha
    cases ha'
    exact hf a s₁ r s' hq hr

/-- The state is read. -/
theorem ensures_get_bind {f : σ → Fueled σ ε γ} (h : ∀ s, P s → Ensures (· = s) (f s) R) :
    Ensures P (get >>= f) R := by
  intro s r s' hs hr
  obtain ⟨e, -, h'⟩ | ⟨a, s₁, h', hr⟩ := hr.of_bind
  · cases (h'.unique (evals_get s)).1
  · obtain ⟨e, rfl⟩ := h'.unique (evals_get s)
    cases e
    exact h _ hs _ r s' rfl hr

theorem Ensures.of_eq {m : Fueled σ ε α} (h : Ensures P m Q) {s : σ} (hs : P s) :
    Ensures (· = s) m Q := by
  rintro s r s' rfl hr
  exact h _ r s' hs hr

theorem Ensures.mono {m : Fueled σ ε α} {Q' : α → σ → Prop} (h : Ensures P m Q)
    (hq : ∀ a s, Q a s → Q' a s) : Ensures P m Q' := by
  intro s r s' hs hr
  obtain ⟨a, rfl, ha⟩ := h s r s' hs hr
  exact ⟨a, rfl, hq a s' ha⟩

/-- The result is one that the code can end with. -/
theorem Ensures.evals {m : Fueled σ ε α} {s₀ : σ} (h : Ensures (· = s₀) m Q) :
    Ensures (· = s₀) m fun a s => Q a s ∧ Evals m s₀ (.ok a) s := by
  rintro s r s' rfl hr
  obtain ⟨a, rfl, ha⟩ := h s r s' rfl hr
  exact ⟨a, rfl, ha, hr⟩

/-- A fact that does not depend on the state. -/
theorem Ensures.of_pure {m : Fueled σ ε α} {p : Prop} (h : p → Ensures P m Q) :
    Ensures (fun s => p ∧ P s) m Q := fun s r s' hs hr => h hs.1 s r s' hs.2 hr

end Ensures

end PVS.Library
