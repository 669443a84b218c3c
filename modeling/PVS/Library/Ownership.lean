import Mathlib.Data.List.Nodup

/-! Traces in which a resource is bound, used while it is owned, and consumed once. -/

namespace PVS.Library

inductive OwnEvent (α : Type)
  | bind (a : α)
  | use (a : α)
  | consume (a : α)

variable {α : Type} [DecidableEq α] {a : α}

/-- What an event does to the resource `a`, which is owned or not. -/
def OwnEvent.step (a : α) (owned : Bool) : OwnEvent α → Option Bool
  | .bind b => if b = a then (if owned then none else some true) else some owned
  | .use b => if b = a then (if owned then some true else none) else some owned
  | .consume b => if b = a then (if owned then some false else none) else some owned

/-- Whether `a` is owned after a trace; none where it is used or consumed without being owned, or bound
again before it is consumed. -/
def ownRun (a : α) (owned : Bool) : List (OwnEvent α) → Option Bool
  | [] => some owned
  | e :: t => (e.step a owned).bind fun owned' => ownRun a owned' t

attribute [local simp] OwnEvent.step ownRun

theorem ownRun_append (a : α) (owned : Bool) (s t : List (OwnEvent α)) :
    ownRun a owned (s ++ t) = (ownRun a owned s).bind fun owned' => ownRun a owned' t := by
  induction s generalizing owned with
  | nil => rfl
  | cons e s ih =>
    simp only [List.cons_append, ownRun]
    cases e.step a owned with
    | none => rfl
    | some o => exact ih o

/-- Runs are composed. -/
theorem ownRun_trans {o m : Bool} {r : Option Bool} {s t : List (OwnEvent α)}
    (hs : ownRun a o s = some m) (ht : ownRun a m t = r) : ownRun a o (s ++ t) = r := by
  rw [ownRun_append, hs]
  exact ht

theorem ownRun_bind_self (t : List (OwnEvent α)) :
    ownRun a false (.bind a :: t) = ownRun a true t := by
  simp [ownRun, OwnEvent.step]

theorem ownRun_bind_of_ne {b : α} {o : Bool} (h : b ≠ a) (t : List (OwnEvent α)) :
    ownRun a o (.bind b :: t) = ownRun a o t := by
  simp [ownRun, OwnEvent.step, h]

theorem ownRun_uses {o : Bool} {l : List α} (h : a ∈ l → o = true) :
    ownRun a o (l.map OwnEvent.use) = some o := by
  induction l with
  | nil => rfl
  | cons b l ih =>
    have hl := ih fun hmem => h (List.mem_cons_of_mem b hmem)
    by_cases hb : b = a
    · have ho := h (hb ▸ List.mem_cons_self)
      simp [ownRun, OwnEvent.step, hb, ho] at hl ⊢
      exact hl
    · simp [ownRun, OwnEvent.step, hb, hl]

theorem ownRun_binds_of_notMem {o : Bool} {l : List α} (h : a ∉ l) :
    ownRun a o (l.map OwnEvent.bind) = some o := by
  induction l with
  | nil => rfl
  | cons b l ih =>
    rw [List.mem_cons, not_or] at h
    rw [List.map_cons, ownRun_bind_of_ne (Ne.symm h.1), ih h.2]

theorem ownRun_binds_of_mem {l : List α} (hl : l.Nodup) (h : a ∈ l) :
    ownRun a false (l.map OwnEvent.bind) = some true := by
  induction l with
  | nil => cases h
  | cons b l ih =>
    obtain ⟨hb, hl⟩ := List.nodup_cons.1 hl
    by_cases hba : b = a
    · subst hba
      rw [List.map_cons, ownRun_bind_self]
      exact ownRun_binds_of_notMem hb
    · rw [List.map_cons, ownRun_bind_of_ne hba]
      exact ih hl ((List.mem_cons.1 h).resolve_left (Ne.symm hba))

theorem ownRun_consumes_of_notMem {o : Bool} {l : List α} (h : a ∉ l) :
    ownRun a o (l.map OwnEvent.consume) = some o := by
  induction l with
  | nil => rfl
  | cons b l ih =>
    rw [List.mem_cons, not_or] at h
    simp [ownRun, OwnEvent.step, Ne.symm h.1, ih h.2]

theorem ownRun_consumes_of_mem {l : List α} (hl : l.Nodup) (h : a ∈ l) :
    ownRun a true (l.map OwnEvent.consume) = some false := by
  induction l with
  | nil => cases h
  | cons b l ih =>
    obtain ⟨hb, hl⟩ := List.nodup_cons.1 hl
    by_cases hba : b = a
    · subst hba
      simp [ownRun, OwnEvent.step, ownRun_consumes_of_notMem hb]
    · have hmem := (List.mem_cons.1 h).resolve_left (Ne.symm hba)
      simp [ownRun, OwnEvent.step, hba, ih hl hmem]

/-- A trace that is made of traces with `p`, any number of them. -/
inductive Repeated (p : List (OwnEvent α) → Prop) : List (OwnEvent α) → Prop
  | nil : Repeated p []
  | cons {s t : List (OwnEvent α)} : p s → Repeated p t → Repeated p (s ++ t)

/-- What holds before and after one round holds before and after a loop. -/
theorem ownRun_repeated {p : List (OwnEvent α) → Prop} {o : Bool}
    (h : ∀ s, p s → ownRun a o s = some o) {t : List (OwnEvent α)} (ht : Repeated p t) :
    ownRun a o t = some o := by
  induction ht with
  | nil => rfl
  | cons hs _ ih => exact ownRun_trans (h _ hs) ih

end PVS.Library
