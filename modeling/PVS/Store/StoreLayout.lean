import PVS.Store.StoreObject
import Mathlib.Data.Finset.Card
import Mathlib.Order.Nat

/-! Where the words of an object are. -/

namespace PVS.Store

/-! ### Buffers -/

section Buffers

variable {α : Type} {initial : α} {array : List α} {size i : ℕ}

theorem length_ensureVectorSize (initial : α) (array : List α) (size : ℕ) :
    (ensureVectorSize initial array array.length size).1.length =
        (ensureVectorSize initial array array.length size).2 ∧
      size ≤ (ensureVectorSize initial array array.length size).1.length := by
  rw [ensureVectorSize]
  split_ifs with hlt
  · simp
    omega
  · exact ⟨rfl, not_lt.1 hlt⟩

theorem ensureVectorSize_getElem? (hi : i < array.length) :
    (ensureVectorSize initial array array.length size).1[i]? = array[i]? := by
  rw [ensureVectorSize]
  split_ifs
  · rw [List.take_length, List.getElem?_append_left hi]
  · rfl

theorem setElement_eq_some {x : α} (hi : i < array.length) :
    setElement array i x = some (array.set i x) := if_pos hi

end Buffers

/-! ### Methods -/

namespace Lisp

variable {l : Lisp} {h : Heap}

theorem length_pushString (str : List Char) : (pushString str).length = pushStringLength str := by
  simp [pushString, pushStringLength]
  omega

theorem storeText_amount (f : Fetcher) (str : List Char) :
    (l.storeText f str).amount = (l.storeText f str).pushes.length := by
  simp [storeText, length_pushString]
  omega

/-- Every method reserves as many words as it pushes. -/
theorem amount_eq_length {v : Value} {reservation : Reservation}
    (hv : l.storeObjectStar h v = some reservation) :
    reservation.amount = reservation.pushes.length := by
  cases v with
  | symbol s =>
    obtain rfl := Option.some.inj hv
    rw [storeSymbol]
    split_ifs
    · simp [length_pushString]
      omega
    · simp [length_pushString]
      omega
  | package p =>
    obtain rfl := Option.some.inj hv
    exact storeText_amount _ _
  | fixnum z =>
    obtain rfl := Option.some.inj hv
    exact storeText_amount _ _
  | ref i =>
    simp only [storeObjectStar] at hv
    split at hv
    case h_4 car cdr _ =>
      split at hv
      · obtain rfl := Option.some.inj hv
        simp [storeList]
      · obtain rfl := Option.some.inj hv
        rfl
      · cases hv
    case h_5 test entries _ =>
      obtain rfl := Option.some.inj hv
      have hlength : ∀ es : List (Value × Value),
          (es.flatMap fun ent => [Push.object ent.1, .object ent.2]).length = 2 * es.length := by
        intro es
        induction es with
        | nil => rfl
        | cons e es ih =>
          rw [List.flatMap_cons, List.length_append, ih, List.length_cons]
          simp
          omega
      simp only [storeHashTable, List.length_cons, hlength]
      omega
    case h_6 type slots _ =>
      obtain rfl := Option.some.inj hv
      simp [storeInstance]
      omega
    case h_7 => cases hv
    all_goals
      obtain rfl := Option.some.inj hv
      exact storeText_amount _ _

/-- Every method pushes something. -/
theorem pushes_pos {v : Value} {reservation : Reservation}
    (hv : l.storeObjectStar h v = some reservation) : 0 < reservation.pushes.length := by
  cases v with
  | symbol s =>
    obtain rfl := Option.some.inj hv
    rw [storeSymbol]
    split_ifs
    · exact Nat.succ_pos _
    · exact Nat.succ_pos _
  | ref i =>
    simp only [storeObjectStar] at hv
    split at hv
    case h_4 =>
      split at hv
      case h_3 => cases hv
      all_goals
        obtain rfl := Option.some.inj hv
        exact Nat.succ_pos _
    case h_7 => cases hv
    all_goals
      obtain rfl := Option.some.inj hv
      exact Nat.succ_pos _
  | _ =>
    obtain rfl := Option.some.inj hv
    exact Nat.succ_pos _

end Lisp

/-! ### Layout -/

/-- The pushes as they are in the words from `p` on. -/
def Laid (hash : Value → Option ℕ) (words : List ℕ) : ℕ → List Push → Prop
  | _, [] => True
  | p, .word w :: pushes => words[p]? = some w ∧ Laid hash words (p + 1) pushes
  | p, .object v :: pushes =>
    (∃ q, hash v = some q ∧ words[p]? = some q) ∧ Laid hash words (p + 1) pushes

/-- What is laid out stays so. -/
theorem Laid.mono {hash hash' : Value → Option ℕ} {words words' : List ℕ} {p : ℕ}
    {pushes : List Push} (h : Laid hash words p pushes)
    (hhash : ∀ v q, hash v = some q → hash' v = some q)
    (hwords : ∀ i, p ≤ i → i < p + pushes.length → words'[i]? = words[i]?) :
    Laid hash' words' p pushes := by
  induction pushes generalizing p with
  | nil => trivial
  | cons push pushes ih =>
    have hhead : words'[p]? = words[p]? := hwords p le_rfl (by simp)
    have htail : ∀ i, p + 1 ≤ i → i < p + 1 + pushes.length → words'[i]? = words[i]? := by
      intro i hle hlt
      apply hwords i (by omega)
      rw [List.length_cons]
      omega
    cases push with
    | word w => exact ⟨hhead.trans h.1, ih h.2 htail⟩
    | object v =>
      obtain ⟨⟨q, hq, hword⟩, hrest⟩ := h
      exact ⟨⟨q, hhash v q hq, hhead.trans hword⟩, ih hrest htail⟩

/-- What holds between two calls of `store-obj`. -/
structure StoreState.Valid (s : StoreState) : Prop where
  storeSize : s.storeSize = s.store.length
  ptr : s.ptr ≤ s.store.length
  bounded : ∀ v p, s.hash v = some p → p < s.ptr
  injective : ∀ v w p, s.hash v = some p → s.hash w = some p → v = w

/-- What a call adds to a state: only words from the old end on and those between `a` and `b`. -/
structure Adds (l : Lisp) (h : Heap) (a b : ℕ) (s s' : StoreState) : Prop where
  valid : s'.Valid
  ptr : s.ptr ≤ s'.ptr
  hash : ∀ v p, s.hash v = some p → s'.hash v = some p
  words : ∀ i < s.ptr, ¬ (a ≤ i ∧ i < b) → s'.store[i]? = s.store[i]?
  new : ∀ v p, s'.hash v = some p → s.hash v = none → s.ptr ≤ p ∧
    ∃ reservation, l.storeObjectStar h v = some reservation ∧
      p + reservation.pushes.length ≤ s'.ptr ∧ Laid s'.hash s'.store p reservation.pushes

theorem Adds.refl {l : Lisp} {h : Heap} {s : StoreState} (hs : s.Valid) (a b : ℕ) :
    Adds l h a b s s where
  valid := hs
  ptr := le_rfl
  hash _ _ hp := hp
  words _ _ _ := rfl
  new v p hp hnone := by rw [hp] at hnone; cases hnone

theorem Adds.trans {l : Lisp} {h : Heap} {a b : ℕ} {s s' s'' : StoreState} (h₁ : Adds l h a b s s')
    (h₂ : Adds l h a b s' s'') (hb : b ≤ s.ptr) : Adds l h a b s s'' where
  valid := h₂.valid
  ptr := h₁.ptr.trans h₂.ptr
  hash v p hp := h₂.hash v p (h₁.hash v p hp)
  words i hi hout := (h₂.words i (hi.trans_le h₁.ptr) hout).trans (h₁.words i hi hout)
  new v p hp hnone := by
    cases hv : s'.hash v with
    | none =>
      obtain ⟨hle, hlaid⟩ := h₂.new v p hp hv
      exact ⟨h₁.ptr.trans hle, hlaid⟩
    | some q =>
      obtain rfl := Option.some.inj ((h₂.hash v q hv).symm.trans hp)
      obtain ⟨hle, reservation, hstar, hend, hlaid⟩ := h₁.new v q hv hnone
      refine ⟨hle, reservation, hstar, hend.trans h₂.ptr, hlaid.mono h₂.hash ?_⟩
      intro i hqi hi
      apply h₂.words i (hi.trans_le hend)
      omega

theorem Adds.widen {l : Lisp} {h : Heap} {a b a' b' : ℕ} {s s' : StoreState}
    (hadds : Adds l h a b s s') (hsub : ∀ i, a ≤ i → i < b → a' ≤ i ∧ i < b') :
    Adds l h a' b' s s' :=
  { hadds with words := fun i hi hout => hadds.words i hi fun hin => hout (hsub i hin.1 hin.2) }

/-! ### Storing -/

section Storing

variable {l : Lisp} {h : Heap} {s : StoreState} {all : Finset Value}

theorem StoreState.Valid.write (hs : s.Valid) (r w : ℕ) :
    ({ s with store := s.store.set r w } : StoreState).Valid where
  storeSize := by simpa using hs.storeSize
  ptr := by simpa using hs.ptr
  bounded := hs.bounded
  injective := hs.injective

theorem Adds.write (hs : s.Valid) (r w : ℕ) :
    Adds l h r (r + 1) s { s with store := s.store.set r w } where
  valid := hs.write r w
  ptr := le_rfl
  hash _ _ hp := hp
  words i _ hout := by
    refine List.getElem?_set_ne ?_
    omega
  new v p hp hnone := by rw [hp] at hnone; cases hnone

/-- The objects that are still to be stored. -/
def unstored (all : Finset Value) (s : StoreState) : ℕ := (all.filter fun v => s.hash v = none).card

theorem Adds.unstored_le {a b : ℕ} {s' : StoreState} (hadds : Adds l h a b s s') :
    unstored all s' ≤ unstored all s := by
  apply Finset.card_le_card
  intro v hv
  rw [Finset.mem_filter] at hv ⊢
  refine ⟨hv.1, ?_⟩
  cases hs : s.hash v with
  | none => rfl
  | some p => rw [hadds.hash v p hs] at hv; cases hv.2

variable {fuel : ℕ} {f : Value → StoreState → Option (ℕ × StoreState)}

/-- What `store-obj` does, as long as no more than `fuel` objects are still to be stored. -/
def Stores (l : Lisp) (h : Heap) (all : Finset Value) (fuel : ℕ)
    (f : Value → StoreState → Option (ℕ × StoreState)) : Prop :=
  ∀ v s, s.Valid → v ∈ all → unstored all s < fuel →
    ∃ p s', f v s = some (p, s') ∧ Adds l h 0 0 s s' ∧ s'.hash v = some p

theorem pushWords_adds (hf : Stores l h all fuel f) (pushes : List Push) (r : ℕ) (s : StoreState)
    (hs : s.Valid) (hr : r + pushes.length ≤ s.ptr) (hall : ∀ v, .object v ∈ pushes → v ∈ all)
    (hfuel : unstored all s < fuel) :
    ∃ s', pushWords f pushes r s = some s' ∧ Adds l h r (r + pushes.length) s s' ∧
      Laid s'.hash s'.store r pushes := by
  induction pushes generalizing r s with
  | nil => exact ⟨s, rfl, .refl hs _ _, trivial⟩
  | cons push pushes ih =>
    rw [List.length_cons] at hr ⊢
    -- what is written at `r` stays there, and the rest is pushed from `r + 1` on
    have hrest : ∀ (s₁ : StoreState) (w : ℕ), s₁.Valid → s.ptr ≤ s₁.ptr → unstored all s₁ < fuel →
        ∃ s', pushWords f pushes (r + 1) { s₁ with store := s₁.store.set r w } = some s' ∧
          Adds l h r (r + (pushes.length + 1)) s₁ s' ∧ s'.store[r]? = some w ∧
          Laid s'.hash s'.store (r + 1) pushes := by
      intro s₁ w hs₁ hptr hfuel₁
      have hwrite : Adds l h r (r + 1) s₁ { s₁ with store := s₁.store.set r w } := .write hs₁ r w
      have hend : r + 1 + pushes.length ≤ s₁.ptr := by omega
      obtain ⟨s', hpush, hadds, hlaid⟩ := ih (r + 1) { s₁ with store := s₁.store.set r w }
        hwrite.valid hend (fun v hv => hall v (List.mem_cons_of_mem _ hv)) (hwrite.unstored_le.trans_lt hfuel₁)
      refine ⟨s', hpush, ?_, ?_, hlaid⟩
      · refine (hwrite.widen ?_).trans (hadds.widen ?_) (by omega)
        · omega
        · omega
      · have hlt : r < s₁.store.length := by
          have := hs₁.ptr
          omega
        rw [hadds.words r (show r < s₁.ptr by omega) (by omega)]
        exact List.getElem?_set_self hlt
    have hlt : r < s.store.length := by
      have := hs.ptr
      omega
    cases push with
    | word w =>
      obtain ⟨s', hpush, hadds, hword, hlaid⟩ := hrest s w hs le_rfl hfuel
      refine ⟨s', ?_, hadds, hword, hlaid⟩
      rw [pushWords, setElement_eq_some hlt]
      exact hpush
    | object v =>
      obtain ⟨q, s₁, hstore, hadds₁, hq⟩ := hf v s hs (hall v List.mem_cons_self) hfuel
      obtain ⟨s', hpush, hadds, hword, hlaid⟩ := hrest s₁ q hadds₁.valid hadds₁.ptr
        (hadds₁.unstored_le.trans_lt hfuel)
      refine ⟨s', ?_, ?_, ⟨⟨q, hadds.hash v q hq, hword⟩, hlaid⟩⟩
      · have hlt₁ : r < s₁.store.length := by
          have := hadds₁.valid.ptr
          have := hadds₁.ptr
          omega
        simp only [pushWords, hstore, setElement_eq_some hlt₁]
        exact hpush
      · exact (hadds₁.widen (by omega)).trans hadds (by omega)

/-- The objects that come up are known, and each has a method. -/
def Closed (l : Lisp) (h : Heap) (all : Finset Value) : Prop :=
  ∀ v ∈ all, ∃ reservation, l.storeObjectStar h v = some reservation ∧
    ∀ w, .object w ∈ reservation.pushes → w ∈ all

theorem storeObj_stores (hclosed : Closed l h all) (fuel : ℕ) :
    Stores l h all fuel (storeObj l h fuel) := by
  induction fuel with
  | zero => exact fun v s _ _ hfuel => absurd hfuel (Nat.not_lt_zero _)
  | succ fuel ih =>
    intro v s hs hv hfuel
    cases hhash : s.hash v with
    | some p => exact ⟨p, s, by rw [storeObj, hhash], .refl hs 0 0, hhash⟩
    | none =>
      obtain ⟨reservation, hstar, hsub⟩ := hclosed v hv
      have hamount := Lisp.amount_eq_length hstar
      have hpos := Lisp.pushes_pos hstar
      let s₁ := { s with hash := Function.update s.hash v (some s.ptr) }.reserveSpace
        reservation.amount
      have hptr : s₁.ptr = s.ptr + reservation.pushes.length := by
        rw [← hamount]
        rfl
      have hhash₁ : s₁.hash = Function.update s.hash v (some s.ptr) := rfl
      have hwords : ∀ i < s.ptr, s₁.store[i]? = s.store[i]? := by
        intro i hi
        change (ensureVectorSize 0 s.store s.storeSize (s.ptr + reservation.amount)).1[i]? = _
        rw [hs.storeSize]
        exact ensureVectorSize_getElem? (hi.trans_le hs.ptr)
      have hold : ∀ w p, s.hash w = some p → s₁.hash w = some p := by
        intro w p hp
        rw [hhash₁, Function.update_of_ne, hp]
        rintro rfl
        rw [hhash] at hp
        cases hp
      have hnew : ∀ w p, s₁.hash w = some p → w = v ∧ p = s.ptr ∨ s.hash w = some p := by
        intro w p hp
        by_cases hw : w = v
        · subst hw
          rw [hhash₁, Function.update_self] at hp
          exact .inl ⟨rfl, (Option.some.inj hp).symm⟩
        · rw [hhash₁, Function.update_of_ne hw] at hp
          exact .inr hp
      have hs₁ : s₁.Valid := by
        have hsize := length_ensureVectorSize 0 s.store (s.ptr + reservation.amount)
        rw [← hs.storeSize] at hsize
        refine ⟨hsize.1.symm, hsize.2, ?_, ?_⟩
        · intro w p hp
          rcases hnew w p hp with ⟨-, rfl⟩ | hp
          · omega
          · have := hs.bounded w p hp
            omega
        · intro w w' p hp hp'
          rcases hnew w p hp with ⟨hwv, hpv⟩ | hold
          · rcases hnew w' p hp' with ⟨hwv', -⟩ | hold'
            · exact hwv.trans hwv'.symm
            · exact absurd (hpv ▸ hs.bounded w' p hold') (lt_irrefl _)
          · rcases hnew w' p hp' with ⟨-, hpv⟩ | hold'
            · exact absurd (hpv ▸ hs.bounded w p hold) (lt_irrefl _)
            · exact hs.injective w w' p hold hold'
      have hless : unstored all s₁ < unstored all s := by
        apply Finset.card_lt_card
        refine ⟨fun w hw => ?_, fun hsubset => ?_⟩
        · rw [Finset.mem_filter] at hw ⊢
          refine ⟨hw.1, ?_⟩
          cases hsw : s.hash w with
          | none => rfl
          | some p => rw [hold w p hsw] at hw; cases hw.2
        · have hmem := hsubset (Finset.mem_filter.2 ⟨hv, hhash⟩)
          rw [Finset.mem_filter, hhash₁, Function.update_self] at hmem
          cases hmem.2
      obtain ⟨s', hpush, hadds, hlaid⟩ := pushWords_adds ih reservation.pushes s.ptr s₁ hs₁
        hptr.ge hsub (by omega)
      refine ⟨s.ptr, s', ?_, ?_, ?_⟩
      · simp only [storeObj, hhash, hstar]
        rw [hpush]
        rfl
      · refine ⟨hadds.valid, ?_, fun w p hp => hadds.hash w p (hold w p hp), ?_, ?_⟩
        · have := hadds.ptr
          omega
        · intro i hi _
          rw [hadds.words i (by omega) (by omega), hwords i hi]
        · intro w p hp hnone
          cases hw : s₁.hash w with
          | none =>
            obtain ⟨hle, hrest⟩ := hadds.new w p hp hw
            exact ⟨by omega, hrest⟩
          | some q =>
            obtain rfl := Option.some.inj ((hadds.hash w q hw).symm.trans hp)
            rcases hnew w q hw with ⟨rfl, rfl⟩ | hsw
            · refine ⟨le_rfl, reservation, hstar, ?_, hlaid⟩
              have := hadds.ptr
              omega
            · rw [hnone] at hsw
              cases hsw
      · exact hadds.hash v s.ptr (by rw [hhash₁, Function.update_self])

theorem storeObj_fst {v : Value} {p : ℕ} {s' : StoreState} (hnone : s.hash v = none)
    (hstore : storeObj l h fuel v s = some (p, s')) : p = s.ptr := by
  cases fuel with
  | zero => cases hstore
  | succ fuel =>
    simp only [storeObj, hnone] at hstore
    split at hstore
    · obtain ⟨s'', -, heq⟩ := Option.map_eq_some_iff.1 hstore
      exact (Prod.mk.inj heq).1.symm
    · cases hstore

/-- The words of a stored object, with the address of each value in them. -/
structure Layout (l : Lisp) (h : Heap) (words : List ℕ) (hash : Value → Option ℕ) : Prop where
  first : words[0]? = some 1
  size : words[1]? = some words.length
  laid : ∀ v p, hash v = some p → 2 ≤ p ∧ ∃ reservation, l.storeObjectStar h v = some reservation ∧
    p + reservation.pushes.length ≤ words.length ∧ Laid hash words p reservation.pushes
  injective : ∀ v w p, hash v = some p → hash w = some p → v = w

theorem Layout.lt {l : Lisp} {h : Heap} {words : List ℕ} {hash : Value → Option ℕ}
    (layout : Layout l h words hash) {v : Value} {p : ℕ} (hv : hash v = some p) :
    p < words.length := by
  obtain ⟨-, reservation, hstar, hend, -⟩ := layout.laid v p hv
  have := Lisp.pushes_pos hstar
  omega

theorem Layout.pushes {l : Lisp} {h : Heap} {words : List ℕ} {hash : Value → Option ℕ}
    (layout : Layout l h words hash) {v : Value} {reservation : Reservation}
    (hstar : l.storeObjectStar h v = some reservation) {p : ℕ} (hv : hash v = some p) :
    Laid hash words p reservation.pushes := by
  obtain ⟨-, reservation', hstar', -, hlaid⟩ := layout.laid v p hv
  obtain rfl := Option.some.inj (hstar.symm.trans hstar')
  exact hlaid

/-- An object is stored. -/
theorem storeObject_layout {obj : Value} (hclosed : Closed l h all) (hobj : obj ∈ all)
    (hfuel : all.card < fuel) :
    ∃ words hash, storeObject l h fuel obj = some words ∧ Layout l h words hash ∧
      hash obj = some 2 := by
  let s₀ : StoreState := ⟨List.replicate 10000 0, 10000, fun _ => none, 2⟩
  have hs₀ : s₀.Valid := by
    have hlength : s₀.store.length = 10000 := List.length_replicate ..
    refine ⟨hlength.symm, ?_, ?_, ?_⟩
    · rw [hlength]
      change 2 ≤ 10000
      omega
    · intro v p hp
      cases hp
    · intro v w p hp
      cases hp
  have hunstored : unstored all s₀ < fuel := (Finset.card_filter_le _ _).trans_lt hfuel
  obtain ⟨p, s, hstore, hadds, hp⟩ := storeObj_stores hclosed fuel obj s₀ hs₀ hobj hunstored
  obtain rfl : p = 2 := storeObj_fst rfl hstore
  have hptr : 2 < s.ptr := hadds.valid.bounded obj 2 hp
  have hlength : ((s.store.set 0 1).set 1 s.ptr).length = s.store.length := by simp
  have hle := hadds.valid.ptr
  have hwords : ∀ i, 2 ≤ i → i < s.ptr →
      (((s.store.set 0 1).set 1 s.ptr).take s.ptr)[i]? = s.store[i]? := by
    intro i hi hlt
    rw [List.getElem?_take_of_lt hlt, List.getElem?_set_ne (by omega), List.getElem?_set_ne (by omega)]
  have htake : (((s.store.set 0 1).set 1 s.ptr).take s.ptr).length = s.ptr := by
    rw [List.length_take, hlength]
    omega
  refine ⟨((s.store.set 0 1).set 1 s.ptr).take s.ptr, s.hash, ?_,
    ⟨?_, ?_, ?_, hadds.valid.injective⟩, hp⟩
  · rw [storeObject, hstore]
  · rw [List.getElem?_take_of_lt (by omega), List.getElem?_set_ne (by omega)]
    exact List.getElem?_set_self (by omega)
  · rw [htake, List.getElem?_take_of_lt (by omega)]
    exact List.getElem?_set_self (by rw [List.length_set]; omega)
  · intro v q hq
    obtain ⟨hge, reservation, hstar, hend, hlaid⟩ := hadds.new v q hq rfl
    refine ⟨hge, reservation, hstar, by rwa [htake], hlaid.mono (fun _ _ hw => hw) ?_⟩
    exact fun i hi hlt => hwords i (hge.trans hi) (hlt.trans_le hend)

end Storing

end PVS.Store
