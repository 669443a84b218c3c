import PVS.GroundEval.Ir2cRelations
import PVS.Library.OpenAddressing

/-! The hash tables that the generated C code attaches to updated closures. -/

namespace PVS.GroundEval

open PVS.Library PVS.Library.CInt PVS.Library.CInt.IntType

/-! ### Hash functions of `pvslib.c` -/

def uint32Hash (x : UInt32) : UInt32 :=
  let y := x + 1
  let y := ((y >>> 16) ^^^ y) * 0x45d9f3b
  let y := ((y >>> 16) ^^^ y) * 0x45d9f3b
  (y >>> 16) ^^^ y

def uint64Hash (x : UInt64) : UInt32 :=
  let y := x + 1
  let y := ((y >>> 30) ^^^ y) * 0xbf58476d1ce4e5b9
  let y := ((y >>> 27) ^^^ y) * 0x94d049bb133111eb
  let y := y >>> 31
  (y ^^^ 4294967295).toUInt32

/-- `mpz_get_ui` gives the last bits of the absolute value. -/
def mpzHash (x : ℤ) : UInt32 := uint64Hash (UInt64.ofNat x.natAbs)

inductive HashType
  | uint32 | uint64 | mpz

/-- `ir-hashable-index?` -/
def irHashableIndex : CType → HashType
  | .fix T => if T.width = .w64 then .uint64 else .uint32
  | .mpz => .mpz

/-- The call `~a_hash(i)`, with the conversion of the argument. -/
def HashType.hash : HashType → ℤ → UInt32
  | uint32, x => uint32Hash (UInt32.ofInt x)
  | uint64, x => uint64Hash (UInt64.ofInt x)
  | mpz, x => mpzHash x

/-! ### Key types -/

/-- What is generated for the domain of a function type: the tests of the keys and the hash. -/
structure KeyType (K : Type) [DecidableEq K] where
  zero : K
  keyzero : K → Option Bool
  keymatch : K → K → Option Bool
  hash : K → UInt32
  keyzero_eq : ∀ k, keyzero k = some (decide (k = zero))
  keymatch_eq : ∀ k i, keymatch k i = some (decide (k = i))
  hash_zero : hash zero ≠ 0

/-- The values of a domain of C type `t`. -/
abbrev Key (t : CType) := {d : Datum // d.ctype = t}

theorem Key.ext_iff {t : CType} {k i : Key t} : k = i ↔ k.1.value = i.1.value := by
  constructor
  · intro h
    rw [h]
  · intro h
    apply Subtype.ext
    obtain ⟨⟨T, a, ha⟩ | a, hk⟩ := k <;> obtain ⟨⟨U, b, hb⟩ | b, hi⟩ := i <;> subst hk
    · obtain rfl : U = T := by simpa [Datum.ctype] using hi
      obtain rfl : a = b := h
      rfl
    · simp [Datum.ctype] at hi
    · simp [Datum.ctype] at hi
    · exact congrArg Datum.mpz h

instance (t : CType) : DecidableEq (Key t) := fun _ _ => decidable_of_iff _ Key.ext_iff.symm

def Key.zero : (t : CType) → Key t
  | .fix T => ⟨.fix ⟨T, 0, by rcases T with w | w <;> cases w <;> decide⟩, rfl⟩
  | .mpz => ⟨.mpz 0, rfl⟩

theorem Key.zero_value (t : CType) : (Key.zero t).1.value = 0 := by
  cases t <;> rfl

/-- `(ir2c-arith-relations '== "keyzero" (list "entry.key" 0) (list c-domaintype '|uint8|))` -/
def Key.keyzero (g : Gmp) {t : CType} (k : Key t) : Option Bool :=
  decided g .eq (.int k.1) (.int (.fix ⟨.uint .w8, 0, by decide⟩))

/-- `(ir2c-arith-relations '== "keymatch" (list "data.key" "i") (list c-domain-root c-domain-root))` -/
def Key.keymatch (g : Gmp) {t : CType} (k i : Key t) : Option Bool :=
  decided g .eq (.int k.1) (.int i.1)

theorem Key.keyzero_eq (g : Gmp) {t : CType} (k : Key t) :
    k.keyzero g = some (decide (k = Key.zero t)) := by
  have hexact : RelExact .eq (.int k.1) (.int (.fix ⟨.uint .w8, 0, by decide⟩)) := by
    obtain ⟨⟨T | T, a, ha⟩ | a, hk⟩ := k <;> simp [RelExact]
  rw [Key.keyzero, (decided_iff g .eq _ _).2 hexact]
  have hz : (Datum.fix ⟨.uint .w8, 0, by decide⟩).value = 0 := rfl
  simp [Rel.Holds, Num.value, hz, Key.ext_iff, Key.zero_value]

theorem Key.keymatch_eq (g : Gmp) {t : CType} (k i : Key t) :
    k.keymatch g i = some (decide (k = i)) := by
  have hexact : RelExact .eq (.int k.1) (.int i.1) := by
    obtain ⟨⟨T, a, ha⟩ | a, hk⟩ := k <;> obtain ⟨⟨U, b, hb⟩ | b, hi⟩ := i <;> subst hk
    · obtain rfl : U = T := by simpa [Datum.ctype] using hi
      cases U <;> simp [RelExact]
    · simp [Datum.ctype] at hi
    · simp [Datum.ctype] at hi
    · simp [RelExact]
  rw [Key.keymatch, (decided_iff g .eq _ _).2 hexact]
  simp [Rel.Holds, Num.value, Key.ext_iff]

theorem HashType.hash_zero (h : HashType) : h.hash 0 ≠ 0 := by
  cases h <;> decide

def keyType (g : Gmp) (t : CType) : KeyType (Key t) where
  zero := Key.zero t
  keyzero := Key.keyzero g
  keymatch := Key.keymatch g
  hash k := (irHashableIndex t).hash k.1.value
  keyzero_eq := Key.keyzero_eq g
  keymatch_eq := Key.keymatch_eq g
  hash_zero := by
    rw [Key.zero_value]
    exact HashType.hash_zero _

/-! ### Tables -/

structure HashEntry (K V : Type) where
  keyhash : UInt32
  key : K
  /-- `none` is not initialized. -/
  value : Option V

structure Htbl (K V : Type) where
  size : ℕ
  numEntries : ℕ
  data : List (HashEntry K V)

/-- A closure: what it calls without a table, and its table. -/
structure Closure (K V : Type) where
  hptr : K → V
  htbl : Option (Htbl K V)

def htblDefaultSize : ℕ := 32

/-- `UINT32_MAX/8` -/
def htblMaxSize : ℕ := (2 ^ 32 - 1) / 8

variable {K V : Type} [DecidableEq K] (D : KeyType K)

/-- An entry with `key = 0` and `keyhash = 0`. -/
def emptyEntry : HashEntry K V := ⟨0, D.zero, none⟩

/-- `(keyzero && keyhash == 0)` -/
def isEmpty (e : HashEntry K V) : Option Bool := do
  let keyzero ← D.keyzero e.key
  return keyzero && e.keyhash == 0

/-- The test that ends the loop of `lookup`. -/
def lookupStop (t : Htbl K V) (i : K) (ihash : UInt32) (hashindex : ℕ) : Option Bool := do
  let data ← t.data[hashindex]?
  let empty ← isEmpty D data
  let keymatch ← D.keymatch data.key i
  return empty || data.keyhash == ihash && keymatch

/-- The index determines a round of the loop, so one that runs for more than `size` rounds does not
end. -/
def lookupHtbl (t : Htbl K V) (i : K) (ihash : UInt32) : Option ℕ :=
  let mask := t.size - 1
  search (fun hashindex => (hashindex + 1) &&& mask) (lookupStop D t i ihash) t.size
    (ihash.toNat &&& mask)

/-- `closure-fptr-defn` -/
def closureFptr (closure : Closure K V) (bvar : K) : Option V :=
  match closure.htbl with
  | none => some (closure.hptr bvar)
  | some htbl => do
    let hashindex ← lookupHtbl D htbl bvar (D.hash bvar)
    let entry ← htbl.data[hashindex]?
    if ← isEmpty D entry then some (closure.hptr bvar) else entry.value

def newStop (newData : List (HashEntry K V)) (newLoc : ℕ) : Option Bool := do
  let e ← newData[newLoc]?
  isEmpty D e

/-- One round of the loop that transfers entries. Both masks are applied with `^`. -/
def transferEntry (newSize : ℕ) (newData : List (HashEntry K V)) (e : HashEntry K V) :
    Option (List (HashEntry K V)) := do
  let newMask := newSize - 1
  if ← isEmpty D e then some newData
  else
    let newLoc ← search (fun newLoc => (newLoc + 1) ^^^ newMask) (newStop D newData) newSize
      (e.keyhash.toNat ^^^ newMask)
    some (newData.set newLoc e)

def resize (t : Htbl K V) : Option (Htbl K V) :=
  if htblMaxSize ≤ t.size then none
  else do
    let newSize := 2 * t.size
    let data ← t.data.foldlM (transferEntry D newSize) (List.replicate newSize (emptyEntry D))
    some ⟨newSize, t.numEntries, data⟩

def newHtbl : Htbl K V := ⟨htblDefaultSize, 0, List.replicate htblDefaultSize (emptyEntry D)⟩

/-- The table after the lookup of `i`. -/
def setEntry (t : Htbl K V) (i : K) (v : V) : Option (Htbl K V) := do
  let ihash := D.hash i
  let hashindex ← lookupHtbl D t i ihash
  let hentry ← t.data[hashindex]?
  if ← isEmpty D hentry then
    some { t with data := t.data.set hashindex ⟨ihash, i, some v⟩, numEntries := t.numEntries + 1 }
  else
    some { t with data := t.data.set hashindex { hentry with value := some v } }

/-- `function-destructive-update-body` -/
def dupdate (a : Closure K V) (i : K) (v : V) : Option (Closure K V) := do
  let htbl := a.htbl.getD (newHtbl D)
  let htbl ← if htbl.size / 5 < htbl.numEntries / 3 then resize D htbl else some htbl
  let htbl ← setEntry D htbl i v
  some { a with htbl := some htbl }

def dupdates (f : K → V) (ops : List (K × V)) : Option (Closure K V) :=
  ops.foldlM (fun a op => dupdate D a op.1 op.2) ⟨f, none⟩

/-! ### The function that a table stands for -/

/-- The last value for each key. -/
def lastValue (ops : List (K × V)) : K → Option V :=
  ops.foldl (fun m op => Function.update m op.1 (some op.2)) fun _ => none

def Occupied (e : HashEntry K V) : Prop := ¬(e.key = D.zero ∧ e.keyhash = 0)

instance (e : HashEntry K V) : Decidable (Occupied D e) := instDecidableNot

def Full (t : Htbl K V) (j : ℕ) : Prop := ∃ e, t.data[j]? = some e ∧ Occupied D e

/-- The invariants of a table with the entries `m`. -/
structure TableInv (t : Htbl K V) (m : K → Option V) : Prop where
  length_eq : t.data.length = t.size
  count : t.numEntries = t.data.countP fun e => Occupied D e
  lt : t.numEntries < t.size
  reach : ∀ (j : ℕ) (e : HashEntry K V), t.data[j]? = some e → Occupied D e →
    e.keyhash = D.hash e.key ∧ Reach (Full D t) t.size (D.hash e.key).toNat j
  once : ∀ (j j' : ℕ) (e e' : HashEntry K V), t.data[j]? = some e → t.data[j']? = some e' →
    Occupied D e → Occupied D e' → e.key = e'.key → j = j'
  value : ∀ (j : ℕ) (e : HashEntry K V), t.data[j]? = some e → Occupied D e →
    e.value = m e.key ∧ (m e.key).isSome
  stored : ∀ (k : K) (v : V), m k = some v →
    ∃ (j : ℕ) (e : HashEntry K V), t.data[j]? = some e ∧ Occupied D e ∧ e.key = k

/-- The lookup of `i` ends in the slot of its value, or in an empty slot. -/
def Finds (t : Htbl K V) (i : K) (o : Option V) : Prop :=
  ∃ j e, lookupHtbl D t i (D.hash i) = some j ∧ t.data[j]? = some e ∧
    (Occupied D e ↔ o.isSome) ∧ ∀ v, o = some v → e.key = i ∧ e.value = some v

/-- A closure is the function `f` with the updates `m`. -/
structure Refines (f : K → V) (m : K → Option V) (a : Closure K V) : Prop where
  fptr : ∀ i, closureFptr D a i = some ((m i).getD (f i))
  table : ∀ t, a.htbl = some t → TableInv D t m ∧ ∀ i, Finds D t i (m i)

section Lemmas

variable {D} {t : Htbl K V} {m : K → Option V}

@[simp] theorem isEmpty_eq (e : HashEntry K V) : isEmpty D e = some (decide ¬Occupied D e) := by
  rw [isEmpty, D.keyzero_eq]
  simp only [Option.pure_def, Option.bind_eq_bind, Option.bind_some, Option.some_inj]
  rw [Bool.eq_iff_iff]
  simp [Occupied]

theorem lookupStop_eq {j : ℕ} {e : HashEntry K V} (he : t.data[j]? = some e) (i : K)
    (ihash : UInt32) :
    lookupStop D t i ihash j =
      some (decide (¬Occupied D e ∨ e.keyhash = ihash ∧ e.key = i)) := by
  rw [lookupStop, he]
  simp only [isEmpty_eq, D.keymatch_eq, Option.pure_def, Option.bind_eq_bind, Option.bind_some,
    Option.some_inj]
  rw [Bool.eq_iff_iff]
  simp

/-- A new entry is not taken for an empty one. -/
theorem occupied_hash (k : K) (o : Option V) : Occupied D (⟨D.hash k, k, o⟩ : HashEntry K V) := by
  rintro ⟨rfl, h⟩
  exact D.hash_zero h

theorem exists_not_full (h : TableInv D t m) : ∃ j < t.size, ¬Full D t j := by
  by_contra hne
  have hall : ∀ e ∈ t.data, decide (Occupied D e) = true := by
    intro e he
    obtain ⟨j, hj, rfl⟩ := List.getElem_of_mem he
    have hfull : Full D t j := by
      by_contra hf
      exact hne ⟨j, h.length_eq ▸ hj, hf⟩
    obtain ⟨e', he', ho⟩ := hfull
    rw [List.getElem?_eq_getElem hj, Option.some_inj] at he'
    rw [he']
    exact decide_eq_true ho
  have hcount := h.count
  rw [List.countP_eq_length.2 hall, h.length_eq] at hcount
  exact absurd h.lt (Nat.not_lt.2 hcount.ge)

theorem lookupHtbl_eq_some_iff {p : ℕ} (hp : t.size = 2 ^ p) (i : K) (ihash : UInt32) (j : ℕ) :
    lookupHtbl D t i ihash = some j ↔
      ∃ d < t.size, (ihash.toNat + d) % t.size = j ∧ lookupStop D t i ihash j = some true ∧
        ∀ e < d, lookupStop D t i ihash ((ihash.toNat + e) % t.size) = some false := by
  have hmask : ∀ n, n &&& (t.size - 1) = n % t.size := by
    intro n
    rw [hp]
    exact Nat.and_two_pow_sub_one_eq_mod n p
  simp only [lookupHtbl, hmask]
  rw [search_eq_some_iff]
  simp only [iterate_probe]

variable {p : ℕ}

/-- The lookup of a stored key ends in its slot. -/
theorem TableInv.lookup_stored (h : TableInv D t m) (hp : t.size = 2 ^ p) {i : K} {j : ℕ}
    {e : HashEntry K V} (he : t.data[j]? = some e) (ho : Occupied D e) (hk : e.key = i) :
    lookupHtbl D t i (D.hash i) = some j := by
  obtain ⟨hhash, d, hd, hj, hfull⟩ := h.reach j e he ho
  rw [hk] at hhash hj hfull
  refine (lookupHtbl_eq_some_iff hp i (D.hash i) j).2 ⟨d, hd, hj, ?_, ?_⟩
  · rw [lookupStop_eq he, decide_eq_true (Or.inr ⟨hhash, hk⟩)]
  · intro c hc
    obtain ⟨e', he', ho'⟩ := hfull c hc
    rw [lookupStop_eq he', Option.some_inj, decide_eq_false_iff_not]
    rintro (hempty | ⟨-, hk'⟩)
    · exact hempty ho'
    · have hjj := h.once _ _ _ _ he' he ho' ho (hk'.trans hk.symm)
      rw [← hj] at hjj
      exact absurd (probe_inj (Nat.lt_trans hc hd) hd hjj) (Nat.ne_of_lt hc)

/-- The lookup of another key ends in the first empty slot. -/
theorem TableInv.lookup_not_stored (h : TableInv D t m) (hp : t.size = 2 ^ p) {i : K}
    (hi : m i = none) :
    ∃ j e, lookupHtbl D t i (D.hash i) = some j ∧ t.data[j]? = some e ∧ ¬Occupied D e ∧
      Reach (Full D t) t.size (D.hash i).toNat j := by
  classical
  obtain ⟨j₀, hj₀, hf⟩ := exists_not_full h
  obtain ⟨d, hd, hnot, hfull⟩ := exists_reach_not_full hj₀ hf (D.hash i).toNat
  have hlt : ((D.hash i).toNat + d) % t.size < t.data.length := by
    rw [h.length_eq]
    exact Nat.mod_lt _ (Nat.lt_of_le_of_lt (Nat.zero_le d) hd)
  have he := List.getElem?_eq_getElem hlt
  have ho : ¬Occupied D (t.data[((D.hash i).toNat + d) % t.size]) := fun ho => hnot ⟨_, he, ho⟩
  refine ⟨_, _, ?_, he, ho, d, hd, rfl, hfull⟩
  refine (lookupHtbl_eq_some_iff hp i (D.hash i) _).2 ⟨d, hd, rfl, ?_, ?_⟩
  · rw [lookupStop_eq he, decide_eq_true (Or.inl ho)]
  · intro c hc
    obtain ⟨e', he', ho'⟩ := hfull c hc
    rw [lookupStop_eq he', Option.some_inj, decide_eq_false_iff_not]
    rintro (hempty | ⟨-, hk'⟩)
    · exact hempty ho'
    · have hsome := (h.value _ _ he' ho').2
      rw [hk', hi] at hsome
      exact Bool.false_ne_true hsome

theorem TableInv.finds (h : TableInv D t m) (hp : t.size = 2 ^ p) (i : K) : Finds D t i (m i) := by
  cases hi : m i with
  | none =>
    obtain ⟨j, e, hl, he, ho, -⟩ := h.lookup_not_stored hp hi
    exact ⟨j, e, hl, he, by simp [ho], by simp⟩
  | some v =>
    obtain ⟨j, e, he, ho, hk⟩ := h.stored i v hi
    refine ⟨j, e, h.lookup_stored hp he ho hk, he, by simp [ho], ?_⟩
    rintro w hw
    rw [← hw, ← hi, ← hk]
    exact ⟨rfl, (h.value j e he ho).1⟩

theorem closureFptr_eq {a : Closure K V} (ha : a.htbl = some t) {i : K} {o : Option V}
    (hf : Finds D t i o) : closureFptr D a i = some (o.getD (a.hptr i)) := by
  obtain ⟨j, e, hl, he, ho, hv⟩ := hf
  simp only [closureFptr, ha, hl, he, isEmpty_eq, Option.bind_eq_bind, Option.bind_some]
  cases o with
  | none =>
    have hocc : ¬Occupied D e := by simpa using ho
    simp [hocc]
  | some v =>
    have hocc : Occupied D e := by simpa using ho
    simp [hocc, (hv v rfl).2]

/-! ### One update without a resize -/

theorem getElem?_set_cases {β : Type} {l : List β} {j j' : ℕ} {e e' : β}
    (h : (l.set j e)[j']? = some e') : j' = j ∧ e' = e ∨ j' ≠ j ∧ l[j']? = some e' := by
  by_cases hj : j' = j
  · subst hj
    obtain ⟨hlt, he⟩ := List.getElem?_eq_some_iff.1 h
    rw [List.getElem_set_self] at he
    exact .inl ⟨rfl, he.symm⟩
  · rw [List.getElem?_set_ne (Ne.symm hj)] at h
    exact .inr ⟨hj, h⟩

/-- The value `v` of `i` is written to slot `j`, the only one that may have the key `i`. -/
theorem TableInv.set (h : TableInv D t m) {i : K} {j : ℕ} (hj : j < t.data.length)
    (hr : Reach (Full D t) t.size (D.hash i).toNat j)
    (hother : ∀ (j' : ℕ) (e' : HashEntry K V), t.data[j']? = some e' → Occupied D e' →
      (e'.key = i ↔ j' = j)) (v : V) {n : ℕ}
    (hn : n = (t.data.set j ⟨D.hash i, i, some v⟩).countP fun e => Occupied D e)
    (hlt : n < t.size) :
    TableInv D ⟨t.size, n, t.data.set j ⟨D.hash i, i, some v⟩⟩ (Function.update m i (some v)) := by
  have hself : (t.data.set j ⟨D.hash i, i, some v⟩)[j]? = some ⟨D.hash i, i, some v⟩ :=
    List.getElem?_set_self hj
  have hfull : ∀ c, Full D t c →
      Full D ⟨t.size, n, t.data.set j ⟨D.hash i, i, some v⟩⟩ c := by
    rintro c ⟨e, he, ho⟩
    by_cases hc : c = j
    · subst hc
      exact ⟨_, hself, occupied_hash i _⟩
    · exact ⟨e, by rwa [List.getElem?_set_ne (Ne.symm hc)], ho⟩
  refine ⟨?_, hn, hlt, ?_, ?_, ?_, ?_⟩
  · rw [List.length_set, h.length_eq]
  · intro j' e' he' ho'
    rcases getElem?_set_cases he' with ⟨rfl, rfl⟩ | ⟨-, he'⟩
    · exact ⟨rfl, hr.mono hfull⟩
    · obtain ⟨hhash, hreach⟩ := h.reach j' e' he' ho'
      exact ⟨hhash, hreach.mono hfull⟩
  · intro j₁ j₂ e₁ e₂ he₁ he₂ ho₁ ho₂ hk
    rcases getElem?_set_cases he₁ with ⟨rfl, rfl⟩ | ⟨hne₁, hs₁⟩ <;>
      rcases getElem?_set_cases he₂ with ⟨rfl, rfl⟩ | ⟨hne₂, hs₂⟩
    · rfl
    · exact absurd ((hother j₂ e₂ hs₂ ho₂).1 hk.symm) hne₂
    · exact absurd ((hother j₁ e₁ hs₁ ho₁).1 hk) hne₁
    · exact h.once j₁ j₂ e₁ e₂ hs₁ hs₂ ho₁ ho₂ hk
  · intro j' e' he' ho'
    rcases getElem?_set_cases he' with ⟨rfl, rfl⟩ | ⟨hne, he'⟩
    · simp
    · have hk : e'.key ≠ i := fun hk => hne ((hother j' e' he' ho').1 hk)
      rw [Function.update_of_ne hk]
      exact h.value j' e' he' ho'
  · intro k w hw
    by_cases hk : k = i
    · subst hk
      exact ⟨j, _, hself, occupied_hash k _, rfl⟩
    · rw [Function.update_of_ne hk] at hw
      obtain ⟨j', e', he', ho', rfl⟩ := h.stored k w hw
      refine ⟨j', e', ?_, ho', rfl⟩
      have hne : j ≠ j' := fun hj' => hk ((hother j' e' he' ho').2 hj'.symm)
      rwa [List.getElem?_set_ne hne]

/-- An update stores the value; a key that had none takes one more slot. -/
theorem TableInv.setEntry (h : TableInv D t m) (hp : t.size = 2 ^ p) (i : K) (v : V)
    (hlt : t.numEntries + 1 < t.size) :
    ∃ t', setEntry D t i v = some t' ∧ t'.size = t.size ∧
      t'.numEntries = t.numEntries + (if m i = none then 1 else 0) ∧
      TableInv D t' (Function.update m i (some v)) := by
  cases hi : m i with
  | none =>
    obtain ⟨j, e, hl, he, ho, hr⟩ := h.lookup_not_stored hp hi
    obtain ⟨hj, rfl⟩ := List.getElem?_eq_some_iff.1 he
    refine ⟨⟨t.size, t.numEntries + 1, t.data.set j ⟨D.hash i, i, some v⟩⟩, ?_, rfl, rfl, ?_⟩
    · simp [GroundEval.setEntry, hl, hj, ho]
    · apply h.set hj hr
      · intro j' e' he' ho'
        constructor
        · intro hk
          have hsome := (h.value j' e' he' ho').2
          rw [hk, hi] at hsome
          exact absurd hsome Bool.false_ne_true
        · rintro rfl
          rw [he, Option.some_inj] at he'
          rw [he'] at ho
          exact absurd ho' ho
      · rw [List.countP_set hj, h.count]
        simp [ho, occupied_hash]
      · exact hlt
  | some w =>
    obtain ⟨j, e, he, ho, hk⟩ := h.stored i w hi
    obtain ⟨hhash, hr⟩ := h.reach j e he ho
    have hentry : { e with value := some v } = (⟨D.hash i, i, some v⟩ : HashEntry K V) := by
      rw [hhash, hk]
    obtain ⟨hj, rfl⟩ := List.getElem?_eq_some_iff.1 he
    refine ⟨⟨t.size, t.numEntries, t.data.set j ⟨D.hash i, i, some v⟩⟩, ?_, rfl, rfl, ?_⟩
    · rw [← hentry]
      simp [GroundEval.setEntry, h.lookup_stored hp he ho hk, hj, ho]
    · apply h.set hj (hk ▸ hr)
      · intro j' e' he' ho'
        constructor
        · intro hk'
          exact h.once _ _ _ _ he' he ho' ho (hk'.trans hk.symm)
        · rintro rfl
          rw [he, Option.some_inj] at he'
          rw [← he', hk]
      · have hpos : 0 < t.data.countP fun e => Occupied D e :=
          List.countP_pos_iff.2 ⟨_, List.getElem_mem hj, decide_eq_true ho⟩
        rw [List.countP_set hj, h.count]
        simp only [ho, occupied_hash, decide_true, if_true]
        omega
      · exact h.lt

theorem newHtbl_inv : TableInv D (newHtbl D : Htbl K V) fun _ => none := by
  have hempty : ∀ (j : ℕ) (e : HashEntry K V), (newHtbl D : Htbl K V).data[j]? = some e →
      ¬Occupied D e := by
    intro j e he
    have hmem := List.mem_of_getElem? he
    rw [newHtbl, List.mem_replicate] at hmem
    rw [hmem.2]
    simp [Occupied, emptyEntry]
  refine ⟨?_, ?_, ?_, ?_, ?_, ?_, ?_⟩
  · simp [newHtbl]
  · simp [newHtbl, List.countP_replicate, Occupied, emptyEntry]
  · simp [newHtbl, htblDefaultSize]
  · intro j e he ho
    exact absurd ho (hempty j e he)
  · intro j _ e _ he _ ho
    exact absurd ho (hempty j e he)
  · intro j e he ho
    exact absurd ho (hempty j e he)
  · intro k v hv
    exact absurd hv (by simp)

end Lemmas

end PVS.GroundEval
