import Mathlib.Data.List.Forall2
import Mathlib.Tactic.Linarith
import Mathlib.Tactic.NormNum
import PVS.GroundEval.ArrayExtent

/-! The arithmetic of subranges, from which `pvs2ir.lisp` chooses the types of sums, differences and
products. -/

namespace PVS.GroundEval

open PVS.Library.CInt PVS.Library.CInt.IntType

/-! ### Bounds -/

/-- A bound inside `times-subrange`: `*` is an upper bound there and `-*` a lower one. -/
inductive IrBound
  | star
  | minusStar
  | int (i : ℤ)
  deriving DecidableEq

def IrBound.ofOption : Option ℤ → IrBound
  | none => star
  | some i => int i

def boundPlus : Option ℤ → Option ℤ → Option ℤ
  | some i, some j => some (i + j)
  | _, _ => none

def boundTimes : IrBound → IrBound → IrBound
  | .star, .star => .star
  | .star, .minusStar => .minusStar
  | .star, .int j => if j = 0 then .int 0 else if j < 0 then .minusStar else .star
  | .minusStar, .star => .minusStar
  | .minusStar, .minusStar => .star
  | .minusStar, .int j => if j = 0 then .int 0 else if j < 0 then .star else .minusStar
  | .int i, b =>
    if i = 0 then .int 0
    else if i < 0 then
      match b with
      | .star => .minusStar
      | .minusStar => .star
      | .int j => if j = 0 then .int 0 else .int (i * j)
    else
      match b with
      | .star => .star
      | .minusStar => .minusStar
      | .int j => .int (i * j)

def makeLowBound : IrBound → IrBound
  | .star => .minusStar
  | b => b

def boundMin (x y : IrBound) : IrBound :=
  if x = .minusStar ∨ y = .minusStar then .minusStar
  else
    match x, y with
    | .star, y => y
    | x, .star => x
    | .int i, .int j => .int (min i j)
    | x, _ => x

def boundMax (x y : IrBound) : IrBound :=
  if x = .star ∨ y = .star then .star
  else
    match x, y with
    | .minusStar, y => y
    | x, .minusStar => x
    | .int i, .int j => .int (max i j)
    | x, _ => x

def boundNorm : IrBound → Option ℤ
  | .int i => some i
  | _ => none

/-! ### Subranges -/

def plusSubrange (r s : IrSubrange) : IrSubrange :=
  ⟨boundPlus r.irLow s.irLow, boundPlus r.irHigh s.irHigh⟩

def negateSubrange (r : IrSubrange) : IrSubrange :=
  ⟨r.irHigh.map (- ·), r.irLow.map (- ·)⟩

def minusSubrange (r s : IrSubrange) : IrSubrange := plusSubrange r (negateSubrange s)

def timesSubrange (r s : IrSubrange) : IrSubrange :=
  let low1 := makeLowBound (.ofOption r.irLow)
  let low2 := makeLowBound (.ofOption s.irLow)
  let lowhigh := boundTimes low1 (.ofOption s.irHigh)
  let lowlow := boundTimes low1 low2
  let highlow := boundTimes (.ofOption r.irHigh) low2
  let highhigh := boundTimes (.ofOption r.irHigh) (.ofOption s.irHigh)
  ⟨boundNorm (boundMin lowhigh (boundMin lowlow (boundMin highlow highhigh))),
    boundNorm (boundMax lowhigh (boundMax lowlow (boundMax highlow highhigh)))⟩

/-- The types that the generic functions below tell apart; `other` is a type of any other class. -/
inductive IrType (T : Type)
  | subrange (r : IrSubrange)
  | typename (defn : IrType T)
  | mpq
  | other (t : T)

variable {T : Type}

def irTypeDef : IrType T → IrType T
  | .typename d => irTypeDef d
  | t => t

/-- `intersect-subrange*` of two subranges. -/
def intersectSubranges (r s : IrSubrange) : IrSubrange where
  irLow :=
    match r.irLow, s.irLow with
    | none, low2 => low2
    | some low1, none => some low1
    | some low1, some low2 => if low1 < low2 then some low2 else some low1
  irHigh :=
    match r.irHigh, s.irHigh with
    | none, high2 => high2
    | some high1, none => some high1
    | some high1, some high2 => if high1 < high2 then some high1 else some high2

/-- `intersect-subrange*` of a subrange and a type. -/
def intersectSubrangeType (r : IrSubrange) : IrType T → IrSubrange
  | .subrange s => intersectSubranges r s
  | .typename d => intersectSubrangeType r d
  | _ => r

/-- `intersect-subrange*` of a type and a subrange. -/
def intersectTypeSubrange (s : IrSubrange) : IrType T → IrSubrange
  | .subrange r => intersectSubranges r s
  | .typename d => intersectTypeSubrange s d
  | _ => s

def intersectSubrange : IrType T → IrType T → IrSubrange
  | .subrange r, t => intersectSubrangeType r t
  | t, .subrange s => intersectTypeSubrange s t
  | _, _ => ⟨none, none⟩

/-- The primitives by their identifier. -/
inductive PrimitiveId
  | plus | minus | times | other
  deriving DecidableEq

/-- The new subrange within the type of the application, if it has one. -/
def intersected (atype : Option (IrType T)) (r : IrSubrange) : IrType T :=
  .subrange (match atype with
    | some a => intersectSubrange (.subrange r) a
    | none => r)

def isMpq : Option (IrType T) → Bool
  | some .mpq => true
  | _ => false

/-- The slots of a subrange; those of any other type are an error. -/
def slots : Option (IrType T) → Option IrSubrange
  | some (.subrange r) => some r
  | _ => none

/-- `new-subrange-type` -/
def newSubrangeType (id : PrimitiveId) (length : ℕ) (argtyp1 argtyp2 : Option (IrType T)) :
    Option (Option IrSubrange) :=
  match id with
  | .plus => do return some (plusSubrange (← slots argtyp1) (← slots argtyp2))
  | .minus =>
    if length < 2 then do return some (negateSubrange (← slots argtyp1))
    else do return some (minusSubrange (← slots argtyp1) (← slots argtyp2))
  | .times => do return some (timesSubrange (← slots argtyp1) (← slots argtyp2))
  | .other => some none

/-- The operator is `none` when it is no primitive, and the result when there is an error. -/
def irApplyOpType (pvsop : Option PrimitiveId) (argtypes : List (IrType T))
    (atype : Option (IrType T)) : Option (Option (IrType T)) :=
  match pvsop with
  | none => some atype
  | some id =>
    let argtyp1 := argtypes[0]?.map irTypeDef
    let argtyp2 := argtypes[1]?.map irTypeDef
    if isMpq argtyp1 || isMpq argtyp2 then some (some (atype.getD .mpq))
    else
      (newSubrangeType id argtypes.length argtyp1 argtyp2).map fun
        | some r => some (intersected atype r)
        | none => atype

/-! ### Members -/

instance : Membership ℤ IrSubrange :=
  ⟨fun r z => (∀ l ∈ r.irLow, l ≤ z) ∧ ∀ h ∈ r.irHigh, z ≤ h⟩

theorem mem_subrange {r : IrSubrange} {z : ℤ} :
    z ∈ r ↔ (∀ l ∈ r.irLow, l ≤ z) ∧ ∀ h ∈ r.irHigh, z ≤ h := Iff.rfl

/-- The smallest interval around `S`. -/
structure Smallest (r : IrSubrange) (S : Set ℤ) : Prop where
  contains : ∀ z ∈ S, z ∈ r
  least : ∀ r' : IrSubrange, (∀ z ∈ S, z ∈ r') → ∀ z ∈ r, z ∈ r'

/-- Around no integer only an interval without a member is smallest. -/
theorem smallest_iff {r : IrSubrange} {S : Set ℤ} (h : ∀ z ∈ S, z ∈ r)
    (hs : S.Nonempty → Smallest r S) : Smallest r S ↔ S.Nonempty ∨ ∀ z, z ∉ r := by
  refine ⟨fun hr => ?_, fun hr => ?_⟩
  · by_cases hne : S.Nonempty
    · exact .inl hne
    · refine .inr fun z hz => ?_
      have hmem : z ∈ (⟨some 1, some 0⟩ : IrSubrange) :=
        hr.least _ (fun w hw => absurd ⟨w, hw⟩ hne) z hz
      have hlow : 1 ≤ z := hmem.1 1 rfl
      have hhigh : z ≤ 0 := hmem.2 0 rfl
      omega
  · cases hr with
    | inl hne => exact hs hne
    | inr he => exact ⟨h, fun _ _ z hz => absurd hz (he z)⟩

/-! ### The order of bounds -/

namespace IrBound

def le : IrBound → IrBound → Prop
  | .minusStar, _ => True
  | _, .star => True
  | .int i, .int j => i ≤ j
  | _, _ => False

instance : LE IrBound := ⟨le⟩

@[simp] theorem minusStar_le (x : IrBound) : minusStar ≤ x := by cases x <;> exact trivial

@[simp] theorem le_star (x : IrBound) : x ≤ star := by cases x <;> exact trivial

@[simp] theorem int_le_int {i j : ℤ} : int i ≤ int j ↔ i ≤ j := Iff.rfl

@[simp] theorem not_int_le_minusStar {i : ℤ} : ¬int i ≤ minusStar := id

@[simp] theorem not_star_le_int {i : ℤ} : ¬star ≤ int i := id

@[simp] theorem not_star_le_minusStar : ¬star ≤ minusStar := id

theorem le_trans {x y z : IrBound} (hxy : x ≤ y) (hyz : y ≤ z) : x ≤ z := by
  cases x <;> cases y <;> cases z <;> simp_all
  omega

theorem le_total (x y : IrBound) : x ≤ y ∨ y ≤ x := by
  cases x <;> cases y <;> simp
  omega

end IrBound

theorem boundMin_le_iff {x y z : IrBound} : boundMin x y ≤ z ↔ x ≤ z ∨ y ≤ z := by
  cases x <;> cases y <;> cases z <;> simp [boundMin]

theorem le_boundMax_iff {x y z : IrBound} : z ≤ boundMax x y ↔ z ≤ x ∨ z ≤ y := by
  cases x <;> cases y <;> cases z <;> simp [boundMax]

@[simp] theorem boundTimes_int (i j : ℤ) : boundTimes (.int i) (.int j) = .int (i * j) := by
  simp only [boundTimes]
  split_ifs <;> simp_all

theorem boundTimes_comm (x y : IrBound) : boundTimes x y = boundTimes y x := by
  cases x with
  | int i =>
    cases y with
    | int j => simp only [boundTimes_int, mul_comm]
    | _ => rfl
  | _ => cases y <;> rfl

def IrBound.neg : IrBound → IrBound
  | star => minusStar
  | minusStar => star
  | int i => int (-i)

@[simp] theorem IrBound.neg_neg (x : IrBound) : x.neg.neg = x := by cases x <;> simp [neg]

theorem IrBound.neg_le_neg {x y : IrBound} (h : x ≤ y) : y.neg ≤ x.neg := by
  cases x <;> cases y <;> simp_all [neg]

theorem boundTimes_neg (x y : IrBound) : boundTimes x y.neg = (boundTimes x y).neg := by
  cases x <;> cases y <;> simp only [IrBound.neg, boundTimes_int, mul_neg] <;>
    simp only [boundTimes] <;> split_ifs <;> first | rfl | omega

theorem boundTimes_zero (x : IrBound) : boundTimes x (.int 0) = .int 0 := by
  cases x <;> simp [boundTimes]

theorem boundTimes_mono {x x' y : IrBound} (hy : .int 0 ≤ y) (h : x ≤ x') :
    boundTimes x y ≤ boundTimes x' y := by
  cases y with
  | minusStar => exact absurd hy id
  | star =>
    cases x <;> cases x' <;> simp only [boundTimes] <;> (try split_ifs) <;> simp_all <;> omega
  | int j =>
    rcases (show 0 ≤ j from hy).eq_or_lt with rfl | hj
    · rw [boundTimes_zero, boundTimes_zero]
      exact IrBound.int_le_int.2 le_rfl
    · have hstar : boundTimes .star (.int j) = .star := by
        simp [boundTimes, hj.ne', hj.not_gt]
      have hminus : boundTimes .minusStar (.int j) = .minusStar := by
        simp [boundTimes, hj.ne', hj.not_gt]
      cases x <;> cases x' <;> simp_all

theorem boundTimes_anti {x x' y : IrBound} (hy : y ≤ .int 0) (h : x ≤ x') :
    boundTimes x' y ≤ boundTimes x y := by
  have hneg : ∀ z, boundTimes z y = (boundTimes z y.neg).neg := by
    intro z
    rw [← boundTimes_neg, IrBound.neg_neg]
  rw [hneg x, hneg x']
  exact IrBound.neg_le_neg (boundTimes_mono (IrBound.neg_le_neg hy) h)

/-- Between two bounds a product is between the products of the bounds. -/
theorem boundTimes_between {a b x : IrBound} (y : IrBound) (ha : a ≤ x) (hb : x ≤ b) :
    (boundTimes a y ≤ boundTimes x y ∨ boundTimes b y ≤ boundTimes x y) ∧
      (boundTimes x y ≤ boundTimes a y ∨ boundTimes x y ≤ boundTimes b y) := by
  cases IrBound.le_total (.int 0) y with
  | inl hy => exact ⟨.inl (boundTimes_mono hy ha), .inr (boundTimes_mono hy hb)⟩
  | inr hy => exact ⟨.inr (boundTimes_anti hy hb), .inl (boundTimes_anti hy ha)⟩

theorem boundTimes_between_right {c d y : IrBound} (x : IrBound) (hc : c ≤ y) (hd : y ≤ d) :
    (boundTimes x c ≤ boundTimes x y ∨ boundTimes x d ≤ boundTimes x y) ∧
      (boundTimes x y ≤ boundTimes x c ∨ boundTimes x y ≤ boundTimes x d) := by
  simpa only [boundTimes_comm x] using boundTimes_between x hc hd

/-! ### The bounds of a subrange -/

def IrSubrange.low (r : IrSubrange) : IrBound := makeLowBound (.ofOption r.irLow)

def IrSubrange.high (r : IrSubrange) : IrBound := .ofOption r.irHigh

theorem mem_iff_bounds {r : IrSubrange} {z : ℤ} : z ∈ r ↔ r.low ≤ .int z ∧ .int z ≤ r.high := by
  obtain ⟨low, high⟩ := r
  rw [mem_subrange]
  cases low <;> cases high <;>
    simp [IrSubrange.low, IrSubrange.high, IrBound.ofOption, makeLowBound]

/-- A bound that the integers of `S` reach: an infinite one when they exceed every integer. -/
def Limit (S : Set ℤ) : IrBound → Prop
  | .star => ∀ n, ∃ z ∈ S, n ≤ z
  | .minusStar => ∀ n, ∃ z ∈ S, z ≤ n
  | .int i => i ∈ S

theorem Limit.mono {S T : Set ℤ} {a : IrBound} (h : Limit S a) (hST : ∀ z ∈ S, z ∈ T) :
    Limit T a := by
  cases a with
  | int i => exact hST i h
  | star => exact fun n => (h n).imp fun z hz => ⟨hST z hz.1, hz.2⟩
  | minusStar => exact fun n => (h n).imp fun z hz => ⟨hST z hz.1, hz.2⟩

theorem limit_low {r : IrSubrange} {x : ℤ} (hx : x ∈ r) : Limit {z | z ∈ r} r.low := by
  obtain ⟨_ | l, high⟩ := r
  · intro n
    refine ⟨min n x, ⟨by simp, fun h hh => ?_⟩, min_le_left n x⟩
    exact (min_le_right n x).trans (hx.2 h hh)
  · exact ⟨by simp, fun h hh => (hx.1 l rfl).trans (hx.2 h hh)⟩

theorem limit_high {r : IrSubrange} {x : ℤ} (hx : x ∈ r) : Limit {z | z ∈ r} r.high := by
  obtain ⟨low, _ | h⟩ := r
  · intro n
    refine ⟨max n x, ⟨fun l hl => ?_, by simp⟩, le_max_left n x⟩
    exact (hx.1 l hl).trans (le_max_right n x)
  · exact ⟨fun l hl => (hx.1 l hl).trans (hx.2 h rfl), by simp⟩

/-- An interval whose bounds the integers of `S` reach is inside each interval around `S`. -/
theorem mem_of_limits {r r' : IrSubrange} {S : Set ℤ} (hlow : Limit S r.low)
    (hhigh : Limit S r.high) (hS : ∀ z ∈ S, z ∈ r') {z : ℤ} (hz : z ∈ r) : z ∈ r' := by
  obtain ⟨hzl, hzh⟩ := hz
  refine ⟨fun l hl => ?_, fun h hh => ?_⟩
  · obtain ⟨_ | i, high⟩ := r
    · obtain ⟨s, hs, hsl⟩ := hlow (l - 1)
      have := (hS s hs).1 l hl
      omega
    · exact ((hS i hlow).1 l hl).trans (hzl i rfl)
  · obtain ⟨low, _ | i⟩ := r
    · obtain ⟨s, hs, hsh⟩ := hhigh (h + 1)
      have := (hS s hs).2 h hh
      omega
    · exact (hzh i rfl).trans ((hS i hhigh).2 h hh)

/-! ### Sums -/

theorem add_mem_plusSubrange {r s : IrSubrange} {x y : ℤ} (hx : x ∈ r) (hy : y ∈ s) :
    x + y ∈ plusSubrange r s := by
  obtain ⟨l, h⟩ := r
  obtain ⟨l', h'⟩ := s
  refine ⟨fun m hm => ?_, fun m hm => ?_⟩
  · cases l <;> cases l' <;> simp_all [plusSubrange, boundPlus, mem_subrange]
    omega
  · cases h <;> cases h' <;> simp_all [plusSubrange, boundPlus, mem_subrange]
    omega

/-- The sums of the members. -/
def sums (r s : IrSubrange) : Set ℤ := {z | ∃ x ∈ r, ∃ y ∈ s, x + y = z}

theorem limit_plus_low {r s : IrSubrange} {x y : ℤ} (hx : x ∈ r) (hy : y ∈ s) :
    Limit (sums r s) (plusSubrange r s).low := by
  have hr := limit_low hx
  have hs := limit_low hy
  obtain ⟨_ | l, h⟩ := r
  · intro n
    obtain ⟨u, hu, hun⟩ := hr (n - y)
    exact ⟨u + y, ⟨u, hu, y, hy, rfl⟩, by omega⟩
  · obtain ⟨_ | l', h'⟩ := s
    · intro n
      obtain ⟨u, hu, hun⟩ := hs (n - x)
      exact ⟨x + u, ⟨x, hx, u, hu, rfl⟩, by omega⟩
    · exact ⟨l, hr, l', hs, rfl⟩

theorem limit_plus_high {r s : IrSubrange} {x y : ℤ} (hx : x ∈ r) (hy : y ∈ s) :
    Limit (sums r s) (plusSubrange r s).high := by
  have hr := limit_high hx
  have hs := limit_high hy
  obtain ⟨l, _ | h⟩ := r
  · intro n
    obtain ⟨u, hu, hun⟩ := hr (n - y)
    exact ⟨u + y, ⟨u, hu, y, hy, rfl⟩, by omega⟩
  · obtain ⟨l', _ | h'⟩ := s
    · intro n
      obtain ⟨u, hu, hun⟩ := hs (n - x)
      exact ⟨x + u, ⟨x, hx, u, hu, rfl⟩, by omega⟩
    · exact ⟨h, hr, h', hs, rfl⟩

/-! ### Opposites and differences -/

theorem mem_negateSubrange {r : IrSubrange} {z : ℤ} : z ∈ negateSubrange r ↔ -z ∈ r := by
  obtain ⟨l, h⟩ := r
  rw [mem_subrange, mem_subrange]
  cases l <;> cases h <;> simp [negateSubrange] <;> omega

/-! ### Products -/

/-- The products of the members. -/
def products (r s : IrSubrange) : Set ℤ := {z | ∃ x ∈ r, ∃ y ∈ s, x * y = z}

/-- The lower bound that `times-subrange` computes, before `bound-norm`. -/
def timesLow (r s : IrSubrange) : IrBound :=
  boundMin (boundTimes r.low s.high) (boundMin (boundTimes r.low s.low)
    (boundMin (boundTimes r.high s.low) (boundTimes r.high s.high)))

def timesHigh (r s : IrSubrange) : IrBound :=
  boundMax (boundTimes r.low s.high) (boundMax (boundTimes r.low s.low)
    (boundMax (boundTimes r.high s.low) (boundTimes r.high s.high)))

theorem timesSubrange_eq (r s : IrSubrange) :
    timesSubrange r s = ⟨boundNorm (timesLow r s), boundNorm (timesHigh r s)⟩ := rfl

theorem product_between {r s : IrSubrange} {x y : ℤ} (hx : x ∈ r) (hy : y ∈ s) :
    timesLow r s ≤ .int (x * y) ∧ .int (x * y) ≤ timesHigh r s := by
  obtain ⟨hxl, hxh⟩ := mem_iff_bounds.1 hx
  obtain ⟨hyl, hyh⟩ := mem_iff_bounds.1 hy
  obtain ⟨hlow, hhigh⟩ := boundTimes_between (.int y) hxl hxh
  -- then the second factor moves to a bound too
  obtain ⟨hlowLow, hlowHigh⟩ := boundTimes_between_right r.low hyl hyh
  obtain ⟨hhighLow, hhighHigh⟩ := boundTimes_between_right r.high hyl hyh
  rw [boundTimes_int] at hlow hhigh
  simp only [timesLow, timesHigh, boundMin_le_iff, le_boundMax_iff]
  constructor
  · cases hlow with
    | inl h =>
      cases hlowLow with
      | inl hc => exact .inr (.inl (IrBound.le_trans hc h))
      | inr hc => exact .inl (IrBound.le_trans hc h)
    | inr h =>
      cases hhighLow with
      | inl hc => exact .inr (.inr (.inl (IrBound.le_trans hc h)))
      | inr hc => exact .inr (.inr (.inr (IrBound.le_trans hc h)))
  · cases hhigh with
    | inl h =>
      cases hlowHigh with
      | inl hc => exact .inr (.inl (IrBound.le_trans h hc))
      | inr hc => exact .inl (IrBound.le_trans h hc)
    | inr h =>
      cases hhighHigh with
      | inl hc => exact .inr (.inr (.inl (IrBound.le_trans h hc)))
      | inr hc => exact .inr (.inr (.inr (IrBound.le_trans h hc)))

/-- `bound-norm` forgets which infinity a bound is; the lower bound is never `*`, the upper never
`-*`. -/
theorem mul_mem_timesSubrange {r s : IrSubrange} {x y : ℤ} (hx : x ∈ r) (hy : y ∈ s) :
    x * y ∈ timesSubrange r s := by
  obtain ⟨hlow, hhigh⟩ := product_between hx hy
  rw [timesSubrange_eq]
  constructor
  · show ∀ l ∈ boundNorm (timesLow r s), l ≤ x * y
    cases hm : timesLow r s <;> simp_all [boundNorm]
  · show ∀ h ∈ boundNorm (timesHigh r s), x * y ≤ h
    cases hm : timesHigh r s <;> simp_all [boundNorm]

/-- A fixed factor takes a limit to the product with the limit. -/
theorem Limit.scaled {T : Set ℤ} {b : IrBound} (h : Limit T b) (i : ℤ) :
    Limit {z | ∃ y ∈ T, i * y = z} (boundTimes (.int i) b) := by
  cases b with
  | int j =>
    rw [boundTimes_int]
    exact ⟨j, h, rfl⟩
  | star =>
    simp only [boundTimes]
    split_ifs with h0 hneg
    · obtain ⟨y, hy, -⟩ := h 0
      exact ⟨y, hy, by rw [h0, zero_mul]⟩
    · intro n
      obtain ⟨y, hy, hyn⟩ := h |n|
      exact ⟨i * y, ⟨y, hy, rfl⟩, by nlinarith [abs_nonneg n, neg_abs_le n]⟩
    · intro n
      obtain ⟨y, hy, hyn⟩ := h |n|
      have hpos : 1 ≤ i := by omega
      exact ⟨i * y, ⟨y, hy, rfl⟩, by nlinarith [abs_nonneg n, le_abs_self n]⟩
  | minusStar =>
    simp only [boundTimes]
    split_ifs with h0 hneg
    · obtain ⟨y, hy, -⟩ := h 0
      exact ⟨y, hy, by rw [h0, zero_mul]⟩
    · intro n
      obtain ⟨y, hy, hyn⟩ := h (-|n|)
      exact ⟨i * y, ⟨y, hy, rfl⟩, by nlinarith [abs_nonneg n, le_abs_self n]⟩
    · intro n
      obtain ⟨y, hy, hyn⟩ := h (-|n|)
      have hpos : 1 ≤ i := by omega
      exact ⟨i * y, ⟨y, hy, rfl⟩, by nlinarith [abs_nonneg n, neg_abs_le n]⟩

theorem Limit.times {S T : Set ℤ} {a b : IrBound} (hS : Limit S a) (hT : Limit T b) :
    Limit {z | ∃ x ∈ S, ∃ y ∈ T, x * y = z} (boundTimes a b) := by
  cases a with
  | int i => exact (hT.scaled i).mono fun z ⟨y, hy, hz⟩ => ⟨i, hS, y, hy, hz⟩
  | star =>
    cases b with
    | int j =>
      rw [boundTimes_comm]
      exact (hS.scaled j).mono fun z ⟨x, hx, hz⟩ => ⟨x, hx, j, hT, by rw [mul_comm, hz]⟩
    | star =>
      intro n
      obtain ⟨x, hx, hx1⟩ := hS 1
      obtain ⟨y, hy, hyn⟩ := hT |n|
      exact ⟨x * y, ⟨x, hx, y, hy, rfl⟩, by nlinarith [abs_nonneg n, le_abs_self n]⟩
    | minusStar =>
      intro n
      obtain ⟨x, hx, hx1⟩ := hS 1
      obtain ⟨y, hy, hyn⟩ := hT (-|n|)
      exact ⟨x * y, ⟨x, hx, y, hy, rfl⟩, by nlinarith [abs_nonneg n, neg_abs_le n]⟩
  | minusStar =>
    cases b with
    | int j =>
      rw [boundTimes_comm]
      exact (hS.scaled j).mono fun z ⟨x, hx, hz⟩ => ⟨x, hx, j, hT, by rw [mul_comm, hz]⟩
    | star =>
      intro n
      obtain ⟨x, hx, hx1⟩ := hS (-1)
      obtain ⟨y, hy, hyn⟩ := hT |n|
      exact ⟨x * y, ⟨x, hx, y, hy, rfl⟩, by nlinarith [abs_nonneg n, neg_abs_le n]⟩
    | minusStar =>
      intro n
      obtain ⟨x, hx, hx1⟩ := hS (-1)
      obtain ⟨y, hy, hyn⟩ := hT (-|n|)
      exact ⟨x * y, ⟨x, hx, y, hy, rfl⟩, by nlinarith [abs_nonneg n, le_abs_self n]⟩

theorem boundMin_eq (x y : IrBound) : boundMin x y = x ∨ boundMin x y = y := by
  cases x <;> cases y <;> simp [boundMin, Int.le_total]

theorem boundMax_eq (x y : IrBound) : boundMax x y = x ∨ boundMax x y = y := by
  cases x <;> cases y <;> simp [boundMax, Int.le_total]

theorem Limit.boundMin {S : Set ℤ} {a b : IrBound} (ha : Limit S a) (hb : Limit S b) :
    Limit S (boundMin a b) := by
  cases boundMin_eq a b with
  | inl h => rwa [h]
  | inr h => rwa [h]

theorem Limit.boundMax {S : Set ℤ} {a b : IrBound} (ha : Limit S a) (hb : Limit S b) :
    Limit S (boundMax a b) := by
  cases boundMax_eq a b with
  | inl h => rwa [h]
  | inr h => rwa [h]

theorem limit_timesSubrange {r s : IrSubrange} {x y : ℤ} (hx : x ∈ r) (hy : y ∈ s) :
    Limit (products r s) (timesSubrange r s).low ∧
      Limit (products r s) (timesSubrange r s).high := by
  have hlow := limit_low hx
  have hhigh := limit_high hx
  have hlow' := limit_low hy
  have hhigh' := limit_high hy
  have hl : Limit (products r s) (timesLow r s) :=
    (hlow.times hhigh').boundMin ((hlow.times hlow').boundMin
      ((hhigh.times hlow').boundMin (hhigh.times hhigh')))
  have hh : Limit (products r s) (timesHigh r s) :=
    (hlow.times hhigh').boundMax ((hlow.times hlow').boundMax
      ((hhigh.times hlow').boundMax (hhigh.times hhigh')))
  obtain ⟨hml, hmh⟩ := product_between hx hy
  rw [timesSubrange_eq]
  constructor
  · cases hm : timesLow r s <;> simp_all [boundNorm, IrSubrange.low, makeLowBound, IrBound.ofOption]
  · cases hm : timesHigh r s <;> simp_all [boundNorm, IrSubrange.high, IrBound.ofOption]

/-! ### Common members -/

theorem mem_intersectSubranges {r s : IrSubrange} {z : ℤ} :
    z ∈ intersectSubranges r s ↔ z ∈ r ∧ z ∈ s := by
  obtain ⟨l, h⟩ := r
  obtain ⟨l', h'⟩ := s
  rw [intersectSubranges, mem_subrange, mem_subrange, mem_subrange]
  have hlow : (∀ m ∈ (match l, l' with
      | none, low2 => low2
      | some low1, none => some low1
      | some low1, some low2 => if low1 < low2 then some low2 else some low1), m ≤ z) ↔
      (∀ m ∈ l, m ≤ z) ∧ ∀ m ∈ l', m ≤ z := by
    cases l <;> cases l' <;> simp
    split <;> simp <;> omega
  have hhigh : (∀ m ∈ (match h, h' with
      | none, high2 => high2
      | some high1, none => some high1
      | some high1, some high2 => if high1 < high2 then some high1 else some high2), z ≤ m) ↔
      (∀ m ∈ h, z ≤ m) ∧ ∀ m ∈ h', z ≤ m := by
    cases h <;> cases h' <;> simp
    split <;> simp <;> omega
  simp only [hlow, hhigh]
  tauto

/-! ### The C type -/

theorem ir2cType_inRange_of_mem {r : IrSubrange} {z : ℤ} (hz : z ∈ r) : r.ir2cType.InRange z := by
  obtain ⟨_ | low, _ | high⟩ := r
  any_goals trivial
  have hl : low ≤ z := hz.1 low rfl
  have hh : z ≤ high := hz.2 high rfl
  simp only [IrSubrange.ir2cType]
  split_ifs
  any_goals trivial
  all_goals
    simp only [CType.InRange, InRange, IntType.min, card, bits, width, Width.bits]
    omega

/-! ### Applications -/

/-- The rationals of a type; `holds` gives those of the types that are not told apart. -/
def IrType.Holds (holds : T → ℚ → Prop) : IrType T → ℚ → Prop
  | .subrange r, q => ∃ z ∈ r, (z : ℚ) = q
  | .typename d, q => d.Holds holds q
  | .mpq, _ => True
  | .other t, q => holds t q

/-- The value of an application to the values of its arguments. -/
inductive Applies : Option PrimitiveId → List ℚ → ℚ → Prop
  | plus (x y : ℚ) : Applies (some .plus) [x, y] (x + y)
  | negate (x : ℚ) : Applies (some .minus) [x] (-x)
  | minus (x y : ℚ) : Applies (some .minus) [x, y] (x - y)
  | times (x y : ℚ) : Applies (some .times) [x, y] (x * y)
  | other (vals : List ℚ) (q : ℚ) : Applies (some .other) vals q
  | call (vals : List ℚ) (q : ℚ) : Applies none vals q

variable {holds : T → ℚ → Prop}

@[simp] theorem holds_irTypeDef {t : IrType T} {q : ℚ} :
    (irTypeDef t).Holds holds q ↔ t.Holds holds q := by
  induction t with
  | typename d ih => exact ih
  | _ => rfl

theorem mem_intersectSubrange_of_holds {r : IrSubrange} {a : IrType T} {z : ℤ} (hz : z ∈ r)
    (ha : a.Holds holds z) : z ∈ intersectSubrange (.subrange r) a := by
  induction a with
  | subrange s =>
    obtain ⟨w, hw, hwz⟩ := ha
    rw [Int.cast_inj] at hwz
    exact mem_intersectSubranges.2 ⟨hz, hwz ▸ hw⟩
  | typename d ih => exact ih ha
  | mpq => exact hz
  | other t => exact hz

theorem sub_mem_minusSubrange {r s : IrSubrange} {x y : ℤ} (hx : x ∈ r) (hy : y ∈ s) :
    x - y ∈ minusSubrange r s := by
  have hneg : -y ∈ negateSubrange s := mem_negateSubrange.2 (by rwa [neg_neg])
  exact sub_eq_add_neg x y ▸ add_mem_plusSubrange hx hneg

/-- A subrange that holds the value still holds it within the type of the application. -/
theorem holds_intersected {r : IrSubrange} {atype : Option (IrType T)} {z : ℤ} (hz : z ∈ r)
    (ha : ∀ a ∈ atype, a.Holds holds z) : (intersected atype r).Holds holds z := by
  cases atype with
  | none => exact ⟨z, hz, rfl⟩
  | some a => exact ⟨z, mem_intersectSubrange_of_holds hz (ha a rfl), rfl⟩

theorem holds_getD {atype : Option (IrType T)} {q : ℚ} (ha : ∀ a ∈ atype, a.Holds holds q) :
    (atype.getD .mpq).Holds holds q := by
  cases atype with
  | none => trivial
  | some a => exact ha a rfl

theorem holds_of_slots {a : IrType T} {r : IrSubrange} {x : ℚ} (h : slots (some a) = some r)
    (hx : a.Holds holds x) : ∃ i ∈ r, (i : ℚ) = x := by
  cases a with
  | subrange s =>
    cases h
    exact hx
  | _ => cases h

/-- The operands of a new subrange are integers. -/
theorem holds_operands {argtypes : List (IrType T)} {x y : ℚ} {r : IrSubrange}
    {f : IrSubrange → IrSubrange → IrSubrange}
    (hargs : List.Forall₂ (IrType.Holds holds) argtypes [x, y])
    (hr : (do return some (f (← slots (argtypes[0]?.map irTypeDef))
      (← slots (argtypes[1]?.map irTypeDef)))) = some (some r)) :
    ∃ s s', ∃ i j : ℤ, i ∈ s ∧ j ∈ s' ∧ (i : ℚ) = x ∧ (j : ℚ) = y ∧ r = f s s' := by
  obtain _ | ⟨hx, _ | ⟨hy, hnil⟩⟩ := hargs
  cases hnil
  obtain ⟨s, hs, hr⟩ := Option.bind_eq_some_iff.1 hr
  obtain ⟨s', hs', hr⟩ := Option.bind_eq_some_iff.1 hr
  obtain ⟨i, hi, hix⟩ := holds_of_slots hs (holds_irTypeDef.2 hx)
  obtain ⟨j, hj, hjy⟩ := holds_of_slots hs' (holds_irTypeDef.2 hy)
  cases hr
  exact ⟨s, s', i, j, hi, hj, hix, hjy, rfl⟩

/-- The new subrange contains the value. -/
theorem holds_newSubrangeType {id : PrimitiveId} {argtypes : List (IrType T)} {vals : List ℚ}
    {q : ℚ} {r : IrSubrange} (hargs : List.Forall₂ (IrType.Holds holds) argtypes vals)
    (hop : Applies (some id) vals q)
    (hr : newSubrangeType id argtypes.length (argtypes[0]?.map irTypeDef)
      (argtypes[1]?.map irTypeDef) = some (some r)) : ∃ z ∈ r, (z : ℚ) = q := by
  cases hop with
  | other => cases hr
  | negate x =>
    obtain _ | ⟨hx, hnil⟩ := hargs
    cases hnil
    obtain ⟨s, hs, hr⟩ := Option.bind_eq_some_iff.1 hr
    obtain ⟨i, hi, rfl⟩ := holds_of_slots hs (holds_irTypeDef.2 hx)
    cases hr
    exact ⟨-i, mem_negateSubrange.2 (by rwa [neg_neg]), Int.cast_neg i⟩
  | plus x y =>
    obtain ⟨s, s', i, j, hi, hj, rfl, rfl, rfl⟩ := holds_operands hargs hr
    exact ⟨i + j, add_mem_plusSubrange hi hj, Int.cast_add i j⟩
  | minus x y =>
    rw [hargs.length_eq] at hr
    obtain ⟨s, s', i, j, hi, hj, rfl, rfl, rfl⟩ := holds_operands hargs hr
    exact ⟨i - j, sub_mem_minusSubrange hi hj, Int.cast_sub i j⟩
  | times x y =>
    obtain ⟨s, s', i, j, hi, hj, rfl, rfl, rfl⟩ := holds_operands hargs hr
    exact ⟨i * j, mul_mem_timesSubrange hi hj, Int.cast_mul i j⟩

/-- The type of an arithmetic application contains its value. -/
theorem holds_irApplyOpType {op : Option PrimitiveId} {argtypes : List (IrType T)}
    {atype : Option (IrType T)} {vals : List ℚ} {q : ℚ} {t : IrType T}
    (hargs : List.Forall₂ (IrType.Holds holds) argtypes vals) (hop : Applies op vals q)
    (ha : ∀ a ∈ atype, a.Holds holds q) (ht : irApplyOpType op argtypes atype = some (some t)) :
    t.Holds holds q := by
  cases op with
  | none => exact ha t (Option.some.inj ht)
  | some id =>
    simp only [irApplyOpType] at ht
    split at ht
    · exact Option.some.inj (Option.some.inj ht) ▸ holds_getD ha
    · rw [Option.map_eq_some_iff] at ht
      obtain ⟨new, hnew, ht⟩ := ht
      cases new with
      | none => exact ha t ht
      | some r =>
        rw [← Option.some.inj ht]
        obtain ⟨z, hz, rfl⟩ := holds_newSubrangeType hargs hop hnew
        exact holds_intersected hz ha

/-- A type whose definition is a subrange or `mpq`. -/
def IrType.Numeric (t : IrType T) : Prop := irTypeDef t = .mpq ∨ ∃ r, irTypeDef t = .subrange r

theorem IrType.Numeric.mpq_or_slots {t : IrType T} (h : t.Numeric) :
    isMpq (some (irTypeDef t)) = true ∨ ∃ r, slots (some (irTypeDef t)) = some r := by
  obtain h | ⟨r, h⟩ := h
  · exact .inl (by rw [h]; rfl)
  · exact .inr ⟨r, by rw [h]; rfl⟩

theorem exists_newSubrangeType {id : PrimitiveId} {argtypes : List (IrType T)} {vals : List ℚ}
    {q : ℚ} (hlen : argtypes.length = vals.length) (hop : Applies (some id) vals q)
    (hid : id ≠ .other) (hslots : ∀ t ∈ argtypes, ∃ r, slots (some (irTypeDef t)) = some r) :
    ∃ r, newSubrangeType id argtypes.length (argtypes[0]?.map irTypeDef)
      (argtypes[1]?.map irTypeDef) = some (some r) := by
  cases hop with
  | other => exact absurd rfl hid
  | negate x =>
    obtain ⟨a, rfl⟩ := List.length_eq_one_iff.1 hlen
    obtain ⟨r, hr⟩ := hslots a (by simp)
    exact ⟨negateSubrange r, by simp [newSubrangeType, hr]⟩
  | _ =>
    obtain ⟨a, b, rfl⟩ := List.length_eq_two.1 hlen
    obtain ⟨r, hr⟩ := hslots a (by simp)
    obtain ⟨s, hs⟩ := hslots b (by simp)
    simp [newSubrangeType, hr, hs]

/-- Numeric operands have a type: no slot is read in another type. -/
theorem exists_irApplyOpType {id : PrimitiveId} {argtypes : List (IrType T)}
    {atype : Option (IrType T)} {vals : List ℚ} {q : ℚ}
    (hargs : List.Forall₂ (IrType.Holds holds) argtypes vals) (hop : Applies (some id) vals q)
    (hid : id ≠ .other) (hnum : ∀ t ∈ argtypes, t.Numeric) :
    ∃ t, irApplyOpType (some id) argtypes atype = some (some t) := by
  simp only [irApplyOpType]
  split
  · exact ⟨_, rfl⟩
  · rename_i hmpq
    have hslots : ∀ t ∈ argtypes, ∃ r, slots (some (irTypeDef t)) = some r := by
      intro t ht
      refine (hnum t ht).mpq_or_slots.resolve_left fun h => hmpq ?_
      -- there are at most two operands
      cases hop with
      | other => exact absurd rfl hid
      | negate x =>
        obtain ⟨a, rfl⟩ := List.length_eq_one_iff.1 hargs.length_eq
        simp_all
      | _ =>
        obtain ⟨a, b, rfl⟩ := List.length_eq_two.1 hargs.length_eq
        obtain rfl | rfl : t = a ∨ t = b := by simpa using ht
        · simp_all
        · simp_all
    obtain ⟨r, hr⟩ := exists_newSubrangeType hargs.length_eq hop hid hslots
    exact ⟨intersected atype r, by rw [hr]; rfl⟩

/-! ### The whole -/

/-- What the operations give for two subranges: an interval around the results, and the smallest one
where each operand has a member. -/
structure SubrangeArithmetic (r s : IrSubrange) : Prop where
  plus_contains : ∀ x ∈ r, ∀ y ∈ s, x + y ∈ plusSubrange r s
  plus_smallest : Smallest (plusSubrange r s) {z | ∃ x ∈ r, ∃ y ∈ s, x + y = z} ↔
    ((∃ x, x ∈ r) ∧ ∃ y, y ∈ s) ∨ ∀ z, z ∉ plusSubrange r s
  minus_contains : ∀ x ∈ r, ∀ y ∈ s, x - y ∈ minusSubrange r s
  minus_smallest : Smallest (minusSubrange r s) {z | ∃ x ∈ r, ∃ y ∈ s, x - y = z} ↔
    ((∃ x, x ∈ r) ∧ ∃ y, y ∈ s) ∨ ∀ z, z ∉ minusSubrange r s
  times_contains : ∀ x ∈ r, ∀ y ∈ s, x * y ∈ timesSubrange r s
  times_smallest : Smallest (timesSubrange r s) {z | ∃ x ∈ r, ∃ y ∈ s, x * y = z} ↔
    ((∃ x, x ∈ r) ∧ ∃ y, y ∈ s) ∨ ∀ z, z ∉ timesSubrange r s
  negate_smallest : Smallest (negateSubrange r) {z | ∃ x ∈ r, -x = z}
  intersect_smallest : Smallest (intersectSubranges r s) {z | z ∈ r ∧ z ∈ s}

/-- Sums, differences and products have a smallest interval where both operands have a member. -/
theorem smallest_image_iff {r s t : IrSubrange} {f : ℤ → ℤ → ℤ}
    (hf : ∀ x ∈ r, ∀ y ∈ s, f x y ∈ t)
    (hlimits : ∀ x ∈ r, ∀ y ∈ s, Limit {z | ∃ x ∈ r, ∃ y ∈ s, f x y = z} t.low ∧
      Limit {z | ∃ x ∈ r, ∃ y ∈ s, f x y = z} t.high) :
    Smallest t {z | ∃ x ∈ r, ∃ y ∈ s, f x y = z} ↔
      ((∃ x, x ∈ r) ∧ ∃ y, y ∈ s) ∨ ∀ z, z ∉ t := by
  have hcontains : ∀ z ∈ {z | ∃ x ∈ r, ∃ y ∈ s, f x y = z}, z ∈ t := by
    rintro z ⟨x, hx, y, hy, rfl⟩
    exact hf x hx y hy
  have hne : {z | ∃ x ∈ r, ∃ y ∈ s, f x y = z}.Nonempty ↔ (∃ x, x ∈ r) ∧ ∃ y, y ∈ s := by
    constructor
    · rintro ⟨z, x, hx, y, hy, -⟩
      exact ⟨⟨x, hx⟩, y, hy⟩
    · rintro ⟨⟨x, hx⟩, y, hy⟩
      exact ⟨f x y, x, hx, y, hy, rfl⟩
  rw [smallest_iff hcontains, hne]
  rintro ⟨z, x, hx, y, hy, -⟩
  obtain ⟨hlow, hhigh⟩ := hlimits x hx y hy
  exact ⟨hcontains, fun r' hr' z hz => mem_of_limits hlow hhigh hr' hz⟩

/-- An interval whose members are just those of a set is the smallest around it. -/
theorem smallest_of_iff {r : IrSubrange} {S : Set ℤ} (h : ∀ z, z ∈ r ↔ z ∈ S) : Smallest r S :=
  ⟨fun z hz => (h z).2 hz, fun _ hr' z hz => hr' z ((h z).1 hz)⟩

/-- Differences are sums with opposites. -/
theorem differences_eq (r s : IrSubrange) :
    {z | ∃ x ∈ r, ∃ y ∈ s, x - y = z} = sums r (negateSubrange s) := by
  ext z
  constructor
  · rintro ⟨x, hx, y, hy, rfl⟩
    exact ⟨x, hx, -y, mem_negateSubrange.2 (by rwa [neg_neg]), (sub_eq_add_neg x y).symm⟩
  · rintro ⟨x, hx, y, hy, rfl⟩
    exact ⟨x, hx, -y, mem_negateSubrange.1 hy, sub_neg_eq_add x y⟩

theorem subrangeArithmetic (r s : IrSubrange) : SubrangeArithmetic r s where
  plus_contains _ hx _ hy := add_mem_plusSubrange hx hy
  plus_smallest := smallest_image_iff (fun _ hx _ hy => add_mem_plusSubrange hx hy)
    fun _ hx _ hy => ⟨limit_plus_low hx hy, limit_plus_high hx hy⟩
  minus_contains _ hx _ hy := sub_mem_minusSubrange hx hy
  minus_smallest := smallest_image_iff (fun _ hx _ hy => sub_mem_minusSubrange hx hy)
    fun x hx y hy => by
      have hneg : -y ∈ negateSubrange s := mem_negateSubrange.2 (by rwa [neg_neg])
      rw [differences_eq]
      exact ⟨limit_plus_low hx hneg, limit_plus_high hx hneg⟩
  times_contains _ hx _ hy := mul_mem_timesSubrange hx hy
  times_smallest := smallest_image_iff (fun _ hx _ hy => mul_mem_timesSubrange hx hy)
    fun _ hx _ hy => limit_timesSubrange hx hy
  negate_smallest := smallest_of_iff fun z => by
    rw [mem_negateSubrange]
    constructor
    · exact fun hz => ⟨-z, hz, neg_neg z⟩
    · rintro ⟨x, hx, rfl⟩
      rwa [neg_neg]
  intersect_smallest := smallest_of_iff fun _ => mem_intersectSubranges

/-- The arithmetic of subranges is sound, and tight where both operands have a member; the type of
an application contains its value, and the C type of a subrange represents every member. -/
theorem irApplyOpType_sound {op : Option PrimitiveId} {argtypes : List (IrType T)}
    {atype : Option (IrType T)} {vals : List ℚ} {q : ℚ}
    (hargs : List.Forall₂ (IrType.Holds holds) argtypes vals) (hop : Applies op vals q)
    (ha : ∀ a ∈ atype, a.Holds holds q) :
    (∀ r s : IrSubrange, SubrangeArithmetic r s) ∧
      (∀ t, irApplyOpType op argtypes atype = some (some t) → t.Holds holds q) ∧
      (∀ id, op = some id → id ≠ .other → (∀ t ∈ argtypes, t.Numeric) →
        ∃ t, irApplyOpType op argtypes atype = some (some t)) ∧
      ∀ r : IrSubrange, ∀ z ∈ r, r.ir2cType.InRange z := by
  refine ⟨subrangeArithmetic, fun t => holds_irApplyOpType hargs hop ha, ?_,
    fun r z => ir2cType_inRange_of_mem⟩
  rintro id rfl hid hnum
  exact exists_irApplyOpType hargs hop hid hnum

/-- A factor of at least `-3` and one between `0` and `4`, where the product is known to be at most
`0`. -/
theorem irApplyOpType_sound_product :
    IrType.Holds (fun (_ : Unit) _ => False) (.subrange ⟨some (-12), some 0⟩) (-2 * 3 : ℚ) := by
  have hx : (-2 : ℤ) ∈ (⟨some (-3), none⟩ : IrSubrange) := by simp [mem_subrange]
  have hy : (3 : ℤ) ∈ (⟨some 0, some 4⟩ : IrSubrange) := by simp [mem_subrange]
  have hq : (-6 : ℤ) ∈ (⟨none, some 0⟩ : IrSubrange) := by simp [mem_subrange]
  have hargs : List.Forall₂ (IrType.Holds (fun (_ : Unit) _ => False))
      [.typename (.subrange ⟨some (-3), none⟩), .subrange ⟨some 0, some 4⟩] [-2, 3] :=
    .cons ⟨-2, hx, rfl⟩ (.cons ⟨3, hy, rfl⟩ .nil)
  have ha : ∀ a ∈ some (IrType.subrange ⟨none, some 0⟩),
      a.Holds (fun (_ : Unit) _ => False) (-2 * 3) := by
    rintro a ⟨⟩
    exact ⟨-6, hq, by norm_num⟩
  exact (irApplyOpType_sound hargs (.times (-2) 3) ha).2.1 _ rfl

/-- Nothing is below `0`, but the sum of that interval with another has members. -/
theorem not_smallest_plusSubrange :
    ¬∀ r s : IrSubrange, Smallest (plusSubrange r s) {z | ∃ x ∈ r, ∃ y ∈ s, x + y = z} := by
  intro h
  have hmem : (0 : ℤ) ∈ (⟨some 1, some 0⟩ : IrSubrange) := by
    refine (h ⟨some 0, some (-1)⟩ ⟨some 0, some 10⟩).least _ ?_ 0
      (by simp [plusSubrange, boundPlus, mem_subrange])
    rintro z ⟨x, hx, -⟩
    have hlow := hx.1 0 rfl
    have hhigh := hx.2 (-1) rfl
    omega
  exact absurd (hmem.1 1 rfl) (by decide)

end PVS.GroundEval
