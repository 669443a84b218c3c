import Mathlib
import PVS.GroundEval.ArrayExtent
import PVS.Library.Memo

/-! The clones of parametric theories, which are shared under the labels of their actuals. -/

namespace PVS.GroundEval

open PVS.Library PVS.Library.CInt PVS.Library.CInt.IntType

/-! ### Actuals -/

/-- The named number types, each a subtype of the next. -/
inductive NumSuper
  | naturalnumber | integer | rational | real | number
  deriving DecidableEq

/-- A subtype of the numbers: what `pvs2ir-subrange-index` returns, the least named type above it, and
its values, which are rational numbers in the ground evaluator. -/
structure NumSubtype where
  range : IrSubrange
  super : NumSuper
  values : Set ℚ
  integral : super = .naturalnumber ∨ super = .integer ∨ range.irLow.isSome ∧ range.irHigh.isSome →
    ∀ q ∈ values, ∃ z : ℤ, (z : ℚ) = q ∧
      (∀ low, range.irLow = some low → low ≤ z) ∧ ∀ high, range.irHigh = some high → z ≤ high

/-- A type actual; named types stand for their definitions. -/
inductive Actual
  | subtype (t : NumSubtype)
  | number
  | boolean
  | character
  /-- Arrays, functions, tuples, records, datatypes and formal types. -/
  | ref

/-- The types that are returned where a symbol is meant. -/
inductive TypeLabel
  | uint64 | integer | number | boolean | character
  deriving DecidableEq

inductive CSymbol
  | uint8 | uint16 | uint32 | int8 | int16 | int32 | int64 | mpz | mpq | ref
  deriving DecidableEq

/-- The first value of `check-actual-type`: a symbol or a type. -/
inductive Label
  | sym (s : CSymbol)
  | type (t : TypeLabel)
  deriving DecidableEq

/-- `check-actual-type` of a subtype of the numbers. -/
def NumSubtype.checkActualType (t : NumSubtype) : Label :=
  match t.range.irLow, t.range.irHigh with
  | some low, some high =>
    if 0 ≤ low then
      if high < 2 ^ 8 then .sym .uint8
      else if high < 2 ^ 16 then .sym .uint16
      else if high < 2 ^ 32 then .sym .uint32
      -- the two values are exchanged
      else if high < 2 ^ 64 then .type .uint64
      else .sym .mpz
    -- the powers are not negated
    else if 2 ^ 7 ≤ low ∧ high < 2 ^ 7 then .sym .int8
    else if 2 ^ 15 ≤ low ∧ high < 2 ^ 15 then .sym .int16
    else if 2 ^ 31 ≤ low ∧ high < 2 ^ 31 then .sym .int32
    else if 2 ^ 63 ≤ low ∧ high < 2 ^ 63 then .sym .int64
    else .type .integer
  | _, _ =>
    match t.super with
    | .naturalnumber | .integer => .sym .mpz
    | .rational | .real | .number => .sym .mpq

def checkActualType : Actual → Label
  | .subtype t => t.checkActualType
  | .number => .type .number
  | .boolean => .type .boolean
  | .character => .type .character
  | .ref => .sym .ref

/-- How a label is printed into the name of a clone. -/
def Label.print : Label → String
  | .sym .uint8 => "uint8"
  | .sym .uint16 => "uint16"
  | .sym .uint32 => "uint32"
  | .sym .int8 => "int8"
  | .sym .int16 => "int16"
  | .sym .int32 => "int32"
  | .sym .int64 => "int64"
  | .sym .mpz => "mpz"
  | .sym .mpq => "mpq"
  | .sym .ref => "ref"
  | .type .uint64 => "uint64"
  | .type .integer => "int"
  | .type .number => "number_field"
  | .type .boolean => "bool"
  | .type .character => "char"

/-- The type actuals of an instance of a theory. -/
abbrev Instance := List Actual

/-- The part of the name of the clone that depends on the instance. -/
def cloneName (i : Instance) : List String := i.map fun a => (checkActualType a).print

/-- `nonref-actuals` is not empty. -/
def hasNonref (i : Instance) : Bool := i.any fun a => checkActualType a ≠ .sym .ref

/-! ### What generated code depends on -/

inductive NumCType
  | int (t : CType)
  | mpq
  deriving DecidableEq

/-- The C representation of an actual, the extent of the arrays over it, and its bounds. -/
inductive ActualCode
  | num (ctype : NumCType) (extent : Option ℤ) (bounds : Option ℤ × Option ℤ)
  | boolean
  | character
  | ref
  deriving DecidableEq

/-- `check-arraytype-ir-subrange`, and the number of indices. -/
def arrayExtent (r : IrSubrange) : Option ℤ :=
  match r.irLow, r.irHigh with
  | some low, some high => if low ≤ 0 ∧ 0 ≤ high ∧ high < 2 ^ 32 then some (high + 1) else none
  | _, _ => none

def NumSubtype.integerLike (t : NumSubtype) : Bool :=
  t.super = .naturalnumber ∨ t.super = .integer ∨ t.range.irLow.isSome ∧ t.range.irHigh.isSome

def actualCode : Actual → ActualCode
  | .subtype t => .num (if t.integerLike then .int t.range.ir2cType else .mpq)
      (arrayExtent t.range) (t.range.irLow, t.range.irHigh)
  | .number => .num .mpq none (none, none)
  | .boolean => .boolean
  | .character => .character
  | .ref => .ref

/-! ### The clones of a sequence of instances -/

/-- `ht-instance-clone` after the instances were met. -/
def cloneTable (l : List Instance) : List (List String × Instance) :=
  l.foldl (fun t i => if hasNonref i then (memoUse cloneName t i).2 else t) []

/-- What the code used for `i` depends on: that of the clone, or of the theory itself, whose code is
generated for references. -/
def usedCode (l : List Instance) (i : Instance) : List ActualCode :=
  if hasNonref i then (memoUse cloneName (cloneTable l) i).1.map actualCode
  else i.map fun _ => .ref

/-! ### Sound sharing -/

def CSymbol.Contains : CSymbol → ℚ → Prop
  | uint8, q => ∃ z : ℤ, (z : ℚ) = q ∧ (IntType.uint .w8).InRange z
  | uint16, q => ∃ z : ℤ, (z : ℚ) = q ∧ (IntType.uint .w16).InRange z
  | uint32, q => ∃ z : ℤ, (z : ℚ) = q ∧ (IntType.uint .w32).InRange z
  | int8, q => ∃ z : ℤ, (z : ℚ) = q ∧ (IntType.int .w8).InRange z
  | int16, q => ∃ z : ℤ, (z : ℚ) = q ∧ (IntType.int .w16).InRange z
  | int32, q => ∃ z : ℤ, (z : ℚ) = q ∧ (IntType.int .w32).InRange z
  | int64, q => ∃ z : ℤ, (z : ℚ) = q ∧ (IntType.int .w64).InRange z
  | mpz, q => ∃ z : ℤ, (z : ℚ) = q
  | mpq, _ => True
  | ref, _ => False

/-- The label of a numeric actual is a symbol of a C type with all its values. -/
def GoodLabel : Actual → Prop
  | .subtype t => ∃ s, t.checkActualType = .sym s ∧ ∀ q ∈ t.values, s.Contains q
  | .number => ∃ s, checkActualType .number = .sym s ∧ ∀ q, s.Contains q
  | _ => True

structure SharingSound (l : List Instance) : Prop where
  label : ∀ i ∈ l, ∀ a ∈ i, GoodLabel a
  used : ∀ p i, p ++ [i] <+: l → usedCode p i = i.map actualCode
  order : ∀ l', l'.Perm l → ∀ i ∈ l, usedCode l' i = usedCode l i

/-- The bounds for which the label is a symbol. -/
def LabelledBounds : Actual → Prop
  | .subtype t =>
    match t.range.irLow, t.range.irHigh with
    | some low, some high => 0 ≤ low ∧ (high < 2 ^ 32 ∨ 2 ^ 64 ≤ high)
    | _, _ => True
  | .number => False
  | _ => True

def actualBounds : Actual → Option (Option ℤ × Option ℤ)
  | .subtype t => some (t.range.irLow, t.range.irHigh)
  | _ => none

/-! #### Labels -/

theorem goodLabel_bounded {t : NumSubtype} {low high : ℤ} (hl : t.range.irLow = some low)
    (hh : t.range.irHigh = some high) :
    GoodLabel (.subtype t) ↔ 0 ≤ low ∧ (high < 2 ^ 32 ∨ 2 ^ 64 ≤ high) := by
  have hint : ∀ q ∈ t.values, ∃ z : ℤ, (z : ℚ) = q ∧ low ≤ z ∧ z ≤ high := by
    intro q hq
    obtain ⟨z, hz, hlow, hhigh⟩ := t.integral (.inr (.inr (by simp [hl, hh]))) q hq
    exact ⟨z, hz, hlow low hl, hhigh high hh⟩
  have hlabel : t.checkActualType =
      if 0 ≤ low then
        if high < 2 ^ 8 then .sym .uint8
        else if high < 2 ^ 16 then .sym .uint16
        else if high < 2 ^ 32 then .sym .uint32
        else if high < 2 ^ 64 then .type .uint64
        else .sym .mpz
      else .type .integer := by
    unfold NumSubtype.checkActualType
    rw [hl, hh]
    by_cases h0 : 0 ≤ low
    · simp only [h0, if_true]
    · have h7 : ¬(2 ^ 7 ≤ low ∧ high < 2 ^ 7) := by omega
      have h15 : ¬(2 ^ 15 ≤ low ∧ high < 2 ^ 15) := by omega
      have h31 : ¬(2 ^ 31 ≤ low ∧ high < 2 ^ 31) := by omega
      have h63 : ¬(2 ^ 63 ≤ low ∧ high < 2 ^ 63) := by omega
      simp only [h0, h7, h15, h31, h63, if_false]
  rw [GoodLabel, hlabel]
  by_cases h0 : 0 ≤ low
  · simp only [h0, if_true, true_and]
    split
    · refine iff_of_true ⟨_, rfl, ?_⟩ (by omega)
      intro q hq
      obtain ⟨z, hz, hlow, hhigh⟩ := hint q hq
      refine ⟨z, hz, ?_⟩
      simp only [InRange, IntType.min, card, bits, width, Width.bits]
      omega
    · split
      · refine iff_of_true ⟨_, rfl, ?_⟩ (by omega)
        intro q hq
        obtain ⟨z, hz, hlow, hhigh⟩ := hint q hq
        refine ⟨z, hz, ?_⟩
        simp only [InRange, IntType.min, card, bits, width, Width.bits]
        omega
      · split
        · refine iff_of_true ⟨_, rfl, ?_⟩ (by omega)
          intro q hq
          obtain ⟨z, hz, hlow, hhigh⟩ := hint q hq
          refine ⟨z, hz, ?_⟩
          simp only [InRange, IntType.min, card, bits, width, Width.bits]
          omega
        · split
          · refine iff_of_false ?_ (by omega)
            rintro ⟨_, h, _⟩
            cases h
          · refine iff_of_true ⟨_, rfl, ?_⟩ (by omega)
            intro q hq
            obtain ⟨z, hz, -⟩ := hint q hq
            exact ⟨z, hz⟩
  · simp only [h0, if_false, false_and, iff_false]
    rintro ⟨_, h, _⟩
    cases h

theorem goodLabel_unbounded {t : NumSubtype}
    (h : t.range.irLow = none ∨ t.range.irHigh = none) : GoodLabel (.subtype t) := by
  have hlabel : t.checkActualType = match t.super with
      | .naturalnumber | .integer => .sym .mpz
      | .rational | .real | .number => .sym .mpq := by
    unfold NumSubtype.checkActualType
    rcases h with h | h
    · simp only [h]
    · cases hl : t.range.irLow <;> simp only [h]
  rw [GoodLabel, hlabel]
  have hint : t.super = .naturalnumber ∨ t.super = .integer → ∀ q ∈ t.values, CSymbol.mpz.Contains q := by
    intro hs q hq
    obtain ⟨z, hz, -⟩ := t.integral (hs.imp_right .inl) q hq
    exact ⟨z, hz⟩
  cases hs : t.super with
  | naturalnumber => exact ⟨_, rfl, hint (.inl hs)⟩
  | integer => exact ⟨_, rfl, hint (.inr hs)⟩
  | rational => exact ⟨_, rfl, fun _ _ => trivial⟩
  | real => exact ⟨_, rfl, fun _ _ => trivial⟩
  | number => exact ⟨_, rfl, fun _ _ => trivial⟩

theorem goodLabel_iff (a : Actual) : GoodLabel a ↔ LabelledBounds a := by
  cases a with
  | subtype t =>
    cases hl : t.range.irLow with
    | none =>
      refine iff_of_true (goodLabel_unbounded (.inl hl)) ?_
      simp only [LabelledBounds, hl]
    | some low =>
      cases hh : t.range.irHigh with
      | none =>
        refine iff_of_true (goodLabel_unbounded (.inr hh)) ?_
        simp only [LabelledBounds, hl, hh]
      | some high =>
        rw [goodLabel_bounded hl hh]
        simp only [LabelledBounds, hl, hh]
  | number =>
    refine iff_of_false ?_ id
    rintro ⟨_, h, _⟩
    cases h
  | boolean => exact Iff.rfl
  | character => exact Iff.rfl
  | ref => exact Iff.rfl

theorem checkActualType_ne_ref (t : NumSubtype) : t.checkActualType ≠ .sym .ref := by
  unfold NumSubtype.checkActualType
  split
  · repeat' split
    all_goals exact fun h => by cases h
  · split <;> exact fun h => by cases h

/-- The name of a label, where it is a symbol, is not the name of another one. -/
theorem print_eq_iff {s : CSymbol} {m : Label} : (Label.sym s).print = m.print ↔ Label.sym s = m := by
  cases s <;> rcases m with (s' | t) <;> first | cases s' | cases t
  all_goals simp [Label.print]

/-! #### Codes -/

theorem integerLike_iff (t : NumSubtype) :
    t.integerLike = true ↔ t.super = .naturalnumber ∨ t.super = .integer ∨
      t.range.irLow.isSome ∧ t.range.irHigh.isSome :=
  decide_eq_true_iff

/-- Of two subtypes with the same bounds and label both have integers or none has. -/
theorem integerLike_congr {t u : NumSubtype} (hlow : t.range.irLow = u.range.irLow)
    (hhigh : t.range.irHigh = u.range.irHigh) (hl : t.checkActualType = u.checkActualType) :
    t.integerLike = u.integerLike := by
  rw [Bool.eq_iff_iff, integerLike_iff, integerLike_iff, hlow, hhigh]
  by_cases hb : u.range.irLow.isSome ∧ u.range.irHigh.isSome
  · simp only [hb, and_self, or_true]
  · simp only [hb, or_false]
    unfold NumSubtype.checkActualType at hl
    rw [hlow, hhigh] at hl
    cases h₁ : u.range.irLow with
    | none =>
      simp only [h₁] at hl
      cases ht : t.super <;> cases hu : u.super <;> simp_all
    | some low =>
      cases h₂ : u.range.irHigh with
      | none =>
        simp only [h₁, h₂] at hl
        cases ht : t.super <;> cases hu : u.super <;> simp_all
      | some high => exact absurd ⟨by simp [h₁], by simp [h₂]⟩ hb

theorem actualCode_subtype_iff {t u : NumSubtype} (hl : t.checkActualType = u.checkActualType) :
    actualCode (.subtype t) = actualCode (.subtype u) ↔
      actualBounds (.subtype t) = actualBounds (.subtype u) := by
  simp only [actualCode, actualBounds, ActualCode.num.injEq, Option.some_inj, Prod.mk.injEq]
  constructor
  · rintro ⟨-, -, h⟩
    exact h
  · rintro ⟨hlow, hhigh⟩
    have hrange : t.range = u.range := by
      cases ht : t.range
      cases hu : u.range
      simp_all
    rw [hrange, integerLike_congr hlow hhigh hl]
    exact ⟨rfl, rfl, rfl, rfl⟩

/-- For actuals whose labels are symbols and are printed alike, the bounds decide the code. -/
theorem actualCode_eq_iff {a b : Actual} (ha : GoodLabel a) (hb : GoodLabel b)
    (hname : (checkActualType a).print = (checkActualType b).print) :
    actualCode a = actualCode b ↔ actualBounds a = actualBounds b := by
  have hsub : ∀ {t : NumSubtype} {c : Actual}, GoodLabel (.subtype t) →
      (checkActualType (.subtype t)).print = (checkActualType c).print →
        t.checkActualType = checkActualType c := by
    rintro t c ⟨s, hs, -⟩ hc
    have hprint : (Label.sym s).print = (checkActualType c).print := by
      rw [← hc, checkActualType, hs]
    rw [hs, print_eq_iff.1 hprint]
  cases a with
  | subtype t =>
    have hl := hsub ha hname
    cases b with
    | subtype u => exact actualCode_subtype_iff hl
    | ref => exact absurd hl (checkActualType_ne_ref t)
    | number =>
      obtain ⟨_, h, -⟩ := hb
      cases h
    | boolean =>
      obtain ⟨s, hs, -⟩ := ha
      rw [hs] at hl
      cases hl
    | character =>
      obtain ⟨s, hs, -⟩ := ha
      rw [hs] at hl
      cases hl
  | number =>
    obtain ⟨_, h, -⟩ := ha
    cases h
  | boolean =>
    cases b with
    | subtype u =>
      have hl := hsub hb hname.symm
      obtain ⟨s, hs, -⟩ := hb
      rw [hs] at hl
      cases hl
    | boolean => simp
    | number | character | ref => simp [checkActualType, Label.print] at hname
  | character =>
    cases b with
    | subtype u =>
      have hl := hsub hb hname.symm
      obtain ⟨s, hs, -⟩ := hb
      rw [hs] at hl
      cases hl
    | character => simp
    | number | boolean | ref => simp [checkActualType, Label.print] at hname
  | ref =>
    cases b with
    | subtype u => exact absurd (hsub hb hname.symm) (checkActualType_ne_ref u)
    | ref => simp
    | number | boolean | character => simp [checkActualType, Label.print] at hname

theorem map_actualCode_eq_iff {i j : Instance} (hi : ∀ a ∈ i, GoodLabel a)
    (hj : ∀ a ∈ j, GoodLabel a) (hname : cloneName i = cloneName j) :
    i.map actualCode = j.map actualCode ↔ i.map actualBounds = j.map actualBounds := by
  induction i generalizing j with
  | nil =>
    cases j with
    | nil => simp
    | cons b j => simp [cloneName] at hname
  | cons a i ih =>
    cases j with
    | nil => simp [cloneName] at hname
    | cons b j =>
      simp only [cloneName, List.map_cons, List.cons.injEq] at hname
      simp only [List.map_cons, List.cons.injEq]
      rw [actualCode_eq_iff (hi a List.mem_cons_self) (hj b List.mem_cons_self) hname.1,
        ih (fun c hc => hi c (List.mem_cons_of_mem a hc)) (fun c hc => hj c (List.mem_cons_of_mem b hc))
          hname.2]

/-! #### Instances -/

theorem cloneTable_eq (l : List Instance) :
    cloneTable l = memoTable cloneName (l.filter hasNonref) := by
  rw [cloneTable, memoTable, List.foldl_filter]

theorem map_actualCode_of_refs {i : Instance} (h : hasNonref i = false) :
    i.map actualCode = i.map fun _ => .ref := by
  apply List.map_congr_left
  intro a ha
  have href : checkActualType a = .sym .ref := by
    have hall := List.any_eq_false.1 h a ha
    simpa using hall
  cases a with
  | subtype t => exact absurd href (checkActualType_ne_ref t)
  | number => cases href
  | boolean => cases href
  | character => cases href
  | ref => rfl

theorem hasNonref_congr {i j : Instance} (h : cloneName i = cloneName j) :
    hasNonref i = hasNonref j := by
  have href : ∀ a, (checkActualType a ≠ .sym .ref) = ((checkActualType a).print ≠ "ref") := by
    intro a
    apply propext
    apply not_congr
    rw [eq_comm, ← print_eq_iff, eq_comm]
    rfl
  have hany : ∀ i : Instance, hasNonref i = (cloneName i).any fun n => n ≠ "ref" := by
    intro i
    simp only [hasNonref, cloneName, List.any_map, href]
    rfl
  rw [hany, hany, h]

/-- Instances with the same name have the same code: all that sharing needs. -/
def SameCodes (l : List Instance) : Prop :=
  ∀ i ∈ l, ∀ j ∈ l, cloneName i = cloneName j → i.map actualCode = j.map actualCode

theorem prefix_filter {l p : List Instance} {i : Instance} (hi : hasNonref i = true)
    (h : p ++ [i] <+: l) : p.filter hasNonref ++ [i] <+: l.filter hasNonref := by
  have hfilter := h.filter hasNonref
  rwa [List.filter_append, List.filter_cons_of_pos hi, List.filter_nil] at hfilter

theorem exists_prefix_of_filter {l q : List Instance} {i : Instance}
    (h : q ++ [i] <+: l.filter hasNonref) :
    ∃ p, p ++ [i] <+: l ∧ p.filter hasNonref = q ∧ hasNonref i = true := by
  obtain ⟨r, hr⟩ := h
  rw [List.append_assoc] at hr
  obtain ⟨l₁, l₂, rfl, h₁, h₂⟩ := List.filter_eq_append_iff.1 hr.symm
  obtain ⟨l₃, l₄, rfl, h₃, hi, -⟩ := List.filter_eq_cons_iff.1 h₂
  refine ⟨l₁ ++ l₃, ⟨l₄, by simp⟩, ?_, hi⟩
  rw [List.filter_append, h₁, List.filter_eq_nil_iff.2 h₃, List.append_nil]

/-- The code used is right at every step just when instances with the same name have one code. -/
theorem used_iff (l : List Instance) :
    (∀ p i, p ++ [i] <+: l → usedCode p i = i.map actualCode) ↔ SameCodes l := by
  have hmemo := forall_memoUse_iff cloneName (fun i => i.map actualCode)
    (l.filter hasNonref)
  constructor
  · intro h
    have hfilter := hmemo.1 ?_
    · intro i hi j hj hname
      by_cases hn : hasNonref i = true
      · have hnj : hasNonref j = true := (hasNonref_congr hname).symm.trans hn
        exact hfilter i (List.mem_filter.2 ⟨hi, hn⟩) j (List.mem_filter.2 ⟨hj, hnj⟩) hname
      · rw [Bool.not_eq_true] at hn
        have hnj : hasNonref j = false := (hasNonref_congr hname).symm.trans hn
        rw [map_actualCode_of_refs hn, map_actualCode_of_refs hnj]
        have hlen := congrArg List.length hname
        rw [cloneName, cloneName, List.length_map, List.length_map] at hlen
        rw [List.map_const', List.map_const', hlen]
    · intro q i hq
      obtain ⟨p, hp, rfl, hi⟩ := exists_prefix_of_filter hq
      have hused := h p i hp
      rwa [usedCode, if_pos hi, cloneTable_eq] at hused
  · intro h p i hp
    unfold usedCode
    split
    · rename_i hi
      rw [cloneTable_eq]
      refine hmemo.2 ?_ _ i (prefix_filter hi hp)
      intro a ha b hb hname
      exact h a (List.mem_filter.1 ha).1 b (List.mem_filter.1 hb).1 hname
    · rename_i hi
      exact (map_actualCode_of_refs (Bool.not_eq_true _ ▸ hi)).symm

theorem usedCode_of_mem {l : List Instance} (h : SameCodes l) {i : Instance} (hi : i ∈ l) :
    usedCode l i = i.map actualCode := by
  unfold usedCode
  split
  · rename_i hn
    rw [cloneTable_eq]
    obtain ⟨c, hc, hname, hused⟩ := exists_memoUse cloneName
      (List.mem_filter.2 ⟨hi, hn⟩ : i ∈ l.filter hasNonref)
    rw [hused]
    exact h c (List.mem_filter.1 hc).1 i hi hname
  · rename_i hn
    exact (map_actualCode_of_refs (Bool.not_eq_true _ ▸ hn)).symm

/-- Sharing is sound just for symbol labels and for one range of bounds under each name. -/
theorem sharingSound_iff (l : List Instance) :
    SharingSound l ↔ (∀ i ∈ l, ∀ a ∈ i, LabelledBounds a) ∧
      ∀ i ∈ l, ∀ j ∈ l, cloneName i = cloneName j → i.map actualBounds = j.map actualBounds := by
  constructor
  · rintro ⟨hlabel, hused, -⟩
    refine ⟨fun i hi a ha => (goodLabel_iff a).1 (hlabel i hi a ha), ?_⟩
    intro i hi j hj hname
    exact (map_actualCode_eq_iff (hlabel i hi) (hlabel j hj) hname).1
      ((used_iff l).1 hused i hi j hj hname)
  · rintro ⟨hlabel, hbounds⟩
    have hgood : ∀ i ∈ l, ∀ a ∈ i, GoodLabel a :=
      fun i hi a ha => (goodLabel_iff a).2 (hlabel i hi a ha)
    have hsame : SameCodes l := by
      intro i hi j hj hname
      exact (map_actualCode_eq_iff (hgood i hi) (hgood j hj) hname).2 (hbounds i hi j hj hname)
    refine ⟨hgood, (used_iff l).2 hsame, ?_⟩
    intro l' hperm i hi
    have hsame' : SameCodes l' := by
      intro a ha b hb
      exact hsame a (hperm.mem_iff.1 ha) b (hperm.mem_iff.1 hb)
    rw [usedCode_of_mem hsame' (hperm.mem_iff.2 hi), usedCode_of_mem hsame hi]

/-- `below(n)` -/
def below (n : ℕ) : Actual :=
  .subtype ⟨⟨some 0, some (n - 1)⟩, .naturalnumber, {q | ∃ z : ℤ, (z : ℚ) = q ∧ 0 ≤ z ∧ z ≤ n - 1}, by
    rintro - q ⟨z, hz, h0, hn⟩
    refine ⟨z, hz, ?_, ?_⟩
    · rintro low h
      rwa [← Option.some.inj h]
    · rintro high h
      rwa [← Option.some.inj h]⟩

/-- Both have the label `uint8`, and arrays over them have 10 and 200 elements. -/
theorem not_sharingSound_below : ¬SharingSound [[below 10], [below 200]] := by
  intro h
  have hused := h.used [[below 10]] [below 200] (List.prefix_refl _)
  revert hused
  decide

end PVS.GroundEval
