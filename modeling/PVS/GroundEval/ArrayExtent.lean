import PVS.GroundEval.Ir2c

/-! How many indices of an IR array type the generated code handles. -/

namespace PVS.GroundEval

open PVS.Library.CInt PVS.Library.CInt.IntType

/-! ### Types -/

/-- The bounds are `none` where they are `*`. -/
structure IrSubrange where
  irLow : Option ℤ
  irHigh : Option ℤ

/-- `ir2c-type` of a subrange. -/
def IrSubrange.ir2cType (r : IrSubrange) : CType :=
  match r.irLow, r.irHigh with
  | some low, some high =>
    if 0 ≤ low then
      if high ≤ 2 ^ 8 - 1 then .fix (.uint .w8)
      else if high ≤ 2 ^ 16 - 1 then .fix (.uint .w16)
      else if high ≤ 2 ^ 32 - 1 then .fix (.uint .w32)
      else if high ≤ 2 ^ 64 - 1 then .fix (.uint .w64)
      else .mpz
    else if -2 ^ 7 ≤ low ∧ high ≤ 2 ^ 7 - 1 then .fix (.int .w8)
    else if -2 ^ 15 ≤ low ∧ high ≤ 2 ^ 15 - 1 then .fix (.int .w16)
    else if -2 ^ 31 ≤ low ∧ high ≤ 2 ^ 31 - 1 then .fix (.int .w32)
    else if -2 ^ 63 ≤ low ∧ high ≤ 2 ^ 63 - 1 then .fix (.int .w64)
    else .mpz
  | _, _ => .mpz

/-- The expression has a value of its own type, and the offset is added to it. -/
structure IrOffset (E : Type) where
  expr : E
  offset : ℤ

structure IrArraytype (E : Type) where
  size : ℕ
  high : Option (IrOffset E)

variable {E : Type} (eval : E → ℕ) (t : IrArraytype E)

/-- The highest index. -/
def IrArraytype.highest : ℤ :=
  match t.high with
  | none => t.size
  | some o => eval o.expr + o.offset

/-- The size slot is a bound of the subrange whose upper end is the highest index, and the value of
the expression has that bound. -/
structure IrArraytype.Bounded : Prop where
  size_lt : t.size < 2 ^ 32
  highest_le : t.highest eval ≤ t.size
  neg_one_le : -1 ≤ t.highest eval

/-! ### Generated sizes and loops -/

/-- The number of rounds of a loop: a literal, or a `uint32_t` variable that is set to a literal, or
to an expression to which an offset is added. -/
inductive SizeCode (E : Type)
  | literal (n : ℕ)
  | assigned (n : ℕ)
  | offset (expr : E) (add : ℤ)

def SizeCode.value : SizeCode E → ℤ
  | literal n => n
  | assigned n => (IntType.uint .w32).wrap n
  | offset e add => (IntType.uint .w32).wrap ((IntType.uint .w32).wrap (eval e) + add)

/-- The elements that `new` allocates; its parameter is a `uint32_t`. -/
def SizeCode.allocated (s : SizeCode E) : ℤ := (IntType.uint .w32).wrap (s.value eval)

/-- The indices of `for (uint32_t i = 0; i < size; i++)`; a loop up to `2 ^ 32` does not end. -/
def SizeCode.indices (s : SizeCode E) : Option (List ℤ) :=
  if s.value eval < 2 ^ 32 then some ((List.range (s.value eval).toNat).map fun (i : ℕ) => (i : ℤ))
  else none

/-! ### The consumers -/

/-- `array-size-expr`, and the size in `ir2c*` of an `ir-lambda`. -/
def lambdaSize : SizeCode E :=
  match t.high with
  | some o => .offset o.expr (o.offset + 1)
  | none => .literal (t.size + 1)

/-- The values of the index variable of the comprehension, which has the type of the domain. -/
def lambdaIndices : Option (List ℤ) :=
  ((lambdaSize t).indices eval).map fun l => l.map fun i =>
    match (IrSubrange.mk (some 0) (some t.size)).ir2cType with
    | .fix T => T.wrap i
    | .mpz => i

/-- `copy-type*` from a function type. -/
def copyFromFunctionSize : SizeCode E :=
  match t.high with
  | some o => .offset o.expr (o.offset + 1)
  | none => .assigned (t.size + 1)

/-- `copy-type*` from an array type. -/
def copyFromArraySize : SizeCode E :=
  match t.high with
  | some o => .offset o.expr (o.offset + 1)
  | none => .assigned t.size

/-- `while (i < x->size && tmp)`, as long as the elements are equal. -/
def equalIndices (size : ℕ) : List ℤ := (List.range size).map fun (i : ℕ) => (i : ℤ)

/-- The type of the index variables of `get-ir-domain-types` and `mk-variables-from-ir-domain-types`. -/
def domainSubrange : IrSubrange := ⟨some 0, some (t.size - 1)⟩

/-- All indices up to the highest. -/
def allIndices (h : ℤ) : List ℤ := (List.range (h + 1).toNat).map fun (i : ℕ) => (i : ℤ)

/-- Every consumer handles the indices `0, .., h`. -/
structure ExtentsAgree : Prop where
  lambda : lambdaIndices eval t = some (allIndices (t.highest eval))
  lambda_allocated : (lambdaSize t).allocated eval = t.highest eval + 1
  fromFunction : (copyFromFunctionSize t).indices eval = some (allIndices (t.highest eval))
  fromFunction_allocated : (copyFromFunctionSize t).allocated eval = t.highest eval + 1
  fromArray : (copyFromArraySize t).indices eval = some (allIndices (t.highest eval))
  fromArray_allocated : (copyFromArraySize t).allocated eval = t.highest eval + 1
  equal : equalIndices ((lambdaSize t).allocated eval).toNat = allIndices (t.highest eval)
  domain : ∀ i, 0 ≤ i → i ≤ t.highest eval → (domainSubrange t).ir2cType.InRange i

/-! ### When they agree -/

variable {eval t}

theorem wrap_u32 {v : ℤ} (h0 : 0 ≤ v) (h : v < 2 ^ 32) : (IntType.uint .w32).wrap v = v := by
  apply wrap_eq_self
  simp only [InRange, IntType.min, card, bits, width, Width.bits]
  omega

theorem wrap_u32_offset (e : ℕ) (add : ℤ) (h0 : 0 ≤ e + add) (h : e + add < 2 ^ 32) :
    (IntType.uint .w32).wrap ((IntType.uint .w32).wrap e + add) = e + add := by
  have hcongr : (IntType.uint .w32).wrap ((IntType.uint .w32).wrap e + add) =
      (IntType.uint .w32).wrap (e + add) :=
    wrap_congr ((wrap_modEq _ _).add_right add)
  rw [hcongr, wrap_u32 h0 h]

/-- A type that holds the upper bound holds the subrange from 0. -/
theorem ir2cType_inRange {high i : ℤ} (h0 : 0 ≤ i) (hi : i ≤ high) :
    (IrSubrange.mk (some 0) (some high)).ir2cType.InRange i := by
  simp only [IrSubrange.ir2cType, Int.le_refl, if_true]
  split
  · simp only [CType.InRange, InRange, IntType.min, card, bits, width, Width.bits]
    omega
  · split
    · simp only [CType.InRange, InRange, IntType.min, card, bits, width, Width.bits]
      omega
    · split
      · simp only [CType.InRange, InRange, IntType.min, card, bits, width, Width.bits]
        omega
      · split
        · simp only [CType.InRange, InRange, IntType.min, card, bits, width, Width.bits]
          omega
        · trivial

/-- The index type of a size slot that is the highest index: it is too small at the bounds of the
types. -/
theorem domainSubrange_inRange_iff (ht : t.Bounded eval) :
    (∀ i, 0 ≤ i → i ≤ t.highest eval → (domainSubrange t).ir2cType.InRange i) ↔
      ¬(t.highest eval = t.size ∧ (t.size = 2 ^ 8 ∨ t.size = 2 ^ 16)) := by
  have hlt := ht.size_lt
  have hle := ht.highest_le
  rcases Int.lt_or_eq_of_le hle with hless | heq
  · refine iff_of_true ?_ (fun hcontra => absurd hcontra.1 hless.ne)
    intro i h0 hi
    exact ir2cType_inRange h0 (by omega)
  · rw [heq]
    constructor
    · rintro h ⟨-, hsize | hsize⟩
      · have hin := h t.size (by omega) (Int.le_refl _)
        rw [domainSubrange, hsize] at hin
        revert hin
        decide
      · have hin := h t.size (by omega) (Int.le_refl _)
        rw [domainSubrange, hsize] at hin
        revert hin
        decide
    · intro hsize i h0 hi
      simp only [domainSubrange, IrSubrange.ir2cType, Int.le_refl, if_true]
      split
      · simp only [CType.InRange, InRange, IntType.min, card, bits, width, Width.bits]
        omega
      · split
        · simp only [CType.InRange, InRange, IntType.min, card, bits, width, Width.bits]
          omega
        · split
          · simp only [CType.InRange, InRange, IntType.min, card, bits, width, Width.bits]
            omega
          · omega

theorem indices_of_value {s : SizeCode E} {h : ℤ} (hv : s.value eval = h + 1) (hlt : h + 1 < 2 ^ 32) :
    s.indices eval = some (allIndices h) := by
  rw [SizeCode.indices, hv, if_pos hlt]
  rfl

theorem length_allIndices {h : ℤ} (hh : -1 ≤ h) : ((allIndices h).length : ℤ) = h + 1 := by
  simp only [allIndices, List.length_map, List.length_range]
  omega

theorem lambdaIndices_of_value (ht : t.Bounded eval)
    (hv : (lambdaSize t).value eval = t.highest eval + 1) (hlt : t.highest eval + 1 < 2 ^ 32) :
    lambdaIndices eval t = some (allIndices (t.highest eval)) := by
  rw [lambdaIndices, indices_of_value hv hlt, Option.map_some, Option.some_inj]
  have hid : ∀ i ∈ allIndices (t.highest eval),
      (match (IrSubrange.mk (some 0) (some t.size)).ir2cType with
        | .fix T => T.wrap i
        | .mpz => i) = i := by
    intro i hi
    obtain ⟨j, hj, rfl⟩ := List.mem_map.1 hi
    rw [List.mem_range] at hj
    have hin : (IrSubrange.mk (some 0) (some t.size)).ir2cType.InRange j :=
      ir2cType_inRange (by omega) (by have := ht.highest_le; omega)
    cases hT : (IrSubrange.mk (some 0) (some t.size)).ir2cType with
    | fix T =>
      rw [hT] at hin
      exact wrap_eq_self hin
    | mpz => rfl
  exact (List.map_congr_left hid).trans (List.map_id _)

/-- The copy of an array of constant size leaves out the last element. -/
theorem fromArray_short (hhigh : t.high = none) (ht : t.Bounded eval) :
    (copyFromArraySize t).indices eval ≠ some (allIndices (t.highest eval)) := by
  intro h
  have hlt := ht.size_lt
  have hh : t.highest eval = t.size := by simp [IrArraytype.highest, hhigh]
  have hval : (copyFromArraySize t).value eval = t.size := by
    simp only [copyFromArraySize, hhigh, SizeCode.value]
    exact wrap_u32 (by omega) (by omega)
  rw [SizeCode.indices, hval, if_pos (by omega), Option.some_inj] at h
  have hlen := congrArg (fun l => (l.length : ℤ)) h
  rw [hh] at hlen
  simp only [length_allIndices (show (-1 : ℤ) ≤ t.size by omega), List.length_map, List.length_range] at hlen
  omega

theorem extentsAgree_of_offset {o : IrOffset E} (ho : t.high = some o) (ht : t.Bounded eval)
    (hlt : t.highest eval + 1 < 2 ^ 32)
    (hdomain : ¬(t.highest eval = t.size ∧ (t.size = 2 ^ 8 ∨ t.size = 2 ^ 16))) :
    ExtentsAgree eval t := by
  have hneg := ht.neg_one_le
  have hh : t.highest eval = eval o.expr + o.offset := by simp [IrArraytype.highest, ho]
  have hvalue : (SizeCode.offset o.expr (o.offset + 1)).value eval = t.highest eval + 1 := by
    rw [SizeCode.value, hh, Int.add_assoc]
    apply wrap_u32_offset <;> omega
  have hlambda : lambdaSize t = .offset o.expr (o.offset + 1) := by simp [lambdaSize, ho]
  have hfun : copyFromFunctionSize t = .offset o.expr (o.offset + 1) := by
    simp [copyFromFunctionSize, ho]
  have harr : copyFromArraySize t = .offset o.expr (o.offset + 1) := by simp [copyFromArraySize, ho]
  have halloc : (SizeCode.offset o.expr (o.offset + 1)).allocated eval = t.highest eval + 1 := by
    rw [SizeCode.allocated, hvalue]
    apply wrap_u32 <;> omega
  refine ⟨?_, ?_, ?_, ?_, ?_, ?_, ?_, ?_⟩
  · exact lambdaIndices_of_value ht (hlambda ▸ hvalue) hlt
  · rw [hlambda, halloc]
  · rw [hfun]
    exact indices_of_value hvalue hlt
  · rw [hfun, halloc]
  · rw [harr]
    exact indices_of_value hvalue hlt
  · rw [harr, halloc]
  · rw [hlambda, halloc]
    rfl
  · exact (domainSubrange_inRange_iff ht).2 hdomain

/-- The extents agree only for a bound that is an expression, away from the bounds of the types. -/
theorem extentsAgree_iff (eval : E → ℕ) (t : IrArraytype E) (ht : t.Bounded eval) :
    ExtentsAgree eval t ↔ t.high ≠ none ∧ t.highest eval + 1 < 2 ^ 32 ∧
      ¬(t.highest eval = t.size ∧ (t.size = 2 ^ 8 ∨ t.size = 2 ^ 16)) := by
  constructor
  · intro h
    refine ⟨fun hhigh => fromArray_short hhigh ht h.fromArray, ?_,
      (domainSubrange_inRange_iff ht).1 h.domain⟩
    rw [← h.lambda_allocated]
    have hin := wrap_inRange (IntType.uint .w32) ((lambdaSize t).value eval)
    simp only [InRange, IntType.min, card, bits, width, Width.bits] at hin
    rw [SizeCode.allocated]
    omega
  · rintro ⟨hhigh, hlt, hdomain⟩
    obtain ⟨o, ho⟩ := Option.ne_none_iff_exists'.1 hhigh
    exact extentsAgree_of_offset ho ht hlt hdomain

/-- The bound `n`, which is at most 9 and now 5, of `upto(n)`. -/
def uptoFive : IrArraytype Unit := ⟨9, some ⟨(), 0⟩⟩

theorem extentsAgree_uptoFive :
    ExtentsAgree (fun _ => 5) uptoFive ↔ uptoFive.high ≠ none ∧
      uptoFive.highest (fun _ => 5) + 1 < 2 ^ 32 ∧
        ¬(uptoFive.highest (fun _ => 5) = uptoFive.size ∧
          (uptoFive.size = 2 ^ 8 ∨ uptoFive.size = 2 ^ 16)) :=
  extentsAgree_iff (fun _ => 5) uptoFive ⟨by decide, by decide, by decide⟩

/-- An array with the indices `0, .., 9`: the copy stops at 8. -/
theorem not_extentsAgree_nine :
    (⟨9, none⟩ : IrArraytype Unit).Bounded (fun _ => 0) ∧
      ¬ExtentsAgree (fun _ => 0) (⟨9, none⟩ : IrArraytype Unit) := by
  refine ⟨⟨by decide, by decide, by decide⟩, ?_⟩
  intro h
  have hcopy := h.fromArray
  revert hcopy
  decide

end PVS.GroundEval
