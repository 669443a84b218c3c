import PVS.Assert.NestedUpdates

/-! When nested updates keep their value. -/

namespace PVS.Assert

open Library Components

variable {I C B V W R Env : Type}

namespace UpdMeaning

variable (M : UpdMeaning I C B V W R Env) (ρ : Env)

theorem eval_update (e : UpdExpr I C B) (as : List (Assignment I (UpdExpr I C B))) :
    M.eval ρ (.update e as) = M.comps.override (M.eval ρ e) (M.evalAssignments ρ as) := by
  rw [eval]

theorem evalFields_eq_map (l : List (ℕ × UpdExpr I C B)) :
    M.evalFields ρ l = l.map fun f => ([.name f.1], M.eval ρ f.2) := by
  induction l with
  | nil => rw [evalFields, List.map_nil]
  | cons f l ih => rw [evalFields, List.map_cons, ih]

theorem evalList_eq_map (l : List (UpdExpr I C B)) : M.evalList ρ l = l.map (M.eval ρ) := by
  induction l with
  | nil => rw [evalList, List.map_nil]
  | cons e l ih => rw [evalList, List.map_cons, ih]

theorem evalAssignments_eq_map (l : List (Assignment I (UpdExpr I C B))) :
    M.evalAssignments ρ l = l.map fun a => (a.arguments.map (M.key ρ), M.eval ρ a.expression) := by
  induction l with
  | nil => rw [evalAssignments, List.map_nil]
  | cons a l ih =>
    obtain ⟨first, rest, e⟩ := a
    rw [evalAssignments, List.map_cons, ih]
    rfl

/-- The updates of a component. -/
def evalMatching (ms : List (List (Arg I) × UpdExpr I C B)) : List (List (Key W) × V) :=
  ms.map fun m => (m.1.map (M.key ρ), M.eval ρ m.2)

theorem evalMatching_append (ms ms' : List (List (Arg I) × UpdExpr I C B)) :
    M.evalMatching ρ (ms ++ ms') = M.evalMatching ρ ms ++ M.evalMatching ρ ms' :=
  List.map_append

theorem evalAssignments_append (l l' : List (Assignment I (UpdExpr I C B))) :
    M.evalAssignments ρ (l ++ l') = M.evalAssignments ρ l ++ M.evalAssignments ρ l' := by
  rw [evalAssignments_eq_map, evalAssignments_eq_map, evalAssignments_eq_map, List.map_append]

theorem inner_evalAssignments (l : List (Assignment I (UpdExpr I C B))) :
    Inner (M.evalAssignments ρ l) := by
  rw [evalAssignments_eq_map]
  intro a ha
  obtain ⟨b, -, rfl⟩ := List.mem_map.1 ha
  exact List.cons_ne_nil _ _

theorem inner_evalFields (l : List (ℕ × UpdExpr I C B)) : Inner (M.evalFields ρ l) := by
  rw [evalFields_eq_map]
  intro a ha
  obtain ⟨b, -, rfl⟩ := List.mem_map.1 ha
  exact List.cons_ne_nil _ _

theorem evalAssignments_makeAssignments {ms : List (List (Arg I) × UpdExpr I C B)}
    (h : ∀ m ∈ ms, m.1 ≠ []) :
    M.evalAssignments ρ (makeAssignments ms) = M.evalMatching ρ ms := by
  induction ms with
  | nil => rw [makeAssignments, List.filterMap_nil, evalAssignments, evalMatching, List.map_nil]
  | cons m ms ih =>
    obtain ⟨p, e⟩ := m
    rw [List.forall_mem_cons] at h
    cases p with
    | nil => exact absurd rfl h.1
    | cons b p =>
      rw [makeAssignments, List.filterMap_cons_some (by rfl), evalAssignments, evalMatching,
        List.map_cons]
      exact congrArg _ (ih h.2)

end UpdMeaning

namespace TcEq

variable {M : UpdMeaning I C B V W R Env} (T : TcEq M) (ρ : Env)

theorem arg_name_iff (f : ℕ) (b : Arg I) : T.arg (.name f) b = true ↔ M.key ρ b = .name f := by
  cases b <;> simp [arg, UpdMeaning.key, eq_comm]

theorem arg_proj_iff (n : ℕ) (b : Arg I) : T.arg (.proj n) b = true ↔ M.key ρ b = .proj n := by
  cases b <;> simp [arg, UpdMeaning.key, eq_comm]

/-- The assignments that begin with a field or a projection are the updates of that component. -/
theorem under_evalAssignments [DecidableEq W] {b : Arg I} {k : Key W}
    (h : ∀ c, T.arg b c = true ↔ M.key ρ c = k) (outer : List (Assignment I (UpdExpr I C B))) :
    under k (M.evalAssignments ρ outer) = M.evalMatching ρ (T.matching b outer) := by
  induction outer with
  | nil => rfl
  | cons a outer ih =>
    obtain ⟨first, rest, e⟩ := a
    rw [matching_cons, UpdMeaning.evalAssignments, under, List.filterMap_cons]
    by_cases hk : M.key ρ first = k
    · rw [if_pos ((h first).2 hk)]
      dsimp only
      rw [if_pos hk]
      exact congrArg _ ih
    · rw [if_neg (mt (h first).1 hk)]
      dsimp only
      rw [if_neg hk]
      exact ih

theorem key_of_arg {a b : Arg I} (h : T.arg a b = true) : M.key ρ a = M.key ρ b := by
  cases a <;> cases b <;> simp only [arg, Bool.false_eq_true, decide_eq_true_eq] at h
  · rw [h]
  · rw [h]
  · exact congrArg Key.index (T.index_sound h ρ)

theorem map_key_of_matchUpdateArgsPrefix {args1 args2 rest : List (Arg I)}
    (h : T.matchUpdateArgsPrefix args1 args2 = some rest) :
    args2.map (M.key ρ) = args1.map (M.key ρ) ++ rest.map (M.key ρ) := by
  induction args1 generalizing args2 with
  | nil =>
    rw [matchUpdateArgsPrefix, Option.some.injEq] at h
    rw [h]
    rfl
  | cons a args1 ih =>
    cases args2 with
    | nil => cases h
    | cons b args2 =>
      rw [matchUpdateArgsPrefix] at h
      split at h
      · rename_i hab
        rw [List.map_cons, List.map_cons, ih h, T.key_of_arg ρ hab, List.cons_append]
      · cases h

/-- `merge-assignments` leaves out what is overridden later. -/
theorem override_mergeAssignments [DecidableEq W] (v : V) (l : List (Assignment I (UpdExpr I C B))) :
    M.comps.override v (M.evalAssignments ρ (T.mergeAssignments l)) =
      M.comps.override v (M.evalAssignments ρ l) := by
  induction l generalizing v with
  | nil => rfl
  | cons a l ih =>
    rw [mergeAssignments]
    split
    · rename_i h
      obtain ⟨b, hb, hab⟩ := List.any_eq_true.1 h
      obtain ⟨rest, hrest⟩ := Option.isSome_iff_exists.1 hab
      obtain ⟨l1, l2, rfl⟩ := List.append_of_mem hb
      rw [ih]
      simp only [UpdMeaning.evalAssignments_eq_map, List.map_cons, List.map_append,
        T.map_key_of_matchUpdateArgsPrefix ρ hrest]
      exact (override_cons_of_replaced _ _ _ _ _).symm
    · rw [UpdMeaning.evalAssignments_eq_map, UpdMeaning.evalAssignments_eq_map, List.map_cons,
        List.map_cons, ← UpdMeaning.evalAssignments_eq_map, ← UpdMeaning.evalAssignments_eq_map]
      exact ih _

/-! ### Tuples -/

omit T in
theorem eval_tupUpdate (e : UpdExpr I C B) (new : List (Assignment I (UpdExpr I C B))) :
    M.eval ρ (tupUpdate e new) =
      M.comps.override (M.eval ρ e) (M.evalAssignments ρ new.reverse) := by
  cases new with
  | nil => rfl
  | cons a new => rw [tupUpdate, if_neg (by simp), UpdMeaning.eval]

/-- The arguments after the first one. -/
def rests (l : List (Assignment I (UpdExpr I C B))) : List (List (Arg I) × UpdExpr I C B) :=
  l.map fun a => (a.rest, a.expression)

omit T in
theorem evalAssignments_reverse_cons (a : Assignment I (UpdExpr I C B))
    (new : List (Assignment I (UpdExpr I C B))) :
    M.evalAssignments ρ (a :: new).reverse =
      M.evalAssignments ρ new.reverse ++ [(a.arguments.map (M.key ρ), M.eval ρ a.expression)] := by
  rw [List.reverse_cons, UpdMeaning.evalAssignments_append, UpdMeaning.evalAssignments_eq_map M ρ [a],
    List.map_singleton]

omit T in
/-- Without a complete assignment the update has all of them. -/
theorem eval_createTup_of_curried {assigns : List (Assignment I (UpdExpr I C B))}
    (h : ∀ m ∈ rests assigns, m.1 ≠ []) (e : UpdExpr I C B)
    (new : List (Assignment I (UpdExpr I C B))) :
    M.eval ρ (createTupNestedUpdate assigns e new) = M.comps.override (M.eval ρ e)
      (M.evalAssignments ρ new.reverse ++ M.evalMatching ρ (rests assigns)) := by
  induction assigns generalizing new with
  | nil =>
    rw [createTupNestedUpdate, eval_tupUpdate]
    simp [rests, UpdMeaning.evalMatching]
  | cons a assigns ih =>
    obtain ⟨first, args, x⟩ := a
    rw [rests, List.map_cons, List.forall_mem_cons] at h
    cases args with
    | nil => exact absurd rfl h.1
    | cons b p =>
      rw [createTupNestedUpdate, ih h.2, evalAssignments_reverse_cons, List.append_assoc]
      rfl

omit T in
/-- The first complete assignment is the last one that is looked at. -/
theorem eval_createTup_of_complete {assigns : List (Assignment I (UpdExpr I C B))}
    {before after : List (List (Arg I) × UpdExpr I C B)} {x : UpdExpr I C B}
    (h : rests assigns = before ++ ([], x) :: after) (hbefore : ∀ m ∈ before, m.1 ≠ [])
    (e : UpdExpr I C B) (new : List (Assignment I (UpdExpr I C B))) :
    M.eval ρ (createTupNestedUpdate assigns e new) = M.comps.override (M.eval ρ x)
      (M.evalAssignments ρ new.reverse ++ M.evalMatching ρ before) := by
  induction assigns generalizing new before with
  | nil => cases before <;> cases h
  | cons a assigns ih =>
    obtain ⟨first, args, y⟩ := a
    rw [rests, List.map_cons] at h
    cases before with
    | nil =>
      obtain ⟨hhead, -⟩ := List.cons.inj h
      obtain ⟨rfl, rfl⟩ := Prod.mk.inj hhead
      rw [createTupNestedUpdate]
      dsimp only
      rw [eval_tupUpdate]
      simp [UpdMeaning.evalMatching]
    | cons m before =>
      obtain ⟨rfl, htail⟩ := List.cons.inj h
      rw [List.forall_mem_cons] at hbefore
      cases args with
      | nil => exact absurd rfl hbefore.1
      | cons b p =>
        rw [createTupNestedUpdate]
        dsimp only
        rw [ih htail hbefore.2, evalAssignments_reverse_cons, List.append_assoc]
        rfl

theorem matching_eq_rests (b : Arg I) (outer : List (Assignment I (UpdExpr I C B))) :
    T.matching b outer = rests (outer.filter fun a => T.arg b a.first) := by
  induction outer with
  | nil => rfl
  | cons a outer ih =>
    rw [matching_cons, List.filter_cons, ih]
    split <;> rfl

/-- What `partition-tup-assignments` has collected. -/
structure Partition (done : List (Assignment I (UpdExpr I C B)))
    (parts : List (ℕ × List (Assignment I (UpdExpr I C B)))) : Prop where
  nodup : (parts.map (·.1)).Nodup
  part : ∀ p ∈ parts, p.2 = done.filter fun a => T.arg (.proj (p.1 + 1)) a.first
  mem : ∀ a ∈ done, ∃ i ∈ parts.map (·.1), a.first = .proj (i + 1)

theorem Partition.nil : T.Partition [] [] where
  nodup := List.nodup_nil
  part := by simp
  mem := by simp

theorem Partition.cons {done : List (Assignment I (UpdExpr I C B))}
    {parts : List (ℕ × List (Assignment I (UpdExpr I C B)))} (h : T.Partition done parts)
    {a : Assignment I (UpdExpr I C B)} {index : ℕ} (ha : a.first = .proj (index + 1)) :
    T.Partition (done ++ [a])
      (if parts.any fun p => p.1 = index then
          parts.map fun p => if p.1 = index then (p.1, p.2 ++ [a]) else p
        else (index, [a]) :: parts) := by
  have hkeys : (parts.map fun p => if p.1 = index then (p.1, p.2 ++ [a]) else p).map (·.1) =
      parts.map (·.1) := by
    rw [List.map_map]
    refine List.map_congr_left fun p _ => ?_
    rw [Function.comp_apply]
    split <;> rfl
  have harg : ∀ i, T.arg (.proj (i + 1)) a.first = decide (i = index) := by
    intro i
    rw [ha, arg]
    simp
  split
  · rename_i hany
    refine ⟨by rw [hkeys]; exact h.nodup, fun q hq => ?_, fun b hb => ?_⟩
    · obtain ⟨p, hp, rfl⟩ := List.mem_map.1 hq
      rw [List.filter_append, List.filter_cons, harg]
      split
      · rename_i hi
        rw [h.part p hp, hi]
        simp
      · rename_i hi
        rw [h.part p hp]
        simp [hi]
    · rw [hkeys]
      obtain hb | hb := List.mem_append.1 hb
      · exact h.mem b hb
      · obtain rfl := List.mem_singleton.1 hb
        obtain ⟨p, hp, hi⟩ := List.any_eq_true.1 hany
        exact ⟨p.1, List.mem_map_of_mem hp, by rw [ha, of_decide_eq_true hi]⟩
  · rename_i hany
    have hnew : ∀ p ∈ parts, p.1 ≠ index := fun p hp hi =>
      hany (List.any_eq_true.2 ⟨p, hp, decide_eq_true hi⟩)
    refine ⟨?_, fun q hq => ?_, fun b hb => ?_⟩
    · rw [List.map_cons, List.nodup_cons]
      refine ⟨fun hi => ?_, h.nodup⟩
      obtain ⟨p, hp, hi⟩ := List.mem_map.1 hi
      exact hnew p hp hi
    · rw [List.filter_append, List.filter_cons, harg]
      obtain rfl | hq := List.mem_cons.1 hq
      · have hnone : done.filter (fun b => T.arg (.proj (index + 1)) b.first) = [] := by
          rw [List.filter_eq_nil_iff]
          intro b hb heq
          obtain ⟨i, hi, hfirst⟩ := h.mem b hb
          obtain ⟨p, hp, rfl⟩ := List.mem_map.1 hi
          rw [hfirst, arg] at heq
          exact hnew p hp (by simpa using (of_decide_eq_true heq).symm)
        rw [hnone]
        simp
      · rw [h.part q hq]
        simp [hnew q hq]
    · obtain hb | hb := List.mem_append.1 hb
      · obtain ⟨i, hi, hfirst⟩ := h.mem b hb
        exact ⟨i, List.mem_cons_of_mem _ hi, hfirst⟩
      · obtain rfl := List.mem_singleton.1 hb
        exact ⟨index, List.mem_cons_self .., ha⟩

theorem partition_of_eq_some {outer done : List (Assignment I (UpdExpr I C B))}
    {parts result : List (ℕ × List (Assignment I (UpdExpr I C B)))} (h : T.Partition done parts)
    (heq : partitionTupAssignments outer parts = some result) :
    T.Partition (done ++ outer) result := by
  induction outer generalizing done parts with
  | nil =>
    rw [partitionTupAssignments, Option.some.injEq] at heq
    rwa [List.append_nil, ← heq]
  | cons a outer ih =>
    rw [partitionTupAssignments] at heq
    split at heq
    · rename_i index ha
      rw [List.append_cons]
      exact ih (h.cons T ha) heq
    · cases heq

omit T in
theorem setParts_spec {exprs new r : List (UpdExpr I C B)}
    {parts : List (ℕ × List (Assignment I (UpdExpr I C B)))} (hnodup : (parts.map (·.1)).Nodup)
    (hlen : new.length = exprs.length) (h : setParts exprs parts new = some r) :
    r.length = exprs.length ∧
      (∀ p ∈ parts, ∃ e, exprs[p.1]? = some e ∧ r[p.1]? = some (createTupNestedUpdate p.2 e [])) ∧
      ∀ i, i ∉ parts.map (·.1) → r[i]? = new[i]? := by
  induction parts generalizing new with
  | nil =>
    rw [setParts, Option.some.injEq] at h
    subst h
    exact ⟨hlen, by simp, fun i _ => rfl⟩
  | cons p parts ih =>
    obtain ⟨index, assigns⟩ := p
    rw [List.map_cons, List.nodup_cons] at hnodup
    rw [setParts] at h
    split at h
    · rename_i e he
      obtain ⟨hr, hparts, hrest⟩ := ih hnodup.2 (by rw [List.length_set, hlen]) h
      refine ⟨hr, ?_, fun i hi => ?_⟩
      · rw [List.forall_mem_cons]
        refine ⟨⟨e, he, ?_⟩, hparts⟩
        have hlt := (List.getElem?_eq_some_iff.1 he).1
        rw [hrest index hnodup.1, List.getElem?_set_self (by rwa [hlen])]
      · rw [List.map_cons, List.mem_cons, not_or] at hi
        rw [hrest i hi.2, List.getElem?_set_ne (Ne.symm hi.1)]
    · cases h

omit T in
theorem get_tuple {l : List V} {i : ℕ} {v : V} (h : l[i]? = some v) :
    M.comps.get (M.tuple l) (.proj (i + 1)) = v := by
  obtain ⟨hlt, hv⟩ := List.getElem?_eq_some_iff.1 h
  have hput := M.put_tuple v hlt
  rw [← hv, List.set_getElem_self, hv] at hput
  rw [← hput, M.comps.get_put_self]

omit T in
theorem tuple_inj {l l' : List V} (hlen : l.length = l'.length) (h : M.tuple l = M.tuple l') :
    l = l' := by
  apply List.ext_getElem? fun i => ?_
  cases hi : l[i]? with
  | none => rw [eq_comm, List.getElem?_eq_none_iff, ← hlen]; exact List.getElem?_eq_none_iff.1 hi
  | some v =>
    have hlt := hlen ▸ (List.getElem?_eq_some_iff.1 hi).1
    rw [List.getElem?_eq_getElem hlt, Option.some.injEq, ← get_tuple hi, h]
    exact get_tuple (List.getElem?_eq_getElem hlt)

omit T in
/-- Updates of projections are made on the list of components. -/
theorem override_tuple [DecidableEq W] (l : List V) {outer : List (List (Key W) × V)}
    (h : ∀ a ∈ outer, ∃ i < l.length, ∃ p, a.1 = .proj (i + 1) :: p) :
    M.comps.override (M.tuple l) outer =
      M.tuple (l.mapIdx fun i v => M.comps.override v (under (.proj (i + 1)) outer)) := by
  induction outer generalizing l with
  | nil => exact congrArg M.tuple (List.ext_getElem (by simp) (by simp [override, under]))
  | cons a outer ih =>
    obtain ⟨path, x⟩ := a
    rw [List.forall_mem_cons] at h
    obtain ⟨⟨i, hi, p, rfl⟩, h⟩ := h
    have hstep : M.comps.override (M.tuple l) ((.proj (i + 1) :: p, x) :: outer) =
        M.comps.override (M.tuple (l.set i (M.comps.update l[i] p x))) outer := by
      rw [← M.put_tuple _ hi, ← get_tuple (List.getElem?_eq_getElem hi)]
      rfl
    rw [hstep, ih _ (by simpa using h)]
    congr 1
    apply List.ext_getElem (by simp)
    intro j hj hj'
    rw [List.getElem_mapIdx, List.getElem_mapIdx, List.getElem_set]
    split
    · rename_i hij
      subst hij
      simp [under, override]
    · rename_i hij
      simp [under, hij]

/-- What the update of one component of a tuple keeps. -/
def TupleOk (M : UpdMeaning I C B V W R Env)
    (ms : List (List (Arg I) × UpdExpr I C B)) : Prop :=
  ∀ before x after, ms = before ++ ([], x) :: after → (∀ m ∈ before, m.1 ≠ []) →
    ∀ ρ, M.comps.override (M.eval ρ x) (M.evalMatching ρ before) =
      M.comps.override (M.eval ρ x) (M.evalMatching ρ after)

omit T in
theorem curried_or_complete (ms : List (List (Arg I) × UpdExpr I C B)) :
    (∀ m ∈ ms, m.1 ≠ []) ∨
      ∃ before x after, ms = before ++ ([], x) :: after ∧ ∀ m ∈ before, m.1 ≠ [] := by
  induction ms with
  | nil => exact .inl (by simp)
  | cons m ms ih =>
    obtain ⟨p, e⟩ := m
    cases p with
    | nil => exact .inr ⟨[], e, ms, rfl, by simp⟩
    | cons b p =>
      obtain h | ⟨before, x, after, rfl, h⟩ := ih
      · exact .inl (List.forall_mem_cons.2 ⟨List.cons_ne_nil _ _, h⟩)
      · exact .inr ⟨(b :: p, e) :: before, x, after, rfl,
          List.forall_mem_cons.2 ⟨List.cons_ne_nil _ _, h⟩⟩

omit T in
theorem evalMatching_complete (before after : List (List (Arg I) × UpdExpr I C B))
    (x : UpdExpr I C B) (v : V) :
    M.comps.override v (M.evalMatching ρ (before ++ ([], x) :: after)) =
      M.comps.override (M.eval ρ x) (M.evalMatching ρ after) := by
  rw [UpdMeaning.evalMatching_append]
  exact override_replace _ _ _ _

omit T in
theorem tupleOk_iff (assigns : List (Assignment I (UpdExpr I C B))) (e : UpdExpr I C B) :
    TupleOk M (rests assigns) ↔ ∀ ρ, M.eval ρ (createTupNestedUpdate assigns e []) =
      M.comps.override (M.eval ρ e) (M.evalMatching ρ (rests assigns)) := by
  constructor
  · intro h ρ
    obtain hcurried | ⟨before, x, after, hms, hbefore⟩ := curried_or_complete (rests assigns)
    · exact eval_createTup_of_curried ρ hcurried e []
    · rw [eval_createTup_of_complete ρ hms hbefore e [], hms, evalMatching_complete]
      exact h before x after hms hbefore ρ
  · intro h before x after hms hbefore ρ
    rw [← evalMatching_complete ρ before after x (M.eval ρ e), ← hms, ← h ρ,
      eval_createTup_of_complete ρ hms hbefore e []]
    rfl

/-- The components of the tuple that is returned. -/
theorem setParts_getElem {es rs : List (UpdExpr I C B)}
    {outer : List (Assignment I (UpdExpr I C B))}
    {parts : List (ℕ × List (Assignment I (UpdExpr I C B)))} (hpart : T.Partition outer parts)
    (hset : setParts es parts es = some rs) {i : ℕ} {e : UpdExpr I C B} (he : es[i]? = some e) :
    rs[i]? = some (createTupNestedUpdate
      (outer.filter fun a => T.arg (.proj (i + 1)) a.first) e []) := by
  obtain ⟨-, hin, hout⟩ := setParts_spec hpart.nodup rfl hset
  by_cases hi : i ∈ parts.map (·.1)
  · obtain ⟨p, hp, rfl⟩ := List.mem_map.1 hi
    obtain ⟨e', he', hr⟩ := hin p hp
    rw [he, Option.some.injEq] at he'
    rw [hr, hpart.part p hp, he']
  · have hnone : outer.filter (fun a => T.arg (.proj (i + 1)) a.first) = [] := by
      rw [List.filter_eq_nil_iff]
      intro a ha heq
      obtain ⟨j, hj, hfirst⟩ := hpart.mem a ha
      rw [hfirst, arg, decide_eq_true_eq, Nat.add_right_cancel_iff] at heq
      exact hi (heq ▸ hj)
    rw [hout i hi, he, hnone]
    rfl

theorem tuple_value_iff [DecidableEq W] {es : List (UpdExpr I C B)}
    {outer : List (Assignment I (UpdExpr I C B))} {r : UpdExpr I C B}
    (h : T.simplifyNestedUpdates (.tuple es) outer = some r) :
    (∀ ρ, M.eval ρ r = M.comps.override (M.eval ρ (.tuple es)) (M.evalAssignments ρ outer)) ↔
      ∀ i < es.length, TupleOk M (T.matching (.proj (i + 1)) outer) := by
  rw [simplifyNestedUpdates] at h
  split at h
  · cases h
  · rename_i parts hparts
    obtain ⟨rs, hset, rfl⟩ := Option.map_eq_some_iff.1 h
    have hpart := T.partition_of_eq_some (Partition.nil T) hparts
    rw [List.nil_append] at hpart
    obtain ⟨hlen, hin, -⟩ := setParts_spec hpart.nodup rfl hset
    have hproj : ∀ ρ, ∀ a ∈ M.evalAssignments ρ outer,
        ∃ i < (es.map (M.eval ρ)).length, ∃ p, a.1 = .proj (i + 1) :: p := by
      intro ρ a ha
      rw [UpdMeaning.evalAssignments_eq_map] at ha
      obtain ⟨b, hb, rfl⟩ := List.mem_map.1 ha
      obtain ⟨i, hi, hfirst⟩ := hpart.mem b hb
      obtain ⟨p, hp, rfl⟩ := List.mem_map.1 hi
      obtain ⟨e, he, -⟩ := hin p hp
      refine ⟨p.1, ?_, b.rest.map (M.key ρ), ?_⟩
      · rw [List.length_map]
        exact (List.getElem?_eq_some_iff.1 he).1
      · rw [Assignment.arguments, List.map_cons, hfirst]
        rfl
    have hvalue : ∀ ρ, M.eval ρ (.tuple rs) =
          M.comps.override (M.eval ρ (.tuple es)) (M.evalAssignments ρ outer) ↔
        ∀ i e, es[i]? = some e → M.eval ρ (createTupNestedUpdate
          (outer.filter fun a => T.arg (.proj (i + 1)) a.first) e []) = M.comps.override
            (M.eval ρ e) (M.evalMatching ρ (T.matching (.proj (i + 1)) outer)) := by
      intro ρ
      rw [UpdMeaning.eval, UpdMeaning.eval, UpdMeaning.evalList_eq_map, UpdMeaning.evalList_eq_map,
        override_tuple _ (hproj ρ)]
      constructor
      · intro htuple i e he
        have hlist := tuple_inj (by simp [hlen]) htuple
        have hi := congrArg (·[i]?) hlist
        rw [List.getElem?_map, T.setParts_getElem hpart hset he, List.getElem?_mapIdx,
          List.getElem?_map, he, T.under_evalAssignments ρ (T.arg_proj_iff ρ (i + 1))] at hi
        exact Option.some.inj hi
      · intro hall
        refine congrArg M.tuple (List.ext_getElem? fun i => ?_)
        rw [List.getElem?_map, List.getElem?_mapIdx, List.getElem?_map]
        cases he : es[i]? with
        | none =>
          have hnone : rs[i]? = none := by
            rw [List.getElem?_eq_none_iff, hlen]
            exact List.getElem?_eq_none_iff.1 he
          rw [hnone]
          rfl
        | some e =>
          rw [T.setParts_getElem hpart hset he,
            T.under_evalAssignments ρ (T.arg_proj_iff ρ (i + 1))]
          exact congrArg some (hall i e he)
    rw [forall_congr' hvalue]
    constructor
    · intro hall i hi
      rw [matching_eq_rests, tupleOk_iff _ es[i]]
      intro ρ
      rw [← matching_eq_rests]
      exact hall ρ i _ (List.getElem?_eq_getElem hi)
    · intro hok ρ i e he
      have hi := hok i (List.getElem?_eq_some_iff.1 he).1
      rw [matching_eq_rests] at hi ⊢
      exact (tupleOk_iff _ e).1 hi ρ

end TcEq

end PVS.Assert
