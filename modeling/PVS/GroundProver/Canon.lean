import PVS.GroundProver.Meets

/-! `adduse`, `canon` and `addneq` on ground terms: new entries keep the tables closed. -/

namespace PVS.GroundProver

open Library SExp UnionFind

def adduseP (u : SExp) (st : ProverState) (v : SExp) : ProverState :=
  if u ∈ use st v then st else { st with usealist := (v, u :: use st v) :: st.usealist }

/-- `u` on the use lists of its arguments. -/
def register (u : SExp) (st : ProverState) : ProverState :=
  u.argsof.toList.foldl (adduseP u) st

section

variable {st st' : ProverState} {u v w a b : SExp}

theorem foldl_adduseP_frame (u : SExp) (l : List SExp) (st : ProverState) :
    ∃ ul, l.foldl (adduseP u) st = { st with usealist := ul } := by
  induction l generalizing st with
  | nil => exact ⟨st.usealist, rfl⟩
  | cons v l ih =>
    obtain ⟨ul, e⟩ := ih (adduseP u st v)
    refine ⟨ul, ?_⟩
    rw [List.foldl_cons, e, adduseP]
    split <;> rfl

theorem register_frame (u : SExp) (st : ProverState) :
    ∃ ul, register u st = { st with usealist := ul } := foldl_adduseP_frame u _ st

theorem mem_use_adduseP : w ∈ use (adduseP u st v) a ↔ w ∈ use st a ∨ w = u ∧ a = v := by
  unfold adduseP
  by_cases hm : u ∈ use st v
  · rw [if_pos hm]
    refine ⟨.inl, ?_⟩
    rintro (h | ⟨rfl, rfl⟩)
    · exact h
    · exact hm
  · rw [if_neg hm]
    by_cases ha : a = v
    · subst ha
      simp [use, or_comm]
    · have e : use { st with usealist := (v, u :: use st v) :: st.usealist } a = use st a := by
        rw [use, lookup_cons_ne ha]
        rfl
      simp [e, ha]

theorem registered_adduseP : Registered (adduseP u st v) w ↔ Registered st w ∨ w = u := by
  unfold adduseP
  by_cases hm : u ∈ use st v
  · rw [if_pos hm]
    refine ⟨.inl, ?_⟩
    rintro (h | rfl)
    · exact h
    · exact registered_of_use hm
  · rw [if_neg hm]
    constructor
    · rintro ⟨p, hp, hw⟩
      obtain rfl | hp := List.mem_cons.1 hp
      · obtain rfl | hw := List.mem_cons.1 hw
        · exact .inr rfl
        · exact .inl (registered_of_use hw)
      · exact .inl ⟨p, hp, hw⟩
    · rintro (⟨p, hp, hw⟩ | rfl)
      · exact ⟨p, List.mem_cons_of_mem _ hp, hw⟩
      · exact ⟨_, List.mem_cons_self, List.mem_cons_self⟩

theorem mem_use_register :
    w ∈ use (register u st) a ↔ w ∈ use st a ∨ w = u ∧ a ∈ u.argsof.toList := by
  unfold register
  induction u.argsof.toList generalizing st with
  | nil => simp
  | cons v l ih =>
    rw [List.foldl_cons, ih, mem_use_adduseP]
    simp only [List.mem_cons]
    tauto

theorem registered_register (hu : u.argsof.toList ≠ []) :
    Registered (register u st) w ↔ Registered st w ∨ w = u := by
  unfold register
  generalize u.argsof.toList = l at hu
  induction l generalizing st with
  | nil => simp at hu
  | cons v l ih =>
    rw [List.foldl_cons]
    by_cases hl : l = []
    · subst hl
      exact registered_adduseP
    · rw [ih hl, registered_adduseP]
      tauto

theorem sig_register : sig (register u st) v = sig st v := by
  obtain ⟨ul, e⟩ := register_frame u st
  rw [e]
  rfl

theorem root_register : root (register u st) = root st := by
  obtain ⟨ul, e⟩ := register_frame u st
  rw [e]
  rfl

theorem Tables.sig_of_not_registered (h : Tables st) (hu : ¬ Registered st u) : sig st u = u := by
  have e : st.sigalist.lookup u = none := by
    refine List.lookup_eq_none_iff.2 fun p hp => ?_
    rw [bne_iff_ne]
    rintro rfl
    exact hu (h.keys p hp)
  rw [sig, e]
  rfl

theorem Tables.of_register (h : Tables st) (hu : Entry u)
    (ha : ∀ a ∈ u.argsof.toList, NodeIn st a) : Tables (register u st) := by
  obtain ⟨ul, e⟩ := register_frame u st
  have hr : ∀ w, Registered (register u st) w ↔ Registered st w ∨ w = u :=
    fun w => registered_register hu.sign.ne
  have hn : ∀ w, NodeIn st w → NodeIn (register u st) w :=
    fun w hw => hw.imp id fun hw => (hr w).2 (.inl hw)
  refine ⟨by rw [e]; exact h.types, by rw [e]; exact h.wf, fun w hw => ?_, fun p hp => ?_,
    fun w hw a hm => hn a ?_, fun p hp => (hr _).2 (.inl (h.keys p (by rwa [e] at hp))),
    fun w hw => ?_⟩
  · obtain hw | rfl := (hr w).1 hw
    · exact h.entries w hw
    · exact hu
  · obtain ⟨h1, h2, p1, p2⟩ := h.nodes p (by rwa [e] at hp)
    exact ⟨hn _ h1, hn _ h2, p1, p2⟩
  · obtain hw | rfl := (hr w).1 hw
    · exact h.args w hw a hm
    · exact ha a hm
  · rw [sig_register, root_register]
    by_cases hw' : Registered st w
    · obtain ⟨hs, hf, hm, hn'⟩ := h.signs w hw'
      exact ⟨hs, hf, hm, fun a ha => hn a (hn' a ha)⟩
    · obtain rfl := ((hr w).1 hw).resolve_left hw'
      rw [h.sig_of_not_registered hw']
      exact ⟨hu.sign, rfl, rfl, fun a hm => hn a (ha a hm)⟩

/-- Nothing with the signature of a new entry may be there already. -/
theorem Closed.of_register (h : Closed st) (hu : Entry u) (ha : ∀ a ∈ u.argsof.toList, root st a = a)
    (hnew : ∀ v, Registered st v → csig st v = u → v = u) : Closed (register u st) := by
  have hr : ∀ w, Registered (register u st) w ↔ Registered st w ∨ w = u :=
    fun w => registered_register hu.sign.ne
  have hc : ∀ w, csig (register u st) w = csig st w := fun w => by
    rw [csig, csig, root_register]
  have hcu : csig st u = u := by
    have e : u.argsof.toList.map (root st) = u.argsof.toList.map id := List.map_congr_left ha
    rw [csig, e, List.map_id]
    exact hu.sign.eq.symm
  have hj : ∀ x y, Joined st x y → Joined (register u st) x y := fun x y hj => by
    obtain ⟨ul, e⟩ := register_frame u st
    rw [e]
    exact hj
  refine ⟨fun w hw => ?_, fun w hw => ?_, fun v w hv hw e => ?_⟩
  · rw [sig_register]
    exact h.stale w (by rwa [root_register] at hw)
  · rw [hc]
    obtain hw | rfl := (hr w).1 hw
    · obtain ⟨y, hy⟩ := h.find w hw
      exact ⟨y, by rw [sig_register, hy.sig], fun z hz => mem_use_register.2 (.inl (hy.use z hz))⟩
    · rw [hcu]
      exact ⟨w, by rw [sig_register, h.stale w ha], fun z hz => mem_use_register.2 (.inr ⟨rfl, hz⟩)⟩
  · rw [hc, hc] at e
    refine hj v w ?_
    obtain hv | ev := (hr v).1 hv <;> obtain hw | ew := (hr w).1 hw
    · exact h.cong v w hv hw e
    · rw [ew, hnew v hv (e.trans (ew ▸ hcu))]
      exact .refl u
    · rw [ev, hnew w hw (e.symm.trans (ev ▸ hcu))]
      exact .refl u
    · rw [ev, ew]
      exact .refl u

/-- The state between two calls of the prover, whatever the outer `s` is. -/
structure AtRest (st : ProverState) : Prop where
  tables : Tables st
  paired : Paired st
  closed : st.dropped = [] → Closed { st with s := [] }

/-- `vs` are the canonical forms of `ts`; only the use lists have grown. -/
structure Canonized (st : ProverState) (ts vs : List SExp) (st' : ProverState) : Prop where
  rest : AtRest st'
  frame : ∃ ul, st' = { st with usealist := ul }
  mono : ∀ u, Registered st u → Registered st' u
  pairs : ∀ u, IsPair u → Registered st' u → Registered st u
  terms : ∀ v ∈ vs, Term v ∧ NodeIn st' v
  roots : st.dropped = [] → ∀ v ∈ vs, root st' v = v
  length : vs.length = ts.length
  eval : ∀ M : Model, (∀ p ∈ st.findalist, M.eval p.1 = M.eval p.2) →
    vs.map M.eval = ts.map M.eval

theorem Canonized.nodeIn {ts vs : List SExp} (h : Canonized st ts vs st') (hv : NodeIn st v) :
    NodeIn st' v := hv.imp id (h.mono v)

theorem Canonized.root_eq {ts vs : List SExp} (h : Canonized st ts vs st') :
    root st' = root st := by
  obtain ⟨ul, e⟩ := h.frame
  rw [e]
  rfl

theorem Canonized.findalist_eq {ts vs : List SExp} (h : Canonized st ts vs st') :
    st'.findalist = st.findalist := by
  obtain ⟨ul, e⟩ := h.frame
  rw [e]

theorem Canonized.append {ts vs ts' vs' : List SExp} {st₁ st₂ : ProverState}
    (h : Canonized st ts vs st₁) (h' : Canonized st₁ ts' vs' st₂) :
    Canonized st (ts ++ ts') (vs ++ vs') st₂ := by
  refine ⟨h'.rest, ?_, fun u hu => h'.mono u (h.mono u hu),
    fun u hp hu => h.pairs u hp (h'.pairs u hp hu), fun v hv => ?_, fun hd v hv => ?_, ?_,
    fun M hM => ?_⟩
  · obtain ⟨ul, rfl⟩ := h.frame
    obtain ⟨ul', rfl⟩ := h'.frame
    exact ⟨ul', rfl⟩
  · obtain hv | hv := List.mem_append.1 hv
    · obtain ⟨ht, hn⟩ := h.terms v hv
      exact ⟨ht, h'.nodeIn hn⟩
    · exact h'.terms v hv
  · obtain hv | hv := List.mem_append.1 hv
    · rw [h'.root_eq]
      exact h.roots hd v hv
    · refine h'.roots ?_ v hv
      obtain ⟨ul, rfl⟩ := h.frame
      exact hd
  · rw [List.length_append, List.length_append, h.length, h'.length]
  · rw [List.map_append, List.map_append, h.eval M hM, h'.eval M (h.findalist_eq ▸ hM)]

theorem Canonized.app {f : String} {ts vs ws : List SExp} {st₁ st₂ : ProverState}
    (h : Canonized st ts vs st₁) (h' : Canonized st₁ [form f vs] ws st₂) :
    Canonized st [form f ts] ws st₂ := by
  obtain ⟨ul, hul⟩ := h.frame
  refine ⟨h'.rest, ?_, fun u hu => h'.mono u (h.mono u hu),
    fun u hp hu => h.pairs u hp (h'.pairs u hp hu), h'.terms, fun hd => ?_, h'.length,
    fun M hM => ?_⟩
  · obtain ⟨ul', rfl⟩ := h'.frame
    exact ⟨ul', by rw [hul]⟩
  · exact h'.roots (by rw [hul]; exact hd)
  · rw [h'.eval M (h.findalist_eq ▸ hM)]
    simp only [List.map_singleton, Model.eval, Model.evalArgs_ofList, h.eval M hM]

section

variable (T : Theories)

theorem evals_adduse (hu : Entry u) (v : SExp) :
    Evals (adduse T u v) st (.ok ⟨⟩) (adduseP u st v) := by
  have hh := hu.sign.head
  have he : (u.consp && (u.car == .sym "equal" || u.car == .sym "if" || u.car == .sym "if*")) =
      false := by
    have h₁ : u.car ≠ .sym "equal" := hh.ne (by decide)
    have h₂ : u.car ≠ .sym "if" := hh.ne (by decide)
    have h₃ : u.car ≠ .sym "if*" := hh.ne (by decide)
    simp [h₁, h₂, h₃]
  have ht : (u.consp && u.funsym == .sym "TIMES") = false := Node.not_times (.inr hu)
  unfold adduse adduseP
  rw [he]
  refine .bind (evals_get st) ?_
  by_cases hm : u ∈ use st v
  · rw [if_pos hm, if_pos hm]
    exact evals_pure _ _
  · rw [if_neg hm, if_neg hm]
    refine .bind (evals_modify _ _) ?_
    rw [ht]
    exact evals_pure _ _

theorem evals_register (hu : Entry u) :
    Evals (u.argsof.toList.forM (adduse T u)) st (.ok ⟨⟩) (register u st) :=
  (Evals.forM (I := fun _ => True)
    (fun v _ _ _ => ⟨evals_adduse T hu v, trivial⟩) trivial).1

theorem Tables.root_of_not_registered (h : Tables st) (hc : u.consp) (hu : ¬ Registered st u) :
    root st u = u := by
  refine (lookup_eq_none_iff h.wf u).1 (List.lookup_eq_none_iff.2 fun p hp => ?_)
  rw [bne_iff_ne]
  rintro rfl
  exact hu ((h.nodes p hp).1.registered hc)

theorem register_s (u : SExp) (st : ProverState) (s : List SExp) :
    register u { st with s := s } = { register u st with s := s } := by
  unfold register
  induction u.argsof.toList generalizing st with
  | nil => rfl
  | cons v l ih =>
    rw [List.foldl_cons, List.foldl_cons, ← ih]
    congr 1
    unfold adduseP
    by_cases h : u ∈ use st v
    · have h' : u ∈ use { st with s := s } v := h
      rw [if_pos h, if_pos h']
    · have h' : u ∉ use { st with s := s } v := h
      rw [if_neg h, if_neg h']
      rfl

theorem dropped_register : (register u st).dropped = st.dropped := by
  obtain ⟨ul, e⟩ := register_frame u st
  rw [e]

theorem AtRest.of_register (h : AtRest st) (hu : Entry u) (hp : ¬ IsPair u)
    (hn : ∀ a ∈ u.argsof.toList, NodeIn st a)
    (hc : st.dropped = [] → (∀ a ∈ u.argsof.toList, root st a = a) ∧
      ∀ v, Registered st v → csig st v = u → v = u) : AtRest (register u st) := by
  have hr : ∀ w, Registered (register u st) w ↔ Registered st w ∨ w = u :=
    fun w => registered_register hu.sign.ne
  refine ⟨h.tables.of_register hu hn, fun a b x hx => ?_, fun hd => ?_⟩
  · obtain hx | rfl := (hr _).1 hx
    · obtain ⟨hab, ra, rb⟩ := h.paired a b x hx
      exact ⟨hab, (hr _).2 (.inl ra), (hr _).2 (.inl rb)⟩
    · simp [IsPair] at hp
  · rw [dropped_register] at hd
    obtain ⟨ha, hnew⟩ := hc hd
    rw [← register_s]
    exact (h.closed hd).of_register hu ha hnew

/-- The lookup of an application of canonical forms, which is entered if nothing is found. -/
theorem AtRest.evals_lookupSig (h : AtRest st) {f : String} {ds : List SExp} (hf : Uninterpreted f)
    (hne : ds ≠ []) (hd : ∀ d ∈ ds, Term d ∧ NodeIn st d)
    (hr : st.dropped = [] → ∀ d ∈ ds, root st d = d) :
    ∃ v st', Evals (lookupSig T (form f ds) false) st (.ok v) st' ∧
      Canonized st [form f ds] [v] st' := by
  have he : Entry (form f ds) := .app hf hne fun d hm => (hd d hm).1
  cases hl : (use st (form f ds).arg1).find? fun u => form f ds == u || form f ds == sig st u with
  | some u =>
    have hu : Registered st u := registered_of_use (List.mem_of_find?_eq_some hl)
    have hs := List.find?_some hl
    simp only [Bool.or_eq_true, beq_iff_eq] at hs
    have hcar : u.car = .sym f := by
      obtain rfl | hs := hs
      · rfl
      · exact (h.tables.signs u hu).2.1.symm.trans (congrArg car hs.symm)
    have hp : ¬ IsPair u := by rw [IsPair, hcar]; simp
    refine ⟨root st u, st, ?_, h, ⟨st.usealist, rfl⟩, fun u hu => hu, fun u _ hu => hu,
      fun v hv => ?_, fun _ v hv => ?_, rfl, fun M hM => ?_⟩
    · refine .bind (evals_get st) ?_
      simp only [hl]
      exact h.tables.evals_prFind u
    · obtain rfl := List.mem_singleton.1 hv
      have hn := h.tables.nodeIn_root (.inr hu)
      exact ⟨h.tables.term hn (fun hp' => hp (h.tables.isPair_root.1 hp')), hn⟩
    · obtain rfl := List.mem_singleton.1 hv
      exact h.tables.root_root u
    · have e : M.eval u = M.eval (form f ds) := by
        obtain rfl | hs := hs
        · rfl
        · rw [hs, h.tables.eval_sig hM hu]
      rw [List.map_singleton, List.map_singleton, M.eval_root hM, e]
  | none =>
    have hnone : ∀ u ∈ use st (form f ds).arg1, form f ds ≠ u ∧ form f ds ≠ sig st u := by
      simpa using hl
    have hargs : (form f ds).argsof.toList = ds := by simp
    have harg1 : (form f ds).arg1 ∈ ds := by
      obtain ⟨d, l, rfl⟩ := List.exists_cons_of_ne_nil hne
      exact List.mem_cons_self
    have hnew : st.dropped = [] → ∀ v, Registered st v → csig st v = form f ds → False := by
      intro hdr v hv e
      obtain ⟨y, hy⟩ := (h.closed hdr).find v hv
      have hy' : y ∈ use st (form f ds).arg1 := hy.use _ (by
        change _ ∈ (csig st v).argsof.toList
        rwa [e, hargs])
      exact (hnone y hy').2 (e.symm.trans hy.sig.symm)
    refine ⟨form f ds, register (form f ds) st, ?_, ?_, register_frame _ _, fun u hu => ?_,
      fun u hp hu => ?_, fun v hv => ?_, fun hdr v hv => ?_, rfl, fun _ _ => rfl⟩
    · refine .bind (evals_get st) ?_
      simp only [hl]
      exact .bind (evals_register T he) (evals_pure _ _)
    · refine h.of_register he (by simp [IsPair]) (fun a ha => (hd a (by rwa [hargs] at ha)).2)
        fun hdr => ⟨fun a ha => hr hdr a (by rwa [hargs] at ha), fun v hv e => ?_⟩
      exact (hnew hdr v hv e).elim
    · exact (registered_register he.sign.ne).2 (.inl hu)
    · obtain hu | rfl := (registered_register he.sign.ne).1 hu
      · exact hu
      · simp [IsPair] at hp
    · obtain rfl := List.mem_singleton.1 hv
      exact ⟨.app hf hne fun d hm => (hd d hm).1,
        .inr ((registered_register he.sign.ne).2 (.inr rfl))⟩
    · obtain rfl := List.mem_singleton.1 hv
      rw [root_register]
      refine h.tables.root_of_not_registered rfl fun hu => hnew hdr _ hu ?_
      have e : ds.map (root st) = ds.map id := List.map_congr_left (hr hdr)
      simp [csig, e]

theorem Sign.evals_sigma (h : Sign u) : Evals (sigma T u) st (.ok u) st := by
  have hi : interp u = false := by simpa [GroundProver.uninterp] using h.uninterp
  obtain ⟨a, as, ha⟩ := List.exists_cons_of_ne_nil h.ne
  have ha1 : u.arg1 = a := by rw [h.eq, ha]; rfl
  have hup : u.arg1.funsym ≠ .sym "update" :=
    ha1 ▸ (h.terms a (by simp [ha])).funsym_ne (by decide) (by decide)
  have hs : u.symbolp = false := by rw [h.eq]; rfl
  have ho : memq u.funsym sigmaOps = false := h.head.not_memq (by decide)
  have hts : isTupselN u.funsym = false := h.head.not_memq (l := tupselList) (by decide)
  simp only [interp, Bool.or_eq_false_iff] at hi
  unfold sigma sigapply
  simp only [hs, hi, hts, ho, hup, Bool.false_eq_true, if_false, beq_iff_eq, Bool.and_eq_true,
    and_false]
  split <;> exact evals_pure _ _

theorem AtRest.evals_canonsig (h : AtRest st) {f : String} {ds : List SExp} (hf : Uninterpreted f)
    (hne : ds ≠ []) (hd : ∀ d ∈ ds, Term d ∧ NodeIn st d)
    (hr : st.dropped = [] → ∀ d ∈ ds, root st d = d) :
    ∃ v st', Evals (canonsig T false (form f ds)) st (.ok v) st' ∧
      Canonized st [form f ds] [v] st' := by
  obtain ⟨v, st', he, hc⟩ := h.evals_lookupSig T hf hne hd hr
  have hs : Sign (form f ds) := (Entry.app hf hne fun d hm => (hd d hm).1).sign
  have hi : interp (form f ds) = false := by simpa [uninterp] using hs.uninterp
  have ht : (SExp.sym f == .sym "TIMES") = false := by simpa using hf.ne (n := "TIMES") (by decide)
  refine ⟨v, st', ?_, hc⟩
  unfold canonsig
  simp only [hi, Bool.false_eq_true, if_false, canonsigCons, consp_cons, if_true, car_cons, ht]
  exact .bind (evals_pure _ _) he

theorem AtRest.evals_canonArgs {args : List SExp} (h : AtRest st)
    (hargs : ∀ a ∈ args, ∀ st, AtRest st → ∃ v st', Evals (canonStar T false a) st (.ok v) st' ∧
      Canonized st [a] [v] st') :
    ∃ vs st', Evals (canonArgs T false (ofList args)) st (.ok vs) st' ∧
      Canonized st args vs st' := by
  induction args generalizing st with
  | nil =>
    exact ⟨[], st, evals_pure _ _, h, ⟨st.usealist, rfl⟩, fun u hu => hu, fun u _ hu => hu, by simp,
      by simp, rfl, fun _ _ => rfl⟩
  | cons a args ih =>
    obtain ⟨v, st₁, e₁, h₁⟩ := hargs a (by simp) st h
    obtain ⟨vs, st₂, e₂, h₂⟩ := ih h₁.rest fun a ha => hargs a (by simp [ha])
    exact ⟨v :: vs, st₂, .bind e₁ (.bind e₂ (evals_pure _ _)), h₁.append h₂⟩

/-- `signature` of an uninterpreted application: the arguments are canonized one after the other. -/
theorem signature_eq {f : String} {args : List SExp} (hf : Uninterpreted f) (hne : args ≠ []) :
    signature T false (.sym f) (ofList args) =
      canonArgs T false (ofList args) >>= fun ds => sigma T (form f ds) := by
  obtain ⟨a, as, rfl⟩ := List.exists_cons_of_ne_nil hne
  have hnot : ¬ (SExp.sym f = .sym "not") := by simpa using hf.ne (n := "not") (by decide)
  cases a with
  | cons op iargs =>
    simp only [ofList_cons, signature, canonArgs, hnot, false_and, if_false, bind_assoc, pure_bind]
    rfl
  | sym n =>
    simp only [ofList_cons, signature, canonArgs, bind_assoc, pure_bind]
    rfl
  | int i =>
    simp only [ofList_cons, signature, canonArgs, bind_assoc, pure_bind]
    rfl

theorem AtRest.evals_canonStar {t : SExp} (h : AtRest st) (ht : Term t) :
    ∃ v st', Evals (canonStar T false t) st (.ok v) st' ∧ Canonized st [t] [v] st' := by
  induction ht generalizing st with
  | @const n hn =>
    have hnode : NodeIn st (.sym n) := .inl ⟨n, hn, rfl⟩
    refine ⟨root st (.sym n), st, ?_, h, ⟨st.usealist, rfl⟩, fun u hu => hu, fun u _ hu => hu,
      fun v hv => ?_, fun _ v hv => ?_, rfl, fun M hM => ?_⟩
    · unfold canonStar canonsig
      exact h.tables.evals_prFind _
    · obtain rfl := List.mem_singleton.1 hv
      have hp : ¬ IsPair (root st (.sym n)) := fun hp => by
        have hp := h.tables.isPair_root.1 hp
        simp [IsPair, car, nil] at hp
      exact ⟨h.tables.term (h.tables.nodeIn_root hnode) hp, h.tables.nodeIn_root hnode⟩
    · obtain rfl := List.mem_singleton.1 hv
      exact h.tables.root_root _
    · rw [List.map_singleton, List.map_singleton, M.eval_root hM]
  | @app f args hf hne _ ih =>
    obtain ⟨ds, st₁, e₁, h₁⟩ := h.evals_canonArgs T fun a ha st h => ih a ha h
    have hd : ds ≠ [] := by
      rw [← List.length_pos_iff, h₁.length]
      exact List.length_pos_iff.2 hne
    have hr : st₁.dropped = [] → ∀ d ∈ ds, root st₁ d = d := fun hdr => h₁.roots <| by
      obtain ⟨ul, rfl⟩ := h₁.frame
      exact hdr
    obtain ⟨v, st₂, e₂, h₂⟩ := h₁.rest.evals_canonsig T hf hd h₁.terms hr
    have hs : Sign (form f ds) := (Entry.app hf hd fun d hm => (h₁.terms d hm).1).sign
    have hp : ¬ (SExp.sym f = .sym "protect") := by
      simpa using hf.ne (n := "protect") (by decide)
    refine ⟨v, st₂, ?_, ?_⟩
    · unfold canonStar
      rw [if_neg hp, signature_eq T hf hne]
      exact .bind (.bind e₁ (hs.evals_sigma T)) e₂
    · exact h₁.app h₂

end

end

end PVS.GroundProver
