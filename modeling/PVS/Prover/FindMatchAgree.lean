import Mathlib
import PVS.Prover.FindMatchPolarity

/-! Where the searches for a matching subterm look, and for which templates -/

namespace PVS.Prover.Matches

variable {β ι σ : Type}

/-! ### Tests -/

/-- At which places, and for templates of which polarity, a match is looked for -/
abbrev Test (ι : Type) := ι → Option Polarity → Prop

/-- Both searches look where the third says. -/
def Same (looks collects spec : Test ι) : Prop :=
  ∀ i template, (looks i template ↔ spec i template) ∧ (collects i template ↔ spec i template)

def Within (is : List ι) (test : Test ι) : Prop := ∀ i template, test i template → i ∈ is

theorem exists_ne (polarity : Option Polarity) : ∃ template, template ≠ polarity := by
  cases polarity with
  | none => exact ⟨some .positive, nofun⟩
  | some polarity => exact ⟨none, nofun⟩

section Tests

variable {looks collects spec looks1 collects1 spec1 looks2 collects2 spec2 : Test ι} {p : ι}
  {polarity : Option Polarity} {places1 places2 : List ι}

theorem same_one (hl : Within places1 looks1) (hc : Within places1 collects1)
    (hs : Within places1 spec1) (hp : p ∉ places1)
    (hlooks : ∀ i t, looks i t ↔ p = i ∧ t ≠ polarity ∨ looks1 i t)
    (hcollects : ∀ i t, collects i t ↔ (p = i ∧ polarity ≠ none ∧ t ≠ polarity) ∨ collects1 i t)
    (hspec : ∀ i t, spec i t ↔ p = i ∧ t ≠ polarity ∨ spec1 i t) :
    Same looks collects spec ↔ polarity ≠ none ∧ Same looks1 collects1 spec1 := by
  constructor
  · intro h
    refine ⟨?_, fun i t => ?_⟩
    · obtain ⟨t, ht⟩ := exists_ne polarity
      have hown := (h p t).2.2 ((hspec p t).2 (.inl ⟨rfl, ht⟩))
      obtain hown | hown := (hcollects p t).1 hown
      · exact hown.2.1
      · exact absurd (hc p t hown) hp
    · have hit := h i t
      rw [hlooks, hcollects, hspec] at hit
      by_cases hi : i ∈ places1
      · have hne : p ≠ i := fun heq => hp (heq ▸ hi)
        simpa [hne] using hit
      · have hl : ¬ looks1 i t := fun h => hi (hl i t h)
        have hc : ¬ collects1 i t := fun h => hi (hc i t h)
        have hs : ¬ spec1 i t := fun h => hi (hs i t h)
        simp [hl, hc, hs]
  · rintro ⟨hpolarity, h⟩ i t
    rw [hlooks, hcollects, hspec, (h i t).1, (h i t).2]
    simp [hpolarity]

theorem same_two {keep : Prop} (hl : Within places1 looks1) (hc : Within places1 collects1)
    (hs : Within places1 spec1) (hl' : Within places2 looks2) (hc' : Within places2 collects2)
    (hs' : Within places2 spec2) (hp : p ∉ places1) (hp' : p ∉ places2)
    (hdisj : ∀ i ∈ places1, i ∉ places2) (hsome : ∃ i t, spec2 i t)
    (hlooks : ∀ i t, looks i t ↔ p = i ∧ t ≠ polarity ∨ looks1 i t ∨ looks2 i t)
    (hcollects : ∀ i t, collects i t ↔
      (p = i ∧ polarity ≠ none ∧ t ≠ polarity) ∨ collects1 i t ∨ keep ∧ collects2 i t)
    (hspec : ∀ i t, spec i t ↔ p = i ∧ t ≠ polarity ∨ spec1 i t ∨ spec2 i t) :
    Same looks collects spec ↔
      polarity ≠ none ∧ Same looks1 collects1 spec1 ∧ Same looks2 collects2 spec2 ∧ keep := by
  constructor
  · intro h
    have hkeep : keep := by
      obtain ⟨i, t, hit⟩ := hsome
      have hi := hs' i t hit
      have hcollect := (h i t).2.2 ((hspec i t).2 (.inr (.inr hit)))
      obtain hown | hown | hown := (hcollects i t).1 hcollect
      · exact absurd (hown.1 ▸ hi) hp'
      · exact absurd hi (hdisj i (hc i t hown))
      · exact hown.1
    -- at a place of one argument the other one has no test
    have hfirst : ∀ i t, i ∉ places1 → ¬ looks1 i t ∧ ¬ collects1 i t ∧ ¬ spec1 i t :=
      fun i t hi => ⟨fun h => hi (hl i t h), fun h => hi (hc i t h), fun h => hi (hs i t h)⟩
    have hsecond : ∀ i t, i ∉ places2 → ¬ looks2 i t ∧ ¬ collects2 i t ∧ ¬ spec2 i t :=
      fun i t hi => ⟨fun h => hi (hl' i t h), fun h => hi (hc' i t h), fun h => hi (hs' i t h)⟩
    refine ⟨?_, fun i t => ?_, fun i t => ?_, hkeep⟩
    · obtain ⟨t, ht⟩ := exists_ne polarity
      have hown := (h p t).2.2 ((hspec p t).2 (.inl ⟨rfl, ht⟩))
      obtain hown | hown | hown := (hcollects p t).1 hown
      · exact hown.2.1
      · exact absurd (hc p t hown) hp
      · exact absurd (hc' p t hown.2) hp'
    · have hit := h i t
      rw [hlooks, hcollects, hspec] at hit
      by_cases hi : i ∈ places1
      · have hne : p ≠ i := fun heq => hp (heq ▸ hi)
        simpa [hne, hsecond i t (hdisj i hi)] using hit
      · simp [hfirst i t hi]
    · have hit := h i t
      rw [hlooks, hcollects, hspec] at hit
      by_cases hi : i ∈ places2
      · have hne : p ≠ i := fun heq => hp' (heq ▸ hi)
        simpa [hne, hkeep, hfirst i t fun hi' => hdisj i hi' hi] using hit
      · simp [hsecond i t hi]
  · rintro ⟨hpolarity, h, h', hkeep⟩ i t
    rw [hlooks, hcollects, hspec, (h i t).1, (h i t).2, (h' i t).1, (h' i t).2]
    simp [hpolarity, hkeep]

end Tests

/-! ### A match at one place -/

section Place

variable [DecidableEq ι]

def matchAt (i : ι) : List β → Expr β ι → Option Unit :=
  fun _ e => if place e = i then some () else none

@[simp] theorem matchAt_eq_none {i : ι} {bound : List β} {e : Expr β ι} :
    matchAt i bound e = none ↔ place e ≠ i := by
  simp [matchAt]

def tested (tests : List (ι × Option Polarity)) : Test ι :=
  fun i template => ∃ test, (i, test) ∈ tests ∧ template ≠ test

def looksArith (out : Bool) (bound : List β) (e : Expr β ι) (polarity : Option Polarity) :
    Test ι :=
  fun i template => findMatchArithPolarity (matchAt i) template out bound e polarity ≠ none

def collectsArith (bound : List β) (e : Expr β ι) (polarity : Option Polarity) : Test ι :=
  fun i template => findAllMatchesArithPolarity (matchAt i) template bound e [] polarity ≠ []

def looks (out : Bool) (bound : List β) (e : Expr β ι) (polarity : Polarity) : Test ι :=
  fun i template => findMatchPolarity (matchAt i) template out bound e polarity ≠ none

def collects (bound : List β) (e : Expr β ι) (polarity : Polarity) : Test ι :=
  fun i template => findAllMatchesPolarity (matchAt i) template bound e [] polarity ≠ []

omit [DecidableEq ι] in
theorem tested_cons {p : ι} {polarity : Option Polarity} {tests : List (ι × Option Polarity)}
    {i : ι} {t : Option Polarity} :
    tested ((p, polarity) :: tests) i t ↔ p = i ∧ t ≠ polarity ∨ tested tests i t := by
  simp [tested, or_and_right, exists_or, eq_comm]

omit [DecidableEq ι] in
theorem tested_append {tests tests' : List (ι × Option Polarity)} {i : ι} {t : Option Polarity} :
    tested (tests ++ tests') i t ↔ tested tests i t ∨ tested tests' i t := by
  simp [tested, or_and_right, exists_or]

theorem findOut_ne_none {p : ι} {out : Bool} {bound : List β} {e : Expr β ι} {insub : Option Unit}
    {t polarity : Option Polarity} :
    findOutMatchPolarity (matchAt p) t out bound e insub polarity ≠ none ↔
      (place e = p ∧ t ≠ polarity) ∨ insub ≠ none := by
  rw [Ne, findOutMatchPolarity_eq_none, matchAt_eq_none, Classical.not_and_iff_not_or_not,
    Classical.not_imp, not_not, and_comm]

theorem findOutAll_ne_nil {p : ι} {bound : List β} {e : Expr β ι} {accum : List Unit}
    {t polarity : Option Polarity} :
    findOutAllMatchesPolarity (matchAt p) t bound e accum polarity ≠ [] ↔
      (place e = p ∧ polarity ≠ none ∧ t ≠ polarity) ∨ accum ≠ [] := by
  rw [Ne, findOutAllMatchesPolarity_eq_nil, matchAt_eq_none, Classical.not_and_iff_not_or_not,
    Classical.not_imp, Classical.not_imp, not_not, ← and_assoc, and_comm]

theorem misses_of_not_mem {i : ι} {bound : List β} {e : Expr β ι} (h : i ∉ places e) :
    ∀ p ∈ positions bound e, matchAt i p.1 p.2 = none := by
  intro p hp
  rw [matchAt_eq_none]
  exact fun heq => h (heq ▸ mem_places_of_position hp)

theorem looksArith_within (out : Bool) (bound : List β) (e : Expr β ι)
    (polarity : Option Polarity) : Within (places e) (looksArith out bound e polarity) :=
  fun _ _ h => by_contra fun hi => h (arith_misses out polarity (misses_of_not_mem hi)).1

theorem collectsArith_within (bound : List β) (e : Expr β ι) (polarity : Option Polarity) :
    Within (places e) (collectsArith bound e polarity) :=
  fun _ _ h => by_contra fun hi =>
    h (arith_misses false polarity (misses_of_not_mem hi)).2

omit [DecidableEq ι] in
theorem testedArith_within (e : Expr β ι) (polarity : Option Polarity) :
    Within (places e) (tested (polaritiesArith e polarity)) :=
  fun _ _ ⟨_, h, _⟩ => polaritiesArith_subset h

theorem looks_within (out : Bool) (bound : List β) (e : Expr β ι) (polarity : Polarity) :
    Within (places e) (looks out bound e polarity) :=
  fun _ _ h => by_contra fun hi => h (polarity_misses out polarity (misses_of_not_mem hi)).1

theorem collects_within (bound : List β) (e : Expr β ι) (polarity : Polarity) :
    Within (places e) (collects bound e polarity) :=
  fun _ _ h => by_contra fun hi =>
    h (polarity_misses false polarity (misses_of_not_mem hi)).2

omit [DecidableEq ι] in
theorem tested_within (e : Expr β ι) (polarity : Polarity) :
    Within (places e) (tested (polarities e polarity)) :=
  fun _ _ ⟨_, h, _⟩ => polarities_subset h

omit [DecidableEq ι] in
theorem Adds.ne_nil {search : List σ → List σ} {keep : Bool} (h : Adds search keep)
    (accum : List σ) : search accum ≠ [] ↔ search [] ≠ [] ∨ keep = true ∧ accum ≠ [] := by
  rw [h accum]
  cases keep <;> simp [Classical.or_iff_not_imp_left]

theorem collectsArith_ne_nil {bound : List β} {e : Expr β ι} {accum : List Unit}
    {polarity : Option Polarity} {i : ι} {t : Option Polarity} :
    findAllMatchesArithPolarity (matchAt i) t bound e accum polarity ≠ [] ↔
      collectsArith bound e polarity i t ∨ keepsArith e = true ∧ accum ≠ [] :=
  (adds_arith (matchAt i) t bound e polarity).ne_nil accum

theorem collects_ne_nil {bound : List β} {e : Expr β ι} {accum : List Unit} {polarity : Polarity}
    {i : ι} {t : Option Polarity} :
    findAllMatchesPolarity (matchAt i) t bound e accum polarity ≠ [] ↔
      collects bound e polarity i t ∨ keeps e = true ∧ accum ≠ [] :=
  (adds_polarity (matchAt i) t bound e polarity).ne_nil accum

theorem someFindMatch_ne_none {try1 try2 : Option σ} :
    someFindMatch try1 try2 ≠ none ↔ try1 ≠ none ∨ try2 ≠ none := by
  rw [Ne, someFindMatch_eq_none, Classical.not_and_iff_not_or_not]

structure Apart (p : ι) (args1 args2 : Expr β ι) : Prop where
  first : (places args1).Nodup
  second : (places args2).Nodup
  not_first : p ∉ places args1
  not_second : p ∉ places args2
  disjoint : ∀ i ∈ places args1, i ∉ places args2

omit [DecidableEq ι] in
theorem apart {p : ι} {kind : Binary} {operator args1 args2 : Expr β ι}
    (h : (places (.binary p kind operator args1 args2)).Nodup) : Apart p args1 args2 := by
  rw [places_binary, List.nodup_cons, List.nodup_append, List.nodup_append] at h
  obtain ⟨hp, -, ⟨h1, h2, hdisj⟩, -⟩ := h
  simp only [List.mem_append, not_or] at hp
  exact ⟨h1, h2, hp.2.1, hp.2.2, fun i hi hi' => hdisj i hi i hi' rfl⟩

omit [DecidableEq ι] in
theorem nodup_unary {p : ι} {kind : Unary} {operator argument : Expr β ι}
    (h : (places (.unary p kind operator argument)).Nodup) :
    (places argument).Nodup ∧ p ∉ places argument := by
  rw [places_unary, List.nodup_cons, List.nodup_append] at h
  simp only [List.mem_append, not_or] at h
  exact ⟨h.2.2.1, h.1.2⟩

/-! ### The arithmetic arguments -/

omit [DecidableEq ι] in
theorem uniformArith_ne_none {e : Expr β ι} {polarity : Option Polarity}
    (h : UniformArith e polarity) : polarity ≠ none := by
  rintro rfl
  induction e using arith_induction with
  | minus p operator argument ih =>
    rw [UniformArith] at h
    exact ih h
  | greater =>
    rw [UniformArith] at h
    exact h
  | less p operator args1 args2 ih1 ih2 | plus p operator args1 args2 ih1 ih2
  | subMinus p operator args1 args2 ih1 ih2 =>
    rw [UniformArith] at h
    exact ih1 h.1
  | leaf e hleaf => exact (hleaf.uniform none).1 h rfl

omit [DecidableEq ι] in
theorem tested_place (e : Expr β ι) (polarity : Option Polarity) :
    ∃ i t, tested (polaritiesArith e polarity) i t := by
  obtain ⟨t, ht⟩ := exists_ne polarity
  exact ⟨place e, t, polarity, polaritiesArith_place e polarity, ht⟩

theorem sameArith_two {kind : Binary} {p : ι} {operator args1 args2 : Expr β ι} {out : Bool}
    {bound : List β} {polarity polarity1 polarity2 : Option Polarity}
    (h : (places (.binary p kind operator args1 args2)).Nodup)
    (hmatch : ∀ (callMatch : List β → Expr β ι → Option Unit) t,
      findMatchArithPolarity callMatch t out bound (.binary p kind operator args1 args2) polarity =
        findOutMatchPolarity callMatch t out bound (.binary p kind operator args1 args2)
          (someFindMatch (findMatchArithPolarity callMatch t out bound args1 polarity1)
            (findMatchArithPolarity callMatch t out bound args2 polarity2)) polarity)
    (hall : ∀ (callMatch : List β → Expr β ι → Option Unit) t,
      findAllMatchesArithPolarity callMatch t bound (.binary p kind operator args1 args2) []
          polarity =
        findOutAllMatchesPolarity callMatch t bound (.binary p kind operator args1 args2)
          (findAllMatchesArithPolarity callMatch t bound args1
            (findAllMatchesArithPolarity callMatch t bound args2 [] polarity2) polarity1) polarity)
    (htests : polaritiesArith (.binary p kind operator args1 args2) polarity =
      (p, polarity) :: (polaritiesArith args1 polarity1 ++ polaritiesArith args2 polarity2)) :
    Same (looksArith out bound (.binary p kind operator args1 args2) polarity)
        (collectsArith bound (.binary p kind operator args1 args2) polarity)
        (tested (polaritiesArith (.binary p kind operator args1 args2) polarity)) ↔
      polarity ≠ none ∧
        Same (looksArith out bound args1 polarity1) (collectsArith bound args1 polarity1)
          (tested (polaritiesArith args1 polarity1)) ∧
        Same (looksArith out bound args2 polarity2) (collectsArith bound args2 polarity2)
          (tested (polaritiesArith args2 polarity2)) ∧ keepsArith args1 = true := by
  have hapart := apart h
  refine same_two (looksArith_within _ _ _ _) (collectsArith_within _ _ _) (testedArith_within _ _)
    (looksArith_within _ _ _ _) (collectsArith_within _ _ _) (testedArith_within _ _)
    hapart.not_first hapart.not_second hapart.disjoint (tested_place _ _) (fun i t => ?_)
    (fun i t => ?_) (fun i t => ?_)
  · rw [looksArith, hmatch, findOut_ne_none, someFindMatch_ne_none]
    rfl
  · rw [collectsArith, hall, findOutAll_ne_nil, collectsArith_ne_nil]
    rfl
  · rw [htests, tested_cons, tested_append]

theorem sameArith_iff {out : Bool} {bound : List β} {e : Expr β ι} {polarity : Option Polarity}
    (h : (places e).Nodup) :
    Same (looksArith out bound e polarity) (collectsArith bound e polarity)
      (tested (polaritiesArith e polarity)) ↔ UniformArith e polarity := by
  induction e using arith_induction generalizing polarity with
  | minus p operator argument ih =>
    have hnodup := nodup_unary h
    have hlooks (i : ι) (t : Option Polarity) :
        looksArith out bound (.unary p .minus operator argument) polarity i t ↔
          p = i ∧ t ≠ polarity ∨ looksArith out bound argument (polarity.map .toggle) i t := by
      rw [looksArith, findMatchArithPolarity, findOut_ne_none]
      rfl
    have hcollects (i : ι) (t : Option Polarity) :
        collectsArith bound (.unary p .minus operator argument) polarity i t ↔
          (p = i ∧ polarity ≠ none ∧ t ≠ polarity) ∨
            collectsArith bound argument (polarity.map .toggle) i t := by
      rw [collectsArith, findAllMatchesArithPolarity, findOutAll_ne_nil]
      rfl
    have htested (i : ι) (t : Option Polarity) :
        tested (polaritiesArith (.unary p .minus operator argument) polarity) i t ↔
          p = i ∧ t ≠ polarity ∨ tested (polaritiesArith argument (polarity.map .toggle)) i t := by
      rw [polaritiesArith, tested_cons]
    rw [same_one (looksArith_within _ _ _ _) (collectsArith_within _ _ _) (testedArith_within _ _)
      hnodup.2 hlooks hcollects htested, ih hnodup.1, UniformArith, and_iff_right_iff_imp]
    rintro huniform rfl
    exact uniformArith_ne_none huniform rfl
  | less p operator args1 args2 ih1 ih2 =>
    have hapart := apart h
    rw [sameArith_two h (fun _ _ => findMatchArithPolarity.eq_def ..)
      (fun _ _ => findAllMatchesArithPolarity.eq_def ..) (polaritiesArith.eq_def ..), ih1 hapart.first, ih2 hapart.second,
      UniformArith, and_iff_right_iff_imp]
    rintro ⟨huniform, -⟩ rfl
    exact uniformArith_ne_none huniform rfl
  | plus p operator args1 args2 ih1 ih2 | subMinus p operator args1 args2 ih1 ih2 =>
    have hapart := apart h
    rw [sameArith_two h (fun _ _ => findMatchArithPolarity.eq_def ..)
      (fun _ _ => findAllMatchesArithPolarity.eq_def ..) (polaritiesArith.eq_def ..), ih1 hapart.first, ih2 hapart.second,
      UniformArith, and_iff_right_iff_imp]
    exact fun huniform => uniformArith_ne_none huniform.1
  | greater p operator args1 args2 ih1 ih2 =>
    have hapart := apart h
    rw [UniformArith, iff_false]
    intro hsame
    -- the second argument is tested but never looked at
    obtain ⟨t, ht⟩ := exists_ne (arithPolarity polarity .less)
    have htested : tested (polaritiesArith (.binary p .greater operator args1 args2) polarity)
        (place args2) t := by
      rw [polaritiesArith, tested_cons, tested_append]
      exact .inr (.inr ⟨_, polaritiesArith_place args2 _, ht⟩)
    have hplace := place_mem_places args2
    have hlooks := (hsame (place args2) t).1.2 htested
    rw [looksArith, findMatchArithPolarity, findOut_ne_none, someFindMatch_ne_none] at hlooks
    obtain ⟨hown, -⟩ | hlooks | hlooks := hlooks
    · exact hapart.not_second (show place (.binary p .greater operator args1 args2) ∈ _ from
        hown ▸ hplace)
    · exact hapart.disjoint _ (looksArith_within _ _ _ _ _ _ hlooks) hplace
    · exact hapart.disjoint _ (looksArith_within _ _ _ _ _ _ hlooks) hplace
  | leaf e hleaf =>
    rw [hleaf.uniform]
    have hlooks (i : ι) (t : Option Polarity) :
        looksArith out bound e polarity i t ↔ place e = i ∧ t ≠ polarity := by
      rw [looksArith, hleaf.findMatch, findOut_ne_none]
      simp
    have hcollects (i : ι) (t : Option Polarity) :
        collectsArith bound e polarity i t ↔ place e = i ∧ polarity ≠ none ∧ t ≠ polarity := by
      rw [collectsArith, hleaf.findAllMatches, findOutAll_ne_nil]
      simp
    have htested (i : ι) (t : Option Polarity) :
        tested (polaritiesArith e polarity) i t ↔ place e = i ∧ t ≠ polarity := by
      rw [hleaf.polarities, tested_cons]
      simp [tested]
    constructor
    · intro hsame
      obtain ⟨t, ht⟩ := exists_ne polarity
      exact ((hcollects _ t).1 ((hsame (place e) t).2.2 ((htested _ t).2 ⟨rfl, ht⟩))).2.1
    · intro hpolarity i t
      rw [hlooks, hcollects, htested]
      simp [hpolarity]

theorem looksArith_own {out : Bool} {bound : List β} {e : Expr β ι} {polarity t : Option Polarity}
    (ht : t ≠ polarity) : looksArith out bound e polarity (place e) t := by
  induction e using arith_induction with
  | minus | less | greater | plus | subMinus =>
    rw [looksArith, findMatchArithPolarity, findOut_ne_none]
    exact .inl ⟨rfl, ht⟩
  | leaf e hleaf =>
    rw [looksArith, hleaf.findMatch, findOut_ne_none]
    exact .inl ⟨rfl, ht⟩

theorem collectsArith_own {bound : List β} {e : Expr β ι} {polarity t : Option Polarity}
    (hpolarity : polarity ≠ none) (ht : t ≠ polarity) :
    collectsArith bound e polarity (place e) t := by
  induction e using arith_induction with
  | minus | less | greater | plus | subMinus =>
    rw [collectsArith, findAllMatchesArithPolarity, findOutAll_ne_nil]
    exact .inl ⟨rfl, hpolarity, ht⟩
  | leaf e hleaf =>
    rw [collectsArith, hleaf.findAllMatches, findOutAll_ne_nil]
    exact .inl ⟨rfl, hpolarity, ht⟩

/-- The place of an expression is looked at once. -/
theorem collectsArith_not_own {bound : List β} {e : Expr β ι} {polarity : Option Polarity}
    (h : (places e).Nodup) : ¬ collectsArith bound e polarity (place e) polarity := by
  induction e using arith_induction with
  | minus p operator argument =>
    rw [collectsArith, findAllMatchesArithPolarity, findOutAll_ne_nil]
    rintro (⟨-, -, ht⟩ | harg)
    · exact ht rfl
    · exact (nodup_unary h).2 (collectsArith_within _ _ _ _ _ harg)
  | less p operator args1 args2 | greater p operator args1 args2 | plus p operator args1 args2
  | subMinus p operator args1 args2 =>
    have hapart := apart h
    rw [collectsArith, findAllMatchesArithPolarity, findOutAll_ne_nil, collectsArith_ne_nil]
    rintro (⟨-, -, ht⟩ | h1 | ⟨-, h2⟩)
    · exact ht rfl
    · exact hapart.not_first (collectsArith_within _ _ _ _ _ h1)
    · exact hapart.not_second (collectsArith_within _ _ _ _ _ h2)
  | leaf e hleaf =>
    rw [collectsArith, hleaf.findAllMatches, findOutAll_ne_nil]
    simp

/-! ### The formulas -/

theorem collects_not_own {bound : List β} {e : Expr β ι} {polarity : Polarity}
    (h : (places e).Nodup) : ¬ collects bound e polarity (place e) (some polarity) := by
  induction e using polarity_induction with
  | negation p operator argument =>
    rw [collects, findAllMatchesPolarity, findOutAll_ne_nil]
    rintro (⟨-, -, ht⟩ | harg)
    · exact ht rfl
    · exact (nodup_unary h).2 (collects_within _ _ _ _ _ harg)
  | implication p operator args1 args2 =>
    have hapart := apart h
    rw [collects, findAllMatchesPolarity, findOutAll_ne_nil, collects_ne_nil]
    rintro (⟨-, -, ht⟩ | h2 | ⟨-, h1⟩)
    · exact ht rfl
    · exact hapart.not_second (collects_within _ _ _ _ _ h2)
    · exact hapart.not_first (collects_within _ _ _ _ _ h1)
  | conjunction p operator args1 args2 | disjunction p operator args1 args2 =>
    have hapart := apart h
    rw [collects, findAllMatchesPolarity, findOutAll_ne_nil, collects_ne_nil]
    rintro (⟨-, -, ht⟩ | h1 | ⟨-, h2⟩)
    · exact ht rfl
    · exact hapart.not_first (collects_within _ _ _ _ _ h1)
    · exact hapart.not_second (collects_within _ _ _ _ _ h2)
  | binding p bindings expression =>
    rw [places_binding, List.nodup_cons] at h
    rw [collects, findAllMatchesPolarity, findOutAll_ne_nil]
    rintro (⟨-, -, ht⟩ | hexpr)
    · exact ht rfl
    · exact h.1 (collects_within _ _ _ _ _ hexpr)
  | applies e happ =>
    rw [collects, happ.findAllMatches, findOutAll_ne_nil]
    rintro (⟨-, -, ht⟩ | harith)
    · exact ht rfl
    · exact collectsArith_not_own h harith
  | ignores e hign =>
    rw [collects, hign.findAllMatches, findOutAll_ne_nil]
    simp

omit [DecidableEq ι] in
theorem toggle_ne (polarity : Polarity) : polarity.toggle ≠ polarity := by
  cases polarity <;> decide

theorem same_connective {kind : Binary} {p : ι} {operator args1 args2 : Expr β ι} {out : Bool}
    {bound : List β} {polarity : Polarity}
    (h : (places (.binary p kind operator args1 args2)).Nodup)
    (hmatch : ∀ (callMatch : List β → Expr β ι → Option Unit) t,
      findMatchPolarity callMatch t out bound (.binary p kind operator args1 args2) polarity =
        findOutMatchPolarity callMatch t out bound (.binary p kind operator args1 args2)
          (someFindMatch (findMatchPolarity callMatch t out bound args1 polarity)
            (findMatchPolarity callMatch t out bound args2 polarity)) (some polarity))
    (hall : ∀ (callMatch : List β → Expr β ι → Option Unit) t,
      findAllMatchesPolarity callMatch t bound (.binary p kind operator args1 args2) [] polarity =
        findOutAllMatchesPolarity callMatch t bound (.binary p kind operator args1 args2)
          (findAllMatchesPolarity callMatch t bound args1
            (findAllMatchesPolarity callMatch t bound args2 [] polarity) polarity) (some polarity))
    (htests : polarities (.binary p kind operator args1 args2) polarity =
      (p, some polarity) :: (polarities args1 polarity ++ polarities args2 polarity)) :
    Same (looks out bound (.binary p kind operator args1 args2) polarity)
        (collects bound (.binary p kind operator args1 args2) polarity)
        (tested (polarities (.binary p kind operator args1 args2) polarity)) ↔
      Same (looks out bound args1 polarity) (collects bound args1 polarity)
          (tested (polarities args1 polarity)) ∧
        Same (looks out bound args2 polarity) (collects bound args2 polarity)
          (tested (polarities args2 polarity)) ∧ keeps args1 = true := by
  have hapart := apart h
  rw [same_two (looks_within _ _ _ _) (collects_within _ _ _) (tested_within _ _)
    (looks_within _ _ _ _) (collects_within _ _ _) (tested_within _ _) hapart.not_first
    hapart.not_second hapart.disjoint ?_ (fun i t => ?_) (fun i t => ?_) (fun i t => ?_)]
  · exact and_iff_right (Option.some_ne_none polarity)
  · obtain ⟨t, ht⟩ := exists_ne (some polarity)
    exact ⟨place args2, t, some polarity, polarities_place args2 polarity, ht⟩
  · rw [looks, hmatch, findOut_ne_none, someFindMatch_ne_none]
    rfl
  · rw [collects, hall, findOutAll_ne_nil, collects_ne_nil]
    rfl
  · rw [htests, tested_cons, tested_append]

theorem same_iff {out : Bool} {bound : List β} {e : Expr β ι} {polarity : Polarity}
    (h : (places e).Nodup) :
    Same (looks out bound e polarity) (collects bound e polarity)
      (tested (polarities e polarity)) ↔ Uniform e polarity := by
  induction e using polarity_induction generalizing bound polarity with
  | negation p operator argument ih =>
    have hnodup := nodup_unary h
    have hlooks (i : ι) (t : Option Polarity) :
        looks out bound (.unary p .negation operator argument) polarity i t ↔
          p = i ∧ t ≠ some polarity ∨ looks out bound argument polarity.toggle i t := by
      rw [looks, findMatchPolarity, findOut_ne_none]
      rfl
    have hcollects (i : ι) (t : Option Polarity) :
        collects bound (.unary p .negation operator argument) polarity i t ↔
          (p = i ∧ some polarity ≠ none ∧ t ≠ some polarity) ∨
            collects bound argument polarity.toggle i t := by
      rw [collects, findAllMatchesPolarity, findOutAll_ne_nil]
      rfl
    have htested (i : ι) (t : Option Polarity) :
        tested (polarities (.unary p .negation operator argument) polarity) i t ↔
          p = i ∧ t ≠ some polarity ∨ tested (polarities argument polarity.toggle) i t := by
      rw [polarities, tested_cons]
    rw [same_one (looks_within _ _ _ _) (collects_within _ _ _) (tested_within _ _)
      hnodup.2 hlooks hcollects htested, ih hnodup.1, Uniform]
    exact and_iff_right (Option.some_ne_none polarity)
  | implication p operator args1 args2 ih1 ih2 =>
    have hapart := apart h
    rw [Uniform, iff_false]
    intro hsame
    -- the consequent is looked at as if it were the antecedent
    have htested : tested (polarities (.binary p .implication operator args1 args2) polarity)
        (place args2) (some polarity.toggle) := by
      rw [polarities, tested_cons, tested_append]
      exact .inr (.inr ⟨_, polarities_place args2 polarity,
        fun heq => toggle_ne polarity (Option.some.inj heq)⟩)
    have hplace := place_mem_places args2
    have hcollects := (hsame _ _).2.2 htested
    rw [collects, findAllMatchesPolarity, findOutAll_ne_nil, collects_ne_nil] at hcollects
    obtain ⟨hown, -⟩ | hcollects | ⟨-, hcollects⟩ := hcollects
    · exact hapart.not_second (show place (.binary p .implication operator args1 args2) ∈ _ from
        hown ▸ hplace)
    · exact collects_not_own hapart.second hcollects
    · exact hapart.disjoint _ (collects_within _ _ _ _ _ hcollects) hplace
  | conjunction p operator args1 args2 ih1 ih2 | disjunction p operator args1 args2 ih1 ih2 =>
    have hapart := apart h
    rw [same_connective h (fun _ _ => findMatchPolarity.eq_def ..)
      (fun _ _ => findAllMatchesPolarity.eq_def ..) (polarities.eq_def ..), ih1 hapart.first,
      ih2 hapart.second, Uniform]
  | binding p bindings expression ih =>
    rw [places_binding, List.nodup_cons] at h
    have hlooks (i : ι) (t : Option Polarity) :
        looks out bound (.binding p bindings expression) polarity i t ↔
          p = i ∧ t ≠ some polarity ∨ looks out (bindings ++ bound) expression polarity i t := by
      rw [looks, findMatchPolarity, findOut_ne_none]
      rfl
    have hcollects (i : ι) (t : Option Polarity) :
        collects bound (.binding p bindings expression) polarity i t ↔
          (p = i ∧ some polarity ≠ none ∧ t ≠ some polarity) ∨
            collects (bindings ++ bound) expression polarity i t := by
      rw [collects, findAllMatchesPolarity, findOutAll_ne_nil]
      rfl
    have htested (i : ι) (t : Option Polarity) :
        tested (polarities (.binding p bindings expression) polarity) i t ↔
          p = i ∧ t ≠ some polarity ∨ tested (polarities expression polarity) i t := by
      rw [polarities, tested_cons]
    rw [same_one (looks_within _ _ _ _) (collects_within _ _ _) (tested_within _ _)
      h.1 hlooks hcollects htested, ih h.2, Uniform]
    exact and_iff_right (Option.some_ne_none polarity)
  | applies e happ =>
    have hlooks : looks out bound e polarity = looksArith out bound e (some polarity) := by
      funext i t
      rw [looks, happ.findMatch, findOut_ne_none, eq_iff_iff]
      refine ⟨?_, .inr⟩
      rintro (⟨hplace, ht⟩ | hlooks)
      · exact hplace ▸ looksArith_own ht
      · exact hlooks
    have hcollects : collects bound e polarity = collectsArith bound e (some polarity) := by
      funext i t
      rw [collects, happ.findAllMatches, findOutAll_ne_nil, eq_iff_iff]
      refine ⟨?_, .inr⟩
      rintro (⟨hplace, hpol, ht⟩ | hcollects)
      · exact hplace ▸ collectsArith_own hpol ht
      · exact hcollects
    rw [hlooks, hcollects, happ.polarities, sameArith_iff h, happ.uniform]
  | ignores e hign =>
    refine iff_of_false (fun hsame => ?_) (hign.not_uniform polarity)
    have htested (t : Option Polarity) :
        tested (polarities e polarity) (place e) t ↔ t ≠ some polarity := by
      rw [hign.polarities, tested_cons]
      simp [tested]
    have hlooks (t : Option Polarity) : looks out bound e polarity (place e) t ↔
        findMatch (matchAt (place e)) out bound e ≠ none := by
      rw [looks, hign.findMatch]
    have hown := (hsame (place e) (some polarity)).1
    have hnone := (hsame (place e) none).1
    rw [hlooks, htested] at hown hnone
    by_cases hmatch : findMatch (matchAt (place e)) out bound e = none
    · exact hnone.2 (Option.some_ne_none _).symm hmatch
    · exact hown.1 hmatch rfl

/-- The positions are the same in both searches, and each is tested for the templates of another
polarity than its own. -/
def SamePolarities (bound : List β) (e : Expr β ι) (polarity : Polarity) : Prop :=
  ∀ out i template,
    (findMatchPolarity (matchAt i) template out bound e polarity ≠ none ↔
      ∃ test, (i, test) ∈ polarities e polarity ∧ template ≠ test) ∧
    (findAllMatchesPolarity (matchAt i) template bound e [] polarity ≠ [] ↔
      ∃ test, (i, test) ∈ polarities e polarity ∧ template ≠ test)

theorem samePolarities_iff {bound : List β} {e : Expr β ι} {polarity : Polarity}
    (h : (places e).Nodup) : SamePolarities bound e polarity ↔ Uniform e polarity :=
  ⟨fun hsame => (same_iff h).1 (hsame false), fun huniform _ => (same_iff h).2 huniform⟩

/-- The searches agree and look at every position where nothing is left out, and those with
polarities look according to these for the uniform formulas. -/
theorem matches_agree_iff (bound : List β) (e : Expr β ι) (polarity : Polarity)
    (h : (places e).Nodup) :
    ((Agree bound e ∧ LooksEverywhere bound e ∧ CollectsEverywhere bound e) ↔ Plain e) ∧
      (SamePolarities bound e polarity ↔ Uniform e polarity) :=
  ⟨searches_iff bound e, samePolarities_iff h⟩

end Place

/-- `x < y AND p(z)` -/
def relationAndPredicate : Expr Empty Nat :=
  .binary 0 .conjunction (.atom 1) (.binary 2 .less (.atom 3) (.atom 4) (.atom 5))
    (.application 6 (.atom 7) (.cons (.atom 8) .nil))

theorem matches_agree_relationAndPredicate :
    (Agree [] relationAndPredicate ∧ LooksEverywhere [] relationAndPredicate ∧
      CollectsEverywhere [] relationAndPredicate) ∧
      SamePolarities [] relationAndPredicate .positive := by
  have hplaces : (places relationAndPredicate).Nodup := by
    simp [relationAndPredicate, places, positions, place]
  have hiff := matches_agree_iff [] relationAndPredicate .positive hplaces
  exact ⟨hiff.1.2 (by simp [relationAndPredicate, Plain]),
    hiff.2.2 (by simp [relationAndPredicate, Uniform, UniformArith, arithPolarity, keeps,
      keepsArith])⟩

/-- `f WITH [(a) := b]` -/
def overrideArgument : Expr Empty Nat :=
  .update 0 (.atom 1) (.cons (.assignment (.cons (.cons (.atom 2) .nil) .nil) (.atom 3)) .nil)

/-- `x > y` -/
def greaterRelation : Expr Empty Nat := .binary 0 .greater (.atom 1) (.atom 2) (.atom 3)

/-- The argument of an assignment is found by one search only, and the second argument of a `>`
by one of those with polarities. -/
theorem not_matches_agree :
    ¬ Agree [] overrideArgument ∧ ¬ SamePolarities [] greaterRelation .positive := by
  constructor
  · intro h
    have hiff := (h Unit (matchAt 2) false).1
    simp [overrideArgument, findMatch, findOutMatch, someFindMatch, findAllMatches,
      findOutAllMatches, matchAt, place] at hiff
  · intro h
    have hiff := (h false 3 none).1
    simp [greaterRelation, findMatchPolarity, findMatchArithPolarity, findOutMatchPolarity,
      someFindMatch, polarities, polaritiesArith, arithPolarity, matchAt, place] at hiff

end PVS.Prover.Matches
