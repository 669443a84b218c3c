import Mathlib
import PVS.BddPackage.Held
import PVS.Library.DepthFirst

/-! Passes over the nodes below an edge that leave partial results in the fields of the nodes. -/

namespace PVS.BddPackage

open Library

/-! ### Marks and fields -/

/-- `PTR` -/
def BddPtr.ptr (F : BddPtr) : BddPtr := ⟨F.addr, false, false⟩

/-- The fields `aux1` and `aux2` of a node; the second one is not always used. -/
abbrev Fields := BddPtr × Option BddPtr

/-- The nodes that are marked, with their fields -/
abbrev Aux := List (ℕ × Fields)

namespace Aux

def marked (aux : Aux) : List ℕ := aux.map Prod.fst

def fields (aux : Aux) (a : ℕ) : Option Fields := (aux.find? fun e => decide (e.1 = a)).map Prod.snd

end Aux

/-- The nodes that a traversal goes on to -/
def Heap.below (h : Heap) (a : ℕ) : List ℕ :=
  if (h a).varid < bddTermid then [(h a).thenLink.addr, (h a).elseLink.addr] else []

namespace Package

/-- `bdd_free_aux1_and_aux2_action`, or `bdd_free_aux1_action` where the second field is not used -/
def freeFields (σ : Package) (p : Fields) : Option Package :=
  (σ.bddFree p.1).bind fun σ' => p.2.elim (some σ') σ'.bddFree

/-- `bdd_traverse_pre`; the action on the nodes changes no link, so that they are found first. -/
def traverseFree (σ : Package) (aux : Aux) (F : BddPtr) : Option Package :=
  (preorder σ.heap.below aux.length aux.marked F.addr).1.foldlM
    (fun σ' a => (aux.fields a).elim none σ'.freeFields) σ

end Package

/-! ### The passes -/

/-- What a pass does at a node, with an argument that it hands down. -/
structure Pass (A : Type) where
  /-- The argument from a rank on -/
  skip : Store → ℕ → A → A
  stops : Store → BddPtr → A → Bool
  leaf : Package → BddPtr → Option (Fields × Package)
  below : Store → BddPtr → A → A
  fields : Package → Aux → BddPtr → A → Option (Fields × Package)

namespace Pass

variable {A : Type}

/-- A node that is marked is not visited again. -/
def visit (rec : BddPtr → A → Package × Aux → Option (Package × Aux)) (G : BddPtr) (a : A)
    (r : Package × Aux) : Option (Package × Aux) :=
  if G.addr ∈ r.2.marked then some r else rec G a r

/-- A node is marked before those below it are visited, which do not lead back to it. -/
def run (P : Pass A) : ℕ → BddPtr → A → Package × Aux → Option (Package × Aux)
  | 0, _, _, _ => none
  | n + 1, F, a, r =>
    let a' := P.skip r.1.toStore (r.1.rank F) a
    if P.stops r.1.toStore F a' then (P.leaf r.1 F).map fun q => (q.2, (F.addr, q.1) :: r.2)
    else
      (visit (run P n) (r.1.heap.thenLink F) (P.below r.1.toStore F a') r).bind fun r₁ =>
        (visit (run P n) (r.1.heap.elseLink F) (P.below r.1.toStore F a') r₁).bind fun r₂ =>
          (P.fields r₂.1 r₂.2 F a').map fun q => (q.2, (F.addr, q.1) :: r₂.2)

attribute [local simp] run

/-- The pass, what is read from the fields of the top node, and the end of the marks -/
def result (P : Pass A) (read : Package → Aux → BddPtr → Option (BddPtr × Package)) (σ : Package)
    (F : BddPtr) (a : A) : Option (BddPtr × Package) :=
  (P.run (bddTermid + 1) F a (σ, [])).bind fun r =>
    (read r.1 r.2 F).bind fun R => (R.2.traverseFree r.2 F).map fun σ' => (R.1, σ')

end Pass

variable {cfg : Config} {σ₀ σ : Package} {s : Store} {h : Heap} {ext : ℕ → ℤ}
  {own : List (BddPtr × Bdd)} {F G : BddPtr} {f g r : Bdd} {ρ : ℕ → Bool} {v n k : ℕ}

/-! ### Edges without their bits -/

@[simp]
theorem BddPtr.addr_ptr (F : BddPtr) : F.ptr.addr = F.addr := rfl

theorem Store.Alive.ptr (hF : s.Alive cfg ext F) : s.Alive cfg ext F.ptr :=
  ⟨⟨fun _ => rfl, hF.edge.mem, fun h => Bool.noConfusion h⟩, hF.reach⟩

theorem Stands.exists_ptr (hs : σ.Shape cfg) (hF : σ.Alive cfg ext F) :
    ∃ f, Stands cfg σ ext F.ptr f := by
  obtain ⟨f, hf⟩ := hs.exists_denotes hF.ptr.edge
  exact ⟨f, hF.ptr, hf⟩

/-- An edge stands for what its bits make of the diagram of its node. -/
theorem Store.Shape.denotes_turn (hs : s.Shape cfg) (hF : s.IsEdge cfg F)
    (hf : Denotes cfg s.heap F.ptr f) : Denotes cfg s.heap F (f.turn F.inv F.neg) := by
  have hpos : ∀ i : Bool, (i = true → F.inv = true) →
      Denotes cfg s.heap ⟨F.addr, i, false⟩ (if i then f.swap else f) := by
    intro i hi
    cases i with
    | false => exact hf
    | true =>
      have haddr : F.addr ≠ cfg.addr1 := fun h => by
        have hinv := hF.const h
        rw [hi rfl] at hinv
        cases hinv
      obtain ⟨p, n, rfl, hp, hn⟩ := hf.exists_node haddr
      have hF' := hs.termP_eq_false hF haddr
      have hterm : s.heap.termP ⟨F.addr, true, false⟩ = false := hF'
      have hterm' : s.heap.termP F.ptr = false := hF'
      rw [Heap.cofactorPos_eq hterm'] at hp
      rw [Heap.cofactorNeg_eq hterm'] at hn
      rw [if_pos rfl, Bdd.swap]
      refine .node haddr ?_ ?_
      · rw [Heap.cofactorPos_eq hterm]
        exact hn
      · rw [Heap.cofactorNeg_eq hterm]
        exact hp
  have h := hpos F.inv id
  unfold Bdd.turn
  cases hneg : F.neg with
  | false => rwa [← hneg] at h
  | true =>
    rw [if_pos rfl]
    have hcompl := h.compl
    have heq : (⟨F.addr, F.inv, false⟩ : BddPtr).compl = F := by
      rw [BddPtr.compl]
      exact congrArg (BddPtr.mk F.addr F.inv) hneg.symm
    rwa [heq] at hcompl

/-! ### What a pass does -/

/-- A node that was visited, and what its fields stand for -/
structure Visited where
  addr : ℕ
  diagram : Bdd
  first : BddPtr × Bdd
  second : Option (BddPtr × Bdd)

namespace Visited

def entry (x : Visited) : ℕ × Fields := (x.addr, x.first.1, x.second.map Prod.fst)

def owned (x : Visited) : List (BddPtr × Bdd) := x.first :: x.second.toList

/-- The fields are right for the diagram of the node. -/
structure Ok (cfg : Config) (σ₀ : Package) (ext : ℕ → ℤ) (M : Bdd → Bdd → Option Bdd → Prop)
    (x : Visited) : Prop where
  stands : Stands cfg σ₀ ext ⟨x.addr, false, false⟩ x.diagram
  meets : M x.diagram x.first.2 (x.second.map Prod.snd)

end Visited

/-- The fields of a node were computed. -/
def Gives (cfg : Config) (σ₀ : Package) (ext : ℕ → ℤ) (M : Bdd → Bdd → Option Bdd → Prop)
    (own : List (BddPtr × Bdd)) (F : BddPtr) (f : Bdd) (o : Option (Fields × Package)) : Prop :=
  ∃ (q : Fields × Package) (x : Visited), o = some q ∧ x.entry = (F.addr, q.1) ∧ x.diagram = f ∧
    M f x.first.2 (x.second.map Prod.snd) ∧ Holds cfg σ₀ ext (x.owned ++ own) q.2

/-- The state of a pass that began in `σ₀` -/
structure Passing (cfg : Config) (σ₀ : Package) (ext : ℕ → ℤ) (M : Bdd → Bdd → Option Bdd → Prop)
    (visited : List Visited) (r : Package × Aux) : Prop where
  aux : r.2 = visited.map Visited.entry
  holds : Holds cfg σ₀ ext (visited.flatMap Visited.owned) r.1
  ok : ∀ x ∈ visited, x.Ok cfg σ₀ ext M
  nodup : (visited.map Visited.addr).Nodup

/-- What the parts of a pass are to do; `Valid` holds of the arguments for nodes from a rank on, `Ready`
of those at a node. -/
structure PassSpec {A : Type} (P : Pass A) (cfg : Config) (σ₀ : Package) (ext : ℕ → ℤ)
    (M : Bdd → Bdd → Option Bdd → Prop) (Valid Ready : ℕ → A → Prop) : Prop where
  mono : ∀ {j k : ℕ} {a : A}, Valid j a → j ≤ k → Valid k a
  skip : ∀ {s : Store} {k : ℕ} {a : A}, s.ranks = σ₀.ranks → Valid k a → Ready k (P.skip s k a)
  leaf : ∀ {σ : Package} {own : List (BddPtr × Bdd)} {F : BddPtr} {f : Bdd} {a : A},
    Holds cfg σ₀ ext own σ → Stands cfg σ₀ ext F.ptr f → Ready (σ₀.rank F) a →
      P.stops σ.toStore F a = true → Gives cfg σ₀ ext M own F f (P.leaf σ F)
  below : ∀ {σ : Package} {own : List (BddPtr × Bdd)} {F : BddPtr} {f : Bdd} {a : A},
    Holds cfg σ₀ ext own σ → Stands cfg σ₀ ext F.ptr f → Ready (σ₀.rank F) a →
      P.stops σ.toStore F a = false →
        F.addr ≠ cfg.addr1 ∧ Valid (σ₀.rank F + 1) (P.below σ.toStore F a)
  fields : ∀ {r : Package × Aux} {visited : List Visited} {F : BddPtr} {f : Bdd} {a : A},
    Passing cfg σ₀ ext M visited r → Stands cfg σ₀ ext F.ptr f → Ready (σ₀.rank F) a →
      F.addr ≠ cfg.addr1 →
        (∃ σ own, Holds cfg σ₀ ext own σ ∧ P.stops σ.toStore F a = false) →
        (σ₀.heap.thenLink F).addr ∈ visited.map Visited.addr →
        (σ₀.heap.elseLink F).addr ∈ visited.map Visited.addr →
          Gives cfg σ₀ ext M (visited.flatMap Visited.owned) F f (P.fields r.1 r.2 F a)

section Run

variable {A : Type} {P : Pass A} {M : Bdd → Bdd → Option Bdd → Prop} {Valid Ready : ℕ → A → Prop}
  {a : A} {visited : List Visited} {q : Package × Aux}

theorem Passing.marked (h : Passing cfg σ₀ ext M visited q) :
    q.2.marked = visited.map Visited.addr := by
  rw [h.aux, Aux.marked, List.map_map]
  rfl

/-- A pass from `F` has visited the nodes `new`. -/
structure Reaches (σ₀ : Package) (visited new : List Visited) (F : BddPtr) : Prop where
  mem : F.addr ∈ (new ++ visited).map Visited.addr
  rank : ∀ x ∈ new, σ₀.rank F ≤ σ₀.rank ⟨x.addr, false, false⟩
  within : ∀ x ∈ new, Within σ₀.heap.below ((new ++ visited).map Visited.addr) F.addr x.addr

theorem Passing.push (h : Passing cfg σ₀ ext M visited q) {p : Fields × Package} {x : Visited}
    (hF : Stands cfg σ₀ ext F.ptr f) (hentry : x.entry = (F.addr, p.1)) (hdiagram : x.diagram = f)
    (hmeets : M f x.first.2 (x.second.map Prod.snd))
    (hholds : Holds cfg σ₀ ext (x.owned ++ visited.flatMap Visited.owned) p.2)
    (hmem : F.addr ∉ visited.map Visited.addr) :
    Passing cfg σ₀ ext M (x :: visited) (p.2, (F.addr, p.1) :: q.2) := by
  have haddr : x.addr = F.addr := congrArg Prod.fst hentry
  constructor
  · rw [List.map_cons, hentry, h.aux]
  · rw [List.flatMap_cons]
    exact hholds
  · intro y hy
    rcases List.mem_cons.1 hy with rfl | hy
    · refine ⟨?_, hdiagram ▸ hmeets⟩
      rw [hdiagram, haddr]
      exact hF
    · exact h.ok y hy
  · rw [List.map_cons, List.nodup_cons, haddr]
    exact ⟨hmem, h.nodup⟩

variable (hP : PassSpec P cfg σ₀ ext M Valid Ready) (hs : σ₀.Shape cfg)
include hs

theorem link_spec (hF : Stands cfg σ₀ ext F.ptr f) (haddr : F.addr ≠ cfg.addr1)
    (hlink : G = σ₀.heap.thenLink F ∨ G = σ₀.heap.elseLink F) :
    σ₀.Alive cfg ext G ∧ σ₀.rank F < σ₀.rank G ∧ G.addr ∈ σ₀.heap.below F.addr := by
  have hnode := hs.nodeShape (F := F.ptr) hF.alive.edge haddr
  have hreach := hF.alive.reach.resolve_left haddr
  have hvarid : σ₀.heap.varid F < bddTermid := 
    (hs.varid_lt (F := F.ptr) hF.alive.edge haddr).trans_le hs.count_le
  have hrank : σ₀.rank F = σ₀.ranks (σ₀.heap F.addr).varid :=
    hs.rank_eq (F := F.ptr) hF.alive.edge haddr
  have hbelow : σ₀.heap.below F.addr =
      [(σ₀.heap F.addr).thenLink.addr, (σ₀.heap F.addr).elseLink.addr] := if_pos hvarid
  rw [hrank, hbelow]
  rcases hlink with rfl | rfl
  · exact ⟨⟨hnode.thenEdge, .inr (hreach.thenLink haddr)⟩, hnode.rank_then, by simp [Heap.thenLink]⟩
  · exact ⟨⟨hnode.elseEdge, .inr (hreach.elseLink haddr)⟩, hnode.rank_else, by simp [Heap.elseLink]⟩

include hP

theorem run_spec {n k : ℕ} (hn : bddTermid < n + k) (hk : k ≤ σ₀.rank F)
    (hF : Stands cfg σ₀ ext F.ptr f) (ha : Valid (σ₀.rank F) a)
    (h : Passing cfg σ₀ ext M visited q) (hmem : F.addr ∉ visited.map Visited.addr) :
    ∃ new q', P.run n F a q = some q' ∧ Passing cfg σ₀ ext M (new ++ visited) q' ∧
      Reaches σ₀ visited new F := by
  induction n generalizing F f a visited q k with
  | zero =>
    have hle : σ₀.rank F ≤ bddTermid := hs.rank_le (F := F.ptr) hF.alive.edge
    omega
  | succ n ih =>
    have hrank : q.1.rank F = σ₀.rank F := h.holds.base_rank (F := F.ptr) hF
    have hheap : q.1.heap F.addr = σ₀.heap F.addr := h.holds.keeps.heap _ hF.alive.reach
    have hready := hP.skip h.holds.ranks ha
    have hreachself : ∀ marked : List ℕ, F.addr ∈ marked →
        Within σ₀.heap.below marked F.addr F.addr := fun _ hin => .refl hin
    rw [Pass.run, hrank]
    cases hstops : P.stops q.1.toStore F (P.skip q.1.toStore (σ₀.rank F) a) with
    | true =>
      obtain ⟨p, x, hleaf, hentry, hdiagram, hmeets, hholds⟩ := hP.leaf h.holds hF hready hstops
      have haddr : x.addr = F.addr := congrArg Prod.fst hentry
      refine ⟨[x], _, by rw [if_pos rfl, hleaf]; rfl,
        h.push hF hentry hdiagram hmeets hholds hmem, ?_, fun y hy => ?_, fun y hy => ?_⟩
      · simp [haddr]
      · obtain rfl := List.mem_singleton.1 hy
        rw [haddr]
        exact le_rfl
      · obtain rfl := List.mem_singleton.1 hy
        rw [haddr]
        exact hreachself _ (by simp [haddr])
    | false =>
      obtain ⟨haddr, hbelow⟩ := hP.below h.holds hF hready hstops
      rw [if_neg (by simp)]
      have hthen : q.1.heap.thenLink F = σ₀.heap.thenLink F := congrArg Node.thenLink hheap
      have helse : q.1.heap.elseLink F = σ₀.heap.elseLink F := congrArg Node.elseLink hheap
      rw [hthen, helse]
      set b := P.below q.1.toStore F (P.skip q.1.toStore (σ₀.rank F) a) with hb
      -- a branch is visited, whatever was visited before
      have hvisit : ∀ {visited : List Visited} {q : Package × Aux} {G : BddPtr},
          G = σ₀.heap.thenLink F ∨ G = σ₀.heap.elseLink F → Passing cfg σ₀ ext M visited q →
          ∃ new q', Pass.visit (P.run n) G b q = some q' ∧
            Passing cfg σ₀ ext M (new ++ visited) q' ∧ Reaches σ₀ visited new G := by
        intro visited q G hG h
        obtain ⟨halive, hlt, _⟩ := link_spec hs hF haddr hG
        unfold Pass.visit
        split
        · rename_i hin
          rw [h.marked] at hin
          exact ⟨[], q, rfl, h, by simpa using hin, by simp, by simp⟩
        · rename_i hnot
          rw [h.marked] at hnot
          obtain ⟨g, hg⟩ := Stands.exists_ptr hs halive
          exact ih (k := σ₀.rank F + 1) (by omega) hlt hg (hP.mono hbelow hlt) h hnot
      obtain ⟨new₁, q₁, hq₁, h₁, hr₁⟩ := hvisit (.inl rfl) h
      obtain ⟨new₂, q₂, hq₂, h₂, hr₂⟩ := hvisit (.inr rfl) h₁
      have hlt₁ := (link_spec hs hF haddr (.inl rfl)).2
      have hlt₂ := (link_spec hs hF haddr (.inr rfl)).2
      have hrankF : σ₀.rank ⟨F.addr, false, false⟩ = σ₀.rank F := rfl
      have hnotin : F.addr ∉ (new₂ ++ (new₁ ++ visited)).map Visited.addr := by
        rw [List.map_append, List.map_append, List.mem_append, List.mem_append]
        rintro (hin | hin | hin)
        · obtain ⟨x, hx, hxF⟩ := List.mem_map.1 hin
          have hle := hr₂.rank x hx
          rw [hxF, hrankF] at hle
          omega
        · obtain ⟨x, hx, hxF⟩ := List.mem_map.1 hin
          have hle := hr₁.rank x hx
          rw [hxF, hrankF] at hle
          omega
        · exact hmem hin
      have hT : (σ₀.heap.thenLink F).addr ∈ (new₂ ++ (new₁ ++ visited)).map Visited.addr := by
        rw [List.map_append]
        exact List.mem_append_right _ hr₁.mem
      obtain ⟨p, x, hfields, hentry, hdiagram, hmeets, hholds⟩ :=
        hP.fields h₂ hF hready haddr ⟨_, _, h.holds, hstops⟩ hT hr₂.mem
      have hxF : x.addr = F.addr := congrArg Prod.fst hentry
      refine ⟨x :: (new₂ ++ new₁), _, by rw [hq₁, Option.bind_some, hq₂, Option.bind_some, hfields]; rfl,
        ?_, ?_, fun y hy => ?_, fun y hy => ?_⟩
      · rw [List.cons_append, List.append_assoc]
        exact h₂.push hF hentry hdiagram hmeets hholds hnotin
      · simp [hxF]
      · rcases List.mem_cons.1 hy with rfl | hy
        · rw [hxF]
          exact le_rfl
        · rcases List.mem_append.1 hy with hy | hy
          · exact hlt₂.1.le.trans (hr₂.rank y hy)
          · exact hlt₁.1.le.trans (hr₁.rank y hy)
      · have hFin : F.addr ∈ (x :: (new₂ ++ new₁) ++ visited).map Visited.addr := by simp [hxF]
        rcases List.mem_cons.1 hy with rfl | hy
        · rw [hxF]
          exact .refl hFin
        · rcases List.mem_append.1 hy with hy | hy
          · refine .step hFin hlt₂.2 ((hr₂.within y hy).mono fun c hc => ?_)
            simp only [List.map_append, List.mem_append, List.map_cons, List.mem_cons] at hc ⊢
            tauto
          · refine .step hFin hlt₁.2 ((hr₁.within y hy).mono fun c hc => ?_)
            simp only [List.map_append, List.mem_append, List.map_cons, List.mem_cons] at hc ⊢
            tauto

end Run

/-! ### The fields are read and freed -/

theorem Passing.lookup {M : Bdd → Bdd → Option Bdd → Prop} {visited : List Visited} {q : Package × Aux}
    (h : Passing cfg σ₀ ext M visited q) {a : ℕ} (ha : a ∈ visited.map Visited.addr) :
    ∃ x ∈ visited, x.addr = a ∧ q.2.fields a = some x.entry.2 := by
  have hnodup := h.nodup
  rw [h.aux]
  clear h
  induction visited with
  | nil => cases ha
  | cons y visited ih =>
    rw [List.map_cons, List.nodup_cons] at hnodup
    rw [Aux.fields, List.map_cons, List.find?_cons]
    by_cases hy : y.entry.1 = a
    · exact ⟨y, List.mem_cons_self, hy, by simp [hy]⟩
    · have hne : ¬a = y.addr := Ne.symm hy
      obtain ⟨x, hx, hxa, hfields⟩ := ih ((List.mem_cons.1 ha).resolve_left hne) hnodup.2
      refine ⟨x, List.mem_cons_of_mem _ hx, hxa, ?_⟩
      rw [decide_eq_false hy]
      exact hfields

theorem Holds.freeFields {x : Visited} (h : Holds cfg σ₀ ext (x.owned ++ own) σ) :
    ∃ σ', σ.freeFields x.entry.2 = some σ' ∧ Holds cfg σ₀ ext own σ' := by
  obtain ⟨σ₁, hfree₁, h₁⟩ := h.free (.refl ((x.first.1, x.first.2) :: (x.second.toList ++ own)))
  have hfirst : σ.bddFree x.entry.2.1 = some σ₁ := hfree₁
  rw [Package.freeFields, hfirst, Option.bind_some]
  cases hsecond : x.second with
  | none =>
    rw [hsecond] at h₁
    exact ⟨σ₁, by rw [Visited.entry, hsecond]; rfl, h₁⟩
  | some e =>
    rw [hsecond] at h₁
    obtain ⟨σ₂, hfree₂, h₂⟩ := h₁.free (.refl ((e.1, e.2) :: own))
    exact ⟨σ₂, by rw [Visited.entry, hsecond]; exact hfree₂, h₂⟩

/-- The traversal frees the fields of all nodes that were visited. -/
theorem Passing.traverseFree {M : Bdd → Bdd → Option Bdd → Prop} {visited : List Visited}
    {q : Package × Aux} (h : Passing cfg σ₀ ext M visited q) (hF : F.addr ∈ visited.map Visited.addr)
    (hwithin : ∀ a ∈ visited.map Visited.addr,
      Within σ₀.heap.below (visited.map Visited.addr) F.addr a)
    (hσ : Holds cfg σ₀ ext (visited.flatMap Visited.owned ++ own) σ) :
    ∃ σ', σ.traverseFree q.2 F = some σ' ∧ Holds cfg σ₀ ext own σ' := by
  have hsucc : ∀ a ∈ visited.map Visited.addr, σ.heap.below a = σ₀.heap.below a := by
    intro a ha
    obtain ⟨x, hx, rfl⟩ := List.mem_map.1 ha
    rw [Heap.below, hσ.keeps.heap _ (h.ok x hx).stands.alive.reach, Heap.below]
  have hreach : ∀ a ∈ visited.map Visited.addr,
      Within σ.heap.below (visited.map Visited.addr) F.addr a :=
    fun a ha => (hwithin a ha).congr hsucc
  have hperm := perm_preorder h.nodup hF hreach
  have hlen : q.2.length = (visited.map Visited.addr).length := by
    rw [h.aux, List.length_map, List.length_map]
  -- the nodes that are left hold their fields
  have hfold : ∀ (order : List ℕ) (left : List Visited) {σ : Package}, left ⊆ visited →
      order.Perm (left.map Visited.addr) →
      Holds cfg σ₀ ext (left.flatMap Visited.owned ++ own) σ →
      ∃ σ', order.foldlM (fun σ' a => (q.2.fields a).elim none σ'.freeFields) σ = some σ' ∧
        Holds cfg σ₀ ext own σ' := by
    intro order
    induction order with
    | nil =>
      intro left σ _ hperm hσ
      have hleft : left = [] := List.map_eq_nil_iff.1 (List.nil_perm.1 hperm)
      subst hleft
      exact ⟨σ, rfl, hσ⟩
    | cons a order ih =>
      intro left σ hsub hperm hσ
      obtain ⟨x, hx, rfl⟩ := List.mem_map.1 (hperm.mem_iff.1 List.mem_cons_self)
      obtain ⟨l₁, l₂, rfl⟩ := List.append_of_mem hx
      have hmiddle : (l₁ ++ x :: l₂).Perm (x :: (l₁ ++ l₂)) := List.perm_middle
      have hσ' := hσ.perm ((hmiddle.flatMap_right Visited.owned).append_right own)
      rw [List.flatMap_cons, List.append_assoc] at hσ'
      obtain ⟨σ₁, hfree, h₁⟩ := hσ'.freeFields
      have hin := hsub hx
      obtain ⟨y, hy, hyx, hfields⟩ := h.lookup (List.mem_map_of_mem (f := Visited.addr) hin)
      obtain rfl := List.inj_on_of_nodup_map h.nodup hy hin hyx
      have hperm' : order.Perm ((l₁ ++ l₂).map Visited.addr) := by
        have htail := hperm.trans (hmiddle.map Visited.addr)
        rw [List.map_cons] at htail
        exact (List.perm_cons _).1 htail
      obtain ⟨σ₂, hrest, h₂⟩ := ih (l₁ ++ l₂) (fun z hz => hsub (hmiddle.symm.subset
        (List.mem_cons_of_mem _ hz))) hperm' h₁
      refine ⟨σ₂, ?_, h₂⟩
      rw [List.foldlM_cons, hfields]
      exact (congrArg (· >>= _) hfree).trans hrest
  rw [Package.traverseFree, h.marked, hlen]
  exact hfold _ visited (List.Subset.refl _) hperm hσ

/-- A pass returns what is read from the fields of the top node. -/
theorem PassSpec.result {A : Type} {P : Pass A} {M : Bdd → Bdd → Option Bdd → Prop}
    {Valid Ready : ℕ → A → Prop} {a : A} {read : Package → Aux → BddPtr → Option (BddPtr × Package)}
    {Q : Bdd → Prop} (hP : PassSpec P cfg σ₀ ext M Valid Ready) (hi : σ₀.Inv cfg ext)
    (hF : σ₀.Alive cfg ext F) (ha : Valid (σ₀.rank F) a)
    (hread : ∀ {visited : List Visited} {q : Package × Aux}, Passing cfg σ₀ ext M visited q →
      F.addr ∈ visited.map Visited.addr → ∃ R r, read q.1 q.2 F = some R ∧ Q r ∧
        Holds cfg σ₀ ext ((R.1, r) :: visited.flatMap Visited.owned) R.2) :
    ∃ q, P.result read σ₀ F a = some q ∧ Returns cfg σ₀ ext Q q := by
  obtain ⟨f, hf⟩ := Stands.exists_ptr hi.shape hF
  have hstart : Passing cfg σ₀ ext M [] (σ₀, []) :=
    ⟨rfl, .start hi, fun _ hx => absurd hx List.not_mem_nil, List.nodup_nil⟩
  obtain ⟨new, q, hrun, h, hreach⟩ := run_spec (n := bddTermid + 1) (k := 0) hP hi.shape (by omega)
    (Nat.zero_le _) hf ha hstart List.not_mem_nil
  rw [List.append_nil] at h
  have hmem := hreach.mem
  rw [List.append_nil] at hmem
  obtain ⟨R, r, hR, hr, hholds⟩ := hread h hmem
  have hcomm : ((R.1, r) :: new.flatMap Visited.owned).Perm
      (new.flatMap Visited.owned ++ [(R.1, r)]) := @List.perm_append_comm _ [(R.1, r)] _
  obtain ⟨σ', hfree, h'⟩ := h.traverseFree hmem (fun a ha => by
    obtain ⟨x, hx, rfl⟩ := List.mem_map.1 ha
    have hw := hreach.within x hx
    rwa [List.append_nil] at hw) (hholds.perm hcomm)
  refine ⟨(R.1, σ'), ?_, h'.finish rfl hr⟩
  rw [Pass.result, hrun, Option.bind_some, hR, Option.bind_some, hfree]
  rfl

end PVS.BddPackage
