import Mathlib.Logic.Relation
import Scheme.Interpreter
/-!
# Nested scopes

Scopes are shared: every closure keeps the one it was made in, and definitions and assignments go
on changing all of them. Whatever is done to a family of scopes that has grown from a root, each
scope keeps its chain of scopes out to the root. A change therefore shows exactly where it should:
an assignment in the scopes that have the same nearest binding of the name, a definition in the
scopes from which nothing nearer hides it.
-/

namespace Scheme

namespace Heap

/-- What a scope itself binds a name to. -/
def binding? (h : Heap) (f : Ref .scope) (n : Symbol) : Option Value :=
  (h.scope f).bindings[n.name]?

/-- The scopes from one outward to one that has no parent, the nearest first. -/
inductive Chain (h : Heap) : Ref .scope → List (Ref .scope) → Prop
  | outermost {f : Ref .scope} (hf : (h.scope f).parent = none) : Chain h f [f]
  | inner {f parent : Ref .scope} {around : List (Ref .scope)}
      (hf : (h.scope f).parent = some parent) (haround : Chain h parent around) :
      Chain h f (f :: around)

/-- The scope `f` is on the chain of `g`, and no scope nearer to `g` binds the name. -/
def Exposed (h : Heap) (n : Symbol) (g f : Ref .scope) : Prop :=
  ∃ nearer farther, h.Chain g (nearer ++ f :: farther) ∧ ∀ s ∈ nearer, h.binding? s n = none

/-- The scope `f` is the nearest one of `g` that binds the name. -/
def Nearest (h : Heap) (n : Symbol) (g f : Ref .scope) : Prop :=
  h.Exposed n g f ∧ h.binding? f n ≠ none

/-- What a name stands for in a scope. -/
def read? (h : Heap) (n : Symbol) (g : Ref .scope) : Option Value :=
  (h.locate? n g).map Prod.snd

variable {h h' : Heap} {root f g parent owner : Ref .scope} {frames : List (Ref .scope)}
  {n m : Symbol} {v : Value}

theorem Chain.exists_cons {chain : List (Ref .scope)} (hchain : h.Chain f chain) :
    ∃ around, chain = f :: around := by
  cases hchain with
  | outermost => exact ⟨[], rfl⟩
  | inner _ => exact ⟨_, rfl⟩

theorem chain_cons_of_outermost (hg : (h.scope g).parent = none) {s : Ref .scope}
    {around : List (Ref .scope)} : h.Chain g (s :: around) ↔ s = g ∧ around = [] := by
  constructor
  · rintro (_ | hparent)
    · exact ⟨rfl, rfl⟩
    · simp [hg] at hparent
  · rintro ⟨rfl, rfl⟩
    exact .outermost hg

theorem chain_cons_of_parent (hg : (h.scope g).parent = some parent) {s : Ref .scope}
    {around : List (Ref .scope)} : h.Chain g (s :: around) ↔ s = g ∧ h.Chain parent around := by
  constructor
  · rintro (hnone | ⟨hparent, haround⟩)
    · simp [hg] at hnone
    · rw [hg] at hparent
      cases hparent
      exact ⟨rfl, haround⟩
  · rintro ⟨rfl, haround⟩
    exact .inner hg haround

theorem Chain.transfer {chain : List (Ref .scope)} (hchain : h.Chain f chain)
    (hparents : ∀ s ∈ chain, (h'.scope s).parent = (h.scope s).parent) : h'.Chain f chain := by
  induction hchain with
  | outermost hf => exact .outermost (by rw [hparents _ (by simp), hf])
  | inner hf _ ih =>
      exact .inner (by rw [hparents _ (by simp), hf]) (ih fun s hs => hparents s (by simp [hs]))

/-- Without a parent there is only the scope itself. -/
theorem exposed_iff_of_outermost (hg : (h.scope g).parent = none) : h.Exposed n g f ↔ g = f := by
  constructor
  · rintro ⟨nearer, farther, hchain, -⟩
    cases nearer with
    | nil => exact ((chain_cons_of_outermost hg).1 hchain).1.symm
    | cons s nearer => simp [chain_cons_of_outermost hg] at hchain
  · rintro rfl
    exact ⟨[], [], .outermost hg, by simp⟩

/-- Another scope is seen through the parent, if the scope itself does not bind the name. -/
theorem exposed_iff_of_parent (hg : (h.scope g).parent = some parent) (hne : g ≠ f) :
    h.Exposed n g f ↔ h.binding? g n = none ∧ h.Exposed n parent f := by
  constructor
  · rintro ⟨nearer, farther, hchain, hnearer⟩
    cases nearer with
    | nil => exact absurd ((chain_cons_of_parent hg).1 hchain).1.symm hne
    | cons s nearer =>
        obtain ⟨rfl, haround⟩ := (chain_cons_of_parent hg).1 hchain
        exact ⟨hnearer s (by simp), nearer, farther, haround, fun t ht => hnearer t (by simp [ht])⟩
  · rintro ⟨hnone, nearer, farther, hchain, hnearer⟩
    exact ⟨g :: nearer, farther, .inner hg hchain, by simpa [hnone] using hnearer⟩

theorem locate?_of_binding (hbinding : h.binding? g n = some v) :
    h.locate? n g = some (g, v) := by
  have hb : (h.scope g).bindings[n.name]? = some v := hbinding
  simp [locate?, locateWithin, hb]

theorem locate?_of_outermost (hg : (h.scope g).parent = none) (hbinding : h.binding? g n = none) :
    h.locate? n g = none := by
  have hb : (h.scope g).bindings[n.name]? = none := hbinding
  simp [locate?, locateWithin, hb, hg]

theorem read?_of_binding (hbinding : h.binding? g n = some v) : h.read? n g = some v := by
  rw [read?, locate?_of_binding hbinding]
  rfl

/-! ## Families of scopes -/

/-- The scopes lie inside one another: each but the root has a parent among them that is older. -/
structure Nest (h : Heap) (root : Ref .scope) (frames : List (Ref .scope)) : Prop where
  present : ∀ f ∈ frames, f.index < h.scopes.size
  root_mem : root ∈ frames
  root_outermost : (h.scope root).parent = none
  parent_mem : ∀ f ∈ frames, f ≠ root →
    ∃ parent ∈ frames, (h.scope f).parent = some parent ∧ parent.index < f.index

namespace Nest

/-- What holds of the root and passes from a parent to the scopes in it holds of them all. -/
theorem induction {P : Ref .scope → Prop} (hnest : h.Nest root frames) (hroot : P root)
    (hinner : ∀ g ∈ frames, ∀ parent ∈ frames, (h.scope g).parent = some parent →
      parent.index < g.index → P parent → P g) (hg : g ∈ frames) : P g := by
  induction hindex : g.index using Nat.strongRecOn generalizing g with
  | ind i ih =>
      by_cases hr : g = root
      · exact hr ▸ hroot
      · obtain ⟨parent, hmem, hparent, hlt⟩ := hnest.parent_mem g hg hr
        exact hinner g hg parent hmem hparent hlt (ih _ (hindex ▸ hlt) hmem rfl)

/-- Every scope of the family has a chain, through the family out to the root. -/
theorem exists_chain (hnest : h.Nest root frames) (hg : g ∈ frames) :
    ∃ chain, h.Chain g chain ∧ chain.getLast? = some root ∧ chain ⊆ frames := by
  refine hnest.induction (P := fun g => ∃ chain, h.Chain g chain ∧ chain.getLast? = some root ∧
    chain ⊆ frames) ?_ ?_ hg
  · exact ⟨[root], .outermost hnest.root_outermost, rfl, by simpa using hnest.root_mem⟩
  · rintro g hg parent - hparent - ⟨chain, hchain, hlast, hsub⟩
    refine ⟨g :: chain, .inner hparent hchain, ?_, by simp [hg, hsub]⟩
    obtain ⟨around, rfl⟩ := hchain.exists_cons
    simpa using hlast

theorem exposed_self (hnest : h.Nest root frames) (hg : g ∈ frames) : h.Exposed n g g := by
  obtain ⟨chain, hchain, -⟩ := hnest.exists_chain hg
  obtain ⟨around, rfl⟩ := hchain.exists_cons
  exact ⟨[], around, hchain, by simp⟩

/-- A budget above the position of a scope never runs out on its chain. -/
theorem locateWithin_eq (hnest : h.Nest root frames) (hg : g ∈ frames) {budget : Nat}
    (hbudget : g.index < budget) : h.locateWithin n budget g = h.locate? n g := by
  revert budget
  refine hnest.induction (P := fun g => ∀ {budget}, g.index < budget →
    h.locateWithin n budget g = h.locate? n g) ?_ ?_ hg
  · intro budget hbudget
    obtain ⟨budget, rfl⟩ : ∃ b, budget = b + 1 := ⟨budget - 1, by omega⟩
    simp [locate?, locateWithin, hnest.root_outermost]
  · intro g _ parent _ hparent hlt ih budget hbudget
    obtain ⟨budget, rfl⟩ : ∃ b, budget = b + 1 := ⟨budget - 1, by omega⟩
    simp only [locate?, locateWithin, hparent]
    rw [ih (by omega), ih hlt]

theorem locate?_of_parent (hnest : h.Nest root frames) (hmem : parent ∈ frames)
    (hparent : (h.scope g).parent = some parent) (hlt : parent.index < g.index)
    (hbinding : h.binding? g n = none) : h.locate? n g = h.locate? n parent := by
  have hb : (h.scope g).bindings[n.name]? = none := hbinding
  rw [locate?, locateWithin]
  simp only [hb, hparent]
  exact hnest.locateWithin_eq hmem hlt

/-- The scope located is the nearest one that binds the name. -/
theorem locate?_eq_some_iff (hnest : h.Nest root frames) (hg : g ∈ frames) :
    h.locate? n g = some (owner, v) ↔ h.Exposed n g owner ∧ h.binding? owner n = some v := by
  refine hnest.induction (P := fun g => h.locate? n g = some (owner, v) ↔
    h.Exposed n g owner ∧ h.binding? owner n = some v) ?_ ?_ hg
  · rw [exposed_iff_of_outermost hnest.root_outermost]
    cases hbinding : h.binding? root n with
    | none =>
        rw [locate?_of_outermost hnest.root_outermost hbinding]
        refine ⟨nofun, ?_⟩
        rintro ⟨rfl, hv⟩
        simp [hbinding] at hv
    | some u =>
        rw [locate?_of_binding hbinding]
        refine ⟨?_, ?_⟩
        · rintro ⟨⟩
          exact ⟨rfl, hbinding⟩
        · rintro ⟨rfl, hv⟩
          rw [hbinding] at hv
          cases hv
          rfl
  · intro g hg parent hmem hparent hlt ih
    cases hbinding : h.binding? g n with
    | none =>
        rw [hnest.locate?_of_parent hmem hparent hlt hbinding, ih]
        refine and_congr_left fun hv => ?_
        have hne : g ≠ owner := by
          rintro rfl
          simp [hbinding] at hv
        rw [exposed_iff_of_parent hparent hne, and_iff_right hbinding]
    | some u =>
        rw [locate?_of_binding hbinding]
        refine ⟨?_, ?_⟩
        · rintro ⟨⟩
          exact ⟨hnest.exposed_self hg, hbinding⟩
        · rintro ⟨hexposed, hv⟩
          by_cases hne : g = owner
          · subst hne
            rw [hbinding] at hv
            cases hv
            rfl
          · rw [exposed_iff_of_parent hparent hne, hbinding] at hexposed
            exact absurd hexposed.1 nofun

/-- What is exposed to a scope of the family is in the family. -/
theorem exposed_mem (hnest : h.Nest root frames) (hg : g ∈ frames) (hexposed : h.Exposed n g f) :
    f ∈ frames := by
  revert hexposed
  refine hnest.induction (P := fun g => h.Exposed n g f → f ∈ frames) ?_ ?_ hg
  · rw [exposed_iff_of_outermost hnest.root_outermost]
    exact fun heq => heq ▸ hnest.root_mem
  · intro g hg parent _ hparent _ ih hexposed
    by_cases hne : g = f
    · exact hne ▸ hg
    · exact ih ((exposed_iff_of_parent hparent hne).1 hexposed).2

theorem nearest_iff (hnest : h.Nest root frames) (hg : g ∈ frames) :
    h.Nearest n g owner ↔ ∃ v, h.locate? n g = some (owner, v) := by
  simp only [Nearest, hnest.locate?_eq_some_iff hg, exists_and_left, Option.ne_none_iff_exists']

theorem read?_root (hnest : h.Nest root frames) : h.read? n root = h.binding? root n := by
  cases hbinding : h.binding? root n with
  | none => rw [read?, locate?_of_outermost hnest.root_outermost hbinding]; rfl
  | some v => exact read?_of_binding hbinding

theorem read?_of_parent (hnest : h.Nest root frames) (hmem : parent ∈ frames)
    (hparent : (h.scope g).parent = some parent) (hlt : parent.index < g.index)
    (hbinding : h.binding? g n = none) : h.read? n g = h.read? n parent := by
  rw [read?, hnest.locate?_of_parent hmem hparent hlt hbinding, read?]

end Nest

/-! ## What a new binding changes -/

/-- The second heap is the first one with a name bound in one scope. -/
structure Rebinds (h h' : Heap) (f : Ref .scope) (n : Symbol) (v : Value) : Prop where
  size_eq : h'.scopes.size = h.scopes.size
  scope_eq : ∀ g, h'.scope g =
    if g = f then { h.scope g with bindings := (h.scope g).bindings.insert n.name v } else h.scope g

theorem rebinds_bind (hf : f.index < h.scopes.size) (n : Symbol) (v : Value) :
    h.Rebinds (h.bind f n v) f n v where
  size_eq := by simp [bind]
  scope_eq g := by
    obtain ⟨i⟩ := f
    obtain ⟨j⟩ := g
    have hi : i < h.scopes.size := hf
    by_cases hij : j = i
    · subst hij
      simp [scope, bind, hi, Array.getElem_modify]
    · simp [scope, bind, hij, Array.getElem?_modify, Ne.symm hij]

theorem rebinds_define (hf : f.index < h.scopes.size) (n : Symbol) (v : Value) :
    h.Rebinds (h.define f n v) f n v := by
  have hbind := rebinds_bind hf n v
  cases v <;> exact ⟨hbind.size_eq, hbind.scope_eq⟩

namespace Rebinds

variable (hrebinds : h.Rebinds h' f n v)
include hrebinds

theorem parent_eq (g : Ref .scope) : (h'.scope g).parent = (h.scope g).parent := by
  rw [hrebinds.scope_eq]
  split <;> rfl

theorem binding?_here : h'.binding? f n = some v := by
  simp [binding?, hrebinds.scope_eq]

theorem binding?_elsewhere (hother : ¬(m = n ∧ g = f)) : h'.binding? g m = h.binding? g m := by
  rw [binding?, hrebinds.scope_eq]
  split
  · rename_i hg
    have hname : ¬n.name = m.name := fun heq => hother ⟨by cases n; cases m; simp_all, hg⟩
    simp [binding?, Std.TreeMap.getElem?_insert, hname]
  · rfl

theorem nest (hnest : h.Nest root frames) : h'.Nest root frames where
  present g hg := hrebinds.size_eq ▸ hnest.present g hg
  root_mem := hnest.root_mem
  root_outermost := by rw [hrebinds.parent_eq, hnest.root_outermost]
  parent_mem g hg hne := by
    rw [hrebinds.parent_eq]
    exact hnest.parent_mem g hg hne

/-- From where nothing nearer hides the scope, the new binding is seen. -/
theorem read?_of_exposed (hnest : h.Nest root frames) (hg : g ∈ frames)
    (hexposed : h.Exposed n g f) : h'.read? n g = some v := by
  revert hexposed
  refine hnest.induction (P := fun g => h.Exposed n g f → h'.read? n g = some v) ?_ ?_ hg
  · intro hexposed
    rw [exposed_iff_of_outermost hnest.root_outermost] at hexposed
    rw [hexposed, read?_of_binding hrebinds.binding?_here]
  · intro g hg parent hmem hparent hlt ih hexposed
    by_cases hne : g = f
    · rw [hne, read?_of_binding hrebinds.binding?_here]
    · rw [exposed_iff_of_parent hparent hne] at hexposed
      have hbinding := hrebinds.binding?_elsewhere (m := n) (g := g) fun heq => hne heq.2
      rw [← ih hexposed.2]
      exact (hrebinds.nest hnest).read?_of_parent hmem (by rw [hrebinds.parent_eq, hparent]) hlt
        (hbinding.trans hexposed.1)

/-- Otherwise every name stands for what it did. -/
theorem read?_of_hidden (hnest : h.Nest root frames) (hg : g ∈ frames)
    (hhidden : ¬(m = n ∧ h.Exposed n g f)) : h'.read? m g = h.read? m g := by
  have hnest' := hrebinds.nest hnest
  -- The scope itself binds the name as before: it is the changed one for another name at most.
  have hsame : ∀ g ∈ frames, ¬(m = n ∧ h.Exposed n g f) → h'.binding? g m = h.binding? g m :=
    fun g hg hhidden => hrebinds.binding?_elsewhere fun heq =>
      hhidden ⟨heq.1, heq.2 ▸ hnest.exposed_self hg⟩
  revert hhidden
  refine hnest.induction (P := fun g => ¬(m = n ∧ h.Exposed n g f) →
    h'.read? m g = h.read? m g) ?_ ?_ hg
  · intro hhidden
    rw [hnest'.read?_root, hnest.read?_root, hsame root hnest.root_mem hhidden]
  · intro g hg parent hmem hparent hlt ih hhidden
    cases hbinding : h.binding? g m with
    | some u => rw [read?_of_binding hbinding, read?_of_binding (hsame g hg hhidden ▸ hbinding)]
    | none =>
        rw [hnest.read?_of_parent hmem hparent hlt hbinding,
          hnest'.read?_of_parent hmem (by rw [hrebinds.parent_eq, hparent]) hlt
            (hsame g hg hhidden ▸ hbinding)]
        refine ih fun hexposed => hhidden ⟨hexposed.1, ?_⟩
        by_cases hne : g = f
        · exact hne ▸ hnest.exposed_self hg
        · exact (exposed_iff_of_parent hparent hne).2 ⟨hexposed.1 ▸ hbinding, hexposed.2⟩

end Rebinds

/-! ## What a new scope leaves alone -/

theorem consReversed_scopes (items : List Value) (h : Heap) (tail : Value) :
    (h.consReversed tail items).2.scopes = h.scopes := by
  induction items generalizing h tail with
  | nil => rfl
  | cons item items ih => exact ih _ _

/-- A scope for a call is new, and its parent is the given one. -/
theorem extend_eq (h : Heap) (p : Parameters) (arguments : List Value) (parent : Ref .scope) :
    (h.extend p arguments parent).1 = ⟨h.scopes.size⟩ ∧
      ∃ bindings, (h.extend p arguments parent).2.scopes =
        h.scopes.push ⟨bindings, some parent⟩ := by
  rw [extend]
  cases p.rest with
  | none => exact ⟨rfl, _, rfl⟩
  | some rest =>
      have hlist : ∀ others, (h.list others).2.scopes = h.scopes :=
        fun others => consReversed_scopes others.reverse h .nil
      exact ⟨by simp [addScope, hlist], _, by simp [addScope, hlist]; rfl⟩

theorem scope_of_push {s : Scope} (hscopes : h'.scopes = h.scopes.push s)
    (hg : g.index < h.scopes.size) : h'.scope g = h.scope g := by
  rw [scope, hscopes, Array.getElem?_push_lt hg, scope, Array.getElem?_eq_getElem hg]

theorem Nest.push (hnest : h.Nest root frames) {bindings : Std.TreeMap String Value}
    (hparent : parent ∈ frames) (hscopes : h'.scopes = h.scopes.push ⟨bindings, some parent⟩) :
    h'.Nest root (⟨h.scopes.size⟩ :: frames) where
  present f hf := by
    rcases List.mem_cons.1 hf with rfl | hf
    · simp [hscopes]
    · have hlt := hnest.present f hf
      simp only [hscopes, Array.size_push]
      omega
  root_mem := List.mem_cons_of_mem _ hnest.root_mem
  root_outermost := by
    rw [scope_of_push hscopes (hnest.present root hnest.root_mem), hnest.root_outermost]
  parent_mem f hf hne := by
    rcases List.mem_cons.1 hf with rfl | hf
    · exact ⟨parent, List.mem_cons_of_mem _ hparent, by simp [scope, hscopes],
        hnest.present parent hparent⟩
    · obtain ⟨outer, hmem, houter, hlt⟩ := hnest.parent_mem f hf hne
      exact ⟨outer, List.mem_cons_of_mem _ hmem,
        by rw [scope_of_push hscopes (hnest.present f hf), houter], hlt⟩

theorem Nest.congr (hnest : h.Nest root frames) (hscopes : h'.scopes = h.scopes) :
    h'.Nest root frames := by
  have hscope : ∀ f, h'.scope f = h.scope f := fun f => by rw [scope, scope, hscopes]
  constructor
  · exact fun f hf => hscopes ▸ hnest.present f hf
  · exact hnest.root_mem
  · rw [hscope, hnest.root_outermost]
  · intro f hf hne
    rw [hscope]
    exact hnest.parent_mem f hf hne

end Heap

/-! ## Histories -/

/-- A world and some of its scopes. -/
structure Family where
  world : World
  frames : List (Ref .scope)

namespace Family

/-- A root without bindings, in a world that may hold other scopes already. -/
def start (w : World) : Family where
  world := { w with heap := (w.heap.addScope ⟨{}, none⟩).2 }
  frames := [(w.heap.addScope ⟨{}, none⟩).1]

/-- What can happen to the scopes of a family. -/
inductive Step (F : Family) : Family → Prop
  | extend (p : Parameters) (arguments : List Value) {parent : Ref .scope}
      (hparent : parent ∈ F.frames) : Step F
        ⟨(F.world.enter p arguments parent).2, (F.world.enter p arguments parent).1 :: F.frames⟩
  | define {f : Ref .scope} (hf : f ∈ F.frames) (n : Symbol) (v : Value) :
      Step F { F with world := { F.world with heap := F.world.heap.define f n v } }
  | assign {f : Ref .scope} (hf : f ∈ F.frames) {n : Symbol} {v u : Value} {w : World}
      (hassign : World.assign n v f F.world = .value u w) : Step F { F with world := w }
  | assignFails {f : Ref .scope} (hf : f ∈ F.frames) {n : Symbol} {v : Value} {e : Fault}
      {w : World} (hassign : World.assign n v f F.world = .fault e w) :
      Step F { F with world := w }
  /-- Everything else a program does leaves the scopes alone. -/
  | elsewhere {w : World} (hscopes : w.heap.scopes = F.world.heap.scopes) :
      Step F { F with world := w }

/-- A history of any length. -/
def Grows : Family → Family → Prop :=
  Relation.ReflTransGen Step

/-- The scopes of a family lie inside one another and in its root. -/
abbrev Nested (root : Ref .scope) (F : Family) : Prop :=
  F.world.heap.Nest root F.frames

/-- Scopes stay in the family, and in their parents. -/
structure Keeps (F F' : Family) : Prop where
  frames : F.frames ⊆ F'.frames
  parents : ∀ f ∈ F.frames, (F'.world.heap.scope f).parent = (F.world.heap.scope f).parent

variable {F F' : Family} {root f g : Ref .scope} {n m : Symbol} {v : Value}

theorem Keeps.refl (F : Family) : F.Keeps F :=
  ⟨List.Subset.refl _, fun _ _ => rfl⟩

theorem Keeps.trans {F'' : Family} (h : F.Keeps F') (h' : F'.Keeps F'') : F.Keeps F'' :=
  ⟨List.Subset.trans h.frames h'.frames,
    fun f hf => (h'.parents f (h.frames hf)).trans (h.parents f hf)⟩

theorem nested_start (w : World) : (start w).Nested ⟨w.heap.scopes.size⟩ where
  present := by simp [start, Heap.addScope]
  root_mem := by simp [start, Heap.addScope]
  root_outermost := by simp [start, Heap.addScope, Heap.scope]
  parent_mem := by simp [start, Heap.addScope]

/-- An assignment binds the name where it is bound already, or fails. -/
theorem assign_cases (f : Ref .scope) (n : Symbol) (v : Value) (w : World) :
    (∃ owner u, w.heap.locate? n f = some (owner, u) ∧
        World.assign n v f w = .value v { w with heap := w.heap.bind owner n v }) ∨
      w.heap.locate? n f = none ∧ World.assign n v f w =
        .fault (.failed (.unbound n)) (w.note (.failure (.unbound n))) := by
  unfold World.assign
  cases hlocate : w.heap.locate? n f with
  | none => exact Or.inr ⟨rfl, rfl⟩
  | some found => exact Or.inl ⟨found.1, found.2, rfl, rfl⟩

theorem keeps_of_rebinds {w : World} (hrebinds : F.world.heap.Rebinds w.heap f n v)
    (hnested : F.Nested root) : Nested root { F with world := w } ∧ F.Keeps { F with world := w } :=
  ⟨hrebinds.nest hnested, List.Subset.refl _, fun g _ => hrebinds.parent_eq g⟩

theorem keeps_of_scopes {w : World} (hscopes : w.heap.scopes = F.world.heap.scopes)
    (hnested : F.Nested root) : Nested root { F with world := w } ∧ F.Keeps { F with world := w } :=
  ⟨hnested.congr hscopes, List.Subset.refl _, fun g _ => by simp only [Heap.scope, hscopes]⟩

theorem enter_eq (w : World) (p : Parameters) (arguments : List Value) (parent : Ref .scope) :
    (w.enter p arguments parent).1 = (w.heap.extend p arguments parent).1 ∧
      (w.enter p arguments parent).2.heap = (w.heap.extend p arguments parent).2 := by
  unfold World.enter
  split <;> exact ⟨rfl, rfl⟩

/-- One step. -/
theorem Step.keeps (hstep : F.Step F') (hnested : F.Nested root) :
    F'.Nested root ∧ F.Keeps F' := by
  cases hstep with
  | extend p arguments hparent =>
      rename_i parent
      obtain ⟨hscope, hheap⟩ := enter_eq F.world p arguments parent
      obtain ⟨hnew, bindings, hscopes⟩ := F.world.heap.extend_eq p arguments parent
      rw [← hheap] at hscopes
      rw [hscope, hnew]
      refine ⟨hnested.push hparent hscopes, List.subset_cons_self _ _, fun f hf => ?_⟩
      rw [Heap.scope_of_push hscopes (hnested.present f hf)]
  | define hf n v =>
      exact keeps_of_rebinds (Heap.rebinds_define (hnested.present _ hf) n v) hnested
  | assign hf hassign =>
      rename_i f n v u w
      obtain ⟨owner, old, hlocate, heq⟩ | ⟨-, heq⟩ := assign_cases f n v F.world
      · obtain ⟨hexposed, -⟩ := (hnested.locate?_eq_some_iff hf).1 hlocate
        have howner := hnested.present owner (hnested.exposed_mem hf hexposed)
        cases heq.symm.trans hassign
        exact keeps_of_rebinds (Heap.rebinds_bind howner n v) hnested
      · cases heq.symm.trans hassign
  | assignFails hf hassign =>
      rename_i f n v e w
      obtain ⟨owner, old, hlocate, heq⟩ | ⟨-, heq⟩ := assign_cases f n v F.world
      · cases heq.symm.trans hassign
      · cases heq.symm.trans hassign
        exact keeps_of_scopes rfl hnested
  | elsewhere hscopes => exact keeps_of_scopes hscopes hnested

/-- Any number of steps. -/
theorem Grows.keeps (hgrows : F.Grows F') (hnested : F.Nested root) :
    F'.Nested root ∧ F.Keeps F' := by
  induction hgrows with
  | refl => exact ⟨hnested, .refl F⟩
  | tail _ hstep ih =>
      obtain ⟨hnested', hkeeps⟩ := hstep.keeps ih.1
      exact ⟨hnested', ih.2.trans hkeeps⟩

theorem Keeps.chain (hkeeps : F.Keeps F') {chain : List (Ref .scope)}
    (hchain : F.world.heap.Chain f chain) (hsub : chain ⊆ F.frames) :
    F'.world.heap.Chain f chain :=
  hchain.transfer fun s hs => hkeeps.parents s (hsub hs)

end Family

namespace World

/-- What a variable stands for in a scope, unless it is unbound. -/
def read? (w : World) (n : Symbol) (g : Ref .scope) : Option Value :=
  match lookup n g w with
  | .value v _ => some v
  | .fault .. | .trap .. => none

theorem read?_eq (w : World) (n : Symbol) (g : Ref .scope) : w.read? n g = w.heap.read? n g := by
  unfold read? lookup Heap.read?
  cases w.heap.locate? n g <;> rfl

end World

namespace Family

variable {F : Family} {root f g : Ref .scope} {n m : Symbol} {v : Value}

/-- A variable stands for what its nearest binding says, and is unbound without one. -/
theorem Nested.lookup_cases (hnested : F.Nested root) (hf : f ∈ F.frames) (n : Symbol) :
    (∃ owner v, F.world.heap.Nearest n f owner ∧ F.world.heap.binding? owner n = some v ∧
        World.lookup n f F.world = .value v F.world) ∨
      (∀ owner, ¬F.world.heap.Nearest n f owner) ∧ World.lookup n f F.world =
        .fault (.failed (.unbound n)) (F.world.note (.failure (.unbound n))) := by
  simp only [hnested.nearest_iff hf]
  unfold World.lookup
  cases hlocate : F.world.heap.locate? n f with
  | none => exact Or.inr ⟨by simp, rfl⟩
  | some found =>
      have hbinding := ((hnested.locate?_eq_some_iff hf).1 hlocate).2
      exact Or.inl ⟨found.1, found.2, ⟨found.2, rfl⟩, hbinding, rfl⟩

/-- Scopes share a nearest binding when the one that an assignment changes is exposed to both. -/
theorem Nested.exists_nearest_iff (hnested : F.Nested root) (hf : f ∈ F.frames)
    {owner : Ref .scope} {u : Value} (hlocate : F.world.heap.locate? n f = some (owner, u)) :
    (∃ s, F.world.heap.Nearest n g s ∧ F.world.heap.Nearest n f s) ↔
      F.world.heap.Exposed n g owner := by
  obtain ⟨-, hbinding⟩ := (hnested.locate?_eq_some_iff hf).1 hlocate
  constructor
  · rintro ⟨s, hgs, hfs⟩
    obtain ⟨u', hs⟩ := (hnested.nearest_iff hf).1 hfs
    cases hlocate.symm.trans hs
    exact hgs.1
  · exact fun hexposed => ⟨owner, ⟨hexposed, by simp [hbinding]⟩,
      (hnested.nearest_iff hf).2 ⟨u, hlocate⟩⟩

/-- In a family that has grown from a root in any way, the chain of every scope ends at the root
and stays as it is whatever happens next; a variable stands for what its nearest binding says; an
assignment fails exactly where the variable is unbound, and otherwise changes what the name stands
for in the scopes that share the binding; a definition changes it in the scopes to which the
defining scope is exposed. -/
theorem nested_scopes (w : World) {F : Family} (hgrown : (start w).Grows F) :
    (∀ F', F.Grows F' → ∀ f ∈ F.frames, f ∈ F'.frames ∧
      ∃ chain, chain.getLast? = some ⟨w.heap.scopes.size⟩ ∧
        F.world.heap.Chain f chain ∧ F'.world.heap.Chain f chain) ∧
    (∀ f ∈ F.frames, ∀ n,
      (∃ owner v, F.world.heap.Nearest n f owner ∧ F.world.heap.binding? owner n = some v ∧
          World.lookup n f F.world = .value v F.world) ∨
        (∀ owner, ¬F.world.heap.Nearest n f owner) ∧ World.lookup n f F.world =
          .fault (.failed (.unbound n)) (F.world.note (.failure (.unbound n)))) ∧
    (∀ f ∈ F.frames, ∀ n v,
      F.world.read? n f = none ∧ World.assign n v f F.world =
          .fault (.failed (.unbound n)) (F.world.note (.failure (.unbound n))) ∨
        F.world.read? n f ≠ none ∧ ∃ w', World.assign n v f F.world = .value v w' ∧
          ∀ g ∈ F.frames, ∀ m,
            let shares := m = n ∧
              ∃ owner, F.world.heap.Nearest n g owner ∧ F.world.heap.Nearest n f owner
            (shares → w'.read? m g = some v) ∧ (¬shares → w'.read? m g = F.world.read? m g)) ∧
    (∀ f ∈ F.frames, ∀ n v, ∀ g ∈ F.frames, ∀ m,
      let w' : World := { F.world with heap := F.world.heap.define f n v }
      let shows := m = n ∧ F.world.heap.Exposed n g f
      (shows → w'.read? m g = some v) ∧ (¬shows → w'.read? m g = F.world.read? m g)) := by
  obtain ⟨hnested, -⟩ := hgrown.keeps (nested_start w)
  simp only [World.read?_eq]
  refine ⟨fun F' hgrows f hf => ?_, fun f hf n => hnested.lookup_cases hf n,
    fun f hf n v => ?_, fun f hf n v g hg m => ?_⟩
  · obtain ⟨-, hkeeps⟩ := hgrows.keeps hnested
    obtain ⟨chain, hchain, hlast, hsub⟩ := hnested.exists_chain hf
    exact ⟨hkeeps.frames hf, chain, hlast, hchain, hkeeps.chain hchain hsub⟩
  · obtain ⟨owner, u, hlocate, hassign⟩ | ⟨hnone, hassign⟩ := assign_cases f n v F.world
    · obtain ⟨hexposed, -⟩ := (hnested.locate?_eq_some_iff hf).1 hlocate
      have howner := hnested.present owner (hnested.exposed_mem hf hexposed)
      have hrebinds := Heap.rebinds_bind howner n v
      refine Or.inr ⟨by simp [Heap.read?, hlocate], _, hassign, fun g hg m => ?_⟩
      rw [hnested.exists_nearest_iff hf hlocate]
      refine ⟨?_, hrebinds.read?_of_hidden hnested hg⟩
      rintro ⟨rfl, hexposed⟩
      exact hrebinds.read?_of_exposed hnested hg hexposed
    · exact Or.inl ⟨by simp [Heap.read?, hnone], hassign⟩
  · have hrebinds := Heap.rebinds_define (hnested.present f hf) n v
    refine ⟨?_, hrebinds.read?_of_hidden hnested hg⟩
    rintro ⟨rfl, hexposed⟩
    exact hrebinds.read?_of_exposed hnested hg hexposed

/-- A family of a root that binds `x`, a scope in it that binds nothing, and another one with an `x`
of its own. -/
theorem exists_shadowing (w : World) (hw : w.heap.scopes = #[]) :
    ∃ F : Family, (start w).Grows F ∧ F.frames = [⟨2⟩, ⟨1⟩, ⟨0⟩] ∧
      F.world.heap.scopes = #[⟨(∅ : Std.TreeMap String Value).insert "x" .nil, none⟩,
        ⟨∅, some ⟨0⟩⟩, ⟨(∅ : Std.TreeMap String Value).insert "x" .endOfFile, some ⟨0⟩⟩] := by
  refine ⟨_, ((Relation.ReflTransGen.refl.tail
    (Step.define (f := ⟨0⟩) ?_ ⟨"x"⟩ .nil)).tail
    (@Step.extend _ ⟨[], none⟩ [] ⟨0⟩ ?_)).tail
    (@Step.extend _ ⟨[⟨"x"⟩], none⟩ [.endOfFile] ⟨0⟩ ?_), ?_, ?_⟩ <;>
  simp [start, hw, World.enter, Parameters.accepts, Heap.extend, Heap.bindFixed, Heap.addScope,
    Heap.define, Heap.bind]

/-- An assignment from the scope that binds nothing reaches the root, and leaves the scope with a
binding of its own as it is. -/
theorem nested_scopes_of_shadowing :
    let w : World := { host := World.nowhere, maxDepth := 0 }
    ∃ F : Family, (start w).Grows F ∧ ⟨1⟩ ∈ F.frames ∧ F.world.read? ⟨"x"⟩ ⟨2⟩ = some .endOfFile ∧
      ∃ w', World.assign ⟨"x"⟩ (.boolean true) ⟨1⟩ F.world = .value (.boolean true) w' ∧
        w'.read? ⟨"x"⟩ ⟨0⟩ = some (.boolean true) ∧ w'.read? ⟨"x"⟩ ⟨2⟩ = some .endOfFile := by
  intro w
  obtain ⟨F, hgrows, hframes, hscopes⟩ := exists_shadowing w rfl
  have hnested := (hgrows.keeps (nested_start w)).1
  have hmem : (⟨1⟩ : Ref .scope) ∈ F.frames := by simp [hframes]
  obtain ⟨-, -, hassign, -⟩ := nested_scopes w hgrows
  have hroot : F.world.heap.locate? ⟨"x"⟩ ⟨0⟩ = some (⟨0⟩, .nil) := by
    simp [Heap.locate?, Heap.locateWithin, Heap.scope, hscopes]
  have hinner : F.world.heap.locate? ⟨"x"⟩ ⟨1⟩ = some (⟨0⟩, .nil) := by
    simp [Heap.locate?, Heap.locateWithin, Heap.scope, hscopes]
  have hshadow : F.world.heap.locate? ⟨"x"⟩ ⟨2⟩ = some (⟨2⟩, .endOfFile) := by
    simp [Heap.locate?, Heap.locateWithin, Heap.scope, hscopes]
  have hread : F.world.read? ⟨"x"⟩ ⟨2⟩ = some .endOfFile := by
    simp [World.read?_eq, Heap.read?, hshadow]
  refine ⟨F, hgrows, hmem, hread, ?_⟩
  obtain ⟨hnone, -⟩ | ⟨-, w', heq, hshows⟩ := hassign ⟨1⟩ hmem ⟨"x"⟩ (.boolean true)
  · simp [World.read?_eq, Heap.read?, hinner] at hnone
  · refine ⟨w', heq, (hshows ⟨0⟩ (by simp [hframes]) ⟨"x"⟩).1 ⟨rfl, ⟨0⟩, ?_, ?_⟩, ?_⟩
    · exact (hnested.nearest_iff (by simp [hframes])).2 ⟨_, hroot⟩
    · exact (hnested.nearest_iff hmem).2 ⟨_, hinner⟩
    · rw [(hshows ⟨2⟩ (by simp [hframes]) ⟨"x"⟩).2, hread]
      rintro ⟨-, owner, hown, hinner'⟩
      obtain ⟨_, howner⟩ := (hnested.nearest_iff (by simp [hframes])).1 hown
      obtain ⟨_, howner'⟩ := (hnested.nearest_iff hmem).1 hinner'
      rw [hshadow, Option.some.injEq, Prod.mk.injEq] at howner
      rw [hinner, Option.some.injEq, Prod.mk.injEq, ← howner.1] at howner'
      exact absurd howner'.1 (by simp)

end Family

end Scheme
