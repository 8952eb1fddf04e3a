import Scheme.Proofs.TemplateRuns
/-!
# Runs of transformers

The code of a transformer makes procedures, maps them over its operands, and is entered with the
operands of a call. These are the rules for such code where it may hold templates.
-/

namespace Scheme

open Evaluator

namespace Heap

/-- Arguments beyond those that names are bound to are left over. -/
theorem bindFixed_append {names : List Symbol} {vs : List Value} (hlength : vs.length = names.length)
    (others : List Value) (bindings : Std.TreeMap String Value) :
    bindFixed bindings names (vs ++ others) = ((bindFixed bindings names vs).1, others) := by
  induction names generalizing vs bindings with
  | nil =>
      obtain rfl := List.eq_nil_of_length_eq_zero hlength
      rfl
  | cons name names ih =>
      cases vs with
      | nil => cases hlength
      | cons v vs => exact ih (Nat.succ.inj hlength) _

end Heap

/-- Whether these names hide none of those that conjunctions and templates are expanded with. -/
def Prelude.shows (names : List String) : Bool :=
  names.all fun name => name != "and" && !Template.names.any fun s => s.name == name

theorem Prelude.lookup_of_shows {locals : Environment} (h : shows (locals.map Prod.fst) = true)
    {name : String} (hname : name = "and" ∨ ∃ s ∈ Template.names, s.name = name) :
    locals.lookup name = none := by
  rw [List.lookup_eq_none_iff]
  intro p hp
  have hlocal := List.all_eq_true.1 h p.1 (List.mem_map_of_mem hp)
  simp only [Bool.and_eq_true, bne_iff_ne, ne_eq, Bool.not_eq_true', List.any_eq_false,
    beq_iff_eq] at hlocal
  rw [bne_iff_ne]
  rintro rfl
  rcases hname with hname | ⟨s, hs, hname⟩
  · exact hlocal.1 hname
  · exact hlocal.2 s hs hname

namespace Moment

variable {σ σ' σ₁ : Moment} {may : Expandables} {scope parent : Ref .scope} {c : Ref .closure}
  {x f body list : Value} {vs others : List Value} {names : List String} {rest : String}
  {env locals : Environment} {text : Datum} {post : Moment → Value → Prop}

/-! ## Names -/

theorem Binds.changes (h : σ.Binds scope env) (h' : σ.Changes σ') : σ'.Binds scope env where
  inBounds := by
    refine Nat.lt_of_lt_of_le h.inBounds (Nat.le_of_not_lt fun hlt => ?_)
    have hold := h'.scopes _ _ (Array.getElem?_eq_getElem hlt)
    simp at hold
  names name v hv := by
    obtain ⟨owner, howner⟩ := h.names name v hv
    exact ⟨owner, Heap.locateWithin_mono h'.scopes (Nat.le_refl _) howner⟩

theorem Continues.binds_names (hσ : σ.Continues World.prelude) : σ.Binds .global Prelude.names where
  inBounds := Heap.inBounds_of_locate? (hσ.locate?_eq (List.mem_cons_self ..))
  names name v hv := by
    obtain ⟨before, after, heq, -⟩ := List.lookup_eq_some_iff.1 hv
    exact ⟨_, hσ.names _ _ _ (World.locate?_prelude (by simp [heq]))⟩

/-- The names of a transformer do not hide what conjunctions are expanded with. -/
theorem Continues.sees (hσ : σ.Continues World.prelude)
    (hbinds : σ.Binds scope (locals ++ Prelude.names))
    (hshows : Prelude.shows (locals.map Prod.fst) = true) :
    σ.Sees scope (locals ++ Prelude.names) where
  toBinds := hbinds
  conjunction c hc := by
    rw [List.lookup_append, Prelude.lookup_of_shows hshows (Or.inl rfl), Option.none_or] at hc
    cases hc
    exact hσ.isConjunction

/-- Nor what templates are evaluated with. -/
theorem Binds.seesTemplates (hbinds : σ.Binds scope (locals ++ Prelude.names))
    (hshows : Prelude.shows (locals.map Prod.fst) = true) : σ.SeesTemplates scope := by
  have hnames : ∀ s ∈ Template.names, ∀ v, Prelude.names.lookup s.name = some v →
      ∃ owner, σ.heap.locate? s scope = some (owner, v) := by
    intro s hs v hv
    refine hbinds.names s.name v ?_
    rwa [List.lookup_append, Prelude.lookup_of_shows hshows (Or.inr ⟨s, hs, rfl⟩), Option.none_or]
  refine ⟨hnames _ (List.mem_cons_self ..) _ rfl, fun p hp => ?_⟩
  refine hnames _ (List.mem_cons_of_mem _ (List.mem_map_of_mem hp)) _ ?_
  simp only [Primitive.builders, List.mem_cons, List.not_mem_nil, or_false] at hp
  rcases hp with rfl | rfl | rfl | rfl | rfl <;> rfl

theorem Evals.does (h : σ.Evals env scope text post) (hsees : σ.Sees scope env)
    (hx : σ.Code x text) : σ.Does may x scope post :=
  (h hsees x hx).does

/-- Nothing that is to be replaced is replaced meanwhile. -/
theorem Evals.does_le (h : σ.Evals env scope text post) (hsees : σ.Sees scope env)
    (hx : σ.Code x text) : σ.Does may x scope fun σ' v => σ.Le σ' ∧ post σ' v := by
  obtain ⟨σ', v, hyields, hle, hpost⟩ := h hsees x hx
  exact ⟨σ', v, hyields, hle.advances may, hle, hpost⟩

/-! ## Procedures -/

/-- The moment after a closure was made. -/
def withClosure (σ : Moment) (c : Closure) : Moment where
  world := { σ.world with heap := (σ.heap.addClosure c).2 }
  known := σ.known
  sites := σ.sites
  apart := σ.apart
  bounds := σ.bounds

theorem le_withClosure (σ : Moment) (c : Closure) : σ.Le (σ.withClosure c) :=
  .of_extends (fun _ _ => id) (fun _ => id) (fun _ => id)
    (fun _ hr => hr.elim Or.inl fun hr => Or.inr (Or.inl hr))
    (fun _ _ => id) (fun _ _ => Heap.getElem?_push_of_some _) rfl

/-- A closure over the scope with these parameters and this body. -/
def Encloses (σ : Moment) (c : Ref .closure) (names : List String) (body : Value)
    (scope : Ref .scope) : Prop :=
  ∃ name, σ.heap.closures[c.index]? = some ⟨⟨names.map Symbol.mk, none⟩, body, scope, name⟩

theorem Encloses.changes (h : σ.Encloses c names body scope) (h' : σ.Changes σ') :
    σ'.Encloses c names body scope := by
  obtain ⟨name, hclosure⟩ := h
  exact ⟨name, h'.closures _ _ hclosure⟩

theorem Encloses.closure_eq (h : σ.Encloses c names body scope) : ∃ name,
    σ.world.heap.closure c = ⟨⟨names.map Symbol.mk, none⟩, body, scope, name⟩ := by
  obtain ⟨name, hclosure⟩ := h
  have hsome : σ.world.heap.closures[c.index]? = _ := hclosure
  exact ⟨name, by simp [Heap.closure, hsome]⟩

/-- An abstraction with one expression in its body, which need not be a cell. -/
theorem yields_abstraction {r inner forms : Ref .pair}
    (hr : σ.Cell r ⟨.symbol ⟨"lambda"⟩, .pair inner⟩) (hinner : σ.Cell inner ⟨list, .pair forms⟩)
    (hlist : Items σ.Cell list (names.map fun name => .symbol ⟨name⟩))
    (hforms : σ.Cell forms ⟨body, .nil⟩) (scope : Ref .scope) :
    Yields (.pair r) scope σ.world (.closure ⟨σ.heap.closures.size⟩)
      (σ.withClosure ⟨⟨names.map Symbol.mk, none⟩, body, scope, none⟩).world := by
  let c : Closure := ⟨⟨names.map Symbol.mk, none⟩, body, scope, none⟩
  refine .special hr.eq rfl ?_
  have hparameters : World.parameters list σ.world = .value ⟨names.map Symbol.mk, none⟩ σ.world :=
    World.parameters_eq (hlist.mono fun _ _ hcell => hcell.2)
  have hfirst : σ.world.heap.first (.pair inner) = list := hinner.first_eq
  have hrest : σ.world.heap.rest (.pair inner) = .pair forms := hinner.rest_eq
  have hclosure : Step.abstraction list (.pair forms) scope σ.world =
      .value ⟨σ.heap.closures.size⟩ (σ.withClosure c).world := by
    simp only [Step.abstraction, bind, Action.bind, hparameters, World.alter, Heap.close,
      hforms.eq, Value.isNil, if_true]
    rfl
  simp only [Evaluator.special, Evaluator.abstraction, hfirst, hrest]
  exact Settles.andThen (Settles.action hclosure) (Settles.at_once _ _)

theorem encloses_withClosure (σ : Moment) (names : List String) (body : Value) (scope : Ref .scope) :
    (σ.withClosure ⟨⟨names.map Symbol.mk, none⟩, body, scope, none⟩).Encloses
      ⟨σ.heap.closures.size⟩ names body scope :=
  ⟨none, Array.getElem?_push_size⟩

theorem runs_abstraction {r inner forms : Ref .pair}
    (hr : σ.Cell r ⟨.symbol ⟨"lambda"⟩, .pair inner⟩) (hinner : σ.Cell inner ⟨list, .pair forms⟩)
    (hlist : Items σ.Cell list (names.map fun name => .symbol ⟨name⟩))
    (hforms : σ.Cell forms ⟨body, .nil⟩) :
    σ.Runs (.pair r) scope fun σ' v => ∃ c, v = .closure c ∧ σ'.Encloses c names body scope :=
  ⟨_, _, yields_abstraction hr hinner hlist hforms scope, σ.le_withClosure _, _, rfl,
    σ.encloses_withClosure names body scope⟩

/-! ## Calls -/

/-- The call has a value at a later moment, and the two are as stated. -/
def Performs (may : Expandables) (σ : Moment) (f : Value) (vs : List Value)
    (post : Moment → Value → Prop) : Prop :=
  ∃ σ' v, CallYields f vs σ.world v σ'.world ∧ σ.Advances may σ' ∧ post σ' v

/-- The scope of a call of a closure that takes as many arguments. -/
theorem Encloses.enter (hc : σ.Encloses c names body parent) (hlength : vs.length = names.length) :
    σ.world.enter (σ.world.heap.closure c).parameters vs (σ.world.heap.closure c).scope =
      (⟨σ.heap.scopes.size⟩,
        (σ.withScope ⟨(Heap.bindFixed {} (names.map Symbol.mk) vs).1, some parent⟩).world) := by
  obtain ⟨name, hclosure⟩ := hc.closure_eq
  rw [hclosure]
  simp only [World.enter, Parameters.accepts, List.length_map, hlength, BEq.rfl, if_true,
    Heap.extend]
  rfl

theorem Performs.closure (hc : σ.Encloses c names body parent) (henv : σ.Binds parent env)
    (hlength : vs.length = names.length) (hnames : names.Nodup)
    (h : ∀ σ' scope, σ.Le σ' → σ'.Binds scope (names.zip vs ++ env) → σ'.Does may body scope post) :
    σ.Performs may (.closure c) vs post := by
  have hlookup : ∀ name, (Heap.bindFixed {} (names.map Symbol.mk) vs).1[name]? =
      (names.zip vs).lookup name := fun name => by
    simpa using (Heap.getElem?_bindFixed hlength hnames {} name).1
  have hle := σ.le_withScope ⟨(Heap.bindFixed {} (names.map Symbol.mk) vs).1, some parent⟩
  obtain ⟨σ', v, hyields, hadvances, hpost⟩ := h _ _ hle (henv.withScope hlookup)
  obtain ⟨name, hclosure⟩ := hc.closure_eq
  refine ⟨σ', v, .closure (by rw [hclosure]) ?_, (hle.advances may).trans hadvances, hpost⟩
  have henter := hc.enter hlength
  rw [hclosure] at henter ⊢
  rw [henter]
  exact hyields

/-! ## Mappings -/

/-- The procedure is called on each row, one after the other. -/
def PerformsAll (may : Expandables) (f : Value) :
    List (List Value) → Moment → (Moment → List Value → Prop) → Prop
  | [], σ, post => post σ []
  | row :: rows, σ, post => σ.Performs may f row fun σ v =>
    PerformsAll may f rows σ fun σ vs => post σ (v :: vs)

theorem PerformsAll.settles {lists : List Value} {rows : List (List Value)}
    {post : Moment → List Value → Prop} (hrows : Rows σ.Cell lists rows)
    (h : PerformsAll may f rows σ post) (results : List Value) :
    ∃ σ' vs, Settles (fun time => (within time).mapping f true time lists results σ.world)
        (σ'.heap.list (results.reverse ++ vs)).1
        { σ'.world with heap := (σ'.heap.list (results.reverse ++ vs)).2 } ∧
      σ.Advances may σ' ∧ post σ' vs := by
  induction rows generalizing σ lists results post with
  | nil =>
      cases hrows with
      | nil hend =>
          refine ⟨σ, [], Settles.later ?_, .refl may σ, h⟩
          simp only [mapping, hend, Bool.false_eq_true, if_false, List.append_nil]
          exact Settles.action rfl
  | cons row rows ih =>
      cases hrows with
      | @cons cells _ hne hcells hrest =>
          obtain ⟨σ₁, v, hcall, hadvances, hnext⟩ := h
          obtain ⟨σ', vs, hothers, hadvances', hpost⟩ :=
            ih (hrest.mono hadvances.cells) hnext (v :: results)
          refine ⟨σ', v :: vs, Settles.later ?_, hadvances.trans hadvances', hpost⟩
          have hmore : (!(cells.map fun c => Value.pair c.1).isEmpty &&
              (cells.map fun c => Value.pair c.1).all Value.isPair) = true := by
            cases cells with
            | nil => exact absurd rfl hne
            | cons => simp [Value.isPair]
          have hfirsts : (cells.map fun c => Value.pair c.1).map σ.world.heap.first =
              cells.map (·.2.first) := by
            rw [List.map_map]
            exact List.map_congr_left fun c hc => (hcells c hc).first_eq
          have hrests : (cells.map fun c => Value.pair c.1).map σ.world.heap.rest =
              cells.map (·.2.rest) := by
            rw [List.map_map]
            exact List.map_congr_left fun c hc => (hcells c hc).rest_eq
          simp only [mapping, hmore, if_true, hfirsts, hrests]
          refine Settles.andThen hcall.apply.shift ?_
          rw [List.reverse_cons, List.append_assoc] at hothers
          exact hothers.mono fun time =>
            (within_le (Nat.le_succ time)).mapping (Nat.le_refl time) _ _ _ _ _

theorem Performs.map {lists : List Value} {rows : List (List Value)}
    (hrows : Rows σ.Cell lists rows)
    (h : PerformsAll may f rows σ fun σ vs => ∀ σ' v, σ.Le σ' → Items σ'.Cell v vs → post σ' v) :
    σ.Performs may (.primitive .map) (f :: lists) post := by
  obtain ⟨σ₁, vs, hsettles, hadvances, hpost⟩ := h.settles hrows []
  obtain ⟨σ₂, hworld, hle, hitems⟩ := σ₁.exists_list vs
  refine ⟨σ₂, _, .primitive (Primitive.checkCount_eq ?_ _) ?_, hadvances.trans (hle.advances may),
    hpost σ₂ _ hle hitems⟩
  · simp [Primitive.takes, Primitive.map]
  · rw [hworld]
    exact hsettles

/-! ## Calls of transformers -/

/-- A call of the transformer on the operands answers a pair at a later moment, and the two are as
stated. -/
def Transforms (may : Expandables) (σ : Moment) (c : Ref .closure) (operands : List Value)
    (post : Moment → Ref .pair → Prop) : Prop :=
  ∃ inner w₁ σ' x,
    σ.world.enter (σ.world.heap.closure c).parameters operands (σ.world.heap.closure c).scope =
      (inner, w₁) ∧
    Yields (σ.world.heap.closure c).body inner w₁ (.pair x) σ'.world ∧ σ.Advances may σ' ∧ post σ' x

/-- The scope of a call with a list of the operands that are left over. -/
theorem exists_entered (σ : Moment) (hlength : vs.length = names.length) (hnames : names.Nodup)
    (rest : String) (others : List Value) (parent : Ref .scope) : ∃ (σ₁ : Moment) (list : Value)
      (bindings : Std.TreeMap String Value), σ.Le σ₁ ∧ Items σ₁.Cell list others ∧
      (∀ name, bindings[name]? = List.lookup name ((rest, list) :: names.zip vs)) ∧
      σ.world.enter ⟨names.map Symbol.mk, some ⟨rest⟩⟩ (vs ++ others) parent =
        (⟨σ₁.heap.scopes.size⟩, (σ₁.enclosing ⟨bindings, some parent⟩ []).world) := by
  have hlookup : ∀ name, (Heap.bindFixed {} (names.map Symbol.mk) vs).1[name]? =
      (names.zip vs).lookup name := fun name => by
    simpa using (Heap.getElem?_bindFixed hlength hnames {} name).1
  refine ⟨σ.listing others, (σ.heap.list others).1, _, σ.le_listing others, σ.items_listing others,
    Heap.getElem?_insert_eq_lookup hlookup rest _, ?_⟩
  have hworld := σ.world_listing others
  have hheap : (σ.listing others).heap = (σ.heap.list others).2 := congrArg World.heap hworld
  have haccepts : (⟨names.map Symbol.mk, some ⟨rest⟩⟩ : Parameters).accepts
      (vs ++ others).length = true := by
    simp [Parameters.accepts, hlength]
  have hfixed : Heap.bindFixed {} (names.map Symbol.mk) (vs ++ others) =
      ((Heap.bindFixed {} (names.map Symbol.mk) vs).1, others) :=
    Heap.bindFixed_append (by rw [hlength, List.length_map]) others {}
  simp only [World.enter, haccepts, if_true, Heap.extend, hfixed, Moment.enclosing, hworld, hheap,
    Array.append_empty]
  rfl

/-- A transformer that takes the operands after the first ones as a list. -/
theorem Transforms.of_does (names : List String) (vs others : List Value) {name : Option Symbol}
    {post : Moment → Ref .pair → Prop} (hσ : σ.Continues World.prelude)
    (hclosure : σ.heap.closures[c.index]? =
      some ⟨⟨names.map Symbol.mk, some ⟨rest⟩⟩, body, .global, name⟩)
    (hlength : vs.length = names.length) (hnames : names.Nodup)
    (h : ∀ (σ' : Moment) scope list, σ.Le σ' → Items σ'.Cell list others →
      σ'.Binds scope ((rest, list) :: names.zip vs ++ Prelude.names) →
      σ'.Does may body scope fun σ'' v => ∃ x, v = .pair x ∧ post σ'' x) :
    σ.Transforms may c (vs ++ others) post := by
  obtain ⟨σ₁, list, bindings, hle, hlist, hbindings, henter⟩ :=
    σ.exists_entered hlength hnames rest others .global
  have hle' := σ₁.le_enclosing ⟨bindings, some .global⟩ []
  have hbinds := (hσ.binds_names.mono hle).nested hle' Array.getElem?_push_size
    (hσ.binds_names.mono hle).inBounds hbindings
  obtain ⟨σ', _, hyields, hadvances, x, rfl, hpost⟩ :=
    h _ _ list (hle.trans hle') (hlist.mono hle'.cells) hbinds
  have hclosure' : σ.world.heap.closure c =
      ⟨⟨names.map Symbol.mk, some ⟨rest⟩⟩, body, .global, name⟩ := by
    have hsome : σ.world.heap.closures[c.index]? = _ := hclosure
    simp [Heap.closure, hsome]
  refine ⟨_, _, σ', x, by rw [hclosure', henter], by rwa [hclosure'],
    ((hle.trans hle').advances may).trans hadvances, hpost⟩

end Moment

end Scheme
