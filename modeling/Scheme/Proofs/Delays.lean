import Scheme.Proofs.NestedForces
import Scheme.Proofs.NewPromises
import Scheme.Proofs.PromiseCreation
/-!
# Delayed expressions

The value of a delayed expression is a promise. That is so in a new interpreter, and wherever the
code that makes promises is as it was.
-/

namespace Scheme

open Step

/-- What a run comes to under a high limit, it comes to under any, unless the limit stops it. -/
theorem Step.deepens_or_reaches {control control' : Control} {stack stack' : List Pending}
    {w w' : World} {d d' m limit : Nat} (hle : m ≤ limit)
    (h : (go control stack (w.onLevel d limit)).Reaches
      (go control' stack' (w'.onLevel d' limit))) :
    (go control stack (w.onLevel d m)).Deepens ∨
      (go control stack (w.onLevel d m)).Reaches (go control' stack' (w'.onLevel d' m)) := by
  by_cases hdeep : (go control stack (w.onLevel d m)).Deepens
  · exact Or.inl hdeep
  obtain ⟨n, hn⟩ := h
  refine Or.inr ⟨n, ?_⟩
  have hshifted : State.shifted [] limit ⟨control, stack, w.onLevel d m⟩ =
      ⟨control, stack, w.onLevel d limit⟩ := by
    simp [State.shifted, World.underLimit]
  cases hrun : (go control stack (w.onLevel d m)).steps n with
  | next s =>
      have hlifted := State.steps_shifted hrun (fun k s _ hs hs' => hdeep ⟨k, s, hs, hs'⟩) hle []
      rw [hshifted] at hlifted
      have heq := Step.next.inj (hlifted.symm.trans hn)
      have hmax : s.world.maxDepth = m := State.maxDepth_steps hrun
      obtain ⟨control₁, stack₁, w₁⟩ := s
      simp only [State.shifted, List.append_nil, State.mk.injEq] at heq
      obtain ⟨rfl, rfl, hworld⟩ := heq
      have hdepth : w₁.depth = d' := congrArg World.depth hworld
      have hthere := congrArg (World.onLevel d' m) hworld
      rw [World.underLimit, World.onLevel_onLevel, World.onLevel_onLevel] at hthere
      rw [← hthere, ← hdepth, ← hmax, World.onLevel_self]
      rfl
  | done outcome w₁ =>
      have hlifted := State.steps_done_shifted hrun hdeep hle
      rw [hshifted] at hlifted
      cases hlifted.symm.trans hn

/-- Above other work, the run comes to the same. -/
theorem Step.reaches_onto {control control' : Control} {w w' : World}
    (h : (go control [] w).Reaches (go control' [] w')) (stack : List Pending) :
    (go control stack w).Reaches (go control' stack w') := by
  obtain ⟨n, hn⟩ := h
  exact ⟨n, steps_onto_next hn stack⟩

namespace Moment

variable {σ σ' : Moment} {c : PromiseCode} {site : Ref .pair} {scope : Ref .scope} {e : Value}
  {stack : List Pending}

/-- A delayed expression, as it was written. -/
structure DelayCall (σ : Moment) (site : Ref .pair) (e : Value) : Prop where
  awaits : σ.sites site
  form : ∃ operands, σ.heap.pairs[site.index]? = some ⟨.symbol ⟨"delay"⟩, operands⟩ ∧
    Items σ.Cell operands [e]

/-- The expression is delayed here: as it was written, where the name has its meaning, or as it has
been replaced. Then it makes promises in a scope that nothing else goes on in. -/
def Delays (σ : Moment) (c : PromiseCode) (site : Ref .pair) (e : Value) (scope : Ref .scope)
    (stack : List Pending) : Prop :=
  (σ.DelayCall site e ∧
    ∃ owner, σ.heap.locate? ⟨"delay"⟩ scope = some (owner, .transformer ⟨8⟩)) ∨
  ∃ m frame, σ.PromiseForm site m e ∧ σ.IsMaker c m frame ∧ scope ≠ frame ∧
    ∀ p ∈ stack, p.scope? ≠ some frame

theorem Makes.advances {may : Expandables} (h : σ.Makes c) (h' : σ.Advances may σ')
    (hnames : promiseBindings.map Prod.fst ∉ may.bindings) : σ'.Makes c := by
  obtain ⟨l, forms, hbound, hl, hforms⟩ := h
  exact ⟨l, forms, hbound.advances h' hnames, hl.mono h'.cells, h'.cells _ _ hforms⟩

theorem IsPromise.advances {may : Expandables} (h : σ.IsPromise c) (h' : σ.Advances may σ')
    (hnames : ["x"] ∉ may.bindings) : σ'.IsPromise c :=
  ⟨h.lies.mono h'.cells, h.inner.advances h' hnames⟩

/-- A delayed expression that was written is replaced, and nothing else. -/
theorem DelayCall.exists_rewritten (h : σ.DelayCall site e) (hσ : σ.HasPromises c)
    {owner : Ref .scope}
    (hdelay : σ.heap.locate? ⟨"delay"⟩ scope = some (owner, .transformer ⟨8⟩)) :
    ∃ (σ' : Moment) (m : Ref .closure) (frame : Ref .scope),
      σ.Advances ⟨[promiseTemplate], [], ["delay"]⟩ σ' ∧ σ'.PromiseForm site m e ∧
      σ'.IsMaker c m frame ∧ σ.heap.scopes.size ≤ frame.index ∧
      ∃ least, ∀ k, least ≤ k →
        Focus.Tail k ⟨.pair site, scope, σ.world⟩ ⟨.pair site, scope, σ'.world⟩ := by
  obtain ⟨operands, hsite, hoperands⟩ := h.form
  obtain ⟨σ₁, x, σ₂, h₁, ⟨m, frame, ⟨args, l, forms, hx, hargs, hl, hforms⟩, hmaker, hfresh⟩,
    hawaits, hrewritten, h₂, htail⟩ :=
      (transforms_promise hσ.continues hσ.delayer).exists_rewritten h.awaits hsite rfl hdelay
        hoperands (by simp [promiseSites]) (by simp)
  have hx' : σ₂.heap.pairs[site.index]? = some ⟨.closure m, .pair args⟩ :=
    (hrewritten.pair_site hawaits).trans (congrArg some (Heap.pair_eq_of_getElem? hx))
  have h₁' : σ.Advances ⟨[promiseTemplate], [], ["delay"]⟩ σ₁ :=
    h₁.weaken (by simp [promiseSites]) (by simp [promiseSites]) (by simp [promiseSites])
  have h₂' : σ₁.Advances ⟨[promiseTemplate], [], ["delay"]⟩ σ₂ :=
    h₂.weaken (by simp) (by simp) (by simp)
  exact ⟨σ₂, m, frame, h₁'.trans h₂',
    ⟨args, l, forms, hx', h₂.cells _ _ hargs, hl.mono h₂.cells, h₂.cells _ _ hforms⟩,
    hmaker.changes h₂.toChanges, hfresh, htail⟩

/-- A delayed expression is replaced when it is evaluated, and then makes promises in a scope that
nothing else goes on in. -/
theorem Delays.exists_replaced (h : σ.Delays c site e scope stack) (hσ : σ.HasPromises c)
    (hsealed : σ.heap.Sealed) (hscope : scope.index < σ.heap.scopes.size) :
    ∃ (σ' : Moment) (m : Ref .closure) (frame : Ref .scope),
      σ.Advances ⟨[promiseTemplate], [], ["delay"]⟩ σ' ∧ σ'.PromiseForm site m e ∧
      σ'.IsMaker c m frame ∧ σ'.heap.Sealed ∧ Heap.Fewer σ.heap σ'.heap ∧ scope ≠ frame ∧
      (∀ p ∈ stack, ∀ s ∈ p.scope?, s.index < σ.heap.scopes.size → s ≠ frame) ∧
      ∃ least, ∀ k, least ≤ k →
        Focus.Iterates k 0 ⟨.pair site, scope, σ.world⟩ ⟨.pair site, scope, σ'.world⟩ := by
  rcases h with ⟨hcall, owner, hdelay⟩ | ⟨m, frame, hform, hmaker, hne, hstack⟩
  · obtain ⟨σ', m, frame, h₁, hform, hmaker, hfresh, least, htail⟩ :=
      hcall.exists_rewritten hσ hdelay
    obtain ⟨operands, hsite, -⟩ := hcall.form
    have hsite' : σ.heap.Has (.pair site) := (Array.getElem?_eq_some_iff.1 hsite).1
    obtain ⟨hsealed', hle⟩ := (htail least (Nat.le_refl _)).obeys (P := Heap.references)
      (fun _ _ _ => id) hsealed hsite' hscope
    have hnew : ∀ s : Ref .scope, s.index < σ.heap.scopes.size → s ≠ frame := by
      rintro s hs rfl
      exact Nat.not_lt_of_le hfresh hs
    exact ⟨σ', m, frame, h₁, hform, hmaker, hsealed', hle, hnew scope hscope, fun _ _ s _ => hnew s,
      least, fun k hk => .tail (htail k hk) (.refl _)⟩
  · refine ⟨σ, m, frame, .refl _ σ, hform, hmaker, hsealed, .refl _, hne, ?_, 0, fun k _ => .refl _⟩
    rintro p hp s hs - rfl
    exact hstack p hp hs

/-- If the limit is high enough, a delayed expression comes to a promise of the expression, and all
that there was before keeps to what the promise hides. -/
theorem Delays.exists_promise (h : σ.Delays c site e scope stack) (hσ : σ.HasPromises c)
    (hready : Ready Heap.references σ.world stack) (hscope : scope.index < σ.heap.scopes.size) :
    ∃ (P : Promise) (σ' : Moment), P.code = c ∧ P.expression = e ∧ P.scope = scope ∧
      σ.Changes σ' ∧ c.Intact σ'.world ∧ P.Stands none σ'.heap ∧
      (∀ v, σ.heap.Has v → P.seclusion.Shows σ'.heap v) ∧
      P.seclusion.policy.AdmitsStack σ'.heap stack ∧ ∃ least, ∀ {d m : Nat}, d + least ≤ m →
        (Focus.reduce ⟨.pair site, scope, σ.world⟩ [] d m).Reaches
          (go (.resume (.closure P.procedure)) [] (σ'.world.onLevel d m)) := by
  obtain ⟨σ₁, m, frame, h₁, hform, hmaker, hsealed₁, hle, hne, hstack, least₁, htails⟩ :=
    h.exists_replaced hσ hready.good hscope
  have hcontinues₁ := hσ.continues.changes h₁.toChanges
  have hscopes : ∀ {i : Nat}, i < σ.heap.scopes.size → i < σ₁.heap.scopes.size := fun hi =>
    Nat.lt_of_lt_of_le hi hle.scopes
  obtain ⟨P, σ', hcode, hframe, hexpression, hscope', h₂, hst, -, -, hshows, hopens, least₂,
    hreaches⟩ :=
    hform.makes hmaker (hσ.makes.advances h₁ (by simp)) hcontinues₁ (hσ.binder.advances h₁) hsealed₁
      (hscopes hscope) hne
  have hintact : c.Intact σ'.world := ⟨σ', rfl, hcontinues₁.changes h₂.toChanges,
    (hσ.binder.advances h₁).advances h₂,
    (hσ.code.advances h₁ (by simp)).advances h₂ (by simp [callSites, promiseBindings])⟩
  have hshown : ∀ v, σ.heap.Has v → P.seclusion.Shows σ'.heap v :=
    fun v hv => (hshows v (hv.mono hle)).withEntrance rfl _
  refine ⟨P, σ', hcode, hexpression, hscope', h₁.toChanges.trans h₂.toChanges, hintact, hst,
    hshown, fun p hp => ?_, max least₁ least₂, fun {d m} hm => ?_⟩
  · exact (hready.waiting p hp).secluded hshown
      fun s hs hlt => hopens s (hscopes hlt) (hstack p hp s hs hlt)
  · exact ((htails (max least₁ least₂) (by omega)).reaches hm []).trans
      (hreaches (max least₁ least₂) (by omega) hm [])

theorem DelayCall.advances {may : Expandables} (h : σ.DelayCall site e) (h' : σ.Advances may σ')
    (hforms : "delay" ∉ may.forms) : σ'.DelayCall site e := by
  obtain ⟨operands, hsite, hoperands⟩ := h.form
  obtain ⟨hawaits, hsite'⟩ := h'.waiting site _ h.awaits hsite (by simp)
    (by simp [Symbol.quasiquote]) (by simp) fun name hname heq => hforms (by simp_all)
  exact ⟨hawaits, operands, hsite', hoperands.mono h'.cells⟩

theorem IsDelayer.advances {may : Expandables} (h : σ.IsDelayer c) (h' : σ.Advances may σ') :
    σ'.IsDelayer c := by
  obtain ⟨code, definition, template, name, hclosure, hcode,
    ⟨r, r₁, r₂, target, list, rfl, hr, hr₁, ht, hlist, hr₂⟩, htemplate⟩ := h
  exact ⟨code, _, template, name, h'.closures _ _ hclosure, hcode.mono h'.cells,
    ⟨r, r₁, r₂, target, list, rfl, h'.cells _ _ hr, h'.cells _ _ hr₁, h'.cells _ _ ht,
      hlist.mono h'.cells, h'.cells _ _ hr₂⟩, h'.templates _ _ rfl htemplate⟩

theorem HasPromises.advances {may : Expandables} (h : σ.HasPromises c) (h' : σ.Advances may σ')
    (hnames : promiseBindings.map Prod.fst ∉ may.bindings)
    (hinner : σ'.Bound c.inner [("x", .pair c.call)] [.pair c.recheck]) : σ'.HasPromises c :=
  ⟨h.continues.changes h'.toChanges, h.binder.advances h', h.delayer.advances h',
    h.makes.advances h' hnames, h.code.lies.mono h'.cells, hinner⟩

/-- The local binding within promises is replaced once and for all. -/
theorem HasPromises.exists_unfolded (h : σ.HasPromises c) (hsealed : σ.heap.Sealed) :
    ∃ σ', σ.Advances (callSites ["x"]) σ' ∧ σ'.HasPromises c ∧
      σ'.Abstracted c.inner [("x", .pair c.call)] [.pair c.recheck] ∧ σ'.heap.Sealed := by
  rcases h.code.inner with hcall | habstracted
  · obtain ⟨operands, es, inner, w₁, x, hsite, helements, henter, w₂, hyields, σ', hworld, h',
      habstracted⟩ := hcall.exists_abstracted (callSites ["x"]) h.continues h.binder
        (List.mem_singleton_self _) (List.mem_singleton_self _)
    have hbinder : σ.heap.Has (.closure ⟨3⟩) := by
      obtain ⟨_, _, hclosure, -⟩ := h.binder
      exact (Array.getElem?_eq_some_iff.1 hclosure).1
    have hadmits : σ.heap.Has (.pair c.inner) := (Array.getElem?_eq_some_iff.1 hsite).1
    obtain ⟨hsealed', -⟩ := Evaluator.obeys_spliced (P := Heap.references) (fun _ _ _ => id)
      hsealed hsite hadmits hbinder helements henter hyields
    refine ⟨σ', h', h.advances h' (by decide) (Or.inr habstracted), habstracted, ?_⟩
    rwa [Moment.heap, hworld]
  · exact ⟨σ, .refl _ σ, h, habstracted, hsealed⟩

/-- The names of the prelude have their meanings in a new interpreter. -/
theorem locate?_begun (host : Host) (d : Datum) {name : String} {v : Value}
    (h : (name, v) ∈ Prelude.names ++ Prelude.delaying) :
    (begun host d).heap.locate? ⟨name⟩ .global = some (.global, v) :=
  (continues_reading World.areCalls_isPending host d).names _ _ _
    (World.locate?_known (List.mem_append_left _ h))

/-- In a new interpreter that has read it, a delayed expression is one as it was written. -/
theorem exists_delays_begun (host : Host) (d : Datum) : ∃ site e,
    (World.prelude.build (.form "delay" [d])).1 = .pair site ∧
    (begun host (.form "delay" [d])).Has e d ∧ (begun host (.form "delay" [d])).DelayCall site e ∧
    ∀ c stack, (begun host (.form "delay" [d])).Delays c site e .global stack := by
  have hdelay := locate?_begun host (.form "delay" [d]) (List.mem_append_right _ (.head _))
  obtain ⟨site, ⟨first, operands⟩, hsite, hawaits, hp, hfirst, hrest⟩ :=
    exists_form_reading World.areCalls_isPending host (.name "delay") (.list [d])
  obtain rfl : first = .symbol ⟨"delay"⟩ := hfirst.1
  obtain ⟨es, hoperands, hall⟩ := hrest.items _
  simp only [List.forall₂_cons_right_iff, List.forall₂_nil_right_iff] at hall
  obtain ⟨e, _, he, rfl, rfl⟩ := hall
  have hcall : (begun host (.form "delay" [d])).DelayCall site e :=
    ⟨hawaits, operands, hp, hoperands⟩
  exact ⟨site, e, hsite, he, hcall, fun _ _ => Or.inl ⟨hcall, .global, hdelay⟩⟩

theorem ready_begun (host : Host) (d : Datum) : Ready Heap.references (begun host d).world [] := by
  have hprelude : World.prelude.Sealed := by simpa only [World.new] using World.sealed_new host
  have hmade := Heap.references.makes_build (h := World.prelude) hprelude d
  exact ⟨hmade.1, by simp [MachinePolicy.AdmitsStack]⟩

/-! ### A promise that is forced while its expression is evaluated -/

theorem Has.isNested (h : σ.Has e nestedText) (hcells : ∀ r p, σ.Cell r p → σ'.Cell r p) :
    σ'.heap.IsNested e := by
  obtain ⟨es, hes, hall⟩ := h.items [_, _, _, _]
  simp only [List.forall₂_cons_right_iff, List.forall₂_nil_right_iff] at hall
  obtain ⟨_, _, ⟨rfl, -⟩, ⟨_, _, ⟨rfl, -⟩, ⟨_, _, ⟨rfl, -⟩, ⟨again, _, hagain, rfl, rfl⟩, rfl⟩, rfl⟩,
    rfl⟩ := hall
  obtain ⟨fs, hfs, hall⟩ := hagain.items [_, _]
  simp only [List.forall₂_cons_right_iff, List.forall₂_nil_right_iff] at hall
  obtain ⟨_, _, ⟨rfl, -⟩, ⟨assignment, _, hassignment, rfl, rfl⟩, rfl⟩ := hall
  obtain ⟨gs, hgs, hall⟩ := hassignment.items [_, _, _]
  simp only [List.forall₂_cons_right_iff, List.forall₂_nil_right_iff] at hall
  obtain ⟨_, _, ⟨rfl, -⟩, ⟨_, _, ⟨rfl, -⟩, ⟨_, _, ⟨rfl, -⟩, rfl, rfl⟩, rfl⟩, rfl⟩ := hall
  obtain ⟨again, _, rfl, -⟩ := hagain.pair
  obtain ⟨assignment, _, rfl, -⟩ := hassignment.pair
  have hpairs : ∀ r p, σ.Cell r p → σ'.heap.HasPair r p := fun r p hr => (hcells r p hr).2
  exact ⟨again, assignment, hes.mono hpairs, hfs.mono hpairs, hgs.mono hpairs⟩

/-- The scope for a promise that is not there yet, and for its mark. -/
def nestedScope : Scope :=
  ⟨(Std.TreeMap.insert {} "p" (.boolean false)).insert "done" (.boolean false), some .global⟩

theorem nestedScope_bindings (name : String) : nestedScope.bindings[name]? =
    List.lookup name [("done", .boolean false), ("p", .boolean false)] :=
  Heap.getElem?_insert_eq_lookup (Heap.getElem?_insert_eq_lookup (fun _ => rfl) _ _) _ _ _

/-- A place for the promise: the delayed expression as it was written, in such a scope, where a
promise has been forced before. -/
structure Nests (σ : Moment) (c : PromiseCode) (site : Ref .pair) (e : Value) (scope : Ref .scope) :
    Prop where
  promises : σ.HasPromises c
  inner : σ.Abstracted c.inner [("x", .pair c.call)] [.pair c.recheck]
  closed : σ.heap.Sealed
  call : σ.DelayCall site e
  expression : ∀ {σ'}, σ.Changes σ' → σ'.heap.IsNested e
  here : σ.heap.scopes[scope.index]? = some nestedScope
  inside : 0 < scope.index

theorem exists_nests : ∃ (σ : Moment) (c : PromiseCode) (site : Ref .pair) (e : Value)
    (scope : Ref .scope), (World.prelude.build (.form "delay" [nestedText])).1 = .pair site ∧
      (begun World.nowhere (.form "delay" [nestedText])).Changes σ ∧ σ.Nests c site e scope := by
  obtain ⟨c, hc⟩ := exists_hasPromises World.nowhere (.form "delay" [nestedText])
  obtain ⟨site, e, hsite, he, hcall, -⟩ := exists_delays_begun World.nowhere nestedText
  obtain ⟨σ₁, h₁, hσ₁, habstracted, hsealed⟩ :=
    hc.exists_unfolded (ready_begun World.nowhere _).good
  have h₂ := (σ₁.le_withScope nestedScope).advances (callSites ["x"])
  have h := h₁.trans h₂
  have hglobals : 0 < σ₁.heap.scopes.size := hsealed.globals
  have hvalues : ∀ (name : String) (v : Value), nestedScope.bindings[name]? = some v →
      σ₁.heap.Has v := fun name v hv => by
    simp only [nestedScope, Std.TreeMap.getElem?_insert] at hv
    split at hv
    · cases hv
      trivial
    · split at hv
      · cases hv
        trivial
      · simp at hv
  have hplaces := Heap.references.addScope (h := σ₁.heap) hsealed hvalues hglobals
  exact ⟨σ₁.withScope nestedScope, c, site, e, ⟨σ₁.heap.scopes.size⟩, hsite, h.toChanges,
    hσ₁.advances h₂ (by decide) (Or.inr (habstracted.mono h₂.cells)), habstracted.mono h₂.cells,
    hplaces.1, hcall.advances h (by decide),
    fun h' => he.isNested fun r p hr => h'.cells r p (h.cells r p hr), Array.getElem?_push_size,
    hglobals⟩

/-- When the promise is bound in the scope, nothing has begun. -/
theorem Nests.isOpen {P : Promise} (h : σ.Nests P.code site P.expression P.scope)
    (h' : σ.Changes σ') (hst : P.Stands none σ'.heap) :
    P.Open (.boolean false) (σ'.heap.bind P.scope ⟨"p"⟩ (.closure P.procedure)) := by
  have hbind : σ'.heap.Adds (· = P.scope) (σ'.heap.bind P.scope ⟨"p"⟩ (.closure P.procedure)) :=
    σ'.heap.adds_bind (· = P.scope) rfl _ _
  have hne : P.scope ≠ P.outer ∧ P.scope ≠ P.flags := by
    have hinside := hst.around.1.not_inside
    exact ⟨fun heq => hinside (heq ▸ .here), fun heq => hinside (heq ▸ hst.inside_flags)⟩
  have hpairs : ∀ r p, σ.Cell r p → σ'.heap.HasPair r p := fun r p hr => (h'.cells r p hr).2
  have hlies := h.promises.code.lies.mono hpairs
  have hworks : P.Works σ'.heap := ⟨⟨hlies.check, h.inner.expanded.mono hpairs, hlies.recheck⟩,
    hlies.call, hst.exists_procedure, hst.thunk, h.expression h'⟩
  have hglobal : ¬ Ref.global = P.scope := by
    intro heq
    exact Nat.ne_of_lt h.inside (congrArg Ref.index heq)
  refine ⟨hworks.adds hbind, hst.toVariables.adds hbind hne.1.symm hne.2.symm,
    ⟨⟨nestedScope.bindings.insert "p" (.closure P.procedure), ?_, fun name => ?_⟩, h.inside,
      hbind.locate?_global hglobal ?_⟩, hne⟩
  · have hscope := h'.scopes _ _ h.here
    simp [Heap.bind, Array.getElem?_modify, hscope, nestedScope]
  · rw [Heap.getElem?_insert_eq_lookup nestedScope_bindings]
    simp only [List.lookup_cons]
    by_cases hname : name = "p"
    · simp [hname]
    · rw [beq_eq_false_iff_ne.2 hname]
  · exact locate?_changes h' (h.promises.continues.names _ _ _ (World.locate?_known
      (List.mem_append_left _ (List.mem_append_right _ (.tail _ (.head _))))))

/-- The assignment that waits for the promise is made. -/
theorem Nests.goes_bound {P : Promise} (h : σ.Nests P.code site P.expression P.scope)
    (h' : σ.Changes σ') (v : Value) (limit : Nat) :
    State.Goes (State.Quiet (σ'.heap.Adds P.Own) fun _ => True) [] (fun _ => False)
      (· = ⟨.resume v, [],
        { σ'.world.onLevel 0 limit with heap := σ'.heap.bind P.scope ⟨"p"⟩ v }⟩)
      ⟨.resume v, [.assignment ⟨"p"⟩ P.scope], σ'.world.onLevel 0 limit⟩ :=
  State.goes_assigned (w := σ'.world.onLevel 0 limit)
    (Heap.locate?_here (h'.scopes _ _ h.here) (nestedScope_bindings _)) (.refl _ _) (.arrived rfl)

end Moment

end Scheme
