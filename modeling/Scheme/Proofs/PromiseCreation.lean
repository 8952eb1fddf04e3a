import Scheme.Proofs.PromiseForms
import Scheme.Proofs.PromiseRuns
/-!
# How promises are made

A delayed expression comes down to a promise: to a procedure over two new variables, in a scope next
to the procedure that evaluates the expression. All that was there before is outside of that scope,
and what happens while the promise is made does not lead there.
-/

namespace Scheme

open Step Evaluator

/-! ## Policies for expansions -/

section Policies

variable {P : MachinePolicy} (hshared : ∀ h x scope, ¬ P.enters h x scope)

include hshared

/-- An evaluation in direct style keeps to a policy. -/
theorem Evaluator.Yields.obeys {x v : Value} {scope : Ref .scope} {w w' : World}
    (h : Yields x scope w v w') (hgood : P.good w.heap) (hx : P.admits w.heap x)
    (hscope : P.usable w.heap scope) :
    P.good w'.heap ∧ P.leads w.heap w'.heap ∧ P.admits w'.heap v := by
  obtain ⟨least, hwithin⟩ := h.evaluatesWithin
  obtain ⟨n, hn⟩ := hwithin least (Nat.le_refl _)
  have hready : Ready P (w.onLevel 0 least) [] := ⟨hgood, by simp [MachinePolicy.AdmitsStack]⟩
  have hbegun : (go (.eval x scope) [] (w.onLevel 0 least)).Obeys P w.heap :=
    obeys_go hready ⟨hx, hscope⟩
  have hsteps := hbegun.steps hshared n
  rw [hn] at hsteps
  exact ⟨hsteps.1, hsteps.2.1, hsteps.2.2 v rfl⟩

/-- An expression in a tail position keeps to a policy. -/
theorem Focus.Tail.obeys {k : Nat} {f f' : Focus} (h : f.Tail k f') (hgood : P.good f.world.heap)
    (hform : P.admits f.world.heap f.form) (hscope : P.usable f.world.heap f.scope) :
    P.good f'.world.heap ∧ P.leads f.world.heap f'.world.heap := by
  obtain ⟨n, hn⟩ := h.reaches (d := 0) (m := k) (by omega) []
  have hready : Ready P (f.world.onLevel 0 k) [] := ⟨hgood, by simp [MachinePolicy.AdmitsStack]⟩
  have hbegun : (f.reduce [] 0 k).Obeys P f.world.heap := obeys_go hready ⟨hform, hscope⟩
  have hsteps := hbegun.steps hshared n
  rw [hn] at hsteps
  exact ⟨hsteps.1, hsteps.2.1⟩

/-- A call of a transformer keeps to a policy, with what it answers in the place of the call. -/
theorem Evaluator.obeys_spliced {site : Ref .pair} {c : Ref .closure} {head operands v : Value}
    {es : List Value} {inner : Ref .scope} {w w₁ w₂ : World} (hgood : P.good w.heap)
    (hsite : w.heap.pairs[site.index]? = some ⟨head, operands⟩)
    (hadmits : P.admits w.heap (.pair site)) (hc : P.admits w.heap (.closure c))
    (helements : World.elements operands w = .value es w)
    (henter : w.enter (w.heap.closure c).parameters es (w.heap.closure c).scope = (inner, w₁))
    (hyields : Yields (w.heap.closure c).body inner w₁ v w₂) :
    P.good (spliced site c v w₂).heap ∧ P.leads w.heap (spliced site c v w₂).heap := by
  have hready : Ready P w [] := ⟨hgood, by simp [MachinePolicy.AdmitsStack]⟩
  have hoperands : P.admits w.heap operands := by
    have hfields := (P.fields hgood hadmits).2
    rwa [Heap.pair_eq_of_getElem? hsite] at hfields
  have hes : ∀ v ∈ es, P.admits w.heap v := by
    have hobeys := World.obeys_elements (P := P.toPolicy) hoperands w (P.refl _) hgood
    rw [helements] at hobeys
    exact hobeys.2.2
  obtain ⟨hready₁, hleads₁, hcode⟩ := opens_enter hready hc hes
  rw [henter] at hready₁ hleads₁ hcode
  obtain ⟨hbody, hscope⟩ := hcode.resolve_right (hshared _ _ _)
  obtain ⟨hgood₂, hleads₂, hv⟩ := hyields.obeys hshared hready₁.good hbody hscope
  have hleads := P.trans hleads₁ hleads₂
  have hready₂ : Ready P w₂ [] := ⟨hgood₂, by simp [MachinePolicy.AdmitsStack]⟩
  have hobeys : (replace site c none v [] w₂).Obeys P w₂.heap :=
    obeys_replace hready₂ (P.mono hleads hadmits) (by simp) hv
  exact ⟨hobeys.1, P.trans hleads hobeys.2.1⟩

end Policies

/-! ## Heaps without a promise -/

namespace Seclusion

variable {S : Seclusion} {h h' : Heap} {v : Value}

/-- A way in may be made later. -/
theorem Shows.withEntrance (hv : S.Shows h v) (hnone : S.entrance = none) (e : Entrance) :
    Seclusion.Shows { S with entrance := some e } h v := by
  cases v with
  | closure c | transformer c =>
      obtain ⟨hne, code, hc, ⟨e', he', -⟩ | hcode⟩ := hv
      · rw [hnone] at he'
        cases he'
      · exact ⟨hne, code, hc, Or.inr hcode⟩
  | _ => trivial

theorem Secludes.withEntrance (hs : S.Secludes h) (hnone : S.entrance = none) {e : Entrance}
    (hscope : e.scope.index < h.scopes.size) (hclosure : ∃ name,
      h.closures[e.procedure.index]? = some ⟨⟨[], none⟩, e.code, e.scope, name⟩) :
    Seclusion.Secludes { S with entrance := some e } h where
  pairs p hp := ⟨(hs.pairs p hp).1.withEntrance hnone e, (hs.pairs p hp).2.withEntrance hnone e⟩
  vectors cells hcells v hv := (hs.vectors cells hcells v hv).withEntrance hnone e
  bindings i t ht hne name v hv := (hs.bindings i t ht hne name v hv).withEntrance hnone e
  code c hc := (hs.code c hc).withEntrance hnone e
  slots k hk := (hs.slots k hk).withEntrance hnone e
  global := hs.global
  around := hs.around
  frame := hs.frame
  outer := hs.outer
  hidden := hs.hidden
  entrance e' he' := by
    cases he'
    exact ⟨hscope, hclosure⟩

end Seclusion

namespace Heap

variable {h : Heap} {frame scope : Ref .scope} {e : Value} {bindings : Std.TreeMap String Value}

/-- The heap with a procedure that evaluates the expression, and a scope next to it. -/
def withThunk (h : Heap) (e : Value) (scope frame : Ref .scope)
    (bindings : Std.TreeMap String Value) :
    Heap :=
  ((h.addClosure ⟨⟨[], none⟩, e, scope, none⟩).2.addScope ⟨bindings, some frame⟩).2

/-- The new scope and the procedure in it, which nobody has seen. -/
def unseen (h : Heap) (frame : Ref .scope) : Seclusion where
  outer := ⟨h.scopes.size⟩
  frame := frame
  free := ⟨"let"⟩
  hidden := ⟨h.closures.size⟩
  entrance := none

theorem spares_withThunk (h : Heap) (e : Value) (scope frame : Ref .scope)
    (bindings : Std.TreeMap String Value) (outer : Ref .scope) :
    h.Spares outer (h.withThunk e scope frame bindings) :=
  (h.spares_addClosure _).trans (spares_addScope _ _)

variable (hs : h.Sealed)
include hs

/-- Scopes that were there before are outside. -/
theorem Sealed.outside {s : Ref .scope} (hlt : s.index < h.scopes.size) :
    (h.withThunk e scope frame bindings).Outside ⟨h.scopes.size⟩ s :=
  (hs.closed.outside hlt hlt).mono (h.spares_withThunk e scope frame bindings ⟨0⟩).toFollows

/-- Values that were there before may be seen. -/
theorem Sealed.shows {v : Value} (hv : h.Has v) :
    (h.unseen frame).Shows (h.withThunk e scope frame bindings) v := by
  cases v with
  | closure c | transformer c =>
      have hlt : c.index < h.closures.size := hv
      have hc : h.closures[c.index]? = some h.closures[c.index] := Array.getElem?_eq_getElem hlt
      obtain ⟨name, hc'⟩ := (h.spares_withThunk e scope frame bindings ⟨0⟩).code _ _ hc
      refine ⟨fun heq => ?_, _, hc', Or.inr (hs.outside ?_)⟩
      · rw [heq] at hlt
        exact Nat.lt_irrefl _ hlt
      · exact (hs.closed.closures _ (Array.getElem_mem hlt)).2
  | _ => trivial

/-- Nothing that was there before leads to the new scope. -/
theorem Sealed.secludes {t : Scope} (hframe : h.scopes[frame.index]? = some t)
    (hparent : t.parent = some .global) (hfree : t.bindings["let"]? = none) (he : h.Has e) :
    (h.unseen frame).Secludes (h.withThunk e scope frame bindings) where
  pairs p hp := ⟨hs.shows (hs.closed.pairs p hp).1, hs.shows (hs.closed.pairs p hp).2⟩
  vectors cells hcells v hv := hs.shows (hs.closed.vectors cells hcells v hv)
  bindings i t' ht hne name v hv := by
    have ht : (h.scopes.push ⟨bindings, some frame⟩)[i]? = some t' := ht
    have hne : i ≠ h.scopes.size := hne
    rw [Array.getElem?_push, if_neg hne] at ht
    exact hs.shows (hs.closed.bindings t' (Array.mem_of_getElem? ht) name v hv)
  code c hc := by
    rcases Array.mem_push.1 hc with hold | rfl
    · exact hs.shows (hs.closed.closures c hold).1
    · exact hs.shows he
  slots k hk := hs.shows (hs.closed.continuations k hk)
  global := by
    refine ⟨hs.outside hs.globals, ?_⟩
    rintro heq
    have hlt := hs.closed.parents _ _ hframe _ hparent
    rw [show frame = .global from heq.symm] at hlt
    exact Nat.lt_irrefl _ hlt
  around := hs.outside (Array.getElem?_eq_some_iff.1 hframe).1
  frame := ⟨t, getElem?_push_of_some _ hframe, hparent, hfree⟩
  outer := by simp [unseen, withThunk, addScope, addClosure]
  hidden := by simp [unseen, withThunk, addScope, addClosure]
  entrance e' he' := by cases he'

end Heap

/-! ## Calls of closures -/

theorem EvaluatesWithin.constant {k : Nat} {v : Value} (hv : v.isSelfEvaluating = true)
    (scope : Ref .scope) (w : World) : EvaluatesWithin (k + 1) v scope w v w := by
  refine .of_reduce ⟨2, ?_⟩
  cases v with
  | symbol | pair => cases hv
  | _ => rfl

theorem OperandsWithin.single {k : Nat} {ref : Ref .pair} {x v : Value} {scope : Ref .scope}
    {w w₁ : World} (hcell : w.heap.pair ref = ⟨x, .nil⟩) (h : EvaluatesWithin k x scope w v w₁) :
    OperandsWithin k scope (.pair ref) w [v] w₁ := by
  have hfirst : EvaluatesWithin k (w.heap.pair ref).first scope w v w₁ := by rwa [hcell]
  refine .cons hfirst ?_
  rw [hcell]
  exact .nil

namespace Moment

variable {σ σ₁ σ₂ : Moment} {c : PromiseCode} {m closure : Ref .closure} {site l : Ref .pair}
  {scope frame owner parent outer : Ref .scope} {e head rest body : Value} {vs : List Value}
  {names : List String}

/-- A call of a closure enters its body with the values of the operands. -/
theorem Encloses.calls (hc : σ₂.Encloses closure names body parent)
    (hlength : vs.length = names.length)
    (hsite : σ.heap.pairs[site.index]? = some ⟨head, rest⟩)
    (hspecial : Pair.isSpecial ⟨head, rest⟩ = false)
    (hhead : Yields head scope σ.world (.closure closure) σ₁.world)
    (hoperands : ∃ least, ∀ k, least ≤ k → OperandsWithin k scope rest σ₁.world vs σ₂.world) :
    ∃ least, ∀ k, least ≤ k → Focus.Calls k ⟨.pair site, scope, σ.world⟩
      ⟨body, ⟨σ₂.heap.scopes.size⟩,
        (σ₂.withScope ⟨(Heap.bindFixed {} (names.map Symbol.mk) vs).1, some parent⟩).world⟩ := by
  obtain ⟨least, hhead⟩ := hhead.evaluatesWithin
  obtain ⟨least', hoperands⟩ := hoperands
  refine ⟨max least least', fun k hk => ?_⟩
  have hpair : σ.world.heap.pair site = ⟨head, rest⟩ := Heap.pair_eq_of_getElem? hsite
  obtain ⟨name, hclosure⟩ := hc.closure_eq
  have hcalls : Focus.Calls k ⟨.pair site, scope, σ.world⟩ _ := .closure (by rwa [hpair])
    (by rw [hpair]; exact hhead k (by omega)) (by rw [hpair]; exact hoperands k (by omega))
    (hc.enter hlength)
  rwa [hclosure] at hcalls

/-- The moment after a call of the procedure that makes promises. -/
def atMaker (σ : Moment) (e : Value) (scope frame : Ref .scope) : Moment :=
  (σ.withClosure ⟨⟨[].map Symbol.mk, none⟩, e, scope, none⟩).withScope
    ⟨(Heap.bindFixed {} (["proc"].map Symbol.mk) [.closure ⟨σ.heap.closures.size⟩]).1, some frame⟩

theorem le_atMaker (σ : Moment) (e : Value) (scope frame : Ref .scope) :
    σ.Le (σ.atMaker e scope frame) :=
  (σ.le_withClosure _).trans (Moment.le_withScope _ _)

/-- What a delayed expression has been replaced by makes a procedure that evaluates the expression,
and calls the one that makes promises. -/
theorem PromiseForm.calls (h : σ.PromiseForm site m e) (hm : σ.IsMaker c m frame)
    (scope : Ref .scope) : ∃ least, ∀ k, least ≤ k → Focus.Calls k ⟨.pair site, scope, σ.world⟩
      ⟨.pair c.outer, ⟨σ.heap.scopes.size⟩, (σ.atMaker e scope frame).world⟩ := by
  obtain ⟨operands, l, forms, hsite, hoperands, ⟨inner, list, hl, hinner, hlist⟩, hforms⟩ := h
  have hthunk := yields_abstraction hl hinner hlist hforms scope
  have hle := σ.le_withClosure ⟨⟨[].map Symbol.mk, none⟩, e, scope, none⟩
  obtain ⟨least, hthunk⟩ := hthunk.evaluatesWithin
  exact (hm.1.changes (hle.advances ⟨[], [], []⟩).toChanges).calls rfl hsite rfl
    (Yields.selfEvaluating rfl) ⟨least, fun k hk => .single hoperands.eq (hthunk k hk)⟩

/-- Local bindings are replaced when they are evaluated, and a secluded scope stays so meanwhile. -/
theorem Bound.exists_abstracted {S : Seclusion} {bindings : List (String × Value)}
    {forms : List Value}
    (h : σ.Bound site bindings forms) (hσ : σ.Continues World.prelude) (hb : σ.IsBinder)
    (hlet : σ.heap.locate? ⟨"let"⟩ scope = some (owner, .transformer ⟨3⟩))
    (hs : S.Secludes σ.heap) (hnone : S.entrance = none) (hbinder : S.Shows σ.heap (.closure ⟨3⟩)) :
    ∃ σ', σ.Advances (callSites (bindings.map Prod.fst)) σ' ∧ σ'.Abstracted site bindings forms ∧
      S.Secludes σ'.heap ∧ σ.heap.Spares S.outer σ'.heap ∧ ∃ least, ∀ k, least ≤ k →
        Focus.Iterates k 0 ⟨.pair site, scope, σ.world⟩ ⟨.pair site, scope, σ'.world⟩ := by
  rcases h with h | h
  · obtain ⟨operands, es, inner, w₁, x, hsite, helements, henter, w₂, hyields, σ', hworld, h₁,
      habstracted⟩ := h.exists_abstracted (callSites (bindings.map Prod.fst)) hσ hb
        (List.mem_singleton_self _) (List.mem_singleton_self _)
    have hshared : ∀ h x scope, ¬ S.policy.enters h x scope := fun _ _ _ hopens => by
      obtain ⟨e, he, -⟩ := hopens
      rw [hnone] at he
      cases he
    obtain ⟨hs', hspares⟩ := obeys_spliced (P := S.policy) hshared hs hsite trivial hbinder
      helements henter hyields
    rw [← hworld] at hs' hspares
    obtain ⟨least, htail⟩ := Focus.exists_tail (Heap.pair_eq_of_getElem? hsite) rfl hlet helements
      henter hyields
    rw [← hworld] at htail
    exact ⟨σ', h₁, habstracted, hs', hspares, least, fun k hk => .tail (htail k hk) (.refl _)⟩
  · exact ⟨σ, .refl _ σ, h, hs, .refl _ _, 0, fun k _ => .refl _⟩

/-- The moment after the call of an abstraction that is closed over the scope. -/
def within (σ : Moment) (bindings : List (String × Value)) (body : Value) (scope : Ref .scope) :
    Moment :=
  (σ.withClosure ⟨⟨(bindings.map Prod.fst).map Symbol.mk, none⟩, body, scope, none⟩).withScope
    ⟨(Heap.bindFixed {} ((bindings.map Prod.fst).map Symbol.mk) (bindings.map Prod.snd)).1,
      some scope⟩

/-- Local bindings to constants enter their body. -/
theorem Abstracted.calls {bindings : List (String × Value)} (h : σ.Abstracted site bindings [body])
    (hconstants : ∀ b ∈ bindings, b.2.isSelfEvaluating = true) (scope : Ref .scope) :
    ∃ least, ∀ k, least ≤ k → Focus.Calls k ⟨.pair site, scope, σ.world⟩
      ⟨body, ⟨σ.heap.scopes.size⟩, (σ.within bindings body scope).world⟩ := by
  obtain ⟨head, operands, inner, names, forms, hsite, hoperands, hhead, hinner, hnames, hforms⟩ :=
    h.form
  obtain ⟨r, rfl, hr⟩ : ∃ r, forms = .pair r ∧ σ.Cell r ⟨body, .nil⟩ := by
    cases hforms with
    | cons hr hrest =>
        cases hrest
        exact ⟨_, rfl, hr⟩
  have hnames' : Items σ.Cell names ((bindings.map Prod.fst).map fun name => .symbol ⟨name⟩) := by
    rw [List.map_map]
    exact hnames
  have hclosure := yields_abstraction hhead hinner hnames' hr scope
  have hle := σ.le_withClosure ⟨⟨(bindings.map Prod.fst).map Symbol.mk, none⟩, body, scope, none⟩
  refine (σ.encloses_withClosure _ body scope).calls (by simp) hsite.2 rfl hclosure
    ⟨1, fun k hk => ?_⟩
  obtain ⟨k, rfl⟩ : ∃ j, k = j + 1 := ⟨k - 1, by omega⟩
  refine .of_lists ((hoperands.mono hle.cells).mono fun _ _ hcell => hcell.2) ?_
  rw [List.forall₂_same]
  intro v hv
  obtain ⟨b, hb, rfl⟩ := List.mem_map.1 hv
  exact .constant (hconstants b hb) _ _

/-- The scope of the procedure that evaluates the expression binds nothing else. -/
theorem getElem?_atMaker (σ : Moment) (e : Value) (scope frame : Ref .scope) : ∃ bindings,
    (σ.atMaker e scope frame).heap.scopes[σ.heap.scopes.size]? = some ⟨bindings, some frame⟩ ∧
      ∀ name : String, bindings[name]? =
        List.lookup name [("proc", .closure ⟨σ.heap.closures.size⟩)] := by
  exact ⟨_, Array.getElem?_push_size, Heap.getElem?_bindFixed_pairs
    [("proc", .closure ⟨σ.heap.closures.size⟩)] (by simp)⟩

/-- The name of local bindings has its global meaning there. -/
theorem locate?_atMaker (hσ : σ.Continues World.prelude) (hsealed : σ.heap.Sealed)
    (hframe : σ.IsFrame frame) :
    (σ.atMaker e scope frame).heap.locate? ⟨"let"⟩ ⟨σ.heap.scopes.size⟩ =
      some (.global, .transformer ⟨3⟩) := by
  obtain ⟨t, ht, hparent, hfree⟩ := hframe
  obtain ⟨bindings, houter, hproc⟩ := σ.getElem?_atMaker e scope frame
  have hle := σ.le_atMaker e scope frame
  have hglobal := (hσ.changes (hle.advances ⟨[], [], []⟩).toChanges).names _ _ _
    (World.locate?_prelude (by decide : ("let", Value.transformer ⟨3⟩) ∈ Prelude.names))
  refine Heap.locate?_within houter rfl (Array.getElem?_eq_some_iff.1 ht).1 (hproc _) ?_
  exact Heap.locate?_within (hle.scopes _ _ ht) hparent
    (hsealed.closed.parents _ _ ht _ hparent) hfree hglobal

end Moment

/-! ## The promise -/

/-- The two variables hide the promise, and its procedure leads there. -/
def Seclusion.promise (S : Seclusion) (h : Heap) (c : PromiseCode) (e : Value)
    (scope : Ref .scope) :
    Promise :=
  ⟨c, S.frame, S.outer, ⟨h.scopes.size⟩, S.hidden, ⟨h.closures.size + 1⟩, e, scope⟩

/-- The moment after the procedure was made, within local bindings of the two variables. -/
def Moment.made (σ : Moment) (c : PromiseCode) (l : Ref .pair) (outer : Ref .scope) : Moment :=
  (σ.within promiseBindings (.pair l) outer).withClosure
    ⟨⟨[].map Symbol.mk, none⟩, .pair c.check, ⟨σ.heap.scopes.size⟩, none⟩

namespace Moment

variable {σ : Moment} {S : Seclusion} {c : PromiseCode} {l : Ref .pair} {scope outer : Ref .scope}
  {e : Value}

theorem le_made (σ : Moment) (c : PromiseCode) (l : Ref .pair) (outer : Ref .scope) :
    σ.Le (σ.made c l outer) :=
  ((σ.le_withClosure _).trans (le_withScope _ _)).trans (le_withClosure _ _)

theorem spares_made (σ : Moment) (c : PromiseCode) (l : Ref .pair) (outer s : Ref .scope) :
    σ.heap.Spares s (σ.made c l outer).heap :=
  ((σ.heap.spares_addClosure _).trans (Heap.spares_addScope _ _)).trans (Heap.spares_addClosure _ _)

theorem secludes_made (hs : S.Secludes σ.heap) : S.Secludes (σ.made c l outer).heap := by
  have hvariables : ∀ (name : String) (v : Value), (Heap.bindFixed {}
      ((promiseBindings.map Prod.fst).map Symbol.mk) (promiseBindings.map Prod.snd)).1[name]? =
        some v → v = .boolean false := fun name v hv => by
    rw [Heap.getElem?_bindFixed_pairs promiseBindings (by decide)] at hv
    simp only [promiseBindings, List.lookup_cons, List.lookup_nil] at hv
    grind
  refine Seclusion.Secludes.addClosure (Seclusion.Secludes.addScope (hs.addClosure ?_)
    fun name v hv => ?_) ?_
  · exact trivial
  · rw [hvariables name v hv]
    trivial
  · exact trivial

theorem procedure_made (σ : Moment) (c : PromiseCode) (l : Ref .pair) (outer : Ref .scope) :
    (σ.made c l outer).heap.closures[σ.heap.closures.size + 1]? =
      some ⟨⟨[], none⟩, .pair c.check, ⟨σ.heap.scopes.size⟩, none⟩ := by
  change ((σ.heap.closures.push _).push _)[σ.heap.closures.size + 1]? = _
  rw [← Array.size_push]
  exact Array.getElem?_push_size

theorem secludes_promise (hs : S.Secludes σ.heap) (hnone : S.entrance = none)
    (hfree : S.free = ⟨"let"⟩) :
    (S.promise σ.heap c e scope).seclusion.Secludes (σ.made c l outer).heap := by
  have hmade : S.Secludes (σ.made c l outer).heap := secludes_made hs
  obtain ⟨outer', frame, free, hidden, entrance⟩ := S
  subst hfree
  refine hmade.withEntrance hnone ?_ ⟨none, σ.procedure_made c l outer⟩
  change σ.heap.scopes.size < (σ.heap.scopes.push _).size
  rw [Array.size_push]
  exact Nat.lt_succ_self _

/-- The two variables are new, around the procedure. -/
theorem variables_made {bindings : Std.TreeMap String Value} {proc : Value}
    (houter : σ.heap.scopes[S.outer.index]? = some ⟨bindings, some S.frame⟩)
    (hproc : ∀ name : String, bindings[name]? = List.lookup name [("proc", proc)])
    (holder : 0 < S.frame.index ∧ S.frame.index < S.outer.index) :
    (S.promise σ.heap c e scope).Variables proc none (σ.made c l S.outer).heap :=
  ⟨⟨bindings, (σ.le_made c l S.outer).scopes _ _ houter, hproc⟩,
    ⟨_, Array.getElem?_push_size, Heap.getElem?_bindFixed_pairs promiseBindings (by decide)⟩,
    holder.1, holder.2, (Array.getElem?_eq_some_iff.1 houter).1⟩

theorem stands_made {bindings : Std.TreeMap String Value} (hs : S.Secludes σ.heap)
    (hnone : S.entrance = none) (hfree : S.free = ⟨"let"⟩)
    (houter : σ.heap.scopes[S.outer.index]? = some ⟨bindings, some S.frame⟩)
    (hproc : ∀ name : String, bindings[name]? = List.lookup name [("proc", .closure S.hidden)])
    (hthunk : ∃ name, σ.heap.closures[S.hidden.index]? = some ⟨⟨[], none⟩, e, scope, name⟩)
    (hscope : S.Opens σ.heap scope) (holder : 0 < S.frame.index ∧ S.frame.index < S.outer.index) :
    (S.promise σ.heap c e scope).Stands none (σ.made c l S.outer).heap := by
  have hle := σ.le_made c l S.outer
  obtain ⟨name, hthunk⟩ := hthunk
  have hopens := hscope.mono (σ.spares_made c l S.outer S.outer).toFollows
  exact ⟨variables_made houter hproc holder, secludes_promise hs hnone hfree,
    ⟨name, hle.closures _ _ hthunk⟩, hopens⟩

/-- Local bindings of the two variables come to the procedure. -/
theorem Produces.reaches_made (h : σ.Produces c l) (outer : Ref .scope) :
    ∃ least, ∀ k, least ≤ k → ∀ {d m : Nat}, d + k ≤ m → ∀ stack,
      (Focus.reduce ⟨.pair c.outer, outer, σ.world⟩ stack d m).Reaches
        (go (.resume (.closure ⟨σ.heap.closures.size + 1⟩)) stack
          ((σ.made c l outer).world.onLevel d m)) := by
  obtain ⟨forms, habstracted, hl, hforms⟩ := h
  obtain ⟨least, hcalls⟩ := habstracted.calls (by decide) outer
  refine ⟨least, fun k hk d m hm stack => ((hcalls k hk).reaches hm stack).trans (Reaches.next ?_)⟩
  let w := (σ.within promiseBindings (.pair l) outer).world
  have hle : σ.Le (σ.within promiseBindings (.pair l) outer) :=
    (σ.le_withClosure _).trans (le_withScope _ _)
  obtain ⟨inner, list, hl, hinner, hlist⟩ := hl
  have hcell : ∀ r p, σ.Cell r p → w.heap.HasPair r p := fun r p hr => (hle.cells r p hr).2
  have habstraction := State.step_abstraction (w := w.onLevel d m) []
    (.cons (hcell _ _ hl) (.cons (hcell _ _ hinner) (.cons (hcell _ _ hforms) .nil)))
    (hlist.mono hcell) ⟨σ.heap.scopes.size⟩ stack
  refine .of_eq (habstraction.trans ?_)
  change go (.resume (.closure ⟨(σ.heap.closures.push _).size⟩)) stack _ = _
  rw [Array.size_push]
  rfl

/-- What a delayed expression has been replaced by comes to a promise of the expression. -/
theorem PromiseForm.makes {m : Ref .closure} {site : Ref .pair} {frame : Ref .scope}
    (h : σ.PromiseForm site m e) (hm : σ.IsMaker c m frame) (hmakes : σ.Makes c)
    (hσ : σ.Continues World.prelude) (hb : σ.IsBinder) (hsealed : σ.heap.Sealed)
    (hscope : scope.index < σ.heap.scopes.size) (hne : scope ≠ frame) :
    ∃ (P : Promise) (σ' : Moment), P.code = c ∧ P.frame = frame ∧ P.expression = e ∧
      P.scope = scope ∧ σ.Advances (callSites (promiseBindings.map Prod.fst)) σ' ∧
      P.Stands none σ'.heap ∧ (∃ l, σ'.Produces c l) ∧ P.unseen.Secludes σ'.heap ∧
      (∀ v, σ.heap.Has v → P.unseen.Shows σ'.heap v) ∧
      (∀ s : Ref .scope, s.index < σ.heap.scopes.size → s ≠ frame → P.seclusion.Opens σ'.heap s) ∧
      ∃ least, ∀ k, least ≤ k → ∀ {d m : Nat}, d + k ≤ m → ∀ stack,
        (Focus.reduce ⟨.pair site, scope, σ.world⟩ stack d m).Reaches
          (go (.resume (.closure P.procedure)) stack (σ'.world.onLevel d m)) := by
  obtain ⟨t, hframe, hparent, hfree⟩ := id hm.2
  have he : σ.heap.Has e := by
    obtain ⟨_, _, forms, -, -, -, hforms⟩ := h
    exact (hsealed.closed.pairs _ (Array.mem_of_getElem? hforms.2)).1
  have hbinder : σ.heap.Has (.closure ⟨3⟩) := by
    obtain ⟨_, _, hclosure, -⟩ := hb
    exact (Array.getElem?_eq_some_iff.1 hclosure).1
  have hle₁ := σ.le_atMaker e scope frame
  obtain ⟨l, forms, hbound, hl, hforms⟩ := hmakes
  obtain ⟨σ₂, h₂, habstracted, hs₂, hspares, least₂, hunfolds⟩ :=
    (hbound.advances (hle₁.advances ⟨[], [], []⟩) (by simp)).exists_abstracted
      (hσ.changes (hle₁.advances ⟨[], [], []⟩).toChanges) (hb.advances (hle₁.advances ⟨[], [], []⟩))
      (locate?_atMaker hσ hsealed hm.2) (hsealed.secludes hframe hparent hfree he) rfl
      (hsealed.shows hbinder)
  have hcells : ∀ r p, σ.Cell r p → σ₂.Cell r p := fun r p hr => h₂.cells _ _ (hle₁.cells _ _ hr)
  obtain ⟨bindings, houter, hproc⟩ := σ.getElem?_atMaker e scope frame
  obtain ⟨least₁, hcalls⟩ := h.calls hm scope
  have hproduces : σ₂.Produces c l := ⟨forms, habstracted, hl.mono hcells, hcells _ _ hforms⟩
  obtain ⟨least₃, hreaches⟩ := hproduces.reaches_made ⟨σ.heap.scopes.size⟩
  have hopens : ∀ s : Ref .scope, s.index < σ.heap.scopes.size → s ≠ frame →
      (σ.heap.unseen frame).Opens σ₂.heap s := fun s hs hne =>
    ⟨(hsealed.outside hs).mono hspares.toFollows, hne⟩
  have hspares' := σ₂.spares_made c l ⟨σ.heap.scopes.size⟩ ⟨σ.heap.scopes.size⟩
  have holder : 0 < frame.index ∧ frame.index < σ.heap.scopes.size :=
    ⟨hsealed.closed.parents _ _ hframe _ hparent, (Array.getElem?_eq_some_iff.1 hframe).1⟩
  have hst : ((σ.heap.unseen frame).promise σ₂.heap c e scope).Stands none
      (σ₂.made c l ⟨σ.heap.scopes.size⟩).heap :=
    stands_made hs₂ rfl rfl (h₂.scopes _ _ houter) hproc
      ⟨none, h₂.closures _ _ Array.getElem?_push_size⟩ (hopens scope hscope hne) holder
  refine ⟨_, σ₂.made c l ⟨σ.heap.scopes.size⟩, rfl, rfl, rfl, rfl,
    ((hle₁.advances _).trans h₂).trans ((σ₂.le_made _ _ _).advances _), hst,
    ⟨l, hproduces.mono (σ₂.le_made _ _ _).cells⟩, secludes_made hs₂,
    fun v hv => (hsealed.shows hv).mono (hspares.trans hspares').toFollows,
    fun s hs hne => (hopens s hs hne).mono hspares'.toFollows, max least₁ (max least₂ least₃),
    fun k hk d m hm stack => ?_⟩
  · exact ((hcalls k (by omega)).reaches hm stack).trans
      (((hunfolds k (by omega)).reaches hm stack).trans (hreaches k (by omega) hm stack))

end Moment

/-! ## Pending work -/

/-- The scope that the pending work goes on in. -/
def Pending.scope? : Pending → Option (Ref .scope)
  | .operator _ _ scope | .operand _ _ _ _ scope | .sequence _ scope | .assignment _ scope
  | .definition _ scope | .branch _ scope | .clause _ _ scope => some scope
  | .expansion _ _ scope => scope
  | _ => none

/-- Work that was pending before keeps to the policy that came later. -/
theorem Pending.Admitted.secluded {S : Seclusion} {h h' : Heap} {p : Pending}
    (hp : p.Admitted Heap.references h) (hshows : ∀ v, h.Has v → S.Shows h' v)
    (hopens : ∀ s ∈ p.scope?, s.index < h.scopes.size → S.Opens h' s) : p.Admitted S.policy h' := by
  have hall : ∀ {vs : List Value}, (∀ v ∈ vs, h.Has v) → ∀ v ∈ vs, S.Shows h' v :=
    fun hvs v hv => hshows v (hvs v hv)
  cases p with
  | operator => exact ⟨hshows (.pair _) hp.1, hshows _ hp.2.1, hopens _ rfl hp.2.2⟩
  | operand => exact ⟨hshows _ hp.1, hall hp.2.1, hshows _ hp.2.2.1, hopens _ rfl hp.2.2.2⟩
  | expansion => exact ⟨hshows (.pair _) hp.1, fun s hs => hopens s hs (hp.2 s hs)⟩
  | sequence | branch => exact ⟨hshows _ hp.1, hopens _ rfl hp.2⟩
  | assignment | definition => exact hopens _ rfl hp
  | clause => exact ⟨hshows _ hp.1, hshows _ hp.2.1, hopens _ rfl hp.2.2⟩
  | mapping => exact ⟨hshows _ hp.1, hall hp.2.1, hall hp.2.2⟩
  | timing | expandingHead => exact hshows _ hp
  | _ => trivial

end Scheme
