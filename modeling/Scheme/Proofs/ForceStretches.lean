import Scheme.Proofs.PromiseRuns
/-!
# A force in one stretch

Where the limit is high enough and the local binding within a promise has been replaced, a force of
the promise is one stretch: from the first test to the call that gives the value, whatever that call
comes to, and on to the result. A stretch adds to the heap, and changes what some scopes bind; so
the code of promises is intact all along.
-/

namespace Scheme

open Step

/-- The later heap has all that the heap has, but for what scopes of a kind bind. -/
structure Heap.Adds (own : Ref .scope → Prop) (h h' : Heap) : Prop where
  pairs : ∀ r p, h.HasPair r p → h'.HasPair r p
  closures : ∀ (i : Nat) c, h.closures[i]? = some c → h'.closures[i]? = some c
  scopes : ∀ s t, ¬ own s → h.scopes[s.index]? = some t → h'.scopes[s.index]? = some t

namespace Heap

variable (own : Ref .scope → Prop) {h h' h'' : Heap} {s : Ref .scope}

theorem Adds.refl (h : Heap) : h.Adds own h :=
  ⟨fun _ _ => id, fun _ _ => id, fun _ _ _ => id⟩

theorem Adds.trans {own : Ref .scope → Prop} (h₁ : h.Adds own h') (h₂ : h'.Adds own h'') :
    h.Adds own h'' :=
  ⟨fun r p hr => h₂.pairs r p (h₁.pairs r p hr), fun i c hc => h₂.closures i c (h₁.closures i c hc),
    fun s t hs ht => h₂.scopes s t hs (h₁.scopes s t hs ht)⟩

theorem adds_addClosure (h : Heap) (c : Closure) : h.Adds own (h.addClosure c).2 :=
  ⟨fun _ _ => id, fun _ _ => getElem?_push_of_some _, fun _ _ _ => id⟩

theorem adds_addScope (h : Heap) (t : Scope) : h.Adds own (h.addScope t).2 :=
  ⟨fun _ _ => id, fun _ _ => id, fun _ _ _ => getElem?_push_of_some _⟩

theorem adds_bind (h : Heap) (hs : own s) (name : Symbol) (v : Value) :
    h.Adds own (h.bind s name v) where
  pairs _ _ := id
  closures _ _ := id
  scopes s' t hs' ht := by
    have hne : s' ≠ s := by
      rintro rfl
      exact hs' hs
    rwa [getElem?_bind_of_ne hne]

theorem adds_settle {P : Promise} (h : Heap) (hown : own P.flags) (v : Value) :
    h.Adds own (P.settle h v) :=
  (h.adds_bind own hown _ _).trans (adds_bind own _ hown _ _)

/-- A name has its meaning wherever the global scope is as it was. -/
theorem locate?_global {name : Symbol} {found : Ref .scope × Value}
    (hscope : ∀ t, h.scopes[(Ref.global).index]? = some t → h'.scopes[(Ref.global).index]? = some t)
    (hfound : h.locate? name .global = some found) : h'.locate? name .global = some found := by
  cases ht : h.scopes[(Ref.global).index]? with
  | none => simp [locate?, locateWithin, scope, ht] at hfound
  | some t =>
      simp only [locate?, locateWithin, scope, ht, hscope t ht] at hfound ⊢
      exact hfound

/-- What the global scope binds, it binds still. -/
theorem Adds.locate?_global {own : Ref .scope → Prop} {name : Symbol} {found : Ref .scope × Value}
    (hle : h.Adds own h') (hglobal : ¬ own .global) (hfound : h.locate? name .global = some found) :
    h'.locate? name .global = some found :=
  Heap.locate?_global (fun t => hle.scopes _ t hglobal) hfound

end Heap

/-! ## Code in a heap that has been added to -/

namespace Moment

variable {σ : Moment} {own : Ref .scope → Prop} {w : World} {c : PromiseCode}

/-- What is known of the pairs is known of them in the later world. -/
def later (σ : Moment) (w : World) (hle : σ.heap.Adds own w.heap) : Moment where
  world := w
  known := σ.known
  sites := σ.sites
  apart := σ.apart
  bounds r hr := by
    have hlt := σ.bounds r hr
    exact (Array.getElem?_eq_some_iff.1 (hle.pairs r _ (Array.getElem?_eq_getElem hlt))).1

variable (hle : σ.heap.Adds own w.heap)

theorem cell_later {r : Ref .pair} {p : Pair} (hr : σ.Cell r p) : (σ.later w hle).Cell r p :=
  ⟨hr.1, hle.pairs r p hr.2⟩

theorem still_later {r : Ref .pair} {p : Pair} (hr : σ.Still r p) : (σ.later w hle).Still r p :=
  ⟨hr.1, hle.pairs r p hr.2⟩

theorem lies_later {r : Ref .pair} {p : Pair} (hr : σ.Lies r p) : (σ.later w hle).Lies r p := by
  unfold Lies at hr ⊢
  split
  · rw [if_pos ‹_›] at hr
    exact ⟨hr.1, hle.pairs r p hr.2⟩
  · rw [if_neg ‹_›] at hr
    exact cell_later hle hr

theorem Continues.later {h : Heap} (hσ : σ.Continues h) (hglobal : ¬ own .global) :
    (σ.later w hle).Continues h where
  cells r p hin hr hplain := cell_later hle (hσ.cells r p hin hr hplain)
  conjunctions r p xs hin hr hcall hlists :=
    (hσ.conjunctions r p xs hin hr hcall hlists).imp (fun _ _ => cell_later hle)
      fun r _ _ hsite hitems => .site ⟨hsite.1, hle.pairs r _ hsite.2⟩
        (hitems.mono fun _ _ => cell_later hle)
  closures i c hc := hle.closures i c (hσ.closures i c hc)
  names name owner v hname := hle.locate?_global hglobal (hσ.names name owner v hname)

theorem IsBinder.later (hb : σ.IsBinder) : (σ.later w hle).IsBinder := by
  obtain ⟨body, name, hclosure, hbody⟩ := hb
  refine ⟨body, name, hle.closures _ _ hclosure,
    CodeWith.mono (fun _ _ => cell_later hle) (fun r d hr => ⟨hr.1, ?_⟩) hbody⟩
  rcases hr.2 with hunexpanded | ⟨plan, hplan, ⟨part, hskeleton, hcovers⟩, hfollows⟩
  · exact Or.inl (LaidOut.mono (fun _ _ => lies_later hle) hunexpanded)
  · exact Or.inr ⟨plan, hplan, ⟨part, hskeleton.mono (fun _ _ => cell_later hle)
      fun _ _ => still_later hle, hcovers.mono fun _ _ => cell_later hle⟩,
      hfollows.mono fun _ _ he => LaidOut.mono (fun _ _ => cell_later hle) he⟩

theorem IsPromise.later (hp : σ.IsPromise c) : (σ.later w hle).IsPromise c where
  lies := hp.lies.mono fun _ _ => cell_later hle
  inner := hp.inner.imp (.of_pair (fun _ _ => cell_later hle) fun p hsite hr _ =>
    ⟨hsite, hle.pairs _ p hr⟩) (.mono fun _ _ => cell_later hle)

end Moment

/-- The code of promises is intact in the later world as well. -/
theorem PromiseCode.Intact.adds {own : Ref .scope → Prop} {c : PromiseCode} {w w' : World}
    (h : c.Intact w) (hle : w.heap.Adds own w'.heap) (hglobal : ¬ own .global) : c.Intact w' := by
  obtain ⟨σ, rfl, hσ, hb, hp⟩ := h
  exact ⟨σ.later w' hle, rfl, hσ.later hle hglobal, hb.later hle, hp.later hle⟩

/-- In a stretch of heaps with the code of promises, it is intact whenever it is evaluated. -/
theorem PromiseCode.kept_of_through {c : PromiseCode} {K : Heap → Prop} {may : Ref .closure → Prop}
    {k : Nat} {s : State} {v : Value} {w : World}
    (h : State.Through (State.Quiet K may) k s ⟨.resume v, [], w⟩)
    (hK : ∀ w : World, K w.heap → c.Intact w) : c.Kept (.next s) := by
  intro n s' hn hcode
  rcases Nat.lt_trichotomy n k with hlt | rfl | hgt
  · obtain ⟨s₁, hs₁, hquiet⟩ := h.exists_at hlt
    cases hn.symm.trans hs₁
    exact hK _ hquiet.heap
  · cases hn.symm.trans h.steps
    rcases hcode with ⟨_, heq | heq⟩ | ⟨_, heq | heq⟩ <;> cases heq
  · cases hn.symm.trans (steps_eq_done_of_le hgt h.done)

/-! ## Stretches that the limit does not stop -/

/-- The machine has come to the value, in a heap that has been added to. -/
def State.Arrives (own : Ref .scope → Prop) (w : World) (v : Value) (made : Heap → Prop)
    (s : State) : Prop :=
  ∃ h, s = ⟨.resume v, [], { w with heap := h }⟩ ∧ w.heap.Adds own h ∧ made h

section Above

variable {K : Heap → Prop} {may : Ref .closure → Prop} {J : Heap → Prop} {R R' : State → Prop}
  {s : State} {below : List Pending}

/-- A stretch that nothing is refused in leads to its end. -/
theorem State.Goes.exists_through (h : s.Goes (Quiet K may) below (fun _ => False) R) :
    ∃ k s', Through (Quiet K may) k s s' ∧ R s' := by
  rcases h with h | ⟨_, _, _, _, _, _, _, _, hnever⟩
  · exact h
  · exact hnever.elim

/-- A stretch leads to the end above other work, and from there on. -/
theorem State.Goes.above (base : List Pending) (h : s.Goes (Quiet K may) [] (fun _ => False) R)
    (hR : ∀ s', R s' →
      Goes (Quiet K may) below J R' ⟨s'.control, s'.stack ++ base, s'.world⟩) :
    Goes (Quiet K may) below J R' ⟨s.control, s.stack ++ base, s.world⟩ := by
  obtain ⟨k, s', hthrough, hs'⟩ := h.exists_through
  exact .of_through (hthrough.onto base) (hR s' hs')

/-- Where nothing is refused, it does not matter what a refusal would lead back to. -/
theorem State.Goes.rebase {below' : List Pending}
    (h : s.Goes (Quiet K may) below (fun _ => False) R) : s.Goes (Quiet K may) below' J R :=
  Or.inl h.exists_through

end Above

/-! ## Calls without arguments -/

section Calls

variable {K : Heap → Prop} {may : Ref .closure → Prop} {J : Heap → Prop} {R : State → Prop}
  {below stack : List Pending} {w : World} {c : Ref .closure} {scope parent : Ref .scope}
  {x body : Value} {name : Option Symbol}

theorem State.quiet_primitive {p : Primitive} {arguments : List Value} (hw : K w.heap) :
    Quiet K may ⟨.apply (.primitive p) arguments, stack, w⟩ where
  heap := hw
  active h := by
    rcases h.2 with ⟨_, h⟩ | ⟨_, h⟩ <;> cases h
  calls c below h := by cases h

/-- An application of a closure without parameters. -/
theorem State.goes_applied
    (hc : w.heap.closures[c.index]? = some ⟨⟨[], none⟩, body, parent, name⟩) (hmay : may c)
    (hw : K w.heap) (h : State.Goes (Quiet K may) below J R ⟨.eval body ⟨w.heap.scopes.size⟩, stack,
      { w with heap := (w.heap.addScope ⟨{}, some parent⟩).2 }⟩) :
    State.Goes (Quiet K may) below J R ⟨.apply (.closure c) [], stack, w⟩ := by
  refine .step ⟨hw, (fun hfinal => ?_), fun c' _ hcalls => ?_⟩ ?_ h
  · rcases hfinal.2 with ⟨_, heq⟩ | ⟨_, heq⟩ <;> cases heq
  · cases hcalls
    exact hmay
  · have hclosure : w.heap.closure c = ⟨⟨[], none⟩, body, parent, name⟩ := by
      rw [Heap.closure, hc]
      rfl
    change Step.apply (.closure c) [] stack w = _
    simp only [Step.apply, hclosure]
    rfl

/-- A call of a closure without parameters, in the place of the call. -/
theorem State.goes_entered {site : Ref .pair}
    (hc : w.heap.closures[c.index]? = some ⟨⟨[], none⟩, body, parent, name⟩) (hmay : may c)
    (hw : K w.heap) (h : State.Goes (Quiet K may) below J R
      ⟨.reduce body ⟨w.heap.scopes.size⟩, stack,
        { w with heap := (w.heap.addScope ⟨{}, some parent⟩).2 }⟩) :
    State.Goes (Quiet K may) below J R
      ⟨.resume (.closure c), .operator site .nil scope :: stack, w⟩ := by
  refine .step ⟨hw, (fun hfinal => by cases hfinal.1), fun c' _ hcalls => ?_⟩ ?_ h
  · cases hcalls
    exact hmay
  · have hclosure : w.heap.closure c = ⟨⟨[], none⟩, body, parent, name⟩ := by
      rw [Heap.closure, hc]
      rfl
    change Step.call (.closure c) [] stack w = _
    simp only [Step.call, hclosure]
    rfl

/-- A sequence of one constant. -/
theorem State.goes_only (hx : w.heap.Lists x [.symbol .begin, body])
    (hbody : body.isSelfEvaluating = true) (hw : K w.heap)
    (h : State.Goes (Quiet K may) below J R ⟨.resume body, stack, w⟩) :
    State.Goes (Quiet K may) below J R ⟨.reduce x scope, stack, w⟩ := by
  obtain ⟨r, forms, rfl, hr, hforms⟩ := hx.exists_pair
  have hlast : (w.heap.rest forms).isPair = false := by
    have hnil := hforms.rest
    generalize w.heap.rest forms = rest at hnil
    cases hnil
    rfl
  have hsequence : State.step ⟨.reduce (.pair r) scope, stack, w⟩ =
      .next ⟨.reduce body scope, stack, w⟩ := by
    simp only [State.step, Step.reduce, hr]
    change Step.sequence forms scope stack w = _
    simp only [Step.sequence, hlast, hforms.first_eq]
    rfl
  refine .step (quiet_reduce hw) hsequence (.step (quiet_reduce hw) ?_ h)
  cases body with
  | symbol | pair => cases hbody
  | _ => rfl

end Calls

/-! ## Forces -/

/-- The code of promises with its local binding replaced, but for the call. -/
structure PromiseCode.Unfolded (c : PromiseCode) (h : Heap) : Prop where
  check : Tests h.HasPair c.check c.inner
  inner : c.Expanded h.HasPair
  recheck : ∃ settle flag result, Tests h.HasPair c.recheck settle ∧
    Settles h.HasPair settle flag result

theorem PromiseCode.Unfolded.adds {own : Ref .scope → Prop} {c : PromiseCode} {h h' : Heap}
    (hcode : c.Unfolded h) (hle : h.Adds own h') : c.Unfolded h' := by
  obtain ⟨hcheck, hinner, settle, flag, result, hrecheck, hforms, hflag, hresult⟩ := hcode
  exact ⟨hcheck.mono hle.pairs, hinner.mono hle.pairs, settle, flag, result,
    hrecheck.mono hle.pairs, hforms.mono hle.pairs, hflag.mono hle.pairs, hresult.mono hle.pairs⟩

namespace Promise

variable {P : Promise} {own : Ref .scope → Prop} {K : Heap → Prop} {may : Ref .closure → Prop}
  {w : World} {h h' : Heap} {f : Ref .scope} {v proc : Value} {settled : Option Value}

theorem Variables.mono (hvariables : P.Variables proc settled h)
    (houter : ∀ t, h.scopes[P.outer.index]? = some t → h'.scopes[P.outer.index]? = some t)
    (hflags : ∀ t, h.scopes[P.flags.index]? = some t → h'.scopes[P.flags.index]? = some t) :
    P.Variables proc settled h' := by
  obtain ⟨⟨bindings, ho, hproc⟩, ⟨bindings', hf, hentries⟩, holder⟩ := hvariables
  exact ⟨⟨bindings, houter _ ho, hproc⟩, ⟨bindings', hflags _ hf, hentries⟩, holder⟩

theorem Variables.adds (hvariables : P.Variables proc settled h) (hle : h.Adds own h')
    (houter : ¬ own P.outer) (hflags : ¬ own P.flags) : P.Variables proc settled h' :=
  hvariables.mono (fun t => hle.scopes _ t houter) fun t => hle.scopes _ t hflags

theorem Entered.adds (hf : P.Entered h f) (hle : h.Adds own h') (hown : ¬ own f) :
    P.Entered h' f :=
  ⟨hle.scopes _ _ hown hf.1, hf.2⟩

/-- The value has come. It becomes the result, unless there is one already. -/
theorem goes_received {g : Ref .closure} {all : Value} (hcode : P.code.Unfolded w.heap)
    (hvariables : P.Variables proc settled w.heap) (hf : P.Entered w.heap f)
    (hg : ∃ name, w.heap.closures[g.index]? = some ⟨⟨[⟨"x"⟩], none⟩, .pair P.code.recheck, f, name⟩)
    (hmay : may g) (hown : own P.flags) (hK : ∀ h', w.heap.Adds own h' → K h')
    (hroom : w.depth + 1 < w.maxDepth) :
    State.Goes (State.Quiet K may) [] (fun _ => False)
      (State.Arrives own w (settled.getD v) (P.Variables proc (some (settled.getD v))))
      ⟨.resume v, [.operand (.closure g) [] .nil all f], w⟩ := by
  have hle : ∀ own', w.heap.Adds own' (w.heap.addScope (valueScope v f)).2 :=
    fun own' => w.heap.adds_addScope own' _
  have hvariables' : P.Variables proc settled (w.heap.addScope (valueScope v f)).2 :=
    hvariables.adds (hle fun _ => False) id id
  have hi : P.Receives (w.heap.addScope (valueScope v f)).2 ⟨w.heap.scopes.size⟩ f v :=
    ⟨Array.getElem?_push_size, hf.adds (hle fun _ => False) id,
      (Array.getElem?_eq_some_iff.1 hf.1).1⟩
  have hK' : ∀ h', Heap.Adds own (w.heap.addScope (valueScope v f)).2 h' → K h' :=
    fun h' hle' => hK h' ((hle own).trans hle')
  have hw := hK' _ (.refl own _)
  have hdeep : ¬ w.maxDepth ≤ w.depth := by omega
  refine goes_entering hg hmay (hK _ (.refl own _)) ?_
  obtain ⟨settle, flag, result, hrecheck, hsettles⟩ := (hcode.adds (hle own)).recheck
  refine State.goes_test [] hrecheck (by simp) hw hdeep
    (hi.locate? (by simp) (hvariables'.locate?_variable rfl)) ?_
  cases settled with
  | some u =>
      exact State.goes_tail (hi.locate? (by simp) (hvariables'.locate?_variable rfl)) hw
        (.arrived ⟨_, rfl, hle own, hvariables'⟩)
  | none =>
      refine goes_settling hsettles hvariables' hi hw (hK' _ (Heap.adds_bind own _ hown _ _))
        (hK' _ (Heap.adds_settle own _ hown v)) (Nat.not_le_of_lt hroom) ⟨_, rfl, ?_, ?_⟩
      · exact (hle own).trans (Heap.adds_settle own _ hown v)
      · exact hvariables'.settle v

/-- The call that gives the value has been replaced by a constant. -/
theorem goes_constant_call {J : Heap → Prop} {R : State → Prop} {stack : List Pending}
    (hcall : Items w.heap.HasPair (.pair P.code.call) [.symbol .begin, v])
    (hv : v.isSelfEvaluating = true) (hw : K w.heap) (hroom : w.depth < w.maxDepth)
    (h : State.Goes (State.Quiet K may) stack J R ⟨.resume v, stack, w⟩) :
    State.Goes (State.Quiet K may) stack J R ⟨.eval (.pair P.code.call) f, stack, w⟩ :=
  State.goes_eval [] (by simp) hw (fun hle => absurd hle (Nat.not_le_of_lt hroom)) fun _ =>
    State.goes_only hcall hv hw (State.goes_leave hw h)

/-- The call of the procedure that evaluates the expression, up to its body. -/
theorem goes_evaluating {J : Heap → Prop} {R : State → Prop} {stack : List Pending} {e : Value}
    {scope : Ref .scope} {name : Option Symbol}
    (hcall : Items w.heap.HasPair (.pair P.code.call) [.symbol ⟨"proc"⟩])
    (hvariables : P.Variables (.closure P.thunk) settled w.heap) (hf : P.Entered w.heap f)
    (hthunk : w.heap.closures[P.thunk.index]? = some ⟨⟨[], none⟩, e, scope, name⟩)
    (hmay : may P.thunk) (hw : K w.heap) (hroom : w.depth + 1 < w.maxDepth)
    (h : State.Goes (State.Quiet K may) stack J R ⟨.reduce e ⟨w.heap.scopes.size⟩, .leave :: stack,
      { w with depth := w.depth + 1, heap := (w.heap.addScope ⟨{}, some scope⟩).2 }⟩) :
    State.Goes (State.Quiet K may) stack J R ⟨.eval (.pair P.code.call) f, stack, w⟩ := by
  obtain ⟨_, _, heq, hcall, hnil⟩ := Heap.Lists.exists_pair hcall
  cases heq
  cases hnil
  have hdeep : ¬ w.maxDepth ≤ w.depth := by omega
  refine State.goes_eval [] (by simp) hw (fun hle => absurd hle hdeep) fun _ => ?_
  refine State.goes_combination hcall rfl hw (State.goes_variable [_, .leave] ?_ hw
    (fun hle => absurd hle (Nat.not_le_of_lt hroom)) (hf.locate? hvariables.locate?_proc) ?_)
  · simpa using ⟨Pending.passes_operator _ _ _, Pending.passes_leave⟩
  · exact State.goes_entered hthunk hmay hw h

/-- The heap in a call of the promise, when the value is next. -/
def called (P : Promise) (h : Heap) : Heap :=
  ((h.addScope ⟨{}, some P.flags⟩).2.addClosure (P.recheck ⟨h.scopes.size⟩)).2

theorem adds_called (own : Ref .scope → Prop) (P : Promise) (h : Heap) : h.Adds own (P.called h) :=
  (h.adds_addScope own _).trans (Heap.adds_addClosure own _ _)

theorem Variables.entered (hvariables : P.Variables proc settled h) :
    P.Entered (h.addScope ⟨{}, some P.flags⟩).2 ⟨h.scopes.size⟩ := by
  obtain ⟨_, hflags, -⟩ := hvariables.flags
  exact ⟨Array.getElem?_push_size, (Array.getElem?_eq_some_iff.1 hflags).1⟩

section Force

variable {name : Option Symbol}
  (hprocedure : w.heap.closures[P.procedure.index]? =
    some ⟨⟨[], none⟩, .pair P.code.check, P.flags, name⟩)
  (hmay : may P.procedure) (hK : ∀ h', w.heap.Adds own h' → K h')

include hprocedure hmay hK

/-- A force of a promise calls it, and comes to the first test. -/
theorem goes_forced {R : State → Prop} (hroom : w.depth < w.maxDepth)
    (h : State.Goes (State.Quiet K may) [] (fun _ => False) R ⟨.reduce (.pair P.code.check)
      ⟨w.heap.scopes.size⟩, [.leave], { w with
        depth := w.depth + 1, heap := (w.heap.addScope ⟨{}, some P.flags⟩).2 }⟩) :
    State.Goes (State.Quiet K may) [] (fun _ => False) R
      ⟨.apply (.primitive .force) [.closure P.procedure], [], w⟩ := by
  have hw := hK _ (.refl own w.heap)
  exact .step (State.quiet_primitive hw) rfl (State.goes_applied hprocedure hmay hw
    (State.goes_eval [] (by simp) (hK _ (w.heap.adds_addScope own _)) (Nat.not_le_of_lt hroom)
      fun _ => h))

/-- A promise that has a result answers it. -/
theorem goes_known (hcheck : PromiseCode.Tests w.heap.HasPair P.code.check P.code.inner)
    (hvariables : P.Variables proc (some v) w.heap) (hroom : w.depth + 1 < w.maxDepth) :
    State.Goes (State.Quiet K may) [] (fun _ => False)
      (State.Arrives own w v (P.Variables proc (some v)))
      ⟨.apply (.primitive .force) [.closure P.procedure], [], w⟩ := by
  have hle : ∀ own', w.heap.Adds own' (w.heap.addScope ⟨{}, some P.flags⟩).2 :=
    fun own' => w.heap.adds_addScope own' _
  have hvariables' := hvariables.adds (hle fun _ => False) id id
  have hw := hK _ (hle own)
  have hf := hvariables.entered
  refine goes_forced hprocedure hmay hK (by omega) (State.goes_test [.leave]
    (hcheck.mono (hle own).pairs) (by simpa using Pending.passes_leave) hw
    (Nat.not_le_of_lt hroom) (hf.locate? (hvariables'.locate?_variable rfl)) ?_)
  exact State.goes_tail (hf.locate? (hvariables'.locate?_variable rfl)) hw
    (State.goes_leave hw (.arrived ⟨_, rfl, hle own, hvariables'⟩))

/-- A promise that has none comes to the call that gives the value. -/
theorem goes_to_call {R : State → Prop} (hcode : P.code.Unfolded w.heap)
    (hvariables : P.Variables proc none w.heap) (hroom : w.depth + 1 < w.maxDepth)
    (h : ∀ all, State.Goes (State.Quiet K may) [] (fun _ => False) R
      ⟨.eval (.pair P.code.call) ⟨w.heap.scopes.size⟩,
        [.operand (.closure ⟨w.heap.closures.size⟩) [] .nil all ⟨w.heap.scopes.size⟩, .leave],
        { w with depth := w.depth + 1, heap := P.called w.heap }⟩) :
    State.Goes (State.Quiet K may) [] (fun _ => False) R
      ⟨.apply (.primitive .force) [.closure P.procedure], [], w⟩ := by
  have hle : ∀ own', w.heap.Adds own' (w.heap.addScope ⟨{}, some P.flags⟩).2 :=
    fun own' => w.heap.adds_addScope own' _
  have hvariables' := hvariables.adds (hle fun _ => False) id id
  have hcode' := hcode.adds (hle own)
  have hw := hK _ (hle own)
  have hf := hvariables.entered
  have hcall : State.Goes (State.Quiet K may) [] (fun _ => False) (fun s => ∃ all, s =
      ⟨.eval (.pair P.code.call) ⟨w.heap.scopes.size⟩,
        [.operand (.closure ⟨w.heap.closures.size⟩) [] .nil all ⟨w.heap.scopes.size⟩],
        { w with depth := w.depth + 1, heap := P.called w.heap }⟩)
      ⟨.reduce (.pair P.code.check) ⟨w.heap.scopes.size⟩, [], { w with
        depth := w.depth + 1, heap := (w.heap.addScope ⟨{}, some P.flags⟩).2 }⟩ :=
    State.goes_test [] hcode'.check (by simp) hw (Nat.not_le_of_lt hroom)
      (hf.locate? (hvariables'.locate?_variable rfl))
      (goes_binding hcode'.inner hw (hK _ (P.adds_called own _)) (Nat.not_le_of_lt hroom)
        fun all => .arrived ⟨all, rfl⟩)
  refine goes_forced hprocedure hmay hK (by omega) (hcall.above [.leave] ?_)
  rintro s ⟨all, rfl⟩
  exact h all

end Force

/-- The value has come, on the level of the call. -/
theorem goes_from_call {g : Ref .closure} {all : Value} (hle : w.heap.Adds own h)
    (hcode : P.code.Unfolded w.heap) (hvariables : P.Variables proc settled h) (hf : P.Entered h f)
    (hg : ∃ name, h.closures[g.index]? = some ⟨⟨[⟨"x"⟩], none⟩, .pair P.code.recheck, f, name⟩)
    (hmay : may g) (hown : own P.flags) (hK : ∀ h', w.heap.Adds own h' → K h')
    (hroom : w.depth + 2 < w.maxDepth) :
    State.Goes (State.Quiet K may) [] (fun _ => False)
      (State.Arrives own w (settled.getD v) (P.Variables proc (some (settled.getD v))))
      ⟨.resume v, [.operand (.closure g) [] .nil all f, .leave],
        { w with depth := w.depth + 1, heap := h }⟩ := by
  refine State.Goes.above [.leave] (goes_received (w := { w with depth := w.depth + 1, heap := h })
    (hcode.adds hle) hvariables hf hg hmay hown (fun h' hle' => hK h' (hle.trans hle')) hroom) ?_
  rintro s ⟨h', rfl, hle', hvariables'⟩
  exact State.goes_leave (hK _ (hle.trans hle')) (.arrived ⟨_, rfl, hle.trans hle', hvariables'⟩)

end Promise

end Scheme
