import Scheme.Proofs.Delays
import Scheme.Proofs.SharedPromiseCode
/-!
# Promises have one value

A promise is forced to one value only, and when it has been, its expression is not evaluated any
more. This takes the code that all promises share: a program that replaces the call in it takes the
expressions of all promises away.
-/

namespace Scheme

open Step

namespace Moment

/-- In a new interpreter, and wherever the code that makes promises is as it was, a delayed
expression comes to a promise, if the limit is high enough. In the runs from then on, as long as the
code of promises and of the prelude is kept, the promise is forced to one value only, and once it
has been, the expression is not evaluated any more. Until an evaluation of the expression has come
to a value, every force begins one. -/
theorem promises_settle_once :
    (∀ host d, ∃ c site e, (World.prelude.build (.form "delay" [d])).1 = .pair site ∧
      (begun host (.form "delay" [d])).heap.Denotes e d ∧
      (begun host (.form "delay" [d])).heap.locate? ⟨"force"⟩ .global =
        some (.global, .primitive .force) ∧
      (begun host (.form "delay" [d])).HasPromises c ∧
      Ready Heap.references (begun host (.form "delay" [d])).world [] ∧
      (begun host (.form "delay" [d])).Delays c site e .global []) ∧
    ∀ (σ : Moment) (c : PromiseCode) (site : Ref .pair) (e : Value) (scope : Ref .scope)
      (stack : List Pending),
      σ.HasPromises c → Ready Heap.references σ.world stack → scope.index < σ.heap.scopes.size →
      σ.Delays c site e scope stack →
      ∃ (P : Promise) (σ' : Moment) (least : Nat), P.code = c ∧ P.expression = e ∧ P.scope = scope ∧
        σ.Changes σ' ∧ c.Intact σ'.world ∧ P.Stands none σ'.heap ∧
        ∀ (d m : Nat),
          let run := go (.resume (.closure P.procedure)) stack (σ'.world.onLevel d m)
          (m < d + least ∧ (go (.reduce (.pair site) scope) [] (σ.world.onLevel d m)).Deepens ∨
            (go (.reduce (.pair site) scope) stack (σ.world.onLevel d m)).Reaches run) ∧
          ∀ later, run.Series (fun v => v = .closure P.procedure ∨ σ.heap.Has v) later →
            (∀ run' ∈ run :: later, c.Kept run') →
            Promises (run :: later) P.procedure P.thunk := by
  refine ⟨fun host d => ?_, fun σ c site e scope stack hσ hready hscope h => ?_⟩
  · obtain ⟨c, hc⟩ := exists_hasPromises host (.form "delay" [d])
    obtain ⟨site, e, hsite, he, -, hdelays⟩ := exists_delays_begun host d
    have hforce := locate?_begun host (.form "delay" [d])
      (List.mem_append_right Prelude.names (.tail _ (.head _)))
    exact ⟨c, site, e, hsite, he.1, hforce, hc, ready_begun host _, hdelays c []⟩
  obtain ⟨P, σ', rfl, rfl, rfl, hchanges, hintact, hst, hshown, hstack, least, hreaches⟩ :=
    h.exists_promise hσ hready hscope
  obtain ⟨name', hprocedure⟩ := hst.exists_procedure
  refine ⟨P, σ', least, rfl, rfl, rfl, hchanges, hintact, hst, fun d m => ⟨?_, ?_⟩⟩
  · have hfar := hreaches (d := d) (m := max m (d + least)) (Nat.le_max_right _ _)
    by_cases hm : d + least ≤ m
    · exact Or.inr (reaches_onto (hreaches hm) stack)
    · exact (deepens_or_reaches (Nat.le_max_left _ _) hfar).imp (fun hdeep => ⟨by omega, hdeep⟩)
        fun hnear => reaches_onto hnear stack
  · intro later hseries hkept
    have hprocedure' : P.seclusion.Shows σ'.heap (.closure P.procedure) :=
      ⟨hst.procedure_ne, _, hprocedure, Or.inl ⟨_, rfl, rfl⟩⟩
    have hbegins : P.Begins none (fun v => v = .closure P.procedure ∨ σ.heap.Has v)
        (go (.resume (.closure P.procedure)) stack (σ'.world.onLevel d m)) := by
      refine ⟨_, .others rfl (Or.inl hprocedure') hstack, hst, ?_⟩
      rintro v (rfl | hv)
      · exact hprocedure'
      · exact hshown v hv
    exact hbegins.promises hseries hkept

/-- Here the promise is assigned to a variable and then forced in two requests, the first time with
another force on the way. The code of promises is kept all along. -/
theorem promises_settle_once_nested :
    ∃ (σ : Moment) (c : PromiseCode) (site : Ref .pair) (scope : Ref .scope)
      (p thunk : Ref .closure) (w : World) (h₁ h₂ : Heap) (limit : Nat),
      let run := go (.resume (.closure p)) [.assignment ⟨"p"⟩ scope] (w.onLevel 0 limit)
      let force := fun h : Heap =>
        (Request.apply (.primitive .force) [.closure p]).start
          { w.onLevel 0 limit with heap := h }
      (World.prelude.build (.form "delay" [nestedText])).1 = .pair site ∧
      (begun World.nowhere (.form "delay" [nestedText])).Changes σ ∧
      (go (.reduce (.pair site) scope) [.assignment ⟨"p"⟩ scope] (σ.world.onLevel 0 limit)).Reaches
        run ∧
      run.Series (fun v => v = .closure p ∨ σ.heap.Has v) [force h₁, force h₂] ∧
      (∀ run' ∈ [run, force h₁, force h₂], c.Kept run') ∧
      (∃ m n, m < n ∧ (force h₁).Forced p m (.number (.float 5)) ∧
        (force h₁).Forced p n (.number (.float 5))) ∧
      (∃ n, (force h₂).Forced p n (.number (.float 5))) ∧
      Promises [run, force h₁, force h₂] p thunk := by
  obtain ⟨σ, c, site, e, scope, hsite, hbegun, h⟩ := exists_nests
  have hglobal : σ.heap.locate? ⟨"delay"⟩ .global = some (.global, .transformer ⟨8⟩) :=
    locate?_changes hbegun (locate?_begun World.nowhere _ (List.mem_append_right _ (.head _)))
  have hdelay : σ.heap.locate? ⟨"delay"⟩ scope = some (.global, .transformer ⟨8⟩) :=
    Heap.locate?_within h.here rfl h.inside (by simp [nestedScope]) hglobal
  have hscope : scope.index < σ.heap.scopes.size := (Array.getElem?_eq_some_iff.1 h.here).1
  have hready : Ready Heap.references σ.world [.assignment ⟨"p"⟩ scope] :=
    ⟨h.closed, List.forall_mem_singleton.2 hscope⟩
  obtain ⟨P, σ', least, rfl, rfl, rfl, hchanges, hintact, hst, hlaw⟩ := promises_settle_once.2 σ c
    site e scope [.assignment ⟨"p"⟩ scope] h.promises hready hscope (Or.inl ⟨h.call, _, hdelay⟩)
  obtain ⟨limit, hleast, hroom⟩ : ∃ limit, least ≤ limit ∧ 5 ≤ limit :=
    ⟨max least 5, Nat.le_max_left _ _, Nat.le_max_right _ _⟩
  let h₁ := σ'.heap.bind P.scope ⟨"p"⟩ (.closure P.procedure)
  let world := fun h : Heap => { σ'.world.onLevel 0 limit with heap := h }
  have hopen : P.Open (.boolean false) h₁ := h.isOpen hchanges hst
  have hle₁ : σ'.heap.Adds P.Own h₁ := Heap.adds_bind _ _ (Or.inr rfl) _ _
  -- the three runs, along which the heap is added to
  obtain ⟨k, _, hbound, rfl⟩ :=
    (h.goes_bound hchanges (.closure P.procedure) limit).exists_through
  obtain ⟨m, n, h₂, hlt, hinner, hfirst, hle, hvariables⟩ :=
    Promise.Open.exists_nested (w := world h₁) hopen (fun h' hle => hle₁.trans hle) hroom
  have hworks := hopen.works.adds hle
  have hle₂ : σ'.heap.Adds P.Own h₂ := hle₁.trans hle
  obtain ⟨name, hprocedure⟩ := hworks.procedure
  have hknown : State.Goes (State.Quiet (σ'.heap.Adds P.Own) fun _ => True) [] (fun _ => False)
      (State.Arrives P.Own (world h₂) (.number (.float 5))
        (P.Variables (.closure P.thunk) (some (.number (.float 5)))))
      ⟨.apply (.primitive .force) [.closure P.procedure], [], world h₂⟩ :=
    Promise.goes_known hprocedure trivial (fun h' hle => hle₂.trans hle) hworks.code.check
      hvariables (show 1 < limit by omega)
  obtain ⟨n', _, hsecond, h₃, rfl, -⟩ := hknown.exists_through
  have hkept : ∀ w : World, σ'.heap.Adds P.Own w.heap → P.code.Intact w := fun w hle =>
    hintact.adds hle (hst.not_own_global h.inside)
  have hkepts : ∀ run' ∈ [_, _, _], P.code.Kept run' := List.forall_mem_cons.2
    ⟨PromiseCode.kept_of_through hbound hkept, List.forall_mem_cons.2
      ⟨PromiseCode.kept_of_through hfirst hkept,
        List.forall_mem_singleton.2 (PromiseCode.kept_of_through hsecond hkept)⟩⟩
  have hseries : (go (.resume (.closure P.procedure)) [.assignment ⟨"p"⟩ P.scope]
      (σ'.world.onLevel 0 limit)).Series (fun v => v = .closure P.procedure ∨ σ.heap.Has v)
      [(Request.apply (.primitive .force) [.closure P.procedure]).start (world h₁),
        (Request.apply (.primitive .force) [.closure P.procedure]).start (world h₂)] :=
    .next ⟨_, hbound.done⟩ rfl rfl ⟨Or.inl (Or.inr trivial), by simp⟩
      (.next ⟨_, hfirst.done⟩ rfl rfl ⟨Or.inl (Or.inl (Or.inr trivial)), by simp⟩ (.last _ _))
  refine ⟨σ, P.code, site, P.scope, P.procedure, P.thunk, σ'.world, h₁, h₂, limit, hsite, hbegun,
    (hlaw 0 limit).1.resolve_left fun hdeep => by omega, hseries, hkepts,
    ⟨m, n, hlt, hinner, hfirst.forced⟩, ⟨n', hsecond.forced⟩, (hlaw 0 limit).2 _ hseries hkepts⟩

/-- A transformer without parameters that expands to 7. -/
def seventh : Closure :=
  ⟨⟨[], none⟩, .number (.float 7), .global, none⟩

/-- No global name has another meaning here. But the replaced expression holds the procedure that
makes promises, which is called with a transformer. When that promise is forced, the expansion takes
the place of the call in the code of all promises, and the expression of the other one is never
evaluated. -/
theorem not_promises_after_expansion :
    ∃ (σ σ' : Moment) (c : PromiseCode) (site : Ref .pair) (P : Promise) (m t q : Ref .closure)
      (h₁ h₂ : Heap) (limit : Nat),
      let world := fun h : Heap => { σ'.world.onLevel 0 limit with heap := h }
      let run := go (.resume (.closure P.procedure)) [] (σ'.world.onLevel 0 limit)
      let making := (Request.apply (.closure m) [.transformer t]).start (world σ'.heap)
      let force := fun p h => (Request.apply (.primitive .force) [.closure p]).start (world h)
      (World.prelude.build (.form "delay" [.number 1])).1 = .pair site ∧
      (begun World.nowhere (.form "delay" [.number 1])).Changes σ ∧
      σ.HasPromises c ∧ Ready Heap.references σ.world [] ∧
      σ.Delays c site (.number (.float 1)) .global [] ∧
      (go (.reduce (.pair site) .global) [] (σ.world.onLevel 0 limit)).Reaches run ∧
      P.expression = .number (.float 1) ∧ P.Stands none σ'.heap ∧
      (σ.heap.pair site).first = .closure m ∧ σ.heap.closures[t.index]? = some seventh ∧
      run.Series (fun v => v = .closure P.procedure ∨ σ.heap.Has v)
        [making, force q h₁, force P.procedure h₂] ∧
      (∀ h ∈ [σ'.heap, h₁, h₂], ∀ name owner v,
        World.prelude.locate? name .global = some (owner, v) →
          h.locate? name .global = some (owner, v)) ∧
      (∃ n, (force P.procedure h₂).Forced P.procedure n (.number (.float 7))) ∧
      ¬ (force P.procedure h₂).Starts P.thunk ∧
      ¬ Promises [run, making, force q h₁, force P.procedure h₂] P.procedure P.thunk := by
  obtain ⟨c, hc⟩ := exists_hasPromises World.nowhere (.form "delay" [.number 1])
  obtain ⟨site, e, hsite, he, hcall, -⟩ := exists_delays_begun World.nowhere (.number 1)
  obtain rfl : e = .number (.float 1) := he.1
  -- the transformer is made, and the delayed expression is replaced
  obtain ⟨σ₁, h₁, hσ₁, habstracted, hsealed₁⟩ :=
    hc.exists_unfolded (ready_begun World.nowhere _).good
  have h₂ := (σ₁.le_withClosure seventh).advances (callSites ["x"])
  have h₁₂ := h₁.trans h₂
  have hsealed₂ := (Heap.references.addClosure (h := σ₁.heap) (c := seventh) hsealed₁ trivial
    hsealed₁.globals).1
  have hdelay := locate?_changes h₁₂.toChanges
    (locate?_begun World.nowhere _ (List.mem_append_right _ (.head _)))
  have hσ₂ : (σ₁.withClosure seventh).HasPromises c :=
    hσ₁.advances h₂ (by decide) (Or.inr (habstracted.mono h₂.cells))
  have hdelays : (σ₁.withClosure seventh).Delays c site (.number (.float 1)) .global [] :=
    Or.inl ⟨hcall.advances h₁₂ (by decide), .global, hdelay⟩
  obtain ⟨σ, m, frame, h₃, hform, hmaker, hsealed, hle, hne, -⟩ :=
    hdelays.exists_replaced hσ₂ hsealed₂ hsealed₂.globals
  have habstracted₃ := (habstracted.mono h₂.cells).mono h₃.cells
  have hσ : σ.HasPromises c := hσ₂.advances h₃ (by decide) (Or.inr habstracted₃)
  obtain ⟨name, hm⟩ := hmaker.1
  have hmaker' : σ.heap.Has (.closure m) := (Array.getElem?_eq_some_iff.1 hm).1
  have ht : σ.heap.closures[σ₁.heap.closures.size]? = some seventh :=
    h₃.closures _ _ Array.getElem?_push_size
  have htransformer : σ.heap.Has (.transformer ⟨σ₁.heap.closures.size⟩) :=
    (Array.getElem?_eq_some_iff.1 ht).1
  -- the promise is made, and then one is made of the transformer
  obtain ⟨P, σ', rfl, rfl, hexpression, hscope, h₄, hst, ⟨l, hproduces⟩, hunseen, hshows, -, least₁,
    hreaches⟩ := hform.makes hmaker hσ.makes hσ.continues hσ.binder hsealed hsealed.globals hne
  have hmaker₄ := hmaker.changes h₄.toChanges
  obtain ⟨t, hframe, -⟩ := hmaker₄.2
  have holder : 0 < P.frame.index ∧ P.frame.index < σ'.heap.scopes.size :=
    ⟨Nat.pos_of_ne_zero fun hzero => hne (Ref.eq_of_index hzero.symm),
      (Array.getElem?_eq_some_iff.1 hframe).1⟩
  obtain ⟨q, k₁, least₂, hbypassed⟩ := hproduces.exists_bypassed hmaker₄.1 holder hst
    (hσ.code.lies.mono h₄.cells) ((habstracted₃.mono h₄.cells).expanded) hunseen
    (hshows _ hmaker') (hshows _ htransformer) (h₄.closures _ _ ht) rfl
  obtain ⟨w₁, w₂, hmakes, rfl, hforces, hforced, hnever, hnone, hglobal⟩ :=
    hbypassed (max least₁ least₂) (Nat.le_max_right _ _)
  refine ⟨σ, σ', P.code, site, P, m, ⟨σ₁.heap.closures.size⟩, q, w₁.heap, w₂.heap,
    max least₁ least₂, hsite, h₁₂.toChanges.trans h₃.toChanges, hσ, ⟨hsealed, by
      simp [MachinePolicy.AdmitsStack]⟩, Or.inr ⟨m, P.frame, hform, hmaker, hne, by simp⟩,
    hreaches (max least₁ least₂) (Nat.le_max_left _ _) (by omega) [], hexpression, hst, ?_, ht,
    ?_, ?_, hforced, hnever, ?_⟩
  · obtain ⟨_, _, _, hreplaced, -⟩ := hform
    rw [Heap.pair_eq_of_getElem? hreplaced]
  · exact .next ⟨1, rfl⟩ rfl rfl ⟨Or.inl (Or.inr hmaker'),
        List.forall_mem_singleton.2 (Or.inl (Or.inr htransformer))⟩
      (.next hmakes rfl rfl ⟨Or.inl (Or.inl (Or.inr trivial)),
          List.forall_mem_singleton.2 (Or.inr rfl)⟩
        (.next hforces rfl rfl ⟨Or.inl (Or.inl (Or.inl (Or.inr trivial))),
          List.forall_mem_singleton.2 (Or.inl (Or.inl (Or.inl (Or.inl rfl))))⟩ (.last _ _)))
  · have hnames := (hσ.continues.changes h₄.toChanges).names
    exact List.forall_mem_cons.2 ⟨hnames, fun h hh name owner v hv =>
      Heap.locate?_global (hglobal h hh) (hnames name owner v hv)⟩
  · intro hpromises
    have hstarts := hpromises.evaluates [_, _, _] _ [] rfl
      (List.forall_mem_cons.2 ⟨fun n u => not_delivers_resume, hnone⟩) 0 _ [] rfl ⟨rfl, rfl⟩
    refine hnever (hstarts fun n hn u hdelivers => ?_)
    obtain ⟨_, _, _, _, _, _, _, -, -, -, -, rfl⟩ := hdelivers
    omega

end Moment

end Scheme
