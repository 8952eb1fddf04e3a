import Scheme.Proofs.Agreement
import Scheme.Proofs.ForceStretches
import Scheme.Proofs.ForcedPromises
import Scheme.Proofs.InPlaceExpansion
import Scheme.Proofs.PromiseCreation
/-!
# Code that promises share

All promises have the same code. The procedure that makes them takes any value for the procedure to
call, also a transformer: then the call in that code is an expansion, and what it expands to takes
its place for all promises.
-/

namespace Scheme

open Step

/-! ## What is never shown -/

section Hidden

variable {S : Seclusion} {request : Request} {w w' : World} {s : State} {below : List Pending}
  {n : Nat} {v : Value} (hhands : request.Hands (S.Shows w.heap)) (hs : S.Secludes w.heap)
  (hnone : S.entrance = none)

include hnone in
/-- Without a way in, nobody runs the code inside. -/
theorem Seclusion.not_enters (h : Heap) (x : Value) (scope : Ref .scope) :
    ¬ S.policy.enters h x scope := by
  rintro ⟨e, he, -⟩
  rw [hnone] at he
  cases he

include hhands hs hnone

/-- A request does not call the procedure that is hidden. -/
theorem Request.Hands.not_calls (hn : (request.start w).steps n = .next s) :
    ¬ s.Calls S.hidden below := by
  intro hcalls
  have hobeys := (hhands.obeys (P := S.policy) hs).steps (S.not_enters hnone) n
  rw [hn] at hobeys
  exact (Promise.shows_of_calls hcalls hobeys.2.2.1 hobeys.2.2.2).1.1 rfl

theorem Request.Hands.not_delivers : ¬ (request.start w).Delivers S.hidden n v := by
  rintro ⟨_, _, _, _, _, _, _, hm, hcalls, -⟩
  exact hhands.not_calls hs hnone hm hcalls

/-- The value of a request may be shown. -/
theorem Request.Hands.ends (hends : (request.start w).Ends (.value v) w') :
    S.Secludes w'.heap ∧ S.Shows w'.heap v := by
  obtain ⟨n, hn⟩ := hends
  have hobeys := (hhands.obeys (P := S.policy) hs).steps (S.not_enters hnone) n
  rw [hn] at hobeys
  exact ⟨hobeys.1, hobeys.2.2 v rfl⟩

end Hidden

/-! ## A run that never calls a procedure -/

/-- A stretch to a value, without calls of the procedure, is a run without them. -/
theorem State.Through.not_starts {K : Heap → Prop} {c : Ref .closure} {k : Nat} {s : State}
    {v : Value} {w : World} (h : State.Through (State.Quiet K (· ≠ c)) k s ⟨.resume v, [], w⟩)
    (hs : s.Unattended) : ¬ (Step.next s).Starts c := by
  rintro ⟨n, s', hn, ⟨below, hcalls⟩ | hdeep⟩
  · rcases Nat.lt_trichotomy n k with hlt | rfl | hgt
    · obtain ⟨s₁, hs₁, hquiet⟩ := h.exists_at hlt
      cases hn.symm.trans hs₁
      exact hquiet.calls c below hcalls rfl
    · cases hn.symm.trans h.steps
      cases hcalls
    · cases hn.symm.trans (steps_eq_done_of_le hgt h.done)
  · exact Step.Ends.fits ⟨_, h.done⟩ hs ⟨n, s', hn, hdeep⟩

/-- A run that has come to its value calls nothing. -/
theorem Step.not_delivers_resume {u v : Value} {w : World} {c : Ref .closure} {n : Nat} :
    ¬ (go (.resume v) [] w).Delivers c n u := by
  rintro ⟨_, _, m, called, _, _, _, hm, hcalls, -⟩
  cases m with
  | zero =>
      cases hm
      cases hcalls
  | succ m => cases (steps_eq_done_of_le (Nat.succ_le_succ (Nat.zero_le m)) rfl).symm.trans hm

/-! ## An expansion to a constant -/

/-- A call of `proc` is in no other cell than its own. -/
theorem Heap.Spliced.items {h h' : Heap} {site : Ref .pair} {v x : Value} {xs : List Value}
    (hspliced : h.Spliced site v h') (hsite : h.HasPair site ⟨.symbol ⟨"proc"⟩, .nil⟩)
    (hx : Items h.HasPair x xs) (hxs : ∀ y ∈ xs, y ≠ .symbol ⟨"proc"⟩) :
    Items h'.HasPair x xs := by
  induction hx with
  | nil => exact .nil
  | cons hcell _ ih =>
      obtain ⟨hy, hys⟩ := List.forall_mem_cons.1 hxs
      refine .cons (hspliced.getElem?_elsewhere ?_ hcell) (ih hys)
      rintro rfl
      exact hy (congrArg Pair.first (Option.some.inj (hcell.symm.trans hsite)))

theorem PromiseCode.Unfolded.spliced {c : PromiseCode} {h h' : Heap} {v : Value}
    (hcode : c.Unfolded h) (hspliced : h.Spliced c.call v h')
    (hcall : h.HasPair c.call ⟨.symbol ⟨"proc"⟩, .nil⟩) : c.Unfolded h' := by
  obtain ⟨hcheck, ⟨head, operands, names, hinner, hoperands, hhead, hnames⟩, settle, flag, result,
    hrecheck, hforms, hflag, hresult⟩ := hcode
  obtain ⟨r, _, rfl, -⟩ := Heap.Lists.exists_pair hnames
  have hinner' : h'.HasPair c.inner ⟨.pair head, operands⟩ := by
    refine hspliced.getElem?_elsewhere ?_ hinner
    intro heq
    rw [heq] at hinner
    cases hinner.symm.trans hcall
  exact ⟨hspliced.items hcall hcheck (by simp), ⟨head, operands, .pair r, hinner',
      hspliced.items hcall hoperands (by simp), hspliced.items hcall hhead (by simp),
      hspliced.items hcall hnames (by simp)⟩, settle, flag, result,
    hspliced.items hcall hrecheck (by simp), hspliced.items hcall hforms (by simp [Symbol.begin]),
    hspliced.items hcall hflag (by simp), hspliced.items hcall hresult (by simp)⟩

/-- The call comes to a sequence of the constant. -/
theorem Heap.Spliced.constant {h h' : Heap} {site : Ref .pair} {v : Value}
    (hspliced : h.Spliced site v h') (hsite : site.index < h.pairs.size)
    (hv : v.isSelfEvaluating = true) : h'.Lists (.pair site) [.symbol .begin, v] := by
  have hpair : v.isPair = false := by
    cases v with
    | pair => cases hv
    | _ => rfl
  obtain ⟨r, hr, hfirst, hrest, hsize⟩ := hspliced.other hpair
  refine .cons ((Heap.getElem?_pair (by omega)).trans (congrArg some hfirst)) (.cons
    ((Heap.getElem?_pair (by omega)).trans (congrArg some hrest)) .nil)

section Expansion

variable {K : Heap → Prop} {may : Ref .closure → Prop} {R : State → Prop}
  {below stack : List Pending} {w : World} {site : Ref .pair} {t : Ref .closure} {v : Value}
  {scope parent : Ref .scope} {name : Option Symbol}

/-- A call of a transformer without parameters that expands to a constant. -/
theorem State.goes_expansion
    (ht : w.heap.closures[t.index]? = some ⟨⟨[], none⟩, v, parent, name⟩)
    (hv : v.isSelfEvaluating = true) (hroom : w.depth < w.maxDepth) (hw : K w.heap)
    (hw' : K (w.heap.addScope ⟨{}, some parent⟩).2)
    (h : State.Goes (Quiet K may) below (fun _ => False) R ⟨.reduce (.pair site) scope, stack,
      Evaluator.spliced site t v { w with heap := (w.heap.addScope ⟨{}, some parent⟩).2 }⟩) :
    State.Goes (Quiet K may) below (fun _ => False) R
      ⟨.resume (.transformer t), .operator site .nil scope :: stack, w⟩ := by
  have hclosure : w.heap.closure t = ⟨⟨[], none⟩, v, parent, name⟩ := by
    rw [Heap.closure, ht]
    rfl
  have helements : World.elements .nil w = .value [] w :=
    elements_proper (Heap.Lists.spine?_eq .nil)
  have hexpand : State.step ⟨.resume (.transformer t), .operator site .nil scope :: stack, w⟩ =
      go (.eval v ⟨w.heap.scopes.size⟩) (.expansion site t (some scope) :: stack)
        { w with heap := (w.heap.addScope ⟨{}, some parent⟩).2 } := by
    change Step.expand site t .nil (some scope) stack w = _
    simp only [Step.expand, Step.after, helements, hclosure]
    rfl
  refine .step (quiet_resume hw fun c below h => by cases h) hexpand (.rebase (goes_constant []
    (by simp) hw' (fun hle => absurd hroom (Nat.not_lt_of_le hle)) hv fun _ => ?_))
  exact .step (quiet_resume hw' fun c below h => by cases h) rfl (.rebase h)

end Expansion

/-! ## Promises that are made by hand -/

namespace Promise

variable {P : Promise} {w : World} {h h' : Heap} {v : Value} {name : Option Symbol}

/-- The heap is as it was, but for what some scopes bind, and for the call that gives the value,
which is a sequence of this constant now. -/
structure Replaces (P : Promise) (own : Ref .scope → Prop) (v : Value) (h h' : Heap) : Prop where
  code : P.code.Unfolded h'
  call : h'.Lists (.pair P.code.call) [.symbol .begin, v]
  closures : ∀ (i : Nat) c, h.closures[i]? = some c → h'.closures[i]? = some c
  scopes : ∀ s t, ¬ own s → h.scopes[s.index]? = some t → h'.scopes[s.index]? = some t

/-- An expansion takes the place of the call. -/
theorem replaces_spliced {own : Ref .scope → Prop} {h₁ : Heap} (hcode : P.code.Unfolded h)
    (hcall : h.HasPair P.code.call ⟨.symbol ⟨"proc"⟩, .nil⟩) (hle : h.Adds own h₁)
    (hspliced : h₁.Spliced P.code.call v h') (hv : v.isSelfEvaluating = true) :
    P.Replaces own v h h' where
  code := (hcode.adds hle).spliced hspliced (hle.pairs _ _ hcall)
  call := hspliced.constant (Array.getElem?_eq_some_iff.1 (hle.pairs _ _ hcall)).1 hv
  closures i c hc := by
    rw [hspliced.closures]
    exact hle.closures i c hc
  scopes s t hs ht := by
    rw [hspliced.scopes]
    exact hle.scopes s t hs ht

theorem Replaces.adds {own : Ref .scope → Prop} {h₁ : Heap}
    (hreplaces : P.Replaces (fun _ => False) v h h₁) (hle : h₁.Adds own h') :
    P.Replaces own v h h' where
  code := hreplaces.code.adds hle
  call := hreplaces.call.mono hle.pairs
  closures i c hc := hle.closures i c (hreplaces.closures i c hc)
  scopes s t hs ht := hle.scopes s t hs (hreplaces.scopes s t id ht)

/-- Once the call has been replaced, its value is the constant. -/
theorem goes_from_constant {f : Ref .scope} {g : Ref .closure} {all proc : Value}
    (hcode : P.code.Unfolded w.heap) (hcall : w.heap.Lists (.pair P.code.call) [.symbol .begin, v])
    (hv : v.isSelfEvaluating = true) (hvariables : P.Variables proc none w.heap)
    (hf : P.Entered w.heap f)
    (hg : w.heap.closures[g.index]? = some ⟨⟨[⟨"x"⟩], none⟩, .pair P.code.recheck, f, name⟩)
    (hroom : w.depth + 1 < w.maxDepth) :
    State.Goes (State.Quiet (fun _ => True) fun _ => True) [] (fun _ => False)
      (fun s => ∃ w', s = ⟨.resume v, [], w'⟩ ∧ w.heap.Adds (· = P.flags) w'.heap)
      ⟨.reduce (.pair P.code.call) f,
        [.leave, .operand (.closure g) [] .nil all f, .leave], w⟩ := by
  have hdepth : w.leave.depth + 1 < w.leave.maxDepth := by
    simp only [World.leave]
    omega
  refine State.goes_only hcall hv trivial (State.goes_leave trivial (State.Goes.above [.leave]
    (goes_received (w := w.leave) hcode hvariables hf ⟨name, hg⟩ trivial (by rfl)
      (fun h' (_ : w.heap.Adds (· = P.flags) h') => trivial) hdepth) ?_))
  rintro s ⟨h', rfl, hle, -⟩
  exact State.goes_leave trivial (.arrived ⟨_, rfl, hle⟩)

/-- The promise calls a transformer. So what this expands to takes the place of the call. -/
theorem goes_replacing {t : Ref .closure} {parent : Ref .scope} {name' : Option Symbol}
    (hprocedure : w.heap.closures[P.procedure.index]? =
      some ⟨⟨[], none⟩, .pair P.code.check, P.flags, name⟩)
    (hcode : P.code.Unfolded w.heap) (hcall : w.heap.HasPair P.code.call ⟨.symbol ⟨"proc"⟩, .nil⟩)
    (hvariables : P.Variables (.transformer t) none w.heap)
    (ht : w.heap.closures[t.index]? = some ⟨⟨[], none⟩, v, parent, name'⟩)
    (hv : v.isSelfEvaluating = true) (hroom : w.depth + 3 < w.maxDepth) :
    State.Goes (State.Quiet (fun _ => True) fun _ => True) [] (fun _ => False)
      (fun s => ∃ w', s = ⟨.resume v, [], w'⟩ ∧ P.Replaces (· = P.flags) v w.heap w'.heap)
      ⟨.apply (.primitive .force) [.closure P.procedure], [], w⟩ := by
  have hle := P.adds_called (fun _ => False) w.heap
  have hcall₁ := hle.pairs _ _ hcall
  let h₁ := ((P.called w.heap).addScope ⟨{}, some parent⟩).2
  have hle₁ : w.heap.Adds (fun _ => False) h₁ := hle.trans (Heap.adds_addScope _ _ _)
  have hf := hvariables.entered.adds (Heap.adds_addClosure (fun _ => False) _
    (P.recheck ⟨w.heap.scopes.size⟩)) id
  refine goes_to_call hprocedure trivial (fun h' (_ : w.heap.Adds (fun _ => False) h') => trivial)
    hcode hvariables (by omega) fun all => .rebase
      (State.goes_eval [] (by simp) trivial ?_ fun _ => ?_)
  · exact fun hdeep => absurd (show w.maxDepth ≤ w.depth + 1 from hdeep) (by omega)
  refine State.goes_combination (Heap.pair_eq_of_getElem? hcall₁) rfl trivial
    (.rebase (State.goes_variable [] (by simp) trivial ?_
      (hf.locate? (hvariables.adds hle id id).locate?_proc) ?_))
  · exact fun hdeep => absurd (show w.maxDepth ≤ w.depth + 2 from hdeep) (by omega)
  refine State.goes_expansion (hle.closures _ _ ht) hv (Nat.lt_of_succ_lt hroom) trivial trivial ?_
  -- the expansion is written over the call, and over nothing else
  obtain ⟨hspliced, hworld⟩ := spliced_spliced (m := t) (v := v)
    (w := { w with depth := w.depth + 2, heap := h₁ })
    (Array.getElem?_eq_some_iff.1 (hle₁.pairs _ _ hcall)).1
  have hreplaces := replaces_spliced hcode hcall hle₁ hspliced hv
  generalize Evaluator.spliced P.code.call t v _ = w₂ at hspliced hworld hreplaces ⊢
  have hf₂ : P.Entered w₂.heap ⟨w.heap.scopes.size⟩ := by
    refine ⟨?_, hf.2⟩
    rw [hspliced.scopes]
    exact (Heap.adds_addScope (fun _ => False) _ _).scopes _ _ id hf.1
  have hg : w₂.heap.closures[w.heap.closures.size]? = some (P.recheck ⟨w.heap.scopes.size⟩) := by
    rw [hspliced.closures]
    exact Array.getElem?_push_size
  have hroom₂ : w₂.depth + 1 < w₂.maxDepth := by
    rw [hworld]
    exact hroom
  refine .rebase ((goes_from_constant (g := ⟨w.heap.closures.size⟩) hreplaces.code hreplaces.call hv
    (hvariables.mono (fun t => hreplaces.scopes _ t id) fun t => hreplaces.scopes _ t id) hf₂ hg
    hroom₂).weaken (fun _ => id) ?_)
  rintro _ ⟨w', rfl, hle'⟩
  exact ⟨w', rfl, hreplaces.adds hle'⟩

/-- Where the call has been replaced, a promise comes to the constant, and does not call the
procedure that evaluates its expression. -/
theorem goes_constant {proc : Value} (hprocedure : w.heap.closures[P.procedure.index]? =
      some ⟨⟨[], none⟩, .pair P.code.check, P.flags, name⟩)
    (hne : P.procedure ≠ P.thunk) (hthunk : P.thunk.index < w.heap.closures.size)
    (hcode : P.code.Unfolded w.heap) (hcall : w.heap.Lists (.pair P.code.call) [.symbol .begin, v])
    (hv : v.isSelfEvaluating = true) (hvariables : P.Variables proc none w.heap)
    (hroom : w.depth + 2 < w.maxDepth) :
    State.Goes (State.Quiet (fun _ => True) (· ≠ P.thunk)) [] (fun _ => False)
      (fun s => ∃ w', s = ⟨.resume v, [], w'⟩)
      ⟨.apply (.primitive .force) [.closure P.procedure], [], w⟩ := by
  have hle : ∀ own, w.heap.Adds own (P.called w.heap) := fun own => P.adds_called own _
  have hf := hvariables.entered.adds (Heap.adds_addClosure (fun _ => False) _
    (P.recheck ⟨w.heap.scopes.size⟩)) id
  have hnew : (⟨w.heap.closures.size⟩ : Ref .closure) ≠ P.thunk := by
    intro heq
    exact Nat.ne_of_lt hthunk (congrArg Ref.index heq).symm
  have hK : ∀ h', w.heap.Adds (· = P.flags) h' → True := fun _ _ => trivial
  refine goes_to_call hprocedure hne hK hcode hvariables (by omega) fun all => .rebase
    (goes_constant_call (hcall.mono (hle (· = P.flags)).pairs) hv trivial (by simp only; omega)
      (.rebase ((goes_from_call (hle (· = P.flags)) hcode
        (hvariables.adds (hle fun _ => False) id id) hf ⟨none, Array.getElem?_push_size⟩ hnew rfl
        hK hroom).weaken (fun _ => id) ?_)))
  rintro _ ⟨h', rfl, -⟩
  exact ⟨_, rfl⟩

end Promise

/-- The procedure that makes promises may be called with any value, which the new promise then calls
for its own. -/
theorem Moment.Produces.exists_applied {σ : Moment} {c : PromiseCode} {l : Ref .pair}
    {m : Ref .closure} {frame : Ref .scope} (h : σ.Produces c l)
    (hm : σ.Encloses m ["proc"] (.pair c.outer) frame)
    (holder : 0 < frame.index ∧ frame.index < σ.heap.scopes.size) (v : Value) :
    ∃ (Q : Promise) (σ' : Moment) (least : Nat), Q.code = c ∧ σ.Le σ' ∧ Q.Variables v none σ'.heap ∧
      σ'.heap.closures[Q.procedure.index]? =
        some ⟨⟨[], none⟩, .pair Q.code.check, Q.flags, none⟩ ∧
      σ.heap.scopes.size ≤ Q.flags.index ∧ ∀ k, least ≤ k →
        (go (.apply (.closure m) [v]) [] (σ.world.onLevel 0 k)).Reaches
          (go (.resume (.closure Q.procedure)) [] (σ'.world.onLevel 0 k)) := by
  let outer : Ref .scope := ⟨σ.heap.scopes.size⟩
  let σ₁ := σ.withScope ⟨(Heap.bindFixed {} (["proc"].map Symbol.mk) [v]).1, some frame⟩
  have hle₁ : σ.Le σ₁ := σ.le_withScope _
  have hle : σ.Le (σ₁.made c l outer) := hle₁.trans (σ₁.le_made c l outer)
  have hvariables : ((σ.heap.unseen frame).promise σ₁.heap c v .global).Variables v none
      (σ₁.made c l outer).heap :=
    Moment.variables_made (S := σ.heap.unseen frame) Array.getElem?_push_size
      (Heap.getElem?_bindFixed_pairs [("proc", v)] (by simp)) holder
  obtain ⟨least, hreaches⟩ := (h.mono hle₁.cells).reaches_made outer
  obtain ⟨name, hclosure⟩ := hm.closure_eq
  refine ⟨(σ.heap.unseen frame).promise σ₁.heap c v .global, σ₁.made c l outer, least + 1, rfl, hle,
    hvariables, σ₁.procedure_made c l outer, Nat.le_of_lt hvariables.older.2.2, fun k hk => ?_⟩
  · have happly : State.step ⟨.apply (.closure m) [v], [], σ.world.onLevel 0 k⟩ =
        go (.eval (.pair c.outer) outer) [] (σ₁.world.onLevel 0 k) := by
      change Step.apply (.closure m) [v] [] (σ.world.onLevel 0 k) = _
      simp only [Step.apply, World.heap_onLevel, World.enter_onLevel, hclosure]
      rfl
    have heval : State.step ⟨.eval (.pair c.outer) outer, [], σ₁.world.onLevel 0 k⟩ =
        go (.reduce (.pair c.outer) outer) [.leave] (σ₁.world.onLevel 1 k) :=
      if_pos (by simp only [World.depth_onLevel, World.maxDepth_onLevel]; omega)
    refine Reaches.next (Reaches.trans (.of_eq happly) (Reaches.next (Reaches.trans (.of_eq heval)
      ((hreaches least (Nat.le_refl _) (d := 1) (by omega) [.leave]).trans
        (Reaches.next (.of_eq rfl))))))

/-- A promise that is made of a transformer and forced takes the call away from all others: when
they are forced, they come to the expansion, and their expressions are not evaluated. -/
theorem Moment.Produces.exists_bypassed {σ : Moment} {P : Promise} {l : Ref .pair}
    {m t : Ref .closure} {frame parent : Ref .scope} {name : Option Symbol} {v : Value}
    (h : σ.Produces P.code l) (hm : σ.Encloses m ["proc"] (.pair P.code.outer) frame)
    (holder : 0 < frame.index ∧ frame.index < σ.heap.scopes.size)
    (hst : P.Stands none σ.heap) (hlies : P.code.Lies σ.Cell) (hexpanded : P.code.Expanded σ.Cell)
    (hs : P.unseen.Secludes σ.heap) (hmaker : P.unseen.Shows σ.heap (.closure m))
    (htransformer : P.unseen.Shows σ.heap (.transformer t))
    (ht : σ.heap.closures[t.index]? = some ⟨⟨[], none⟩, v, parent, name⟩)
    (hv : v.isSelfEvaluating = true) :
    ∃ (q : Ref .closure) (h₁ : Heap) (least : Nat), ∀ limit, least ≤ limit →
      let world := fun h : Heap => { σ.world.onLevel 0 limit with heap := h }
      let making := (Request.apply (.closure m) [.transformer t]).start (world σ.heap)
      let force := fun p h => (Request.apply (.primitive .force) [.closure p]).start (world h)
      ∃ w₁ w₂ : World, making.Ends (.value (.closure q)) w₁ ∧ w₁.heap = h₁ ∧
        (force q h₁).Ends (.value v) w₂ ∧
        (∃ n, (force P.procedure w₂.heap).Forced P.procedure n v) ∧
        ¬ (force P.procedure w₂.heap).Starts P.thunk ∧
        (∀ run ∈ [making, force q h₁], ∀ n u, ¬ run.Delivers P.thunk n u) ∧
        ∀ h ∈ [h₁, w₂.heap], ∀ t, σ.heap.scopes[(Ref.global).index]? = some t →
          h.scopes[(Ref.global).index]? = some t := by
  obtain ⟨Q, σ₁, least, hQ, hle, hvariables, hprocedure, hnew, hreaches⟩ :=
    h.exists_applied hm holder (.transformer t)
  have hcells : ∀ r p, σ.Cell r p → σ₁.heap.HasPair r p := fun r p hr => (hle.cells r p hr).2
  have hlies₁ := hlies.mono hcells
  have hcode₁ : P.code.Unfolded σ₁.heap :=
    ⟨hlies₁.check, hexpanded.mono hcells, hlies₁.recheck⟩
  have hcall₁ : σ₁.heap.HasPair P.code.call ⟨.symbol ⟨"proc"⟩, .nil⟩ := by
    cases hlies₁.call with
    | cons hcall hnil =>
        cases hnil
        exact hcall
  refine ⟨Q.procedure, σ₁.heap, max least 4, fun limit hlimit => ?_⟩
  intro world making force
  have hmakes : making.Ends (.value (.closure Q.procedure)) (σ₁.world.onLevel 0 limit) :=
    (hreaches limit (by omega)).ends ⟨1, rfl⟩
  have hhands : (Request.apply (.closure m) [.transformer t]).Hands (P.unseen.Shows σ.heap) :=
    ⟨hmaker, List.forall_mem_singleton.2 htransformer⟩
  obtain ⟨hs₁, hq⟩ := hhands.ends (w := world σ.heap) hs rfl hmakes
  have hhands₁ : (Request.apply (.primitive .force) [.closure Q.procedure]).Hands
      (P.unseen.Shows σ₁.heap) := ⟨trivial, List.forall_mem_singleton.2 hq⟩
  -- the promise that was made by hand is forced
  obtain ⟨k, _, hthrough, w₂, rfl, hreplaces⟩ := (Promise.goes_replacing (P := Q)
    (w := world σ₁.heap) hprocedure (hQ ▸ hcode₁) (hQ ▸ hcall₁) hvariables (hle.closures _ _ ht) hv
    (show 3 < limit by omega)).exists_through
  -- then the other one
  obtain ⟨name', hprocedure'⟩ := hst.exists_procedure
  have hscopes : ∀ (s : Ref .scope) t, σ.heap.scopes[s.index]? = some t →
      w₂.heap.scopes[s.index]? = some t := fun s t ht => by
    refine hreplaces.scopes s t ?_ (hle.scopes _ _ ht)
    rintro rfl
    exact Nat.not_lt_of_le hnew (Array.getElem?_eq_some_iff.1 ht).1
  have hclosures : ∀ (i : Nat) c, σ.heap.closures[i]? = some c → w₂.heap.closures[i]? = some c :=
    fun i c hc => hreplaces.closures i c (hle.closures i c hc)
  obtain ⟨name₁, hthunk⟩ := hst.thunk
  obtain ⟨n, _, hlast, w₃, rfl⟩ := (Promise.goes_constant (P := P) (w := world w₂.heap)
    (hclosures _ _ hprocedure') hst.procedure_ne
    (Array.getElem?_eq_some_iff.1 (hclosures _ _ hthunk)).1
    (hQ ▸ hreplaces.code) (hQ ▸ hreplaces.call) hv (hst.toVariables.mono (hscopes _) (hscopes _))
    (show 2 < limit by omega)).exists_through
  refine ⟨σ₁.world.onLevel 0 limit, w₂, hmakes, rfl, ⟨_, hthrough.done⟩, ⟨n, hlast.forced⟩,
    hlast.not_starts ⟨by simp, by simp⟩, ?_, ?_⟩
  · refine List.forall_mem_cons.2 ⟨fun n u =>
      hhands.not_delivers (w := world σ.heap) hs rfl, List.forall_mem_singleton.2 fun n u =>
        hhands₁.not_delivers (w := world σ₁.heap) hs₁ rfl⟩
  · exact List.forall_mem_cons.2 ⟨hle.scopes _, List.forall_mem_singleton.2 (hscopes _)⟩

end Scheme
