import Scheme.Proofs.Promises
/-!
# What a promise does when it is called

A call of a promise tests whether there is a result. If there is none, the local binding within is
expanded first if it has not been; then the procedure that evaluates the expression is called; and
when that has come to a value there is a second test. Between these calls, the machine goes through
stretches of steps in which nobody else takes part.
-/

namespace Scheme

open Step

namespace Promise

variable {P : Promise} {known settled : Option Value} {w : World} {f : Ref .scope} {v proc : Value}
  {K : Heap → Prop} {may : Ref .closure → Prop} {J : Heap → Prop} {R : State → Prop}

/-- A result that is known is the result. -/
def Keeps (P : Promise) (known : Option Value) (h : Heap) : Prop :=
  ∀ v, known = some v → P.Stands (some v) h

/-- The closure is not the promise, nor the procedure that evaluates the expression of a promise whose
result is known. -/
def May (P : Promise) (known : Option Value) (c : Ref .closure) : Prop :=
  c ≠ P.procedure ∧ (c = P.thunk → known = none)

/-- In the course of a stretch. -/
abbrev Calm (P : Promise) (known : Option Value) : State → Prop :=
  State.Quiet (P.Keeps known) (P.May known)

/-- The same promise in a later heap. -/
def Remains (P : Promise) (settled : Option Value) (h h' : Heap) : Prop :=
  P.Stands settled h' ∧ P.Leads h h'

theorem Stands.remains {h : Heap} (hst : P.Stands settled h) : P.Remains settled h h :=
  ⟨hst, .refl P h⟩

theorem Stands.remains_spares {h h' : Heap} (hst : P.Stands settled h)
    (hs : P.seclusion.Secludes h') (hle : h.Spares P.outer h') : P.Remains settled h h' :=
  ⟨hst.spares hs hle, .of_spares hle⟩

/-- No result is known of a promise that has none. -/
theorem Keeps.eq_none {h : Heap} (hknown : P.Keeps known h) (hst : P.Stands none h) :
    known = none := by
  cases known with
  | none => rfl
  | some v => cases (hknown v rfl).unique hst

theorem Stands.keeps {h : Heap} (hst : P.Stands settled h)
    (hknown : ∀ v, known = some v → settled = some v) : P.Keeps known h :=
  fun v hv => hknown v hv ▸ hst

theorem keeps_none (P : Promise) (h : Heap) : P.Keeps none h :=
  fun v hv => by cases hv

/-! ## The first test -/

/-- A promise that has a result answers it. -/
theorem goes_settled (hlies : P.code.Lies w.heap.HasPair) (hst : P.Stands (some v) w.heap)
    (hf : P.Entered w.heap f) (hw : P.Keeps known w.heap) (hJ : J w.heap)
    (h : R ⟨.resume v, [], w⟩) :
    State.Goes (P.Calm known) [] J R ⟨.reduce (.pair P.code.check) f, [], w⟩ :=
  State.goes_test [] hlies.check (by simp) hw (fun _ => hJ) (hf.locate? (hst.locate?_variable rfl))
    (State.goes_tail (hf.locate? (hst.locate?_variable rfl)) hw (.arrived h))

/-- Otherwise it goes on with the local binding. -/
theorem goes_unsettled (hlies : P.code.Lies w.heap.HasPair) (hst : P.Stands none w.heap)
    (hf : P.Entered w.heap f) (hJ : J w.heap)
    (h : State.Goes (P.Calm none) [] J R ⟨.reduce (.pair P.code.inner) f, [], w⟩) :
    State.Goes (P.Calm none) [] J R ⟨.reduce (.pair P.code.check) f, [], w⟩ :=
  State.goes_test [] hlies.check (by simp) (keeps_none P _) (fun _ => hJ)
    (hf.locate? (hst.locate?_variable rfl)) h

/-! ## The call of the procedure that evaluates the expression -/

/-- What waits for the value of the expression. -/
def evaluation (g : Ref .closure) (all : Value) (f : Ref .scope) : List Pending :=
  [.leave, .operand (.closure g) [] .nil all f]

/-- The procedure is called next, above a test that is done with its value. -/
def Calling (P : Promise) (h : Heap) (f : Ref .scope) (s : State) : Prop :=
  ∃ g all w,
    s = ⟨.resume (.closure P.thunk), .operator P.code.call .nil f :: evaluation g all f, w⟩ ∧
    P.Remains none h w.heap ∧ P.Rechecks w.heap g f

/-- The closure for the test after the evaluation. -/
def recheck (P : Promise) (f : Ref .scope) : Closure :=
  ⟨⟨[⟨"x"⟩], none⟩, .pair P.code.recheck, f, none⟩

theorem Stands.rechecks (hst : P.Stands settled w.heap) (hf : P.Entered w.heap f) :
    P.Remains settled w.heap (w.heap.addClosure (P.recheck f)).2 ∧
      P.Rechecks (w.heap.addClosure (P.recheck f)).2 ⟨w.heap.closures.size⟩ f := by
  have hremains := hst.remains_spares (hst.secluded.addClosure (c := P.recheck f) trivial)
    (w.heap.spares_addClosure (P.recheck f))
  refine ⟨hremains, ⟨none, Array.getElem?_push_size⟩, hf.mono hst hremains.2, ?_, ?_⟩
  · intro heq
    obtain ⟨-, name, hprocedure⟩ := hst.secluded.entrance _ rfl
    have hlt := (Array.getElem?_eq_some_iff.1 hprocedure).1
    exact Nat.lt_irrefl _ (congrArg Ref.index heq ▸ hlt)
  · intro heq
    have hlt : P.thunk.index < w.heap.closures.size := hst.secluded.hidden
    exact Nat.lt_irrefl _ (congrArg Ref.index heq ▸ hlt)

/-- What the local binding has been replaced by makes the closure, and comes to the call. -/
theorem goes_binding (hexpanded : P.code.Expanded w.heap.HasPair) (hw : K w.heap)
    (hw' : K (w.heap.addClosure (P.recheck f)).2) (hJ : w.maxDepth ≤ w.depth → J w.heap)
    (h : ∀ all, State.Goes (State.Quiet K may) [] J R ⟨.eval (.pair P.code.call) f,
      [.operand (.closure ⟨w.heap.closures.size⟩) [] .nil all f],
      { w with heap := (w.heap.addClosure (P.recheck f)).2 }⟩) :
    State.Goes (State.Quiet K may) [] J R ⟨.reduce (.pair P.code.inner) f, [], w⟩ := by
  obtain ⟨head, operands, names, hinner, hoperands, hhead, hnames⟩ := hexpanded
  obtain ⟨r, _, rfl, hr, hnil⟩ := Heap.Lists.exists_pair hoperands
  cases hnil
  refine State.goes_combination (Heap.pair_eq_of_getElem? hinner) rfl hw (State.goes_eval [_]
    (by simpa using Pending.passes_operator _ _ _) hw hJ fun _ => ?_)
  exact State.goes_abstraction ["x"] hhead hnames hw (State.goes_leave hw'
    (State.goes_operands (by simp) hr hw' (h _)))

theorem goes_calling (hcall : Items w.heap.HasPair (.pair P.code.call) [.symbol ⟨"proc"⟩])
    (hexpanded : P.code.Expanded w.heap.HasPair) (hst : P.Stands none w.heap)
    (hf : P.Entered w.heap f) :
    State.Goes (P.Calm none) [] (P.Remains none w.heap) (P.Calling w.heap f)
      ⟨.reduce (.pair P.code.inner) f, [], w⟩ := by
  have hw : ∀ h, P.Keeps none h := keeps_none P
  obtain ⟨hremains, hrechecks⟩ := hst.rechecks hf
  obtain ⟨_, _, heq, hcall, hnil⟩ := Heap.Lists.exists_pair hcall
  cases heq
  cases hnil
  refine goes_binding hexpanded (hw _) (hw _) (fun _ => hst.remains) fun all => ?_
  refine State.goes_eval [_] (by simpa using Pending.passes_operand _ _ _ _ _) (hw _)
    (fun _ => hremains) fun _ => ?_
  refine State.goes_combination hcall rfl (hw _) (State.goes_variable [_, .leave, _] ?_ (hw _)
    (fun _ => hremains) (hrechecks.entered.locate? hremains.1.locate?_proc) (.arrived ?_))
  · simpa using ⟨Pending.passes_operator _ _ _, Pending.passes_leave,
      Pending.passes_operand _ _ _ _ _⟩
  · exact ⟨_, _, _, rfl, hremains, hrechecks⟩

/-! ## The second test -/

/-- The scope that the value is bound in for the second test. -/
def valueScope (v : Value) (f : Ref .scope) : Scope :=
  ⟨.insert {} "x" v, some f⟩

theorem Stands.remains_value (hst : P.Stands settled w.heap)
    (hv : P.seclusion.Shows w.heap v) :
    P.Remains settled w.heap (w.heap.addScope (valueScope v f)).2 := by
  refine hst.remains_spares (hst.secluded.addScope fun name v' hv' => ?_) (w.heap.spares_addScope _)
  rw [valueScope, Std.TreeMap.getElem?_insert] at hv'
  split at hv'
  · cases hv'
    exact hv
  · simp at hv'

/-- The closure for the second test is called with the value. -/
theorem goes_entering {all : Value} {g : Ref .closure} {below : List Pending}
    (hg : ∃ name, w.heap.closures[g.index]? = some ⟨⟨[⟨"x"⟩], none⟩, .pair P.code.recheck, f, name⟩)
    (hmay : may g) (hw : K w.heap) (h : State.Goes (State.Quiet K may) [] J R
      ⟨.reduce (.pair P.code.recheck) ⟨w.heap.scopes.size⟩, below,
        { w with heap := (w.heap.addScope (valueScope v f)).2 }⟩) :
    State.Goes (State.Quiet K may) [] J R
      ⟨.resume v, .operand (.closure g) [] .nil all f :: below, w⟩ := by
  obtain ⟨name, hclosure⟩ := hg
  refine .step ⟨hw, (fun hfinal => by cases hfinal.1), fun c below' hcalls => ?_⟩ ?_ h
  · cases hcalls
    exact hmay
  · have hclosure' : w.heap.closure g = ⟨⟨[⟨"x"⟩], none⟩, .pair P.code.recheck, f, name⟩ := by
      rw [Heap.closure, hclosure]
      rfl
    change Step.call (.closure g) [v] below w = _
    simp only [Step.call, hclosure', World.enter]
    rfl

/-- The value is bound in the scope, for a call of the promise. -/
structure Receives (P : Promise) (h : Heap) (inner f : Ref .scope) (v : Value) : Prop where
  scope : h.scopes[inner.index]? = some (valueScope v f)
  entered : P.Entered h f
  younger : f.index < inner.index

theorem Receives.ne {h : Heap} {inner : Ref .scope} (hi : P.Receives h inner f v) :
    inner ≠ P.flags ∧ f ≠ P.flags := by
  have hyounger := hi.younger
  have hflags := hi.entered.2
  constructor <;> (rintro rfl; omega)

/-- The scopes of the call are others than the one of the variables. -/
theorem Receives.bind {h : Heap} {inner : Ref .scope} (hi : P.Receives h inner f v) (name : Symbol)
    (u : Value) : P.Receives (h.bind P.flags name u) inner f v :=
  ⟨(Heap.getElem?_bind_of_ne hi.ne.1).trans hi.scope,
    ⟨(Heap.getElem?_bind_of_ne hi.ne.2).trans hi.entered.1, hi.entered.2⟩, hi.younger⟩

/-- All but the value is found where the promise was called. -/
theorem Receives.locate? {name : Symbol} {found : Ref .scope × Value} {h : Heap} {inner : Ref .scope}
    (hi : P.Receives h inner f v) (hname : name.name ≠ "x")
    (hfound : h.locate? name P.flags = some found) : h.locate? name inner = some found :=
  Heap.locate?_within hi.scope rfl hi.younger (by simp [valueScope, hname.symm])
    (hi.entered.locate? hfound)

theorem Receives.locate?_value {h : Heap} {inner : Ref .scope} (hi : P.Receives h inner f v) :
    h.locate? ⟨"x"⟩ inner = some (inner, v) :=
  Heap.locate?_here hi.scope (by simp [valueScope])

theorem Stands.receives (hst : P.Stands settled w.heap) (hf : P.Entered w.heap f)
    (hle : P.Leads w.heap (w.heap.addScope (valueScope v f)).2) :
    P.Receives (w.heap.addScope (valueScope v f)).2 ⟨w.heap.scopes.size⟩ f v :=
  ⟨Array.getElem?_push_size, hf.mono hst hle, (Array.getElem?_eq_some_iff.1 hf.1).1⟩

/-- The value becomes the result of a promise that has none. Where there is room for the first of the
two assignments there is room for the other, so none is made alone. -/
theorem goes_settling {settle flag result : Ref .pair} {inner : Ref .scope}
    (hsettles : PromiseCode.Settles w.heap.HasPair settle flag result)
    (hvariables : P.Variables proc none w.heap) (hi : P.Receives w.heap inner f v) (hw : K w.heap)
    (hhalf : K (w.heap.bind P.flags ⟨"result-ready?"⟩ (.boolean true)))
    (hsettled : K (P.settle w.heap v)) (hJ : w.maxDepth ≤ w.depth + 1 → J w.heap)
    (h : R ⟨.resume v, [], { w with heap := P.settle w.heap v }⟩) :
    State.Goes (State.Quiet K may) [] J R ⟨.reduce (.pair settle) inner, [], w⟩ := by
  have hpasses : ∀ body, Pending.Passes (.sequence body inner) := fun _ _ _ w => ⟨w, rfl, rfl⟩
  have hpasses' : ∀ name, Pending.Passes (.assignment name inner) := fun _ _ _ w => ⟨w, rfl, rfl⟩
  refine State.goes_sequence hsettles.forms (by simp) hw fun body hbody => ?_
  refine State.goes_eval [_] (by simpa using hpasses body) hw (fun hdeep => hJ (by omega))
    fun hdepth => ?_
  refine State.goes_assignment hsettles.flag hw (State.goes_constant [_, .leave, _] ?_ hw
    (fun hdeep => hJ hdeep) rfl fun hroom => ?_)
  · simpa using ⟨hpasses' _, Pending.passes_leave, hpasses body⟩
  have hroom : w.depth + 1 < w.maxDepth := hroom
  refine State.goes_assigned (hi.locate? (by simp) (hvariables.locate?_variable rfl)) hw
    (State.goes_leave hhalf (State.goes_next hbody hhalf fun rest hrest => ?_))
  rw [if_neg (by simp)]
  -- there is a mark already, but not the result
  have hi' := hi.bind ⟨"result-ready?"⟩ (.boolean true)
  refine State.goes_eval [_] (by simpa using hpasses rest) hhalf
    (fun hdeep => absurd (Nat.lt_of_lt_of_le hdepth hdeep) (by simp [World.leave])) fun _ => ?_
  refine State.goes_assignment hsettles.result hhalf (State.goes_variable [_, .leave, _] ?_ hhalf
    (fun hdeep => absurd (Nat.lt_of_lt_of_le hroom hdeep) (by simp [World.leave]))
    hi'.locate?_value ?_)
  · simpa using ⟨hpasses' _, Pending.passes_leave, hpasses rest⟩
  refine State.goes_assigned (hi'.locate? (by simp) hvariables.locate?_half) hhalf
    (State.goes_leave hsettled (State.goes_next hrest hsettled fun last hlast => ?_))
  rw [if_pos rfl]
  exact State.goes_tail ((hi'.bind ⟨"result"⟩ v).locate? (by simp)
    ((hvariables.settle v).locate?_variable rfl)) hsettled (.arrived h)

/-- The machine has come to the result, and the promise has one. -/
def Answering (P : Promise) (settled : Option Value) (h : Heap) (s : State) : Prop :=
  ∃ v w, s = ⟨.resume v, [], w⟩ ∧ P.Remains (some v) h w.heap ∧ ∀ u, settled = some u → v = u

/-- The second test comes next, with the value of the expression. -/
def Rechecking (P : Promise) (settled : Option Value) (f : Ref .scope) (v : Value) (h : Heap)
    (s : State) : Prop :=
  ∃ inner w, s = ⟨.reduce (.pair P.code.recheck) inner, [], w⟩ ∧ P.Remains settled h w.heap ∧
    P.Receives w.heap inner f v ∧ P.seclusion.Shows w.heap v

/-- The value of the expression has come. -/
theorem goes_returning {all : Value} {g : Ref .closure} (hst : P.Stands settled w.heap)
    (hg : P.Rechecks w.heap g f) (hv : P.seclusion.Shows w.heap v) (hw : P.Keeps known w.heap) :
    State.Goes (P.Calm known) [] J (P.Rechecking settled f v w.heap)
      ⟨.resume v, evaluation g all f, w⟩ := by
  have hremains := hst.remains_value (f := f) hv
  refine State.goes_leave hw (goes_entering hg.closure
    ⟨hg.fresh.1, fun heq => absurd heq hg.fresh.2⟩ hw (.arrived ?_))
  exact ⟨_, _, rfl, hremains, hst.receives hg.entered hremains.2, hv.mono hremains.2.toFollows⟩

/-- It becomes the result unless there is one already. -/
theorem goes_rechecking {inner : Ref .scope} (hlies : P.code.Lies w.heap.HasPair)
    (hst : P.Stands settled w.heap) (hi : P.Receives w.heap inner f v)
    (hv : P.seclusion.Shows w.heap v) (hw : P.Keeps known w.heap) :
    State.Goes (P.Calm known) [] (P.Remains settled w.heap) (P.Answering settled w.heap)
      ⟨.reduce (.pair P.code.recheck) inner, [], w⟩ := by
  obtain ⟨settle, flag, result, hrecheck, hsettles⟩ := hlies.recheck
  cases settled with
  | some u =>
      refine State.goes_test [] hrecheck (by simp) hw (fun _ => hst.remains)
        (hi.locate? (by simp) (hst.locate?_variable rfl)) ?_
      exact State.goes_tail (hi.locate? (by simp) (hst.locate?_variable rfl)) hw
        (.arrived ⟨u, _, rfl, hst.remains, fun _ heq => Option.some.inj heq⟩)
  | none =>
      obtain rfl := hw.eq_none hst
      have hw : ∀ h, P.Keeps none h := keeps_none P
      exact State.goes_test [] hrecheck (by simp) (hw _) (fun _ => hst.remains)
        (hi.locate? (by simp) (hst.locate?_variable rfl))
        (goes_settling hsettles hst.toVariables hi (hw _) (hw _) (hw _) (fun _ => hst.remains)
          ⟨v, _, rfl, ⟨hst.settle hv, leads_settle w.heap v⟩, fun _ heq => by cases heq⟩)

/-! ## Expanding the local binding -/

/-- Wherever the run ends with a value, this value takes the place of the local binding, which is
replaced by a call of an abstraction then. No variable has changed. -/
def Expands (P : Promise) (f : Ref .scope) (h : Heap) (start : Step) : Prop :=
  ∀ v w', start.Ends (.value v) w' → ∃ w'',
    (∀ stack, Step.replace P.code.inner ⟨3⟩ (some f) v stack w' =
      go (.reduce (.pair P.code.inner) f) stack w'') ∧
    P.code.Expanded w''.heap.HasPair ∧
    Items w''.heap.HasPair (.pair P.code.call) [.symbol ⟨"proc"⟩] ∧
    ∀ (i : Nat) t, h.scopes[i]? = some t → w''.heap.scopes[i]? = some t

end Promise

/-- The machine ends as in direct style, or the limit stops it. -/
theorem Evaluator.Yields.ends_or {x v : Value} {scope : Ref .scope} {w w' : World}
    (h : Yields x scope w v w') : (go (.eval x scope) [] w).Deepens ∨
      (go (.eval x scope) [] w).Ends (.value v) (w'.onLevel w.depth w.maxDepth) := by
  obtain ⟨enough, hends⟩ := h.ends
  have hself : w.underLimit w.maxDepth = w := by rw [World.underLimit, World.onLevel_self]
  rw [← hself]
  exact (hends w.maxDepth).imp_left And.right

theorem Evaluator.Yields.of_ends {x v v' : Value} {scope : Ref .scope} {w w' w'' : World}
    (h : Yields x scope w v w') (hends : (go (.eval x scope) [] w).Ends (.value v') w'') :
    v' = v ∧ w'' = w'.onLevel w.depth w.maxDepth := by
  rcases h.ends_or with hdeep | hends'
  · obtain ⟨w₁, hfault⟩ := hdeep.ends
    cases (hends.unique hfault).1
  · obtain ⟨heq, hworld⟩ := hends.unique hends'
    exact ⟨Outcome.value.inj heq, hworld⟩

namespace Promise

variable {P : Promise} {f : Ref .scope} {σ : Moment}

/-- The local binding is expanded by a call of the transformer for local bindings. -/
theorem exists_expansion
    (hcall : σ.LetCall P.code.inner [("x", .pair P.code.call)] [.pair P.code.recheck])
    (hlies : P.code.Lies σ.Cell) (hσ : σ.Continues World.prelude) (hb : σ.IsBinder) :
    ∃ operands es inner w, σ.heap.pairs[P.code.inner.index]? = some ⟨.symbol ⟨"let"⟩, operands⟩ ∧
      World.elements operands σ.world = .value es σ.world ∧
      σ.world.enter (σ.world.heap.closure ⟨3⟩).parameters es (σ.world.heap.closure ⟨3⟩).scope =
        (inner, w) ∧
      P.Expands f σ.world.heap (go (.eval (σ.world.heap.closure ⟨3⟩).body inner) [] w) ∧
      ((go (.eval (σ.world.heap.closure ⟨3⟩).body inner) [] w).Deepens ∨
        ∃ v w', (go (.eval (σ.world.heap.closure ⟨3⟩).body inner) [] w).Ends (.value v) w') := by
  obtain ⟨operands, es, inner, w₁, x, hsite, helements, henter, w₂, hyields, σ', hworld, hadvances,
    habstracted⟩ := hcall.exists_abstracted (Moment.callSites ["x"]) hσ hb (List.mem_singleton_self _)
      (List.mem_singleton_self _)
  refine ⟨operands, es, inner, w₁, hsite, helements, henter, fun v w' hends => ?_,
    hyields.ends_or.imp_right fun hends => ⟨_, _, hends⟩⟩
  obtain ⟨rfl, rfl⟩ := hyields.of_ends hends
  generalize hw₃ : Evaluator.spliced P.code.inner ⟨3⟩ (.pair x)
    (w₂.onLevel w₁.depth w₁.maxDepth) = w₃
  have hheap : w₃.heap = σ'.heap := by
    obtain ⟨_, hhere⟩ := Moment.spliced_pair P.code.inner ⟨3⟩ x (w₂.onLevel w₁.depth w₁.maxDepth)
    obtain ⟨_, hthere⟩ := Moment.spliced_pair P.code.inner ⟨3⟩ x w₂
    rw [Moment.heap, hworld, ← hw₃, hhere, hthere]
    rfl
  have hpairs : ∀ r p, σ'.Cell r p → w₃.heap.HasPair r p := fun r p hr => hheap ▸ hr.2
  exact ⟨w₃, fun stack => hw₃ ▸ rfl, habstracted.expanded.mono hpairs,
    (hlies.call.mono hadvances.cells).mono hpairs, fun i t ht => hheap ▸ hadvances.scopes i t ht⟩

variable {settled : Option Value}

theorem Stands.shows_binder (hst : P.Stands settled σ.world.heap) (hb : σ.IsBinder) :
    P.seclusion.Shows σ.world.heap (.closure ⟨3⟩) := by
  obtain ⟨body, name, hclosure, -⟩ := hb
  refine ⟨fun heq => ?_, _, hclosure, Or.inr hst.secluded.global.1⟩
  obtain ⟨name', hthunk⟩ := hst.thunk
  have heq : (⟨3⟩ : Ref .closure) = P.thunk := heq
  rw [← heq] at hthunk
  exact absurd (congrArg Closure.parameters (Option.some.inj (hclosure.symm.trans hthunk)))
    (by simp)

/-- The transformer for local bindings runs next, for a call of the promise. -/
def Expanding (P : Promise) (h : Heap) (f : Ref .scope) (s : State) : Prop :=
  ∃ body inner w, s = ⟨.eval body inner, [.expansion P.code.inner ⟨3⟩ (some f)], w⟩ ∧
    P.Remains none h w.heap ∧ s.control.Allowed P.seclusion.policy w.heap ∧
    P.Expands f h (go (.eval body inner) [] w) ∧
    ((go (.eval body inner) [] w).Deepens ∨ ∃ v w', (go (.eval body inner) [] w).Ends (.value v) w')

theorem goes_expanding
    (hcall : σ.LetCall P.code.inner [("x", .pair P.code.call)] [.pair P.code.recheck])
    (hlies : P.code.Lies σ.Cell) (hσ : σ.Continues World.prelude) (hb : σ.IsBinder)
    (hst : P.Stands none σ.world.heap) (hf : P.Entered σ.world.heap f) :
    State.Goes (P.Calm none) [] (P.Remains none σ.world.heap) (P.Expanding σ.world.heap f)
      ⟨.reduce (.pair P.code.inner) f, [], σ.world⟩ := by
  obtain ⟨operands, es, inner, w, hinner, helements, henter, hexpands, hends⟩ :=
    exists_expansion (f := f) hcall hlies hσ hb
  have hw : ∀ h, P.Keeps none h := keeps_none P
  obtain ⟨owner, hlet⟩ := hσ.binds_names.names "let" _ rfl
  refine State.goes_combination (Heap.pair_eq_of_getElem? hinner) rfl (hw _)
    (State.goes_variable [_] (by simpa using Pending.passes_operator _ _ _) (hw _)
      (fun _ => hst.remains) (hf.locate? (hst.locate?_let hlet)) ?_)
  have hready : Step.Ready P.seclusion.policy σ.world [] :=
    ⟨hst.secluded, by simp [MachinePolicy.AdmitsStack]⟩
  have hoperands : P.seclusion.Shows σ.world.heap operands :=
    (hst.secluded.pairs _ (Array.mem_of_getElem? hinner)).2
  have hes : ∀ v ∈ es, P.seclusion.Shows σ.world.heap v := by
    have hobeys := World.obeys_elements (P := P.seclusion.values) hoperands σ.world (.refl _ _)
      hst.secluded
    rw [helements] at hobeys
    exact hobeys.2.2
  obtain ⟨hready', hspares, hcode⟩ := Step.opens_enter hready (hst.shows_binder hb) hes
  rw [henter] at hready' hspares hcode
  refine .step (State.quiet_resume (hw _) fun c below h => by cases h) ?_
    (.arrived ⟨_, inner, w, rfl, hst.remains_spares hready'.good hspares, ?_, hexpands, hends⟩)
  · change Step.expand _ _ _ _ _ _ = _
    simp only [Step.expand, Step.after, helements, henter]
    rfl
  · exact hcode.imp_right fun henters => ⟨_, _, Or.inl rfl, henters⟩

/-- What a call of the promise comes to, when it has been entered: a result; or the expansion of the
local binding; or the call of the procedure that evaluates the expression. -/
theorem goes_entered {known : Option Value} (hσ : σ.Continues World.prelude) (hb : σ.IsBinder)
    (hp : σ.IsPromise P.code) (hst : P.Stands settled σ.world.heap) (hf : P.Entered σ.world.heap f)
    (hw : P.Keeps known σ.world.heap) :
    State.Goes (P.Calm known) [] (P.Remains settled σ.world.heap) (fun s =>
        (∃ v, settled = some v ∧ s = ⟨.resume v, [], σ.world⟩) ∨
        settled = none ∧ (P.Expanding σ.world.heap f s ∨ P.Calling σ.world.heap f s))
      ⟨.reduce (.pair P.code.check) f, [], σ.world⟩ := by
  have hlies : P.code.Lies σ.world.heap.HasPair := hp.lies.mono fun _ _ hr => hr.2
  cases settled with
  | some v => exact goes_settled hlies hst hf hw hst.remains (Or.inl ⟨v, rfl, rfl⟩)
  | none =>
      obtain rfl := hw.eq_none hst
      refine goes_unsettled hlies hst hf hst.remains ?_
      rcases hp.inner with hcall | habstracted
      · exact (goes_expanding hcall hp.lies hσ hb hst hf).imp fun s hs =>
          .arrived (Or.inr ⟨rfl, Or.inl hs⟩)
      · have hexpanded : P.code.Expanded σ.world.heap.HasPair :=
          habstracted.expanded.mono fun _ _ hr => hr.2
        exact (goes_calling hlies.call hexpanded hst hf).imp fun s hs =>
          .arrived (Or.inr ⟨rfl, Or.inr hs⟩)

end Promise

end Scheme
