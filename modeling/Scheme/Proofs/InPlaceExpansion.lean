import Scheme.Proofs.ClosedHeaps
import Scheme.Proofs.DirectStyle
import Scheme.Proofs.Escapes
import Scheme.Proofs.SparedCells
/-!
# Expansion in place

A call of a transformer is rewritten where it stands: the body of the transformer runs once, on the
operands as they are, and the two fields of the call become those of the expansion. Evaluation goes
on there. When a special form is left in the end, it is all that later evaluations find, whatever
leads them to the pair; a transformer is run again only for calls that stand elsewhere.
-/

namespace Scheme

open Step

/-! ## Runs above other work -/

namespace Step

/-- The machine comes to a state, and what waits there has been waiting all the time. -/
def Comes (step : Step) (s : State) : Prop :=
  ∃ n, step.steps n = .next s ∧ ∀ i ≤ n, ∃ s', step.steps i = .next s' ∧ s.stack <:+ s'.stack

/-- A run that ends with a value or a fault comes back with it to the work below. -/
theorem Ends.comes {control : Control} {w w' : World} {outcome : Outcome}
    (h : (go control [] w).Ends outcome w') (htrap : outcome.isTrap = false)
    (stack : List Pending) :
    (∃ v, outcome = .value v ∧ (go control stack w).Comes ⟨.resume v, stack, w'⟩) ∨
      ∃ f, outcome = .fault f ∧ (go control stack w).Comes ⟨.unwind f, stack, w'⟩ := by
  obtain ⟨n, hrun⟩ := h
  rcases exists_last hrun with hstart | ⟨m, s, hs, hdone⟩
  · cases hstart
  · have habove : ∀ i ≤ m, ∃ s', (go control stack w).steps i = .next s' ∧ stack <:+ s'.stack := by
      intro i hi
      obtain ⟨s', hs'⟩ := steps_eq_next_of_le hi hs
      exact ⟨_, steps_onto hs' stack, List.suffix_append s'.stack stack⟩
    have hlast := steps_onto hs stack
    rcases State.done_cases hdone with heq | ⟨v, hv, rfl⟩ | ⟨f, hf, rfl⟩
    · simp [heq] at htrap
    · exact Or.inl ⟨v, hv, m, hlast, habove⟩
    · exact Or.inr ⟨f, hf, m, hlast, habove⟩

variable {control : Control} {w w' : World}

theorem Ends.resumes {v : Value} (h : (go control [] w).Ends (.value v) w')
    (stack : List Pending) : (go control stack w).Comes ⟨.resume v, stack, w'⟩ := by
  rcases h.comes rfl stack with ⟨v', hv, hcomes⟩ | ⟨f, hf, -⟩
  · cases hv
    exact hcomes
  · cases hf

theorem Ends.unwinds {f : Fault} (h : (go control [] w).Ends (.fault f) w')
    (stack : List Pending) : (go control stack w).Comes ⟨.unwind f, stack, w'⟩ := by
  rcases h.comes rfl stack with ⟨v, hv, -⟩ | ⟨f', hf, hcomes⟩
  · cases hv
  · cases hf
    exact hcomes

end Step

/-! ## Cells do not go away -/

/-- Cells may be added and changed in any way. -/
def Heap.counts : MachinePolicy where
  good _ := True
  leads := Fewer
  admits _ _ := True
  usable _ _ := True
  refl := .refl
  trans := .trans
  mono _ _ := trivial
  usableMono _ _ := trivial
  atom _ := trivial
  fields _ _ := ⟨trivial, trivial⟩
  element _ _ _ := trivial
  cons {h first rest} _ _ _ := ⟨trivial, h.fewer_cons first rest, trivial⟩
  addString {h} chars _ := ⟨trivial, h.fewer_addString chars, trivial⟩
  addVector {h elements} _ _ := ⟨trivial, h.fewer_addVector elements, trivial⟩
  global _ := trivial
  setPair {h p} ref _ _ _ := ⟨trivial, h.fewer_setPair ref p⟩
  setChar {h} ref i c _ := ⟨trivial, h.fewer_setChar ref i c⟩
  setElement {h v} ref i _ _ := ⟨trivial, h.fewer_setElement ref i v⟩
  located _ _ _ := trivial
  assign _ _ _ _ := ⟨trivial, Heap.fewer_bind _ _ _ _⟩
  bind {h v s} name _ _ _ := ⟨trivial, h.fewer_bind s name v⟩
  nameClosure {h} ref name _ := ⟨trivial, h.fewer_nameClosure ref name⟩
  addScope {h bindings parent} _ _ _ := ⟨trivial, h.fewer_addScope ⟨bindings, some parent⟩, trivial⟩
  code _ _ _ := Or.inl ⟨trivial, trivial⟩
  transformer := .rfl
  addClosure {h c} _ _ _ := ⟨trivial, h.fewer_addClosure c, trivial⟩
  slot _ _ := trivial
  addContinuation {h k} _ _ := ⟨trivial, h.fewer_addContinuation k, trivial⟩
  setContinuation {h k} ref _ _ := ⟨trivial, h.fewer_setContinuation ref k⟩

theorem Step.fewer_steps (control : Control) (stack : List Pending) (w : World) (n : Nat) :
    w.heap.Fewer ((go control stack w).steps n).outcome.2.heap := by
  have hcontrol : control.Admitted Heap.counts w.heap := by
    cases control <;> simp [Control.Admitted, Heap.counts]
  have hstack : Heap.counts.AdmitsStack w.heap stack := by
    intro p _
    cases p <;> simp [Pending.Admitted, Heap.counts]
  have hsteps := (obeys_go ⟨trivial, hstack⟩ hcontrol).steps (fun _ _ _ => id) n
  cases hn : (go control stack w).steps n with
  | next s | done outcome w' =>
      rw [hn] at hsteps
      exact hsteps.2.1

theorem Step.Ends.fewer {control : Control} {w w' : World} {outcome : Outcome}
    (h : (go control [] w).Ends outcome w') : w.heap.Fewer w'.heap := by
  obtain ⟨n, hrun⟩ := h
  have hfewer := fewer_steps control [] w n
  rwa [hrun] at hfewer

/-! ## The expansion takes the place of the call -/

/-- What becomes of a heap when a value takes the place of a call: the call has the fields of the
value if that is a pair, and otherwise evaluates it; nothing else that is there changes. -/
structure Heap.Spliced (site : Ref .pair) (v : Value) (h h' : Heap) : Prop where
  pair : ∀ e, v = .pair e → h'.pair site = h.pair e ∧ h'.pairs.size = h.pairs.size
  other : v.isPair = false → ∃ r : Ref .pair, r.index = h.pairs.size ∧
    h'.pair site = ⟨.symbol .begin, .pair r⟩ ∧ h'.pair r = ⟨v, .nil⟩ ∧
    h'.pairs.size = h.pairs.size + 1
  elsewhere : ∀ r : Ref .pair, r ≠ site → r.index < h.pairs.size → h'.pair r = h.pair r
  strings : h'.strings = h.strings
  vectors : h'.vectors = h.vectors
  scopes : h'.scopes = h.scopes
  closures : h'.closures = h.closures
  continuations : h'.continuations = h.continuations

namespace Heap

variable {h : Heap} {site : Ref .pair}

theorem pair_setPair (hsite : site.index < h.pairs.size) (p : Pair) :
    (h.setPair site p).pair site = p := by
  simp [Heap.pair, Heap.setPair, hsite]

theorem pair_setPair_of_ne {r : Ref .pair} (hr : r ≠ site) (p : Pair) :
    (h.setPair site p).pair r = h.pair r := by
  have hindex : site.index ≠ r.index := fun heq => hr (Ref.eq_of_index heq.symm)
  simp [Heap.pair, Heap.setPair, hindex]

theorem pair_cons (h : Heap) (first rest : Value) :
    (h.cons first rest).2.pair ⟨h.pairs.size⟩ = ⟨first, rest⟩ := by
  simp [Heap.pair, Heap.cons]

theorem pair_cons_of_lt {r : Ref .pair} (hr : r.index < h.pairs.size) (first rest : Value) :
    (h.cons first rest).2.pair r = h.pair r := by
  simp [Heap.pair, Heap.cons, Array.getElem?_push, Nat.ne_of_lt hr]

theorem spliced_pair (hsite : site.index < h.pairs.size) (e : Ref .pair) :
    h.Spliced site (.pair e) (h.setPair site (h.pair e)) where
  pair e' he := by
    cases he
    exact ⟨pair_setPair hsite _, by simp [Heap.setPair]⟩
  other hv := by cases hv
  elsewhere r hr _ := pair_setPair_of_ne hr _
  strings := rfl
  vectors := rfl
  scopes := rfl
  closures := rfl
  continuations := rfl

theorem spliced_other (hsite : site.index < h.pairs.size) {v : Value} (hv : v.isPair = false) :
    h.Spliced site v
      ((h.cons v .nil).2.setPair site ⟨.symbol .begin, (h.cons v .nil).1⟩) where
  pair e he := by
    rw [he] at hv
    cases hv
  other _ := by
    have hsite' : site.index < (h.cons v .nil).2.pairs.size :=
      Nat.lt_of_lt_of_le hsite (h.fewer_cons v .nil).pairs
    have hfresh : (⟨h.pairs.size⟩ : Ref .pair) ≠ site := by
      rintro rfl
      exact Nat.lt_irrefl _ hsite
    refine ⟨⟨h.pairs.size⟩, rfl, pair_setPair hsite' _, ?_, by simp [Heap.setPair, Heap.cons]⟩
    rw [pair_setPair_of_ne hfresh, pair_cons]
  elsewhere r hr hlt := by rw [pair_setPair_of_ne hr, pair_cons_of_lt hlt]
  strings := rfl
  vectors := rfl
  scopes := rfl
  closures := rfl
  continuations := rfl

end Heap

namespace Step

variable {site : Ref .pair} {m : Ref .closure} {scope : Ref .scope} {stack : List Pending}
  {w : World}

/-- The expansion takes the place of its call. -/
theorem spliced_spliced (hsite : site.index < w.heap.pairs.size) (v : Value) :
    w.heap.Spliced site v (Evaluator.spliced site m v w).heap ∧
      Evaluator.spliced site m v w = { w with
        heap := (Evaluator.spliced site m v w).heap, log := (Evaluator.spliced site m v w).log } := by
  have hother : v.isPair = false → replacement v = fun w =>
      (⟨.symbol .begin, (w.heap.cons v .nil).1⟩, { w with heap := (w.heap.cons v .nil).2 }) := by
    intro hv
    cases v with
    | pair e => cases hv
    | _ => rfl
  unfold Evaluator.spliced
  -- The entry in the log apart, the world is the same whether expansions are logged or not.
  split
  all_goals
    cases hv : v.isPair with
    | true =>
        obtain ⟨e, rfl⟩ : ∃ e, v = .pair e := by
          cases v <;> cases hv
          exact ⟨_, rfl⟩
        exact ⟨Heap.spliced_pair hsite e, rfl⟩
    | false =>
        rw [hother hv]
        exact ⟨Heap.spliced_other hsite hv, rfl⟩

/-- The expansion takes the place of its call and is evaluated there. -/
theorem exists_replaced (hsite : site.index < w.heap.pairs.size) (v : Value) :
    ∃ w', replace site m (some scope) v stack w = go (.reduce (.pair site) scope) stack w' ∧
      w.heap.Spliced site v w'.heap ∧ w' = { w with heap := w'.heap, log := w'.log } :=
  ⟨Evaluator.spliced site m v w, rfl, spliced_spliced hsite v⟩

theorem elements_proper {v : Value} {items : List Value}
    (hspine : w.heap.spine? v = some (items, .nil)) : World.elements v w = .value items w := by
  simp [World.elements, World.spine, hspine, bind, Action.bind, pure, Action.pure, Value.isNil]

theorem elements_improper {v last : Value} {items : List Value}
    (hspine : w.heap.spine? v = some (items, last)) (hlast : last ≠ .nil) :
    World.elements v w =
      World.fail (.wrongKind .properList (w.heap.written v)) w := by
  have hnil : last.isNil = false := by
    cases last with
    | nil => exact absurd rfl hlast
    | _ => rfl
  simp [World.elements, World.spine, hspine, bind, Action.bind, hnil, World.failWith]

theorem elements_endless {v : Value} (hspine : w.heap.spine? v = none) :
    World.elements v w = .trap .endless w := by
  simp [World.elements, World.spine, hspine, bind, Action.bind]

theorem reduce_call (hspecial : (w.heap.pair site).isSpecial = false) :
    reduce (.pair site) scope stack w = go (.eval (w.heap.pair site).first scope)
      (.operator site (w.heap.pair site).rest scope :: stack) w := by
  unfold Pair.isSpecial at hspecial
  cases hfirst : (w.heap.pair site).first with
  | symbol head =>
      have hnone : SpecialForm.ofSymbol? head = none := by simpa [hfirst] using hspecial
      simp only [reduce, hfirst, hnone]
  | _ => simp only [reduce, hfirst]

/-- A call of a transformer is rewritten in place. The operator is evaluated, then the body of the
transformer runs on the operands as they stand, and the call becomes its expansion, with which
evaluation goes on in the same scope; an improper list of operands or a fault in the body leaves
everything as it is. Where a special form is left and no expansion is under way, evaluation finds
that form, however often and from wherever it comes to the pair, for as long as the program does
not overwrite the pair itself. -/
theorem expands_in_place {site : Ref .pair} {m : Ref .closure} {scope : Ref .scope} {w w₁ : World}
    (hsite : site.index < w.heap.pairs.size)
    (hspecial : (w.heap.pair site).isSpecial = false)
    (hhead : (go (.eval (w.heap.pair site).first scope) [] w).Ends (.value (.transformer m)) w₁)
    (stack : List Pending) :
    let p := w.heap.pair site
    let c := w₁.heap.closure m
    let called := .operator site p.rest scope :: stack
    let expanding := .expansion site m (some scope) :: stack
    (State.step ⟨.reduce (.pair site) scope, stack, w⟩ = go (.eval p.first scope) called w ∧
      (go (.eval p.first scope) called w).Comes ⟨.resume (.transformer m), called, w₁⟩) ∧
    (w₁.heap.spine? p.rest = none →
      State.step ⟨.resume (.transformer m), called, w₁⟩ = .done (.trap .endless) w₁) ∧
    (∀ items last, w₁.heap.spine? p.rest = some (items, last) → last ≠ .nil →
      let cause := .wrongKind .properList (w₁.heap.written p.rest)
      State.step ⟨.resume (.transformer m), called, w₁⟩ =
        go (.unwind (.failed cause)) stack (w₁.note (.failure cause))) ∧
    (∀ items inner w₂, w₁.heap.spine? p.rest = some (items, .nil) →
      w₁.enter c.parameters items c.scope = (inner, w₂) →
      State.step ⟨.resume (.transformer m), called, w₁⟩ = go (.eval c.body inner) expanding w₂ ∧
      (∀ f w₃, (go (.eval c.body inner) [] w₂).Ends (.fault f) w₃ →
        (go (.eval c.body inner) expanding w₂).Comes ⟨.unwind f, expanding, w₃⟩ ∧
        State.step ⟨.unwind f, expanding, w₃⟩ = go (.unwind f) stack w₃) ∧
      ∀ v w₃, (go (.eval c.body inner) [] w₂).Ends (.value v) w₃ →
        (go (.eval c.body inner) expanding w₂).Comes ⟨.resume v, expanding, w₃⟩ ∧
        ∃ w₄, State.step ⟨.resume v, expanding, w₃⟩ = go (.reduce (.pair site) scope) stack w₄ ∧
          w₃.heap.Spliced site v w₄.heap ∧ w₄ = { w₃ with heap := w₄.heap, log := w₄.log }) ∧
    ∀ (s : State) (cell : Pair) (head : Symbol) (form : SpecialForm),
      cell.first = .symbol head → SpecialForm.ofSymbol? head = some form →
      Spared site cell s.world s.stack →
      ∀ n, (∀ i < n, ∀ s', (Step.next s).steps i = .next s' →
          s'.control.overwrites site = false) →
        ((Step.next s).steps n).Spares site cell ∧
        ∀ s' scope', (Step.next s).steps n = .next s' → s'.control = .reduce (.pair site) scope' →
          s'.step = special form cell.rest scope' s'.stack s'.world := by
  intro p c called expanding
  refine ⟨⟨reduce_call hspecial, hhead.resumes called⟩, ?_, ?_, ?_, ?_⟩
  · intro hspine
    change expand site m p.rest (some scope) stack w₁ = _
    simp only [expand, after, elements_endless hspine]
  · intro items last hspine hlast cause
    change expand site m p.rest (some scope) stack w₁ = _
    simp only [expand, after, elements_improper hspine hlast]
    rfl
  · intro items inner w₂ hspine henter
    have hbegin : expand site m p.rest (some scope) stack w₁ =
        go (.eval c.body inner) expanding w₂ := by
      simp only [expand, after, elements_proper hspine]
      rw [henter]
    refine ⟨hbegin, fun f w₃ hfault => ⟨hfault.unwinds expanding, rfl⟩, fun v w₃ hvalue => ?_⟩
    have hsite₃ : site.index < w₃.heap.pairs.size := by
      have hentered := fewer_steps (.resume (.transformer m)) called w₁ 1
      rw [show (go (.resume (.transformer m)) called w₁).steps 1 = _ from hbegin] at hentered
      exact Nat.lt_of_lt_of_le hsite (hhead.fewer.trans (hentered.trans hvalue.fewer)).pairs
    exact ⟨hvalue.resumes expanding, exists_replaced hsite₃ v⟩
  · intro s cell head form hfirst hform hspared n hother
    have hspecial : cell.isSpecial = true := by simp [Pair.isSpecial, hfirst, hform]
    have hstart : (Step.next s).Spares site cell := hspared
    have hspares := hstart.steps hspecial hother
    refine ⟨hspares, fun s' scope' hs' hcontrol => ?_⟩
    rw [hs'] at hspares
    obtain ⟨control, stack', w'⟩ := s'
    cases hcontrol
    exact reduce_special hspares.holds hfirst hform

end Step

/-- A world with the list `(m)` in pair 0. The transformer `m` has no parameters and the body
`(if (car c) #t '(if (car c) (m) (set-car! c #t)))`, where `c` is the list in pair 1. -/
def World.withCall : World where
  heap :=
    { pairs := #[
        ⟨.transformer ⟨0⟩, .nil⟩, ⟨.boolean false, .nil⟩,
        -- `'c` and `(car c)`
        ⟨.symbol .quote, .pair ⟨3⟩⟩, ⟨.pair ⟨1⟩, .nil⟩,
        ⟨.primitive (.exactly 1 "car" (.list (.path [.first]))), .pair ⟨5⟩⟩, ⟨.pair ⟨2⟩, .nil⟩,
        -- the body
        ⟨.symbol ⟨"if"⟩, .pair ⟨7⟩⟩, ⟨.pair ⟨4⟩, .pair ⟨8⟩⟩, ⟨.boolean true, .pair ⟨9⟩⟩,
        ⟨.pair ⟨10⟩, .nil⟩, ⟨.symbol .quote, .pair ⟨11⟩⟩, ⟨.pair ⟨12⟩, .nil⟩,
        -- the expansion
        ⟨.symbol ⟨"if"⟩, .pair ⟨13⟩⟩, ⟨.pair ⟨4⟩, .pair ⟨14⟩⟩, ⟨.pair ⟨16⟩, .pair ⟨15⟩⟩,
        ⟨.pair ⟨17⟩, .nil⟩, ⟨.transformer ⟨0⟩, .nil⟩,
        ⟨.primitive (.exactly 2 "set-car!" (.list (.set .first))), .pair ⟨18⟩⟩,
        ⟨.pair ⟨2⟩, .pair ⟨19⟩⟩, ⟨.boolean true, .nil⟩]
      scopes := #[⟨{}, none⟩]
      closures := #[⟨⟨[], none⟩, .pair ⟨6⟩, .global, none⟩] }
  host := World.nowhere
  maxDepth := 10

/-- The call becomes its expansion, and evaluation goes on with the special form that it finds. -/
theorem Step.expands_in_place_to_branch :
    let w := World.withCall
    let entered := w.enter ⟨[], none⟩ [] .global
    let expanding := [.expansion ⟨0⟩ ⟨0⟩ (some .global)]
    (0 < w.heap.pairs.size ∧ (w.heap.pair ⟨0⟩).isSpecial = false ∧
      (go (.eval (w.heap.pair ⟨0⟩).first .global) [] w).Ends (.value (.transformer ⟨0⟩)) w) ∧
    ∃ w₃ w₄, (go (.eval (.pair ⟨6⟩) entered.1) [] entered.2).Ends (.value (.pair ⟨12⟩)) w₃ ∧
      State.step ⟨.resume (.pair ⟨12⟩), expanding, w₃⟩ =
        go (.reduce (.pair ⟨0⟩) .global) [] w₄ ∧
      w₃.heap.Spliced ⟨0⟩ (.pair ⟨12⟩) w₄.heap ∧
      State.step ⟨.reduce (.pair ⟨0⟩) .global, [], w₄⟩ =
        special .branch (.pair ⟨13⟩) .global [] w₄ := by
  intro w entered expanding
  have hsite : (⟨0⟩ : Ref .pair).index < w.heap.pairs.size := by decide
  have hhead : (go (.eval (w.heap.pair ⟨0⟩).first .global) [] w).Ends
      (.value (.transformer ⟨0⟩)) w := ⟨4, rfl⟩
  obtain ⟨-, -, -, hbody, hkept⟩ := expands_in_place hsite rfl hhead []
  obtain ⟨-, -, hvalue⟩ := hbody [] entered.1 entered.2 rfl rfl
  have hends : ∃ w₃, (go (.eval (.pair ⟨6⟩) entered.1) [] entered.2).Ends
      (.value (.pair ⟨12⟩)) w₃ ∧ (w₃.heap.pairs.size = 20 ∧
        w₃.heap.pair ⟨12⟩ = ⟨.symbol ⟨"if"⟩, .pair ⟨13⟩⟩) := ⟨_, ⟨18, rfl⟩, rfl, rfl⟩
  obtain ⟨w₃, hends, hsize, hcell⟩ := hends
  obtain ⟨-, w₄, hlast, hspliced, -⟩ := hvalue (.pair ⟨12⟩) w₃ hends
  refine ⟨⟨by decide, rfl, hhead⟩, w₃, w₄, hends, hlast, hspliced, ?_⟩
  obtain ⟨hsite₄, hsize₄⟩ := hspliced.pair ⟨12⟩ rfl
  have hspared : Spared ⟨0⟩ ⟨.symbol ⟨"if"⟩, .pair ⟨13⟩⟩ w₄ [] := by
    refine ⟨?_, by simp⟩
    have hlt : 0 < w₄.heap.pairs.size := by omega
    rw [← hcell, ← hsite₄, Heap.pair, Array.getElem?_eq_getElem hlt, Option.getD_some]
  have hfinds := hkept ⟨.reduce (.pair ⟨0⟩) .global, [], w₄⟩ _ _ .branch rfl rfl hspared 0
    (by simp)
  exact hfinds.2 _ _ rfl rfl

/-- After one evaluation of the call a special form is left in it, which calls the transformer on
the next evaluation. -/
theorem Step.expands_elsewhere :
    (World.withCall.heap.pair ⟨0⟩).first = .transformer ⟨0⟩ ∧
    ∃ w, (go (.eval (.pair ⟨0⟩) .global) [] World.withCall).Ends (.value (.boolean true)) w ∧
      (w.heap.pair ⟨0⟩).isSpecial = true ∧
      ∃ n inner site stack w', (go (.eval (.pair ⟨0⟩) .global) [] w).steps n =
        go (.eval (w.heap.closure ⟨0⟩).body inner)
          (.expansion site ⟨0⟩ (some .global) :: stack) w' := by
  refine ⟨rfl, _, ⟨60, rfl⟩, rfl, ?_⟩
  exact ⟨20, _, _, _, _, rfl⟩

end Scheme
