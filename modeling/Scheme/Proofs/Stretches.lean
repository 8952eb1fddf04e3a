import Scheme.Proofs.CallsAndApplications
import Scheme.Proofs.Loops
import Scheme.Proofs.TemplateTransformer
/-!
# Stretches of a run

Calls of a closure and what they come to, in the course of a run; and stretches of a run in all
states of which something holds. In a stretch of code whose evaluation nests only a few levels deep,
each of these levels is begun or it is refused, and then the stretch ends with a fault.
-/

namespace Scheme

open Step

/-! ## Calls -/

/-- The next step enters the code of the closure, above the work that waits for its value. -/
inductive State.Calls (c : Ref .closure) : State → List Pending → Prop where
  | applied {arguments : List Value} {below : List Pending} {w : World} :
    Calls c ⟨.apply (.closure c) arguments, below, w⟩ below
  | called {v : Value} {evaluated : List Value} {all : Value} {scope : Ref .scope}
    {below : List Pending} {w : World} :
    Calls c ⟨.resume v, .operand (.closure c) evaluated .nil all scope :: below, w⟩ below
  | calledWithout {site : Ref .pair} {scope : Ref .scope} {below : List Pending} {w : World} :
    Calls c ⟨.resume (.closure c), .operator site .nil scope :: below, w⟩ below

/-- After so many steps the machine is at work on a call of the closure; `s` is what it is like above
the work that waits for the value of the call. -/
def Step.Open (start : Step) (c : Ref .closure) (n : Nat) (s : State) (below : List Pending) :
    Prop :=
  ∃ m called control w j, start.steps m = .next called ∧ called.Calls c below ∧
    called.step = go control below w ∧ (go control [] w).steps j = .next s ∧ n = m + 1 + j

/-- After so many steps a call of the closure has come to the value. -/
def Step.Delivers (start : Step) (c : Ref .closure) (n : Nat) (v : Value) : Prop :=
  ∃ w below, start.Open c n ⟨.resume v, [], w⟩ below

variable {start : Step} {c : Ref .closure} {n : Nat} {s s' : State} {below : List Pending}

theorem Step.steps_onto_next {control : Control} {w : World} {n : Nat} {s : State}
    (h : (go control [] w).steps n = .next s) (below : List Pending) :
    (go control below w).steps n = .next ⟨s.control, s.stack ++ below, s.world⟩ :=
  steps_onto h below

/-- While a call is open, its state is on top of the work below. -/
theorem Step.Open.state (h : start.Open c n s below) :
    start.steps n = .next ⟨s.control, s.stack ++ below, s.world⟩ := by
  obtain ⟨m, called, control, w, j, hm, -, hcalled, hj, rfl⟩ := h
  rw [Nat.add_assoc, steps_add, hm, Nat.add_comm 1 j, steps_next, hcalled]
  exact steps_onto_next hj below

/-- Above other work, the call comes to the same. -/
theorem State.Calls.onto (h : s.Calls c below) (base : List Pending) :
    State.Calls c ⟨s.control, s.stack ++ base, s.world⟩ (below ++ base) := by
  cases h with
  | applied => exact .applied
  | called => exact .called
  | calledWithout => exact .calledWithout

theorem State.Calls.of_onto {base below' : List Pending}
    (h : State.Calls c ⟨s.control, s.stack ++ base, s.world⟩ below') (hs : ¬ s.Final) :
    ∃ below, s.Calls c below := by
  obtain ⟨control, stack, w⟩ := s
  cases stack with
  | nil =>
      cases h with
      | applied => exact ⟨[], .applied⟩
      | called | calledWithout => exact absurd ⟨rfl, Or.inl ⟨_, rfl⟩⟩ hs
  | cons p stack =>
      cases h with
      | applied => exact ⟨_, .applied⟩
      | called => exact ⟨_, .called⟩
      | calledWithout => exact ⟨_, .calledWithout⟩

/-- A call that is open in a part of a run is open in the whole run, above what is below the part. -/
theorem Step.Open.onto {control : Control} {w : World} {m : Nat} {base : List Pending}
    (h : (go control [] w).Open c n s below) (hm : start.steps m = go control base w) :
    start.Open c (m + n) s (below ++ base) := by
  obtain ⟨m', called, control', w', j, hm', hcalls, hcalled, hj, rfl⟩ := h
  refine ⟨m + m', _, control', w', j, ?_, hcalls.onto base, State.step_onto hcalled base, hj,
    by omega⟩
  rw [steps_add, hm, steps_onto_next hm' base]

/-- The step of a call of a closure without parameters: its body, in a scope without variables. -/
theorem State.Calls.enters {body : Value} {scope : Ref .scope} {name : Option Symbol}
    (h : s.Calls c below)
    (hc : s.world.heap.closures[c.index]? = some ⟨⟨[], none⟩, body, scope, name⟩) :
    ∃ control w, s.step = go control below w ∧
      (control = .eval body ⟨s.world.heap.scopes.size⟩ ∨
        control = .reduce body ⟨s.world.heap.scopes.size⟩) ∧
      w.heap = (s.world.heap.addScope ⟨{}, some scope⟩).2 ∧ w.depth = s.world.depth ∧
      w.maxDepth = s.world.maxDepth := by
  have hentered : ∀ vs, (s.world.enter ⟨[], none⟩ vs scope).1 = ⟨s.world.heap.scopes.size⟩ ∧
      (s.world.enter ⟨[], none⟩ vs scope).2.heap = (s.world.heap.addScope ⟨{}, some scope⟩).2 ∧
      (s.world.enter ⟨[], none⟩ vs scope).2.depth = s.world.depth ∧
      (s.world.enter ⟨[], none⟩ vs scope).2.maxDepth = s.world.maxDepth := by
    intro vs
    unfold World.enter
    split
    · exact ⟨rfl, rfl, rfl, rfl⟩
    · exact ⟨rfl, rfl, rfl, rfl⟩
  have hclosure : s.world.heap.closure c = ⟨⟨[], none⟩, body, scope, name⟩ := by
    rw [Heap.closure, hc]
    rfl
  cases h with
  | @applied arguments _ w =>
      obtain ⟨hscope, hheap, hdepth, hmax⟩ := hentered arguments
      refine ⟨.eval body ⟨w.heap.scopes.size⟩, _, ?_, Or.inl rfl, hheap, hdepth, hmax⟩
      rw [← hscope]
      exact congrArg (fun c : Closure => go (.eval c.body (w.enter c.parameters arguments c.scope).1)
        below (w.enter c.parameters arguments c.scope).2) hclosure
  | @called v evaluated all scope' _ w =>
      obtain ⟨hscope, hheap, hdepth, hmax⟩ := hentered (v :: evaluated).reverse
      refine ⟨.reduce body ⟨w.heap.scopes.size⟩, _, ?_, Or.inr rfl, hheap, hdepth, hmax⟩
      rw [← hscope]
      exact congrArg (fun c : Closure => go (.reduce c.body
        (w.enter c.parameters (v :: evaluated).reverse c.scope).1)
        below (w.enter c.parameters (v :: evaluated).reverse c.scope).2) hclosure
  | @calledWithout site scope' _ w =>
      obtain ⟨hscope, hheap, hdepth, hmax⟩ := hentered []
      refine ⟨.reduce body ⟨w.heap.scopes.size⟩, _, ?_, Or.inr rfl, hheap, hdepth, hmax⟩
      rw [← hscope]
      exact congrArg (fun c : Closure => go (.reduce c.body (w.enter c.parameters [] c.scope).1)
        below (w.enter c.parameters [] c.scope).2) hclosure

/-! ## Stretches -/

/-- So many steps lead from one state to the other, and something holds of all states before. -/
inductive State.Through (Q : State → Prop) : Nat → State → State → Prop where
  | here (s : State) : Through Q 0 s s
  | next {k : Nat} {s s₁ s' : State} (hs : Q s) (hstep : s.step = .next s₁)
    (h : Through Q k s₁ s') : Through Q (k + 1) s s'

namespace State.Through

variable {Q : State → Prop} {k k' : Nat} {s s₁ s' : State}

theorem trans (h : Through Q k s s₁) (h' : Through Q k' s₁ s') : Through Q (k + k') s s' := by
  induction h with
  | here => rwa [Nat.zero_add]
  | next hs hstep _ ih =>
      rw [Nat.add_right_comm]
      exact .next hs hstep (ih h')

theorem one (hs : Q s) (hstep : s.step = .next s') : Through Q 1 s s' :=
  .next hs hstep (.here s')

theorem steps (h : Through Q k s s') : (Step.next s).steps k = .next s' := by
  induction h with
  | here => rfl
  | next _ hstep _ ih => rw [steps_next, hstep, ih]

/-- What holds of all states before the end. -/
theorem exists_at (h : Through Q k s s') {i : Nat} (hi : i < k) :
    ∃ s₁, (Step.next s).steps i = .next s₁ ∧ Q s₁ := by
  induction h generalizing i with
  | here => cases hi
  | next hs hstep _ ih =>
      cases i with
      | zero => exact ⟨_, rfl, hs⟩
      | succ i =>
          rw [steps_next, hstep]
          exact ih (Nat.lt_of_succ_lt_succ hi)

end State.Through

/-- Not the end of a run, and no call of other closures; and something holds of the heap. -/
structure State.Quiet (K : Heap → Prop) (may : Ref .closure → Prop) (s : State) : Prop where
  heap : K s.world.heap
  active : ¬ s.Final
  calls : ∀ c below, s.Calls c below → may c

theorem State.Quiet.onto {K : Heap → Prop} {may : Ref .closure → Prop} {s : State}
    (hs : s.Quiet K may) (base : List Pending) :
    Quiet K may ⟨s.control, s.stack ++ base, s.world⟩ where
  heap := hs.heap
  active h := hs.active ⟨(List.append_eq_nil_iff.1 h.1).1, h.2⟩
  calls c _ h := by
    obtain ⟨below, hcalls⟩ := h.of_onto hs.active
    exact hs.calls c below hcalls

/-- A stretch to a value with no work below ends with that value. -/
theorem State.Through.done {Q : State → Prop} {k : Nat} {s : State} {v : Value} {w : World}
    (h : State.Through Q k s ⟨.resume v, [], w⟩) :
    (Step.next s).steps (k + 1) = .done (.value v) w := by
  rw [steps_succ', h.steps]
  rfl

/-- A stretch is the same above other work. -/
theorem State.Through.onto {K : Heap → Prop} {may : Ref .closure → Prop} {k : Nat} {s s' : State}
    (h : Through (Quiet K may) k s s') (base : List Pending) :
    Through (Quiet K may) k ⟨s.control, s.stack ++ base, s.world⟩
      ⟨s'.control, s'.stack ++ base, s'.world⟩ := by
  induction h with
  | here => exact .here _
  | next hs hstep _ ih => exact .next (hs.onto base) (State.step_onto hstep base) ih

/-- A stretch leads to a state as it is stated; or the limit stops the machine, and a stretch leads
back to the work below with a fault. -/
def State.Goes (Q : State → Prop) (below : List Pending) (J : Heap → Prop) (R : State → Prop)
    (s : State) : Prop :=
  (∃ k s', Through Q k s s' ∧ R s') ∨
    ∃ k deep k' f w, Through Q k s deep ∧ deep.TooDeep ∧
      Through Q k' deep ⟨.unwind f, below, w⟩ ∧ J w.heap

/-- A fault passes this work, and changes nothing in the heap. -/
def Pending.Passes (p : Pending) : Prop :=
  ∀ f stack w, ∃ w', Step.unwind f (p :: stack) w = go (.unwind f) stack w' ∧ w'.heap = w.heap

theorem Pending.passes_operator (site : Ref .pair) (rest : Value) (scope : Ref .scope) :
    (operator site rest scope).Passes :=
  fun _ _ w => ⟨w, rfl, rfl⟩

theorem Pending.passes_operand (procedure : Value) (evaluated : List Value) (rest all : Value)
    (scope : Ref .scope) : (operand procedure evaluated rest all scope).Passes :=
  fun _ _ w => ⟨w, rfl, rfl⟩

theorem Pending.passes_expansion (site : Ref .pair) (c : Ref .closure) (scope : Option (Ref .scope)) :
    (expansion site c scope).Passes :=
  fun _ _ w => ⟨w, rfl, rfl⟩

theorem Pending.passes_leave : leave.Passes :=
  fun _ _ w => ⟨w.leave, rfl, rfl⟩

namespace State.Goes

variable {Q : State → Prop} {J : Heap → Prop} {R R' : State → Prop} {s s₁ : State}
  {below : List Pending}

theorem of_through {k : Nat} (h : Through Q k s s₁) (hs₁ : s₁.Goes Q below J R) :
    s.Goes Q below J R := by
  rcases hs₁ with ⟨k₁, s', h₁, hs'⟩ | ⟨k₁, deep, k₂, f, w, h₁, hdeep, h₂, hw⟩
  · exact Or.inl ⟨_, s', h.trans h₁, hs'⟩
  · exact Or.inr ⟨_, deep, k₂, f, w, h.trans h₁, hdeep, h₂, hw⟩

theorem step (hs : Q s) (hstep : s.step = .next s₁) (hs₁ : s₁.Goes Q below J R) :
    s.Goes Q below J R :=
  of_through (.one hs hstep) hs₁

theorem arrived (hs : R s) : s.Goes Q below J R :=
  Or.inl ⟨0, s, .here s, hs⟩

theorem weaken {J' : Heap → Prop} (h : s.Goes Q below J R) (hJ : ∀ h, J h → J' h)
    (hR : ∀ s', R s' → R' s') : s.Goes Q below J' R' := by
  rcases h with ⟨k, s', h, hs'⟩ | ⟨k, deep, k', f, w, h, hdeep, h', hw⟩
  · exact Or.inl ⟨k, s', h, hR s' hs'⟩
  · exact Or.inr ⟨k, deep, k', f, w, h, hdeep, h', hJ _ hw⟩

theorem imp (h : s.Goes Q below J R) (himp : ∀ s', R s' → s'.Goes Q below J R') :
    s.Goes Q below J R' := by
  rcases h with ⟨k, s', h, hs'⟩ | hrefused
  · exact of_through h (himp s' hs')
  · exact Or.inr hrefused

end State.Goes

/-! ## Evaluations in a stretch -/

section Evaluations

variable {K : Heap → Prop} {may : Ref .closure → Prop} {J : Heap → Prop} {R : State → Prop}
  (above : List Pending) {below stack : List Pending} {x v : Value} {scope owner : Ref .scope}
  {name : Symbol} {w : World}

theorem State.quiet_eval (hw : K w.heap) : Quiet K may ⟨.eval x scope, stack, w⟩ where
  heap := hw
  active h := by
    rcases h.2 with ⟨_, h⟩ | ⟨_, h⟩ <;> cases h
  calls c below h := by cases h

theorem State.quiet_reduce (hw : K w.heap) : Quiet K may ⟨.reduce x scope, stack, w⟩ where
  heap := hw
  active h := by
    rcases h.2 with ⟨_, h⟩ | ⟨_, h⟩ <;> cases h
  calls c below h := by cases h

theorem State.quiet_unwind {p : Pending} {f : Fault} (hw : K w.heap) :
    Quiet K may ⟨.unwind f, p :: stack, w⟩ where
  heap := hw
  active h := by cases h.1
  calls c below h := by cases h

theorem State.quiet_resume {p : Pending} (hw : K w.heap)
    (hp : ∀ c below, ¬ State.Calls c ⟨.resume v, p :: stack, w⟩ below) :
    Quiet K may ⟨.resume v, p :: stack, w⟩ where
  heap := hw
  active h := by cases h.1
  calls c below h := absurd h (hp c below)

/-- A fault goes back through work that it passes. -/
theorem State.exists_unwound (f : Fault) (habove : ∀ p ∈ above, p.Passes) (hw : K w.heap) :
    ∃ k w', Through (Quiet K may) k ⟨.unwind f, above ++ below, w⟩ ⟨.unwind f, below, w'⟩ ∧
      w'.heap = w.heap := by
  induction above generalizing w with
  | nil => exact ⟨0, w, .here _, rfl⟩
  | cons p above ih =>
      obtain ⟨w₁, hstep, hheap⟩ := habove p List.mem_cons_self f (above ++ below) w
      obtain ⟨k, w', hthrough, hheap'⟩ := ih (w := w₁)
        (fun q hq => habove q (List.mem_cons_of_mem p hq)) (hheap ▸ hw)
      exact ⟨k + 1, w', .next (quiet_unwind hw) hstep hthrough, hheap'.trans hheap⟩

/-- An expression one level deeper: the limit stops the machine, or it goes on. -/
theorem State.goes_eval (habove : ∀ p ∈ above, p.Passes) (hw : K w.heap)
    (hJ : w.maxDepth ≤ w.depth → J w.heap)
    (h : w.depth < w.maxDepth → State.Goes (Quiet K may) below J R
      ⟨.reduce x scope, .leave :: (above ++ below), { w with depth := w.depth + 1 }⟩) :
    State.Goes (Quiet K may) below J R ⟨.eval x scope, above ++ below, w⟩ := by
  by_cases hdepth : w.depth < w.maxDepth
  · exact .step (quiet_eval hw) (if_pos hdepth) (h hdepth)
  · have hdeep : State.TooDeep ⟨.eval x scope, above ++ below, w⟩ :=
      ⟨⟨x, scope, rfl⟩, Nat.le_of_not_lt hdepth⟩
    obtain ⟨k, w', hthrough, hheap⟩ := exists_unwound above (.failed (.tooDeep w.maxDepth)) habove
      (w := w.note (.failure (.tooDeep w.maxDepth))) hw
    exact Or.inr ⟨0, _, k + 1, _, w', .here _, hdeep,
      .next (quiet_eval hw) hdeep.step hthrough, hheap ▸ hJ (Nat.le_of_not_lt hdepth)⟩

/-- The end of a level. -/
theorem State.goes_leave (hw : K w.heap)
    (h : State.Goes (Quiet K may) below J R ⟨.resume v, stack, w.leave⟩) :
    State.Goes (Quiet K may) below J R ⟨.resume v, .leave :: stack, w⟩ := by
  exact .step (quiet_resume hw fun c below h => by cases h) rfl h

theorem State.goes_variable (habove : ∀ p ∈ above, p.Passes) (hw : K w.heap)
    (hJ : w.maxDepth ≤ w.depth → J w.heap)
    (hname : w.heap.locate? name scope = some (owner, v))
    (h : State.Goes (Quiet K may) below J R ⟨.resume v, above ++ below, w⟩) :
    State.Goes (Quiet K may) below J R ⟨.eval (.symbol name) scope, above ++ below, w⟩ := by
  refine goes_eval above habove hw hJ fun _ => .step (quiet_reduce hw) ?_
    (goes_leave (w := { w with depth := w.depth + 1 }) hw h)
  change Step.answer (World.lookup name scope) _ _ = _
  simp only [Step.answer, Step.after, World.lookup, hname]
  rfl

theorem State.goes_constant (habove : ∀ p ∈ above, p.Passes) (hw : K w.heap)
    (hJ : w.maxDepth ≤ w.depth → J w.heap)
    (hx : x.isSelfEvaluating = true)
    (h : w.depth < w.maxDepth → State.Goes (Quiet K may) below J R ⟨.resume x, above ++ below, w⟩) :
    State.Goes (Quiet K may) below J R ⟨.eval x scope, above ++ below, w⟩ := by
  refine goes_eval above habove hw hJ fun hdepth => .step (quiet_reduce hw) ?_
    (goes_leave (w := { w with depth := w.depth + 1 }) hw (h hdepth))
  cases x with
  | symbol | pair => cases hx
  | _ => rfl

/-- A branch on a variable. -/
theorem State.goes_test {a b : Value} (hx : w.heap.Lists x [.symbol ⟨"if"⟩, .symbol name, a, b])
    (habove : ∀ p ∈ above, p.Passes) (hw : K w.heap)
    (hJ : w.maxDepth ≤ w.depth → J w.heap)
    (hname : w.heap.locate? name scope = some (owner, v))
    (h : State.Goes (Quiet K may) below J R
      ⟨.reduce (if v.isTrue then a else b) scope, above ++ below, w⟩) :
    State.Goes (Quiet K may) below J R ⟨.reduce x scope, above ++ below, w⟩ := by
  obtain ⟨r, arms, rfl, hr, harms⟩ := hx.exists_pair
  obtain ⟨r₁, _, rfl, hr₁, hothers⟩ := harms.exists_pair
  obtain ⟨r₂, _, rfl, hr₂, hlast⟩ := hothers.exists_pair
  obtain ⟨r₃, _, rfl, hr₃, -⟩ := hlast.exists_pair
  have hfirst : w.heap.first (.pair r₁) = .symbol name := congrArg Pair.first hr₁
  have hstep : State.step ⟨.reduce (.pair r) scope, above ++ below, w⟩ =
      go (.eval (.symbol name) scope) (.branch (.pair r₁) scope :: above ++ below) w := by
    simp only [State.step, Step.reduce, hr]
    change Step.special .branch (.pair r₁) scope _ w = _
    simp only [Step.special, hfirst]
    rfl
  refine .step (quiet_reduce hw) hstep (goes_variable (.branch (.pair r₁) scope :: above) ?_ hw hJ
    hname (.step (quiet_resume hw fun c below h => by cases h) ?_ h))
  · exact List.forall_mem_cons.2 ⟨fun f stack w => ⟨w, rfl, rfl⟩, habove⟩
  · have harm : (if v.isTrue then w.heap.second (.pair r₁) else w.heap.third (.pair r₁)) =
        if v.isTrue then a else b := by
      simp only [Heap.second, Heap.third, Heap.first, Heap.rest, hr₁, hr₂, hr₃]
    change go (.reduce _ scope) (above ++ below) w = _
    rw [harm]
    rfl

/-- The first of several forms, and what comes after it. -/
theorem State.goes_sequence {y : Value} {forms : List Value}
    (hx : w.heap.Lists x (.symbol .begin :: y :: forms)) (hforms : forms ≠ []) (hw : K w.heap)
    (h : ∀ body, w.heap.Lists body (y :: forms) → State.Goes (Quiet K may) below J R
      ⟨.eval y scope, .sequence body scope :: stack, w⟩) :
    State.Goes (Quiet K may) below J R ⟨.reduce x scope, stack, w⟩ := by
  obtain ⟨r, body, rfl, hr, hbody⟩ := hx.exists_pair
  refine .step (quiet_reduce hw) ?_ (h body hbody)
  obtain ⟨z, forms, rfl⟩ := List.exists_cons_of_ne_nil hforms
  obtain ⟨_, _, heq, -⟩ := hbody.rest.exists_pair
  simp only [State.step, Step.reduce, hr]
  change Step.sequence body scope stack w = _
  simp only [Step.sequence, heq, Value.isPair, if_true, hbody.first_eq]
  rfl

theorem State.goes_next {y z : Value} {forms : List Value} {body : Value}
    (hbody : w.heap.Lists body (y :: z :: forms)) (hw : K w.heap)
    (h : ∀ rest, w.heap.Lists rest (z :: forms) → State.Goes (Quiet K may) below J R
      (if forms = [] then ⟨.reduce z scope, stack, w⟩
        else ⟨.eval z scope, .sequence rest scope :: stack, w⟩)) :
    State.Goes (Quiet K may) below J R ⟨.resume v, .sequence body scope :: stack, w⟩ := by
  refine .step (quiet_resume hw fun c below h => by cases h) ?_ (h _ hbody.rest)
  change Step.sequence (w.heap.rest body) scope stack w = _
  cases forms with
  | nil =>
      have hlast : (w.heap.rest (w.heap.rest body)).isPair = false := by
        have hnil := hbody.rest.rest
        generalize w.heap.rest (w.heap.rest body) = rest at hnil
        cases hnil
        rfl
      simp only [Step.sequence, hlast, hbody.rest.first_eq]
      rfl
  | cons =>
      obtain ⟨_, _, heq, -⟩ := hbody.rest.rest.exists_pair
      simp only [Step.sequence, heq, Value.isPair, if_true, hbody.rest.first_eq]
      rfl

theorem State.goes_assignment {y : Value}
    (hx : w.heap.Lists x [.symbol ⟨"set!"⟩, .symbol name, y]) (hw : K w.heap)
    (h : State.Goes (Quiet K may) below J R
      ⟨.eval y scope, .assignment name scope :: stack, w⟩) :
    State.Goes (Quiet K may) below J R ⟨.reduce x scope, stack, w⟩ := by
  obtain ⟨r, operands, rfl, hr, hoperands⟩ := hx.exists_pair
  refine .step (quiet_reduce hw) ?_ h
  simp only [State.step, Step.reduce, hr]
  change Step.special .assignment operands scope stack w = _
  simp only [Step.special, hoperands.first_eq]
  change go (.eval (w.heap.first (w.heap.rest operands)) scope) _ w = _
  rw [hoperands.rest.first_eq]
  rfl

theorem State.goes_assigned {old : Value} (hname : w.heap.locate? name scope = some (owner, old))
    (hw : K w.heap) (h : State.Goes (Quiet K may) below J R
      ⟨.resume v, stack, { w with heap := w.heap.bind owner name v }⟩) :
    State.Goes (Quiet K may) below J R ⟨.resume v, .assignment name scope :: stack, w⟩ := by
  refine .step (quiet_resume hw fun c below h => by cases h) ?_ h
  change Step.answer (World.assign name v scope) stack w = _
  simp only [Step.answer, Step.after, World.assign, hname]
  rfl

/-- A variable in tail position. -/
theorem State.goes_tail (hname : w.heap.locate? name scope = some (owner, v)) (hw : K w.heap)
    (h : State.Goes (Quiet K may) below J R ⟨.resume v, stack, w⟩) :
    State.Goes (Quiet K may) below J R ⟨.reduce (.symbol name) scope, stack, w⟩ := by
  refine .step (quiet_reduce hw) ?_ h
  change Step.answer (World.lookup name scope) _ _ = _
  simp only [Step.answer, Step.after, World.lookup, hname]
  rfl

/-- A combination comes to its operator. -/
theorem State.goes_combination {site : Ref .pair} {head rest : Value}
    (hsite : w.heap.pair site = ⟨head, rest⟩) (hhead : (⟨head, rest⟩ : Pair).isSpecial = false)
    (hw : K w.heap) (h : State.Goes (Quiet K may) below J R
      ⟨.eval head scope, .operator site rest scope :: stack, w⟩) :
    State.Goes (Quiet K may) below J R ⟨.reduce (.pair site) scope, stack, w⟩ := by
  refine .step (quiet_reduce hw) ?_ h
  simp only [State.step, Step.reduce, hsite]
  cases head with
  | symbol s =>
      have hs : SpecialForm.ofSymbol? s = none := by simpa [Pair.isSpecial] using hhead
      simp only [hs]
      rfl
  | _ => rfl

/-- A procedure comes to its first operand. -/
theorem State.goes_operands {site r : Ref .pair} {rest procedure : Value}
    (hprocedure : ∀ c, procedure ≠ .transformer c) (hr : w.heap.pair r = ⟨x, rest⟩) (hw : K w.heap)
    (h : State.Goes (Quiet K may) below J R
      ⟨.eval x scope, .operand procedure [] rest (.pair r) scope :: stack, w⟩) :
    State.Goes (Quiet K may) below J R
      ⟨.resume procedure, .operator site (.pair r) scope :: stack, w⟩ := by
  refine .step (quiet_resume hw fun c below h => by cases h) ?_ h
  cases procedure with
  | transformer c => exact absurd rfl (hprocedure c)
  | _ =>
      simp only [State.step, Step.resume, Step.operands, hr]
      rfl

/-- A procedure with one expression in its body. -/
theorem State.step_abstraction {parameters body : Value} (names : List String)
    (hx : w.heap.Lists x [.symbol ⟨"lambda"⟩, parameters, body])
    (hparameters : w.heap.Lists parameters (names.map fun name => .symbol ⟨name⟩))
    (scope : Ref .scope) (stack : List Pending) : State.step ⟨.reduce x scope, stack, w⟩ =
      go (.resume (.closure ⟨w.heap.closures.size⟩)) stack
        { w with heap := (w.heap.addClosure ⟨⟨names.map Symbol.mk, none⟩, body, scope, none⟩).2 } := by
  obtain ⟨r, operands, rfl, hr, hoperands⟩ := hx.exists_pair
  obtain ⟨r₁, _, rfl, hr₁, hforms⟩ := hoperands.exists_pair
  obtain ⟨r₂, _, rfl, hr₂, hnil⟩ := hforms.exists_pair
  cases hnil
  have habstraction : Step.abstraction parameters (.pair r₂) scope w =
      .value ⟨w.heap.closures.size⟩ { w with
        heap := (w.heap.addClosure ⟨⟨names.map Symbol.mk, none⟩, body, scope, none⟩).2 } := by
    simp only [Step.abstraction, bind, Action.bind, World.parameters_eq hparameters, World.alter,
      Heap.close, hr₂, Value.isNil, if_true]
    rfl
  have hrest : w.heap.rest (.pair r₁) = .pair r₂ := congrArg Pair.rest hr₁
  simp only [State.step, Step.reduce, hr]
  change Step.special .abstraction (.pair r₁) scope stack w = _
  simp only [Step.special, hoperands.first_eq, hrest, Step.after, habstraction]

theorem State.goes_abstraction {parameters body : Value} (names : List String)
    (hx : w.heap.Lists x [.symbol ⟨"lambda"⟩, parameters, body])
    (hparameters : w.heap.Lists parameters (names.map fun name => .symbol ⟨name⟩)) (hw : K w.heap)
    (h : State.Goes (Quiet K may) below J R ⟨.resume (.closure ⟨w.heap.closures.size⟩), stack,
      { w with heap := (w.heap.addClosure ⟨⟨names.map Symbol.mk, none⟩, body, scope, none⟩).2 }⟩) :
    State.Goes (Quiet K may) below J R ⟨.reduce x scope, stack, w⟩ :=
  .step (quiet_reduce hw) (State.step_abstraction names hx hparameters scope stack) h

end Evaluations

end Scheme
