import Scheme.Proofs.PromiseLaws
/-!
# Forcing promises

Forcing a promise is calling it. An interpreter works on one request after the other, and what one
has left in the heap is there for the next; so a promise may be forced in any of them, whether forces
before have come to a value or have been cut short by a fault.
-/

namespace Scheme

open Step

/-- The machine is about to force the promise, above other work. -/
def State.Forces (p : Ref .closure) (s : State) (below : List Pending) : Prop :=
  s.control = .apply (.primitive .force) [.closure p] ∧ s.stack = below

/-- After so many steps, a force of the promise has come to the value. -/
def Step.Forced (run : Step) (p : Ref .closure) (n : Nat) (v : Value) : Prop :=
  ∃ m s below j w, run.steps m = .next s ∧ s.Forces p below ∧
    (go s.control [] s.world).steps j = go (.resume v) [] w ∧ n = m + j

/-- What the request hands to the interpreter is of this kind. -/
def Request.Hands (held : Value → Prop) : Request → Prop
  | .eval x scope => held x ∧ scope = .global
  | .apply procedure arguments => held procedure ∧ ∀ v ∈ arguments, held v
  | .expandOnce x => held x
  | .interpret _ | .run _ | .load _ | .converse => True

/-- Runs one after the other. Each but the first is that of a request, and finds the heap that the
one before has left. What a request hands over is held from the start, or runs have come to it. -/
inductive Step.Series : (Value → Prop) → Step → List Step → Prop where
  | last (held : Value → Prop) (run : Step) : Series held run []
  | next {held : Value → Prop} {run : Step} {outcome : Outcome} {w w' : World} {request : Request}
      {later : List Step} (hends : run.Ends outcome w) (htrap : outcome.isTrap = false)
      (hheap : w'.heap = w.heap) (hhands : request.Hands fun v => held v ∨ outcome = .value v)
      (hlater : Series (fun v => held v ∨ outcome = .value v) (request.start w') later) :
      Series held run (request.start w' :: later)

/-- In these runs, the procedure is a promise: whatever it is forced to, it is forced to one value,
and then the other procedure is not called any more. Until that has come to a value, every force
calls it, or gets too deep. -/
structure Step.Promises (runs : List Step) (p thunk : Ref .closure) : Prop where
  same : ∀ run ∈ runs, ∀ run' ∈ runs, ∀ m n u v, run.Forced p m u → run'.Forced p n v → u = v
  never : ∀ run ∈ runs, ∀ m v, run.Forced p m v → ∀ n s below, m ≤ n → run.steps n = .next s →
    ¬ s.Calls thunk below
  neverLater : runs.Pairwise fun run run' => ∀ m v, run.Forced p m v → ∀ n s below,
    run'.steps n = .next s → ¬ s.Calls thunk below
  evaluates : ∀ before run after, runs = before ++ run :: after →
    (∀ run' ∈ before, ∀ m v, ¬ run'.Delivers thunk m v) → ∀ n s below, run.steps n = .next s →
    s.Forces p below → (∀ m ≤ n, ∀ v, ¬ run.Delivers thunk m v) →
    (go s.control [] s.world).Starts thunk

/-! ## Forces are calls -/

variable {run : Step} {p thunk : Ref .closure} {m n : Nat} {s : State} {below : List Pending}
  {v : Value}

/-- A force that has come to a value is a call of the promise that has. -/
theorem Step.Forced.delivers (h : run.Forced p n v) : run.Delivers p n v := by
  obtain ⟨m, ⟨control, stack, w⟩, below, j, w', hm, ⟨rfl, rfl⟩, hj, rfl⟩ := h
  obtain ⟨_ | _ | j, rfl⟩ : ∃ i, j = i := ⟨j, rfl⟩
  · cases hj
  · cases hj
  refine ⟨w', stack, m + 1, ⟨.apply (.closure p) [], stack, w⟩, _, _, j, ?_, .applied, rfl, hj,
    by omega⟩
  rw [steps_succ', hm]
  rfl

/-- A stretch from a force to a value is a force that has come to it. -/
theorem State.Through.forced {Q : State → Prop} {k : Nat} {p : Ref .closure} {v : Value}
    {w w' : World}
    (h : State.Through Q k ⟨.apply (.primitive .force) [.closure p], [], w⟩ ⟨.resume v, [], w'⟩) :
    (go (.apply (.primitive .force) [.closure p]) [] w).Forced p k v :=
  ⟨0, _, [], k, w', rfl, ⟨rfl, rfl⟩, h.steps, (Nat.zero_add k).symm⟩

/-! ## Series of requests -/

theorem Request.exists_start (request : Request) (w : World) : ∃ s, request.start w = .next s := by
  cases request with
  | load path =>
      simp only [Request.start, Step.load]
      split <;> exact ⟨_, rfl⟩
  | expandOnce x =>
      simp only [Request.start, Step.expandOnce]
      split <;> exact ⟨_, rfl⟩
  | interpret | run | eval | apply | converse => exact ⟨_, rfl⟩

theorem Request.Hands.mono {held held' : Value → Prop} {request : Request} (h : request.Hands held)
    (hle : ∀ v, held v → held' v) : request.Hands held' := by
  cases request with
  | eval => exact h.imp_left (hle _)
  | apply => exact ⟨hle _ h.1, fun v hv => hle v (h.2 v hv)⟩
  | expandOnce => exact hle _ h
  | interpret | run | load | converse => trivial

/-- A request that hands over what a policy admits keeps to the policy. -/
theorem Request.Hands.obeys {P : MachinePolicy} {request : Request} {w : World}
    (h : request.Hands (P.admits w.heap)) (hgood : P.good w.heap) :
    (request.start w).Obeys P w.heap := by
  have hready : Ready P w [] := ⟨hgood, by simp [MachinePolicy.AdmitsStack]⟩
  cases request with
  | load path => exact obeys_load hready
  | expandOnce x => exact obeys_expandOnce hready h
  | eval x scope =>
      obtain ⟨hx, rfl⟩ := h
      exact obeys_go hready ⟨hx, P.global hgood⟩
  | apply => exact obeys_go hready h
  | interpret | run => exact obeys_go hready (P.atom rfl)
  | converse => exact obeys_go hready trivial

namespace Promise

/-- When the run begins, the promise has been made and has this result, if any; and what is held may
be handed to the interpreter. -/
def Begins (P : Promise) (settled : Option Value) (held : Value → Prop) (run : Step) : Prop :=
  ∃ s, P.Along false run 0 s ∧ P.Stands settled s.world.heap ∧
    ∀ v, held v → P.seclusion.Shows s.world.heap v

variable {P : Promise} {settled : Option Value} {held : Value → Prop} {later : List Step}

/-- The next run finds the result that this one has left, which is the value of all calls. -/
theorem Begins.next {outcome : Outcome} {w w' : World} {request : Request}
    (h : P.Begins settled held run) (hkept : P.code.Kept run) (hends : run.Ends outcome w)
    (htrap : outcome.isTrap = false) (hheap : w'.heap = w.heap)
    (hhands : request.Hands fun v => held v ∨ outcome = .value v) :
    ∃ settled', P.Begins settled' (fun v => held v ∨ outcome = .value v) (request.start w') ∧
      (∀ v, settled = some v → settled' = some v) ∧
      (∀ m v, run.Delivers P.procedure m v → settled' = some v) ∧
      ((∀ m v, ¬ run.Delivers P.thunk m v) → settled = none → settled' = none) := by
  obtain ⟨s₀, halong, hst, hheld⟩ := h
  obtain ⟨n, s, settled', hs, hdone, rfl, hvalue, ⟨hst', hle⟩, hgrows⟩ :=
    halong.ends hst hkept hends htrap
  have hheld' : ∀ v, held v ∨ outcome = .value v → P.seclusion.Shows w'.heap v := by
    rw [hheap]
    rintro v (hv | hv)
    · exact (hheld v hv).mono hle.toFollows
    · exact hvalue v hv
  have hst'' : P.Stands settled' w'.heap := hheap ▸ hst'
  obtain ⟨s', hs'⟩ := request.exists_start w'
  have hobeys := (hhands.mono hheld').obeys (P := P.seclusion.policy) hst''.secluded
  rw [hs'] at hobeys
  obtain ⟨hgood, hspares, hcontrol, hstack⟩ := hobeys
  refine ⟨settled', ⟨s', .others hs' hcontrol hstack, hst''.spares hgood hspares,
    fun v hv => (hheld' v hv).mono hspares.toFollows⟩, fun v hv => hgrows.eq_some hv,
    fun m v hdelivers => ?_, fun hnone hsettled => ?_⟩
  · obtain ⟨s₁, halong₁, hst₁⟩ := halong.delivers hst hkept hdelivers
    have hle : m ≤ n := by
      by_contra hlt
      have hafter : run.steps (n + 1) = .done outcome s.world := by
        rw [steps_succ', hs]
        exact hdone
      have hstill := steps_eq_done_of_le (by omega : n + 1 ≤ m) hafter
      rw [halong₁.steps] at hstill
      cases hstill
    exact hst'.unique (halong₁.stays hkept hst₁ hle hs).1
  · rcases hgrows with rfl | ⟨-, m, -, v, hdelivers⟩
    · exact hsettled
    · exact absurd hdelivers (hnone m v)

/-- A promise that has been made is there in all later runs. -/
theorem Begins.of_mem (h : P.Begins settled held run) (hseries : run.Series held later)
    (hkept : ∀ run' ∈ run :: later, P.code.Kept run') :
    ∀ run' ∈ run :: later, ∃ settled' held', P.Begins settled' held' run' := by
  induction hseries generalizing settled with
  | last held run =>
      intro run' hrun'
      rw [List.mem_singleton.1 hrun']
      exact ⟨settled, held, h⟩
  | next hends htrap hheap hhands hlater ih =>
      obtain ⟨hfirst, hothers⟩ := List.forall_mem_cons.1 hkept
      obtain ⟨settled', h', -⟩ := h.next hfirst hends htrap hheap hhands
      exact List.forall_mem_cons.2 ⟨⟨settled, _, h⟩, ih h' hothers⟩

/-- In the run, all calls of the promise come to the value, and the expression is not evaluated. -/
def Answers (P : Promise) (v : Value) (run : Step) : Prop :=
  (∀ n u, run.Delivers P.procedure n u → u = v) ∧
    ∀ n s below, run.steps n = .next s → ¬ s.Calls P.thunk below

theorem Begins.answers (h : P.Begins (some v) held run) (hkept : P.code.Kept run) :
    P.Answers v run := by
  obtain ⟨s, halong, hst, -⟩ := h
  refine ⟨fun n u hdelivers => ?_, fun n s' below hn =>
    (halong.stays hkept hst (Nat.zero_le n) hn).2 below⟩
  obtain ⟨s₁, halong₁, hst₁⟩ := halong.delivers hst hkept hdelivers
  exact Option.some.inj (hst₁.unique (halong.stays hkept hst (Nat.zero_le n) halong₁.steps).1)

/-- When there is a result, all runs answer it. -/
theorem Begins.answer (h : P.Begins (some v) held run) (hseries : run.Series held later)
    (hkept : ∀ run' ∈ run :: later, P.code.Kept run') :
    ∀ run' ∈ run :: later, P.Answers v run' := by
  induction hseries with
  | last held run =>
      intro run' hrun'
      rw [List.mem_singleton.1 hrun']
      exact h.answers (hkept _ (List.mem_singleton_self _))
  | next hends htrap hheap hhands hlater ih =>
      obtain ⟨hfirst, hothers⟩ := List.forall_mem_cons.1 hkept
      obtain ⟨settled', h', hsame, -⟩ := h.next hfirst hends htrap hheap hhands
      obtain rfl := hsame v rfl
      exact List.forall_mem_cons.2 ⟨h.answers hfirst, ih h' hothers⟩

/-- What one run has come to is answered in all later ones. -/
theorem Begins.pairwise (h : P.Begins settled held run) (hseries : run.Series held later)
    (hkept : ∀ run' ∈ run :: later, P.code.Kept run') :
    (run :: later).Pairwise fun run run' =>
      ∀ m v, run.Delivers P.procedure m v → P.Answers v run' := by
  induction hseries generalizing settled with
  | last => exact List.pairwise_singleton _ _
  | next hends htrap hheap hhands hlater ih =>
      obtain ⟨hfirst, hothers⟩ := List.forall_mem_cons.1 hkept
      obtain ⟨settled', h', -, hresult, -⟩ := h.next hfirst hends htrap hheap hhands
      refine .cons (fun run' hrun' m v hdelivers => ?_) (ih h' hothers)
      obtain rfl := hresult m v hdelivers
      exact h'.answer hlater hothers run' hrun'

/-- Until the expression has been evaluated, no run finds a result. -/
theorem Begins.unsettled {before after : List Step} {run' : Step} (h : P.Begins none held run)
    (hseries : run.Series held later) (hkept : ∀ run' ∈ run :: later, P.code.Kept run')
    (hruns : run :: later = before ++ run' :: after)
    (hnone : ∀ other ∈ before, ∀ m v, ¬ other.Delivers P.thunk m v) :
    ∃ held', P.Begins none held' run' := by
  induction before generalizing run later held with
  | nil =>
      cases hruns
      exact ⟨held, h⟩
  | cons first before ih =>
      cases hseries with
      | last => simp at hruns
      | next hends htrap hheap hhands hlater =>
          rw [List.cons_append, List.cons.injEq] at hruns
          obtain ⟨rfl, hruns⟩ := hruns
          obtain ⟨hfirst, hothers⟩ := List.forall_mem_cons.1 hkept
          obtain ⟨hfirst', hothers'⟩ := List.forall_mem_cons.1 hnone
          obtain ⟨settled', h', -, -, hunsettled⟩ := h.next hfirst hends htrap hheap hhands
          obtain rfl := hunsettled hfirst' rfl
          exact ih h' hlater hothers hruns hothers'

/-- Two calls in one run that come to values come to the same. -/
theorem Begins.same {u : Value} (h : P.Begins settled held run) (hkept : P.code.Kept run)
    (hu : run.Delivers P.procedure m u) (hv : run.Delivers P.procedure n v) : u = v := by
  obtain ⟨s, halong, hst, -⟩ := h
  have hsame : ∀ {m n u v}, m ≤ n → run.Delivers P.procedure m u → run.Delivers P.procedure n v →
      u = v := fun hle hu hv => by
    obtain ⟨s₂, halong₂, hst₂⟩ := halong.delivers hst hkept hv
    exact Option.some.inj ((halong.delivered hst hkept hu hle halong₂.steps).1.unique hst₂)
  rcases Nat.le_total m n with hle | hle
  · exact hsame hle hu hv
  · exact (hsame hle hv hu).symm

/-- The procedure of a promise is a promise in all runs of a series. -/
theorem Begins.promises (h : P.Begins none held run) (hseries : run.Series held later)
    (hkept : ∀ run' ∈ run :: later, P.code.Kept run') :
    Step.Promises (run :: later) P.procedure P.thunk where
  same := by
    have hpairs : (run :: later).Pairwise fun run run' => ∀ m n u v, run.Forced P.procedure m u →
        run'.Forced P.procedure n v → u = v :=
      (h.pairwise hseries hkept).imp fun hpair m n u v hu hv =>
        ((hpair m u hu.delivers).1 n v hv.delivers).symm
    refine hpairs.forall_of_forall_of_flip (fun run' hrun' m n u v hu hv => ?_)
      (hpairs.imp fun hpair m n u v hu hv => (hpair n m v u hv hu).symm)
    obtain ⟨settled', held', h'⟩ := h.of_mem hseries hkept run' hrun'
    exact h'.same (hkept run' hrun') hu.delivers hv.delivers
  never run' hrun' m v hforced n s below hle hn := by
    obtain ⟨settled', held', s₁, halong, hst, -⟩ := h.of_mem hseries hkept run' hrun'
    exact (halong.delivered hst (hkept run' hrun') hforced.delivers hle hn).2 below
  neverLater := (h.pairwise hseries hkept).imp fun hpair m v hforced =>
    (hpair m v hforced.delivers).2
  evaluates before run' after hruns hnone n s below hn hforces hnone' := by
    obtain ⟨held', s₁, halong, hst, -⟩ := h.unsettled hseries hkept hruns hnone
    have hrun' : run' ∈ run :: later := hruns ▸ List.mem_append_right _ (List.mem_cons_self ..)
    obtain ⟨control, stack, w⟩ := s
    obtain ⟨rfl, rfl⟩ := hforces
    have hcalled : run'.steps (n + 1) = go (.apply (.closure P.procedure) []) stack w := by
      rw [steps_succ', hn]
      rfl
    have hnone'' : ∀ m ≤ n + 1, ∀ v, ¬ run'.Delivers P.thunk m v := by
      intro m hle v hdelivers
      rcases Nat.lt_or_ge n m with hlt | hge
      · obtain rfl : m = n + 1 := by omega
        obtain ⟨w', below, hopen⟩ := hdelivers
        cases hcalled.symm.trans hopen.state
      · exact hnone' m hge v hdelivers
    obtain ⟨control, w', hstep, k, s', hk, hs'⟩ :=
      halong.evaluates hst (hkept run' hrun') rfl hcalled .applied hnone''
    cases hstep
    exact ⟨k + 2, s', hk, hs'⟩

end Promise

end Scheme
