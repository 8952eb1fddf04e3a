import Scheme.Interpreter
import Scheme.Proofs.Runs
import Scheme.Proofs.Transitions
/-!
# The limit of nesting

A run that the limit does not stop is the same under every higher limit, and above any other work.
A run that it does stop unwinds to where its evaluation began: nothing between keeps the failure.
-/

namespace Scheme

open Step

/-- The machine is to go one level deeper than the limit allows. -/
def State.TooDeep (s : State) : Prop :=
  (∃ x scope, s.control = .eval x scope) ∧ s.world.maxDepth ≤ s.world.depth

/-- The machine has nothing left to do but to stop. -/
def State.Final (s : State) : Prop :=
  s.stack = [] ∧ ((∃ v, s.control = .resume v) ∨ ∃ f, s.control = .unwind f)

theorem State.not_final_of_next {s s' : State} (hnext : s.step = .next s') : ¬ s.Final := by
  obtain ⟨control, stack, w⟩ := s
  rintro ⟨hstack, ⟨v, hcontrol⟩ | ⟨f, hcontrol⟩⟩
  all_goals
    cases hstack
    cases hcontrol
    cases hnext

/-- The same world under another limit. -/
def World.underLimit (limit : Nat) (w : World) : World :=
  w.onLevel w.depth limit

/-- The same state above other work, under another limit. -/
def State.shifted (base : List Pending) (limit : Nat) (s : State) : State :=
  ⟨s.control, s.stack ++ base, s.world.underLimit limit⟩

/-- The same step above other work, under another limit. -/
def Step.shifted (base : List Pending) (limit : Nat) : Step → Step
  | .next s => .next (s.shifted base limit)
  | .done outcome w => .done outcome (w.underLimit limit)

/-- The same state above other work, so many levels deeper and under another limit. -/
def State.lifted (base : List Pending) (up limit : Nat) (s : State) : State :=
  ⟨s.control, s.stack ++ base, s.world.onLevel (s.world.depth + up) limit⟩

/-- The same step above other work, so many levels deeper and under another limit. -/
def Step.lifted (base : List Pending) (up limit : Nat) : Step → Step
  | .next s => .next (s.lifted base up limit)
  | .done outcome w => .done outcome (w.onLevel (w.depth + up) limit)

/-- A level that is about to end has begun. It makes a difference on other levels only. -/
def State.Grounded (up : Nat) (s : State) : Prop :=
  up = 0 ∨ ∀ stack, s.stack = .leave :: stack → 0 < s.world.depth

@[simp] theorem World.maxDepth_underLimit (limit : Nat) (w : World) :
    (w.underLimit limit).maxDepth = limit :=
  rfl

@[simp] theorem World.depth_underLimit (limit : Nat) (w : World) :
    (w.underLimit limit).depth = w.depth :=
  rfl

/-! ## One step -/

theorem World.PlainChange.depth {change : World → World} (h : World.PlainChange change)
    (w : World) : (change w).depth = w.depth := by
  have hself := h.onLevel w w.depth w.maxDepth
  rw [World.onLevel_self] at hself
  rw [hself, World.depth_onLevel]

/-- Code for which neither the level nor the work below matters does the same elsewhere. -/
theorem Step.lifted_of_place {code : List Pending → World → Step}
    (hplace : ∀ stack w d m, code stack (w.onLevel d m) = ((code [] w).onLevel d m).onto stack)
    (stack base : List Pending) (w : World) (up limit : Nat) :
    code (stack ++ base) (w.onLevel (w.depth + up) limit) =
      (code stack w).lifted base up limit := by
  have hthere := hplace (stack ++ base) w (w.depth + up) limit
  have hhere := hplace stack w w.depth w.maxDepth
  rw [World.onLevel_self] at hhere
  rw [hthere, hhere]
  cases code [] w with
  | next s => simp [onLevel, onto, lifted, State.lifted]
  | done outcome w' => rfl

theorem World.leave_onLevel {w : World} {up : Nat} (hlevel : up = 0 ∨ 0 < w.depth) (limit : Nat) :
    (w.onLevel (w.depth + up) limit).leave = w.leave.onLevel (w.leave.depth + up) limit := by
  have hdepth : w.depth + up - 1 = w.depth - 1 + up := by omega
  simp only [World.leave, World.onLevel, hdepth]

/-- Capturing a continuation pushes its receiver onto whatever there is. -/
theorem Step.elsewhere_callWithContinuation (receiver : Value) (stack : List Pending) (w : World)
    (d m : Nat) (l : Array Entry) :
    callWithContinuation receiver stack (w.elsewhere d m l) =
      ((callWithContinuation receiver [] w).elsewhere d m l).onto stack :=
  rfl

theorem Step.throw_elsewhere (k : Ref .continuation) (v : Value) (w : World) (d m : Nat)
    (l : Array Entry) :
    Step.throw k v (w.elsewhere d m l) = (Step.throw k v w).elsewhere d m l := by
  by_cases hactive : (w.heap.continuation k).active = true
  · simp [Step.throw, hactive, Result.elsewhere, World.elsewhere]
  · have hthere : Step.throw k v (w.elsewhere d m l) = _ := if_neg hactive
    have hhere : Step.throw k v w = _ := if_neg hactive
    rw [hthere, hhere, (Action.Plain.failWith _).elsewhere]

theorem Step.throw_onLevel (k : Ref .continuation) (v : Value) (w : World) (d m : Nat) :
    Step.throw k v (w.onLevel d m) = (Step.throw k v w).onLevel d m := by
  rw [← World.elsewhere_empty, throw_elsewhere, Result.elsewhere_empty]

theorem Step.elsewhere_throw (k : Ref .continuation) (v : Value) (stack : List Pending) (w : World)
    (d m : Nat) (l : Array Entry) :
    answer (Step.throw k v) stack (w.elsewhere d m l) =
      ((answer (Step.throw k v) [] w).elsewhere d m l).onto stack := by
  unfold answer after
  rw [throw_elsewhere]
  cases Step.throw k v w <;> rfl

theorem Step.place_throw (k : Ref .continuation) (v : Value) (stack : List Pending) (w : World)
    (d m : Nat) :
    answer (Step.throw k v) stack (w.onLevel d m) =
      ((answer (Step.throw k v) [] w).onLevel d m).onto stack :=
  place_of_elsewhere (elsewhere_throw k v) stack w d m

theorem Step.elsewhere_apply (procedure : Value) (arguments : List Value) (stack : List Pending)
    (w : World) (d m : Nat) (l : Array Entry) :
    apply procedure arguments stack (w.elsewhere d m l) =
      ((apply procedure arguments [] w).elsewhere d m l).onto stack := by
  by_cases hcapture : procedure.isCapturing = true
  · cases procedure with
    | primitive p =>
        have hp : p.operation = .control .callWithContinuation := by
          simpa [Value.isCapturing] using hcapture
        rw [apply_capturing hp, apply_capturing hp]
        rcases checkCount_cases p arguments with hcount | ⟨cause, hcount⟩
        · rw [hcount]
          exact elsewhere_callWithContinuation _ stack w d m l
        · rw [hcount]
          exact (Plain.answer (Action.Plain.failWith cause)).elsewhere stack w d m l
    | _ => simp [Value.isCapturing] at hcapture
  · rw [Bool.not_eq_true] at hcapture
    by_cases hthrow : ∃ k, procedure = .continuation k
    · obtain ⟨k, rfl⟩ := hthrow
      exact elsewhere_throw k (arguments.headD .nil) stack w d m l
    · exact (plain_apply arguments hcapture fun k hk => hthrow ⟨k, hk⟩).elsewhere stack w d m l

theorem Step.place_apply (procedure : Value) (arguments : List Value) (stack : List Pending)
    (w : World) (d m : Nat) :
    apply procedure arguments stack (w.onLevel d m) =
      ((apply procedure arguments [] w).onLevel d m).onto stack :=
  place_of_elsewhere (elsewhere_apply procedure arguments) stack w d m

/-- Work that is neither a level nor a receiver is resumed in the same way everywhere. -/
theorem Step.lifted_resume (v : Value) (p : Pending) (stack base : List Pending) (w : World)
    (up limit : Nat) (hlevel : p = .leave → up = 0 ∨ 0 < w.depth) :
    resume v (p :: (stack ++ base)) (w.onLevel (w.depth + up) limit) =
      (resume v (p :: stack) w).lifted base up limit := by
  by_cases hp : p.isPlain = true
  · exact lifted_of_place (plain_resume v hp).place stack base w up limit
  · cases p with
    | leave => exact congrArg (go (.resume v) _) (World.leave_onLevel (hlevel rfl) limit)
    | catching k => rfl
    | answer => exact lifted_of_place (uniform_printValue v).place stack base w up limit
    | _ => simp [Pending.isPlain] at hp

theorem Step.lifted_unwind (f : Fault) (p : Pending) (stack base : List Pending) (w : World)
    (up limit : Nat) (hlevel : p = .leave → up = 0 ∨ 0 < w.depth) :
    unwind f (p :: (stack ++ base)) (w.onLevel (w.depth + up) limit) =
      (unwind f (p :: stack) w).lifted base up limit := by
  by_cases hp : p.isPlain = true
  · rw [unwind_plain f hp, unwind_plain f hp, (plainChange_release p).onLevel]
    have hdepth := (plainChange_release p).depth w
    simp [go, lifted, State.lifted, hdepth]
  · cases p with
    | leave => exact congrArg (go (.unwind f) _) (World.leave_onLevel (hlevel rfl) limit)
    | catching k =>
        cases f with
        | escape token =>
            by_cases htoken : token = ((w.deactivate k).heap.continuation k).token
            · have hhere : unwind (.escape token) (.catching k :: stack) w = _ := if_pos htoken
              have hthere : unwind (.escape token) (.catching k :: (stack ++ base))
                  (w.onLevel (w.depth + up) limit) = _ := if_pos htoken
              rw [hhere, hthere]
              rfl
            · have hhere : unwind (.escape token) (.catching k :: stack) w = _ := if_neg htoken
              have hthere : unwind (.escape token) (.catching k :: (stack ++ base))
                  (w.onLevel (w.depth + up) limit) = _ := if_neg htoken
              rw [hhere, hthere]
              rfl
        | _ => rfl
    | answer => exact lifted_of_place (uniform_answered f).place stack base w up limit
    | _ => simp [Pending.isPlain] at hp

/-- A step that the limit does not stop, above other work, on other levels and under a limit that
is higher by as much. -/
theorem State.step_lifted {s : State} (hfits : ¬ s.TooDeep) {up limit : Nat}
    (hlimit : s.world.maxDepth + up ≤ limit) (base : List Pending) (hbase : base = [] ∨ ¬ s.Final)
    (hlevel : s.Grounded up) : (s.lifted base up limit).step = s.step.lifted base up limit := by
  obtain ⟨control, stack, w⟩ := s
  cases control with
  | eval x scope =>
      have hdepth : w.depth < w.maxDepth :=
        Nat.lt_of_not_le fun hle => hfits ⟨⟨x, scope, rfl⟩, hle⟩
      have hhere : Step.eval x scope stack w = _ := if_pos hdepth
      have hup : w.depth + up < limit :=
        Nat.lt_of_lt_of_le (Nat.add_lt_add_right hdepth up) hlimit
      have hthere : Step.eval x scope (stack ++ base) (w.onLevel (w.depth + up) limit) = _ :=
        if_pos hup
      have hnext : w.onLevel (w.depth + up + 1) limit = w.onLevel (w.depth + 1 + up) limit := by
        rw [Nat.add_right_comm]
      refine hthere.trans (Eq.trans ?_ (congrArg (Step.lifted base up limit) hhere).symm)
      exact congrArg (go (.reduce x scope) (.leave :: (stack ++ base))) hnext
  | reduce x scope => exact lifted_of_place (plain_reduce scope x).place stack base w up limit
  | apply procedure arguments =>
      exact lifted_of_place (place_apply procedure arguments) stack base w up limit
  | resume v =>
      cases stack with
      | nil =>
          obtain rfl : base = [] := hbase.resolve_right fun h => h ⟨rfl, Or.inl ⟨v, rfl⟩⟩
          rfl
      | cons p stack =>
          exact lifted_resume v p stack base w up limit fun hp =>
            hlevel.imp_right fun h => h stack (congrArg (· :: stack) hp)
  | unwind f =>
      cases stack with
      | nil =>
          obtain rfl : base = [] := hbase.resolve_right fun h => h ⟨rfl, Or.inr ⟨f, rfl⟩⟩
          rfl
      | cons p stack =>
          exact lifted_unwind f p stack base w up limit fun hp =>
            hlevel.imp_right fun h => h stack (congrArg (· :: stack) hp)
  | advance program last =>
      exact lifted_of_place (plain_advance program last).place stack base w up limit
  | prompt => exact lifted_of_place uniform_prompt.place stack base w up limit

theorem Step.lifted_zero (step : Step) (base : List Pending) (limit : Nat) :
    step.lifted base 0 limit = step.shifted base limit := by
  cases step <;> rfl

/-- A step that the limit does not stop, above other work and under a higher limit. -/
theorem State.step_shifted {s : State} (hfits : ¬ s.TooDeep) {limit : Nat}
    (hlimit : s.world.maxDepth ≤ limit) (base : List Pending) (hbase : base = [] ∨ ¬ s.Final) :
    (s.shifted base limit).step = s.step.shifted base limit := by
  rw [← Step.lifted_zero]
  exact State.step_lifted hfits hlimit base hbase (Or.inl rfl)

/-- A step into what is too deep. -/
theorem State.TooDeep.step {s : State} (h : s.TooDeep) :
    s.step = go (.unwind (.failed (.tooDeep s.world.maxDepth))) s.stack
      (s.world.note (.failure (.tooDeep s.world.maxDepth))) := by
  obtain ⟨control, stack, w⟩ := s
  obtain ⟨⟨x, scope, rfl⟩, hdepth⟩ := h
  exact if_neg (Nat.not_lt_of_le hdepth)

/-- No step changes the limit. -/
theorem State.maxDepth_step {s s' : State} (hnext : s.step = .next s') :
    s'.world.maxDepth = s.world.maxDepth := by
  by_cases hdeep : s.TooDeep
  · rw [hdeep.step] at hnext
    obtain rfl := Step.next.inj hnext
    rfl
  · have hself := State.step_shifted hdeep (Nat.le_refl _) [] (Or.inl rfl)
    have hshifted : s.shifted [] s.world.maxDepth = s := by
      simp [State.shifted, World.underLimit]
    rw [hshifted, hnext] at hself
    rw [congrArg (fun s => s.world.maxDepth) (Step.next.inj hself)]
    rfl

/-! ## Runs that the limit does not stop -/

/-- The limit stops the run at some point. -/
def Step.Deepens (step : Step) : Prop :=
  ∃ n s, step.steps n = .next s ∧ s.TooDeep

theorem Step.Deepens.of_steps {step : Step} {n : Nat} (h : (step.steps n).Deepens) :
    step.Deepens := by
  obtain ⟨j, s, hrun, hdeep⟩ := h
  exact ⟨n + j, s, by rw [steps_add, hrun], hdeep⟩

theorem State.maxDepth_steps {s s' : State} {n : Nat}
    (hrun : (Step.next s).steps n = .next s') : s'.world.maxDepth = s.world.maxDepth := by
  induction n generalizing s with
  | zero =>
      obtain rfl := Step.next.inj hrun
      rfl
  | succ n ih =>
      rw [steps_next] at hrun
      cases hnext : s.step with
      | next s₁ =>
          rw [hnext] at hrun
          rw [ih hrun, State.maxDepth_step hnext]
      | done outcome w =>
          rw [hnext, steps_done] at hrun
          cases hrun

/-- As long as the limit stops nothing and the machine has work, it does the same above other work,
on other levels and under a limit that is higher by as much. -/
theorem State.steps_lifted {s s' : State} {n : Nat} (hrun : (Step.next s).steps n = .next s')
    (hfits : ∀ k s₁, k < n → (Step.next s).steps k = .next s₁ → ¬ s₁.TooDeep) {up limit : Nat}
    (hlimit : s.world.maxDepth + up ≤ limit) (base : List Pending)
    (hlevel : ∀ k s₁, (Step.next s).steps k = .next s₁ → s₁.Grounded up) :
    (Step.next (s.lifted base up limit)).steps n = .next (s'.lifted base up limit) := by
  induction n generalizing s' with
  | zero =>
      obtain rfl := Step.next.inj hrun
      rfl
  | succ n ih =>
      obtain ⟨s₁, hs₁⟩ := steps_eq_next_of_le (Nat.le_succ n) hrun
      have hbefore := ih hs₁ fun k s₂ hk => hfits k s₂ (Nat.lt_succ_of_lt hk)
      rw [steps_succ', hs₁] at hrun
      rw [steps_succ', hbefore]
      have hmax : s₁.world.maxDepth + up ≤ limit := by rw [State.maxDepth_steps hs₁]; exact hlimit
      have hstep := State.step_lifted (hfits n s₁ (Nat.lt_succ_self n) hs₁) hmax base
        (Or.inr (State.not_final_of_next hrun)) (hlevel n s₁ hs₁)
      exact hstep.trans (congrArg (Step.lifted base up limit) hrun)

/-- As long as the limit stops nothing and the machine has work, it does the same above other work
and under a higher limit. -/
theorem State.steps_shifted {s s' : State} {n : Nat} (hrun : (Step.next s).steps n = .next s')
    (hfits : ∀ k s₁, k < n → (Step.next s).steps k = .next s₁ → ¬ s₁.TooDeep) {limit : Nat}
    (hlimit : s.world.maxDepth ≤ limit) (base : List Pending) :
    (Step.next (s.shifted base limit)).steps n = .next (s'.shifted base limit) :=
  State.steps_lifted hrun hfits hlimit base fun _ _ _ => Or.inl rfl

/-- A run that the limit does not stop ends in the same way under a higher limit. -/
theorem State.steps_done_shifted {s : State} {n : Nat} {outcome : Outcome} {w : World}
    (hrun : (Step.next s).steps n = .done outcome w) (hfits : ¬ (Step.next s).Deepens)
    {limit : Nat} (hlimit : s.world.maxDepth ≤ limit) :
    (Step.next (s.shifted [] limit)).steps n = .done outcome (w.underLimit limit) := by
  have hnever : ∀ k s₁, (Step.next s).steps k = .next s₁ → ¬ s₁.TooDeep :=
    fun k s₁ hs₁ hdeep => hfits ⟨k, s₁, hs₁, hdeep⟩
  induction n with
  | zero => cases hrun
  | succ n ih =>
      cases hlast : (Step.next s).steps n with
      | next s₁ =>
          rw [steps_succ', hlast] at hrun
          have hbefore := State.steps_shifted hlast (fun k s₂ _ => hnever k s₂) hlimit []
          have hstep := State.step_shifted (hnever n s₁ hlast)
            (Nat.le_trans (Nat.le_of_eq (State.maxDepth_steps hlast)) hlimit) [] (Or.inl rfl)
          rw [steps_succ', hbefore]
          exact hstep.trans (congrArg (Step.shifted [] limit) hrun)
      | done outcome' w' =>
          rw [steps_succ', hlast] at hrun
          cases hrun
          rw [steps_succ', ih hlast]
          rfl

/-! ## Runs that the limit stops -/

/-- No session waits for the evaluation. -/
structure State.Unattended (s : State) : Prop where
  control : s.control ≠ .prompt
  stack : .answer ∉ s.stack

theorem State.Unattended.plain {popped stack : List Pending} {control : Control} {w : World}
    {s' : State} (hs : State.Unattended ⟨control, popped ++ stack, w⟩)
    (hnext : (Step.next s').Leads Plainly w) :
    State.Unattended ⟨s'.control, s'.stack ++ stack, s'.world⟩ := by
  obtain ⟨⟨hcontrol, hpushed⟩, -⟩ := hnext
  constructor
  · intro hprompt
    simp only at hprompt
    simp [hprompt, Control.isPlain] at hcontrol
  · intro hanswer
    rcases List.mem_append.1 hanswer with hmem | hmem
    · simpa [Pending.isPlain] using hpushed _ hmem
    · exact hs.stack (List.mem_append_right _ hmem)

/-- Work is taken from the stack, and what is not a session may be put there. -/
theorem State.Unattended.of_stack {s s' : State} (hs : s.Unattended)
    (hcontrol : s'.control ≠ .prompt)
    (hstack : ∀ p ∈ s'.stack, p ∈ s.stack ∨ p ≠ .answer) : s'.Unattended where
  control := hcontrol
  stack hanswer := by
    rcases hstack _ hanswer with hmem | hne
    · exact hs.stack hmem
    · exact hne rfl

theorem State.Unattended.step {s s' : State} (hs : s.Unattended) (hnext : s.step = .next s') :
    s'.Unattended := by
  have hmoves := s.moves_step
  rw [hnext] at hmoves
  generalize hstep : Step.next s' = step at hmoves
  cases hmoves with
  | @plain control popped stack w step hpopped hleads =>
      cases step with
      | next s₀ =>
          obtain rfl := Step.next.inj hstep
          exact hs.plain hleads
      | done outcome w' => cases hstep
  | @session control popped stack w step hpopped hleads =>
      rcases hpopped with ⟨hcontrol, -⟩ | rfl
      · exact absurd hcontrol hs.control
      · exact absurd (List.mem_cons_self ..) hs.stack
  | value v w => cases hstep
  | fault f w => cases hstep
  | leave stack w hcontrol =>
      obtain rfl := Step.next.inj hstep
      exact hs.of_stack hs.control fun p hp => Or.inl (List.mem_cons_of_mem _ hp)
  | enter | capture =>
      obtain rfl := Step.next.inj hstep
      refine hs.of_stack (by simp) fun p hp => ?_
      rcases List.mem_cons.1 hp with rfl | hp
      · exact Or.inr (by simp)
      · exact Or.inl hp
  | refuse | throw =>
      obtain rfl := Step.next.inj hstep
      exact hs.of_stack (by simp) fun p hp => Or.inl hp
  | pass | deliver | receive | forward =>
      obtain rfl := Step.next.inj hstep
      exact hs.of_stack (by simp) fun p hp => Or.inl (List.mem_cons_of_mem _ hp)

theorem State.Unattended.steps {s s' : State} (hs : s.Unattended) {n : Nat}
    (hrun : (Step.next s).steps n = .next s') : s'.Unattended := by
  induction n generalizing s with
  | zero =>
      obtain rfl := Step.next.inj hrun
      exact hs
  | succ n ih =>
      rw [steps_next] at hrun
      cases hnext : s.step with
      | next s₁ =>
          rw [hnext] at hrun
          exact ih (hs.step hnext) hrun
      | done outcome w =>
          rw [hnext, steps_done] at hrun
          cases hrun

/-- A failure passes all work but a session: receivers wait for escapes only. -/
theorem Step.unwind_failed (cause : Failure) {p : Pending} (hp : p ≠ .answer)
    (stack : List Pending) (w : World) :
    ∃ w', unwind (.failed cause) (p :: stack) w = go (.unwind (.failed cause)) stack w' := by
  cases p with
  | answer => exact absurd rfl hp
  | _ => exact ⟨_, rfl⟩

/-- A failure unwinds the work above a base. -/
theorem Step.steps_unwind_failed (cause : Failure) {stack : List Pending}
    (hstack : .answer ∉ stack) (base : List Pending) (w : World) :
    ∃ w', (go (.unwind (.failed cause)) (stack ++ base) w).steps stack.length =
      go (.unwind (.failed cause)) base w' := by
  induction stack generalizing w with
  | nil => exact ⟨w, rfl⟩
  | cons p stack ih =>
      have hp : p ≠ .answer := fun heq => hstack (heq ▸ List.mem_cons_self ..)
      obtain ⟨w₁, hstep⟩ := unwind_failed cause hp (stack ++ base) w
      obtain ⟨w', hrun⟩ := ih (fun hmem => hstack (List.mem_cons_of_mem _ hmem)) w₁
      refine ⟨w', ?_⟩
      rw [List.length_cons, go, steps_next]
      exact (congrArg (Step.steps stack.length) hstep).trans hrun

theorem Step.Deepens.first {step : Step} (h : step.Deepens) :
    ∃ n s, step.steps n = .next s ∧ s.TooDeep ∧
      ∀ k s₁, k < n → step.steps k = .next s₁ → ¬ s₁.TooDeep := by
  obtain ⟨n, hn⟩ := h
  induction n using Nat.strongRecOn with
  | ind n ih =>
      by_cases hbefore : ∃ k, k < n ∧ ∃ s, step.steps k = .next s ∧ s.TooDeep
      · obtain ⟨k, hk, hs⟩ := hbefore
        exact ih k hk hs
      · obtain ⟨s, hrun, hdeep⟩ := hn
        exact ⟨n, s, hrun, hdeep, fun k s₁ hk hs₁ hdeep₁ => hbefore ⟨k, hk, s₁, hs₁, hdeep₁⟩⟩

/-- Where the limit stops a run, the work above the base is unwound, and the failure names the
limit. -/
theorem Step.Deepens.unwinds {s : State} (h : (Step.next s).Deepens) (hs : s.Unattended)
    (base : List Pending) :
    ∃ n w, (Step.next { s with stack := s.stack ++ base }).steps n =
      go (.unwind (.failed (.tooDeep s.world.maxDepth))) base w := by
  -- Up to the first moment that is too deep the base makes no difference; from there on there is
  -- nothing but unwinding.
  obtain ⟨n, s', hrun, hdeep, hfits⟩ := h.first
  have hmax := State.maxDepth_steps hrun
  have hlifted := State.steps_shifted hrun hfits (Nat.le_refl _) base
  have hlimit : s'.world.underLimit s.world.maxDepth = s'.world := by
    rw [World.underLimit, ← hmax, World.onLevel_self]
  have hdeep' : (s'.shifted base s.world.maxDepth).TooDeep :=
    ⟨hdeep.1, by rw [State.shifted, hlimit]; exact hdeep.2⟩
  obtain ⟨w, hunwind⟩ := steps_unwind_failed (.tooDeep s.world.maxDepth) (hs.steps hrun).stack base
    (s'.world.note (.failure (.tooDeep s.world.maxDepth)))
  refine ⟨n + (s'.stack.length + 1), w, ?_⟩
  rw [steps_add]
  refine (congrArg (Step.steps (s'.stack.length + 1)) hlifted).trans ?_
  rw [steps_next, hdeep'.step]
  simp only [State.shifted, hlimit, hmax]
  exact hunwind

/-- An evaluation that the limit stops fails for that reason. -/
theorem Step.Deepens.ends {x : Value} {scope : Ref .scope} {w : World}
    (h : (go (.eval x scope) [] w).Deepens) :
    ∃ w', (go (.eval x scope) [] w).Ends (.fault (.failed (.tooDeep w.maxDepth))) w' := by
  obtain ⟨n, w', hrun⟩ := h.unwinds ⟨by simp, by simp⟩ []
  refine ⟨w', n + 1, ?_⟩
  rw [steps_succ']
  exact congrArg Step.advanced hrun

/-- An evaluation that the limit does not stop comes to the same end under every higher limit. One
that it stops fails for that reason, whatever other work waits for its value. -/
theorem Step.limit_only_stops (x : Value) (scope : Ref .scope) (w : World) {m m' : Nat}
    (hle : m ≤ m') :
    (∀ n outcome w', ¬ (go (.eval x scope) [] (w.underLimit m)).Deepens →
      (go (.eval x scope) [] (w.underLimit m)).steps n = .done outcome w' →
      (go (.eval x scope) [] (w.underLimit m')).steps n =
        .done outcome (w'.underLimit m')) ∧
    ((go (.eval x scope) [] (w.underLimit m)).Deepens →
      (∃ w', (go (.eval x scope) [] (w.underLimit m)).Ends (.fault (.failed (.tooDeep m))) w') ∧
      ∀ base, ∃ n w', (go (.eval x scope) base (w.underLimit m)).steps n =
        go (.unwind (.failed (.tooDeep m))) base w') ∧
    (Failure.tooDeep m).message =
      "Recursion too deep: more than " ++ toString m ++ " nested evaluations" := by
  refine ⟨?_, ?_, rfl⟩
  · intro n outcome w' hfits hrun
    exact State.steps_done_shifted hrun hfits hle
  · intro hdeep
    exact ⟨hdeep.ends, fun base => hdeep.unwinds ⟨by simp, by simp⟩ base⟩

/-- A world with the call of `call-with-current-continuation` on `(lambda k #t #f)`. -/
def World.withCapture : World where
  heap :=
    { pairs := #[⟨.primitive .capture, .pair ⟨1⟩⟩, ⟨.pair ⟨2⟩, .nil⟩,
        ⟨.symbol ⟨"lambda"⟩, .pair ⟨3⟩⟩, ⟨.symbol ⟨"k"⟩, .pair ⟨4⟩⟩,
        ⟨.boolean true, .pair ⟨5⟩⟩, ⟨.boolean false, .nil⟩]
      scopes := #[⟨{}, none⟩] }
  host := nowhere
  maxDepth := defaultMaxDepth

/-- Two levels are not enough inside the extent of the continuation, three are, and so are four. -/
theorem Step.limit_stops_capture :
    let start := fun m => go (.eval (.pair ⟨0⟩) .global) [] (World.withCapture.underLimit m)
    (∃ s k, (start 2).steps 14 = .next s ∧ s.TooDeep ∧ .catching k ∈ s.stack) ∧
      (∃ w, (start 2).Ends (.fault (.failed (.tooDeep 2))) w) ∧ ¬ (start 3).Deepens ∧
      ∃ w, (start 3).steps 23 = .done (.value (.boolean false)) w ∧
        (start 4).steps 23 = .done (.value (.boolean false)) (w.underLimit 4) := by
  intro start
  have hstops := fun m => limit_only_stops (.pair ⟨0⟩) .global World.withCapture (Nat.le_succ m)
  have hdeep : ∃ s k, (start 2).steps 14 = .next s ∧ s.TooDeep ∧ .catching k ∈ s.stack :=
    ⟨_, ⟨0⟩, rfl, ⟨⟨_, _, rfl⟩, Nat.le_refl 2⟩, .tail _ (.tail _ (.head _))⟩
  have hend : ∃ w, (start 3).steps 23 = .done (.value (.boolean false)) w := ⟨_, rfl⟩
  obtain ⟨w, hrun⟩ := hend
  have hfits : ¬ (start 3).Deepens := by
    intro hdeep
    obtain ⟨w', hfault⟩ := hdeep.ends
    cases (Ends.unique ⟨23, hrun⟩ hfault).1
  obtain ⟨s, k, hs, htoo, -⟩ := id hdeep
  exact ⟨hdeep, ((hstops 2).2.1 ⟨14, s, hs, htoo⟩).1, hfits, w, hrun,
    (hstops 3).1 23 _ w hfits hrun⟩

end Scheme
