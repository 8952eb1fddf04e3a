import Scheme.Proofs.DepthLimit
import Scheme.Proofs.Extents
import Scheme.Session
/-!
# Levels are balanced

The depth of a world is what it was when a call began and one for each level that the call has on
the stack. A level that has begun is ended by every way out of it, so a call that comes back, with
a value or with any fault, leaves the depth as it found it.
-/

namespace Scheme

open Step

/-- The levels that have begun and not ended. -/
def levels : List Pending → Nat
  | [] => 0
  | .leave :: stack => levels stack + 1
  | _ :: stack => levels stack

theorem levels_append (above below : List Pending) :
    levels (above ++ below) = levels above + levels below := by
  induction above with
  | nil => simp [levels]
  | cons p above ih => cases p <;> simp [levels, ih, Nat.add_right_comm]

theorem levels_cons {p : Pending} (hp : p ≠ .leave) (stack : List Pending) :
    levels (p :: stack) = levels stack := by
  cases p with
  | leave => exact absurd rfl hp
  | _ => rfl

theorem levels_of_isPlain {pushed : List Pending} (h : ∀ p ∈ pushed, p.isPlain = true) :
    levels pushed = 0 := by
  induction pushed with
  | nil => rfl
  | cons p pushed ih =>
      have hp := h p (List.mem_cons_self ..)
      have hrest := ih fun q hq => h q (List.mem_cons_of_mem _ hq)
      cases p <;> simp_all [levels, Pending.isPlain]

/-! ## One step -/

/-- The step begins no level and ends none. -/
def Step.Stays (stack : List Pending) (w : World) : Step → Prop
  | .next s => levels s.stack = levels stack ∧ s.world.depth = w.depth ∧
      s.world.maxDepth = w.maxDepth
  | .done _ w' => w'.depth = w.depth

/-- Code for which the level does not matter stays on it, if it pushes no level. -/
theorem Step.stays_of_place {code : List Pending → World → Step}
    (hplace : ∀ stack w d m, code stack (w.onLevel d m) = ((code [] w).onLevel d m).onto stack)
    {w : World} (hpushed : ∀ s, code [] w = .next s → levels s.stack = 0) (stack : List Pending) :
    (code stack w).Stays stack w := by
  have hself := hplace stack w w.depth w.maxDepth
  rw [World.onLevel_self] at hself
  rw [hself]
  cases hcode : code [] w with
  | next s =>
      refine ⟨?_, rfl, rfl⟩
      simp only [levels_append, hpushed s hcode, Nat.zero_add]
  | done outcome w' => rfl

theorem Step.Uniform.stays {allowed : Control → List Pending → Prop}
    {code : List Pending → World → Step} (h : Uniform allowed code)
    (hallowed : ∀ control pushed, allowed control pushed → levels pushed = 0)
    (stack : List Pending) (w : World) : (code stack w).Stays stack w := by
  refine stays_of_place h.place ?_ stack
  intro s hs
  have hleads := h.leads w
  rw [hs] at hleads
  exact hallowed _ _ hleads.1

theorem Step.Plain.stays {code : List Pending → World → Step} (h : Plain code)
    (stack : List Pending) (w : World) : (code stack w).Stays stack w :=
  Uniform.stays h (fun _ _ hplainly => levels_of_isPlain hplainly.2) stack w

theorem Step.Conversing.levels_eq {control : Control} {pushed : List Pending}
    (h : Conversing control pushed) : levels pushed = 0 := by
  rcases h with hplainly | ⟨-, rfl⟩ | ⟨-, rfl⟩
  · exact levels_of_isPlain hplainly.2
  · rfl
  · rfl

theorem Step.stays_throw (k : Ref .continuation) (v : Value) (stack : List Pending) (w : World) :
    (answer (Step.throw k v) stack w).Stays stack w := by
  refine stays_of_place (place_throw k v) ?_ stack
  intro s hs
  unfold answer after at hs
  cases hthrow : Step.throw k v w with
  | trap t w' => simp [hthrow] at hs
  | _ =>
      simp only [hthrow] at hs
      obtain rfl := Step.next.inj hs
      rfl

theorem Step.stays_apply (procedure : Value) (arguments : List Value) (stack : List Pending)
    (w : World) : (apply procedure arguments stack w).Stays stack w := by
  by_cases hcapture : procedure.isCapturing = true
  · cases procedure with
    | primitive p =>
        rw [apply_capturing (by simpa [Value.isCapturing] using hcapture)]
        rcases checkCount_cases p arguments with hcount | ⟨cause, hcount⟩
        · rw [hcount]
          exact ⟨rfl, rfl, rfl⟩
        · rw [hcount]
          exact (Plain.answer (Action.Plain.failWith cause)).stays stack w
    | _ => simp [Value.isCapturing] at hcapture
  · rw [Bool.not_eq_true] at hcapture
    by_cases hthrow : ∃ k, procedure = .continuation k
    · obtain ⟨k, rfl⟩ := hthrow
      exact stays_throw k (arguments.headD .nil) stack w
    · exact (plain_apply arguments hcapture fun k hk => hthrow ⟨k, hk⟩).stays stack w

/-- A step begins a level if the limit allows, ends the one on top of the stack, or stays. -/
def Step.Shifts (stack : List Pending) (w : World) (step : Step) : Prop :=
  ∀ s, step = .next s →
    levels s.stack = levels stack ∧ s.world.depth = w.depth ∨
    levels s.stack = levels stack + 1 ∧ s.world.depth = w.depth + 1 ∧ w.depth < w.maxDepth ∨
    levels stack = levels s.stack + 1 ∧ s.world.depth = w.depth - 1

theorem Step.Stays.shifts {stack : List Pending} {w : World} {step : Step}
    (h : step.Stays stack w) : step.Shifts stack w := by
  rintro s rfl
  exact Or.inl ⟨h.1, h.2.1⟩

theorem Step.Stays.below {p : Pending} (hp : p ≠ .leave) {stack : List Pending} {w : World}
    {step : Step} (h : step.Stays stack w) : step.Stays (p :: stack) w := by
  cases step with
  | next s => exact ⟨h.1.trans (levels_cons hp stack).symm, h.2⟩
  | done outcome w' => exact h

theorem Step.shifts_eval (x : Value) (scope : Ref .scope) (stack : List Pending) (w : World) :
    (Step.eval x scope stack w).Shifts stack w := by
  unfold Step.eval
  split
  · rename_i hdepth
    rintro s ⟨⟩
    exact Or.inr (Or.inl ⟨rfl, rfl, hdepth⟩)
  · rintro s ⟨⟩
    exact Or.inl ⟨rfl, rfl⟩

theorem Step.shifts_resume (v : Value) (stack : List Pending) (w : World) :
    (Step.resume v stack w).Shifts stack w := by
  cases stack with
  | nil => rintro s ⟨⟩
  | cons p stack =>
      by_cases hp : p.isPlain = true
      · have hleave : p ≠ .leave := by
          rintro rfl
          simp [Pending.isPlain] at hp
        exact (((plain_resume v hp).stays stack w).below hleave).shifts
      · cases p with
        | leave =>
            rintro s ⟨⟩
            exact Or.inr (Or.inr ⟨rfl, rfl⟩)
        | catching k =>
            rintro s ⟨⟩
            exact Or.inl ⟨rfl, rfl⟩
        | answer =>
            have hstays := (uniform_printValue v).stays (fun _ _ => Conversing.levels_eq) stack w
            exact (hstays.below (by simp)).shifts
        | _ => simp [Pending.isPlain] at hp

theorem Step.shifts_unwind (f : Fault) (stack : List Pending) (w : World) :
    (Step.unwind f stack w).Shifts stack w := by
  cases stack with
  | nil => rintro s ⟨⟩
  | cons p stack =>
      by_cases hp : p.isPlain = true
      · have hleave : p ≠ .leave := by
          rintro rfl
          simp [Pending.isPlain] at hp
        rw [unwind_plain f hp]
        rintro s ⟨⟩
        exact Or.inl ⟨(levels_cons hleave stack).symm, (plainChange_release p).depth w⟩
      · cases p with
        | leave =>
            rintro s ⟨⟩
            exact Or.inr (Or.inr ⟨rfl, rfl⟩)
        | catching k =>
            -- Whether an escape is received here or not, only the continuation is changed.
            cases f with
            | escape token =>
                unfold Step.unwind
                simp only
                split
                all_goals
                  rintro s ⟨⟩
                  exact Or.inl ⟨rfl, rfl⟩
            | _ =>
                rintro s ⟨⟩
                exact Or.inl ⟨rfl, rfl⟩
        | answer =>
            have hstays := (uniform_answered f).stays (fun _ _ => Conversing.levels_eq) stack w
            exact (hstays.below (by simp)).shifts
        | _ => simp [Pending.isPlain] at hp

/-- Every step moves by one level at most. -/
theorem State.shifts_step (s : State) : s.step.Shifts s.stack s.world := by
  obtain ⟨control, stack, w⟩ := s
  cases control with
  | eval x scope => exact shifts_eval x scope stack w
  | reduce x scope => exact ((plain_reduce scope x).stays stack w).shifts
  | apply procedure arguments => exact (stays_apply procedure arguments stack w).shifts
  | resume v => exact shifts_resume v stack w
  | unwind f => exact shifts_unwind f stack w
  | advance program last => exact ((plain_advance program last).stays stack w).shifts
  | prompt => exact (uniform_prompt.stays (fun _ _ => Conversing.levels_eq) stack w).shifts

/-! ## Runs -/

/-- The depth is the depth outside and the levels on the stack, and within the limit. -/
structure State.Balanced (outside limit : Nat) (s : State) : Prop where
  depth : s.world.depth = outside + levels s.stack
  within : s.world.depth ≤ s.world.maxDepth
  limit : s.world.maxDepth = limit

theorem State.Balanced.step {outside limit : Nat} {s s' : State} (hs : s.Balanced outside limit)
    (hnext : s.step = .next s') : s'.Balanced outside limit := by
  have hmax := State.maxDepth_step hnext
  obtain ⟨hdepth, hwithin, hlimit⟩ := hs
  rcases s.shifts_step s' hnext with ⟨hlevels, hsame⟩ | ⟨hlevels, hmore, hless⟩ | ⟨hlevels, hless⟩
  · exact ⟨by omega, by omega, by omega⟩
  · exact ⟨by omega, by omega, by omega⟩
  · exact ⟨by omega, by omega, by omega⟩

theorem State.Balanced.steps {outside limit : Nat} {s s' : State} (hs : s.Balanced outside limit)
    {n : Nat} (hrun : (Step.next s).steps n = .next s') : s'.Balanced outside limit := by
  induction n generalizing s with
  | zero =>
      obtain rfl := Step.next.inj hrun
      exact hs
  | succ n ih =>
      rw [steps_next] at hrun
      cases hnext : s.step with
      | next s₁ =>
          rw [hnext] at hrun
          exact ih (hs.step hnext) hrun
      | done outcome w =>
          rw [hnext, steps_done] at hrun
          cases hrun

/-- A machine stops by a trap, or with the value or the fault that it has on an empty stack. -/
theorem State.done_cases {s : State} {outcome : Outcome} {w : World}
    (hdone : s.step = .done outcome w) :
    outcome.isTrap = true ∨ (∃ v, outcome = .value v ∧ s = ⟨.resume v, [], w⟩) ∨
      ∃ f, outcome = .fault f ∧ s = ⟨.unwind f, [], w⟩ := by
  have hmoves := s.moves_step
  rw [hdone] at hmoves
  generalize hstep : Step.done outcome w = step at hmoves
  cases hmoves with
  | @plain control popped stack w₀ step hpopped hleads
  | @session control popped stack w₀ step hpopped hleads =>
      cases step with
      | next s₀ => cases hstep
      | done outcome' w' =>
          cases hstep
          obtain ⟨⟨t, rfl⟩, -⟩ := hleads
          exact Or.inl rfl
  | value v w₀ =>
      cases hstep
      exact Or.inr (Or.inl ⟨v, rfl, rfl⟩)
  | fault f w₀ =>
      cases hstep
      exact Or.inr (Or.inr ⟨f, rfl, rfl⟩)
  | pass | enter | refuse | leave | capture | throw | deliver | receive | forward => cases hstep

/-! ## Calls above other work -/

theorem State.not_final_of_trap {s : State} {outcome : Outcome} {w : World}
    (hdone : s.step = .done outcome w) (htrap : outcome.isTrap = true) : ¬ s.Final := by
  obtain ⟨control, stack, w₀⟩ := s
  rintro ⟨hstack, ⟨v, hcontrol⟩ | ⟨f, hcontrol⟩⟩
  all_goals
    cases hstack
    cases hcontrol
    cases hdone
    cases htrap

/-- What the machine does next it does above other work too. -/
theorem State.step_onto {s s' : State} (hnext : s.step = .next s') (base : List Pending) :
    State.step { s with stack := s.stack ++ base } =
      .next { s' with stack := s'.stack ++ base } := by
  by_cases hdeep : s.TooDeep
  · have hdeep' : State.TooDeep { s with stack := s.stack ++ base } := hdeep
    rw [hdeep.step] at hnext
    obtain rfl := Step.next.inj hnext
    exact hdeep'.step
  · have hmax := State.maxDepth_step hnext
    have hshifted := State.step_shifted hdeep (Nat.le_refl _) base
      (Or.inr (State.not_final_of_next hnext))
    have hafter : s'.shifted base s.world.maxDepth = { s' with stack := s'.stack ++ base } := by
      rw [← hmax]
      rfl
    rw [hnext] at hshifted
    exact hshifted.trans (congrArg Step.next hafter)

theorem Step.steps_onto {step : Step} {n : Nat} {s : State} (hrun : step.steps n = .next s)
    (base : List Pending) :
    (step.onto base).steps n = .next { s with stack := s.stack ++ base } := by
  induction n generalizing s with
  | zero =>
      rw [steps_zero] at hrun ⊢
      rw [hrun]
      rfl
  | succ n ih =>
      obtain ⟨s₁, hs₁⟩ := steps_eq_next_of_le (Nat.le_succ n) hrun
      rw [steps_succ', hs₁] at hrun
      rw [steps_succ', ih hs₁]
      exact State.step_onto hrun base

/-- The calls that evaluation is made of. -/
inductive Call where
  | eval (x : Value) (scope : Ref .scope)
  | apply (procedure : Value) (arguments : List Value)
  | special (form : SpecialForm) (operands : Value) (scope : Ref .scope)
  | expand (site : Ref .pair) (transformer : Ref .closure) (operands : Value)
    (scope : Option (Ref .scope))
  | expandOnce (x : Value)
  | callWithContinuation (receiver : Value)
  | run (program : Program) (last : Value)
  | load (path : String)
  | primitive (p : Primitive) (arguments : List Value)
  | converse

/-- The step with which a call begins. -/
def Call.start : Call → List Pending → World → Step
  | .eval x scope => go (.eval x scope)
  | .apply procedure arguments => go (.apply procedure arguments)
  | .special form operands scope => Step.special form operands scope
  | .expand site transformer operands scope => Step.expand site transformer operands scope
  | .expandOnce x => Step.expandOnce x
  | .callWithContinuation receiver => Step.callWithContinuation receiver
  | .run program last => go (.advance program last)
  | .load path => Step.load path
  | .primitive p arguments => Step.apply (.primitive p) arguments
  | .converse => go .prompt

namespace Call

theorem start_onto (call : Call) (base : List Pending) (w : World) :
    call.start base w = (call.start [] w).onto base := by
  cases call with
  | special form operands scope => exact (plain_special scope form operands).onto_eq base w
  | expand site transformer operands scope =>
      exact (plain_expand site transformer operands scope).onto_eq base w
  | expandOnce x => exact (plain_expandOnce x).onto_eq base w
  | load path => exact (plain_load path).onto_eq base w
  | primitive p arguments =>
      have hplace := place_apply (.primitive p) arguments base w w.depth w.maxDepth
      have hself := place_apply (.primitive p) arguments [] w w.depth w.maxDepth
      rw [World.onLevel_self] at hplace hself
      rw [onto_nil] at hself
      rw [start, hplace, ← hself]
  | _ => rfl

theorem stays_start (call : Call) (base : List Pending) (w : World) :
    (call.start base w).Stays base w := by
  cases call with
  | special form operands scope => exact (plain_special scope form operands).stays base w
  | expand site transformer operands scope =>
      exact (plain_expand site transformer operands scope).stays base w
  | expandOnce x => exact (plain_expandOnce x).stays base w
  | load path => exact (plain_load path).stays base w
  | primitive p arguments => exact stays_apply (.primitive p) arguments base w
  | _ => exact ⟨rfl, rfl, rfl⟩

/-- A moment of a call. -/
theorem balanced_steps (call : Call) {w : World} (hw : w.depth ≤ w.maxDepth) {n : Nat} {s : State}
    (hrun : (call.start [] w).steps n = .next s) : s.Balanced w.depth w.maxDepth := by
  have hstart := call.stays_start [] w
  cases hfirst : call.start [] w with
  | next s₀ =>
      rw [hfirst] at hrun hstart
      obtain ⟨hlevels, hdepth, hmax⟩ := hstart
      have hs₀ : s₀.Balanced w.depth w.maxDepth :=
        ⟨by rw [hdepth, hlevels]; rfl, by rw [hdepth, hmax]; exact hw, hmax⟩
      exact hs₀.steps hrun
  | done outcome w' =>
      rw [hfirst, steps_done] at hrun
      cases hrun

theorem start_done (call : Call) {w w' : World} {outcome : Outcome}
    (hdone : call.start [] w = .done outcome w') : outcome.isTrap = true := by
  have hplain : ∀ {code : List Pending → World → Step}, Plain code →
      code [] w = .done outcome w' → outcome.isTrap = true := by
    intro code hcode hdone
    have hleads := hcode.leads w
    rw [hdone] at hleads
    obtain ⟨⟨t, rfl⟩, -⟩ := hleads
    rfl
  cases call with
  | special form operands scope => exact hplain (plain_special scope form operands) hdone
  | expand site transformer operands scope =>
      exact hplain (plain_expand site transformer operands scope) hdone
  | expandOnce x => exact hplain (plain_expandOnce x) hdone
  | load path => exact hplain (plain_load path) hdone
  | primitive p arguments =>
      have hstep : State.step ⟨.apply (.primitive p) arguments, [], w⟩ = .done outcome w' := hdone
      rcases State.done_cases hstep with htrap | ⟨v, -, heq⟩ | ⟨f, -, heq⟩
      · exact htrap
      · cases heq
      · cases heq
  | _ => cases hdone

/-- How a call comes back: with a value or a fault, on the depth on which it began, to the work
that was there before. -/
theorem returns (call : Call) (base : List Pending) {w w' : World} (hw : w.depth ≤ w.maxDepth)
    {n : Nat} {outcome : Outcome} (hrun : (call.start [] w).steps n = .done outcome w')
    (htrap : outcome.isTrap = false) :
    w'.depth = w.depth ∧ ∃ control k, (call.start base w).steps k = go control base w' ∧
      ((∃ v, outcome = .value v ∧ control = .resume v) ∨
        ∃ f, outcome = .fault f ∧ control = .unwind f) := by
  induction n with
  | zero => simp [call.start_done hrun] at htrap
  | succ n ih =>
      rw [steps_succ'] at hrun
      cases hlast : (call.start [] w).steps n with
      | next s =>
          rw [hlast] at hrun
          have hdepth := (call.balanced_steps hw hlast).depth
          have hbase := steps_onto hlast base
          rw [← start_onto] at hbase
          rcases State.done_cases hrun with heq | ⟨v, hv, rfl⟩ | ⟨f, hf, rfl⟩
          · simp [heq] at htrap
          · exact ⟨hdepth, .resume v, n, hbase, Or.inl ⟨v, hv, rfl⟩⟩
          · exact ⟨hdepth, .unwind f, n, hbase, Or.inr ⟨f, hf, rfl⟩⟩
      | done outcome' w'' =>
          rw [hlast] at hrun
          cases hrun
          exact ih hlast

end Call

/-! ## Requests, one after the other -/

/-- The call that a request makes. -/
def Request.call : Request → Call
  | .interpret text => .run (.text (.ofText text.toList)) .nil
  | .run reader => .run (.text reader) .nil
  | .eval x scope => .eval x scope
  | .apply procedure arguments => .apply procedure arguments
  | .load path => .load path
  | .expandOnce x => .expandOnce x
  | .converse => .converse

theorem Request.start_eq (request : Request) (w : World) :
    request.start w = request.call.start [] w := by
  cases request <;> rfl

/-- The worlds of an interpreter between two requests, whatever became of the requests before. -/
inductive World.Idle : World → Prop where
  | bare (host : Host) : Idle (.bare host)
  | new (host : Host) : Idle (.new host)
  /-- After a trap there is no interpreter left that could be asked. -/
  | answer {w w' : World} (request : Request) {outcome : Outcome} (hw : w.Idle)
      (hanswer : request.answer w = (outcome, w')) (htrap : outcome.isTrap = false)
      (hfinished : outcome ≠ .unfinished) : Idle w'
  /-- What else a program does with an interpreter leaves its depth alone. -/
  | change {w w' : World} (hw : w.Idle) (hdepth : w'.depth = w.depth) : Idle w'

theorem World.Idle.depth {w : World} (hw : w.Idle) : w.depth = 0 := by
  induction hw with
  | bare host | new host => rfl
  | @answer w w' request outcome hw hanswer htrap hfinished ih =>
      have hend := Request.ends_of_answer hanswer hfinished
      rw [Request.start_eq] at hend
      rw [(request.call.returns [] (by omega) hend htrap).1, ih]
  | change hw hdepth ih => rw [hdepth, ih]

theorem World.Idle.interpretSharing {w w' : World} (hw : w.Idle) {text : String}
    {intake next : Intake} {outcome : Outcome}
    (h : w.interpretSharing text intake = (outcome, next, w')) (htrap : outcome.isTrap = false)
    (hfinished : outcome ≠ .unfinished) : w'.Idle := by
  unfold World.interpretSharing at h
  by_cases hclosed : (w.reader .standardInput).isClosed = true
  · simp only [hclosed, if_true, Prod.mk.injEq] at h
    obtain ⟨rfl, -, rfl⟩ := h
    exact .answer (.interpret text) hw rfl htrap hfinished
  · simp only [hclosed, Bool.false_eq_true, if_false, Prod.mk.injEq] at h
    obtain ⟨rfl, -, rfl⟩ := h
    have hanswer := Idle.answer (.interpret text)
      (show World.Idle (w.provide .standardInput _) from hw.change rfl) rfl htrap hfinished
    refine hanswer.change ?_
    unfold World.reclaim
    simp only
    split <;> rfl

/-- Through a session that is fed by lines the interpreter is asked again and again. -/
theorem World.Idle.converseByLine {prompts : Bool} {intake : Intake} {pending : List Char}
    {w w' : World} (hw : w.Idle) {outcome : Outcome}
    (h : w.converseByLine prompts intake pending = (outcome, w')) (htrap : outcome.isTrap = false)
    (hfinished : outcome ≠ .unfinished) : w'.Idle := by
  have hprompt : ∀ w : World, w.Idle → ∀ pending, (w.prompt prompts pending).Idle := by
    intro w hw pending
    refine hw.change ?_
    unfold World.prompt
    split <;> rfl
  fun_induction World.converseByLine prompts intake pending w with
  | case1 | case2 => exact (Prod.mk.inj h).2 ▸ hprompt _ hw _
  | case3 _ _ _ _ _ _ _ _ _ _ _ _ _ _ hrun ih =>
      have hafter := (hprompt _ hw _).interpretSharing hrun rfl (by simp)
      exact ih (hafter.change rfl) h
  | case4 _ _ _ _ _ _ _ _ _ _ _ _ _ _ hrun =>
      cases h
      exact (hprompt _ hw _).interpretSharing hrun rfl (by simp)
  | case5 _ _ _ _ _ _ _ _ _ _ _ _ _ _ _ hrun ih =>
      have hafter := (hprompt _ hw _).interpretSharing hrun rfl (by simp)
      exact ih (hafter.change rfl) h
  | case6 _ _ _ _ _ _ _ _ _ _ _ _ _ _ _ _ _ hrun =>
      cases h
      exact (hprompt _ hw _).interpretSharing hrun htrap hfinished
  | case7 _ _ _ _ _ _ _ _ _ _ _ ih => exact ih (hprompt _ hw _) h

/-- During a call the depth is what it was on entry and one for each level that the call is in, and
within the limit, whatever work waits below. When the call comes back, with a value or with any
fault, the depth is what it was on entry. An interpreter between two requests is on depth zero,
through whatever requests and sessions it went, and evaluates the next form of the top level from
there. -/
theorem Call.depth_balanced (call : Call) (base : List Pending) {w : World}
    (hw : w.depth ≤ w.maxDepth) :
    (∀ n s, (call.start [] w).steps n = .next s →
      (call.start base w).steps n = .next { s with stack := s.stack ++ base } ∧
      s.world.depth = w.depth + levels s.stack ∧ s.world.depth ≤ s.world.maxDepth ∧
      s.world.maxDepth = w.maxDepth) ∧
    (∀ n outcome w', (call.start [] w).steps n = .done outcome w' → outcome.isTrap = false →
      w'.depth = w.depth ∧ ∃ control k, (call.start base w).steps k = go control base w' ∧
        ((∃ v, outcome = .value v ∧ control = .resume v) ∨
          ∃ f, outcome = .fault f ∧ control = .unwind f)) ∧
    ∀ idle : World, idle.Idle →
      idle.depth = 0 ∧
      (∀ request n s, (Request.start request idle).steps n = .next s →
        s.world.depth = levels s.stack ∧
        (((∃ program, s.stack = [.program program]) ∨ s.stack = [.answer]) → s.world.depth = 0)) ∧
      ∀ prompts intake pending outcome w',
        idle.converseByLine prompts intake pending = (outcome, w') → outcome.isTrap = false →
        outcome ≠ .unfinished → w'.Idle := by
  refine ⟨?_, ?_, ?_⟩
  · intro n s hrun
    have hbalanced := call.balanced_steps hw hrun
    have hbase := steps_onto hrun base
    rw [← start_onto] at hbase
    exact ⟨hbase, hbalanced.depth, hbalanced.within, hbalanced.limit⟩
  · intro n outcome w' hrun htrap
    exact call.returns base hw hrun htrap
  · intro idle hidle
    refine ⟨hidle.depth, ?_, ?_⟩
    · intro request n s hrun
      rw [Request.start_eq] at hrun
      have hbalanced := request.call.balanced_steps (by rw [hidle.depth]; exact Nat.zero_le _) hrun
      have hdepth : s.world.depth = levels s.stack := by
        rw [hbalanced.depth, hidle.depth, Nat.zero_add]
      refine ⟨hdepth, ?_⟩
      rintro (⟨program, hstack⟩ | hstack)
      · rw [hdepth, hstack]
        rfl
      · rw [hdepth, hstack]
        rfl
    · intro prompts intake pending outcome w' hsession htrap hfinished
      exact hidle.converseByLine hsession htrap hfinished

/-- On a depth of one the limit stops a call inside the extent of a continuation that it made; it
comes back to the work below with the failure, on a depth of one. -/
theorem Call.depth_balanced_capture :
    let w := World.withCapture.onLevel 1 3
    let call := Call.eval (.pair ⟨0⟩) .global
    w.depth ≤ w.maxDepth ∧
    (∃ s k, (call.start [] w).steps 14 = .next s ∧ .catching k ∈ s.stack ∧ s.world.depth = 3 ∧
      levels s.stack = 2) ∧
    ∃ w' n, w'.depth = 1 ∧
      (call.start [.leave] w).steps n = go (.unwind (.failed (.tooDeep 3))) [.leave] w' := by
  intro w call
  have hw : w.depth ≤ w.maxDepth := by decide
  obtain ⟨hmoments, hreturns, -⟩ := depth_balanced call [.leave] hw
  have hend : ∃ w', (call.start [] w).steps 20 = .done (.fault (.failed (.tooDeep 3))) w' :=
    ⟨_, rfl⟩
  obtain ⟨w', hend⟩ := hend
  obtain ⟨hdepth, control, n, hback, ⟨v, hv, -⟩ | ⟨f, hf, rfl⟩⟩ := hreturns 20 _ w' hend rfl
  · cases hv
  · cases hf
    have hmoment : ∃ s, (call.start [] w).steps 14 = .next s ∧ .catching ⟨0⟩ ∈ s.stack ∧
        levels s.stack = 2 := ⟨_, rfl, .tail _ (.tail _ (.head _)), rfl⟩
    obtain ⟨s, hrun, hcatching, hlevels⟩ := hmoment
    refine ⟨hw, ⟨s, _, hrun, hcatching, ?_, hlevels⟩, w', n, hdepth, hback⟩
    rw [(hmoments 14 s hrun).2.1, hlevels]
    rfl

end Scheme
