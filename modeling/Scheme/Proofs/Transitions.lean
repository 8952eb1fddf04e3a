import Scheme.Primitive.Table
import Scheme.Proofs.PlainSteps
/-!
# Transitions

What one step of the machine can do, said once. A step is plain, or passes a level, a receiver or
a session on the stack, or captures a continuation or throws to one. Below the work that a step
looks at, the stack is nothing to it, and the limit is nothing to it unless it is reached.
-/

namespace Scheme

namespace Step

theorem onto_nil (step : Step) : step.onto [] = step := by
  cases step with
  | next s => simp [onto]
  | done outcome w => rfl

/-- Uniform code adds to the stack that it finds. -/
theorem Uniform.onto_eq {allowed : Control → List Pending → Prop}
    {code : List Pending → World → Step} (h : Uniform allowed code)
    (stack : List Pending) (w : World) : code stack w = (code [] w).onto stack := by
  have hstack := h.place stack w w.depth w.maxDepth
  have hnil := h.place [] w w.depth w.maxDepth
  rw [World.onLevel_self] at hstack hnil
  rw [onto_nil] at hnil
  rw [hstack, ← hnil]

/-! ## Sessions -/

/-- What a session may do beyond plain steps: prompt, and wait for what it evaluates. -/
def Conversing (control : Control) (pushed : List Pending) : Prop :=
  Plainly control pushed ∨ control = .prompt ∧ pushed = [] ∨
    control.isPlain = true ∧ pushed = [.answer]

theorem uniform_printAndPrompt (text : String) : Uniform Conversing (printAndPrompt text) :=
  Uniform.after (fun _ _ => Or.inl) (World.plain_writeText _ text) fun _ =>
    ⟨fun _ _ _ _ _ => rfl, fun w => ⟨Or.inr (Or.inl ⟨rfl, rfl⟩), .refl w⟩⟩

theorem uniform_printValue (v : Value) : Uniform Conversing (printValue v) := by
  have hprint : ∀ text, Uniform Conversing fun stack w =>
      after (World.writeText .standardOutput text) stack w fun _ w =>
        printAndPrompt "\n" stack w := fun text =>
    Uniform.after (fun _ _ => Or.inl) (World.plain_writeText _ text) fun _ =>
      uniform_printAndPrompt "\n"
  exact ⟨fun stack w => (hprint (w.heap.written v)).elsewhere stack w,
    fun w => (hprint (w.heap.written v)).leads w⟩

theorem uniform_prompt : Uniform Conversing prompt := by
  refine Uniform.after (fun _ _ => Or.inl) (World.plain_writeText _ "> ") fun _ => ?_
  have hread := World.plain_readDatum .standardInput
  constructor
  · intro stack w d m l
    rw [hread.elsewhere]
    cases World.readDatum .standardInput w with
    | value x w' => cases x <;> rfl
    | fault f w' =>
        cases f with
        | cutShort => rfl
        | _ => exact (uniform_printAndPrompt _).elsewhere stack w' d m l
    | trap t w' => rfl
  · intro w
    have hkeeps := hread.keeps w
    cases hresult : World.readDatum .standardInput w with
    | value x w' =>
        rw [hresult] at hkeeps
        cases x with
        | endOfFile => exact ⟨Or.inl ⟨rfl, by simp⟩, hkeeps⟩
        | _ => exact ⟨Or.inr (Or.inr ⟨rfl, rfl⟩), hkeeps⟩
    | fault f w' =>
        rw [hresult] at hkeeps
        cases f with
        | cutShort => exact ⟨Or.inl ⟨rfl, by simp⟩, hkeeps.2⟩
        | _ => exact ((uniform_printAndPrompt _).leads w').trans hkeeps.2
    | trap t w' =>
        rw [hresult] at hkeeps
        exact ⟨⟨t, rfl⟩, hkeeps⟩

/-- A fault in what a session evaluates. -/
theorem uniform_answered (f : Fault) :
    Uniform Conversing (fun stack w => unwind f (.answer :: stack) w) := by
  cases f with
  | exit code => exact ⟨fun _ _ _ _ _ => rfl, fun w => ⟨Or.inl ⟨rfl, by simp⟩, .refl w⟩⟩
  | _ => exact uniform_printAndPrompt _

end Step

open Step

/-! ## Continuations in the heap -/

namespace Heap

theorem continuation_setContinuation_self {h : Heap} {k : Ref .continuation}
    (hk : k.index < h.continuations.size) (c : Continuation) :
    (h.setContinuation k c).continuation k = c := by
  simp [continuation, setContinuation, hk]

theorem continuation_setContinuation_of_ne {h : Heap} {k k' : Ref .continuation} (hne : k' ≠ k)
    (c : Continuation) : (h.setContinuation k c).continuation k' = h.continuation k' := by
  have hindex : k.index ≠ k'.index := fun heq => hne (congrArg Ref.mk heq.symm)
  simp [continuation, setContinuation, hindex]

theorem continuation_of_size_le {h : Heap} {k : Ref .continuation}
    (hk : h.continuations.size ≤ k.index) : h.continuation k = ⟨0, .nil, false⟩ := by
  simp [continuation, hk]

theorem setContinuation_of_size_le {h : Heap} {k : Ref .continuation}
    (hk : h.continuations.size ≤ k.index) (c : Continuation) : h.setContinuation k c = h := by
  simp [setContinuation, Array.setIfInBounds_eq_of_size_le hk]

end Heap

namespace World

/-- Puts a value on its way to a continuation. -/
def putSlot (k : Ref .continuation) (v : Value) (w : World) : World :=
  { w with heap := w.heap.setContinuation k { w.heap.continuation k with slot := v } }

theorem token_deactivate (k : Ref .continuation) (w : World) :
    ((w.deactivate k).heap.continuation k).token = (w.heap.continuation k).token := by
  rcases Nat.lt_or_ge k.index w.heap.continuations.size with hk | hk
  · rw [deactivate, Heap.continuation_setContinuation_self hk]
  · rw [deactivate, Heap.setContinuation_of_size_le hk]

end World

/-! ## All steps -/

/-- What one step can do. -/
inductive Moves : State → Step → Prop where
  | plain (control : Control) (popped stack : List Pending) {w : World} {step : Step}
      (hpopped : ∀ p ∈ popped, p.isPlain = true) (hstep : step.Leads Plainly w) :
      Moves ⟨control, popped ++ stack, w⟩ (step.onto stack)
  /-- A fault passes plain work. -/
  | pass (f : Fault) {p : Pending} (stack : List Pending) (w : World) (hp : p.isPlain = true) :
      Moves ⟨.unwind f, p :: stack, w⟩ (go (.unwind f) stack (p.release w))
  | enter (x : Value) (scope : Ref .scope) (stack : List Pending) {w : World}
      (hdepth : w.depth < w.maxDepth) :
      Moves ⟨.eval x scope, stack, w⟩
        (go (.reduce x scope) (.leave :: stack) { w with depth := w.depth + 1 })
  | refuse (x : Value) (scope : Ref .scope) (stack : List Pending) {w : World}
      (hdepth : w.maxDepth ≤ w.depth) :
      Moves ⟨.eval x scope, stack, w⟩
        (go (.unwind (.failed (.tooDeep w.maxDepth))) stack
          (w.note (.failure (.tooDeep w.maxDepth))))
  | leave {control : Control} (stack : List Pending) (w : World)
      (hcontrol : (∃ v, control = .resume v) ∨ ∃ f, control = .unwind f) :
      Moves ⟨control, .leave :: stack, w⟩ (go control stack w.leave)
  | capture (control : Control) (receiver : Value) (stack : List Pending) (w : World) :
      Moves ⟨control, stack, w⟩ (callWithContinuation receiver stack w)
  | throw (control : Control) (k : Ref .continuation) (v : Value) (stack : List Pending)
      {w : World} (hactive : (w.heap.continuation k).active = true) :
      Moves ⟨control, stack, w⟩
        (go (.unwind (.escape (w.heap.continuation k).token)) stack (w.putSlot k v))
  /-- A receiver is done when it gets a value the ordinary way. -/
  | deliver (v : Value) (k : Ref .continuation) (stack : List Pending) (w : World) :
      Moves ⟨.resume v, .catching k :: stack, w⟩ (go (.resume v) stack (w.deactivate k))
  /-- An escape reaches its receiver. -/
  | receive (k : Ref .continuation) (stack : List Pending) (w : World) :
      Moves ⟨.unwind (.escape (w.heap.continuation k).token), .catching k :: stack, w⟩
        (go (.resume ((w.deactivate k).takeSlot k).1) stack ((w.deactivate k).takeSlot k).2)
  /-- A fault passes a receiver that it is not meant for. -/
  | forward {f : Fault} {k : Ref .continuation} (stack : List Pending) {w : World}
      (hf : f ≠ .escape (w.heap.continuation k).token) :
      Moves ⟨.unwind f, .catching k :: stack, w⟩ (go (.unwind f) stack (w.deactivate k))
  | session (control : Control) (popped stack : List Pending) {w : World} {step : Step}
      (hpopped : control = .prompt ∧ popped = [] ∨ popped = [.answer])
      (hstep : step.Leads Conversing w) :
      Moves ⟨control, popped ++ stack, w⟩ (step.onto stack)
  | value (v : Value) (w : World) : Moves ⟨.resume v, [], w⟩ (.done (.value v) w)
  | fault (f : Fault) (w : World) : Moves ⟨.unwind f, [], w⟩ (.done (.fault f) w)

theorem Moves.of_plain (control : Control) {code : List Pending → World → Step}
    (hcode : Plain code) (stack : List Pending) (w : World) :
    Moves ⟨control, stack, w⟩ (code stack w) := by
  rw [hcode.onto_eq stack w]
  exact .plain control [] stack (by simp) (hcode.leads w)

theorem Moves.of_plain_resume (v : Value) {p : Pending} (hp : p.isPlain = true)
    (stack : List Pending) (w : World) :
    Moves ⟨.resume v, p :: stack, w⟩ (Step.resume v (p :: stack) w) := by
  have hcode := plain_resume v hp
  rw [hcode.onto_eq stack w]
  exact .plain (.resume v) [p] stack (by simpa using hp) (hcode.leads w)

/-- Capturing checks the number of arguments first. -/
theorem apply_capturing {p : Primitive} (hp : p.operation = .control .callWithContinuation)
    (arguments : List Value) (stack : List Pending) (w : World) :
    Step.apply (.primitive p) arguments stack w =
      after (checkCount p arguments) stack w fun _ w =>
        callWithContinuation (arguments.getD 0 .nil) stack w := by
  simp only [Step.apply, hp]
  rfl

theorem checkCount_cases (p : Primitive) (arguments : List Value) :
    checkCount p arguments = pure () ∨ ∃ cause, checkCount p arguments = World.failWith cause := by
  unfold checkCount
  simp only
  split
  · exact Or.inr ⟨_, rfl⟩
  · split
    · split
      · exact Or.inr ⟨_, rfl⟩
      · exact Or.inl rfl
    · exact Or.inl rfl

theorem moves_apply (procedure : Value) (arguments : List Value) (stack : List Pending)
    (w : World) :
    Moves ⟨.apply procedure arguments, stack, w⟩ (Step.apply procedure arguments stack w) := by
  by_cases hcapture : procedure.isCapturing = true
  · cases procedure with
    | primitive p =>
        rw [apply_capturing (by simpa [Value.isCapturing] using hcapture)]
        rcases checkCount_cases p arguments with heq | ⟨cause, heq⟩
        · rw [heq]
          exact .capture _ _ stack w
        · rw [heq]
          exact Moves.of_plain _ (Plain.answer (Action.Plain.failWith cause)) stack w
    | _ => simp [Value.isCapturing] at hcapture
  · rw [Bool.not_eq_true] at hcapture
    by_cases hthrow : ∃ k, procedure = .continuation k
    · obtain ⟨k, rfl⟩ := hthrow
      by_cases hactive : (w.heap.continuation k).active = true
      · have hstep : Step.apply (.continuation k) arguments stack w =
            go (.unwind (.escape (w.heap.continuation k).token)) stack
              (w.putSlot k (arguments.headD .nil)) := by
          simp [Step.apply, answer, after, Step.throw, hactive, World.putSlot]
        rw [hstep]
        exact .throw _ k _ stack hactive
      · have hstep : Step.apply (.continuation k) arguments stack w =
            answer (World.failWith fun h => .spentContinuation (h.written (arguments.headD .nil)))
              stack w := by
          simp [Step.apply, answer, after, Step.throw, hactive]
        rw [hstep]
        exact Moves.of_plain _ (Plain.answer (Action.Plain.failWith _)) stack w
    · exact Moves.of_plain _
        (plain_apply arguments hcapture fun k hk => hthrow ⟨k, hk⟩) stack w

theorem moves_resume (v : Value) (stack : List Pending) (w : World) :
    Moves ⟨.resume v, stack, w⟩ (Step.resume v stack w) := by
  cases stack with
  | nil => exact .value v w
  | cons p stack =>
      by_cases hp : p.isPlain = true
      · exact Moves.of_plain_resume v hp stack w
      · cases p with
        | leave => exact .leave stack w (Or.inl ⟨v, rfl⟩)
        | catching k => exact .deliver v k stack w
        | answer =>
            have hcode := uniform_printValue v
            have hmoves := Moves.session (.resume v) [.answer] stack (Or.inr rfl)
              (hcode.leads w)
            rwa [← hcode.onto_eq stack w] at hmoves
        | _ => simp [Pending.isPlain] at hp

theorem moves_unwind_catching (f : Fault) (k : Ref .continuation) (stack : List Pending)
    (w : World) :
    Moves ⟨.unwind f, .catching k :: stack, w⟩ (Step.unwind f (.catching k :: stack) w) := by
  by_cases hf : f = .escape (w.heap.continuation k).token
  · have hstep : Step.unwind f (.catching k :: stack) w =
        go (.resume ((w.deactivate k).takeSlot k).1) stack ((w.deactivate k).takeSlot k).2 := by
      rw [hf]
      simp [Step.unwind, w.token_deactivate k]
    rw [hstep, hf]
    exact .receive k stack w
  · have hstep : Step.unwind f (.catching k :: stack) w =
        go (.unwind f) stack (w.deactivate k) := by
      cases f with
      | escape token =>
          have htoken : token ≠ (w.heap.continuation k).token := fun heq => hf (by rw [heq])
          simp [Step.unwind, w.token_deactivate k, htoken]
      | _ => rfl
    rw [hstep]
    exact .forward stack hf

theorem moves_unwind (f : Fault) (stack : List Pending) (w : World) :
    Moves ⟨.unwind f, stack, w⟩ (Step.unwind f stack w) := by
  cases stack with
  | nil => exact .fault f w
  | cons p stack =>
      by_cases hp : p.isPlain = true
      · rw [unwind_plain f hp]
        exact .pass f stack w hp
      · cases p with
        | leave => exact .leave stack w (Or.inr ⟨f, rfl⟩)
        | catching k => exact moves_unwind_catching f k stack w
        | answer =>
            have hcode := uniform_answered f
            have hmoves := Moves.session (.unwind f) [.answer] stack (Or.inr rfl)
              (hcode.leads w)
            rwa [← hcode.onto_eq stack w] at hmoves
        | _ => simp [Pending.isPlain] at hp

theorem moves_eval (x : Value) (scope : Ref .scope) (stack : List Pending) (w : World) :
    Moves ⟨.eval x scope, stack, w⟩ (Step.eval x scope stack w) := by
  unfold Step.eval
  split
  · rename_i hdepth
    exact .enter x scope stack hdepth
  · rename_i hdepth
    exact .refuse x scope stack (Nat.le_of_not_lt hdepth)

/-- Every step is one of the moves. -/
theorem State.moves_step (s : State) : Moves s s.step := by
  obtain ⟨control, stack, w⟩ := s
  cases control with
  | eval x scope => exact moves_eval x scope stack w
  | reduce x scope => exact Moves.of_plain _ (plain_reduce scope x) stack w
  | apply procedure arguments => exact moves_apply procedure arguments stack w
  | resume v => exact moves_resume v stack w
  | unwind f => exact moves_unwind f stack w
  | advance program last => exact Moves.of_plain _ (plain_advance program last) stack w
  | prompt =>
      have hmoves := Moves.session .prompt [] stack (Or.inl ⟨rfl, rfl⟩)
        (uniform_prompt.leads w)
      rwa [← uniform_prompt.onto_eq stack w] at hmoves

/-- The primitive that captures the continuation of its call. -/
def Primitive.capture : Primitive :=
  ⟨"call-with-current-continuation", .control .callWithContinuation, 1, some 1⟩

theorem Primitive.capture_mem_table : capture ∈ table := by
  decide +kernel

end Scheme
