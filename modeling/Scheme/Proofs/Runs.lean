import Scheme.Interpreter
/-!
# Runs

A run is the repetition of steps; once the machine has stopped, nothing changes any more. The
operations that a program embedding the interpreter uses are runs from an empty stack.
-/

namespace Scheme

namespace Step

/-- One more step, unless the machine has stopped. -/
def advanced : Step → Step
  | .next s => s.step
  | .done outcome w => .done outcome w

/-- So many more steps. -/
def steps : Nat → Step → Step
  | 0, step => step
  | n + 1, step => steps n step.advanced

@[simp] theorem steps_zero (step : Step) : step.steps 0 = step :=
  rfl

theorem steps_succ (n : Nat) (step : Step) : step.steps (n + 1) = step.advanced.steps n :=
  rfl

theorem steps_next (n : Nat) (s : State) : (Step.next s).steps (n + 1) = s.step.steps n :=
  rfl

@[simp] theorem steps_done (n : Nat) (outcome : Outcome) (w : World) :
    (Step.done outcome w).steps n = .done outcome w := by
  induction n with
  | zero => rfl
  | succ n ih => exact ih

theorem steps_add (m n : Nat) (step : Step) : step.steps (m + n) = (step.steps m).steps n := by
  induction m generalizing step with
  | zero => rw [Nat.zero_add, steps_zero]
  | succ m ih => rw [Nat.add_right_comm, steps_succ, ih, steps_succ]

theorem steps_succ' (n : Nat) (step : Step) : step.steps (n + 1) = (step.steps n).advanced := by
  rw [steps_add]
  rfl

/-- A machine that has stopped stays stopped. -/
theorem steps_eq_done_of_le {m n : Nat} (hle : m ≤ n) {step : Step} {outcome : Outcome} {w : World}
    (h : step.steps m = .done outcome w) : step.steps n = .done outcome w := by
  obtain ⟨k, rfl⟩ := Nat.exists_eq_add_of_le hle
  rw [steps_add, h, steps_done]

/-- A machine that goes on has been going on all the time. -/
theorem steps_eq_next_of_le {m n : Nat} (hle : m ≤ n) {step : Step} {s : State}
    (h : step.steps n = .next s) : ∃ s', step.steps m = .next s' := by
  cases hm : step.steps m with
  | next s' => exact ⟨s', rfl⟩
  | done outcome w =>
      rw [steps_eq_done_of_le hle hm] at h
      cases h

/-- How a run ends that is given no more steps. -/
def outcome : Step → Outcome × World
  | .next s => (.unfinished, s.world)
  | .done outcome w => (outcome, w)

end Step

theorem State.run_eq (bound : Nat) (s : State) :
    s.run bound = ((Step.next s).steps bound).outcome := by
  induction bound generalizing s with
  | zero => rfl
  | succ bound ih =>
      rw [State.run, Step.steps_next]
      cases s.step with
      | next s' => exact ih s'
      | done outcome w => rw [Step.steps_done]; rfl

/-- What a run ends with, whatever the number of steps it takes. -/
def Step.Ends (step : Step) (outcome : Outcome) (w : World) : Prop :=
  ∃ n, step.steps n = .done outcome w

theorem Step.Ends.unique {step : Step} {outcome outcome' : Outcome} {w w' : World}
    (h : step.Ends outcome w) (h' : step.Ends outcome' w') : outcome = outcome' ∧ w = w' := by
  obtain ⟨m, hm⟩ := h
  obtain ⟨n, hn⟩ := h'
  have hm' := Step.steps_eq_done_of_le (Nat.le_max_left m n) hm
  have hn' := Step.steps_eq_done_of_le (Nat.le_max_right m n) hn
  rw [hm'] at hn'
  cases hn'
  exact ⟨rfl, rfl⟩

/-- Whether the machine has stopped with the value. -/
def Step.hasStoppedWith (v : Value) : Step → Bool
  | .done (.value v') _ => v' = v
  | _ => false

/-- How a run ends can be computed, if it is run for long enough. -/
theorem Step.exists_ends_of_hasStoppedWith {step : Step} {n : Nat} {v : Value}
    (h : (step.steps n).hasStoppedWith v = true) : ∃ w, step.Ends (.value v) w := by
  unfold hasStoppedWith at h
  split at h
  · rename_i v' w hdone
    rw [decide_eq_true_eq] at h
    exact ⟨w, n, h ▸ hdone⟩
  · cases h

/-! ## Requests -/

/-- What a program that embeds the interpreter can ask of it. -/
inductive Request where
  | interpret (text : String)
  | run (reader : Reader)
  | eval (x : Value) (scope : Ref .scope)
  | apply (procedure : Value) (arguments : List Value)
  | load (path : String)
  | expandOnce (x : Value)
  | converse

namespace Request

/-- The step with which a request begins. -/
def start (request : Request) (w : World) : Step :=
  match request with
  | .interpret text => .go (.advance (.text (.ofText text.toList)) .nil) [] w
  | .run reader => .go (.advance (.text reader) .nil) [] w
  | .eval x scope => .go (.eval x scope) [] w
  | .apply procedure arguments => .go (.apply procedure arguments) [] w
  | .load path => .load path [] w
  | .expandOnce x => .expandOnce x [] w
  | .converse => .go .prompt [] w

/-- What the interpreter answers. -/
def answer (request : Request) (w : World) : Outcome × World :=
  match request with
  | .interpret text => w.interpret text
  | .run reader => w.run (.advance (.text reader) .nil)
  | .eval x scope => w.run (.eval x scope)
  | .apply procedure arguments => w.run (.apply procedure arguments)
  | .load path => w.load path
  | .expandOnce x => w.expandOnce x
  | .converse => w.converse

/-- The answer is what the run has come to within the bound. -/
theorem answer_eq (request : Request) (w : World) :
    request.answer w = ((request.start w).steps stepBound).outcome := by
  cases request with
  | load path =>
      change World.load path w = ((Step.load path [] w).steps stepBound).outcome
      unfold World.load
      cases Step.load path [] w with
      | next s => exact State.run_eq stepBound s
      | done outcome w' => rw [Step.steps_done]; rfl
  | expandOnce x =>
      change World.expandOnce x w = ((Step.expandOnce x [] w).steps stepBound).outcome
      unfold World.expandOnce
      cases Step.expandOnce x [] w with
      | next s => exact State.run_eq stepBound s
      | done outcome w' => rw [Step.steps_done]; rfl
  | _ => exact State.run_eq stepBound _

end Request

end Scheme
