import Mathlib.Tactic.SplitIfs
import Scheme.Proofs.Levels
/-!
# Activations under way

Evaluation in the ordinary way of programs is recursive: to evaluate, to apply and to carry out a
primitive procedure are activations, one inside the other. The machine has no need of them, so they
are counted beside its steps. The limit of nesting counts evaluations only, yet it bounds all
activations but those that hand over: a primitive that applies a procedure to the elements of a
list, when that procedure does the same. Any number of these can be under way inside each other,
and no limit is reached.
-/

namespace Scheme

open Step

/-! ## Counting beside the steps -/

/-- Applies one procedure to the elements of lists. -/
def ControlOperation.spreads : ControlOperation → Bool
  | .apply | .map | .forEach => true
  | _ => false

def Value.spreads : Value → Bool
  | .primitive p =>
    match p.operation with
    | .control operation => operation.spreads
    | .direct _ => false
  | _ => false

/-- What can be under way. A primitive relays if it spreads to one that spreads. -/
inductive Activation where
  | evaluation
  | application
  | primitive (relays : Bool)
deriving DecidableEq

def Activation.relays : Activation → Bool
  | .primitive relays => relays
  | _ => false

namespace Control

/-- What begins with a control state, the innermost first. -/
def opens : Control → List Activation
  | .eval _ _ => [.evaluation]
  | .apply (.primitive p) arguments =>
    [.primitive ((Value.primitive p).spreads && (arguments.getD 0 .nil).spreads), .application]
  | .apply _ _ => [.application]
  | _ => []

/-- Goes back to the work on top of the stack. -/
def returns : Control → Bool
  | .resume _ | .unwind _ => true
  | _ => false

end Control

/-- A machine with the activations under way, and for each piece of pending work those that are
still under way when it goes on. -/
structure Tracked where
  state : State
  active : List Activation
  kept : List (List Activation)

namespace Tracked

def start (s : State) : Tracked :=
  ⟨s, [], s.stack.map fun _ => []⟩

/-- What is under way where a step begins, and what is kept for the work below. -/
def base (t : Tracked) : List Activation × List (List Activation) :=
  if t.state.control.returns then (t.kept.headD [], t.kept.tail) else (t.active, t.kept)

/-- All that is under way in a step. -/
def during (t : Tracked) : List Activation :=
  t.state.control.opens ++ t.base.1

/-- After a step to a state. An evaluation is over when its level is left; other work goes on
among what is under way now. -/
def next (t : Tracked) (s : State) : Tracked where
  state := s
  active := t.during
  kept :=
    if s.stack.length = t.base.2.length then t.base.2
    else
      match s.stack with
      | .leave :: _ => t.base.1 :: t.base.2
      | _ => t.during :: t.base.2

/-- After so many steps, if the machine has not stopped. -/
def after (s : State) : Nat → Option Tracked
  | 0 => some (start s)
  | n + 1 => (after s n).bind fun t =>
    match t.state.step with
    | .next s' => some (t.next s')
    | .done _ _ => none

end Tracked

/-- The activations under way in the step after so many others, the innermost first. -/
def State.activations (s : State) (n : Nat) : List Activation :=
  match Tracked.after s n with
  | some t => t.during
  | none => []

/-! ## Room -/

/-- What a continuation or a port is: nothing to spread, and no other procedure. -/
def Value.isHandle : Value → Bool
  | .continuation _ | .inputPort _ | .outputPort _ => true
  | _ => false

/-- No arguments, or a handle alone. -/
def isLight : List Value → Bool
  | [] => true
  | [v] => v.isHandle
  | _ => false

/-- How many activations can begin inside each other from an application on, before a level of
evaluation begins: relaying primitives are not counted, and the evaluation is. -/
def Value.room (light : Bool) : Value → Nat
  | .primitive p =>
    match p.operation with
    | .direct _ => 2
    | .control operation => if light then 3 else if operation.spreads then 7 else 5
  | .closure _ | .transformer _ => 2
  | _ => 1

/-- The same from a control state on. -/
def Control.room : Control → Nat
  | .eval _ _ | .advance _ _ | .prompt => 1
  | .reduce _ _ => 7
  | .apply procedure arguments => procedure.room (isLight arguments)
  | .resume _ | .unwind _ => 0

/-- The same from the moment on at which pending work goes on. -/
def Pending.room : Pending → Nat
  | .leave | .catching _ | .closingInput _ | .closingOutput _ | .loaded _ => 0
  | .operator _ _ _ | .operand _ _ _ _ _ | .sequence _ _ | .assignment _ _ | .definition _ _
  | .branch _ _ | .clause _ _ _ => 7
  | .expansion _ _ scope => if scope.isSome then 7 else 0
  | .mapping procedure _ _ _ => procedure.room false
  | .timing thunk _ _ _ => thunk.room true
  | .expandingHead _ | .program _ | .answer => 1

theorem Value.room_le (light : Bool) (v : Value) :
    v.room light ≤ if v.spreads then 7 else 5 := by
  cases v with
  | primitive p =>
      cases hoperation : p.operation with
      | direct operation => simp [room, spreads, hoperation]
      | control operation =>
          simp only [room, spreads, hoperation]
          split_ifs <;> decide
  | _ => simp [room, spreads]

theorem Value.room_le_seven (light : Bool) (v : Value) : v.room light ≤ 7 := by
  refine Nat.le_trans (v.room_le light) ?_
  split_ifs <;> decide

theorem Value.room_light (v : Value) : v.room true ≤ 3 := by
  cases v with
  | primitive p => cases hoperation : p.operation <;> simp [room, hoperation]
  | _ => simp [room]

theorem Value.room_mono (light : Bool) (v : Value) : v.room light ≤ v.room false := by
  cases v with
  | primitive p =>
      cases hoperation : p.operation with
      | direct operation => simp [room, hoperation]
      | control operation =>
          simp only [room, hoperation]
          split_ifs <;> simp_all
  | _ => simp [room]

namespace Step

/-- The step goes to a control state with so much room, and pushes at most one piece of work that
is no level. -/
def Within (room : Nat) (stack : List Pending) : Step → Prop
  | .next s => s.control.room ≤ room ∧
      (s.stack = stack ∨ ∃ p, s.stack = p :: stack ∧ p ≠ .leave ∧ p.room ≤ room)
  | .done _ _ => True

section Within

variable {room : Nat} {stack : List Pending} {w : World}

theorem within_go {control : Control} (h : control.room ≤ room) :
    (go control stack w).Within room stack :=
  ⟨h, Or.inl rfl⟩

theorem within_push {control : Control} {p : Pending} (h : control.room ≤ room) (hp : p ≠ .leave)
    (hroom : p.room ≤ room) : (go control (p :: stack) w).Within room stack :=
  ⟨h, Or.inr ⟨p, rfl, hp, hroom⟩⟩

/-- Work that waits for an evaluation. -/
theorem within_await {x : Value} {scope : Ref .scope} {p : Pending} (h : 1 ≤ room) (hp : p ≠ .leave)
    (hroom : p.room ≤ room) : (go (.eval x scope) (p :: stack) w).Within room stack :=
  within_push h hp hroom

theorem within_after {α : Type} {action : Action α} {use : α → World → Step}
    (h : ∀ a w', (use a w').Within room stack) : (after action stack w use).Within room stack := by
  unfold after
  split
  · exact h _ _
  · exact within_go (Nat.zero_le _)
  · trivial

theorem within_answer (action : Action Value) : (answer action stack w).Within room stack :=
  within_after fun _ _ => within_go (Nat.zero_le _)

/-! ### Forms -/

theorem within_sequence (body : Value) (scope : Ref .scope) :
    (sequence body scope stack w).Within 7 stack := by
  unfold sequence
  simp only
  split
  · exact within_await (by decide) (by simp) (Nat.le_refl _)
  · exact within_go (Nat.le_refl _)

theorem within_chosen (clause result : Value) (scope : Ref .scope) :
    (chosen clause result scope stack w).Within 7 stack := by
  unfold chosen
  simp only
  split_ifs
  · exact within_go (Nat.zero_le _)
  · exact within_go (Nat.le_refl _)
  · exact within_go (Nat.le_refl _)

theorem within_clauses (list : Value) (scope : Ref .scope) :
    (clauses list scope stack w).Within 7 stack := by
  unfold clauses
  split
  · simp only
    split_ifs
    · exact within_chosen _ _ _
    · exact within_await (by decide) (by simp) (Nat.le_refl _)
  · exact within_go (Nat.zero_le _)

theorem within_special (form : SpecialForm) (operands : Value) (scope : Ref .scope) :
    (special form operands scope stack w).Within 7 stack := by
  cases form with
  | quotation => exact within_go (Nat.zero_le _)
  | sequence => exact within_sequence _ _
  | definition =>
      simp only [special, defineProcedure, define]
      split_ifs
      · exact within_after fun _ _ => within_after fun _ _ => within_go (Nat.zero_le _)
      · exact within_after fun _ _ => within_await (by decide) (by simp) (Nat.le_refl _)
  | assignment => exact within_after fun _ _ => within_await (by decide) (by simp) (Nat.le_refl _)
  | branch => exact within_await (by decide) (by simp) (Nat.le_refl _)
  | clauses => exact within_clauses _ _
  | abstraction | transformer => exact within_after fun _ _ => within_go (Nat.zero_le _)

theorem within_reduce (x : Value) (scope : Ref .scope) :
    (reduce x scope stack w).Within 7 stack := by
  unfold reduce
  split
  · exact within_answer _
  · simp only
    split
    · split
      · exact within_special _ _ _
      · exact within_await (by decide) (by simp) (Nat.le_refl _)
    · exact within_await (by decide) (by simp) (Nat.le_refl _)
  · exact within_go (Nat.zero_le _)

theorem within_operands (procedure : Value) (evaluated : List Value) (rest all : Value)
    (scope : Ref .scope) :
    (operands procedure evaluated rest all scope stack w).Within 7 stack := by
  unfold operands
  split
  · unfold call
    split
    · exact within_go (Nat.le_refl _)
    · exact within_go (procedure.room_le_seven _)
  · exact within_await (by decide) (by simp) (Nat.le_refl _)
  · exact within_answer _

theorem within_expand (site : Ref .pair) (transformer : Ref .closure) (operands : Value)
    (scope : Option (Ref .scope)) (h : 1 ≤ room)
    (hscope : (Pending.expansion site transformer scope).room ≤ room) :
    (expand site transformer operands scope stack w).Within room stack :=
  within_after fun _ _ => within_push h (by simp) hscope

theorem within_replace (site : Ref .pair) (transformer : Ref .closure)
    (scope : Option (Ref .scope)) (v : Value) :
    (replace site transformer scope v stack w).Within
      (Pending.expansion site transformer scope).room stack := by
  unfold replace
  cases scope with
  | none => exact within_go (Nat.zero_le _)
  | some scope => exact within_go (Nat.le_refl _)

/-! ### Applications -/

theorem within_mapping (procedure : Value) (lists results : List Value) (collect : Bool)
    (h : procedure.room false ≤ room) :
    (mapping procedure lists results collect stack w).Within room stack := by
  unfold mapping
  split_ifs
  · exact within_push (Nat.le_trans (procedure.room_mono _) h) (by simp) h
  · exact within_answer _

theorem within_timing (thunk : Value) (calls memory clock : Nat) (result : Value)
    (h : thunk.room true ≤ room) :
    (timing thunk calls memory clock result stack w).Within room stack := by
  unfold timing
  split
  · exact within_answer _
  · exact within_push h (by simp) h

/-- What a primitive leads to that goes on with evaluations of its own: all it hands over is the
elements of lists, if it spreads, or a handle. -/
theorem within_control (operation : ControlOperation) (arguments : List Value) (h : 1 ≤ room)
    (hspreads : operation.spreads = true → (arguments.getD 0 .nil).room false ≤ room)
    (hfirst : (arguments.getD 0 .nil).room true ≤ room)
    (hsecond : (arguments.getD 1 .nil).room true ≤ room) :
    (control operation arguments stack w).Within room stack := by
  cases operation with
  | apply =>
      exact within_after fun _ _ => within_go (Nat.le_trans (Value.room_mono _ _) (hspreads rfl))
  | map | forEach => exact within_mapping _ _ _ _ (hspreads rfl)
  | callWithContinuation => exact within_push hfirst (by simp) (Nat.zero_le _)
  | force =>
      simp only [control]
      split_ifs
      · exact within_go hfirst
      · exact within_go (Nat.zero_le _)
  | eval => exact within_go h
  | expand =>
      simp only [control, expandOnce]
      split_ifs
      · exact within_push h (by simp) h
      · exact within_go (Nat.zero_le _)
  | timeCall => exact within_after fun _ _ => within_timing _ _ _ _ _ hfirst
  | callWithInput | callWithOutput =>
      exact within_after fun _ _ => within_push hsecond (by simp) (Nat.zero_le _)
  | load =>
      refine within_after fun path w => ?_
      unfold load
      simp only
      split
      · exact within_answer _
      · exact within_push h (by simp) (Nat.zero_le _)

/-! ### Work that goes on -/

theorem within_printAndPrompt (text : String) (h : 1 ≤ room) :
    (printAndPrompt text stack w).Within room stack :=
  within_after fun _ _ => within_go h

theorem within_resume (v : Value) (p : Pending) :
    (Step.resume v (p :: stack) w).Within p.room stack := by
  cases p with
  | leave | catching k | closingInput port | closingOutput port | loaded port =>
      exact within_go (Nat.zero_le _)
  | operator site rest scope =>
      simp only [Step.resume]
      split
      · exact within_expand _ _ _ _ (show 1 ≤ 7 by decide) (Nat.le_refl _)
      · exact within_operands _ _ _ _ _
  | operand procedure evaluated rest all scope => exact within_operands _ _ _ _ _
  | expansion site transformer scope => exact within_replace _ _ _ _
  | sequence body scope => exact within_sequence _ _
  | assignment name scope => exact within_answer _
  | definition name scope => exact within_go (Nat.zero_le _)
  | branch arms scope => exact within_go (Nat.le_refl _)
  | clause clause others scope =>
      simp only [Step.resume]
      split_ifs
      · exact within_chosen _ _ _
      · exact within_clauses _ _
  | mapping procedure lists results collect => exact within_mapping _ _ _ _ (Nat.le_refl _)
  | timing thunk calls memory clock => exact within_timing _ _ _ _ _ (Nat.le_refl _)
  | expandingHead x =>
      simp only [Step.resume]
      split
      · exact within_expand _ _ _ _ (Nat.le_refl _) (Nat.zero_le _)
      · exact within_go (Nat.zero_le _)
  | program program => exact within_go (Nat.le_refl _)
  | answer => exact within_after fun _ _ => within_printAndPrompt _ (Nat.le_refl _)

theorem within_unwind (f : Fault) (p : Pending) :
    (Step.unwind f (p :: stack) w).Within p.room stack := by
  cases p with
  | catching k =>
      simp only [Step.unwind]
      split
      · split_ifs
        · exact within_go (Nat.zero_le _)
        · exact within_go (Nat.zero_le _)
      · exact within_go (Nat.zero_le _)
  | answer =>
      simp only [Step.unwind]
      split
      · exact within_go (Nat.zero_le _)
      · exact within_printAndPrompt _ (Nat.le_refl _)
  | _ => exact within_go (Nat.zero_le _)

theorem within_advance (program : Program) (last : Value) :
    (advance program last stack w).Within 1 stack := by
  unfold advance
  simp only
  split
  · exact within_await (Nat.le_refl _) (by simp) (Nat.le_refl _)
  · exact within_go (Nat.zero_le _)
  · exact within_go (Nat.zero_le _)
  · exact within_go (Nat.zero_le _)

theorem within_prompt : (prompt stack w).Within 1 stack := by
  refine within_after fun _ w => ?_
  split
  · exact within_go (Nat.zero_le _)
  · exact within_await (Nat.le_refl _) (by simp) (Nat.le_refl _)
  · exact within_go (Nat.zero_le _)
  · exact within_printAndPrompt _ (Nat.le_refl _)
  · trivial

end Within

end Step

/-! ## Activations fit -/

/-- The relaying ones among activations. -/
def relaying (active : List Activation) : Nat :=
  active.countP Activation.relays

/-- Under the levels of a stack there is room for the activations and for so many more. -/
def Fits (room : Nat) (active : List Activation) (stack : List Pending) : Prop :=
  active.length + room ≤ 8 * (levels stack + 1) + 2 * relaying active

theorem Fits.mono {room room' : Nat} {active : List Activation} {stack : List Pending}
    (h : Fits room active stack) (hle : room' ≤ room) : Fits room' active stack := by
  unfold Fits at *
  omega

theorem Fits.push {room : Nat} {active : List Activation} {stack : List Pending} {p : Pending}
    (h : Fits room active stack) (hp : p ≠ .leave) : Fits room active (p :: stack) := by
  unfold Fits at *
  rwa [levels_cons hp]

/-- What is kept for a piece of work fits above it too. -/
theorem Fits.below {active : List Activation} {stack : List Pending} {p : Pending}
    (h : Fits p.room active stack) : Fits 0 active (p :: stack) := by
  have hlevels : levels stack ≤ levels (p :: stack) := by
    cases p <;> simp [levels]
  unfold Fits at *
  omega

/-- A level makes room for its evaluation and for seven activations more. -/
theorem Fits.enter {active : List Activation} {stack : List Pending} (h : Fits 0 active stack) :
    Fits 7 (.evaluation :: active) (.leave :: stack) := by
  unfold Fits relaying at *
  simp only [levels, List.length_cons, List.countP_cons, Activation.relays]
  omega

/-- What begins takes up room, and gives some back if it relays. -/
theorem Fits.opened {total room : Nat} {active : List Activation} {stack : List Pending}
    (h : Fits total active stack) (opened : List Activation)
    (hroom : opened.length + room ≤ total + 2 * relaying opened) :
    Fits room (opened ++ active) stack := by
  unfold Fits relaying at *
  rw [List.length_append, List.countP_append]
  omega

theorem isLight_cases {arguments : List Value} (h : isLight arguments = true) :
    (arguments.getD 0 .nil).room false = 1 ∧ (arguments.getD 0 .nil).room true = 1 ∧
      (arguments.getD 0 .nil).spreads = false ∧ (arguments.getD 1 .nil).room true = 1 := by
  match arguments with
  | [] => exact ⟨rfl, rfl, rfl, rfl⟩
  | [v] =>
      cases v with
      | continuation | inputPort | outputPort => exact ⟨rfl, rfl, rfl, rfl⟩
      | _ => cases h
  | _ :: _ :: _ => cases h

/-- What a primitive that goes on with evaluations of its own leads to, once it is under way. -/
theorem Fits.control {operation : ControlOperation} {arguments : List Value}
    {active : List Activation} {stack : List Pending}
    (h : Fits (if isLight arguments then 3 else if operation.spreads then 7 else 5) active stack) :
    ∃ room, Fits room (.primitive (operation.spreads && (arguments.getD 0 .nil).spreads) ::
        .application :: active) stack ∧
      ∀ w, (Step.control operation arguments stack w).Within room stack := by
  by_cases hlight : isLight arguments = true
  · obtain ⟨hspread, hfirst, -, hsecond⟩ := isLight_cases hlight
    rw [if_pos hlight] at h
    refine ⟨1, h.opened [_, _] (Nat.le_add_right _ _), ?_⟩
    exact fun _ => within_control operation arguments (Nat.le_refl _)
      (fun _ => Nat.le_of_eq hspread) (Nat.le_of_eq hfirst) (Nat.le_of_eq hsecond)
  rw [if_neg hlight] at h
  by_cases hspreads : operation.spreads = true
  · -- a relaying primitive gives back the room that it takes up
    have hroom := (arguments.getD 0 .nil).room_le false
    rw [if_pos hspreads] at h
    refine ⟨if (arguments.getD 0 .nil).spreads then 7 else 5, h.opened [_, _] ?_, ?_⟩
    · rw [hspreads, Bool.true_and]
      cases (arguments.getD 0 .nil).spreads <;> decide
    · refine fun _ => within_control operation arguments ?_ (fun _ => hroom) ?_ ?_
      · split_ifs <;> decide
      · exact Nat.le_trans (Value.room_mono _ _) hroom
      · refine Nat.le_trans (Value.room_light _) ?_
        split_ifs <;> decide
  · rw [if_neg hspreads] at h
    refine ⟨3, h.opened [_, _] (Nat.le_add_right _ _), ?_⟩
    exact fun _ => within_control operation arguments (by decide)
      (fun hyes => absurd hyes hspreads) (Value.room_light _) (Value.room_light _)

/-- What an application leads to fits once the application is under way. -/
theorem Fits.apply {procedure : Value} {arguments : List Value} {active : List Activation}
    {stack : List Pending} (w : World)
    (h : Fits (Control.apply procedure arguments).room active stack) :
    ∃ room, Fits room ((Control.apply procedure arguments).opens ++ active) stack ∧
      (Step.apply procedure arguments stack w).Within room stack := by
  cases procedure with
  | primitive p =>
      simp only [Control.room, Value.room] at h
      simp only [Step.apply, Control.opens, Value.spreads]
      cases hoperation : p.operation with
      | direct operation =>
          rw [hoperation] at h
          refine ⟨0, h.opened _ (Nat.le_add_right _ _), ?_⟩
          exact within_after fun _ _ => within_answer _
      | control operation =>
          rw [hoperation] at h
          obtain ⟨room, hfits, hwithin⟩ := Fits.control h
          exact ⟨room, hfits, within_after fun _ w => hwithin w⟩
  | closure ref | transformer ref =>
      exact ⟨1, h.opened _ (Nat.le_add_right _ _), within_go (Nat.le_refl _)⟩
  | _ => exact ⟨0, h.opened _ (Nat.le_add_right _ _), within_answer _⟩

/-- For each piece of work on a stack, what is kept for it fits below it. -/
inductive Kept : List (List Activation) → List Pending → Prop where
  | nil : Kept [] []
  | cons {active : List Activation} {kept : List (List Activation)} {p : Pending}
      {stack : List Pending} (h : Fits p.room active stack) (hrest : Kept kept stack) :
      Kept (active :: kept) (p :: stack)

theorem Kept.length_eq {kept : List (List Activation)} {stack : List Pending}
    (h : Kept kept stack) : kept.length = stack.length := by
  induction h with
  | nil => rfl
  | cons _ _ ih => simp [ih]

namespace Tracked

structure Sound (t : Tracked) : Prop where
  active : t.state.control.returns = false → Fits t.state.control.room t.active t.state.stack
  kept : Kept t.kept t.state.stack

/-- A step that stays within the room there is. -/
theorem sound_next {t : Tracked} {s : State} {stack : List Pending} {room : Nat}
    (hkept : Kept t.base.2 stack) (hfits : Fits room t.during stack)
    (hwithin : (Step.next s).Within room stack) : (t.next s).Sound := by
  have hlength := hkept.length_eq
  obtain ⟨hroom, hstack | ⟨p, hstack, hp, hpushed⟩⟩ := hwithin
  · refine ⟨fun _ => ?_, ?_⟩
    · simp only [next, hstack]
      exact hfits.mono hroom
    · simp only [next, hstack, hlength, if_true]
      exact hkept
  · refine ⟨fun _ => ?_, ?_⟩
    · simp only [next, hstack]
      exact (hfits.mono hroom).push hp
    · have hlonger : (p :: stack).length ≠ t.base.2.length := by simp [hlength]
      simp only [next, hstack, if_neg hlonger]
      cases p with
      | leave => exact absurd rfl hp
      | _ => exact .cons (hfits.mono hpushed) hkept

theorem Sound.step {t : Tracked} {s : State} (ht : t.Sound) (hnext : t.state.step = .next s) :
    (t.next s).Sound := by
  obtain ⟨⟨control, stack, w⟩, active, kept⟩ := t
  obtain ⟨hactive, hkept⟩ := ht
  simp only at hactive hkept
  cases control with
  | eval x scope =>
      have hfits := hactive rfl
      change Step.eval x scope stack w = .next s at hnext
      unfold Step.eval at hnext
      split at hnext
      · obtain rfl := Step.next.inj hnext
        have hlonger : (Pending.leave :: stack).length ≠ kept.length := by simp [hkept.length_eq]
        refine ⟨fun _ => (hfits.mono (Nat.zero_le _)).enter, ?_⟩
        simp only [next, base, Control.returns, Bool.false_eq_true, if_false, if_neg hlonger]
        exact .cons (hfits.mono (Nat.zero_le _)) hkept
      · have hrefused : Fits 0 (.evaluation :: active) stack :=
          hfits.opened [.evaluation] (Nat.le_refl 1)
        exact sound_next hkept hrefused (hnext ▸ within_answer _)
  | reduce x scope =>
      exact sound_next hkept (hactive rfl) (hnext ▸ within_reduce x scope)
  | apply procedure arguments => 
      obtain ⟨room, hfits, hwithin⟩ := (hactive rfl).apply w
      exact sound_next hkept hfits (hnext ▸ hwithin)
  | resume v =>
      cases hkept with
      | nil => cases hnext
      | cons hfits hrest => exact sound_next hrest hfits (hnext ▸ within_resume v _)
  | unwind f =>
      cases hkept with
      | nil => cases hnext
      | cons hfits hrest => exact sound_next hrest hfits (hnext ▸ within_unwind f _)
  | advance program last =>
      exact sound_next hkept (hactive rfl) (hnext ▸ within_advance program last)
  | prompt => exact sound_next hkept (hactive rfl) (hnext ▸ within_prompt)

theorem sound_start (control : Control) (w : World) : (start ⟨control, [], w⟩).Sound := by
  refine ⟨fun _ => ?_, .nil⟩
  have hroom : control.room ≤ 7 := by
    cases control with
    | apply procedure arguments => exact procedure.room_le_seven _
    | _ => simp [Control.room]
  change 0 + control.room ≤ 8 * (0 + 1) + 2 * 0
  omega

/-- What is under way in a step fits below the levels of the stack. -/
theorem Sound.during {t : Tracked} (ht : t.Sound) : Fits 0 t.during t.state.stack := by
  obtain ⟨⟨control, stack, w⟩, active, kept⟩ := t
  obtain ⟨hactive, hkept⟩ := ht
  cases control with
  | eval x scope => exact (hactive rfl).opened [.evaluation] (Nat.le_refl 1)
  | apply procedure arguments =>
      obtain ⟨room, hfits, -⟩ := (hactive rfl).apply w
      exact hfits.mono (Nat.zero_le _)
  | reduce | advance | prompt => exact (hactive rfl).mono (Nat.zero_le _)
  | resume | unwind =>
      cases hkept with
      | nil => exact Nat.zero_le _
      | cons hfits hrest => exact hfits.below

/-- What holds at the start and is kept by every step holds after any number of them. -/
theorem after_induction (invariant : Tracked → Prop) {s : State} (hstart : invariant (start s))
    (hstep : ∀ t s', invariant t → t.state.step = .next s' → invariant (t.next s')) {n : Nat}
    {t : Tracked} (h : after s n = some t) : invariant t := by
  induction n generalizing t with
  | zero =>
      cases h
      exact hstart
  | succ n ih =>
      simp only [after, Option.bind_eq_some_iff] at h
      obtain ⟨t₀, ht₀, hnext⟩ := h
      split at hnext
      · rename_i s' hs'
        cases hnext
        exact hstep t₀ s' (ih ht₀) hs'
      · cases hnext

end Tracked

/-! ## The levels there can be -/

/-- The levels on the stack are those counted, and no more than the limit allows. -/
structure State.Nested (outside limit : Nat) (s : State) : Prop where
  depth : s.world.depth = outside + levels s.stack
  within : levels s.stack ≤ limit - outside
  limit : s.world.maxDepth = limit

theorem State.Nested.step {outside limit : Nat} {s s' : State} (hs : s.Nested outside limit)
    (hnext : s.step = .next s') : s'.Nested outside limit := by
  have hmax := State.maxDepth_step hnext
  obtain ⟨hdepth, hwithin, hlimit⟩ := hs
  rcases s.shifts_step s' hnext with ⟨hlevels, hsame⟩ | ⟨hlevels, hmore, hless⟩ | ⟨hlevels, hless⟩
  · exact ⟨by omega, by omega, by omega⟩
  · exact ⟨by omega, by omega, by omega⟩
  · exact ⟨by omega, by omega, by omega⟩

/-- Whatever is evaluated or applied, and whatever the heap holds: all that is ever under way at
once is bounded by the limit of nesting and by the primitives that relay. -/
theorem State.activations_le (control : Control) (w : World) (n : Nat) :
    (State.activations ⟨control, [], w⟩ n).length ≤
      8 * (w.maxDepth - w.depth + 1) + 2 * relaying (State.activations ⟨control, [], w⟩ n) := by
  unfold State.activations
  split
  · rename_i t ht
    have hsound : t.Sound :=
      Tracked.after_induction Tracked.Sound (Tracked.sound_start control w) (fun _ _ h => h.step) ht
    have hnested : t.state.Nested w.depth w.maxDepth :=
      Tracked.after_induction (fun t => t.state.Nested w.depth w.maxDepth)
        ⟨rfl, Nat.zero_le _, rfl⟩ (fun _ _ h => h.step) ht
    have hfits := hsound.during
    have hwithin := hnested.within
    unfold Fits at hfits
    omega
  · exact Nat.zero_le _

/-! ## Relaying without end -/

/-- A state that comes back to itself, with nothing to go back to, opens the same again. -/
theorem Tracked.after_of_step_self {control : Control} {w : World}
    (hcontrol : control.returns = false)
    (hstep : State.step ⟨control, [], w⟩ = .next ⟨control, [], w⟩) (n : Nat) :
    ∃ active, after ⟨control, [], w⟩ n = some ⟨⟨control, [], w⟩, active, []⟩ ∧
      active.length = n * control.opens.length := by
  induction n with
  | zero => exact ⟨[], rfl, by simp⟩
  | succ n ih =>
      obtain ⟨active, hafter, hlength⟩ := ih
      refine ⟨control.opens ++ active, ?_, ?_⟩
      · simp [after, hafter, hstep, next, during, base, hcontrol]
      · rw [List.length_append, hlength, Nat.succ_mul, Nat.add_comm]

/-- A list whose only elements are `apply` and itself: to apply `apply` to what it holds is to do
the same again inside, without an evaluation and without an end. -/
theorem State.relays_without_end :
    let relay : Primitive := ⟨"apply", .control .apply, 2, none⟩
    let cycle : Value := .pair ⟨0⟩
    let heap : Heap := { pairs := #[⟨.primitive relay, .pair ⟨1⟩⟩, ⟨cycle, .nil⟩] }
    let w : World := { heap, host := World.nowhere, maxDepth := 4000 }
    let s : State := ⟨.apply (.primitive relay) [.primitive relay, cycle], [], w⟩
    relay ∈ Primitive.table ∧ (∀ n, (Step.next s).steps n = .next s) ∧
      ∀ c, ∃ n, c * (w.maxDepth - w.depth + 1) < (s.activations n).length := by
  intro relay cycle heap w s
  have hstep : s.step = .next s := rfl
  refine ⟨by decide, ?_, ?_⟩
  · intro n
    induction n with
    | zero => rfl
    | succ n ih => rw [Step.steps_next, hstep, ih]
  · intro c
    refine ⟨c * (w.maxDepth - w.depth + 1), ?_⟩
    obtain ⟨active, hafter, hlength⟩ :=
      Tracked.after_of_step_self rfl hstep (c * (w.maxDepth - w.depth + 1))
    have hduring : s.activations (c * (w.maxDepth - w.depth + 1)) = s.control.opens ++ active := by
      simp only [State.activations, s, hafter]
      rfl
    rw [hduring, List.length_append, hlength]
    change _ < 2 + _ * 2
    omega

end Scheme
