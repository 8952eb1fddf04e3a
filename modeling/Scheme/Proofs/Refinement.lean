import Scheme.Proofs.DepthLimit
import Scheme.Proofs.DirectStyle
/-!
# The machine refines evaluation in direct style

From each expression the machine comes to what the evaluator in direct style answers, unless the
limit of nesting stops it first, and it goes on for as long as the evaluator is out of time.
-/

namespace Scheme

open Step Attempt

theorem World.enter_onLevel (d m : Nat) (p : Parameters) (arguments : List Value)
    (parent : Ref .scope) (w : World) :
    (w.onLevel d m).enter p arguments parent =
      ((w.enter p arguments parent).1, (w.enter p arguments parent).2.onLevel d m) := by
  unfold World.enter
  by_cases haccepts : p.accepts arguments.length = true
  · simp only [haccepts, if_true]
    rfl
  · simp only [haccepts]
    rfl

theorem Step.readProgram_onLevel (source : Program) (w : World) (d m : Nat) :
    readProgram source (w.onLevel d m) =
      ((readProgram source w).1, (readProgram source w).2.1,
        (readProgram source w).2.2.onLevel d m) := by
  cases source <;> rfl

/-- Hands a value to the work on the stack. -/
def Step.resuming (stack : List Pending) (v : Value) (w : World) : Step :=
  go (.resume v) stack w

/-- Goes on with an expansion in a scope, or answers it where there is none. -/
def Step.expanded (scope : Option (Ref .scope)) (stack : List Pending) (x : Value) (w : World) :
    Step :=
  match scope with
  | some scope => go (.reduce x scope) stack w
  | none => go (.resume x) stack w

theorem Step.replace_onLevel (site : Ref .pair) (transformer : Ref .closure)
    (scope : Option (Ref .scope)) (v : Value) (stack : List Pending) (w : World) (d m : Nat) :
    replace site transformer scope v stack (w.onLevel d m) =
      expanded scope stack (.pair site)
        ((Evaluator.spliced site transformer v w).onLevel d m) := by
  have hreplacement : ∀ w : World, replacement v (w.onLevel d m) =
      ((replacement v w).1, (replacement v w).2.onLevel d m) := by
    intro w
    cases v <;> rfl
  unfold replace Evaluator.spliced
  by_cases htracing : w.tracing = true
  · simp only [World.tracing_onLevel, htracing, if_true, World.heap_onLevel, World.note_onLevel,
      hreplacement]
    cases scope <;> rfl
  · simp only [World.tracing_onLevel, htracing, Bool.false_eq_true, if_false, hreplacement]
    cases scope <;> rfl

section Follows

variable {α β : Type} {reach patience d m : Nat} {stack : List Pending}

/-- The machine arrives where an attempt ends: with a value, at the work below with a fault, or at
a trap on some level. It goes on for a while if the attempt was out of time. -/
def Step.Arrives (patience d m : Nat) (stack : List Pending) (arrive : α → World → Step)
    (step : Step) : Attempt α → Prop
  | .finished (.value a w) => ∃ n, step.steps n = arrive a (w.onLevel d m)
  | .finished (.fault f w) => ∃ n, step.steps n = go (.unwind f) stack (w.onLevel d m)
  | .finished (.trap t w) => ∃ n d', step.steps n = .done (.trap t) (w.onLevel d' m)
  | .outOfTime => ∀ n, n < patience → ∃ s, step.steps n = .next s

/-- Either the limit stops the machine, being within reach, or the machine arrives. -/
def Step.Follows (reach patience d m : Nat) (stack : List Pending) (arrive : α → World → Step)
    (step : Step) (attempt : Attempt α) : Prop :=
  m < d + reach ∧ step.Deepens ∨ step.Arrives patience d m stack arrive attempt

variable {arrive : α → World → Step} {arrive' : β → World → Step} {step : Step}
  {attempt : Attempt α}

theorem Step.Follows.mono (h : step.Follows reach patience d m stack arrive attempt)
    {reach' patience' : Nat} (hreach : reach ≤ reach') (hpatience : patience' ≤ patience) :
    step.Follows reach' patience' d m stack arrive attempt := by
  rcases h with ⟨hlimit, hdeep⟩ | harrives
  · exact Or.inl ⟨Nat.lt_of_lt_of_le hlimit (Nat.add_le_add_left hreach d), hdeep⟩
  · refine Or.inr ?_
    match attempt, harrives with
    | .finished (.value a w), h => exact h
    | .finished (.fault f w), h => exact h
    | .finished (.trap t w), h => exact h
    | .outOfTime, h => exact fun n hn => h n (Nat.lt_of_lt_of_le hn hpatience)

theorem Step.Follows.congr {step' : Step} {attempt' : Attempt α} (hstep : step = step')
    (hattempt : attempt = attempt')
    (h : step'.Follows reach patience d m stack arrive attempt') :
    step.Follows reach patience d m stack arrive attempt := by
  rw [hstep, hattempt]
  exact h

/-- What follows after some steps follows now. -/
theorem Step.Follows.of_steps {n : Nat}
    (h : (step.steps n).Follows reach patience d m stack arrive attempt) :
    step.Follows reach patience d m stack arrive attempt := by
  rcases h with ⟨hlimit, hdeep⟩ | harrives
  · exact Or.inl ⟨hlimit, hdeep.of_steps⟩
  · refine Or.inr ?_
    match attempt, harrives with
    | .finished (.value a w), ⟨j, h⟩ => exact ⟨n + j, by rw [steps_add, h]⟩
    | .finished (.fault f w), ⟨j, h⟩ => exact ⟨n + j, by rw [steps_add, h]⟩
    | .finished (.trap t w), ⟨j, d', h⟩ => exact ⟨n + j, d', by rw [steps_add, h]⟩
    | .outOfTime, h =>
        intro j hj
        obtain ⟨s, hs⟩ := h j hj
        rw [← steps_add] at hs
        exact steps_eq_next_of_le (Nat.le_add_left j n) hs

/-- A step takes time. -/
theorem Step.Follows.later {s : State}
    (h : s.step.Follows reach patience d m stack arrive attempt) :
    (Step.next s).Follows reach (patience + 1) d m stack arrive attempt := by
  rcases h with ⟨hlimit, hdeep⟩ | harrives
  · exact Or.inl ⟨hlimit, Deepens.of_steps (n := 1) hdeep⟩
  · refine Or.inr ?_
    match attempt, harrives with
    | .finished (.value a w), ⟨n, h⟩ => exact ⟨n + 1, h⟩
    | .finished (.fault f w), ⟨n, h⟩ => exact ⟨n + 1, h⟩
    | .finished (.trap t w), ⟨n, d', h⟩ => exact ⟨n + 1, d', h⟩
    | .outOfTime, h =>
        intro n hn
        cases n with
        | zero => exact ⟨s, rfl⟩
        | succ n => exact h n (Nat.lt_of_succ_lt_succ hn)

theorem Step.Follows.done (a : α) (w : World) :
    (arrive a (w.onLevel d m)).Follows reach patience d m stack arrive (.answer a w) :=
  Or.inr ⟨0, rfl⟩

theorem Step.Follows.stop (f : Fault) (w : World) :
    (go (.unwind f) stack (w.onLevel d m)).Follows reach patience d m stack arrive
      (.finished (.fault f w)) :=
  Or.inr ⟨0, rfl⟩

/-- The machine goes on from where it has arrived. -/
theorem Step.Follows.andThen {use : α → World → Attempt β}
    (h : step.Follows reach patience d m stack arrive attempt)
    (huse : ∀ a w, (arrive a (w.onLevel d m)).Follows reach patience d m stack arrive' (use a w)) :
    step.Follows reach patience d m stack arrive' (attempt.andThen use) := by
  rcases h with ⟨hlimit, hdeep⟩ | harrives
  · exact Or.inl ⟨hlimit, hdeep⟩
  · match attempt, harrives with
    | .finished (.value a w), ⟨n, h⟩ => exact of_steps (n := n) (h ▸ huse a w)
    | .finished (.fault f w), h => exact Or.inr h
    | .finished (.trap t w), h => exact Or.inr h
    | .outOfTime, h => exact Or.inr h

/-- A plain action, and what the machine does with its value. -/
theorem Step.Follows.action {action : Action α} (haction : action.Plain)
    {code : α → World → Step} {use : α → World → Attempt β} (w : World)
    (huse : ∀ a w, (code a (w.onLevel d m)).Follows reach patience d m stack arrive' (use a w)) :
    (after action stack (w.onLevel d m) code).Follows reach patience d m stack arrive'
      ((of action w).andThen use) := by
  unfold Step.after Attempt.of
  rw [haction.onLevel]
  cases action w with
  | value a w' => exact huse a w'
  | fault f w' => exact stop f w'
  | trap t w' => exact Or.inr ⟨0, d, rfl⟩

/-- An action that answers what the machine resumes with. -/
theorem Step.Follows.answering {action : Action Value} {w : World}
    (haction : action (w.onLevel d m) = (action w).onLevel d m) :
    (Step.answer action stack (w.onLevel d m)).Follows reach patience d m stack (resuming stack)
      (of action w) := by
  unfold Step.answer Step.after Attempt.of
  rw [haction]
  cases action w with
  | value a w' => exact done a w'
  | fault f w' => exact stop f w'
  | trap t w' => exact Or.inr ⟨0, d, rfl⟩

/-! ## Pending work -/

variable {attempt : Attempt Value}

/-- A value gets to the work that waits for it, and a fault passes it; what the work does to the
world in both cases is done. -/
theorem Step.Follows.pop_closing {p : Pending} (hp : p.isPlain = true)
    (arrive : Value → World → Step)
    (hresume : ∀ v w, resume v (p :: stack) w = arrive v (p.release w))
    (h : step.Follows reach patience d m (p :: stack) (resuming (p :: stack)) attempt) :
    step.Follows reach patience d m stack arrive (attempt.closing p.release) := by
  rcases h with ⟨hlimit, hdeep⟩ | harrives
  · exact Or.inl ⟨hlimit, hdeep⟩
  · refine Or.inr ?_
    match attempt, harrives with
    | .finished (.value v w), ⟨n, h⟩ =>
        refine ⟨n + 1, ?_⟩
        rw [steps_succ', h]
        refine (hresume v _).trans ?_
        rw [(plainChange_release p).onLevel]
    | .finished (.fault f w), ⟨n, h⟩ =>
        refine ⟨n + 1, ?_⟩
        rw [steps_succ', h]
        refine (unwind_plain f hp stack _).trans ?_
        rw [(plainChange_release p).onLevel]
    | .finished (.trap t w), h => exact h
    | .outOfTime, h => exact h

/-- A value gets to the work that waits for it, which goes on with it one step later. -/
theorem Step.Follows.pop {p : Pending} (hp : p.isPlain = true) (hrelease : p.release = id)
    {use : Value → World → Attempt β}
    (h : step.Follows reach patience d m (p :: stack) (resuming (p :: stack)) attempt)
    (huse : ∀ v w, (resume v (p :: stack) (w.onLevel d m)).Follows reach (patience - 1) d m stack
      arrive' (use v w)) :
    step.Follows reach patience d m stack arrive' (attempt.andThen use) := by
  rcases h with ⟨hlimit, hdeep⟩ | harrives
  · exact Or.inl ⟨hlimit, hdeep⟩
  · match attempt, harrives with
    | .finished (.value v w), ⟨n, h⟩ =>
        have hnext : (resuming (p :: stack) v (w.onLevel d m)).Follows reach (patience - 1 + 1) d m
            stack arrive' (use v w) := later (huse v w)
        rw [← h] at hnext
        exact hnext.of_steps.mono (Nat.le_refl _) (by omega)
    | .finished (.fault f w), ⟨n, h⟩ =>
        refine Or.inr ⟨n + 1, ?_⟩
        rw [steps_succ', h]
        refine (unwind_plain f hp stack _).trans ?_
        rw [hrelease]
        rfl
    | .finished (.trap t w), h => exact Or.inr h
    | .outOfTime, h => exact Or.inr h

/-- The end of a level. -/
theorem Step.Follows.leave
    (h : step.Follows reach patience (d + 1) m (.leave :: stack) (resuming (.leave :: stack))
      attempt) :
    step.Follows (reach + 1) patience d m stack (resuming stack) attempt := by
  rcases h with ⟨hlimit, hdeep⟩ | harrives
  · exact Or.inl ⟨by omega, hdeep⟩
  · refine Or.inr ?_
    match attempt, harrives with
    | .finished (.value v w), ⟨n, h⟩ => exact ⟨n + 1, by rw [steps_succ', h]; rfl⟩
    | .finished (.fault f w), ⟨n, h⟩ => exact ⟨n + 1, by rw [steps_succ', h]; rfl⟩
    | .finished (.trap t w), h => exact h
    | .outOfTime, h => exact h

/-- The end of the extent of a continuation. -/
theorem Step.Follows.receive {k : Ref .continuation}
    (h : step.Follows reach patience d m (.catching k :: stack) (resuming (.catching k :: stack))
      attempt) :
    step.Follows reach patience d m stack (resuming stack) (attempt.receive k) := by
  rcases h with ⟨hlimit, hdeep⟩ | harrives
  · exact Or.inl ⟨hlimit, hdeep⟩
  · refine Or.inr ?_
    match attempt, harrives with
    | .finished (.value v w), ⟨n, h⟩ => exact ⟨n + 1, by rw [steps_succ', h]; rfl⟩
    | .finished (.fault f w), ⟨n, h⟩ =>
        have hstep : step.steps (n + 1) =
            unwind f (.catching k :: stack) (w.onLevel d m) := by
          rw [steps_succ', h]
          rfl
        cases f with
        | escape token =>
            by_cases htoken : token = ((w.deactivate k).heap.continuation k).token
            · have hreceive : Attempt.receive (.finished (.fault (.escape token) w)) k =
                  _ := if_pos htoken
              rw [hreceive]
              exact ⟨n + 1, hstep.trans (if_pos htoken)⟩
            · have hreceive : Attempt.receive (.finished (.fault (.escape token) w)) k =
                  _ := if_neg htoken
              rw [hreceive]
              exact ⟨n + 1, hstep.trans (if_neg htoken)⟩
        | _ => exact ⟨n + 1, hstep⟩
    | .finished (.trap t w), h => exact h
    | .outOfTime, h => exact h

end Follows

/-! ## Forms -/

/-- The machine follows an evaluator that is given so much time, wherever it evaluates. -/
structure Evaluator.Followed (evaluator : Evaluator) (time : Nat) : Prop where
  eval : ∀ x scope stack w d m, (go (.reduce x scope) stack (w.onLevel d m)).Follows time time d m
    stack (resuming stack) (evaluator.eval x scope w)
  apply : ∀ procedure arguments stack w d m,
    (go (.apply procedure arguments) stack (w.onLevel d m)).Follows time time d m
      stack (resuming stack) (evaluator.apply procedure arguments w)

namespace Evaluator.Followed

variable {self : Evaluator} {time : Nat} (hself : self.Followed time)
variable (scope : Ref .scope) (stack : List Pending) (w : World) {d m : Nat}

include hself

/-- An expression in a tail position. -/
theorem tail (x : Value) {patience : Nat} (hpatience : patience ≤ time) :
    (go (.reduce x scope) stack (w.onLevel d m)).Follows (time + 1) patience d m stack
      (resuming stack) (self.eval x scope w) :=
  (hself.eval x scope stack w d m).mono (Nat.le_succ time) hpatience

/-- An expression on a level of its own. -/
theorem nested (x : Value) {patience : Nat} (hpatience : patience ≤ time) :
    (go (.eval x scope) stack (w.onLevel d m)).Follows (time + 1) patience d m stack
      (resuming stack) (self.eval x scope w) := by
  by_cases hdepth : d < m
  · have hstep : State.step ⟨.eval x scope, stack, w.onLevel d m⟩ =
        go (.reduce x scope) (.leave :: stack) (w.onLevel (d + 1) m) := if_pos hdepth
    have hinner := (hself.eval x scope (.leave :: stack) w (d + 1) m).leave
    rw [← hstep] at hinner
    exact hinner.later.mono (Nat.le_refl _) (by omega)
  · exact Or.inl ⟨by omega, 0, _, rfl, ⟨x, scope, rfl⟩, Nat.le_of_not_lt hdepth⟩

theorem applied (procedure : Value) (arguments : List Value) {patience : Nat}
    (hpatience : patience ≤ time) :
    (go (.apply procedure arguments) stack (w.onLevel d m)).Follows (time + 1) patience d m stack
      (resuming stack) (self.apply procedure arguments w) :=
  (hself.apply procedure arguments stack w d m).mono (Nat.le_succ time) hpatience

theorem sequence (body : Value) {rounds : Nat} (hrounds : rounds ≤ time) :
    (Step.sequence body scope stack (w.onLevel d m)).Follows (time + 1) rounds d m stack
      (resuming stack) (self.sequence rounds body scope w) := by
  induction rounds generalizing body w with
  | zero => exact Or.inr fun n hn => absurd hn (Nat.not_lt_zero n)
  | succ rounds ih =>
      by_cases hmore : (w.heap.rest body).isPair = true
      · refine Step.Follows.congr (if_pos hmore) (if_pos hmore) ?_
        exact (hself.nested scope _ w _ hrounds).pop rfl rfl fun v w =>
          ih w (w.heap.rest body) (Nat.le_of_succ_le hrounds)
      · refine Step.Follows.congr (if_neg hmore) (if_neg hmore) ?_
        exact hself.tail scope stack w _ hrounds

theorem chosen (clause result : Value) {patience : Nat} (hpatience : patience ≤ time) :
    (Step.chosen clause result scope stack (w.onLevel d m)).Follows (time + 1) patience d m stack
      (resuming stack) (self.chosen clause result scope w) := by
  by_cases hnil : (w.heap.rest clause).isNil = true
  · refine Step.Follows.congr (if_pos hnil) (if_pos hnil) ?_
    exact Step.Follows.done result w
  · by_cases harrow : w.heap.first (w.heap.rest clause) = .symbol .arrow
    · refine Step.Follows.congr ((if_neg hnil).trans (if_pos harrow))
        ((if_neg hnil).trans (if_pos harrow)) ?_
      exact hself.tail scope stack { w with heap := _ } _ hpatience
    · refine Step.Follows.congr ((if_neg hnil).trans (if_neg harrow))
        ((if_neg hnil).trans (if_neg harrow)) ?_
      exact hself.tail scope stack { w with heap := _ } _ hpatience

theorem clauses (all : Value) {rounds : Nat} (hrounds : rounds ≤ time) :
    (Step.clauses all scope stack (w.onLevel d m)).Follows (time + 1) rounds d m stack
      (resuming stack) (self.clauses rounds all scope w) := by
  induction rounds generalizing all w with
  | zero => exact Or.inr fun n hn => absurd hn (Nat.not_lt_zero n)
  | succ rounds ih =>
      cases all with
      | pair ref =>
          by_cases helse : w.heap.first (w.heap.pair ref).first = .symbol .else_
          · refine Step.Follows.congr (if_pos helse) (if_pos helse) ?_
            exact hself.chosen scope stack w _ _ hrounds
          · refine Step.Follows.congr (if_neg helse) (if_neg helse) ?_
            refine (hself.nested scope _ w _ hrounds).pop rfl rfl fun v w => ?_
            by_cases htrue : v.isTrue = true
            · refine Step.Follows.congr (if_pos htrue) (if_pos htrue) ?_
              exact hself.chosen scope stack w _ _ (Nat.le_of_succ_le hrounds)
            · refine Step.Follows.congr (if_neg htrue) (if_neg htrue) ?_
              exact ih w _ (Nat.le_of_succ_le hrounds)
      | _ => exact Step.Follows.done _ w

theorem definition (operands : Value) {patience : Nat} (hpatience : patience ≤ time) :
    (Step.special .definition operands scope stack (w.onLevel d m)).Follows (time + 1) patience d m
      stack (resuming stack) (self.definition operands scope w) := by
  by_cases hpair : (w.heap.first operands).isPair = true
  · refine Step.Follows.congr (if_pos hpair) (if_pos hpair) ?_
    refine Step.Follows.action (World.plain_symbol _) w fun name w => ?_
    refine Step.Follows.action (plain_abstraction scope _ _) w fun ref w => ?_
    exact Step.Follows.done _ { w with heap := _ }
  · refine Step.Follows.congr (if_neg hpair) (if_neg hpair) ?_
    refine Step.Follows.action (World.plain_symbol _) w fun name w => ?_
    refine (hself.nested scope _ w _ hpatience).pop rfl rfl fun v w => ?_
    exact Step.Follows.done _ { w with heap := _ }

theorem assignment (operands : Value) {patience : Nat} (hpatience : patience ≤ time) :
    (Step.special .assignment operands scope stack (w.onLevel d m)).Follows (time + 1) patience d m
      stack (resuming stack) (self.assignment operands scope w) := by
  refine Step.Follows.action (World.plain_symbol _) w fun name w => ?_
  refine (hself.nested scope _ w _ hpatience).pop rfl rfl fun v w => ?_
  exact Step.Follows.answering ((World.plain_assign name v scope).onLevel w d m)

theorem branch (operands : Value) {patience : Nat} (hpatience : patience ≤ time) :
    (Step.special .branch operands scope stack (w.onLevel d m)).Follows (time + 1) patience d m
      stack (resuming stack) (self.branch operands scope w) := by
  refine (hself.nested scope _ w _ hpatience).pop rfl rfl fun v w => ?_
  exact hself.tail scope stack w _ (Nat.le_trans (Nat.sub_le _ _) hpatience)

omit hself in
theorem abstraction (make : Ref .closure → Value) (parameters body : Value) {reach patience : Nat} :
    (after (Step.abstraction parameters body scope) stack (w.onLevel d m) fun ref w =>
      go (.resume (make ref)) stack w).Follows reach patience d m stack (resuming stack)
        ((Attempt.of (Step.abstraction parameters body scope) w).andThen fun ref w =>
          .answer (make ref) w) :=
  Step.Follows.action (plain_abstraction scope parameters body) w fun _ w => Step.Follows.done _ w

theorem special (form : SpecialForm) (operands : Value) :
    (Step.special form operands scope stack (w.onLevel d m)).Follows (time + 1) time d m stack
      (resuming stack) (self.special time form operands scope w) := by
  have hle := Nat.le_refl time
  cases form with
  | quotation => exact Step.Follows.done _ w
  | sequence => exact hself.sequence scope stack w operands hle
  | definition => exact hself.definition scope stack w operands hle
  | assignment => exact hself.assignment scope stack w operands hle
  | branch => exact hself.branch scope stack w operands hle
  | clauses => exact hself.clauses scope stack w operands hle
  | abstraction => exact abstraction scope stack w .closure _ _
  | transformer => exact abstraction scope stack w .transformer _ _

/-! ## Calls -/

theorem operands (procedure : Value) (evaluated : List Value) (rest all : Value) {rounds : Nat}
    (hrounds : rounds ≤ time) :
    (Step.operands procedure evaluated rest all scope stack (w.onLevel d m)).Follows (time + 1)
      rounds d m stack
      (fun vs w => Step.call procedure (evaluated.reverse ++ vs) stack w)
      (self.operands rounds rest all scope w) := by
  induction rounds generalizing evaluated rest w with
  | zero => exact Or.inr fun n hn => absurd hn (Nat.not_lt_zero n)
  | succ rounds ih =>
      cases rest with
      | nil =>
          have hall : evaluated.reverse ++ [] = evaluated.reverse := List.append_nil _
          exact Or.inr ⟨0, congrArg (fun vs => Step.call procedure vs stack _) hall.symm⟩
      | pair ref =>
          refine (hself.nested scope _ w _ hrounds).pop rfl rfl fun v w' => ?_
          have hothers := ih w' (v :: evaluated) (w.heap.pair ref).rest
            (Nat.le_of_succ_le hrounds)
          refine hothers.andThen fun vs w => Or.inr ⟨0, ?_⟩
          simp only [steps_zero, List.reverse_cons, List.append_assoc, List.singleton_append]
      | _ => exact Or.inr ⟨0, rfl⟩

theorem call (procedure : Value) (arguments : List Value) {patience : Nat}
    (hpatience : patience ≤ time) :
    (Step.call procedure arguments stack (w.onLevel d m)).Follows (time + 1) patience d m stack
      (resuming stack) (self.call procedure arguments w) := by
  cases procedure with
  | closure ref =>
      have henter := w.enter_onLevel d m (w.heap.closure ref).parameters arguments
        (w.heap.closure ref).scope
      simp only [Step.call, World.heap_onLevel, henter]
      exact hself.tail _ stack _ _ hpatience
  | _ => exact hself.applied stack w _ arguments hpatience

theorem expand (site : Ref .pair) (transformer : Ref .closure) (operands : Value)
    (scope : Option (Ref .scope)) {patience : Nat} (hpatience : patience ≤ time) :
    (Step.expand site transformer operands scope stack (w.onLevel d m)).Follows (time + 1) patience
      d m stack (expanded scope stack) (self.expand site transformer operands w) := by
  refine Step.Follows.action (World.plain_elements operands) w fun arguments w => ?_
  have henter := w.enter_onLevel d m (w.heap.closure transformer).parameters arguments
    (w.heap.closure transformer).scope
  simp only [World.heap_onLevel, henter]
  refine (hself.nested _ _ _ _ hpatience).pop rfl rfl fun v w => ?_
  refine Step.Follows.congr (replace_onLevel site transformer scope v stack w d m) rfl ?_
  exact Step.Follows.done (Value.pair site) (spliced site transformer v w)

theorem combination (site : Ref .pair) (operator rest : Value) :
    (go (.eval operator scope) (.operator site rest scope :: stack) (w.onLevel d m)).Follows
      (time + 1) time d m stack (resuming stack)
      (self.combination time site operator rest scope w) := by
  refine (hself.nested scope _ w operator (Nat.le_refl time)).pop rfl rfl fun v w => ?_
  have hle : time - 1 ≤ time := Nat.sub_le time 1
  have hcall : (Step.operands v [] rest rest scope stack (w.onLevel d m)).Follows (time + 1)
      (time - 1) d m stack (resuming stack)
      ((self.operands time rest rest scope w).andThen fun arguments w =>
        self.call v arguments w) :=
    ((hself.operands scope stack w v [] rest rest (Nat.le_refl time)).mono
      (Nat.le_refl _) hle).andThen
      fun arguments w => hself.call stack w v arguments hle
  cases v with
  | transformer ref =>
      exact (hself.expand stack w site ref rest (some scope) hle).andThen fun x w =>
        hself.tail scope stack w x hle
  | _ => exact hcall

theorem reduce (x : Value) :
    (Step.reduce x scope stack (w.onLevel d m)).Follows (time + 1) time d m stack
      (resuming stack) (self.reduce time x scope w) := by
  cases x with
  | symbol name => exact Step.Follows.answering ((World.plain_lookup name scope).onLevel w d m)
  | pair site =>
      simp only [Step.reduce, Evaluator.reduce, World.heap_onLevel]
      cases hfirst : (w.heap.pair site).first with
      | symbol head =>
          cases hform : SpecialForm.ofSymbol? head with
          | some form =>
              simp only [hform]
              exact hself.special scope stack w form _
          | none =>
              simp only [hform]
              exact hself.combination scope stack w site _ _
      | _ => exact hself.combination scope stack w site _ _
  | _ => exact Step.Follows.done _ w

/-! ## Applications -/

theorem mapping (procedure : Value) (collect : Bool) (lists results : List Value) {rounds : Nat}
    (hrounds : rounds ≤ time) :
    (Step.mapping procedure lists results collect stack (w.onLevel d m)).Follows (time + 1) rounds
      d m stack (resuming stack) (self.mapping procedure collect rounds lists results w) := by
  induction rounds generalizing lists results w with
  | zero => exact Or.inr fun n hn => absurd hn (Nat.not_lt_zero n)
  | succ rounds ih =>
      by_cases hmore : (!lists.isEmpty && lists.all Value.isPair) = true
      · refine Step.Follows.congr (if_pos hmore) (if_pos hmore) ?_
        exact (hself.applied _ w _ _ hrounds).pop rfl rfl fun v w =>
          ih w _ _ (Nat.le_of_succ_le hrounds)
      · refine Step.Follows.congr (if_neg hmore) (if_neg hmore) ?_
        exact Step.Follows.answering rfl

theorem timing (thunk : Value) (calls memory clock : Nat) (result : Value) {patience : Nat}
    (hpatience : patience ≤ time) :
    (Step.timing thunk calls memory clock result stack (w.onLevel d m)).Follows (time + 1) patience
      d m stack (resuming stack) (self.timing thunk memory clock calls result w) := by
  induction calls generalizing result w with
  | zero => exact Step.Follows.answering ((plain_timed result memory clock).onLevel w d m)
  | succ calls ih =>
      exact (hself.applied _ w _ _ hpatience).pop rfl rfl fun v w =>
        (ih w v).mono (Nat.le_refl _) (Nat.sub_le _ _)

/-- Each datum of a program is evaluated before the next one is read. -/
theorem program (source : Program) (last : Value) {rounds : Nat} (hrounds : rounds ≤ time) :
    (go (.advance source last) stack (w.onLevel d m)).Follows (time + 1) rounds d m
      stack (resuming stack) (self.program rounds source last w) := by
  induction rounds generalizing source last w with
  | zero => exact Or.inr fun n hn => absurd hn (Nat.not_lt_zero n)
  | succ rounds ih =>
      refine Step.Follows.later ?_
      refine Step.Follows.congr (advance_eq source last stack (w.onLevel d m)) rfl ?_
      rw [readProgram_onLevel]
      simp only [Evaluator.program]
      cases (readProgram source w).1 with
      | datum datum =>
          refine (hself.nested .global _ { (readProgram source w).2.2 with heap := _ } _
            (Nat.le_of_succ_le hrounds)).pop rfl rfl fun v w => ?_
          exact (ih w _ v (Nat.le_of_succ_le hrounds)).mono (Nat.le_refl _) (Nat.sub_le _ _)
      | endOfInput => exact Step.Follows.done last _
      | failed cause => exact Step.Follows.stop _ _
      | cutShort => exact Step.Follows.stop _ _

/-- A file that has been opened is closed whatever its program comes to. -/
theorem loaded (port : Ref .inputPort) :
    (go (.advance (.file port) .nil) (.loaded port :: stack) (w.onLevel d m)).Follows (time + 1)
      time d m stack (resuming stack)
      (((self.program time (.file port) .nil w).closing (World.closeInput port)).andThen
        fun _ w => .answer (.boolean true) w) := by
  have hclosed := (hself.program (.loaded port :: stack) w (.file port) .nil (d := d) (m := m)
    (Nat.le_refl time)).pop_closing rfl (fun _ w => go (.resume (.boolean true)) stack w)
    fun _ _ => rfl
  exact hclosed.andThen fun _ w => Step.Follows.done (Value.boolean true) w

theorem load (path : String) :
    (Step.load path stack (w.onLevel d m)).Follows (time + 1) time d m stack (resuming stack)
      (self.load time path w) := by
  simp only [Step.load, Evaluator.load, World.host_onLevel]
  cases (w.host.want path).openInput path with
  | error reason => exact Step.Follows.answering (w := { w with host := _ }) rfl
  | ok file =>
      exact hself.loaded stack (World.addInput file.1 file.2
        (World.note { w with host := w.host.want path } (.loading path))).2 _

theorem expandOnce (x : Value) :
    (Step.expandOnce x stack (w.onLevel d m)).Follows (time + 1) time d m stack (resuming stack)
      (self.expandOnce x w) := by
  by_cases hpair : x.isPair = true
  · refine Step.Follows.congr (if_pos hpair) (if_pos hpair) ?_
    refine (hself.nested .global _ w _ (Nat.le_refl time)).pop rfl rfl fun v w => ?_
    cases v with
    | transformer ref =>
        cases x with
        | pair site => exact hself.expand stack w site ref _ none (Nat.sub_le time 1)
        | _ => exact Step.Follows.done _ w
    | _ => exact Step.Follows.done _ w
  · refine Step.Follows.congr (if_neg hpair) (if_neg hpair) ?_
    exact Step.Follows.done x w

theorem callWithContinuation (receiver : Value) :
    (Step.callWithContinuation receiver stack (w.onLevel d m)).Follows (time + 1) time d m stack
      (resuming stack) (self.callWithContinuation receiver w) :=
  (hself.applied _ { w with heap := _, lastToken := _ } receiver _ (Nat.le_refl time)).receive

theorem control (operation : ControlOperation) (arguments : List Value) :
    (Step.control operation arguments stack (w.onLevel d m)).Follows (time + 1) time d m stack
      (resuming stack) (self.control time operation arguments w) := by
  have hle := Nat.le_refl time
  cases operation with
  | apply =>
      exact Step.Follows.action (World.plain_elements _) w fun last w =>
        hself.applied stack w _ _ hle
  | map => exact hself.mapping stack w _ true _ _ hle
  | forEach => exact hself.mapping stack w _ false _ _ hle
  | callWithContinuation => exact hself.callWithContinuation stack w _
  | force =>
      by_cases hprocedure : (arguments.getD 0 .nil).isProcedure = true
      · refine Step.Follows.congr (if_pos hprocedure) (if_pos hprocedure) ?_
        exact hself.applied stack w _ _ hle
      · refine Step.Follows.congr (if_neg hprocedure) (if_neg hprocedure) ?_
        exact Step.Follows.done _ w
  | eval => exact hself.nested .global stack w _ hle
  | expand => exact hself.expandOnce stack w _
  | timeCall =>
      refine Step.Follows.action (Action.Plain.ite (World.plain_index _) (Action.Plain.pure 1)) w
        fun calls w => ?_
      exact hself.timing stack { w with host := _ } _ calls _ _ _ hle
  | callWithInput =>
      refine Step.Follows.action (World.plain_openInput _) w fun port w => ?_
      exact (hself.applied (.closingInput port :: stack) w _ _ hle).pop_closing rfl _ fun _ _ => rfl
  | callWithOutput =>
      refine Step.Follows.action (World.plain_openOutput _) w fun port w => ?_
      exact (hself.applied (.closingOutput port :: stack) w _ _ hle).pop_closing rfl _
        fun _ _ => rfl
  | load =>
      exact Step.Follows.action (World.plain_textOf _) w fun path w => hself.load stack w path

theorem applyTo (procedure : Value) (arguments : List Value) :
    (Step.apply procedure arguments stack (w.onLevel d m)).Follows (time + 1) time d m stack
      (resuming stack) (self.applyTo time procedure arguments w) := by
  cases procedure with
  | primitive p =>
      refine Step.Follows.action (plain_checkCount p arguments) w fun _ w => ?_
      cases p.operation with
      | direct operation => 
          exact Step.Follows.answering ((operation.plain_perform arguments).onLevel w d m)
      | control operation => exact hself.control stack w operation arguments
  | closure ref | transformer ref =>
      have henter := w.enter_onLevel d m (w.heap.closure ref).parameters arguments
        (w.heap.closure ref).scope
      simp only [Step.apply, World.heap_onLevel, henter]
      exact hself.nested _ stack _ _ (Nat.le_refl time)
  | continuation k => exact Step.Follows.answering (throw_onLevel k _ w d m)
  | _ => exact Step.Follows.answering rfl

end Evaluator.Followed

/-! ## Evaluations -/

/-- The machine follows each evaluator for as long as the evaluator is given time. -/
theorem Evaluator.followed_within (time : Nat) : (within time).Followed time := by
  -- An evaluator without time is followed by any machine; with more time it is made from one that
  -- is followed, and the machine has taken a step.
  induction time with
  | zero =>
      constructor
      · exact fun _ _ _ _ _ _ => Or.inr fun n hn => absurd hn (Nat.not_lt_zero n)
      · exact fun _ _ _ _ _ _ => Or.inr fun n hn => absurd hn (Nat.not_lt_zero n)
  | succ time ih =>
      constructor
      · exact fun x scope stack w d m => (ih.reduce scope stack w x).later
      · exact fun procedure arguments stack w d m =>
          (ih.applyTo stack w procedure arguments).later

/-- A run ends as an evaluation in direct style does, on the level on which it began; a trap stops
it on whatever level it is. -/
def Result.Agrees (d m : Nat) (outcome : Outcome) (w' : World) : Result Value → Prop
  | .value v w => outcome = .value v ∧ w' = w.onLevel d m
  | .fault f w => outcome = .fault f ∧ w' = w.onLevel d m
  | .trap t w => outcome = .trap t ∧ ∃ d', w' = w.onLevel d' m

/-- Where the machine arrives on an empty stack, it ends. -/
theorem Step.Arrives.ends {patience d m : Nat} {step : Step} {r : Result Value}
    (h : step.Arrives patience d m [] (resuming []) (.finished r)) :
    ∃ outcome w', step.Ends outcome w' ∧ r.Agrees d m outcome w' := by
  match r, h with
  | .value v w, ⟨n, h⟩ =>
      exact ⟨.value v, w.onLevel d m, ⟨n + 1, by rw [steps_succ', h]; rfl⟩, rfl, rfl⟩
  | .fault f w, ⟨n, h⟩ =>
      exact ⟨.fault f, w.onLevel d m, ⟨n + 1, by rw [steps_succ', h]; rfl⟩, rfl, rfl⟩
  | .trap t w, ⟨n, d', h⟩ => exact ⟨.trap t, w.onLevel d' m, ⟨n, h⟩, rfl, d', rfl⟩

/-- An evaluation that ends without reaching the limit ends as in direct style, where it comes to
an end too. What comes to an end in direct style ends in the same way under all limits that are
high enough. -/
theorem Evaluator.machine_refines_direct_style (x : Value) (scope : Ref .scope) (w : World) :
    (∀ m outcome w', (go (.eval x scope) [] (w.underLimit m)).Ends outcome w' →
      ¬ (go (.eval x scope) [] (w.underLimit m)).Deepens →
      (∃ time r, (within time).eval x scope w = .finished r) ∧
        ∀ time r, (within time).eval x scope w = .finished r →
          r.Agrees w.depth m outcome w') ∧
    ∀ time r, (within time).eval x scope w = .finished r →
      ∃ limit, ∀ m, limit ≤ m → ∃ outcome w',
        (go (.eval x scope) [] (w.underLimit m)).Ends outcome w' ∧
          r.Agrees w.depth m outcome w' := by
  have hfollows : ∀ time m, (go (.eval x scope) [] (w.underLimit m)).Follows (time + 1) time
      w.depth m [] (resuming []) ((within time).eval x scope w) :=
    fun time m => (followed_within time).nested scope [] w x (Nat.le_refl time)
  constructor
  · intro m outcome w' hends hfits
    have harrives := fun time => (hfollows time m).resolve_left fun h => hfits h.2
    constructor
    · -- An evaluator out of time would keep the machine busy for longer than it was.
      obtain ⟨n, hdone⟩ := hends
      cases hattempt : (within (n + 1)).eval x scope w with
      | finished r => exact ⟨n + 1, r, hattempt⟩
      | outOfTime =>
          have hlong := harrives (n + 1)
          rw [hattempt] at hlong
          obtain ⟨s, hs⟩ := hlong n (Nat.lt_succ_self n)
          rw [hdone] at hs
          cases hs
    · intro time r hattempt
      have hend := harrives time
      rw [hattempt] at hend
      obtain ⟨outcome', w'', hends', hagrees⟩ := hend.ends
      obtain ⟨rfl, rfl⟩ := hends.unique hends'
      exact hagrees
  · intro time r hattempt
    refine ⟨w.depth + (time + 1), fun m hm => ?_⟩
    have harrives := (hfollows time m).resolve_left fun h => Nat.not_lt_of_le hm h.1
    rw [hattempt] at harrives
    exact harrives.ends

/-- A call of a procedure on its continuation, under a limit that is just high enough and under all
that are high enough. -/
theorem Evaluator.machine_refines_capture :
    let start := fun m => go (.eval (.pair ⟨0⟩) .global) [] (World.withCapture.underLimit m)
    (∃ w', (start 3).Ends (.value (.boolean false)) w' ∧ ¬ (start 3).Deepens ∧
      ∃ time r, (within time).eval (.pair ⟨0⟩) .global .withCapture = .finished r ∧
        r.Agrees 0 3 (.value (.boolean false)) w') ∧
    ∃ r, (within 6).eval (.pair ⟨0⟩) .global .withCapture = .finished r ∧
      ∃ limit, ∀ m, limit ≤ m → ∃ outcome w', (start m).Ends outcome w' ∧
        r.Agrees 0 m outcome w' := by
  intro start
  obtain ⟨hmachine, hdirect⟩ :=
    machine_refines_direct_style (.pair ⟨0⟩) .global World.withCapture
  have hends : ∃ w', (start 3).Ends (.value (.boolean false)) w' := ⟨_, 23, rfl⟩
  obtain ⟨w', hends⟩ := hends
  have hfits : ¬ (start 3).Deepens := by
    intro hdeep
    obtain ⟨w'', hfault⟩ := hdeep.ends
    cases (hends.unique hfault).1
  obtain ⟨⟨time, r, hattempt⟩, hagrees⟩ := hmachine 3 _ w' hends hfits
  exact ⟨⟨w', hends, hfits, time, r, hattempt, hagrees time r hattempt⟩,
    _, rfl, hdirect 6 _ rfl⟩

end Scheme
