import Scheme.Proofs.DirectStyle
/-!
# More time

An attempt in direct style that comes to an end comes to the same end if it is given more time.
-/

namespace Scheme

namespace Attempt

variable {α β : Type}

/-- The second attempt ends as the first does, unless the first does not end. -/
def Le (attempt attempt' : Attempt α) : Prop :=
  attempt = .outOfTime ∨ attempt' = attempt

theorem Le.refl (attempt : Attempt α) : attempt.Le attempt :=
  Or.inr rfl

theorem Le.trans {attempt attempt' attempt'' : Attempt α} (h : attempt.Le attempt')
    (h' : attempt'.Le attempt'') : attempt.Le attempt'' := by
  rcases h with h | rfl
  · exact Or.inl h
  · exact h'

theorem outOfTime_le (attempt : Attempt α) : Le .outOfTime attempt :=
  Or.inl rfl

theorem Le.finished {attempt attempt' : Attempt α} (h : attempt.Le attempt') {r : Result α}
    (hr : attempt = .finished r) : attempt' = .finished r := by
  rcases h with h | h
  · rw [hr] at h
    cases h
  · rw [h, hr]

theorem Le.andThen {attempt attempt' : Attempt α} {use use' : α → World → Attempt β}
    (h : attempt.Le attempt') (huse : ∀ a w, (use a w).Le (use' a w)) :
    (attempt.andThen use).Le (attempt'.andThen use') := by
  rcases h with rfl | rfl
  · exact outOfTime_le _
  · match attempt' with
    | .finished (.value a w) => exact huse a w
    | .finished (.fault f w) => exact Le.refl _
    | .finished (.trap t w) => exact Le.refl _
    | .outOfTime => exact Le.refl _

theorem Le.closing {attempt attempt' : Attempt α} (h : attempt.Le attempt')
    (change : World → World) : (attempt.closing change).Le (attempt'.closing change) := by
  rcases h with rfl | rfl
  · exact outOfTime_le _
  · exact Le.refl _

theorem Le.receive {attempt attempt' : Attempt Value} (h : attempt.Le attempt')
    (k : Ref .continuation) : (attempt.receive k).Le (attempt'.receive k) := by
  rcases h with rfl | rfl
  · exact outOfTime_le _
  · exact Le.refl _

end Attempt

open Attempt

namespace Evaluator

/-- Each end of the first evaluator is an end of the second. -/
structure Le (evaluator evaluator' : Evaluator) : Prop where
  eval : ∀ x scope w, (evaluator.eval x scope w).Le (evaluator'.eval x scope w)
  apply : ∀ procedure arguments w,
    (evaluator.apply procedure arguments w).Le (evaluator'.apply procedure arguments w)

namespace Le

variable {evaluator evaluator' : Evaluator} (h : evaluator.Le evaluator')
variable {rounds rounds' : Nat} (hrounds : rounds ≤ rounds')

include h

/-! ## Forms -/

theorem chosen (clause result : Value) (scope : Ref .scope) (w : World) :
    (evaluator.chosen clause result scope w).Le (evaluator'.chosen clause result scope w) := by
  unfold Evaluator.chosen
  simp only
  split
  · exact Attempt.Le.refl _
  · split
    · exact h.eval _ _ _
    · exact h.eval _ _ _

theorem definition (operands : Value) (scope : Ref .scope) (w : World) :
    (evaluator.definition operands scope w).Le (evaluator'.definition operands scope w) := by
  unfold Evaluator.definition
  simp only
  split
  · exact Attempt.Le.refl _
  · exact (Attempt.Le.refl _).andThen fun name w =>
      (h.eval _ scope w).andThen fun _ _ => Attempt.Le.refl _

theorem assignment (operands : Value) (scope : Ref .scope) (w : World) :
    (evaluator.assignment operands scope w).Le (evaluator'.assignment operands scope w) :=
  (Attempt.Le.refl _).andThen fun _ w => (h.eval _ scope w).andThen fun _ _ => Attempt.Le.refl _

theorem branch (operands : Value) (scope : Ref .scope) (w : World) :
    (evaluator.branch operands scope w).Le (evaluator'.branch operands scope w) :=
  (h.eval _ scope w).andThen fun _ w => h.eval _ scope w

include hrounds

theorem sequence (body : Value) (scope : Ref .scope) (w : World) :
    (evaluator.sequence rounds body scope w).Le (evaluator'.sequence rounds' body scope w) := by
  induction rounds generalizing rounds' body w with
  | zero => exact outOfTime_le _
  | succ rounds ih =>
      obtain ⟨rounds', rfl⟩ : ∃ n, rounds' = n + 1 := ⟨rounds' - 1, by omega⟩
      unfold Evaluator.sequence
      simp only
      split
      · exact (h.eval _ scope w).andThen fun _ w => ih (by omega) _ w
      · exact h.eval _ scope w

theorem clauses (all : Value) (scope : Ref .scope) (w : World) :
    (evaluator.clauses rounds all scope w).Le (evaluator'.clauses rounds' all scope w) := by
  induction rounds generalizing rounds' all w with
  | zero => exact outOfTime_le _
  | succ rounds ih =>
      obtain ⟨rounds', rfl⟩ : ∃ n, rounds' = n + 1 := ⟨rounds' - 1, by omega⟩
      cases all with
      | pair ref =>
          simp only [Evaluator.clauses]
          split
          · exact h.chosen _ _ scope w
          · refine (h.eval _ scope w).andThen fun v w => ?_
            split
            · exact h.chosen _ _ scope w
            · exact ih (by omega) _ w
      | _ => exact Attempt.Le.refl _

theorem special (form : SpecialForm) (operands : Value) (scope : Ref .scope) (w : World) :
    (evaluator.special rounds form operands scope w).Le
      (evaluator'.special rounds' form operands scope w) := by
  cases form with
  | quotation | abstraction | transformer => exact Attempt.Le.refl _
  | sequence => exact h.sequence hrounds operands scope w
  | definition => exact h.definition operands scope w
  | assignment => exact h.assignment operands scope w
  | branch => exact h.branch operands scope w
  | clauses => exact h.clauses hrounds operands scope w

/-! ## Calls -/

theorem operands (rest all : Value) (scope : Ref .scope) (w : World) :
    (evaluator.operands rounds rest all scope w).Le
      (evaluator'.operands rounds' rest all scope w) := by
  induction rounds generalizing rounds' rest w with
  | zero => exact outOfTime_le _
  | succ rounds ih =>
      obtain ⟨rounds', rfl⟩ : ∃ n, rounds' = n + 1 := ⟨rounds' - 1, by omega⟩
      cases rest with
      | pair ref =>
          simp only [Evaluator.operands]
          exact (h.eval _ scope w).andThen fun v w =>
            (ih (by omega) _ w).andThen fun _ _ => Attempt.Le.refl _
      | _ => exact Attempt.Le.refl _

omit hrounds in
theorem call (procedure : Value) (arguments : List Value) (w : World) :
    (evaluator.call procedure arguments w).Le (evaluator'.call procedure arguments w) := by
  cases procedure with
  | closure ref => exact h.eval _ _ _
  | _ => exact h.apply _ arguments w

omit hrounds in
theorem expand (site : Ref .pair) (transformer : Ref .closure) (operands : Value) (w : World) :
    (evaluator.expand site transformer operands w).Le
      (evaluator'.expand site transformer operands w) :=
  (Attempt.Le.refl _).andThen fun _ _ => (h.eval _ _ _).andThen fun _ _ => Attempt.Le.refl _

theorem combination (site : Ref .pair) (operator rest : Value) (scope : Ref .scope) (w : World) :
    (evaluator.combination rounds site operator rest scope w).Le
      (evaluator'.combination rounds' site operator rest scope w) := by
  refine (h.eval operator scope w).andThen fun v w => ?_
  cases v with
  | transformer ref => exact (h.expand site ref rest w).andThen fun x w => h.eval x scope w
  | _ => exact (h.operands hrounds rest rest scope w).andThen fun vs w => h.call _ vs w

theorem reduce (x : Value) (scope : Ref .scope) (w : World) :
    (evaluator.reduce rounds x scope w).Le (evaluator'.reduce rounds' x scope w) := by
  cases x with
  | pair site =>
      unfold Evaluator.reduce
      simp only
      split
      · split
        · exact h.special hrounds _ _ scope w
        · exact h.combination hrounds site _ _ scope w
      · exact h.combination hrounds site _ _ scope w
  | _ => exact Attempt.Le.refl _

/-! ## Applications -/

theorem mapping (procedure : Value) (collect : Bool) (lists results : List Value) (w : World) :
    (evaluator.mapping procedure collect rounds lists results w).Le
      (evaluator'.mapping procedure collect rounds' lists results w) := by
  induction rounds generalizing rounds' lists results w with
  | zero => exact outOfTime_le _
  | succ rounds ih =>
      obtain ⟨rounds', rfl⟩ : ∃ n, rounds' = n + 1 := ⟨rounds' - 1, by omega⟩
      unfold Evaluator.mapping
      split
      · exact (h.apply _ _ w).andThen fun v w => ih (by omega) _ _ w
      · exact Attempt.Le.refl _

omit hrounds in
theorem timing (thunk : Value) (memory clock calls : Nat) (result : Value) (w : World) :
    (evaluator.timing thunk memory clock calls result w).Le
      (evaluator'.timing thunk memory clock calls result w) := by
  induction calls generalizing result w with
  | zero => exact Attempt.Le.refl _
  | succ calls ih => exact (h.apply _ _ w).andThen fun v w => ih v w

theorem program (source : Program) (last : Value) (w : World) :
    (evaluator.program rounds source last w).Le (evaluator'.program rounds' source last w) := by
  induction rounds generalizing rounds' source last w with
  | zero => exact outOfTime_le _
  | succ rounds ih =>
      obtain ⟨rounds', rfl⟩ : ∃ n, rounds' = n + 1 := ⟨rounds' - 1, by omega⟩
      unfold Evaluator.program
      simp only
      split
      · exact (h.eval _ _ _).andThen fun v w => ih (by omega) _ v w
      all_goals exact Attempt.Le.refl _

theorem load (path : String) (w : World) :
    (evaluator.load rounds path w).Le (evaluator'.load rounds' path w) := by
  unfold Evaluator.load
  simp only
  split
  · exact Attempt.Le.refl _
  · exact ((h.program hrounds _ _ _).closing _).andThen fun _ _ => Attempt.Le.refl _

omit hrounds in
theorem expandOnce (x : Value) (w : World) :
    (evaluator.expandOnce x w).Le (evaluator'.expandOnce x w) := by
  unfold Evaluator.expandOnce
  split
  · refine (h.eval _ _ w).andThen fun v w => ?_
    split
    · exact h.expand _ _ _ w
    · exact Attempt.Le.refl _
  · exact Attempt.Le.refl _

theorem control (operation : ControlOperation) (arguments : List Value) (w : World) :
    (evaluator.control rounds operation arguments w).Le
      (evaluator'.control rounds' operation arguments w) := by
  cases operation with
  | apply => exact (Attempt.Le.refl _).andThen fun _ w => h.apply _ _ w
  | map => exact h.mapping hrounds _ true _ _ w
  | forEach => exact h.mapping hrounds _ false _ _ w
  | callWithContinuation => exact (h.apply _ _ _).receive _
  | force =>
      unfold Evaluator.control
      simp only
      split
      · exact h.apply _ _ w
      · exact Attempt.Le.refl _
  | eval => exact h.eval _ _ w
  | expand => exact h.expandOnce _ w
  | timeCall => exact (Attempt.Le.refl _).andThen fun calls w => h.timing _ _ _ calls _ _
  | callWithInput =>
      exact (Attempt.Le.refl _).andThen fun port w => (h.apply _ _ w).closing _
  | callWithOutput =>
      exact (Attempt.Le.refl _).andThen fun port w => (h.apply _ _ w).closing _
  | load => exact (Attempt.Le.refl _).andThen fun path w => h.load hrounds path w

theorem applyTo (procedure : Value) (arguments : List Value) (w : World) :
    (evaluator.applyTo rounds procedure arguments w).Le
      (evaluator'.applyTo rounds' procedure arguments w) := by
  cases procedure with
  | primitive p =>
      refine (Attempt.Le.refl _).andThen fun _ w => ?_
      split
      · exact Attempt.Le.refl _
      · exact h.control hrounds _ arguments w
  | closure ref | transformer ref => exact h.eval _ _ _
  | _ => exact Attempt.Le.refl _

end Le

/-- An evaluator that is given more time has all the ends of one that is given less. -/
theorem within_le {time time' : Nat} (h : time ≤ time') : (within time).Le (within time') := by
  induction time generalizing time' with
  | zero => exact ⟨fun _ _ _ => outOfTime_le _, fun _ _ _ => outOfTime_le _⟩
  | succ time ih =>
      obtain ⟨time', rfl⟩ : ∃ n, time' = n + 1 := ⟨time' - 1, by omega⟩
      have hle : time ≤ time' := by omega
      exact ⟨(ih hle).reduce hle, (ih hle).applyTo hle⟩

end Evaluator

end Scheme
