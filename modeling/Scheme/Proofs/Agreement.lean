import Scheme.Proofs.MoreTime
import Scheme.Proofs.Refinement
/-!
# Runs that agree

Two runs agree if each comes to an end where the other does, and to the same one. It is enough that
both do what the same attempts in direct style do, unless the limit of nesting stops one of them.
-/

namespace Scheme

open Step

/-- The same world after an outcome; a trap leaves it on whatever level the machine was. -/
def Outcome.SameWorld (w w' : World) : Outcome → Prop
  | .trap _ => ∃ d, w' = w.onLevel d w.maxDepth
  | _ => w' = w

/-- Each end of one run is an end of the other. -/
def Step.Agree (step step' : Step) : Prop :=
  (∀ outcome w, step.Ends outcome w → ∃ w', step'.Ends outcome w' ∧ outcome.SameWorld w w') ∧
    ∀ outcome w, step'.Ends outcome w → ∃ w', step.Ends outcome w' ∧ outcome.SameWorld w w'

/-- The limit has not stopped a run that ends with a value, with no session around it. -/
theorem Step.Ends.fits {s : State} {v : Value} {w : World} (h : (Step.next s).Ends (.value v) w)
    (hs : s.Unattended) : ¬ (Step.next s).Deepens := by
  intro hdeep
  obtain ⟨n, w', hrun⟩ := hdeep.unwinds hs []
  rw [List.append_nil] at hrun
  have hfault : (Step.next s).Ends (.fault (.failed (.tooDeep s.world.maxDepth))) w' := by
    refine ⟨n + 1, ?_⟩
    rw [steps_succ', hrun]
    rfl
  cases (h.unique hfault).1

/-- Ends that agree with one result are the same. -/
theorem Result.Agrees.unique {r : Result Value} {d m : Nat} {outcome outcome' : Outcome}
    {w w' : World} (h : r.Agrees d m outcome w) (h' : r.Agrees d m outcome' w') :
    outcome' = outcome ∧ outcome.SameWorld w w' := by
  cases r with
  | value v w₀ | fault f w₀ =>
      obtain ⟨rfl, rfl⟩ := h
      exact h'
  | trap t w₀ =>
      obtain ⟨rfl, d₁, rfl⟩ := h
      obtain ⟨rfl, d₂, rfl⟩ := h'
      exact ⟨rfl, d₂, rfl⟩

/-! ## Attempts that have the same ends -/

namespace Attempt

variable {α : Type} {attempt attempt' attempt'' : Nat → Attempt α}

/-- More time does not change an end. -/
def Steady (attempt : Nat → Attempt α) : Prop :=
  ∀ time time', time ≤ time' → (attempt time).Le (attempt time')

/-- With enough time both attempts come to the same ends. -/
def SameEnds (attempt attempt' : Nat → Attempt α) : Prop :=
  ∀ r, (∃ time, attempt time = .finished r) ↔ ∃ time, attempt' time = .finished r

theorem SameEnds.symm (h : SameEnds attempt attempt') : SameEnds attempt' attempt :=
  fun r => (h r).symm

theorem SameEnds.trans (h : SameEnds attempt attempt') (h' : SameEnds attempt' attempt'') :
    SameEnds attempt attempt'' :=
  fun r => (h r).trans (h' r)

/-- Attempts that are the same from some time on, but for a delay, have the same ends. -/
theorem SameEnds.of_eventually (hsteady : Steady attempt) (hsteady' : Steady attempt')
    (least delay : Nat) (h : ∀ time, least ≤ time → attempt (time + delay) = attempt' time) :
    SameEnds attempt attempt' := by
  intro r
  constructor
  · rintro ⟨time, hend⟩
    refine ⟨max least time, ?_⟩
    rw [← h (max least time) (Nat.le_max_left least time)]
    exact (hsteady time (max least time + delay) (by omega)).finished hend
  · rintro ⟨time, hend⟩
    refine ⟨max least time + delay, ?_⟩
    rw [h (max least time) (Nat.le_max_left least time)]
    exact (hsteady' time (max least time) (Nat.le_max_right least time)).finished hend

end Attempt

theorem Evaluator.steady_eval (x : Value) (scope : Ref .scope) (w : World) :
    Attempt.Steady fun time => (within time).eval x scope w :=
  fun _ _ hle => (within_le hle).eval x scope w

theorem Evaluator.steady_apply (procedure : Value) (arguments : List Value) (w : World) :
    Attempt.Steady fun time => (within time).apply procedure arguments w :=
  fun _ _ hle => (within_le hle).apply procedure arguments w

theorem Evaluator.steady_call (procedure : Value) (arguments : List Value) (w : World) :
    Attempt.Steady fun time => (within time).call procedure arguments w :=
  fun _ _ hle => (within_le hle).call procedure arguments w

/-! ## Runs that do what attempts do -/

/-- On a level and under a limit, the machine does what the attempts do when they are given time. -/
def Step.Enacts (d m : Nat) (step : Step) (attempt : Nat → Attempt Value) : Prop :=
  ∀ time, ∃ reach, step.Follows reach time d m [] (resuming []) (attempt time)

namespace Step.Enacts

variable {d m : Nat} {step step' : Step} {attempt attempt' : Nat → Attempt Value}

theorem arrives (h : step.Enacts d m attempt) (hfits : ¬ step.Deepens) (time : Nat) :
    step.Arrives time d m [] (resuming []) (attempt time) := by
  obtain ⟨reach, hfollows⟩ := h time
  exact hfollows.resolve_left fun hstops => hfits hstops.2

theorem ends (h : step.Enacts d m attempt) (hfits : ¬ step.Deepens) {time : Nat}
    {r : Result Value} (hattempt : attempt time = .finished r) :
    ∃ outcome w, step.Ends outcome w ∧ r.Agrees d m outcome w := by
  have harrives := h.arrives hfits time
  rw [hattempt] at harrives
  exact harrives.ends

/-- What the machine does after some steps it does now. -/
theorem of_steps {n : Nat} (h : (step.steps n).Enacts d m attempt) : step.Enacts d m attempt := by
  intro time
  obtain ⟨reach, hfollows⟩ := h time
  exact ⟨reach, hfollows.of_steps⟩

/-- A run that ends has the end of an attempt. -/
theorem exists_finished (h : step.Enacts d m attempt) (hfits : ¬ step.Deepens) {outcome : Outcome}
    {w : World} (hends : step.Ends outcome w) :
    ∃ time r, attempt time = .finished r ∧ r.Agrees d m outcome w := by
  obtain ⟨n, hdone⟩ := id hends
  -- An attempt out of time would keep the machine busy for longer than it was.
  cases hattempt : attempt (n + 1) with
  | outOfTime =>
      have hlong := h.arrives hfits (n + 1)
      rw [hattempt] at hlong
      obtain ⟨s, hs⟩ := hlong n (Nat.lt_succ_self n)
      rw [hdone] at hs
      cases hs
  | finished r =>
      obtain ⟨outcome', w', hends', hagrees⟩ := h.ends hfits hattempt
      obtain ⟨rfl, rfl⟩ := hends.unique hends'
      exact ⟨n + 1, r, hattempt, hagrees⟩

theorem ends_of_ends (h : step.Enacts d m attempt) (h' : step'.Enacts d m attempt')
    (hsame : Attempt.SameEnds attempt attempt') (hfits : ¬ step.Deepens)
    (hfits' : ¬ step'.Deepens) (outcome : Outcome) (w : World) (hends : step.Ends outcome w) :
    ∃ w', step'.Ends outcome w' ∧ outcome.SameWorld w w' := by
  obtain ⟨time, r, hattempt, hagrees⟩ := h.exists_finished hfits hends
  obtain ⟨time', hattempt'⟩ := (hsame r).1 ⟨time, hattempt⟩
  obtain ⟨outcome', w', hends', hagrees'⟩ := h'.ends hfits' hattempt'
  obtain ⟨rfl, hworld⟩ := hagrees.unique hagrees'
  exact ⟨w', hends', hworld⟩

/-- Runs that do what attempts with the same ends do agree, unless the limit stops one of them. -/
theorem agree (h : step.Enacts d m attempt) (h' : step'.Enacts d m attempt')
    (hsame : Attempt.SameEnds attempt attempt') (hfits : ¬ step.Deepens)
    (hfits' : ¬ step'.Deepens) : step.Agree step' :=
  ⟨h.ends_of_ends h' hsame hfits hfits', h'.ends_of_ends h hsame.symm hfits' hfits⟩

end Step.Enacts

theorem Evaluator.enacts_eval (x : Value) (scope : Ref .scope) (w : World) (d m : Nat) :
    (go (.eval x scope) [] (w.onLevel d m)).Enacts d m fun time => (within time).eval x scope w :=
  fun time => ⟨time + 1, (followed_within time).nested scope [] w x (Nat.le_refl time)⟩

theorem Evaluator.enacts_apply (procedure : Value) (arguments : List Value) (w : World)
    (d m : Nat) :
    (go (.apply procedure arguments) [] (w.onLevel d m)).Enacts d m fun time =>
      (within time).apply procedure arguments w :=
  fun time => ⟨time, (followed_within time).apply procedure arguments [] w d m⟩

theorem Evaluator.enacts_expandOnce (x : Value) (w : World) (d m : Nat) :
    (Step.expandOnce x [] (w.onLevel d m)).Enacts d m fun time => (within time).expandOnce x w :=
  fun time => ⟨time + 1, (followed_within time).expandOnce [] w x⟩

/-! ## Ends under all limits that are high enough -/

/-- On every level the evaluation ends so, under all limits that are high enough for that. -/
def Step.Finishes (x : Value) (scope : Ref .scope) (w : World) (outcome : Outcome) (w' : World) :
    Prop :=
  ∃ enough, ∀ d m, d + enough ≤ m → ∃ w'',
    (go (.eval x scope) [] (w.onLevel d m)).Ends outcome w'' ∧
      outcome.SameWorld (w'.onLevel d m) w''

theorem Step.Finishes.unique {x : Value} {scope : Ref .scope} {w w' w'' : World}
    {outcome outcome' : Outcome} (h : Finishes x scope w outcome w')
    (h' : Finishes x scope w outcome' w'') : outcome = outcome' := by
  obtain ⟨enough, hends⟩ := h
  obtain ⟨enough', hends'⟩ := h'
  obtain ⟨_, hend, -⟩ := hends 0 (enough + enough') (by omega)
  obtain ⟨_, hend', -⟩ := hends' 0 (enough + enough') (by omega)
  exact (hend.unique hend').1

/-- A result is this outcome, whatever the level. -/
def Result.Comes (r : Result Value) (outcome : Outcome) (w' : World) : Prop :=
  ∀ d m, ∃ w'', r.Agrees d m outcome w'' ∧ outcome.SameWorld (w'.onLevel d m) w''

theorem Outcome.SameWorld.trans {outcome : Outcome} {w w' w'' : World}
    (h : outcome.SameWorld w w') (h' : outcome.SameWorld w' w'') : outcome.SameWorld w w'' := by
  cases outcome with
  | trap t =>
      obtain ⟨d, rfl⟩ := h
      obtain ⟨d', rfl⟩ := h'
      exact ⟨d', rfl⟩
  | _ => exact Eq.trans h' h

/-- Worlds that are the same on one level are so on all. -/
theorem World.onLevel_congr {w w' : World} {d m : Nat} (h : w.onLevel d m = w'.onLevel d m)
    (d' m' : Nat) : w.onLevel d' m' = w'.onLevel d' m' := by
  have hagain : (w.onLevel d m).onLevel d' m' = (w'.onLevel d m).onLevel d' m' := by rw [h]
  exact hagain

/-- What a result is on one level, it is on all. -/
theorem Result.Comes.of_agrees {r : Result Value} {outcome : Outcome} {w' w'' : World} {d m : Nat}
    (h : r.Agrees d m outcome w'') (hsame : outcome.SameWorld (w'.onLevel d m) w'') :
    r.Comes outcome w' := by
  intro d' m'
  cases r with
  | value v w₁ | fault f w₁ =>
      obtain ⟨rfl, rfl⟩ := h
      exact ⟨_, ⟨rfl, rfl⟩, World.onLevel_congr hsame d' m'⟩
  | trap t w₁ =>
      obtain ⟨rfl, d₁, rfl⟩ := h
      obtain ⟨d₂, hsame⟩ := hsame
      have hagain : (w₁.onLevel d₁ m).onLevel d' m' = (w'.onLevel d₂ m).onLevel d' m' := by
        rw [hsame]
        rfl
      exact ⟨_, ⟨rfl, d', rfl⟩, d', hagain⟩

namespace Attempt

variable {attempt attempt' : Nat → Attempt Value} {outcome : Outcome} {w w' : World}

/-- With enough time the attempt comes to this outcome. -/
def EndsAs (attempt : Nat → Attempt Value) (outcome : Outcome) (w' : World) : Prop :=
  ∃ r, (∃ time, attempt time = .finished r) ∧ r.Comes outcome w'

theorem SameEnds.endsAs_iff (h : SameEnds attempt attempt') :
    EndsAs attempt outcome w' ↔ EndsAs attempt' outcome w' :=
  exists_congr fun r => and_congr_left fun _ => h r

/-- A value is the outcome of an attempt that ends with it. -/
theorem EndsAs.exists_value {v : Value} (h : EndsAs attempt (.value v) w') :
    ∃ w₁, (∃ time, attempt time = .finished (.value v w₁)) ∧
      ∀ d m, w₁.onLevel d m = w'.onLevel d m := by
  obtain ⟨r, htime, hcomes⟩ := h
  cases r with
  | value v' w₁ =>
      obtain ⟨_, ⟨hv, -⟩, -⟩ := hcomes 0 0
      cases hv
      refine ⟨w₁, htime, fun d m => ?_⟩
      obtain ⟨w'', ⟨-, rfl⟩, hsame⟩ := hcomes d m
      exact hsame
  | fault f w₁ | trap t w₁ =>
      obtain ⟨_, ⟨hv, -⟩, -⟩ := hcomes 0 0
      cases hv

theorem EndsAs.of_value {v : Value} {w₁ : World}
    (h : ∃ time, attempt time = .finished (.value v w₁))
    (hsame : ∀ d m, w₁.onLevel d m = w'.onLevel d m) : EndsAs attempt (.value v) w' :=
  ⟨_, h, fun d m => ⟨_, ⟨rfl, rfl⟩, hsame d m⟩⟩

end Attempt

/-- The machine finishes what attempts come to, and nothing else. -/
theorem Evaluator.finishes_iff {x : Value} {scope : Ref .scope} {w w' : World} {outcome : Outcome} :
    Finishes x scope w outcome w' ↔
      Attempt.EndsAs (fun time => (within time).eval x scope w) outcome w' := by
  constructor
  · rintro ⟨enough, h⟩
    -- A limit that stops the evaluation is named in its outcome, so two limits do not both.
    have hfits : ∃ m, enough ≤ m ∧ ¬ (go (.eval x scope) [] (w.onLevel 0 m)).Deepens := by
      have hnamed : ∀ m, enough ≤ m → (go (.eval x scope) [] (w.onLevel 0 m)).Deepens →
          outcome = .fault (.failed (.tooDeep m)) := fun m hm hdeep => by
        obtain ⟨w₁, hends, -⟩ := h 0 m (by omega)
        obtain ⟨w₂, hfault⟩ := hdeep.ends
        exact (hends.unique hfault).1
      by_cases hdeep : (go (.eval x scope) [] (w.onLevel 0 enough)).Deepens
      · refine ⟨enough + 1, Nat.le_succ enough, fun hdeep' => ?_⟩
        have heq := (hnamed enough (Nat.le_refl _) hdeep).symm.trans
          (hnamed (enough + 1) (Nat.le_succ _) hdeep')
        simp at heq
      · exact ⟨enough, Nat.le_refl _, hdeep⟩
    obtain ⟨m, hm, hfits⟩ := hfits
    obtain ⟨w'', hends, hsame⟩ := h 0 m (by omega)
    obtain ⟨time, r, hattempt, hagrees⟩ :=
      (enacts_eval x scope w 0 m).exists_finished hfits hends
    exact ⟨r, ⟨time, hattempt⟩, .of_agrees hagrees hsame⟩
  · rintro ⟨r, ⟨time, hattempt⟩, hcomes⟩
    refine ⟨time + 1, fun d m hm => ?_⟩
    have hfollows := (followed_within time).nested (d := d) (m := m) scope [] w x (Nat.le_refl time)
    have harrives := hfollows.resolve_left fun hstops => Nat.not_lt_of_le hm hstops.1
    rw [show (within time).eval x scope w = .finished r from hattempt] at harrives
    obtain ⟨outcome', w₁, hends, hagrees⟩ := harrives.ends
    obtain ⟨w'', hagrees', hsame⟩ := hcomes d m
    obtain ⟨rfl, hworld⟩ := hagrees'.unique hagrees
    exact ⟨w₁, hends, hsame.trans hworld⟩

end Scheme
