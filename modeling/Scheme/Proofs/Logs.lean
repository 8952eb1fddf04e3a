import Scheme.Proofs.DepthLimit
/-!
# Earlier entries of the log

A run adds to the log and never looks at it, so it goes the same way after other entries.
-/

namespace Scheme

open Step

/-- The same world after other entries in its log. -/
def World.logged (earlier : Array Entry) (w : World) : World :=
  { w with log := earlier ++ w.log }

def State.logged (earlier : Array Entry) (s : State) : State :=
  { s with world := s.world.logged earlier }

def Step.logged (earlier : Array Entry) : Step → Step
  | .next s => .next (s.logged earlier)
  | .done outcome w => .done outcome (w.logged earlier)

/-- Code for which the log does not matter, wherever the world is. -/
theorem Step.logged_of_elsewhere {code : List Pending → World → Step}
    (h : ∀ stack w d m l, code stack (w.elsewhere d m l) = ((code [] w).elsewhere d m l).onto stack)
    (stack : List Pending) (w : World) (earlier : Array Entry) :
    code stack (w.logged earlier) = (code stack w).logged earlier := by
  have hthere := h stack w w.depth w.maxDepth earlier
  have hhere := h stack w w.depth w.maxDepth #[]
  rw [World.elsewhere_self] at hhere
  rw [show w.logged earlier = w.elsewhere w.depth w.maxDepth earlier from rfl, hthere, hhere]
  cases code [] w with
  | next s => simp [Step.elsewhere, onto, logged, State.logged, World.logged, World.elsewhere]
  | done outcome w' => simp [Step.elsewhere, onto, logged, World.logged, World.elsewhere]

theorem World.PlainChange.logged {change : World → World} (h : World.PlainChange change)
    (w : World) (earlier : Array Entry) : change (w.logged earlier) = (change w).logged earlier := by
  have hthere := h.elsewhere w w.depth w.maxDepth earlier
  have hhere := h.elsewhere w w.depth w.maxDepth #[]
  rw [World.elsewhere_self] at hhere
  rw [show w.logged earlier = w.elsewhere w.depth w.maxDepth earlier from rfl, hthere, hhere]
  simp [World.logged, World.elsewhere]

theorem Step.resume_logged (v : Value) (p : Pending) (stack : List Pending) (w : World)
    (earlier : Array Entry) :
    resume v (p :: stack) (w.logged earlier) = (resume v (p :: stack) w).logged earlier := by
  by_cases hp : p.isPlain = true
  · exact logged_of_elsewhere (plain_resume v hp).elsewhere stack w earlier
  · cases p with
    | leave | catching k => rfl
    | answer => exact logged_of_elsewhere (uniform_printValue v).elsewhere stack w earlier
    | _ => simp [Pending.isPlain] at hp

theorem Step.unwind_logged (f : Fault) (p : Pending) (stack : List Pending) (w : World)
    (earlier : Array Entry) :
    unwind f (p :: stack) (w.logged earlier) = (unwind f (p :: stack) w).logged earlier := by
  by_cases hp : p.isPlain = true
  · rw [unwind_plain f hp, unwind_plain f hp, (plainChange_release p).logged]
    rfl
  · cases p with
    | leave => rfl
    | catching k =>
        cases f with
        | escape token =>
            by_cases htoken : token = ((w.deactivate k).heap.continuation k).token
            · have hhere : unwind (.escape token) (.catching k :: stack) w = _ := if_pos htoken
              have hthere : unwind (.escape token) (.catching k :: stack) (w.logged earlier) = _ :=
                if_pos htoken
              rw [hhere, hthere]
              rfl
            · have hhere : unwind (.escape token) (.catching k :: stack) w = _ := if_neg htoken
              have hthere : unwind (.escape token) (.catching k :: stack) (w.logged earlier) = _ :=
                if_neg htoken
              rw [hhere, hthere]
              rfl
        | _ => rfl
    | answer => exact logged_of_elsewhere (uniform_answered f).elsewhere stack w earlier
    | _ => simp [Pending.isPlain] at hp

/-- No step looks at the log. -/
theorem State.step_logged (s : State) (earlier : Array Entry) :
    (s.logged earlier).step = s.step.logged earlier := by
  obtain ⟨control, stack, w⟩ := s
  cases control with
  | eval x scope =>
      change Step.eval x scope stack (w.logged earlier) = (Step.eval x scope stack w).logged earlier
      by_cases hdepth : w.depth < w.maxDepth
      · have hhere : Step.eval x scope stack w = _ := if_pos hdepth
        have hthere : Step.eval x scope stack (w.logged earlier) = _ := if_pos hdepth
        exact hthere.trans (congrArg (Step.logged earlier) hhere).symm
      · have hhere : Step.eval x scope stack w = _ := if_neg hdepth
        have hthere : Step.eval x scope stack (w.logged earlier) = _ := if_neg hdepth
        rw [hhere, hthere]
        exact logged_of_elsewhere
          (Plain.answer (Action.Plain.fail (.tooDeep w.maxDepth))).elsewhere stack w earlier
  | reduce x scope => exact logged_of_elsewhere (plain_reduce scope x).elsewhere stack w earlier
  | apply procedure arguments =>
      exact logged_of_elsewhere (elsewhere_apply procedure arguments) stack w earlier
  | resume v =>
      cases stack with
      | nil => rfl
      | cons p stack => exact resume_logged v p stack w earlier
  | unwind f =>
      cases stack with
      | nil => rfl
      | cons p stack => exact unwind_logged f p stack w earlier
  | advance program last =>
      exact logged_of_elsewhere (plain_advance program last).elsewhere stack w earlier
  | prompt => exact logged_of_elsewhere uniform_prompt.elsewhere stack w earlier

theorem Step.steps_logged (step : Step) (earlier : Array Entry) (n : Nat) :
    (step.logged earlier).steps n = (step.steps n).logged earlier := by
  induction n generalizing step with
  | zero => rfl
  | succ n ih =>
      rw [steps_succ, steps_succ, ← ih]
      cases step with
      | next s => exact congrArg (steps n) (s.step_logged earlier)
      | done outcome w => rfl

end Scheme
