import Scheme.Proofs.Agreement
import Scheme.Proofs.Evaluations
import Scheme.Proofs.InPlaceExpansion
/-!
# Single expansions

Expanding a call once does what evaluating the call does first, where the head of the call is
neither the name of a special form nor changes the operands. Evaluation then goes through the very
state in which the evaluation of the expansion begins.
-/

namespace Scheme

open Step

/-! ## Evaluations on other levels -/

theorem Step.ends_steps_iff {step : Step} {n : Nat} {outcome : Outcome} {w : World} :
    (step.steps n).Ends outcome w ↔ step.Ends outcome w := by
  constructor
  · rintro ⟨k, hrun⟩
    exact ⟨n + k, by rw [steps_add, hrun]⟩
  · rintro ⟨k, hrun⟩
    refine ⟨k, ?_⟩
    rw [← steps_add]
    exact steps_eq_done_of_le (Nat.le_add_left k n) hrun

namespace Evaluator

variable {x v : Value} {scope : Ref .scope} {w w₀ w₁ : World}

/-- An evaluation that ends with a value has it in direct style. -/
theorem exists_yields (h : (go (.eval x scope) [] w).Ends (.value v) w₁) :
    ∃ w₀, Yields x scope w v w₀ ∧ w₁ = w₀.onLevel w.depth w.maxDepth := by
  have henacts := enacts_eval x scope w w.depth w.maxDepth
  rw [World.onLevel_self] at henacts
  obtain ⟨time, r, hattempt, hagrees⟩ := henacts.exists_finished (h.fits ⟨by simp, by simp⟩) h
  cases r with
  | value v' w₀ =>
      obtain ⟨hv, hw⟩ := hagrees
      cases hv
      exact ⟨w₀, Settles.of_eq (fun time' => steady_eval x scope w time time') hattempt, hw⟩
  | fault f w₀ => cases hagrees.1
  | trap t w₀ => cases hagrees.1

/-- What an expression has in direct style the machine comes to, unless the limit stops it. -/
theorem Yields.comes (h : Yields x scope w v w₀) (stack : List Pending) (d m : Nat) :
    (go (.eval x scope) stack (w.onLevel d m)).Deepens ∨
      ∃ n, (go (.eval x scope) stack (w.onLevel d m)).steps n =
        go (.resume v) stack (w₀.onLevel d m) := by
  obtain ⟨least, hleast⟩ := h
  have hfollows := (followed_within least).nested scope stack w x (d := d) (m := m)
    (Nat.le_refl least)
  have hattempt : (within least).eval x scope w = _ := hleast least (Nat.le_refl least)
  rw [hattempt] at hfollows
  exact hfollows.imp And.right id

/-! ## The expansion of a call -/

variable {site : Ref .pair} {c : Ref .closure}

/-- An expansion is found in the place of its call. -/
theorem expand_value {self : Evaluator} {operands : Value}
    (h : self.expand site c operands w = .finished (.value v w₁)) : v = .pair site := by
  unfold expand at h
  simp only at h
  cases helements : World.elements operands w with
  | value arguments w' =>
      simp only [Attempt.of, helements, Attempt.andThen] at h
      split at h
      · injection h with h
        injection h with hv
        exact hv.symm
      all_goals cases h
  | fault f w' | trap t w' =>
      simp only [Attempt.of, helements, Attempt.andThen] at h
      cases h

theorem sameEnds_expandOnce (hhead : Yields (w.heap.pair site).first .global w (.transformer c) w₀)
    (hrest : (w₀.heap.pair site).rest = (w.heap.pair site).rest) :
    Attempt.SameEnds (fun time => (within time).expandOnce (.pair site) w)
      fun time => (within time).expand site c (w.heap.pair site).rest w₀ := by
  obtain ⟨least, hleast⟩ := hhead
  refine .of_eventually (fun _ _ hle => (within_le hle).expandOnce _ w)
    (fun _ _ hle => (within_le hle).expand site c _ w₀) least 0 fun time htime => ?_
  have hvalue : (within time).eval (w.heap.pair site).first .global w = _ := hleast time htime
  change Attempt.andThen ((within time).eval (w.heap.pair site).first .global w) _ = _
  rw [hvalue, ← hrest]
  rfl

/-- Evaluating a call of a transformer is expanding it, and evaluating what it expands to. -/
theorem eval_call (hhead : Yields (w.heap.pair site).first .global w (.transformer c) w₀)
    (hspecial : (w.heap.pair site).isSpecial = false) :
    ∃ least, ∀ time, least ≤ time → (within (time + 1)).eval (.pair site) .global w =
      ((within time).expand site c (w.heap.pair site).rest w₀).andThen fun x w =>
        (within time).eval x .global w := by
  obtain ⟨least, hleast⟩ := hhead
  refine ⟨least, fun time htime => ?_⟩
  have hvalue : (within time).eval (w.heap.pair site).first .global w = _ := hleast time htime
  have hreduce : (within (time + 1)).eval (.pair site) .global w =
      (within time).combination time site (w.heap.pair site).first (w.heap.pair site).rest .global
        w := by
    unfold Pair.isSpecial at hspecial
    cases hfirst : (w.heap.pair site).first with
    | symbol head =>
        have hnone : SpecialForm.ofSymbol? head = none := by simpa [hfirst] using hspecial
        simp only [within, reduce, hfirst, hnone]
    | _ => simp only [within, reduce, hfirst]
  rw [hreduce, combination, hvalue]
  rfl

end Evaluator

namespace Step

variable {site : Ref .pair} {c : Ref .closure} {w w₀ : World}

theorem depth_lt_of_fits {x : Value} {scope : Ref .scope} {stack : List Pending}
    (hfits : ¬ (go (.eval x scope) stack w).Deepens) : w.depth < w.maxDepth :=
  Nat.lt_of_not_le fun hle => hfits ⟨0, _, rfl, ⟨x, scope, rfl⟩, hle⟩

/-- Evaluating a call of a transformer leads to its expansion, one level deeper. -/
theorem steps_call (hfits : ¬ (go (.eval (.pair site) .global) [] w).Deepens)
    (hspecial : (w.heap.pair site).isSpecial = false)
    (hhead : Evaluator.Yields (w.heap.pair site).first .global w (.transformer c) w₀) :
    ∃ n, (go (.eval (.pair site) .global) [] w).steps n =
      expand site c (w.heap.pair site).rest (some .global) [.leave]
        (w₀.onLevel (w.depth + 1) w.maxDepth) := by
  have henter : (go (.eval (.pair site) .global) [] w).steps 1 =
      go (.reduce (.pair site) .global) [.leave] (w.onLevel (w.depth + 1) w.maxDepth) :=
    if_pos (depth_lt_of_fits hfits)
  have hoperator : (go (.eval (.pair site) .global) [] w).steps 2 =
      go (.eval (w.heap.pair site).first .global)
        [.operator site (w.heap.pair site).rest .global, .leave]
        (w.onLevel (w.depth + 1) w.maxDepth) := by
    rw [steps_succ', henter]
    exact reduce_call hspecial
  rcases hhead.comes [.operator site (w.heap.pair site).rest .global, .leave] (w.depth + 1)
    w.maxDepth with hdeep | ⟨n, hrun⟩
  · rw [← hoperator] at hdeep
    exact absurd hdeep.of_steps hfits
  · refine ⟨2 + n + 1, ?_⟩
    rw [steps_succ', steps_add, hoperator, hrun]
    rfl

/-- Evaluating a call of a transformer comes to what its expansion comes to. -/
theorem arrives_call (hfits : ¬ (go (.eval (.pair site) .global) [] w).Deepens)
    (hspecial : (w.heap.pair site).isSpecial = false)
    (hhead : Evaluator.Yields (w.heap.pair site).first .global w (.transformer c) w₀)
    {time : Nat} {r : Result Value}
    (hattempt : (Evaluator.within time).expand site c (w.heap.pair site).rest w₀ = .finished r) :
    ∃ n, ((go (.eval (.pair site) .global) [] w).steps n).Arrives time (w.depth + 1) w.maxDepth
      [.leave] (expanded (some .global) [.leave]) (.finished r) := by
  obtain ⟨n, hrun⟩ := steps_call hfits hspecial hhead
  refine ⟨n, ?_⟩
  have hfollows := (Evaluator.followed_within time).expand [.leave] w₀ site c
    (w.heap.pair site).rest (some .global) (d := w.depth + 1) (m := w.maxDepth) (Nat.le_refl time)
  rw [hattempt, ← hrun] at hfollows
  exact hfollows.resolve_left fun hstops => hfits hstops.2.of_steps

/-! ## Expansions and evaluations -/

section Transformer

variable {w₁ w' : World} {outcome : Outcome}
  (hhead : (go (.eval (w.heap.pair site).first .global) [] w).Ends (.value (.transformer c)) w₁)
  (hspecial : (w.heap.pair site).isSpecial = false)
  (hrest : (w₁.heap.pair site).rest = (w.heap.pair site).rest)
  (hexpands : ¬ (expandOnce (.pair site) [] w).Deepens)
  (hfits : ¬ (go (.eval (.pair site) .global) [] w).Deepens)

include hhead hspecial hrest hexpands hfits

/-- Each end of the expansion is one at which evaluation arrives. -/
theorem exists_arrival (hends : (expandOnce (.pair site) [] w).Ends outcome w') :
    ∃ n time r, r.Agrees w.depth w.maxDepth outcome w' ∧
      (∀ v w₂, r = .value v w₂ → v = .pair site) ∧
      ((go (.eval (.pair site) .global) [] w).steps n).Arrives time (w.depth + 1) w.maxDepth
        [.leave] (expanded (some .global) [.leave]) (.finished r) := by
  obtain ⟨w₀, hyields, rfl⟩ := Evaluator.exists_yields hhead
  have henacts := Evaluator.enacts_expandOnce (.pair site) w w.depth w.maxDepth
  rw [World.onLevel_self] at henacts
  obtain ⟨time, r, hattempt, hagrees⟩ := henacts.exists_finished hexpands hends
  obtain ⟨time', hattempt'⟩ :=
    (Evaluator.sameEnds_expandOnce hyields hrest r).1 ⟨time, hattempt⟩
  obtain ⟨n, harrives⟩ := arrives_call hfits hspecial hyields hattempt'
  refine ⟨n, time', r, hagrees, ?_, harrives⟩
  rintro v w₂ rfl
  exact Evaluator.expand_value hattempt'

/-- Evaluation goes through the state in which the evaluation of the expansion begins. -/
theorem passes_expansion {y : Value} (hends : (expandOnce (.pair site) [] w).Ends (.value y) w') :
    y = .pair site ∧ ∃ n, (go (.eval (.pair site) .global) [] w).steps n =
      (go (.eval y .global) [] w').steps 1 := by
  obtain ⟨n, time, r, hagrees, hvalue, harrives⟩ :=
    exists_arrival hhead hspecial hrest hexpands hfits hends
  cases r with
  | value v w₂ =>
      obtain ⟨hv, rfl⟩ := hagrees
      cases hv
      obtain rfl := hvalue y w₂ rfl
      obtain ⟨k, hrun⟩ := harrives
      have hbegins : (go (.eval (.pair site) .global) []
          (w₂.onLevel w.depth w.maxDepth)).steps 1 =
          go (.reduce (.pair site) .global) [.leave] (w₂.onLevel (w.depth + 1) w.maxDepth) :=
        if_pos (depth_lt_of_fits hfits)
      refine ⟨rfl, n + k, ?_⟩
      rw [steps_add, hrun, hbegins]
      rfl
  | fault f w₂ | trap t w₂ => cases hagrees.1

theorem fault_of_expansion {f : Fault}
    (hends : (expandOnce (.pair site) [] w).Ends (.fault f) w') :
    (go (.eval (.pair site) .global) [] w).Ends (.fault f) w' := by
  obtain ⟨n, time, r, hagrees, -, harrives⟩ :=
    exists_arrival hhead hspecial hrest hexpands hfits hends
  cases r with
  | fault f' w₂ =>
      obtain ⟨hf, rfl⟩ := hagrees
      cases hf
      obtain ⟨k, hrun⟩ := harrives
      exact ⟨n + k + 1 + 1, by rw [steps_succ', steps_succ', steps_add, hrun]; rfl⟩
  | value v w₂ | trap t w₂ => cases hagrees.1

theorem trap_of_expansion {t : Trap}
    (hends : (expandOnce (.pair site) [] w).Ends (.trap t) w') :
    ∃ d, (go (.eval (.pair site) .global) [] w).Ends (.trap t) (w'.onLevel d w.maxDepth) := by
  obtain ⟨n, time, r, hagrees, -, harrives⟩ :=
    exists_arrival hhead hspecial hrest hexpands hfits hends
  cases r with
  | trap t' w₂ =>
      obtain ⟨ht, d, rfl⟩ := hagrees
      cases ht
      obtain ⟨k, d', hrun⟩ := harrives
      exact ⟨d', n + k, by rw [steps_add, hrun]; rfl⟩
  | value v w₂ | fault f w₂ => cases hagrees.1

/-- Where evaluation comes to an end, the expansion has come to one. -/
theorem expansion_ends (hends : (go (.eval (.pair site) .global) [] w).Ends outcome w') :
    ∃ outcome' w'', (expandOnce (.pair site) [] w).Ends outcome' w'' := by
  obtain ⟨w₀, hyields, rfl⟩ := Evaluator.exists_yields hhead
  have hevaluates := Evaluator.enacts_eval (.pair site) .global w w.depth w.maxDepth
  have henacts := Evaluator.enacts_expandOnce (.pair site) w w.depth w.maxDepth
  rw [World.onLevel_self] at hevaluates henacts
  obtain ⟨time, r, hattempt, -⟩ := hevaluates.exists_finished hfits hends
  obtain ⟨least, hcall⟩ := Evaluator.eval_call hyields hspecial
  have hlater : (Evaluator.within (max least time + 1)).eval (.pair site) .global w =
      .finished r :=
    (Evaluator.steady_eval (.pair site) .global w time (max least time + 1) (by omega)).finished
      hattempt
  rw [hcall (max least time) (Nat.le_max_left least time)] at hlater
  -- An expansion out of time would leave the evaluation out of time.
  cases hexpand : (Evaluator.within (max least time)).expand site c (w.heap.pair site).rest w₀ with
  | outOfTime =>
      rw [hexpand] at hlater
      cases hlater
  | finished r' =>
      obtain ⟨time', hattempt'⟩ :=
        (Evaluator.sameEnds_expandOnce hyields hrest r').2 ⟨_, hexpand⟩
      obtain ⟨outcome', w'', hends', -⟩ := henacts.ends hexpands hattempt'
      exact ⟨outcome', w'', hends'⟩

end Transformer

/-- Expanding leaves alone what is not a call of a transformer, and has the faults of the head. A
call of a transformer it expands as evaluation does first: evaluation has the fault or the trap of
the expansion, and it goes on as the evaluation of the expansion does. The head is not the name of
a special form here, and leaves the operands as they are. -/
theorem single_expansion_agrees (x : Value) (w : World) :
    let expanding := expandOnce x [] w
    let evaluating := go (.eval x .global) [] w
    (x.isPair = false → expanding.Ends (.value x) w) ∧
    ∀ site, x = .pair site →
      let head := go (.eval (w.heap.pair site).first .global) [] w
      (∀ v w₁, head.Ends (.value v) w₁ → v.isTransformer = false →
        expanding.Ends (.value x) w₁) ∧
      (∀ f w₁, head.Ends (.fault f) w₁ → expanding.Ends (.fault f) w₁) ∧
      ∀ c w₁, head.Ends (.value (.transformer c)) w₁ → (w.heap.pair site).isSpecial = false →
        (w₁.heap.pair site).rest = (w.heap.pair site).rest →
        ¬ expanding.Deepens → ¬ evaluating.Deepens →
        (∀ y w', expanding.Ends (.value y) w' → y = x ∧
          (∃ n, evaluating.steps n = (go (.eval y .global) [] w').steps 1) ∧
          ∀ outcome w'', evaluating.Ends outcome w'' ↔
            (go (.eval y .global) [] w').Ends outcome w'') ∧
        (∀ f w', expanding.Ends (.fault f) w' → evaluating.Ends (.fault f) w') ∧
        (∀ t w', expanding.Ends (.trap t) w' →
          ∃ d, evaluating.Ends (.trap t) (w'.onLevel d w.maxDepth)) ∧
        ((∃ outcome w', evaluating.Ends outcome w') →
          ∃ outcome w', expanding.Ends outcome w') := by
  intro expanding evaluating
  refine ⟨fun hpair => ?_, ?_⟩
  · have hstart : expanding = go (.resume x) [] w := if_neg (by simp [hpair])
    exact ⟨1, by rw [hstart]; rfl⟩
  · rintro site rfl head
    have hstart : expanding =
        go (.eval (w.heap.pair site).first .global) [.expandingHead (.pair site)] w := rfl
    refine ⟨fun v w₁ hvalue hv => ?_, fun f w₁ hfault => ?_, ?_⟩
    · obtain ⟨n, hrun, -⟩ := hvalue.resumes [.expandingHead (.pair site)]
      refine ⟨n + 1 + 1, ?_⟩
      rw [steps_succ', steps_succ', hstart, hrun]
      cases v with
      | transformer => cases hv
      | _ => rfl
    · obtain ⟨n, hrun, -⟩ := hfault.unwinds [.expandingHead (.pair site)]
      exact ⟨n + 1 + 1, by rw [steps_succ', steps_succ', hstart, hrun]; rfl⟩
    · intro c w₁ hhead hspecial hrest hexpands hfits
      refine ⟨fun y w' hends => ?_,
        fun f w' hends => fault_of_expansion hhead hspecial hrest hexpands hfits hends,
        fun t w' hends => trap_of_expansion hhead hspecial hrest hexpands hfits hends,
        fun ⟨outcome, w', hends⟩ => expansion_ends hhead hspecial hrest hexpands hfits hends⟩
      obtain ⟨hy, n, hthrough⟩ := passes_expansion hhead hspecial hrest hexpands hfits hends
      refine ⟨hy, ⟨n, hthrough⟩, fun outcome w'' => ?_⟩
      rw [← ends_steps_iff (n := n), hthrough, ends_steps_iff]

/-- A call that expands to a branch is evaluated by evaluating that branch. -/
theorem single_expansion_of_call :
    let w := World.withCall
    let expanding := expandOnce (.pair ⟨0⟩) [] w
    let evaluating := go (.eval (.pair ⟨0⟩) .global) [] w
    ((w.heap.pair ⟨0⟩).isSpecial = false ∧ ¬ expanding.Deepens ∧ ¬ evaluating.Deepens ∧
      (go (.eval (w.heap.pair ⟨0⟩).first .global) [] w).Ends (.value (.transformer ⟨0⟩)) w) ∧
    ∃ w', expanding.Ends (.value (.pair ⟨0⟩)) w' ∧
      w'.heap.pair ⟨0⟩ = ⟨.symbol ⟨"if"⟩, .pair ⟨13⟩⟩ ∧
      (∃ n, evaluating.steps n = (go (.eval (.pair ⟨0⟩) .global) [] w').steps 1) ∧
      ∃ w'', (go (.eval (.pair ⟨0⟩) .global) [] w').Ends (.value (.boolean true)) w'' := by
  intro w expanding evaluating
  have hhead : (go (.eval (w.heap.pair ⟨0⟩).first .global) [] w).Ends
      (.value (.transformer ⟨0⟩)) w := ⟨4, rfl⟩
  have hexpansion : ∃ w', expanding.Ends (.value (.pair ⟨0⟩)) w' ∧
      w'.heap.pair ⟨0⟩ = ⟨.symbol ⟨"if"⟩, .pair ⟨13⟩⟩ := ⟨_, ⟨23, rfl⟩, rfl⟩
  have hevaluation : ∃ w'', evaluating.Ends (.value (.boolean true)) w'' :=
    exists_ends_of_hasStoppedWith (n := 54) (by decide +kernel)
  obtain ⟨w', hends, hcell⟩ := hexpansion
  obtain ⟨w'', hvalue⟩ := hevaluation
  have hexpands : ¬ expanding.Deepens := hends.fits ⟨by simp, by simp⟩
  have hfits : ¬ evaluating.Deepens := hvalue.fits ⟨by simp, by simp⟩
  obtain ⟨-, hpair⟩ := single_expansion_agrees (.pair ⟨0⟩) w
  obtain ⟨-, -, htransformer⟩ := hpair ⟨0⟩ rfl
  obtain ⟨hagrees, -⟩ := htransformer ⟨0⟩ w hhead rfl rfl hexpands hfits
  obtain ⟨-, hthrough, hsame⟩ := hagrees _ w' hends
  exact ⟨⟨rfl, hexpands, hfits, hhead⟩, w', hends, hcell, hthrough, w'', (hsame _ w'').1 hvalue⟩

end Step

/-- A world with the form `(if #t #f)` in pair 0 and with global variables, and with a transformer
of two operands that expands to the second. -/
def World.withBranch (globals : Std.TreeMap String Value) : World where
  heap :=
    { pairs := #[⟨.symbol ⟨"if"⟩, .pair ⟨1⟩⟩, ⟨.boolean true, .pair ⟨2⟩⟩, ⟨.boolean false, .nil⟩]
      scopes := #[⟨globals, none⟩]
      closures := #[⟨⟨[⟨"a"⟩, ⟨"b"⟩], none⟩, .symbol ⟨"b"⟩, .global, none⟩] }
  host := nowhere
  maxDepth := 3

/-- Expanding takes the name of a special form for a variable: it fails where there is no such
variable, and where the variable is a transformer it rewrites a form that evaluation would have
taken for a branch. -/
theorem Step.single_expansion_of_branch :
    let bare := World.withBranch {}
    let w := World.withBranch (.insert {} "if" (.transformer ⟨0⟩))
    ((bare.heap.pair ⟨0⟩).isSpecial = true ∧
      ∃ w', (expandOnce (.pair ⟨0⟩) [] bare).Ends (.fault (.failed (.unbound ⟨"if"⟩))) w') ∧
    (w.heap.pair ⟨0⟩).isSpecial = true ∧
    (∃ w', (expandOnce (.pair ⟨0⟩) [] w).Ends (.value (.pair ⟨0⟩)) w' ∧
      (w'.heap.pair ⟨0⟩).first = .symbol .begin) ∧
    (go (.eval (.pair ⟨0⟩) .global) [] w).Ends (.value (.boolean false)) w :=
  ⟨⟨rfl, _, 5, rfl⟩, rfl, ⟨_, ⟨9, rfl⟩, rfl⟩, ⟨9, rfl⟩⟩

end Scheme
