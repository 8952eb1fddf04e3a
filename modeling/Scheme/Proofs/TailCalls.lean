import Scheme.Proofs.Agreement
import Scheme.Proofs.InPlaceExpansion
/-!
# Tail calls

An expression in a tail position is reduced on the level of the form around it and above the same
work; only what has to be known first takes levels of its own. So closures that call each other in
tail position stay on one level, however often they do: the levels that are enough for each
iteration are enough for all of them.
-/

namespace Scheme

open Step

/-! ## Runs on other levels -/

/-- One run leads to the other. -/
def Step.Reaches (step step' : Step) : Prop :=
  ∃ n, step.steps n = step'

namespace Step.Reaches

variable {step step' step'' : Step}

theorem of_eq (h : step = step') : step.Reaches step' :=
  ⟨0, h⟩

theorem trans (h : step.Reaches step') (h' : step'.Reaches step'') : step.Reaches step'' := by
  obtain ⟨n, rfl⟩ := h
  obtain ⟨k, rfl⟩ := h'
  exact ⟨n + k, steps_add n k step⟩

theorem next {s : State} (h : s.step.Reaches step) : (Step.next s).Reaches step := by
  obtain ⟨n, hrun⟩ := h
  exact ⟨n + 1, hrun⟩

theorem ends (h : step.Reaches step') {outcome : Outcome} {w : World}
    (hends : step'.Ends outcome w) : step.Ends outcome w := by
  obtain ⟨n, rfl⟩ := h
  obtain ⟨k, hrun⟩ := hends
  exact ⟨n + k, by rw [steps_add, hrun]⟩

theorem ends_iff (h : step.Reaches step') {outcome : Outcome} {w : World} :
    step.Ends outcome w ↔ step'.Ends outcome w := by
  refine ⟨fun hends => ?_, h.ends⟩
  obtain ⟨n, rfl⟩ := h
  obtain ⟨k, hk⟩ := hends
  exact ⟨k, by rw [← steps_add, steps_eq_done_of_le (Nat.le_add_left k n) hk]⟩

end Step.Reaches

theorem State.Balanced.grounded {outside limit : Nat} {s : State} (hs : s.Balanced outside limit)
    (up : Nat) : s.Grounded up := by
  refine Or.inr fun stack hstack => ?_
  rw [hs.depth, hstack, levels]
  omega

/-- A run that the limit does not stop comes to the same end above other work and some levels
deeper, if the limit is higher by as much. -/
theorem Step.Ends.deeper {control : Control} {w w' : World} {outcome : Outcome}
    (h : (go control [] w).Ends outcome w') (hfits : ¬ (go control [] w).Deepens)
    (hw : w.depth ≤ w.maxDepth) (stack : List Pending) {up limit : Nat}
    (hlimit : w.maxDepth + up ≤ limit) :
    let run := go control stack (w.onLevel (w.depth + up) limit)
    let world := w'.onLevel (w'.depth + up) limit
    (∃ v, outcome = .value v ∧ run.Reaches (go (.resume v) stack world)) ∨
      (∃ f, outcome = .fault f ∧ run.Reaches (go (.unwind f) stack world)) ∨
      outcome.isTrap = true ∧ run.Reaches (.done outcome world) := by
  intro run world
  obtain ⟨n, hrun⟩ := h
  rcases exists_last hrun with hstart | ⟨k, s, hs, hdone⟩
  · cases hstart
  have hbalanced : State.Balanced w.depth w.maxDepth ⟨control, [], w⟩ := ⟨rfl, hw, rfl⟩
  have hlifted : run.steps k = .next (s.lifted stack up limit) :=
    State.steps_lifted hs (fun j s₁ _ hs₁ hdeep => hfits ⟨j, s₁, hs₁, hdeep⟩) hlimit stack
      fun j s₁ hs₁ => (hbalanced.steps hs₁).grounded up
  rcases State.done_cases hdone with htrap | ⟨v, hv, rfl⟩ | ⟨f, hf, rfl⟩
  · refine Or.inr (Or.inr ⟨htrap, k + 1, ?_⟩)
    have hmax : s.world.maxDepth + up ≤ limit := by
      rw [State.maxDepth_steps hs]
      exact hlimit
    have hstep := State.step_lifted (fun hdeep => hfits ⟨k, s, hs, hdeep⟩) hmax stack
      (Or.inr (State.not_final_of_trap hdone htrap)) ((hbalanced.steps hs).grounded up)
    rw [steps_succ', hlifted]
    exact hstep.trans (congrArg (Step.lifted stack up limit) hdone)
  · exact Or.inl ⟨v, hv, k, hlifted⟩
  · exact Or.inr (Or.inl ⟨f, hf, k, hlifted⟩)

/-- The expression has the value, and `k` evaluations one inside the other are enough for it. -/
def EvaluatesWithin (k : Nat) (x : Value) (scope : Ref .scope) (w : World) (v : Value)
    (w' : World) : Prop :=
  (go (.eval x scope) [] (w.onLevel 0 k)).Ends (.value v) (w'.onLevel 0 k)

/-- What is enough from the outermost level is enough above other levels. -/
theorem EvaluatesWithin.reaches {k : Nat} {x v : Value} {scope : Ref .scope} {w w' : World}
    (h : EvaluatesWithin k x scope w v w') {d m : Nat} (hm : d + k ≤ m) (stack : List Pending) :
    (go (.eval x scope) stack (w.onLevel d m)).Reaches (go (.resume v) stack (w'.onLevel d m)) := by
  have hlimit : (w.onLevel 0 k).maxDepth + d ≤ m := by
    rw [World.maxDepth_onLevel]
    omega
  have hdeeper := Ends.deeper h (h.fits ⟨by simp, by simp⟩) (Nat.zero_le _) stack hlimit
  simp only [World.depth_onLevel, Nat.zero_add, World.onLevel_onLevel] at hdeeper
  rcases hdeeper with ⟨v', hv, hreaches⟩ | ⟨f, hf, -⟩ | ⟨htrap, -⟩
  · cases hv
    exact hreaches
  · cases hf
  · cases htrap

/-! ## Tail positions -/

/-- An expression that is reduced in a scope. -/
structure Focus where
  form : Value
  scope : Ref .scope
  world : World

/-- Reduces the expression above some work, on a level and under a limit. -/
def Focus.reduce (f : Focus) (stack : List Pending) (d m : Nat) : Step :=
  go (.reduce f.form f.scope) stack (f.world.onLevel d m)

section Positions

variable (k : Nat) (scope : Ref .scope)

/-- The operands have the values, from left to right. -/
inductive OperandsWithin : Value → World → List Value → World → Prop where
  | nil {w : World} : OperandsWithin .nil w [] w
  | cons {ref : Ref .pair} {v : Value} {vs : List Value} {w w₁ w' : World}
      (hfirst : EvaluatesWithin k (w.heap.pair ref).first scope w v w₁)
      (hothers : OperandsWithin (w.heap.pair ref).rest w₁ vs w') :
      OperandsWithin (.pair ref) w (v :: vs) w'

/-- The forms of a body but the last one have been evaluated. -/
inductive LastForm : Value → World → Value → World → Prop where
  | last {body : Value} {w : World} (hrest : (w.heap.rest body).isPair = false) :
      LastForm body w (w.heap.first body) w
  | next {body v x : Value} {w w₁ w' : World} (hrest : (w.heap.rest body).isPair = true)
      (hfirst : EvaluatesWithin k (w.heap.first body) scope w v w₁)
      (hothers : LastForm (w₁.heap.rest body) w₁ x w') : LastForm body w x w'

/-- The first clause whose test holds, with the value of the test. -/
inductive ChosenClause : Value → World → Value → Value → World → Prop where
  | otherwise {ref : Ref .pair} {w : World}
      (htest : w.heap.first (w.heap.pair ref).first = .symbol .else_) :
      ChosenClause (.pair ref) w (w.heap.pair ref).first (.boolean true) w
  | chosen {ref : Ref .pair} {v : Value} {w w' : World}
      (helse : w.heap.first (w.heap.pair ref).first ≠ .symbol .else_)
      (htest : EvaluatesWithin k (w.heap.first (w.heap.pair ref).first) scope w v w')
      (htrue : v.isTrue = true) : ChosenClause (.pair ref) w (w.heap.pair ref).first v w'
  | skipped {ref : Ref .pair} {v clause result : Value} {w w₁ w' : World}
      (helse : w.heap.first (w.heap.pair ref).first ≠ .symbol .else_)
      (htest : EvaluatesWithin k (w.heap.first (w.heap.pair ref).first) scope w v w₁)
      (hfalse : v.isTrue = false)
      (hothers : ChosenClause (w.heap.pair ref).rest w₁ clause result w') :
      ChosenClause (.pair ref) w clause result w'

end Positions

/-- The second expression stands in a tail position of the first: it is the last form of a body, an
arm of a branch, the body of a clause, or what a call of a transformer expands to. -/
inductive Focus.Tail (k : Nat) : Focus → Focus → Prop where
  | sequence {site : Ref .pair} {scope : Ref .scope} {body x : Value} {w w' : World}
      (hcell : w.heap.pair site = ⟨.symbol .begin, body⟩) (hlast : LastForm k scope body w x w') :
      Tail k ⟨.pair site, scope, w⟩ ⟨x, scope, w'⟩
  | branch {site : Ref .pair} {scope : Ref .scope} {operands v : Value} {w w' : World}
      (hcell : w.heap.pair site = ⟨.symbol ⟨"if"⟩, operands⟩)
      (htest : EvaluatesWithin k (w.heap.first operands) scope w v w') :
      Tail k ⟨.pair site, scope, w⟩
        ⟨if v.isTrue then w'.heap.second operands else w'.heap.third operands, scope, w'⟩
  | clause {site : Ref .pair} {scope : Ref .scope} {all clause result x : Value} {w w₁ w' : World}
      (hcell : w.heap.pair site = ⟨.symbol ⟨"cond"⟩, all⟩)
      (hclause : ChosenClause k scope all w clause result w₁)
      (hbody : chosen clause result scope [] w₁ = go (.reduce x scope) [] w') :
      Tail k ⟨.pair site, scope, w⟩ ⟨x, scope, w'⟩
  | expansion {site : Ref .pair} {scope inner : Ref .scope} {c : Ref .closure} {vs : List Value}
      {v : Value} {w w₁ w₂ w₃ : World} (hspecial : (w.heap.pair site).isSpecial = false)
      (hhead : EvaluatesWithin k (w.heap.pair site).first scope w (.transformer c) w₁)
      (helements : World.elements (w.heap.pair site).rest w₁ = .value vs w₁)
      (henter : w₁.enter (w₁.heap.closure c).parameters vs (w₁.heap.closure c).scope = (inner, w₂))
      (hbody : EvaluatesWithin k (w₁.heap.closure c).body inner w₂ v w₃) :
      Tail k ⟨.pair site, scope, w⟩ ⟨.pair site, scope, Evaluator.spliced site c v w₃⟩

/-- The first expression calls a closure, and the second is the body of the closure. -/
inductive Focus.Calls (k : Nat) : Focus → Focus → Prop where
  | closure {site : Ref .pair} {scope inner : Ref .scope} {c : Ref .closure} {vs : List Value}
      {w w₁ w₂ w₃ : World} (hspecial : (w.heap.pair site).isSpecial = false)
      (hhead : EvaluatesWithin k (w.heap.pair site).first scope w (.closure c) w₁)
      (hoperands : OperandsWithin k scope (w.heap.pair site).rest w₁ vs w₂)
      (henter : w₂.enter (w₂.heap.closure c).parameters vs (w₂.heap.closure c).scope = (inner, w₃)) :
      Calls k ⟨.pair site, scope, w⟩ ⟨(w₂.heap.closure c).body, inner, w₃⟩

/-- So many calls in tail position lead from one expression to the other, where whatever has to be
known on the way takes no more than `k` evaluations one inside the other. -/
inductive Focus.Iterates (k : Nat) : Nat → Focus → Focus → Prop where
  | refl (f : Focus) : Iterates k 0 f f
  | tail {n : Nat} {f g f' : Focus} (htail : f.Tail k g) (hothers : Iterates k n g f') :
      Iterates k n f f'
  | call {n : Nat} {f g f' : Focus} (hcall : f.Calls k g) (hothers : Iterates k n g f') :
      Iterates k (n + 1) f f'

/-! ## The machine in tail positions -/

section Machine

variable {k d m : Nat} (hm : d + k ≤ m) (stack : List Pending)

include hm

theorem OperandsWithin.reaches {scope : Ref .scope} {rest : Value} {vs : List Value} {w w' : World}
    (h : OperandsWithin k scope rest w vs w') (procedure : Value) (evaluated : List Value)
    (all : Value) :
    (operands procedure evaluated rest all scope stack (w.onLevel d m)).Reaches
      (call procedure (evaluated.reverse ++ vs) stack (w'.onLevel d m)) := by
  induction h generalizing evaluated with
  | nil => exact .of_eq (by rw [List.append_nil]; rfl)
  | @cons ref v vs w w₁ w' hfirst _ ih =>
      refine (hfirst.reaches hm (.operand procedure evaluated _ all scope :: stack)).trans
        (Reaches.next ?_)
      have hnext := ih (v :: evaluated)
      rw [List.reverse_cons, List.append_assoc, List.singleton_append] at hnext
      exact hnext

theorem LastForm.reaches {scope : Ref .scope} {body x : Value} {w w' : World}
    (h : LastForm k scope body w x w') :
    (sequence body scope stack (w.onLevel d m)).Reaches
      (go (.reduce x scope) stack (w'.onLevel d m)) := by
  induction h with
  | last hrest => exact .of_eq (if_neg (by simp [hrest]))
  | @next body v x w w₁ w' hrest hfirst _ ih =>
      have hstart : sequence body scope stack (w.onLevel d m) =
          go (.eval (w.heap.first body) scope) (.sequence body scope :: stack) (w.onLevel d m) :=
        if_pos hrest
      rw [hstart]
      refine (hfirst.reaches hm _).trans (Reaches.next ?_)
      exact ih

theorem ChosenClause.reaches {scope : Ref .scope} {all clause result : Value} {w w' : World}
    (h : ChosenClause k scope all w clause result w') :
    (clauses all scope stack (w.onLevel d m)).Reaches
      (Step.chosen clause result scope stack (w'.onLevel d m)) := by
  induction h with
  | otherwise htest => exact .of_eq (if_pos htest)
  | @chosen ref v w w' helse htest htrue =>
      have hstart : clauses (.pair ref) scope stack (w.onLevel d m) = _ := if_neg helse
      rw [hstart]
      refine (htest.reaches hm _).trans (Reaches.next ?_)
      exact .of_eq (if_pos htrue)
  | @skipped ref v clause result w w₁ w' helse htest hfalse _ ih =>
      have hstart : clauses (.pair ref) scope stack (w.onLevel d m) = _ := if_neg helse
      rw [hstart]
      refine (htest.reaches hm _).trans (Reaches.next ?_)
      exact Reaches.trans (.of_eq (if_neg (by simp [hfalse]))) ih

/-- A combination gets to its head, which is evaluated on a level of its own. -/
theorem reaches_head {site : Ref .pair} {scope : Ref .scope} {v : Value} {w w₁ : World}
    (hspecial : (w.heap.pair site).isSpecial = false)
    (hhead : EvaluatesWithin k (w.heap.pair site).first scope w v w₁) :
    (Focus.reduce ⟨.pair site, scope, w⟩ stack d m).Reaches
      (resume v (.operator site (w.heap.pair site).rest scope :: stack) (w₁.onLevel d m)) := by
  have hstart : State.step ⟨.reduce (.pair site) scope, stack, w.onLevel d m⟩ = _ :=
    reduce_call hspecial
  refine Reaches.next ?_
  rw [hstart]
  exact (hhead.reaches hm _).trans (Reaches.next (.of_eq rfl))

/-- A call of what is not a transformer gets to its operands and then to the call. -/
theorem reaches_call {site : Ref .pair} {scope : Ref .scope} {v : Value} {vs : List Value}
    {w w₁ w₂ : World} (hspecial : (w.heap.pair site).isSpecial = false)
    (hhead : EvaluatesWithin k (w.heap.pair site).first scope w v w₁)
    (hv : v.isTransformer = false)
    (hoperands : OperandsWithin k scope (w.heap.pair site).rest w₁ vs w₂) :
    (Focus.reduce ⟨.pair site, scope, w⟩ stack d m).Reaches
      (call v vs stack (w₂.onLevel d m)) := by
  refine (reaches_head hm stack hspecial hhead).trans ?_
  have hcalls := hoperands.reaches hm stack v [] (w.heap.pair site).rest
  cases v with
  | transformer => cases hv
  | _ => exact hcalls

/-- An expression in a tail position is reduced on the same level, above the same work. -/
theorem Focus.Tail.reaches {f f' : Focus} (h : f.Tail k f') :
    (f.reduce stack d m).Reaches (f'.reduce stack d m) := by
  cases h with
  | @sequence site scope body x w w' hcell hlast =>
      refine Reaches.next (Reaches.trans (.of_eq ?_) (hlast.reaches hm stack))
      simp only [State.step, Step.reduce, World.heap_onLevel, hcell]
      rfl
  | @branch site scope operands v w w' hcell htest =>
      have hstart : State.step ⟨.reduce (.pair site) scope, stack, w.onLevel d m⟩ =
          go (.eval (w.heap.first operands) scope) (.branch operands scope :: stack)
            (w.onLevel d m) := by
        simp only [State.step, Step.reduce, World.heap_onLevel, hcell]
        rfl
      refine Reaches.next ?_
      rw [hstart]
      exact (htest.reaches hm _).trans (Reaches.next (.of_eq rfl))
  | @clause site scope all clause result x w w₁ w' hcell hclause hbody =>
      refine Reaches.next (Reaches.trans (.of_eq ?_) ((hclause.reaches hm stack).trans (.of_eq ?_)))
      · simp only [State.step, Step.reduce, World.heap_onLevel, hcell]
        rfl
      · rw [(plain_chosen scope clause result).place stack w₁ d m, hbody]
        rfl
  | @expansion site scope inner c vs v w w₁ w₂ w₃ hspecial hhead helements henter hbody =>
      refine (reaches_head hm stack hspecial hhead).trans ?_
      have hstart : expand site c (w.heap.pair site).rest (some scope) stack (w₁.onLevel d m) =
          go (.eval (w₁.heap.closure c).body inner) (.expansion site c (some scope) :: stack)
            (w₂.onLevel d m) := by
        have helements' := (World.plain_elements (w.heap.pair site).rest).onLevel w₁ d m
        rw [helements] at helements'
        simp only [expand, after, helements', Result.onLevel, World.heap_onLevel,
          World.enter_onLevel, henter]
      refine Reaches.trans (.of_eq hstart) ((hbody.reaches hm _).trans (Reaches.next (.of_eq ?_)))
      exact replace_onLevel site c (some scope) v stack w₃ d m

theorem Focus.Calls.reaches {f f' : Focus} (h : f.Calls k f') :
    (f.reduce stack d m).Reaches (f'.reduce stack d m) := by
  cases h with
  | @closure site scope inner c vs w w₁ w₂ w₃ hspecial hhead hoperands henter =>
      refine (reaches_call hm stack hspecial hhead rfl hoperands).trans (.of_eq ?_)
      simp only [call, World.heap_onLevel, World.enter_onLevel, henter]
      rfl

/-- However often closures call each other in tail position, the machine is on the same level and
above the same work at the start of each call. -/
theorem Focus.Iterates.reaches {n : Nat} {f f' : Focus} (h : Iterates k n f f') :
    (f.reduce stack d m).Reaches (f'.reduce stack d m) := by
  induction h with
  | refl f => exact .of_eq rfl
  | tail htail _ ih => exact (htail.reaches hm stack).trans ih
  | call hcall _ ih => exact (hcall.reaches hm stack).trans ih

end Machine

/-! ## Whole evaluations -/

/-- An evaluation goes one level deeper and reduces there. -/
theorem Focus.eval_reaches (f : Focus) (stack : List Pending) {d m : Nat} (hm : d < m) :
    (go (.eval f.form f.scope) stack (f.world.onLevel d m)).Reaches
      (f.reduce (.leave :: stack) (d + 1) m) :=
  Reaches.next (.of_eq (if_pos hm))

theorem Focus.Iterates.eval_reaches {k n : Nat} {f f' : Focus} (h : Iterates k n f f') :
    (go (.eval f.form f.scope) [] (f.world.onLevel 0 (k + 1))).Reaches
      (f'.reduce [.leave] 1 (k + 1)) :=
  (f.eval_reaches [] (Nat.succ_pos k)).trans (h.reaches (by omega) [.leave])

/-- What `k` levels are enough for after the last call, `k + 1` are enough for from the start. -/
theorem Focus.Iterates.ends {k n : Nat} {f f' : Focus} (h : Iterates k n f f') {outcome : Outcome}
    {w : World} (hfits : ¬ (f'.reduce [] 0 k).Deepens)
    (hends : (f'.reduce [] 0 k).Ends outcome w) :
    ∃ w', (go (.eval f.form f.scope) [] (f.world.onLevel 0 (k + 1))).Ends outcome w' ∧
      outcome.SameWorld (w.underLimit (k + 1)) w' := by
  have hlimit : (f'.world.onLevel 0 k).maxDepth + 1 ≤ k + 1 := Nat.le_refl _
  rcases Ends.deeper hends hfits (Nat.zero_le _) [.leave] hlimit with
    ⟨v, rfl, hreaches⟩ | ⟨u, rfl, hreaches⟩ | ⟨htrap, hreaches⟩
  · exact ⟨_, (h.eval_reaches.trans hreaches).ends ⟨2, rfl⟩, rfl⟩
  · exact ⟨_, (h.eval_reaches.trans hreaches).ends ⟨2, rfl⟩, rfl⟩
  · refine ⟨_, (h.eval_reaches.trans hreaches).ends ⟨0, rfl⟩, ?_⟩
    cases outcome with
    | trap t => exact ⟨w.depth + 1, rfl⟩
    | _ => cases htrap

end Scheme
