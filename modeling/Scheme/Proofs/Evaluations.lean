import Scheme.Proofs.MoreTime
/-!
# Evaluations that come to a value

The values of expressions in direct style, given enough time, with a rule for each form. A rule
names the cells in which it finds the form.
-/

namespace Scheme

open Attempt

/-- With enough time the attempt has the value. -/
def Settles {α : Type} (attempt : Nat → Attempt α) (a : α) (w : World) : Prop :=
  ∃ least, ∀ time, least ≤ time → attempt time = .finished (.value a w)

namespace Settles

variable {α β : Type} {attempt attempt' : Nat → Attempt α} {a : α} {b : β} {w w' : World}

theorem at_once (a : α) (w : World) : Settles (fun _ => answer a w) a w :=
  ⟨0, fun _ _ => rfl⟩

theorem action {action : Action α} (h : action w = .value a w') :
    Settles (fun _ => of action w) a w' :=
  ⟨0, fun _ _ => congrArg _ h⟩

theorem andThen {use : Nat → α → World → Attempt β} (h : Settles attempt a w)
    (huse : Settles (fun time => use time a w) b w') :
    Settles (fun time => (attempt time).andThen (use time)) b w' := by
  obtain ⟨least, hleast⟩ := h
  obtain ⟨least', hleast'⟩ := huse
  refine ⟨max least least', fun time htime => ?_⟩
  simp only [hleast time (by omega)]
  exact hleast' time (by omega)

/-- What settles from the second moment on settles. -/
theorem later (h : Settles (fun time => attempt (time + 1)) a w) : Settles attempt a w := by
  obtain ⟨least, hleast⟩ := h
  refine ⟨least + 1, fun time htime => ?_⟩
  obtain ⟨time, rfl⟩ : ∃ n, time = n + 1 := ⟨time - 1, by omega⟩
  exact hleast time (by omega)

theorem shift (h : Settles attempt a w) : Settles (fun time => attempt (time + 1)) a w := by
  obtain ⟨least, hleast⟩ := h
  exact ⟨least, fun time htime => hleast (time + 1) (by omega)⟩

theorem mono (h : Settles attempt a w) (hle : ∀ time, (attempt time).Le (attempt' time)) :
    Settles attempt' a w := by
  obtain ⟨least, hleast⟩ := h
  exact ⟨least, fun time htime => (hle time).finished (hleast time htime)⟩

theorem unique {a' : α} (h : Settles attempt a w) (h' : Settles attempt a' w') :
    a = a' ∧ w = w' := by
  obtain ⟨least, hleast⟩ := h
  obtain ⟨least', hleast'⟩ := h'
  have heq := (hleast (max least least') (by omega)).symm.trans
    (hleast' (max least least') (by omega))
  cases heq
  exact ⟨rfl, rfl⟩

/-- An attempt that keeps its end settles if it ends once. -/
theorem of_eq {time : Nat} (hsteady : ∀ time', time ≤ time' → (attempt time).Le (attempt time'))
    (h : attempt time = .finished (.value a w)) : Settles attempt a w :=
  ⟨time, fun time' htime => (hsteady time' htime).finished h⟩

/-- Where two attempts in a row settle, both do. -/
theorem of_andThen {use : Nat → α → World → Attempt β}
    (hsteady : ∀ time time', time ≤ time' → (attempt time).Le (attempt time'))
    (h : Settles (fun time => (attempt time).andThen (use time)) b w') :
    ∃ a w, Settles attempt a w ∧ Settles (fun time => use time a w) b w' := by
  obtain ⟨least, hleast⟩ := h
  have hfirst := hleast least (Nat.le_refl least)
  cases hattempt : attempt least with
  | outOfTime =>
      simp only [hattempt] at hfirst
      cases hfirst
  | finished r =>
      cases r with
      | fault f w₁ | trap t w₁ =>
          simp only [hattempt] at hfirst
          cases hfirst
      | value a w₁ =>
          have hsettles := of_eq (fun time' => hsteady least time') hattempt
          refine ⟨a, w₁, hsettles, least, fun time htime => ?_⟩
          have hnow := hleast time htime
          simp only [(hsteady least time htime).finished hattempt] at hnow
          exact hnow

end Settles

/-- A value that is its own value as an expression. -/
def Value.isSelfEvaluating : Value → Bool
  | .symbol _ | .pair _ => false
  | _ => true

/-- A value that a call applies to evaluated operands. -/
def Value.isTransformer : Value → Bool
  | .transformer _ => true
  | _ => false

namespace Evaluator

/-- In direct style the expression has the value. -/
def Yields (x : Value) (scope : Ref .scope) (w : World) (v : Value) (w' : World) : Prop :=
  Settles (fun time => (within time).eval x scope w) v w'

/-- In direct style the operands have the values, from left to right. -/
def OperandsYield (rest all : Value) (scope : Ref .scope) (w : World) (vs : List Value)
    (w' : World) : Prop :=
  Settles (fun time => (within time).operands time rest all scope w) vs w'

/-- In direct style the forms of the body have the value of the last one. -/
def BodyYields (body : Value) (scope : Ref .scope) (w : World) (v : Value) (w' : World) : Prop :=
  Settles (fun time => (within time).sequence time body scope w) v w'

/-- In direct style the clauses have the value. -/
def ClausesYield (clauses : Value) (scope : Ref .scope) (w : World) (v : Value) (w' : World) :
    Prop :=
  Settles (fun time => (within time).clauses time clauses scope w) v w'

/-- In direct style the call has the value. -/
def CallYields (procedure : Value) (arguments : List Value) (w : World) (v : Value) (w' : World) :
    Prop :=
  Settles (fun time => (within time).call procedure arguments w) v w'

variable {x v v' : Value} {scope : Ref .scope} {w w₁ w₂ w₃ w' : World} {site : Ref .pair}
  {rest all : Value} {vs : List Value} {s : Symbol}

theorem Yields.unique {w'' : World} (h : Yields x scope w v w') (h' : Yields x scope w v' w'') :
    v = v' ∧ w' = w'' :=
  Settles.unique h h'

theorem Yields.of_reduce (h : Settles (fun time => (within time).reduce time x scope w) v w') :
    Yields x scope w v w' :=
  Settles.later h

/-! ## Atoms and special forms -/

theorem Yields.variable {owner : Ref .scope} (h : w.heap.locate? s scope = some (owner, v)) :
    Yields (.symbol s) scope w v w :=
  .of_reduce (Settles.action (by simp only [World.lookup, h]))

theorem Yields.selfEvaluating (h : x.isSelfEvaluating = true) : Yields x scope w x w := by
  refine .of_reduce ?_
  cases x with
  | symbol | pair => cases h
  | _ => exact Settles.at_once _ w

theorem Yields.special {form : SpecialForm} (hcell : w.heap.pair site = ⟨.symbol s, rest⟩)
    (hs : SpecialForm.ofSymbol? s = some form)
    (h : Settles (fun time => (within time).special time form rest scope w) v w') :
    Yields (.pair site) scope w v w' := by
  refine .of_reduce ?_
  simpa only [reduce, hcell, hs] using h

theorem Yields.quotation (hcell : w.heap.pair site = ⟨.symbol .quote, rest⟩) :
    Yields (.pair site) scope w (w.heap.first rest) w :=
  .special hcell rfl (Settles.at_once _ w)

theorem Yields.branch (hcell : w.heap.pair site = ⟨.symbol ⟨"if"⟩, rest⟩)
    (htest : Yields (w.heap.first rest) scope w v w₁)
    (harm : Yields (if v.isTrue then w₁.heap.second rest else w₁.heap.third rest) scope w₁ v' w') :
    Yields (.pair site) scope w v' w' :=
  .special hcell rfl (htest.andThen harm)

theorem Yields.sequence (hcell : w.heap.pair site = ⟨.symbol .begin, rest⟩)
    (h : BodyYields rest scope w v w') : Yields (.pair site) scope w v w' :=
  .special hcell rfl h

theorem Yields.clauses (hcell : w.heap.pair site = ⟨.symbol ⟨"cond"⟩, rest⟩)
    (h : ClausesYield rest scope w v w') : Yields (.pair site) scope w v w' :=
  .special hcell rfl h

theorem Yields.assignment {owner : Ref .scope} {old : Value}
    (hcell : w.heap.pair site = ⟨.symbol ⟨"set!"⟩, rest⟩)
    (hname : w.heap.first rest = .symbol s) (h : Yields (w.heap.second rest) scope w v w₁)
    (howner : w₁.heap.locate? s scope = some (owner, old)) :
    Yields (.pair site) scope w v { w₁ with heap := w₁.heap.bind owner s v } := by
  have hsymbol : World.symbol (w.heap.first rest) w = .value s w := by
    rw [hname]
    rfl
  exact .special hcell rfl (Settles.andThen (Settles.action hsymbol)
    (Settles.andThen h (Settles.action (by simp only [World.assign, howner]))))

/-- A definition of a procedure gives its name to a new closure. -/
theorem Yields.procedureDefinition {target : Ref .pair} {parameters : Value} {c : Ref .closure}
    (hcell : w.heap.pair site = ⟨.symbol ⟨"define"⟩, rest⟩)
    (htarget : w.heap.first rest = .pair target)
    (hname : w.heap.pair target = ⟨.symbol s, parameters⟩)
    (hclosure : Step.abstraction parameters (w.heap.rest rest) scope w = .value c w₁) :
    Yields (.pair site) scope w (.symbol s)
      { w₁ with heap := w₁.heap.define scope s (.closure c) } := by
  have hsymbol : World.symbol (w.heap.first (.pair target)) w = .value s w := by
    simp only [Heap.first, hname]
    rfl
  have hparameters : w.heap.rest (.pair target) = parameters := by simp only [Heap.rest, hname]
  refine .special hcell rfl ?_
  simp only [Evaluator.special, Evaluator.definition, htarget, Value.isPair, if_true, hparameters]
  exact Settles.andThen (Settles.action hsymbol)
    (Settles.andThen (Settles.action hclosure) (Settles.at_once _ _))

/-! ## Bodies and clauses -/

theorem BodyYields.last (hrest : (w.heap.rest rest).isPair = false)
    (h : Yields (w.heap.first rest) scope w v w') : BodyYields rest scope w v w' := by
  refine Settles.later ?_
  simpa only [Evaluator.sequence, hrest, Bool.false_eq_true, if_false] using h.shift

theorem BodyYields.next (hrest : (w.heap.rest rest).isPair = true)
    (hfirst : Yields (w.heap.first rest) scope w v w₁)
    (hothers : BodyYields (w₁.heap.rest rest) scope w₁ v' w') : BodyYields rest scope w v' w' := by
  refine Settles.later ?_
  simp only [Evaluator.sequence, hrest, if_true]
  exact Settles.andThen hfirst.shift (hothers.mono fun time =>
    (within_le (Nat.le_succ time)).sequence (Nat.le_refl time) _ _ _)

/-- A clause whose test is true and whose body is not a receiver stands for its body. -/
theorem settles_chosen {clause body : Ref .pair} {result : Value}
    (hbody : w.heap.rest (.pair clause) = .pair body)
    (harrow : (w.heap.pair body).first ≠ .symbol .arrow)
    (h : Yields (w.heap.cons (.symbol .begin) (.pair body)).1 scope
      { w with heap := (w.heap.cons (.symbol .begin) (.pair body)).2 } v w') :
    Settles (fun time => (within time).chosen (.pair clause) result scope w) v w' := by
  simp only [Evaluator.chosen, hbody, Value.isNil, Bool.false_eq_true, if_false, Heap.first,
    if_neg harrow]
  exact h

theorem ClausesYield.otherwise {ref clause body : Ref .pair} {others : Value}
    (hcell : w.heap.pair ref = ⟨.pair clause, others⟩)
    (htest : w.heap.pair clause = ⟨.symbol .else_, .pair body⟩)
    (harrow : (w.heap.pair body).first ≠ .symbol .arrow)
    (h : Yields (w.heap.cons (.symbol .begin) (.pair body)).1 scope
      { w with heap := (w.heap.cons (.symbol .begin) (.pair body)).2 } v w') :
    ClausesYield (.pair ref) scope w v w' := by
  refine Settles.later ?_
  simp only [Evaluator.clauses, hcell, Heap.first, htest, if_true]
  exact (settles_chosen (by simp only [Heap.rest, htest]) harrow h).shift

theorem ClausesYield.chosen {ref clause body : Ref .pair} {others : Value}
    (hcell : w.heap.pair ref = ⟨.pair clause, others⟩)
    (helse : (w.heap.pair clause).first ≠ .symbol .else_)
    (htest : Yields (w.heap.pair clause).first scope w v w₁) (htrue : v.isTrue = true)
    (hbody : (w₁.heap.pair clause).rest = .pair body)
    (harrow : (w₁.heap.pair body).first ≠ .symbol .arrow)
    (h : Yields (w₁.heap.cons (.symbol .begin) (.pair body)).1 scope
      { w₁ with heap := (w₁.heap.cons (.symbol .begin) (.pair body)).2 } v' w') :
    ClausesYield (.pair ref) scope w v' w' := by
  refine Settles.later ?_
  simp only [Evaluator.clauses, hcell, Heap.first, if_neg helse]
  refine Settles.andThen htest.shift ?_
  simp only [htrue, if_true]
  exact (settles_chosen hbody harrow h).shift

theorem ClausesYield.skipped {ref clause : Ref .pair} {others : Value}
    (hcell : w.heap.pair ref = ⟨.pair clause, others⟩)
    (helse : (w.heap.pair clause).first ≠ .symbol .else_)
    (htest : Yields (w.heap.pair clause).first scope w v w₁) (hfalse : v.isTrue = false)
    (h : ClausesYield others scope w₁ v' w') : ClausesYield (.pair ref) scope w v' w' := by
  refine Settles.later ?_
  simp only [Evaluator.clauses, hcell, Heap.first, if_neg helse]
  refine Settles.andThen htest.shift ?_
  simp only [hfalse, Bool.false_eq_true, if_false]
  exact h.mono fun time => (within_le (Nat.le_succ time)).clauses (Nat.le_refl time) _ _ _

/-! ## Calls -/

theorem OperandsYield.nil (all : Value) (scope : Ref .scope) (w : World) :
    OperandsYield .nil all scope w [] w :=
  Settles.later (Settles.at_once [] w)

theorem OperandsYield.cons {ref : Ref .pair} (hcell : w.heap.pair ref = ⟨x, rest⟩)
    (hfirst : Yields x scope w v w₁) (hothers : OperandsYield rest all scope w₁ vs w') :
    OperandsYield (.pair ref) all scope w (v :: vs) w' := by
  refine Settles.later ?_
  simp only [Evaluator.operands, hcell]
  refine Settles.andThen hfirst.shift (Settles.andThen (hothers.mono fun time => ?_)
    (Settles.at_once _ _))
  exact (within_le (Nat.le_succ time)).operands (Nat.le_refl time) _ _ _ _

/-- A combination that is headed by a name of no special form evaluates that name. -/
theorem combination_eq (hcell : w.heap.pair site = ⟨.symbol s, rest⟩)
    (hs : SpecialForm.ofSymbol? s = none) (time : Nat) :
    (within time).reduce time (.pair site) scope w =
      (within time).combination time site (.symbol s) rest scope w := by
  simp only [reduce, hcell, hs]

theorem Yields.call {procedure : Value} (hcell : w.heap.pair site = ⟨.symbol s, rest⟩)
    (hs : SpecialForm.ofSymbol? s = none) (hprocedure : Yields (.symbol s) scope w procedure w₁)
    (hplain : procedure.isTransformer = false) (hoperands : OperandsYield rest rest scope w₁ vs w₂)
    (h : CallYields procedure vs w₂ v w') : Yields (.pair site) scope w v w' := by
  refine .of_reduce ?_
  simp only [combination_eq hcell hs]
  refine Settles.andThen hprocedure ?_
  cases procedure with
  | transformer => cases hplain
  | _ => exact Settles.andThen hoperands h

/-- What a call of a procedure that is not a transformer comes to, its operands have come to. -/
theorem Yields.exists_operands {procedure : Value} (hcell : w.heap.pair site = ⟨.symbol s, rest⟩)
    (hs : SpecialForm.ofSymbol? s = none) (hprocedure : Yields (.symbol s) scope w procedure w₁)
    (hplain : procedure.isTransformer = false) (h : Yields (.pair site) scope w v w') :
    ∃ vs w₂, OperandsYield rest rest scope w₁ vs w₂ ∧ CallYields procedure vs w₂ v w' := by
  have hcombination : Settles (fun time =>
      ((within time).operands time rest rest scope w₁).andThen fun arguments w =>
        (within time).call procedure arguments w) v w' := by
    obtain ⟨least, hleast⟩ := h
    obtain ⟨least', hleast'⟩ := hprocedure
    refine ⟨max least least', fun time htime => ?_⟩
    have hnow : (within time).combination time site (.symbol s) rest scope w = _ :=
      (combination_eq hcell hs time).symm.trans (hleast (time + 1) (by omega))
    have hoperator : (within time).eval (.symbol s) scope w = _ := hleast' time (by omega)
    rw [Evaluator.combination, hoperator] at hnow
    cases procedure with
    | transformer => cases hplain
    | _ => exact hnow
  exact hcombination.of_andThen fun time time' hle => (within_le hle).operands hle _ _ _ _

theorem CallYields.closure {c : Ref .closure} {inner : Ref .scope}
    (henter : w.enter (w.heap.closure c).parameters vs (w.heap.closure c).scope = (inner, w₁))
    (h : Yields (w.heap.closure c).body inner w₁ v w') : CallYields (.closure c) vs w v w' := by
  simp only [CallYields, Evaluator.call, henter]
  exact h

theorem CallYields.primitive {p : Primitive}
    (hcount : Step.checkCount p vs w = .value () w)
    (h : Settles (fun time => match p.operation with
      | .direct operation => of (operation.perform vs) w
      | .control operation => (within time).control time operation vs w) v w') :
    CallYields (.primitive p) vs w v w' :=
  Settles.later (Settles.andThen (Settles.action hcount) h)

theorem CallYields.direct {p : Primitive} {operation : DirectOperation}
    (hcount : Step.checkCount p vs w = .value () w) (hp : p.operation = .direct operation)
    (h : operation.perform vs w = .value v w') : CallYields (.primitive p) vs w v w' :=
  .primitive hcount (by simp only [hp]; exact Settles.action h)

/-! ## Expansions -/

/-- The body of a transformer runs on the operands of a call, and what comes of it takes the place of
the call. -/
theorem settles_expand {c : Ref .closure} {inner : Ref .scope}
    (helements : World.elements rest w = .value vs w)
    (henter : w.enter (w.heap.closure c).parameters vs (w.heap.closure c).scope = (inner, w₁))
    (hbody : Yields (w.heap.closure c).body inner w₁ x w₂) :
    Settles (fun time => (within time).expand site c rest w) (.pair site) (spliced site c x w₂) := by
  refine Settles.andThen (Settles.action helements) ?_
  simp only [henter]
  exact Settles.andThen hbody (Settles.at_once _ _)

/-- A call of a transformer has the value of its expansion in its place. -/
theorem Yields.expansion {c : Ref .closure} {inner : Ref .scope}
    (hcell : w.heap.pair site = ⟨.symbol s, rest⟩) (hs : SpecialForm.ofSymbol? s = none)
    (htransformer : Yields (.symbol s) scope w (.transformer c) w)
    (helements : World.elements rest w = .value vs w)
    (henter : w.enter (w.heap.closure c).parameters vs (w.heap.closure c).scope = (inner, w₁))
    (hbody : Yields (w.heap.closure c).body inner w₁ x w₂)
    (h : Yields (.pair site) scope (spliced site c x w₂) v w') : Yields (.pair site) scope w v w' := by
  refine .of_reduce ?_
  simp only [combination_eq hcell hs]
  exact Settles.andThen htransformer (Settles.andThen (settles_expand helements henter hbody) h)

end Evaluator

end Scheme
