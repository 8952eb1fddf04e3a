import Scheme.Proofs.Loops
import Scheme.Proofs.ShortCircuits
/-!
# Procedures that can call themselves

Code that binds a name to a procedure in a scope of its own and calls the procedure there. What the
call comes to is said in terms of the expressions in it: the operands in turn, and after them the
forms of the body in a row. For that their evaluation has to leave the pairs of the code as they
are, which is put as a condition on worlds that each evaluation keeps up.
-/

namespace Scheme

open Evaluator Attempt
open Step (Finishes go)

/-! ## Expressions one after the other -/

namespace Evaluator

/-- The values of expressions, from left to right. -/
def inTurn (self : Evaluator) (scope : Ref .scope) : List Value → World → Attempt (List Value)
  | [], w => answer [] w
  | x :: xs, w => (self.eval x scope w).andThen fun v w =>
    (inTurn self scope xs w).andThen fun vs w => answer (v :: vs) w

/-- Expressions in a row; the last one has the value, and that of none is the empty list. -/
def inSequence (self : Evaluator) (scope : Ref .scope) : List Value → World → Attempt Value
  | [], w => answer .nil w
  | [x], w => self.eval x scope w
  | x :: y :: xs, w => (self.eval x scope w).andThen fun _ w => inSequence self scope (y :: xs) w

namespace Le

variable {evaluator evaluator' : Evaluator} (h : evaluator.Le evaluator')

include h

theorem inTurn (scope : Ref .scope) (xs : List Value) (w : World) :
    (evaluator.inTurn scope xs w).Le (evaluator'.inTurn scope xs w) := by
  induction xs generalizing w with
  | nil => exact .refl _
  | cons x xs ih =>
      exact (h.eval x scope w).andThen fun _ w => (ih w).andThen fun _ _ => .refl _

theorem inSequence (scope : Ref .scope) (xs : List Value) (w : World) :
    (evaluator.inSequence scope xs w).Le (evaluator'.inSequence scope xs w) := by
  induction xs generalizing w with
  | nil => exact .refl _
  | cons x xs ih =>
      cases xs with
      | nil => exact h.eval x scope w
      | cons y ys => exact (h.eval x scope w).andThen fun _ w => ih w

end Le

end Evaluator

/-- The attempts that come after each other are the same where they come to values. -/
theorem Attempt.andThen_congr {α β : Type} {attempt : Attempt α} {use use' : α → World → Attempt β}
    (h : ∀ a w, attempt = .finished (.value a w) → use a w = use' a w) :
    attempt.andThen use = attempt.andThen use' := by
  cases attempt with
  | finished r =>
      cases r with
      | value a w => exact h a w rfl
      | fault | trap => rfl
  | outOfTime => rfl

/-- What comes to a value in some time finishes with it. -/
theorem Evaluator.finishes_of_eval {time : Nat} {x v : Value} {scope : Ref .scope} {w w' : World}
    (hvalue : (within time).eval x scope w = .finished (.value v w')) :
    Finishes x scope w (.value v) w' :=
  finishes_iff.2 (.of_value ⟨time, hvalue⟩ fun _ _ => rfl)

/-- What finishes finishes as in direct style, on some level. -/
theorem Evaluator.Yields.of_finishes {x v v' : Value} {scope : Ref .scope} {w w' w'' : World}
    (h : Yields x scope w v w') (hends : Finishes x scope w (.value v') w'') :
    v' = v ∧ ∃ d m, w'' = w'.onLevel d m := by
  obtain ⟨enough, hvalue⟩ := h.finishes
  obtain ⟨enough', hvalue'⟩ := hends
  obtain ⟨_, hend, rfl⟩ := hvalue 0 (enough + enough') (by omega)
  obtain ⟨_, hend', rfl⟩ := hvalue' 0 (enough + enough') (by omega)
  obtain ⟨hv, hw⟩ := hend'.unique hend
  refine ⟨Outcome.value.inj hv, w''.depth, w''.maxDepth, ?_⟩
  calc w'' = w''.onLevel w''.depth w''.maxDepth := (World.onLevel_self w'').symm
    _ = w'.onLevel w''.depth w''.maxDepth := World.onLevel_congr hw _ _

/-! ## Conditions that evaluations keep up -/

/-- The pair has these fields in the heap. -/
abbrev Heap.HasPair (h : Heap) (r : Ref .pair) (p : Pair) : Prop :=
  h.pairs[r.index]? = some p

/-- A condition on worlds, for each scope in which expressions are evaluated. -/
abbrev Condition := Ref .scope → World → Prop

namespace Condition

/-- The condition holds after an evaluation of the expression if it held before. -/
def Keeps (I : Condition) (x : Value) : Prop :=
  ∀ scope w v w', I scope w → Finishes x scope w (.value v) w' → I scope w'

/-- The pair is the same in all worlds of the condition. -/
def Fixes (I : Condition) (r : Ref .pair) (p : Pair) : Prop :=
  ∀ scope w, I scope w → w.heap.pairs[r.index]? = some p

/-- The condition holds before each of the expressions, as they are evaluated from left to right, and
after the last one, where what is asked of the values holds, too. -/
def Along (I : Condition) (scope : Ref .scope) :
    List Value → (List Value → World → Prop) → World → Prop
  | [], next, w => I scope w ∧ next [] w
  | x :: xs, next, w => I scope w ∧ ∀ v w', Finishes x scope w (.value v) w' →
      Along I scope xs (fun vs w => next (v :: vs) w) w'

/-- All pairs of the heap are as they are there. -/
def pairsOf (h : Heap) : Condition :=
  fun _ w => ∀ r p, h.HasPair r p → w.heap.HasPair r p

theorem fixes_pairsOf {h : Heap} {r : Ref .pair} {p : Pair} (hr : h.HasPair r p) :
    (pairsOf h).Fixes r p :=
  fun _ _ hI => hI r p hr

variable {I : Condition} {x v : Value} {xs vs : List Value} {scope : Ref .scope} {w w' : World}
  {time : Nat} {next : List Value → World → Prop}

theorem Along.holds (h : I.Along scope xs next w) : I scope w := by
  cases xs <;> exact h.1

theorem Along.nothing (hI : I scope w) : I.Along scope [] (fun _ _ => True) w :=
  ⟨hI, trivial⟩

/-- What each of the expressions keeps up holds along all of them. -/
theorem Keeps.along (h : ∀ x ∈ xs, I.Keeps x) (hI : I scope w)
    (hnext : ∀ vs w', I scope w' → vs.length = xs.length → next vs w') : I.Along scope xs next w := by
  induction xs generalizing w next with
  | nil => exact ⟨hI, hnext [] w hI rfl⟩
  | cons x xs ih =>
      refine ⟨hI, fun v w' hvalue => ?_⟩
      have hI' := h x List.mem_cons_self scope w v w' hI hvalue
      exact ih (fun y hy => h y (List.mem_cons_of_mem x hy)) hI' fun vs w'' hI'' hlength =>
        hnext (v :: vs) w'' hI'' (congrArg (· + 1) hlength)

/-- Atoms leave the heap as it is. -/
theorem keeps_atom (hx : x.isPair = false)
    (hheap : ∀ scope w w', I scope w → w'.heap = w.heap → I scope w') : I.Keeps x := by
  intro scope w v w' hI hvalue
  obtain ⟨w₁, ⟨time, htime⟩, hsame⟩ := (finishes_iff.1 hvalue).exists_value
  have hsame' : (w₁.onLevel 0 0).heap = (w'.onLevel 0 0).heap := congrArg World.heap (hsame 0 0)
  refine hheap scope w w' hI (hsame'.symm.trans ?_)
  cases time with
  | zero => cases htime
  | succ time =>
      change (within time).reduce time x scope w = _ at htime
      cases x with
      | pair => cases hx
      | symbol s =>
          have hlookup : of (World.lookup s scope) w = .finished (.value v w₁) := htime
          cases hfound : w.heap.locate? s scope <;> simp only [of, World.lookup, hfound] at hlookup <;>
            cases hlookup
          rfl
      | _ =>
          cases htime
          rfl

theorem Along.inTurn (h : I.Along scope xs next w)
    (hvalues : (within time).inTurn scope xs w = .finished (.value vs w')) :
    I scope w' ∧ next vs w' ∧ vs.length = xs.length := by
  induction xs generalizing w vs next with
  | nil =>
      cases hvalues
      exact ⟨h.1, h.2, rfl⟩
  | cons x xs ih =>
      simp only [Evaluator.inTurn] at hvalues
      cases hfirst : (within time).eval x scope w with
      | outOfTime => simp [hfirst, Attempt.andThen] at hvalues
      | finished r =>
      cases r with
      | fault | trap => simp [hfirst, Attempt.andThen] at hvalues
      | value v w₁ =>
      have hrest' := h.2 v w₁ (finishes_of_eval hfirst)
      cases hrest : (within time).inTurn scope xs w₁ with
      | outOfTime => simp [hfirst, hrest, Attempt.andThen] at hvalues
      | finished r =>
      cases r with
      | fault | trap => simp [hfirst, hrest, Attempt.andThen] at hvalues
      | value vs' w₂ =>
          simp only [hfirst, hrest, Attempt.andThen, answer] at hvalues
          cases hvalues
          obtain ⟨hI₂, hnext, hlength⟩ := ih hrest' hrest
          exact ⟨hI₂, hnext, congrArg (· + 1) hlength⟩

/-- Operands in pairs that stay are evaluated in turn. -/
theorem operands_eq {rest all : Value} {rounds : Nat} (hitems : Items I.Fixes rest xs)
    (h : I.Along scope xs next w) (hrounds : xs.length < rounds) :
    (within time).operands rounds rest all scope w = (within time).inTurn scope xs w := by
  induction xs generalizing rest rounds w next with
  | nil =>
      obtain ⟨rounds, rfl⟩ := Nat.exists_eq_succ_of_ne_zero (Nat.ne_of_gt hrounds)
      cases hitems
      rfl
  | cons x xs ih =>
      obtain ⟨rounds, rfl⟩ := Nat.exists_eq_succ_of_ne_zero (Nat.ne_of_gt (Nat.zero_lt_of_lt hrounds))
      cases hitems with
      | cons hcell hrest =>
          simp only [Evaluator.operands, Heap.pair_eq_of_getElem? (hcell scope w h.1),
            Evaluator.inTurn]
          refine Attempt.andThen_congr fun v w₁ hvalue => ?_
          rw [ih hrest (h.2 v w₁ (finishes_of_eval hvalue)) (Nat.lt_of_succ_lt_succ hrounds)]

/-- The forms of a body in pairs that stay are evaluated in a row. -/
theorem sequence_eq {body : Value} {rounds : Nat} (hitems : Items I.Fixes body (x :: xs))
    (h : I.Along scope (x :: xs).dropLast next w) (hrounds : xs.length < rounds) :
    (within time).sequence rounds body scope w = (within time).inSequence scope (x :: xs) w := by
  induction xs generalizing x body rounds w next with
  | nil =>
      obtain ⟨rounds, rfl⟩ := Nat.exists_eq_succ_of_ne_zero (Nat.ne_of_gt hrounds)
      cases hitems with
      | cons hcell hrest =>
      cases hrest
      simp only [Evaluator.sequence, Heap.first, Heap.rest,
        Heap.pair_eq_of_getElem? (hcell scope w h.holds), Value.isPair, Bool.false_eq_true, if_false,
        Evaluator.inSequence]
  | cons y xs ih =>
      obtain ⟨rounds, rfl⟩ := Nat.exists_eq_succ_of_ne_zero (Nat.ne_of_gt (Nat.zero_lt_of_lt hrounds))
      cases hitems with
      | @cons r _ rest _ hcell hrest =>
      have hpair : ∀ w, I scope w → w.heap.rest (.pair r) = rest := fun w hI =>
        congrArg Pair.rest (Heap.pair_eq_of_getElem? (hcell scope w hI))
      have hmore : Items I.Fixes rest (y :: xs) := hrest
      cases hrest with
      | cons hcell' hrest' =>
          simp only [Evaluator.sequence, hpair w h.1, Value.isPair, if_true, Evaluator.inSequence,
            Heap.first, Heap.pair_eq_of_getElem? (hcell scope w h.1)]
          refine Attempt.andThen_congr fun v w₁ hvalue => ?_
          have hothers := h.2 v w₁ (finishes_of_eval hvalue)
          rw [hpair w₁ hothers.holds, ih hmore hothers (Nat.lt_of_succ_lt_succ hrounds)]

end Condition

/-- The code of a body: its only form, or a sequence of its forms. -/
inductive IsBody (cell : Ref .pair → Pair → Prop) : Value → List Value → Prop where
  | single (x : Value) : IsBody cell x [x]
  | sequence {b : Ref .pair} {forms : Value} {xs : List Value}
      (hcell : cell b ⟨.symbol .begin, forms⟩) (hforms : Items cell forms xs) :
      IsBody cell (.pair b) xs

namespace Condition

variable {I : Condition} {code : Value} {xs : List Value} {scope : Ref .scope} {w : World}
  {next : List Value → World → Prop}

theorem reduce_sequence {b : Ref .pair} {forms : Value} (hcell : w.heap.pair b = ⟨.symbol .begin, forms⟩)
    (time : Nat) : (within (time + 1)).eval (.pair b) scope w =
      (within time).sequence time forms scope w := by
  have hform : SpecialForm.ofSymbol? .begin = some .sequence := rfl
  change (within time).reduce time (.pair b) scope w = _
  simp only [Evaluator.reduce, hcell, hform, Evaluator.special]

theorem eval_le_inSequence (hbody : IsBody I.Fixes code xs) (h : I.Along scope xs.dropLast next w)
    (time : Nat) :
    ((within time).eval code scope w).Le ((within time).inSequence scope xs w) := by
  cases hbody with
  | single x => exact .refl _
  | @sequence b forms xs hcell hforms =>
      cases time with
      | zero => exact outOfTime_le _
      | succ time =>
          rw [reduce_sequence (Heap.pair_eq_of_getElem? (hcell scope w h.holds))]
          cases hforms with
          | nil =>
              cases time with
              | zero => exact outOfTime_le _
              | succ time => exact .refl _
          | @cons r x rest xs hr hrest =>
              have hrounds : xs.length < max (time + 1) (xs.length + 1) := by omega
              rw [← sequence_eq (.cons hr hrest) h hrounds]
              exact (within_le (Nat.le_succ time)).sequence (by omega) _ _ _

theorem inSequence_le_eval (hbody : IsBody I.Fixes code xs) (h : I.Along scope xs.dropLast next w)
    (time : Nat) : ((within time).inSequence scope xs w).Le
      ((within (time + xs.length + 2)).eval code scope w) := by
  cases hbody with
  | single x => exact (within_le (by omega)).eval _ _ _
  | @sequence b forms xs hcell hforms =>
      rw [reduce_sequence (Heap.pair_eq_of_getElem? (hcell scope w h.holds))]
      cases hforms with
      | nil => exact .refl _
      | @cons r x rest xs hr hrest =>
          rw [← sequence_eq (.cons hr hrest) h (Nat.lt_succ_self xs.length)]
          exact (within_le (by simp; omega)).sequence (by simp; omega) _ _ _

end Condition

/-! ## Procedures that last -/

/-- Closures have their code for good. -/
def Heap.KeepsCode (h h' : Heap) : Prop :=
  ∀ (i : Nat) c, h.closures[i]? = some c → ∃ name, h'.closures[i]? = some { c with name }

namespace Heap

variable {h h' h'' : Heap}

theorem KeepsCode.of_eq (hclosures : h'.closures = h.closures) : h.KeepsCode h' :=
  fun _ c hc => ⟨c.name, by rw [hclosures, hc]⟩

theorem KeepsCode.trans (h₁ : h.KeepsCode h') (h₂ : h'.KeepsCode h'') : h.KeepsCode h'' := by
  intro i c hc
  obtain ⟨name, hc'⟩ := h₁ i c hc
  exact h₂ i { c with name } hc'

theorem keepsCode_addClosure (h : Heap) (c : Closure) : h.KeepsCode (h.addClosure c).2 :=
  fun _ c' hc => ⟨c'.name, Heap.getElem?_push_of_some c hc⟩

theorem keepsCode_nameClosure (h : Heap) (ref : Ref .closure) (name : Symbol) :
    h.KeepsCode (h.nameClosure ref name) := by
  intro i c hc
  simp only [nameClosure, Array.getElem?_modify, hc]
  split
  · obtain ⟨p, body, scope, _ | other⟩ := c
    · exact ⟨some name, rfl⟩
    · exact ⟨some other, rfl⟩
  · exact ⟨c.name, rfl⟩

/-- Whatever a run changes, it leaves the code of closures as it is. -/
def codes : MachinePolicy where
  good _ := True
  leads := KeepsCode
  admits _ _ := True
  usable _ _ := True
  refl _ := .of_eq rfl
  trans := .trans
  mono _ _ := trivial
  usableMono _ _ := trivial
  atom _ := trivial
  fields _ _ := ⟨trivial, trivial⟩
  element _ _ _ := trivial
  cons _ _ _ := ⟨trivial, .of_eq rfl, trivial⟩
  addString _ _ := ⟨trivial, .of_eq rfl, trivial⟩
  addVector _ _ := ⟨trivial, .of_eq rfl, trivial⟩
  global _ := trivial
  setPair _ _ _ _ := ⟨trivial, .of_eq rfl⟩
  setChar _ _ _ _ := ⟨trivial, .of_eq rfl⟩
  setElement _ _ _ _ := ⟨trivial, .of_eq rfl⟩
  located _ _ _ := trivial
  assign _ _ _ _ := ⟨trivial, .of_eq rfl⟩
  bind _ _ _ _ := ⟨trivial, .of_eq rfl⟩
  nameClosure ref name _ := ⟨trivial, keepsCode_nameClosure _ ref name⟩
  addScope _ _ _ := ⟨trivial, .of_eq rfl, trivial⟩
  code _ _ _ := Or.inl ⟨trivial, trivial⟩
  transformer := .rfl
  addClosure _ _ _ := ⟨trivial, keepsCode_addClosure _ _, trivial⟩
  slot _ _ := trivial
  addContinuation _ _ := ⟨trivial, .of_eq rfl, trivial⟩
  setContinuation _ _ _ := ⟨trivial, .of_eq rfl⟩

end Heap

theorem Step.Ends.keepsCode {control : Control} {w w' : World} {outcome : Outcome}
    (h : (go control [] w).Ends outcome w') : w.heap.KeepsCode w'.heap := by
  obtain ⟨n, hn⟩ := h
  have hcontrol : control.Admitted Heap.codes w.heap := by
    cases control <;> simp [Control.Admitted, Heap.codes]
  have hstack : Heap.codes.AdmitsStack w.heap [] := by simp [MachinePolicy.AdmitsStack]
  have hsteps := (obeys_go ⟨trivial, hstack⟩ hcontrol).steps (fun _ _ _ => id) n
  rw [hn] at hsteps
  exact hsteps.2.1

theorem Step.Finishes.keepsCode {x v : Value} {scope : Ref .scope} {w w' : World}
    (h : Finishes x scope w (.value v) w') : w.heap.KeepsCode w'.heap := by
  obtain ⟨enough, hends⟩ := h
  obtain ⟨_, hend, rfl⟩ := hends 0 enough (by omega)
  have hkeeps : (w.onLevel 0 enough).heap.KeepsCode (w'.onLevel 0 enough).heap :=
    Step.Ends.keepsCode hend
  exact hkeeps

/-- The scope of a call has nothing to do with closures. -/
theorem World.keepsCode_enter (w : World) {names : List String} {vs : List Value}
    (hlength : vs.length = names.length) (parent : Ref .scope) :
    w.heap.KeepsCode (w.enter ⟨names.map Symbol.mk, none⟩ vs parent).2.heap := by
  refine .of_eq ?_
  simp only [World.enter, Parameters.accepts, List.length_map, hlength, BEq.rfl, if_true]
  rfl

namespace Condition

variable {I : Condition} {h : Heap} {r : Ref .pair} {p : Pair} {scope : Ref .scope} {xs : List Value}
  {next next' : List Value → World → Prop} {w : World}

/-- The condition, and all closures of the heap have the code that they have there. -/
def withCode (I : Condition) (h : Heap) : Condition :=
  fun scope w => I scope w ∧ h.KeepsCode w.heap

theorem Fixes.withCode (hr : I.Fixes r p) : (I.withCode h).Fixes r p :=
  fun scope w hI => hr scope w hI.1

theorem Along.withCode (halong : I.Along scope xs next w) (hw : h.KeepsCode w.heap)
    (hnext : ∀ vs w, h.KeepsCode w.heap → vs.length = xs.length → next vs w → next' vs w) :
    (I.withCode h).Along scope xs next' w := by
  induction xs generalizing w next next' with
  | nil => exact ⟨⟨halong.1, hw⟩, hnext [] w hw rfl halong.2⟩
  | cons x xs ih =>
      refine ⟨⟨halong.1, hw⟩, fun v w' hvalue => ?_⟩
      refine ih (halong.2 v w' hvalue) (hw.trans hvalue.keepsCode) fun vs w hw hlength => ?_
      exact hnext (v :: vs) w hw (congrArg (· + 1) hlength)

end Condition

/-! ## Abstractions -/

/-- The pair is an abstraction with these parameters and these forms in its body. -/
def IsAbstraction (cell : Ref .pair → Pair → Prop) (r : Ref .pair) (names : List String)
    (forms : Value) : Prop :=
  ∃ inner list, cell r ⟨.symbol ⟨"lambda"⟩, .pair inner⟩ ∧ cell inner ⟨list, forms⟩ ∧
    Items cell list (names.map fun name => .symbol ⟨name⟩)

theorem Heap.Lists.isPair_eq {h : Heap} {v : Value} {xs : List Value} (hv : h.Lists v xs) :
    v.isPair = !xs.isEmpty := by
  cases hv <;> rfl

theorem IsAbstraction.mono {cell cell' : Ref .pair → Pair → Prop}
    (hcells : ∀ r p, cell r p → cell' r p) {r : Ref .pair} {names : List String} {forms : Value}
    (h : IsAbstraction cell r names forms) : IsAbstraction cell' r names forms := by
  obtain ⟨inner, list, hr, hinner, hlist⟩ := h
  exact ⟨inner, list, hcells _ _ hr, hcells _ _ hinner, hlist.mono hcells⟩

theorem IsBody.mono {cell cell' : Ref .pair → Pair → Prop} (hcells : ∀ r p, cell r p → cell' r p)
    {code : Value} {xs : List Value} (h : IsBody cell code xs) : IsBody cell' code xs := by
  cases h with
  | single => exact .single _
  | sequence hcell hforms => exact .sequence (hcells _ _ hcell) (hforms.mono hcells)

/-- The world after a closure was made, with these pairs. -/
def World.withClosure (w : World) (pairs : Array Pair) (c : Closure) : World :=
  { w with heap := { w.heap with pairs, closures := w.heap.closures.push c } }

theorem Heap.exists_closed (h : Heap) (p : Parameters) {forms : Value} {xs : List Value}
    (hforms : h.Lists forms xs) (scope : Ref .scope) : ∃ pairs code,
      h.close p forms scope = (⟨h.closures.size⟩,
        { h with pairs, closures := h.closures.push ⟨p, code, scope, none⟩ }) ∧
      (∀ (i : Nat) q, h.pairs[i]? = some q → pairs[i]? = some q) ∧
      IsBody (fun r q => pairs[r.index]? = some q) code xs := by
  have hkeeps : ∀ (i : Nat) q, h.pairs[i]? = some q →
      (h.cons (.symbol .begin) forms).2.pairs[i]? = some q :=
    fun _ _ => Heap.getElem?_push_of_some _
  have hbegin : IsBody (fun r q => (h.cons (.symbol .begin) forms).2.pairs[r.index]? = some q)
      (.pair ⟨h.pairs.size⟩) xs :=
    .sequence Array.getElem?_push_size (hforms.mono fun r q hq => hkeeps _ q hq)
  cases hforms with
  | nil => exact ⟨_, _, rfl, hkeeps, hbegin⟩
  | @cons r x rest xs hcell hrest =>
      by_cases hnil : rest.isNil = true
      · obtain rfl : rest = .nil := by cases rest <;> first | rfl | cases hnil
        cases hrest
        refine ⟨h.pairs, x, ?_, fun _ _ => id, .single x⟩
        simp only [Heap.close, Heap.pair_eq_of_getElem? hcell, Value.isNil, if_true]
        rfl
      · refine ⟨_, _, ?_, hkeeps, hbegin⟩
        simp only [Heap.close, Heap.pair_eq_of_getElem? hcell, hnil]
        rfl

section

variable {w : World} {r : Ref .pair} {scope : Ref .scope} {names : List String} {forms : Value}
  {xs : List Value}

theorem IsAbstraction.yields (h : IsAbstraction w.heap.HasPair r names forms)
    (hforms : w.heap.Lists forms xs) (scope : Ref .scope) : ∃ pairs code,
      Yields (.pair r) scope w (.closure ⟨w.heap.closures.size⟩)
        (w.withClosure pairs ⟨⟨names.map Symbol.mk, none⟩, code, scope, none⟩) ∧
      (∀ (i : Nat) q, w.heap.pairs[i]? = some q → pairs[i]? = some q) ∧
      IsBody (fun r q => pairs[r.index]? = some q) code xs := by
  obtain ⟨inner, list, hr, hinner, hlist⟩ := h
  obtain ⟨pairs, code, hclose, hpairs, hbody⟩ :=
    w.heap.exists_closed ⟨names.map Symbol.mk, none⟩ hforms scope
  refine ⟨pairs, code, .special (Heap.pair_eq_of_getElem? hr) rfl ?_, hpairs, hbody⟩
  have hclosure : Step.abstraction list forms scope w = .value ⟨w.heap.closures.size⟩
      (w.withClosure pairs ⟨⟨names.map Symbol.mk, none⟩, code, scope, none⟩) := by
    simp only [Step.abstraction, bind, Action.bind, World.parameters_eq hlist, World.alter, hclose]
    rfl
  have hfirst : w.heap.first (.pair inner) = list :=
    congrArg Pair.first (Heap.pair_eq_of_getElem? hinner)
  have hrest : w.heap.rest (.pair inner) = forms :=
    congrArg Pair.rest (Heap.pair_eq_of_getElem? hinner)
  simp only [Evaluator.special, Evaluator.abstraction, hfirst, hrest]
  exact Settles.andThen (Settles.action hclosure) (Settles.at_once _ _)

end

/-! ## Tying the knot -/

/-- The pairs of `((lambda (f) (set! f (lambda names . forms)) (f . rest)) #f)`, with that of the
call in the body. -/
def Knot (cell : Ref .pair → Pair → Prop) (site : Ref .pair) (f : String) (names : List String)
    (forms : Value) (call : Ref .pair) (rest : Value) : Prop :=
  ∃ head operands body assignment procedure, cell site ⟨.pair head, operands⟩ ∧
    Items cell operands [.boolean false] ∧ IsAbstraction cell head [f] body ∧
    Items cell body [.pair assignment, .pair call] ∧
    Items cell (.pair assignment) [.symbol ⟨"set!"⟩, .symbol ⟨f⟩, .pair procedure] ∧
    IsAbstraction cell procedure names forms ∧ cell call ⟨.symbol ⟨f⟩, rest⟩

/-- In a new scope the name is bound to a new procedure that is closed over that scope, and other
than that there are only more pairs and one more closure. -/
structure World.Ties (w : World) (scope : Ref .scope) (f : String) (names : List String)
    (body : List Value) (w' : World) (inner : Ref .scope) (c : Ref .closure) (code : Value) : Prop where
  isNew : inner = ⟨w.heap.scopes.size⟩
  scopes : ∃ bindings : Std.TreeMap String Value,
    w'.heap.scopes = w.heap.scopes.push ⟨bindings, some scope⟩ ∧
      ∀ name, bindings[name]? = if name = f then some (.closure c) else none
  closures : c = ⟨w.heap.closures.size + 1⟩ ∧ ∃ other, w'.heap.closures =
    (w.heap.closures.push other).push ⟨⟨names.map Symbol.mk, none⟩, code, inner, none⟩
  pairs : ∀ (i : Nat) p, w.heap.pairs[i]? = some p → w'.heap.pairs[i]? = some p
  body : IsBody w'.heap.HasPair code body
  others : w' = { w with heap := { w.heap with
    pairs := w'.heap.pairs, scopes := w'.heap.scopes, closures := w'.heap.closures } }

theorem Evaluator.Yields.evaluatesWithin {x v : Value} {scope : Ref .scope} {w w' : World}
    (h : Yields x scope w v w') : ∃ least, ∀ k, least ≤ k → EvaluatesWithin k x scope w v w' := by
  obtain ⟨enough, hends⟩ := h.finishes
  refine ⟨enough, fun k hk => ?_⟩
  obtain ⟨_, hend, rfl⟩ := hends 0 k (by omega)
  exact hend

section

variable {w : World} {r site head : Ref .pair} {f : String} {names : List String}
  {forms operands : Value} {xs body : List Value}

/-- The world after a scope was made that binds the name to false. -/
def World.opening (w : World) (f : String) (parent : Ref .scope) : World :=
  { w with heap := (w.heap.addScope ⟨.insert {} f (.boolean false), some parent⟩).2 }

/-- The world after a name was given the value in a scope. -/
def World.binding (w : World) (scope : Ref .scope) (name : Symbol) (v : Value) : World :=
  { w with heap := w.heap.bind scope name v }

/-- An abstraction of one name is called on false. -/
theorem IsAbstraction.calls (h : IsAbstraction w.heap.HasPair head [f] forms)
    (hforms : w.heap.Lists forms xs) (hsite : w.heap.HasPair site ⟨.pair head, operands⟩)
    (hoperands : w.heap.Lists operands [.boolean false]) (scope : Ref .scope) :
    ∃ pairs code, (∀ (i : Nat) q, w.heap.pairs[i]? = some q → pairs[i]? = some q) ∧
      IsBody (fun r q => pairs[r.index]? = some q) code xs ∧
      ∃ least, ∀ k, least ≤ k → Focus.Calls k ⟨.pair site, scope, w⟩
        ⟨code, ⟨w.heap.scopes.size⟩,
          (w.withClosure pairs ⟨⟨[⟨f⟩], none⟩, code, scope, none⟩).opening f scope⟩ := by
  obtain ⟨pairs, code, hclosure, hpairs, hcode⟩ := h.yields hforms scope
  refine ⟨pairs, code, hpairs, hcode, ?_⟩
  let w₁ := w.withClosure pairs ⟨⟨[⟨f⟩], none⟩, code, scope, none⟩
  have hclosed : w₁.heap.closure ⟨w.heap.closures.size⟩ = ⟨⟨[⟨f⟩], none⟩, code, scope, none⟩ := by
    simp [w₁, World.withClosure, Heap.closure]
  have henter : w₁.enter (w₁.heap.closure ⟨w.heap.closures.size⟩).parameters [.boolean false]
      (w₁.heap.closure ⟨w.heap.closures.size⟩).scope =
        (⟨w.heap.scopes.size⟩, w₁.opening f scope) := by
    rw [hclosed]
    rfl
  have hfalse : Yields (.boolean false) scope w₁ (.boolean false) w₁ := .selfEvaluating rfl
  obtain ⟨least, hwithin⟩ := hclosure.evaluatesWithin
  obtain ⟨least', hwithin'⟩ := hfalse.evaluatesWithin
  refine ⟨max least least', fun k hk => ?_⟩
  have hpair : w.heap.pair site = ⟨.pair head, operands⟩ := Heap.pair_eq_of_getElem? hsite
  have hhead : EvaluatesWithin k (w.heap.pair site).first scope w (.closure ⟨w.heap.closures.size⟩)
      w₁ := by
    rw [hpair]
    exact hwithin k (by omega)
  have hvalues : OperandsWithin k scope (w.heap.pair site).rest w₁ [.boolean false] w₁ := by
    have hlists : w₁.heap.Lists operands [.boolean false] :=
      hoperands.mono fun r p => hpairs r.index p
    rw [hpair]
    exact .of_lists hlists (.cons (hwithin' k (by omega)) .nil)
  have hcalls := Focus.Calls.closure (by simp [Pair.isSpecial, hpair]) hhead hvalues henter
  rwa [hclosed] at hcalls

/-- The name is assigned an abstraction in its own scope. -/
theorem IsAbstraction.assigned {assignment procedure : Ref .pair} {bindings : Std.TreeMap String Value}
    {parent inner : Ref .scope} {old : Value} (h : IsAbstraction w.heap.HasPair procedure names forms)
    (hforms : w.heap.Lists forms body)
    (hassignment : w.heap.Lists (.pair assignment)
      [.symbol ⟨"set!"⟩, .symbol ⟨f⟩, .pair procedure])
    (hscope : w.heap.scopes[inner.index]? = some ⟨bindings, some parent⟩)
    (hf : bindings[f]? = some old) : ∃ pairs code,
      Yields (.pair assignment) inner w (.closure ⟨w.heap.closures.size⟩)
        ((w.withClosure pairs ⟨⟨names.map Symbol.mk, none⟩, code, inner, none⟩).binding inner ⟨f⟩
          (.closure ⟨w.heap.closures.size⟩)) ∧
      (∀ (i : Nat) q, w.heap.pairs[i]? = some q → pairs[i]? = some q) ∧
      IsBody (fun r q => pairs[r.index]? = some q) code body := by
  obtain ⟨pairs, code, hclosure, hpairs, hcode⟩ := h.yields hforms inner
  refine ⟨pairs, code, ?_, hpairs, hcode⟩
  have hlocate : (w.withClosure pairs ⟨⟨names.map Symbol.mk, none⟩, code, inner, none⟩).heap.locate?
      ⟨f⟩ inner = some (inner, old) := by
    have hhere : (w.withClosure pairs ⟨⟨names.map Symbol.mk, none⟩, code, inner, none⟩).heap.scope inner =
        ⟨bindings, some parent⟩ := by
      simp [World.withClosure, Heap.scope, hscope]
    simp [Heap.locate?, Heap.locateWithin, hhere, hf]
  obtain ⟨r, operands, heq, hcell, hoperands⟩ := hassignment.exists_pair
  cases heq
  have hsecond : w.heap.second operands = .pair procedure := hoperands.rest.first_eq
  exact .assignment hcell hoperands.first_eq (by rw [hsecond]; exact hclosure) hlocate

end

namespace Knot

variable {w : World} {site call : Ref .pair} {f : String} {names : List String}
  {forms rest : Value} {body : List Value}

/-- The code comes down to the call, in a scope in which the name is bound to the procedure. -/
theorem exists_ties (h : Knot w.heap.HasPair site f names forms call rest)
    (hforms : w.heap.Lists forms body) (scope : Ref .scope) : ∃ w' inner c code least,
      w.Ties scope f names body w' inner c code ∧
      w'.heap.pairs[call.index]? = some ⟨.symbol ⟨f⟩, rest⟩ ∧
      ∀ k, least ≤ k → Focus.Iterates k 1 ⟨.pair site, scope, w⟩ ⟨.pair call, inner, w'⟩ := by
  obtain ⟨head, operands, forms₁, assignment, procedure, hsite, hoperands, hhead, hforms₁,
    hassignment, hprocedure, hcall⟩ := h
  obtain ⟨pairs₁, code₁, hpairs₁, hcode₁, least₁, hcalls⟩ :=
    hhead.calls hforms₁ hsite hoperands scope
  cases hcode₁ with
  | @sequence b body₁ _ hb hbody₁ =>
  let inner : Ref .scope := ⟨w.heap.scopes.size⟩
  let w₂ := (w.withClosure pairs₁ ⟨⟨[⟨f⟩], none⟩, .pair b, scope, none⟩).opening f scope
  have hold : ∀ r p, w.heap.HasPair r p → w₂.heap.HasPair r p := fun r p => hpairs₁ r.index p
  have hscope₂ : w₂.heap.scopes[inner.index]? =
      some ⟨.insert {} f (.boolean false), some scope⟩ := Array.getElem?_push_size
  have hunset : (Std.TreeMap.insert {} f (.boolean false) : Std.TreeMap String Value)[f]? =
      some (.boolean false) := by simp
  obtain ⟨pairs₃, code, hassigned, hpairs₃, hcode⟩ := (hprocedure.mono hold).assigned
    (hforms.mono hold) (hassignment.mono hold) hscope₂ hunset
  generalize hw₄ : (w₂.withClosure pairs₃ ⟨⟨names.map Symbol.mk, none⟩, code, inner, none⟩).binding inner
    ⟨f⟩ (.closure ⟨w₂.heap.closures.size⟩) = w₄ at hassigned
  obtain ⟨least₂, hwithin⟩ := hassigned.evaluatesWithin
  have hpairs₄ : ∀ r p, w₂.heap.HasPair r p → w₄.heap.HasPair r p := by
    rw [← hw₄]
    exact fun r p => hpairs₃ r.index p
  have hbody₂ : w₂.heap.Lists body₁ [.pair assignment, .pair call] := hbody₁
  have hbody₄ : w₄.heap.Lists body₁ [.pair assignment, .pair call] := hbody₂.mono hpairs₄
  refine ⟨w₄, inner, ⟨w₂.heap.closures.size⟩, code, max least₁ least₂, ?_,
    hpairs₄ _ _ (hold _ _ hcall), fun k hk => ?_⟩
  · subst hw₄
    let c : Value := .closure ⟨w₂.heap.closures.size⟩
    have hscopes : (w.heap.scopes.push ⟨.insert {} f (.boolean false), some scope⟩).modify
        w.heap.scopes.size (fun s => { s with bindings := s.bindings.insert f c }) =
          w.heap.scopes.push ⟨.insert (.insert {} f (.boolean false)) f c, some scope⟩ :=
      Heap.modify_push_size ..
    refine ⟨rfl, ⟨_, hscopes, fun name => ?_⟩, ⟨?_, _, rfl⟩,
      fun i p hp => hpairs₃ i p (hpairs₁ i p hp), hcode, rfl⟩
    · simp only [Std.TreeMap.getElem?_insert, Std.compare_eq_iff_eq, Std.TreeMap.getElem?_emptyc]
      by_cases hname : f = name
      · rw [if_pos hname, if_pos hname.symm]
      · rw [if_neg hname, if_neg hname, if_neg (Ne.symm hname)]
    · simp [w₂, World.opening, World.withClosure, Heap.addScope]
  · -- the body assigns the name and then calls
    have hlast : LastForm k inner body₁ w₂ (.pair call) w₄ := by
      have hend : w₄.heap.first (w₄.heap.rest body₁) = .pair call := hbody₄.rest.first_eq
      have hfirst : EvaluatesWithin k (w₂.heap.first body₁) inner w₂
          (.closure ⟨w₂.heap.closures.size⟩) w₄ := by
        rw [hbody₂.first_eq]
        exact hwithin k (by omega)
      rw [← hend]
      exact .next hbody₂.rest.isPair_eq hfirst (.last hbody₄.rest.rest.isPair_eq)
    exact .call (hcalls k (by omega)) (.tail (.sequence (Heap.pair_eq_of_getElem? hb) hlast) (.refl _))

end Knot

/-! ## The call -/

/-- Each of the attempts ends as the other does if that is given more time. -/
theorem Attempt.SameEnds.of_exists_le {attempt attempt' : Nat → Attempt Value}
    (h : ∀ time, ∃ later, (attempt time).Le (attempt' later))
    (h' : ∀ time, ∃ later, (attempt' time).Le (attempt later)) : SameEnds attempt attempt' := by
  refine fun r => ⟨fun ⟨time, hend⟩ => ?_, fun ⟨time, hend⟩ => ?_⟩
  · obtain ⟨later, hle⟩ := h time
    exact ⟨later, hle.finished hend⟩
  · obtain ⟨later, hle⟩ := h' time
    exact ⟨later, hle.finished hend⟩

theorem Attempt.Le.andThen_of {α β : Type} {attempt attempt' : Attempt α}
    {use use' : α → World → Attempt β} (h : attempt.Le attempt')
    (huse : ∀ a w, attempt = .finished (.value a w) → (use a w).Le (use' a w)) :
    (attempt.andThen use).Le (attempt'.andThen use') := by
  rcases h with rfl | rfl
  · exact outOfTime_le _
  · match attempt', huse with
    | .finished (.value a w), huse => exact huse a w rfl
    | .finished (.fault f w), _ => exact .refl _
    | .finished (.trap t w), _ => exact .refl _
    | .outOfTime, _ => exact .refl _

namespace Evaluator

/-- The forms of a body in a new scope with the names. -/
def inFrame (self : Evaluator) (names : List String) (parent : Ref .scope) (body vs : List Value)
    (w : World) : Attempt Value :=
  let (frame, w) := w.enter ⟨names.map Symbol.mk, none⟩ vs parent
  self.inSequence frame body w

variable {h : Heap} {w : World} {c : Ref .closure} {p : Parameters} {code : Value}
  {parent : Ref .scope} {name : Option Symbol}

/-- A call of a closure that was there before. -/
theorem call_closure (self : Evaluator) (hkeeps : h.KeepsCode w.heap)
    (hc : h.closures[c.index]? = some ⟨p, code, parent, name⟩) (vs : List Value) :
    self.call (.closure c) vs w = self.eval code (w.enter p vs parent).1 (w.enter p vs parent).2 := by
  obtain ⟨name', hc'⟩ := hkeeps _ _ hc
  have hclosure : w.heap.closure c = ⟨p, code, parent, name'⟩ := by simp [Heap.closure, hc']
  simp only [Evaluator.call, hclosure]

/-- A call of a procedure has the ends of its operands in a row and of the call. -/
theorem sameEnds_call {r : Ref .pair} {s : Symbol} {rest : Value} {scope owner : Ref .scope}
    (hcell : w.heap.pair r = ⟨.symbol s, rest⟩) (hs : SpecialForm.ofSymbol? s = none)
    (hname : w.heap.locate? s scope = some (owner, .closure c)) :
    SameEnds (fun time => (within time).eval (.pair r) scope w)
      (fun time => ((within time).operands time rest rest scope w).andThen
        ((within time).call (.closure c))) := by
  obtain ⟨least, hoperator⟩ : Yields (.symbol s) scope w (.closure c) w := .variable hname
  refine .of_eventually (steady_eval _ _ _) (fun _ _ hle => ?_) least 1 fun time htime => ?_
  · exact ((within_le hle).operands hle _ _ _ _).andThen fun vs w => (within_le hle).call _ vs w
  · refine (combination_eq hcell hs time).trans ?_
    simp only [combination, hoperator time htime, Attempt.andThen]

end Evaluator

namespace Condition

variable {I : Condition} {xs : List Value} {scope : Ref .scope} {w : World}
  {next : List Value → World → Prop}

/-- Operands come to what their expressions in turn come to. -/
theorem operands_andThen_le {rest all : Value} {time rounds : Nat}
    {use use' : List Value → World → Attempt Value} (hitems : Items I.Fixes rest xs)
    (h : I.Along scope xs next w)
    (huse : ∀ vs w, I scope w → next vs w → vs.length = xs.length → (use vs w).Le (use' vs w)) :
    (((within time).operands rounds rest all scope w).andThen use).Le
      (((within time).inTurn scope xs w).andThen use') := by
  have hle : ((within time).operands rounds rest all scope w).Le ((within time).inTurn scope xs w) := by
    have hrounds : xs.length < max rounds (xs.length + 1) := by omega
    rw [← operands_eq hitems h hrounds]
    exact (within_le (Nat.le_refl time)).operands (Nat.le_max_left _ _) _ _ _ _
  refine hle.andThen_of fun vs w₁ hvalues => ?_
  obtain ⟨hI₁, hnext, hlength⟩ := h.inTurn (hle.finished hvalues)
  exact huse vs w₁ hI₁ hnext hlength

/-- Expressions in turn come to what they come to as operands. -/
theorem inTurn_andThen_le {rest all : Value} {time time' rounds : Nat}
    {use use' : List Value → World → Attempt Value} (hitems : Items I.Fixes rest xs)
    (h : I.Along scope xs next w) (hle : time ≤ time') (hrounds : xs.length < rounds)
    (huse : ∀ vs w, I scope w → next vs w → vs.length = xs.length → (use vs w).Le (use' vs w)) :
    (((within time).inTurn scope xs w).andThen use).Le
      (((within time').operands rounds rest all scope w).andThen use') := by
  rw [operands_eq hitems h hrounds]
  refine ((within_le hle).inTurn scope xs w).andThen_of fun vs w₁ hvalues => ?_
  obtain ⟨hI₁, hnext, hlength⟩ := h.inTurn hvalues
  exact huse vs w₁ hI₁ hnext hlength

/-- The condition holds along the operands of a call, and along the forms of the body, up to the
last one, in the scope that the call makes. -/
def AlongCall (I : Condition) (names : List String) (inner : Ref .scope) (xs body : List Value) :
    World → Prop :=
  I.Along inner xs fun vs w =>
    let (frame, w) := w.enter ⟨names.map Symbol.mk, none⟩ vs inner
    I.Along frame body.dropLast (fun _ _ => True) w

end Condition

namespace World.Ties

variable {w w' w'' : World} {scope inner : Ref .scope} {f : String} {names : List String}
  {body xs : List Value} {c : Ref .closure} {code rest : Value} {call : Ref .pair} {I : Condition}
  {outcome : Outcome}

theorem locate?_eq (h : w.Ties scope f names body w' inner c code) :
    w'.heap.locate? ⟨f⟩ inner = some (inner, .closure c) := by
  obtain ⟨bindings, hscopes, hbindings⟩ := h.scopes
  have hscope : w'.heap.scope inner = ⟨bindings, some scope⟩ := by
    rw [h.isNew, Heap.scope, hscopes, Array.getElem?_push_size]
    rfl
  simp [Heap.locate?, Heap.locateWithin, hscope, hbindings]

theorem closure_eq (h : w.Ties scope f names body w' inner c code) :
    w'.heap.closures[c.index]? = some ⟨⟨names.map Symbol.mk, none⟩, code, inner, none⟩ := by
  obtain ⟨rfl, other, hclosures⟩ := h.closures
  rw [hclosures]
  have hsize : w.heap.closures.size + 1 = (w.heap.closures.push other).size := by simp
  simp only [hsize, Array.getElem?_push_size]

/-- The call evaluates its operands in the scope with the procedure, in turn, and then the body in a
new scope with the names inside of that. -/
theorem finishes_iff (h : w.Ties scope f names body w' inner c code)
    (hcall : w'.heap.HasPair call ⟨.symbol ⟨f⟩, rest⟩) (hf : SpecialForm.ofSymbol? ⟨f⟩ = none)
    (hlength : xs.length = names.length) (hoperands : Items I.Fixes rest xs)
    (hbody : IsBody I.Fixes code body) (halong : I.AlongCall names inner xs body w') :
    Finishes (.pair call) inner w' outcome w'' ↔ EndsAs (fun time =>
      ((within time).inTurn inner xs w').andThen ((within time).inFrame names inner body))
        outcome w'' := by
  refine Evaluator.finishes_iff.trans (SameEnds.endsAs_iff ?_)
  refine (sameEnds_call (Heap.pair_eq_of_getElem? hcall) hf h.locate?_eq).trans ?_
  -- closures are what they were in all worlds from here on
  let J := I.withCode w'.heap
  have hoperands' : Items J.Fixes rest xs := hoperands.mono fun _ _ => Condition.Fixes.withCode
  have hbody' : IsBody J.Fixes code body := hbody.mono fun _ _ => Condition.Fixes.withCode
  have halong' : J.AlongCall names inner xs body w' := by
    refine Condition.Along.withCode halong (.of_eq rfl) fun vs w hw hvs hframe => ?_
    have hentered := w.keepsCode_enter (hvs.trans hlength) inner
    exact Condition.Along.withCode hframe (hw.trans hentered) fun _ _ _ _ => id
  refine .of_exists_le (fun time => ⟨time, ?_⟩) fun time =>
    ⟨time + max (xs.length + 1) (body.length + 2), ?_⟩
  · refine Condition.operands_andThen_le hoperands' halong' fun vs w₁ hJ hframe _ => ?_
    rw [call_closure _ hJ.2 h.closure_eq]
    exact Condition.eval_le_inSequence hbody' hframe time
  · refine Condition.inTurn_andThen_le hoperands' halong' (Nat.le_add_right _ _) (by omega)
      fun vs w₁ hJ hframe _ => ?_
    rw [call_closure _ hJ.2 h.closure_eq]
    refine (Condition.inSequence_le_eval hbody' hframe time).trans ?_
    exact (within_le (by omega)).eval _ _ _

end World.Ties

/-! ## Tail positions have the same ends -/

theorem Focus.Iterates.finishes_iff {k n : Nat} {f f' : Focus} (h : Iterates k n f f')
    {outcome : Outcome} {w : World} :
    Finishes f.form f.scope f.world outcome w ↔ Finishes f'.form f'.scope f'.world outcome w := by
  have hsame : ∀ d m outcome w, d + (k + 1) ≤ m →
      ((go (.eval f.form f.scope) [] (f.world.onLevel d m)).Ends outcome w ↔
        (go (.eval f'.form f'.scope) [] (f'.world.onLevel d m)).Ends outcome w) := by
    intro d m outcome w hm
    have hthere := (f.eval_reaches [] (by omega : d < m)).trans (h.reaches (by omega) [.leave])
    exact hthere.ends_iff.trans (f'.eval_reaches [] (by omega : d < m)).ends_iff.symm
  constructor
  · rintro ⟨enough, hends⟩
    refine ⟨max enough (k + 1), fun d m hm => ?_⟩
    obtain ⟨w', hend, hworld⟩ := hends d m (by omega)
    exact ⟨w', (hsame d m _ _ (by omega)).1 hend, hworld⟩
  · rintro ⟨enough, hends⟩
    refine ⟨max enough (k + 1), fun d m hm => ?_⟩
    obtain ⟨w', hend, hworld⟩ := hends d m (by omega)
    exact ⟨w', (hsame d m _ _ (by omega)).2 hend, hworld⟩

end Scheme
