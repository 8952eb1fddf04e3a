import Scheme.Proofs.IterationForms
/-!
# Rounds of loops

The procedure of an iteration calls itself in tail position, and a call of it comes to what its rounds
come to: the test and the results, or the body and then the values for the next round, which are
evaluated where the names have the old ones. All rounds begin on the same level.
-/

namespace Scheme

open Evaluator Attempt
open Step (Finishes go)

/-! ## Rounds -/

namespace Evaluator

/-- The expressions of a round: the test, and then the results, or the body and what comes after the
next values. -/
def inRound (self : Evaluator) (l : Loop) (again : List Value → World → Attempt Value)
    (frame : Ref .scope) (w : World) : Attempt Value :=
  (self.eval l.test frame w).andThen fun v w =>
    if v.isTrue then self.inSequence frame l.results w
    else (self.inTurn frame l.body w).andThen fun _ w => (self.inTurn frame l.nexts w).andThen again

/-- The loop, with so many rounds at most. Each round has a new scope with the names. -/
def loop (self : Evaluator) (l : Loop) (parent : Ref .scope) :
    Nat → List Value → World → Attempt Value
  | 0, _, _ => .outOfTime
  | rounds + 1, vs, w =>
    let (frame, w) := w.enter ⟨l.names.map Symbol.mk, none⟩ vs parent
    self.inRound l (loop self l parent rounds) frame w

variable {evaluator evaluator' : Evaluator} {l : Loop} {parent : Ref .scope}

theorem Le.inRound (h : evaluator.Le evaluator') {again again' : List Value → World → Attempt Value}
    (hagain : ∀ vs w, (again vs w).Le (again' vs w)) (frame : Ref .scope) (w : World) :
    (evaluator.inRound l again frame w).Le (evaluator'.inRound l again' frame w) := by
  refine (h.eval _ _ _).andThen fun v w => ?_
  split
  · exact h.inSequence _ _ _
  · exact (h.inTurn _ _ _).andThen fun _ w => (h.inTurn _ _ _).andThen hagain

theorem Le.loop (h : evaluator.Le evaluator') {rounds rounds' : Nat} (hrounds : rounds ≤ rounds')
    (vs : List Value) (w : World) :
    (evaluator.loop l parent rounds vs w).Le (evaluator'.loop l parent rounds' vs w) := by
  induction rounds generalizing rounds' vs w with
  | zero => exact outOfTime_le _
  | succ rounds ih =>
      obtain ⟨rounds', rfl⟩ : ∃ n, rounds' = n + 1 := ⟨rounds' - 1, by omega⟩
      exact h.inRound (fun vs w => ih (by omega) vs w) _ _

section

variable {self : Evaluator} {again : List Value → World → Attempt Value} {frame : Ref .scope} {v : Value}
  {w w' : World} (htest : self.eval l.test frame w = .finished (.value v w'))
include htest

theorem inRound_of_true (hv : v.isTrue = true) :
    self.inRound l again frame w = self.inSequence frame l.results w' := by
  simp only [Evaluator.inRound, htest, Attempt.andThen, hv, if_true]

theorem inRound_of_false (hv : v.isTrue = false) : self.inRound l again frame w =
    (self.inTurn frame l.body w').andThen fun _ w => (self.inTurn frame l.nexts w).andThen again := by
  simp only [Evaluator.inRound, htest, Attempt.andThen, hv, Bool.false_eq_true, if_false]

end

theorem loop_succ {self : Evaluator} {frame : Ref .scope} {vs : List Value} {w w' : World}
    (henter : w.enter ⟨l.names.map Symbol.mk, none⟩ vs parent = (frame, w')) (rounds : Nat) :
    self.loop l parent (rounds + 1) vs w = self.inRound l (self.loop l parent rounds) frame w' := by
  simp only [Evaluator.loop, henter]

/-- The last form of a sequence comes after those before it. -/
theorem inSequence_append (self : Evaluator) (scope : Ref .scope) (xs : List Value) (x : Value)
    (w : World) : self.inSequence scope (xs ++ [x]) w =
      (self.inTurn scope xs w).andThen fun _ w => self.eval x scope w := by
  induction xs generalizing w with
  | nil => rfl
  | cons y ys ih =>
      obtain ⟨z, zs, hzs⟩ : ∃ z zs, ys ++ [x] = z :: zs := by
        cases ys <;> exact ⟨_, _, rfl⟩
      simp only [List.cons_append, hzs, inSequence, inTurn]
      rw [← hzs]
      cases self.eval y scope w with
      | outOfTime => rfl
      | finished r =>
      cases r with
      | fault | trap => rfl
      | value v w₁ =>
          simp only [Attempt.andThen, ih]
          cases self.inTurn scope ys w₁ with
          | outOfTime => rfl
          | finished r => cases r <;> rfl

end Evaluator

/-- A branch whose pairs stay evaluates its test and one of its arms. -/
theorem Condition.eval_branch {I : Condition} {branch : Ref .pair} {test yes no : Value}
    {scope : Ref .scope} {w : World}
    (hbranch : Items I.Fixes (.pair branch) [.symbol ⟨"if"⟩, test, yes, no]) (hI : I scope w)
    (htest : ∀ v w', Finishes test scope w (.value v) w' → I scope w') (time : Nat) :
    (within (time + 1)).eval (.pair branch) scope w =
      ((within time).eval test scope w).andThen fun v w =>
        (within time).eval (if v.isTrue then yes else no) scope w := by
  cases hbranch with
  | @cons _ _ arms _ hcell harms =>
  have harms' : ∀ w, I scope w → w.heap.Lists arms [test, yes, no] :=
    fun w hI => harms.mono fun r p hr => hr scope w hI
  have hform : SpecialForm.ofSymbol? ⟨"if"⟩ = some .branch := rfl
  change (within time).reduce time (.pair branch) scope w = _
  simp only [Evaluator.reduce, Heap.pair_eq_of_getElem? (hcell scope w hI), hform,
    Evaluator.special, Evaluator.branch, (harms' w hI).first_eq]
  refine Attempt.andThen_congr fun v w₁ hv => ?_
  have hlists := harms' w₁ (htest v w₁ (finishes_of_eval hv))
  rw [hlists.second_eq, hlists.third_eq]

/-! ## The procedure of the loop -/

/-- The worlds of the condition have the code of the procedure, and its name in the scopes in which
the expressions are evaluated. -/
structure Loop.Stays (l : Loop) (I : Condition) (inner : Ref .scope) (c : Ref .closure)
    (code : Value) : Prop where
  code : ∃ branch again, IsBody I.Fixes code [.pair branch] ∧ l.IsRound I.Fixes branch again
  name : ∀ scope w, I scope w → w.heap.locate? ⟨"__loop__"⟩ scope = some (inner, .closure c)

namespace Loop

/-- The condition holds along a round: at the test, and then either at the results up to the last one,
or at the body and the next values, for which there is more to ask. -/
def AlongRound (l : Loop) (I : Condition) (next : List Value → World → Prop) (frame : Ref .scope)
    (w : World) : Prop :=
  I frame w ∧ ∀ v w', Finishes l.test frame w (.value v) w' →
    if v.isTrue then I.Along frame l.results.dropLast (fun _ _ => True) w'
    else I.Along frame l.body (fun _ => I.Along frame l.nexts next) w'

/-- The condition holds along so many rounds at most, the first of which begins with the values. -/
def Along (l : Loop) (I : Condition) (parent : Ref .scope) : Nat → List Value → World → Prop
  | 0, _, _ => True
  | rounds + 1, vs, w =>
    let (frame, w) := w.enter ⟨l.names.map Symbol.mk, none⟩ vs parent
    l.AlongRound I (Along l I parent rounds) frame w

variable {l : Loop} {I : Condition} {inner scope : Ref .scope} {c : Ref .closure} {code : Value}
  {h : Heap} {w : World} {vs : List Value} {next : List Value → World → Prop}

theorem AlongRound.results {v : Value} {w' : World} (h : l.AlongRound I next scope w)
    (hvalue : Finishes l.test scope w (.value v) w') (htrue : v.isTrue = true) :
    I.Along scope l.results.dropLast (fun _ _ => True) w' := by
  have hafter := h.2 v w' hvalue
  rwa [if_pos htrue] at hafter

theorem AlongRound.body {v : Value} {w' : World} (h : l.AlongRound I next scope w)
    (hvalue : Finishes l.test scope w (.value v) w') (hfalse : v.isTrue = false) :
    I.Along scope l.body (fun _ => I.Along scope l.nexts next) w' := by
  have hafter := h.2 v w' hvalue
  rwa [if_neg (by simp [hfalse])] at hafter

theorem AlongRound.holds_after {v : Value} {w' : World} (h : l.AlongRound I next scope w)
    (hvalue : Finishes l.test scope w (.value v) w') : I scope w' := by
  cases htest : v.isTrue with
  | true => exact (h.results hvalue htest).holds
  | false => exact (h.body hvalue htest).holds

theorem Along.withCode {rounds : Nat} (hl : l.Along I inner rounds vs w) (hw : h.KeepsCode w.heap)
    (hnexts : l.nexts.length = l.names.length) (hvs : vs.length = l.names.length) :
    l.Along (I.withCode h) inner rounds vs w := by
  induction rounds generalizing vs w with
  | zero => trivial
  | succ rounds ih =>
      have hframe := hw.trans (w.keepsCode_enter hvs inner)
      refine ⟨⟨hl.1, hframe⟩, fun v w' hvalue => ?_⟩
      have hw' := hframe.trans hvalue.keepsCode
      cases htest : v.isTrue with
      | true => exact (hl.results hvalue htest).withCode hw' fun _ _ _ _ => id
      | false =>
          refine (hl.body hvalue htest).withCode hw' fun _ w₁ hw₁ _ hnext => ?_
          exact hnext.withCode hw₁ fun vs w₂ hw₂ hlength hothers =>
            ih hothers hw₂ (hlength.trans hnexts)

theorem Stays.withCode (hl : l.Stays I inner c code) : l.Stays (I.withCode h) inner c code where
  code := by
    obtain ⟨branch, again, hbody, hround⟩ := hl.code
    exact ⟨branch, again, hbody.mono fun _ _ => Condition.Fixes.withCode,
      hround.mono fun _ _ => Condition.Fixes.withCode⟩
  name scope w hI := hl.name scope w hI.1

theorem eval_again {again : Ref .pair} {operands : Value}
    (hagain : w.heap.pair again = ⟨.symbol ⟨"__loop__"⟩, operands⟩)
    (hname : w.heap.locate? ⟨"__loop__"⟩ scope = some (inner, .closure c)) (time : Nat) :
    (within (time + 2)).eval (.pair again) scope w =
      ((within (time + 1)).operands (time + 1) operands operands scope w).andThen
        ((within (time + 1)).call (.closure c)) := by
  have hoperator : (within (time + 1)).eval (.symbol ⟨"__loop__"⟩) scope w =
      .finished (.value (.closure c) w) := by
    change of (World.lookup _ scope) w = _
    simp only [of, World.lookup, hname]
  refine (combination_eq hagain rfl (time + 1)).trans ?_
  simp only [combination, hoperator, Attempt.andThen]

section

variable {branch again : Ref .pair} {time later : Nat} {use : List Value → World → Attempt Value}
  (hround : l.IsRound I.Fixes branch again)
  (hname : ∀ scope w, I scope w → w.heap.locate? ⟨"__loop__"⟩ scope = some (inner, .closure c))

include hround hname

/-- The call for the next round evaluates the next values in turn. -/
theorem eval_again_le
    (huse : ∀ vs w, I scope w → next vs w → vs.length = l.nexts.length →
      ((within time).call (.closure c) vs w).Le (use vs w)) (h : I.Along scope l.nexts next w) :
    ((within time).eval (.pair again) scope w).Le
      (((within time).inTurn scope l.nexts w).andThen use) := by
  obtain ⟨_, _, _, _, operands, -, -, -, -, -, hagain, hoperands⟩ := hround
  have hcell := Heap.pair_eq_of_getElem? (hagain scope w h.holds)
  rcases time with _ | _ | time
  · exact outOfTime_le _
  · have hnothing : (within 1).eval (.pair again) scope w = .outOfTime :=
      combination_eq hcell rfl 0
    rw [hnothing]
    exact outOfTime_le _
  · rw [eval_again hcell (hname scope w h.holds)]
    have hsooner : (within (time + 1)).Le (within (time + 2)) := within_le (Nat.le_succ _)
    refine (Condition.operands_andThen_le hoperands h fun vs w₁ hI₁ hnext hvs =>
      (hsooner.call _ _ _).trans (huse vs w₁ hI₁ hnext hvs)).trans ?_
    exact (hsooner.inTurn _ _ _).andThen fun _ _ => .refl _

/-- The next values are evaluated in turn by the call for the next round. -/
theorem inTurn_le_again (h : I.Along scope l.nexts next w)
    (huse : ∀ vs w, I scope w → next vs w → vs.length = l.nexts.length →
      (use vs w).Le ((within later).call (.closure c) vs w)) :
    (((within time).inTurn scope l.nexts w).andThen use).Le
      ((within (max time later + l.nexts.length + 2)).eval (.pair again) scope w) := by
  obtain ⟨_, _, _, _, operands, -, -, -, -, -, hagain, hoperands⟩ := hround
  rw [eval_again (Heap.pair_eq_of_getElem? (hagain scope w h.holds)) (hname scope w h.holds)]
  refine Condition.inTurn_andThen_le hoperands h (by omega) (by omega)
    fun vs w₁ hI₁ hnext hvs => (huse vs w₁ hI₁ hnext hvs).trans ?_
  exact (within_le (by omega)).call _ _ _

/-- The code of a round comes to its expressions and to what the next call comes to. -/
theorem eval_le_inRound (h : l.AlongRound I next scope w)
    (huse : ∀ vs w, I scope w → next vs w → vs.length = l.nexts.length →
      ((within time).call (.closure c) vs w).Le (use vs w)) :
    ((within (time + 1)).eval (.pair branch) scope w).Le
      ((within (time + 1)).inRound l use scope w) := by
  have hagain : ∀ {w}, I.Along scope l.nexts next w → _ := eval_again_le hround hname huse
  obtain ⟨done, next, results, forms, _, hbranch, hdone, hresults, hnext, hforms, -⟩ := hround
  have hsooner : (within time).Le (within (time + 1)) := within_le (Nat.le_succ _)
  rw [Condition.eval_branch hbranch h.1 fun _ _ => h.holds_after]
  refine (hsooner.eval _ _ _).andThen_of fun v w₁ hv => ?_
  have hvalue := finishes_of_eval hv
  split
  · rename_i htrue
    have hresults' := h.results hvalue htrue
    refine (Condition.eval_le_inSequence (.sequence hdone hresults) hresults' time).trans ?_
    exact hsooner.inSequence _ _ _
  · rename_i hfalse
    have hbody := h.body hvalue (by simpa using hfalse)
    refine (Condition.eval_le_inSequence (.sequence hnext hforms) (by simpa using hbody)
      time).trans ?_
    rw [inSequence_append]
    refine (hsooner.inTurn _ _ _).andThen_of fun vs w₂ hvs => ?_
    refine (hagain (hbody.inTurn hvs).2.1).trans ?_
    exact (hsooner.inTurn _ _ _).andThen fun _ _ => .refl _

/-- The expressions of a round, and what comes after them, are those that its code comes to. -/
theorem inRound_le_eval (h : l.AlongRound I next scope w)
    (huse : ∀ vs w, I scope w → next vs w → vs.length = l.nexts.length →
      (use vs w).Le ((within later).call (.closure c) vs w)) :
    ((within time).inRound l use scope w).Le ((within (max time later + l.nexts.length +
      l.body.length + l.results.length + 6)).eval (.pair branch) scope w) := by
  have hagain : ∀ {w}, I.Along scope l.nexts next w →
      (((within time).inTurn scope l.nexts w).andThen use).Le _ :=
    fun hnexts => inTurn_le_again hround hname hnexts huse
  obtain ⟨done, next, results, forms, _, hbranch, hdone, hresults, hnext, hforms, -⟩ := hround
  rw [Condition.eval_branch hbranch h.1 fun _ _ => h.holds_after]
  refine ((within_le (by omega)).eval _ _ _).andThen_of fun v w₁ hv => ?_
  have hvalue := finishes_of_eval hv
  split
  · rename_i htrue
    have hresults' := h.results hvalue htrue
    refine (Condition.inSequence_le_eval (.sequence hdone hresults) hresults' time).trans ?_
    exact (within_le (by omega)).eval _ _ _
  · rename_i hfalse
    have hbody := h.body hvalue (by simpa using hfalse)
    let later' := max time later + l.nexts.length + 2
    have hsequence : ((within later').inSequence scope (l.body ++ [.pair again]) w₁).Le _ :=
      Condition.inSequence_le_eval (.sequence hnext hforms) (by simpa using hbody) later'
    refine Le.trans ?_ (hsequence.trans ((within_le ?_).eval _ _ _))
    · rw [inSequence_append]
      have hlater : (within time).Le (within later') := within_le (by omega)
      refine (hlater.inTurn _ _ _).andThen_of fun vs w₂ hvs => ?_
      exact hagain (hbody.inTurn hvs).2.1
    · simp only [later', List.length_append, List.length_singleton]
      omega

end

/-- A call of the procedure begins a round in a new scope. -/
theorem call_eq (hclosure : ∃ name,
      w.heap.closures[c.index]? = some ⟨⟨l.names.map Symbol.mk, none⟩, code, inner, name⟩)
    (self : Evaluator) (vs : List Value) : self.call (.closure c) vs w = self.eval code
      (w.enter ⟨l.names.map Symbol.mk, none⟩ vs inner).1
      (w.enter ⟨l.names.map Symbol.mk, none⟩ vs inner).2 := by
  obtain ⟨name, hc⟩ := hclosure
  exact call_closure self (.of_eq rfl) hc vs

section

variable (hl : l.Stays I inner c code) (hclosure : ∀ scope w, I scope w →
  ∃ name, w.heap.closures[c.index]? = some ⟨⟨l.names.map Symbol.mk, none⟩, code, inner, name⟩)

include hl hclosure

/-- In the time that a call takes, the loop comes to the same end. -/
theorem Stays.call_le_loop (hlength : l.nexts.length = l.names.length) (time : Nat) :
    ∀ vs scope w, I scope w → l.Along I inner time vs w → vs.length = l.names.length →
      ((within time).call (.closure c) vs w).Le ((within time).loop l inner time vs w) := by
  induction time with
  | zero =>
      intro vs scope w hI _ _
      rw [call_eq (hclosure scope w hI)]
      exact outOfTime_le _
  | succ time ih =>
      intro vs scope w hI halong hvs
      obtain ⟨branch, again, hbody, hround⟩ := hl.code
      rw [call_eq (hclosure scope w hI)]
      have hnone := Condition.Along.nothing halong.1
      refine (Condition.eval_le_inSequence hbody hnone (time + 1)).trans ?_
      refine eval_le_inRound hround hl.name halong fun vs w hI hothers hvs => ?_
      refine (ih vs _ w hI hothers (hvs.trans hlength)).trans ?_
      exact (within_le (Nat.le_succ time)).loop (Nat.le_refl time) vs w

/-- Given more time, a call comes to what the loop comes to. -/
theorem Stays.exists_loop_le_call (hlength : l.nexts.length = l.names.length) (time rounds : Nat) :
    ∃ later, ∀ vs scope w, I scope w → l.Along I inner rounds vs w → vs.length = l.names.length →
      ((within time).loop l inner rounds vs w).Le ((within later).call (.closure c) vs w) := by
  induction rounds with
  | zero => exact ⟨0, fun _ _ _ _ _ _ => outOfTime_le _⟩
  | succ rounds ih =>
      obtain ⟨later, hlater⟩ := ih
      obtain ⟨branch, again, hbody, hround⟩ := hl.code
      refine ⟨max time later + l.nexts.length + l.body.length + l.results.length + 6 + 1 + 2,
        fun vs scope w hI halong hvs => ?_⟩
      rw [call_eq (hclosure scope w hI)]
      refine (inRound_le_eval hround hl.name halong fun vs w hI hothers hvs =>
        hlater vs _ w hI hothers (hvs.trans hlength)).trans ?_
      exact Condition.inSequence_le_eval hbody (.nothing halong.1) _

end

end Loop

/-- The call evaluates its operands in turn, and then comes to what the loop comes to. -/
theorem World.Ties.loop_iff {w w' w'' : World} {scope inner : Ref .scope} {l : Loop}
    {body es : List Value} {c : Ref .closure} {code operands : Value} {call : Ref .pair}
    {I : Condition} {outcome : Outcome} (h : w.Ties scope "__loop__" l.names body w' inner c code)
    (hcall : w'.heap.HasPair call ⟨.symbol ⟨"__loop__"⟩, operands⟩)
    (hes : es.length = l.names.length) (hnexts : l.nexts.length = l.names.length)
    (hoperands : Items I.Fixes operands es) (hl : l.Stays I inner c code)
    (halong : I.Along inner es (fun vs w => ∀ rounds, l.Along I inner rounds vs w) w') :
    Finishes (.pair call) inner w' outcome w'' ↔ EndsAs (fun time =>
      ((within time).inTurn inner es w').andThen ((within time).loop l inner time)) outcome w'' := by
  refine Evaluator.finishes_iff.trans (SameEnds.endsAs_iff ?_)
  refine (sameEnds_call (Heap.pair_eq_of_getElem? hcall) rfl h.locate?_eq).trans ?_
  let J := I.withCode w'.heap
  have hclosure : ∀ scope w, J scope w → ∃ name,
      w.heap.closures[c.index]? = some ⟨⟨l.names.map Symbol.mk, none⟩, code, inner, name⟩ :=
    fun _ _ hJ => hJ.2 _ _ h.closure_eq
  have hoperands' : Items J.Fixes operands es := hoperands.mono fun _ _ => Condition.Fixes.withCode
  have halong' : J.Along inner es (fun vs w => ∀ rounds, l.Along J inner rounds vs w) w' :=
    halong.withCode (.of_eq rfl) fun vs w hw hvs hrounds rounds =>
      (hrounds rounds).withCode hw hnexts (hvs.trans hes)
  refine .of_exists_le (fun time => ⟨time, ?_⟩) fun time => ?_
  · exact Condition.operands_andThen_le hoperands' halong' fun vs w₁ hJ₁ hrounds hvs =>
      hl.withCode.call_le_loop hclosure hnexts time vs inner w₁ hJ₁ (hrounds time) (hvs.trans hes)
  · obtain ⟨later, hlater⟩ := hl.withCode.exists_loop_le_call hclosure hnexts time time
    refine ⟨max time later + es.length + 1, ?_⟩
    refine Condition.inTurn_andThen_le hoperands' halong' (by omega) (by omega)
      fun vs w₁ hJ₁ hrounds hvs =>
        (hlater vs inner w₁ hJ₁ (hrounds time) (hvs.trans hes)).trans ?_
    exact (within_le (by omega)).call _ _ _

/-! ## Levels -/

theorem EvaluatesWithin.finishes {k : Nat} {x v : Value} {scope : Ref .scope} {w w' : World}
    (h : EvaluatesWithin k x scope w v w') : Finishes x scope w (.value v) w' :=
  ⟨k, fun _ _ hm => ⟨_, (h.reaches hm []).ends ⟨1, rfl⟩, rfl⟩⟩

theorem Focus.Iterates.trans {k m n : Nat} {f g f' : Focus} (h : Iterates k n f g)
    (h' : Iterates k m g f') : Iterates k (m + n) f f' := by
  induction h with
  | refl => exact h'
  | tail htail _ ih => exact .tail htail (ih h')
  | call hcall _ ih => exact .call hcall (ih h')

/-- The expressions have the values, from left to right, and `k` evaluations one inside the other are
enough for each of them. -/
inductive TurnWithin (k : Nat) (scope : Ref .scope) :
    List Value → World → List Value → World → Prop where
  | nil {w : World} : TurnWithin k scope [] w [] w
  | cons {x v : Value} {xs vs : List Value} {w w₁ w' : World}
      (hfirst : EvaluatesWithin k x scope w v w₁) (hothers : TurnWithin k scope xs w₁ vs w') :
      TurnWithin k scope (x :: xs) w (v :: vs) w'

/-- So many rounds of the loop lead from the first values to the others, and `k` evaluations one
inside the other are enough for each expression in them. -/
inductive Loop.Rounds (l : Loop) (k : Nat) (parent : Ref .scope) :
    Nat → List Value → World → List Value → World → Prop where
  | zero {vs : List Value} {w : World} : Rounds l k parent 0 vs w vs w
  | succ {n : Nat} {frame : Ref .scope} {v : Value} {vs us vs' vs'' : List Value}
      {w w₁ w₂ w₃ w₄ w' : World}
      (henter : w.enter ⟨l.names.map Symbol.mk, none⟩ vs parent = (frame, w₁))
      (htest : EvaluatesWithin k l.test frame w₁ v w₂) (hfalse : v.isTrue = false)
      (hbody : TurnWithin k frame l.body w₂ us w₃) (hnexts : TurnWithin k frame l.nexts w₃ vs' w₄)
      (hothers : Rounds l k parent n vs' w₄ vs'' w') : Rounds l k parent (n + 1) vs w vs'' w'

namespace TurnWithin

variable {I : Condition} {k : Nat} {scope : Ref .scope} {xs vs : List Value} {w w' : World}
  {next : List Value → World → Prop}

theorem along (h : TurnWithin k scope xs w vs w') (halong : I.Along scope xs next w) :
    I scope w' ∧ next vs w' ∧ vs.length = xs.length := by
  induction h generalizing next with
  | nil => exact ⟨halong.1, halong.2, rfl⟩
  | cons hfirst _ ih =>
      obtain ⟨hI', hnext, hlength⟩ := ih (halong.2 _ _ hfirst.finishes)
      exact ⟨hI', hnext, congrArg (· + 1) hlength⟩

/-- As operands in pairs that stay. -/
theorem operands (h : TurnWithin k scope xs w vs w') {rest : Value} (hrest : Items I.Fixes rest xs)
    (halong : I.Along scope xs next w) : OperandsWithin k scope rest w vs w' := by
  induction h generalizing rest next with
  | nil =>
      cases hrest
      exact .nil
  | cons hfirst _ ih =>
      cases hrest with
      | cons hcell hrest =>
          have hpair := Heap.pair_eq_of_getElem? (hcell _ _ halong.1)
          refine .cons (by rwa [hpair]) ?_
          rw [hpair]
          exact ih hrest (halong.2 _ _ hfirst.finishes)

/-- As the forms of a body before the last one. -/
theorem lastForm (h : TurnWithin k scope xs w vs w') {body x : Value}
    (hbody : Items I.Fixes body (xs ++ [x])) (halong : I.Along scope xs next w) :
    LastForm k scope body w x w' := by
  induction h generalizing body next with
  | @nil w =>
      have hlists : w.heap.Lists body [x] := hbody.mono fun r p hr => hr scope w halong.1
      rw [← hlists.first_eq]
      exact .last hlists.rest.isPair_eq
  | @cons y v ys vs w w₁ w' hfirst _ ih =>
      have hothers := halong.2 _ _ hfirst.finishes
      cases hbody with
      | @cons r _ rest _ hcell hrest =>
      have hpair := Heap.pair_eq_of_getElem? (hcell _ _ halong.1)
      have hpair₁ := Heap.pair_eq_of_getElem? (hcell _ _ hothers.holds)
      have hmore : (w.heap.rest (.pair r)).isPair = true := by
        have hlists : w.heap.Lists rest (ys ++ [x]) := hrest.mono fun r p hr => hr scope w halong.1
        simp only [Heap.rest, hpair, hlists.isPair_eq]
        simp
      refine .next hmore (by simpa only [Heap.first, hpair] using hfirst) ?_
      simp only [Heap.rest, hpair₁]
      exact ih hrest hothers

end TurnWithin

namespace Loop

variable {l : Loop} {I : Condition} {inner frame : Ref .scope} {c : Ref .closure} {code v : Value}
  {w w₁ w₂ w' : World} {vs vs' us : List Value} {n k : Nat} {next : List Value → World → Prop}

/-- A body of one form comes down to that form. -/
theorem iterates_body {x : Value} {f : Focus} (hbody : IsBody I.Fixes code [x]) (hI : I frame w)
    (h : Focus.Iterates k n ⟨x, frame, w⟩ f) : Focus.Iterates k n ⟨code, frame, w⟩ f := by
  cases hbody with
  | single => exact h
  | sequence hcell hforms =>
      have hlast : LastForm k frame _ w x w := TurnWithin.nil.lastForm hforms (.nothing hI)
      exact .tail (.sequence (Heap.pair_eq_of_getElem? (hcell _ _ hI)) hlast) h

/-- A call by the name of the procedure. -/
theorem calls_procedure {r : Ref .pair} {operands : Value} {owner : Ref .scope}
    (hcell : w.heap.pair r = ⟨.symbol ⟨"__loop__"⟩, operands⟩)
    (hname : w.heap.locate? ⟨"__loop__"⟩ frame = some (owner, .closure c))
    (hoperands : OperandsWithin (k + 1) frame operands w vs w') (hclosure : ∃ name,
      w'.heap.closures[c.index]? = some ⟨⟨l.names.map Symbol.mk, none⟩, code, inner, name⟩) :
    Focus.Calls (k + 1) ⟨.pair r, frame, w⟩
      ⟨code, (w'.enter ⟨l.names.map Symbol.mk, none⟩ vs inner).1,
        (w'.enter ⟨l.names.map Symbol.mk, none⟩ vs inner).2⟩ := by
  obtain ⟨name, hc⟩ := hclosure
  have hclosure' : w'.heap.closure c = ⟨⟨l.names.map Symbol.mk, none⟩, code, inner, name⟩ := by
    simp [Heap.closure, hc]
  have hhead : EvaluatesWithin (k + 1) (w.heap.pair r).first frame w (.closure c) w := by
    rw [hcell]
    exact .variable hname
  have hcalls := Focus.Calls.closure (by rw [hcell]; rfl) hhead (by rwa [hcell]) (by rw [hclosure'])
  rwa [hclosure'] at hcalls

/-- A round without the results leads to the next one by a call in tail position. -/
theorem iterates_round (hl : l.Stays I inner c code) (hclosure : ∀ scope w, I scope w → ∃ name,
      w.heap.closures[c.index]? = some ⟨⟨l.names.map Symbol.mk, none⟩, code, inner, name⟩)
    (halong : l.AlongRound I next frame w) (htest : EvaluatesWithin (k + 1) l.test frame w v w₁)
    (hfalse : v.isTrue = false) (hbody : TurnWithin (k + 1) frame l.body w₁ us w₂)
    (hnexts : TurnWithin (k + 1) frame l.nexts w₂ vs w') :
    Focus.Iterates (k + 1) 1 ⟨code, frame, w⟩
      ⟨code, (w'.enter ⟨l.names.map Symbol.mk, none⟩ vs inner).1,
        (w'.enter ⟨l.names.map Symbol.mk, none⟩ vs inner).2⟩ := by
  obtain ⟨branch, again, hcode, done, next, results, forms, operands, hbranch, -, -, hnext, hforms,
    hagain, hoperands⟩ := hl.code
  have hafter := halong.body htest.finishes hfalse
  obtain ⟨hI₂, hothers, -⟩ := hbody.along hafter
  obtain ⟨hI', -⟩ := hnexts.along hothers
  refine iterates_body hcode halong.1 ?_
  -- the test is false
  have hbranch' : ∃ arms, w.heap.pair branch = ⟨.symbol ⟨"if"⟩, arms⟩ ∧ w.heap.first arms = l.test ∧
      w₁.heap.third arms = .pair next := by
    cases hbranch with
    | cons hcell harms =>
        have hlists : ∀ w, I frame w → w.heap.Lists _ [l.test, .pair done, .pair next] :=
          fun w hI => harms.mono fun r p hr => hr frame w hI
        exact ⟨_, Heap.pair_eq_of_getElem? (hcell _ _ halong.1), (hlists w halong.1).first_eq,
          (hlists w₁ hafter.holds).third_eq⟩
  obtain ⟨arms, hcell, hfirst, hthird⟩ := hbranch'
  have htail := Focus.Tail.branch hcell (by rwa [hfirst])
  rw [hfalse, if_neg Bool.false_ne_true, hthird] at htail
  -- the call is the last form
  refine .tail htail (.tail (.sequence (Heap.pair_eq_of_getElem? (hnext _ _ hafter.holds))
    (hbody.lastForm hforms hafter)) (.call ?_ (.refl _)))
  exact calls_procedure (Heap.pair_eq_of_getElem? (hagain _ _ hI₂)) (hl.name _ _ hI₂)
    (hnexts.operands hoperands hothers) (hclosure _ _ hI')

/-- However many rounds there are, each of them is one call in tail position. -/
theorem Rounds.iterates (h : l.Rounds (k + 1) inner n vs w vs' w') (hl : l.Stays I inner c code)
    (hclosure : ∀ scope w, I scope w → ∃ name,
      w.heap.closures[c.index]? = some ⟨⟨l.names.map Symbol.mk, none⟩, code, inner, name⟩)
    (halong : l.Along I inner n vs w) :
    Focus.Iterates (k + 1) n
      ⟨code, (w.enter ⟨l.names.map Symbol.mk, none⟩ vs inner).1,
        (w.enter ⟨l.names.map Symbol.mk, none⟩ vs inner).2⟩
      ⟨code, (w'.enter ⟨l.names.map Symbol.mk, none⟩ vs' inner).1,
        (w'.enter ⟨l.names.map Symbol.mk, none⟩ vs' inner).2⟩ := by
  induction h with
  | zero => exact .refl _
  | succ henter htest hfalse hbody hnexts _ ih =>
      simp only [Along, henter] at halong ⊢
      have hothers := (hbody.along (halong.body htest.finishes hfalse)).2.1
      exact (iterates_round hl hclosure halong htest hfalse hbody hnexts).trans
        (ih (hnexts.along hothers).2.1)

end Loop

end Scheme
