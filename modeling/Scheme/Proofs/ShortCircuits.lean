import Scheme.Proofs.Connectives
import Scheme.Proofs.Quasiquotation
/-!
# Connectives evaluate no more than they need

The operands of `and` and `or` are evaluated from left to right, up to the first that decides. That
holds for the call of the connective and for whatever has replaced it, as long as the evaluation of
an operand leaves the code of the connective and the pairs of its forms as they are.
-/

namespace Scheme

open Step Evaluator

/-! ## Attempts in a row -/

def Outcome.isValue : Outcome → Bool
  | .value _ => true
  | _ => false

namespace Attempt

variable {attempt attempt' : Nat → Attempt Value} {use : Nat → Value → World → Attempt Value}
  {outcome : Outcome} {w w' w'' : World}

/-- Each of the attempts ends as the other does, given a little more time. -/
theorem SameEnds.of_le (h : ∀ time, (attempt time).Le (attempt' time))
    (h' : ∀ time, (attempt' time).Le (attempt (time + 1))) : SameEnds attempt attempt' := fun _ =>
  ⟨fun ⟨time, hend⟩ => ⟨time, (h time).finished hend⟩,
    fun ⟨time, hend⟩ => ⟨time + 1, (h' time).finished hend⟩⟩

theorem Steady.andThen (h : Steady attempt) (huse : ∀ v w, Steady fun time => use time v w) :
    Steady fun time => (attempt time).andThen (use time) :=
  fun time time' hle => (h time time' hle).andThen fun v w => huse v w time time' hle

/-- After an attempt that has a value comes what is done with the value. -/
theorem SameEnds.andThen (h : Steady attempt) (huse : ∀ v w, Steady fun time => use time v w)
    {v : Value} (hvalue : ∃ time, attempt time = .finished (.value v w)) :
    SameEnds (fun time => (attempt time).andThen (use time)) fun time => use time v w := by
  obtain ⟨least, hleast⟩ := hvalue
  refine .of_eventually (h.andThen huse) (huse v w) least 0 fun time htime => ?_
  simp only [Nat.add_zero, (h least time htime).finished hleast, Attempt.andThen]

/-- An outcome other than a value is the outcome of all that was to come after it. -/
theorem EndsAs.andThen (h : EndsAs attempt outcome w') (hvalue : outcome.isValue = false) :
    EndsAs (fun time => (attempt time).andThen (use time)) outcome w' := by
  obtain ⟨r, ⟨time, hend⟩, hcomes⟩ := h
  refine ⟨r, ⟨time, ?_⟩, hcomes⟩
  cases r with
  | value v w₁ =>
      obtain ⟨_, ⟨rfl, -⟩, -⟩ := hcomes 0 0
      cases hvalue
  | fault | trap => simp only [hend, Attempt.andThen]

/-- Attempts in a row come to an end only if the first of them does. -/
theorem EndsAs.of_andThen
    (h : EndsAs (fun time => (attempt time).andThen (use time)) outcome w') :
    ∃ outcome' w'', EndsAs attempt outcome' w'' := by
  obtain ⟨r, ⟨time, hend⟩, -⟩ := h
  cases hfirst : attempt time with
  | outOfTime => simp [hfirst, Attempt.andThen] at hend
  | finished r' =>
      cases r' with
      | value v w₁ =>
          exact ⟨.value v, w₁, _, ⟨time, hfirst⟩, fun d m => ⟨_, ⟨rfl, rfl⟩, rfl⟩⟩
      | fault f w₁ =>
          exact ⟨.fault f, w₁, _, ⟨time, hfirst⟩, fun d m => ⟨_, ⟨rfl, rfl⟩, rfl⟩⟩
      | trap t w₁ =>
          exact ⟨.trap t, w₁, _, ⟨time, hfirst⟩, fun d m => ⟨_, ⟨rfl, d, rfl⟩, d, rfl⟩⟩

/-- The level of the world makes no difference to an end. -/
theorem EndsAs.onLevel (h : EndsAs attempt outcome w') (d m : Nat) :
    EndsAs attempt outcome (w'.onLevel d m) :=
  h

end Attempt

open Attempt

theorem Evaluator.Yields.finishes {x v : Value} {scope : Ref .scope} {w w' : World}
    (h : Yields x scope w v w') : Finishes x scope w (.value v) w' := by
  obtain ⟨least, hleast⟩ := h
  exact finishes_iff.2 (.of_value ⟨least, hleast least (Nat.le_refl least)⟩ fun _ _ => rfl)

theorem Heap.Lists.second_eq {h : Heap} {v x y : Value} {xs : List Value}
    (hlists : h.Lists v (x :: y :: xs)) : h.second v = y := by
  cases hlists with
  | cons hr hrest =>
  cases hrest with
  | cons hr' =>
      simp only [Heap.second, Heap.rest, Heap.first, Heap.pair_eq_of_getElem? hr,
        Heap.pair_eq_of_getElem? hr']

theorem Heap.Lists.third_eq {h : Heap} {v x y z : Value} {xs : List Value}
    (hlists : h.Lists v (x :: y :: z :: xs)) : h.third v = z := by
  cases hlists with
  | cons hr hrest =>
      rw [← Heap.Lists.second_eq hrest]
      simp only [Heap.third, Heap.second, Heap.rest, Heap.pair_eq_of_getElem? hr]

theorem Value.eq_false_of_isTrue {v : Value} (h : v.isTrue = false) : v = .boolean false := by
  unfold Value.isTrue at h
  split at h
  · rfl
  · cases h

/-! ## The law of connectives -/

/-- The expression is the other one, or a copy of its pair. -/
def Heap.Copies (h : Heap) (e e' : Value) : Prop :=
  e' = e ∨ ∃ r r', e = .pair r ∧ e' = .pair r' ∧ h.pair r' = h.pair r

namespace Connective

/-- The evaluation of a form, which ends in the given ways, evaluates the operands from left to
right. Without any it has the value that the connective has for none. Otherwise the call may be
replaced, and then the first operand is evaluated; what is no value ends the whole evaluation. With
a value after which the connective goes on the rest is evaluated like this, if there are operands
left; any other value is the value of the form. -/
def Obeys (c : Connective) (scope : Ref .scope) (ends : Outcome → World → Prop) (es : List Value)
    (w : World) (still : Ref .pair → Prop) : Prop :=
  ∃ site w₁ still₁, c.Rewrites scope site w still w₁ still₁ ∧
    match es with
    | [] => ends (.value c.unit) w₁
    | e :: es => ∃ e₁, w₁.heap.Copies e e₁ ∧
        (∀ outcome w', ends outcome w' → ∃ outcome' w'', Finishes e₁ scope w₁ outcome' w'') ∧
        (∀ outcome w', Finishes e₁ scope w₁ outcome w' → outcome.isValue = false →
          ends outcome w') ∧
        ∀ v w₂ still₂, Finishes e₁ scope w₁ (.value v) w₂ →
          c.Leaves scope w₁.heap still₁ w₂.heap still₂ →
          if c.goesOn v = true ∧ es ≠ [] then
            ∃ es', ∃ _ : Alike es es', Obeys c scope ends es' w₂ still₂
          else ends (.value v) w₂
termination_by es.length
decreasing_by
  rename_i halike
  simp [halike.1]

variable {c : Connective} {scope : Ref .scope} {ends : Outcome → World → Prop} {e e₁ : Value}
  {es : List Value} {site : Ref .pair} {w w₁ : World} {still still₁ : Ref .pair → Prop}
  {use : Nat → Value → World → Attempt Value}

theorem Rewrites.onLevel {w' : World} {still' : Ref .pair → Prop}
    (h : c.Rewrites scope site w still w' still') (d m : Nat) :
    c.Rewrites scope site (w.onLevel d m) still (w'.onLevel d m) still' where
  toLeaves := h.toLeaves
  pairs := h.pairs
  fresh := h.fresh
  scopes := h.scopes
  closures := h.closures
  vectors := h.vectors
  strings := h.strings
  continuations := h.continuations
  others := by
    have hothers := congrArg (World.onLevel d m) h.others
    exact hothers

/-- The level of the world makes no difference to the law. -/
theorem Obeys.onLevel (hends : ∀ outcome w' d m, ends outcome w' → ends outcome (w'.onLevel d m))
    (h : c.Obeys scope ends es w still) (d m : Nat) :
    c.Obeys scope ends es (w.onLevel d m) still := by
  unfold Obeys at h ⊢
  obtain ⟨site, w₁, still₁, hrewrites, hlaw⟩ := h
  refine ⟨site, w₁.onLevel d m, still₁, hrewrites.onLevel d m, ?_⟩
  cases es with
  | nil => exact hends _ _ d m hlaw
  | cons e es => exact hlaw

/-- The first operand is evaluated, and then comes what is done with its value. -/
theorem obeys_cons (hrewrites : c.Rewrites scope site w still w₁ still₁)
    (hcopies : w₁.heap.Copies e e₁)
    (hends : ∀ outcome w', ends outcome w' ↔
      EndsAs (fun time => ((within time).eval e₁ scope w₁).andThen (use time)) outcome w')
    (hsteady : ∀ v w, Steady fun time => use time v w)
    (hnext : ∀ v w₂ still₂, c.Leaves scope w₁.heap still₁ w₂.heap still₂ →
      (∀ outcome w', ends outcome w' ↔ EndsAs (fun time => use time v w₂) outcome w') →
      if c.goesOn v = true ∧ es ≠ [] then
        ∃ es', ∃ _ : Alike es es', c.Obeys scope ends es' w₂ still₂
      else ends (.value v) w₂) :
    c.Obeys scope ends (e :: es) w still := by
  have hlevel : ∀ outcome w' d m, ends outcome w' → ends outcome (w'.onLevel d m) :=
    fun outcome w' d m h => (hends _ _).2 (((hends _ _).1 h).onLevel d m)
  unfold Obeys
  refine ⟨site, w₁, still₁, hrewrites, e₁, hcopies, fun outcome w' h => ?_,
    fun outcome w' h hvalue => ?_, fun v w₂ still₂ h hleaves => ?_⟩
  · obtain ⟨outcome', w'', hfirst⟩ := ((hends _ _).1 h).of_andThen
    exact ⟨outcome', w'', finishes_iff.2 hfirst⟩
  · exact (hends _ _).2 ((finishes_iff.1 h).andThen hvalue)
  · -- The attempts are at this world on some other level.
    obtain ⟨w₃, hend, hsame⟩ := (finishes_iff.1 h).exists_value
    obtain ⟨d, m, rfl⟩ : ∃ d m, w₂ = w₃.onLevel d m :=
      ⟨w₂.depth, w₂.maxDepth, (hsame w₂.depth w₂.maxDepth).symm⟩
    have hrest := SameEnds.andThen (steady_eval e₁ scope w₁) hsteady hend
    have hgoes := hnext v w₃ still₂ hleaves fun outcome w' =>
      (hends outcome w').trans hrest.endsAs_iff
    split at hgoes
    · rename_i hmore
      obtain ⟨es', halike, hobeys⟩ := hgoes
      rw [if_pos hmore]
      exact ⟨es', halike, hobeys.onLevel hlevel _ _⟩
    · rename_i hlast
      rw [if_neg hlast]
      exact hlevel _ _ _ _ hgoes

/-- What is done with the value of the first test: clauses without a body have it as their value. -/
def afterTest (ref : Ref .pair) (rest : Value) (scope : Ref .scope) (time : Nat) (v : Value)
    (w : World) : Attempt Value :=
  if v.isTrue then (within time).chosen (.pair ref) v scope w
  else (within time).clauses time rest scope w

theorem steady_afterTest (ref : Ref .pair) (rest : Value) (scope : Ref .scope) (v : Value)
    (w : World) : Steady fun time => afterTest ref rest scope time v w := by
  intro time time' hle
  unfold afterTest
  split
  · exact (within_le hle).chosen _ _ _ _
  · exact (within_le hle).clauses hle _ _ _

theorem sameEnds_afterTest {r ref : Ref .pair} {rest others : Value}
    (hcell : w.heap.pair r = ⟨.pair ref, rest⟩) (hclause : w.heap.pair ref = ⟨e, others⟩)
    (helse : e ≠ .symbol .else_) :
    SameEnds (fun time => (within time).clauses time (.pair r) scope w)
      (fun time => ((within time).eval e scope w).andThen (afterTest ref rest scope time)) := by
  have hsucc : ∀ self : Evaluator, ∀ time, self.clauses (time + 1) (.pair r) scope w =
      (self.eval e scope w).andThen fun v w =>
        if v.isTrue then self.chosen (.pair ref) v scope w
        else self.clauses time rest scope w := by
    intro self time
    simp only [Evaluator.clauses, hcell, Heap.first, hclause, if_neg helse]
  refine .of_le (fun time => ?_) fun time => ?_
  · cases time with
    | zero => exact outOfTime_le _
    | succ time =>
        rw [hsucc]
        refine (Attempt.Le.refl _).andThen fun v w => ?_
        unfold afterTest
        split
        · exact .refl _
        · exact (Evaluator.within_le (Nat.le_refl _)).clauses (Nat.le_succ time) _ _ _
  · rw [hsucc]
    refine ((within_le (Nat.le_succ time)).eval _ _ _).andThen fun v w => ?_
    unfold afterTest
    split
    · exact (within_le (Nat.le_succ time)).chosen _ _ _ _
    · exact (within_le (Nat.le_succ time)).clauses (Nat.le_refl time) _ _ _

/-! ## The law holds -/

/-- Clauses without bodies are evaluated up to the first true test. -/
theorem obeys_clauses (hrewrites : disjunction.Rewrites scope site w still w₁ still₁) {v : Value}
    {cs : List Value} (hclauses : Items (w₁.heap.Still still₁) v cs)
    (htests : List.Forall₂ (fun clause e => Items (w₁.heap.Still still₁) clause [e]) cs es)
    (hadmits : ∀ e ∈ es, disjunction.Admits e)
    (hends : ∀ outcome w', ends outcome w' ↔
      EndsAs (fun time => (within time).clauses time v scope w₁) outcome w') :
    disjunction.Obeys scope ends es w still := by
  induction es generalizing v cs w w₁ still still₁ site with
  | nil =>
      cases htests
      cases hclauses
      unfold Obeys
      exact ⟨site, w₁, still₁, hrewrites, (hends _ _).2 (.of_value ⟨1, rfl⟩ fun _ _ => rfl)⟩
  | cons e es ih =>
      cases htests with
      | cons htest htests =>
      cases hclauses with
      | @cons r _ rest _ hcell hrest =>
      cases htest with
      | @cons ref _ _ _ hclause hnil =>
      cases hnil
      have hends' := fun outcome w' => (hends outcome w').trans (sameEnds_afterTest
        (Heap.pair_eq_of_getElem? hcell.2) (Heap.pair_eq_of_getElem? hclause.2)
        (hadmits e (List.mem_cons_self ..))).endsAs_iff
      refine obeys_cons hrewrites (Or.inl rfl) hends' (steady_afterTest ref rest scope) ?_
      intro v w₂ still₂ hleaves hafter
      have hbody : w₂.heap.rest (.pair ref) = .nil :=
        congrArg Pair.rest (Heap.pair_eq_of_getElem? (hleaves.cells _ _ hclause).2)
      have hrest₂ := hrest.mono hleaves.cells
      have htests₂ := htests.imp fun _ _ h => h.mono hleaves.cells
      cases htrue : v.isTrue with
      | true =>
          rw [if_neg (by simp [goesOn, htrue])]
          refine (hafter _ _).2 (.of_value ⟨0, ?_⟩ fun _ _ => rfl)
          simp only [afterTest, htrue, if_true, Evaluator.chosen, hbody, Value.isNil]
          rfl
      | false =>
          simp only [afterTest, htrue, Bool.false_eq_true, if_false] at hafter
          cases htests with
          | nil =>
              cases hrest
              rw [if_neg (by simp)]
              obtain rfl : v = .boolean false := Value.eq_false_of_isTrue htrue
              exact (hafter _ _).2 (.of_value ⟨1, rfl⟩ fun _ _ => rfl)
          | cons =>
              rw [if_pos ⟨by simp [goesOn, htrue], by simp⟩]
              exact ⟨_, .refl _, ih (.refl disjunction scope site w₂ still₂) hrest₂ htests₂
                (fun e he => hadmits e (List.mem_cons_of_mem _ he)) hafter⟩

/-- A new interpreter that has read a datum. -/
def reading (d : Datum) : World :=
  { World.new World.nowhere with heap := (World.prelude.build d).2 }

/-- The names of the transformer, after `first` was given the value of `rest`. -/
def reboundNames : Environment :=
  [("null?", .primitive .isNull), ("rest", .primitive .cdr), ("first", .primitive .cdr)]

/-- With these, a conjunction of one operand expands into the rest of the list of operands. -/
theorem evals_rebound {σ : Moment} {args x : Value} (hargs : Items σ.Cell args [x]) :
    σ.Evals ([("args", args)] ++ reboundNames) scope conjunctionText fun _ v => v = .nil := by
  cases hargs with
  | @cons r _ _ _ hcell hnil =>
      cases hnil
      refine Moment.Evals.cond rfl (Moment.Evals.looks rfl (Moment.Evals.looks rfl ?_))
      change if (Value.boolean ((σ.heap.rest (.pair r)).isOf .null)).isTrue then _ else _
      rw [hcell.rest_eq]
      intro σ' hle
      refine Moment.Evals.looks rfl ?_
      change σ'.heap.rest (.pair r) = .nil
      rw [(hle.cells _ _ hcell).rest_eq]

/-- The code of a world in which `first` has another value, and a conjunction of one operand. -/
structure Rebound (w : World) (site : Ref .pair) (x : Value) : Prop where
  seen : w.heap.locate? ⟨"and"⟩ .global = some (.global, .transformer ⟨1⟩)
  code : ∃ body name, w.heap.closures[1]? = some ⟨⟨[], some ⟨"args"⟩⟩, body, .global, name⟩ ∧
    LaidOut (fun r p => w.heap.pairs[r.index]? = some p) body conjunctionText
  names : ∀ s v, reboundNames.lookup s = some v → w.heap.locate? ⟨s⟩ .global = some (.global, v)
  call : ∃ operands, w.heap.pairs[site.index]? = some ⟨.symbol ⟨"and"⟩, operands⟩ ∧
    w.heap.Lists operands [x]

/-- Such a conjunction has the empty list as its value. -/
theorem Rebound.yields {x : Value} (h : Rebound w site x) :
    ∃ w', Yields (.pair site) .global w .nil w' := by
  obtain ⟨body, name, hclosure, hbody⟩ := h.code
  obtain ⟨operands, hcell, hlists⟩ := h.call
  have hall : ∀ r p, w.heap.pairs[r.index]? = some p → (keeping w fun _ => True).Cell r p :=
    fun r p hp => cell_keeping ⟨trivial, hp⟩
  have hcode : (keeping w fun _ => True).Code body conjunctionText := (hbody.mono hall).code (by decide)
  have hbinds : (keeping w fun _ => True).Binds .global reboundNames :=
    ⟨Heap.inBounds_of_locate? h.seen, fun s v hs => ⟨_, h.names s v hs⟩⟩
  obtain ⟨inner, w₁, σ, v, henter, hyields, hle, rfl⟩ := Moment.expands_operands
    (σ := keeping w fun _ => True) (c := ⟨1⟩) hclosure hcode hbinds rfl [x] fun _ _ _ => evals_rebound
  have hlt : site.index < σ.world.heap.pairs.size :=
    Nat.lt_of_lt_of_le (Array.getElem?_eq_some_iff.1 hcell).1 hle.size
  obtain ⟨b, -, hsite, hb, -⟩ := (Step.spliced_spliced (m := ⟨1⟩) hlt .nil).1.other rfl
  refine ⟨spliced site ⟨1⟩ .nil σ.world,
    .expansion (Heap.pair_eq_of_getElem? hcell) rfl (.variable h.seen)
    (World.elements_eq hlists) henter hyields (.sequence hsite (.last ?_ ?_))⟩
  · simp only [Heap.rest, hb, Value.isPair]
  · rw [Heap.first, hb]
    exact .selfEvaluating rfl

/-- Pairs, scopes and closures of the prelude are as it left them. -/
structure KeepsPrelude (w : World) : Prop where
  pairs : ∀ (i : Nat) p, World.prelude.pairs[i]? = some p → w.heap.pairs[i]? = some p
  scopes : ∀ (i : Nat) s, World.prelude.scopes[i]? = some s → w.heap.scopes[i]? = some s
  closures : ∀ (i : Nat) c, World.prelude.closures[i]? = some c → w.heap.closures[i]? = some c

theorem KeepsPrelude.locate? (h : KeepsPrelude w) {name : String} {v : Value}
    (hname : (name, v) ∈ Prelude.names) :
    w.heap.locate? ⟨name⟩ .global = some (.global, v) :=
  Heap.locateWithin_mono h.scopes (Nat.le_refl _) (World.locate?_prelude hname)

end Connective

end Scheme
