import Scheme.Proofs.PromiseCalls
/-!
# Runs with a promise

Whatever else goes on in a run, a promise that has been made is called every now and then. Calls may
be open while others are made, and may be cut short. A run is followed from one state to the next at
which others are at work, or the code of the promise is about to be evaluated, and through the
stretches in between.
-/

namespace Scheme

open Step

/-- The machine is about to evaluate the expression. -/
def State.Evaluates (x : Value) (s : State) : Prop :=
  ∃ scope, s.control = .eval x scope ∨ s.control = .reduce x scope

/-- The code of promises and the transformer for local bindings are what they are after the prelude,
but for local bindings that have been replaced. -/
def PromiseCode.Intact (c : PromiseCode) (w : World) : Prop :=
  ∃ σ : Moment, σ.world = w ∧ σ.Continues World.prelude ∧ σ.IsBinder ∧ σ.IsPromise c

/-- In the run, the code of promises is intact whenever it is evaluated. -/
def PromiseCode.Kept (c : PromiseCode) (start : Step) : Prop :=
  ∀ n s, start.steps n = .next s → s.Evaluates (.pair c.check) ∨ s.Evaluates (.pair c.recheck) →
    c.Intact s.world

theorem PromiseCode.Kept.of_steps {c : PromiseCode} {start step : Step} {m : Nat}
    (h : c.Kept start) (hm : start.steps m = step) : c.Kept step := by
  intro n s hs hcode
  refine h (m + n) s ?_ hcode
  rw [steps_add, hm, hs]

theorem PromiseCode.Kept.onto {c : PromiseCode} {start : Step} {m : Nat} {control : Control}
    {below : List Pending} {w : World} (h : c.Kept start) (hm : start.steps m = go control below w) :
    c.Kept (go control [] w) := by
  intro n s hs hcode
  refine h (m + n) ⟨s.control, s.stack ++ below, s.world⟩ ?_ hcode
  rw [steps_add, hm]
  exact steps_onto_next hs below

namespace Promise

variable {P : Promise} {b : Bool} {start : Step} {known settled settled' settled'' : Option Value}
  {h h' : Heap} {m n k : Nat} {s s' : State} {w : World} {f : Ref .scope} {v : Value}
  {control : Control} {below ending : List Pending}

/-- The work that waits for the value of a call of the promise within the call. -/
def Ending (ending : List Pending) : Prop :=
  ending = [] ∨ ending = [.leave]

/-- Where a run is after so many steps. Either others are at work, maybe above a call of the promise
that has gone on to other work; or the run is that of a call of the promise. -/
inductive Along (P : Promise) : Bool → Step → Nat → State → Prop where
  | others {start : Step} {n : Nat} {s : State} (hn : start.steps n = .next s)
    (hcontrol : s.control.Allowed P.seclusion.policy s.world.heap)
    (hstack : P.seclusion.policy.AdmitsStack s.world.heap s.stack) : Along P false start n s
  | inCall {start : Step} {m j n : Nat} {control : Control} {below : List Pending} {w : World}
    {s : State} (hm : start.steps m = go control below w)
    (hcall : Along P true (go control [] w) j s) (hn : n = m + j)
    (hbelow : P.seclusion.policy.AdmitsStack s.world.heap below) :
    Along P false start n ⟨s.control, s.stack ++ below, s.world⟩
  | entered {start : Step} {n : Nat} {f : Ref .scope} {w : World}
    (hn : start.steps n = go (.eval (.pair P.code.check) f) [] w) (hf : P.Entered w.heap f) :
    Along P true start n ⟨.eval (.pair P.code.check) f, [], w⟩
  | checking {start : Step} {n : Nat} {f : Ref .scope} {ending : List Pending} {w : World}
    (hn : start.steps n = go (.reduce (.pair P.code.check) f) ending w) (hf : P.Entered w.heap f)
    (hending : Ending ending) : Along P true start n ⟨.reduce (.pair P.code.check) f, ending, w⟩
  | expanding {start : Step} {m j n : Nat} {control : Control} {ending : List Pending} {w : World}
    {s : State} {f : Ref .scope} {h : Heap} (hexpands : P.Expands f h (go control [] w))
    (hm : start.steps m = go control (.expansion P.code.inner ⟨3⟩ (some f) :: ending) w)
    (hwork : Along P false (go control [] w) j s) (hn : n = m + j) (hh : P.Stands none h)
    (hle : P.Leads h s.world.heap) (hf : P.Entered s.world.heap f) (hending : Ending ending) :
    Along P true start n
      ⟨s.control, s.stack ++ .expansion P.code.inner ⟨3⟩ (some f) :: ending, s.world⟩
  | evaluating {start : Step} {m j n : Nat} {called : State} {control : Control}
    {ending : List Pending} {w : World} {s : State} {f : Ref .scope} {g : Ref .closure} {all : Value}
    (hm : start.steps m = .next called)
    (hcalls : called.Calls P.thunk (evaluation g all f ++ ending))
    (hcalled : called.step = go control (evaluation g all f ++ ending) w)
    (hwork : Along P false (go control [] w) j s) (hn : n = m + 1 + j)
    (hg : P.Rechecks s.world.heap g f) (hending : Ending ending) :
    Along P true start n ⟨s.control, s.stack ++ (evaluation g all f ++ ending), s.world⟩
  | rechecking {start : Step} {n : Nat} {f inner : Ref .scope} {ending : List Pending} {w : World}
    {v : Value} (hn : start.steps n = go (.reduce (.pair P.code.recheck) inner) ending w)
    (hi : P.Receives w.heap inner f v) (hv : P.seclusion.Shows w.heap v)
    (hdone : ∃ m ≤ n, ∃ u, start.Delivers P.thunk m u) (hending : Ending ending) :
    Along P true start n ⟨.reduce (.pair P.code.recheck) inner, ending, w⟩
  | answered {start : Step} {n : Nat} {w : World} {v : Value}
    (hn : start.steps n = go (.resume v) [] w) (hst : P.Stands (some v) w.heap) :
    Along P true start n ⟨.resume v, [], w⟩
  | failed {start : Step} {n : Nat} {w : World} {f : Fault}
    (hn : start.steps n = go (.unwind f) [] w) : Along P true start n ⟨.unwind f, [], w⟩

/-- A promise that has no result comes to have one only after an evaluation of its expression. -/
def Grows (P : Promise) (start : Step) (n : Nat) (settled settled' : Option Value) : Prop :=
  settled' = settled ∨ settled = none ∧ ∃ m ≤ n, ∃ u, start.Delivers P.thunk m u

/-- Through a stretch, the run comes to a state where it can be followed on. -/
def Comes (P : Promise) (b : Bool) (start : Step) (known settled : Option Value) (h : Heap)
    (n : Nat) (s : State) : Prop :=
  ∃ k s' settled', State.Through (P.Calm known) k s s' ∧ P.Along b start (n + k) s' ∧
    P.Stands settled' s'.world.heap ∧ P.Leads h s'.world.heap ∧
    P.Grows start (n + k) settled settled'

/-- The run ends here, or comes to such a state in some steps. -/
def Proceeds (P : Promise) (b : Bool) (start : Step) (known settled : Option Value) (n : Nat)
    (s : State) : Prop :=
  s.Final ∨ (∃ outcome w, s.step = .done outcome w ∧ outcome.isTrap = true) ∨
    ∃ s', s.step = .next s' ∧ P.Comes b start known settled s.world.heap (n + 1) s'

/-! ## Following a run -/

theorem Along.steps (h : P.Along b start n s) : start.steps n = .next s := by
  induction h with
  | inCall hm _ hn _ ih =>
      rw [hn, steps_add, hm]
      exact steps_onto_next ih _
  | expanding _ hm _ hn _ _ _ _ ih =>
      rw [hn, steps_add, hm]
      exact steps_onto_next ih _
  | evaluating hm _ hcalled _ hn _ _ ih =>
      rw [hn, steps_add, steps_succ', hm, advanced, hcalled]
      exact steps_onto_next ih _
  | others hn | entered hn | checking hn | rechecking hn | answered hn | failed hn => exact hn

theorem Grows.refl : P.Grows start n settled settled :=
  Or.inl rfl

theorem Grows.trans (hle : m ≤ n) (h₁ : P.Grows start m settled settled')
    (h₂ : P.Grows start n settled' settled'') : P.Grows start n settled settled'' := by
  rcases h₁ with rfl | ⟨rfl, m', hm', hdone⟩
  · exact h₂
  · exact Or.inr ⟨rfl, m', Nat.le_trans hm' hle, hdone⟩

theorem Grows.eq_some (h : P.Grows start n settled settled') (hv : settled = some v) :
    settled' = some v := by
  rcases h with rfl | ⟨rfl, -⟩
  · exact hv
  · cases hv

theorem Grows.onto (h : P.Grows (go control [] w) k settled settled')
    (hm : start.steps m = go control below w) : P.Grows start (m + k) settled settled' := by
  refine h.imp_right fun ⟨hnone, j, hj, u, hu⟩ => ⟨hnone, m + j, by omega, u, ?_⟩
  obtain ⟨w', base, hopen⟩ := hu
  exact ⟨w', _, hopen.onto hm⟩

theorem Comes.of_through (hthrough : State.Through (P.Calm known) k s s')
    (hs' : P.Comes b start known settled h (n + k) s') : P.Comes b start known settled h n s := by
  obtain ⟨k', s'', settled', hthrough', halong, hst, hle, hgrows⟩ := hs'
  rw [Nat.add_assoc] at halong hgrows
  exact ⟨k + k', s'', settled', hthrough.trans hthrough', halong, hst, hle, hgrows⟩

theorem Comes.arrived (halong : P.Along b start n s) (hst : P.Stands settled' s.world.heap)
    (hle : P.Leads h s.world.heap) (hgrows : P.Grows start n settled settled') :
    P.Comes b start known settled h n s :=
  ⟨0, s, settled', .here s, halong, hst, hle, hgrows⟩

/-- The call of the promise has come to its result. -/
theorem comes_answered (hn : start.steps n = go (.resume v) ending w) (hending : Ending ending)
    (hst : P.Remains (some v) h w.heap) (hgrows : P.Grows start n settled (some v))
    (hknown : ∀ v, known = some v → settled = some v) :
    P.Comes true start known settled h n ⟨.resume v, ending, w⟩ := by
  rcases hending with rfl | rfl
  · exact .arrived (.answered hn hst.1) hst.1 hst.2 hgrows
  · have hkeeps : P.Keeps known w.heap :=
      hst.1.keeps fun u hu => hgrows.eq_some (hknown u hu)
    have hstep : State.step ⟨.resume v, [.leave], w⟩ = go (.resume v) [] w.leave := rfl
    have hn' : start.steps (n + 1) = go (.resume v) [] w.leave := by
      rw [steps_succ', hn]
      rfl
    refine .of_through (.one (State.quiet_resume hkeeps fun c below h => by cases h) hstep)
      (.arrived (.answered hn' hst.1) hst.1 hst.2 (.trans (Nat.le_succ n) hgrows .refl))

/-- The call of the promise has come to a fault. -/
theorem comes_failed {fault : Fault} (hn : start.steps n = go (.unwind fault) ending w)
    (hending : Ending ending) (hst : P.Remains settled h w.heap)
    (hknown : ∀ v, known = some v → settled = some v) :
    P.Comes true start known settled h n ⟨.unwind fault, ending, w⟩ := by
  rcases hending with rfl | rfl
  · exact .arrived (.failed hn) hst.1 hst.2 .refl
  · have hstep : State.step ⟨.unwind fault, [.leave], w⟩ = go (.unwind fault) [] w.leave := rfl
    have hn' : start.steps (n + 1) = go (.unwind fault) [] w.leave := by
      rw [steps_succ', hn]
      rfl
    exact .of_through (.one (State.quiet_unwind (hst.1.keeps hknown)) hstep)
      (.arrived (.failed hn') hst.1 hst.2 .refl)

/-- A stretch of the code of the promise, above the end of the call. -/
theorem Comes.of_goes {R : State → Prop}
    (hn : start.steps n = .next ⟨s.control, s.stack ++ ending, s.world⟩) (hending : Ending ending)
    (hgoes : s.Goes (P.Calm known) [] (P.Remains settled h) R)
    (hknown : ∀ v, known = some v → settled = some v)
    (hR : ∀ n' s', n ≤ n' → start.steps n' = .next ⟨s'.control, s'.stack ++ ending, s'.world⟩ →
      R s' → P.Comes true start known settled h n' ⟨s'.control, s'.stack ++ ending, s'.world⟩) :
    P.Comes true start known settled h n ⟨s.control, s.stack ++ ending, s.world⟩ := by
  have hsteps : ∀ {k s'}, State.Through (P.Calm known) k s s' →
      start.steps (n + k) = .next ⟨s'.control, s'.stack ++ ending, s'.world⟩ := fun hthrough => by
    rw [steps_add, hn, (hthrough.onto ending).steps]
  rcases hgoes with ⟨k, s', hthrough, hs'⟩ | ⟨k, deep, k', fault, w, hthrough, -, hthrough', hw⟩
  · exact .of_through (hthrough.onto ending) (hR _ s' (Nat.le_add_right n k) (hsteps hthrough) hs')
  · have hall := hthrough.trans hthrough'
    exact .of_through (hall.onto ending) (comes_failed (hsteps hall) hending hw hknown)

end Promise

/-- A stretch that is not at its end begins with a step. -/
theorem State.Goes.exists_next {Q : State → Prop} {below : List Pending} {J : Heap → Prop}
    {R : State → Prop} {s : State} (h : s.Goes Q below J R) (hs : ¬ R s) (hdeep : ¬ s.TooDeep) :
    ∃ s₁, s.step = .next s₁ ∧ s₁.Goes Q below J R := by
  rcases h with ⟨k, s', hthrough, hs'⟩ | ⟨k, deep, k', f, w, hthrough, hrest⟩
  · cases hthrough with
    | here => exact absurd hs' hs
    | next _ hstep hthrough => exact ⟨_, hstep, Or.inl ⟨_, s', hthrough, hs'⟩⟩
  · cases hthrough with
    | here => exact absurd hrest.1 hdeep
    | next _ hstep hthrough => exact ⟨_, hstep, Or.inr ⟨_, deep, k', f, w, hthrough, hrest⟩⟩

namespace Promise

variable {P : Promise} {b b' : Bool} {start : Step} {known settled settled' : Option Value}
  {h h' : Heap} {m n j k : Nat} {s s' : State} {w : World} {f : Ref .scope} {v : Value}
  {control : Control} {below ending : List Pending}

/-- A stretch of the code of the promise comes next. -/
theorem Proceeds.of_goes {R : State → Prop}
    (hn : start.steps n = .next ⟨s.control, s.stack ++ ending, s.world⟩) (hending : Ending ending)
    (hgoes : s.Goes (P.Calm known) [] (P.Remains settled s.world.heap) R) (hs : ¬ R s)
    (hdeep : ¬ s.TooDeep) (hknown : ∀ v, known = some v → settled = some v)
    (hR : ∀ n' s', n ≤ n' → start.steps n' = .next ⟨s'.control, s'.stack ++ ending, s'.world⟩ →
      R s' → P.Comes true start known settled s.world.heap n'
        ⟨s'.control, s'.stack ++ ending, s'.world⟩) :
    P.Proceeds true start known settled n ⟨s.control, s.stack ++ ending, s.world⟩ := by
  obtain ⟨s₁, hstep, hgoes₁⟩ := hgoes.exists_next hs hdeep
  have hstep' := State.step_onto hstep ending
  refine Or.inr (Or.inr ⟨_, hstep', .of_goes ?_ hending hgoes₁ hknown fun n' s' hn' =>
    hR n' s' (Nat.le_of_succ_le hn')⟩)
  rw [steps_succ', hn]
  exact hstep'

/-- The procedure that evaluates the expression is called. -/
theorem comes_calling {g : Ref .closure} {all : Value}
    (hn : start.steps n = go (.resume (.closure P.thunk))
      (.operator P.code.call .nil f :: (evaluation g all f ++ ending)) w) (hending : Ending ending)
    (hst : P.Remains none h w.heap) (hg : P.Rechecks w.heap g f) :
    P.Comes true start none none h n ⟨.resume (.closure P.thunk),
      .operator P.code.call .nil f :: (evaluation g all f ++ ending), w⟩ := by
  obtain ⟨name, hthunk⟩ := hst.1.thunk
  have hcalls : State.Calls P.thunk ⟨.resume (.closure P.thunk),
    .operator P.code.call .nil f :: (evaluation g all f ++ ending), w⟩ _ := .calledWithout
  obtain ⟨control, w', hstep, hcontrol, hheap, -, -⟩ := hcalls.enters hthunk
  have hopens : P.seclusion.Opens (w.heap.addScope ⟨{}, some P.scope⟩).2 ⟨w.heap.scopes.size⟩ :=
    hst.1.secluded.opens_addScope hst.1.around.1
  have hremains := hst.1.remains_spares (hst.1.secluded.addScope (t := ⟨{}, some P.scope⟩) (by simp))
    (w.heap.spares_addScope _)
  have hadmitted : control.Admitted P.seclusion.policy w'.heap := by
    have hbody : P.seclusion.Shows w'.heap P.expression := by
      rw [hheap]
      exact hremains.1.shows_expression
    rw [← hheap] at hopens
    rcases hcontrol with rfl | rfl <;> exact ⟨hbody, hopens⟩
  rw [← hheap] at hremains
  refine .of_through (.one ⟨keeps_none P _, (fun hfinal => by cases hfinal.1), ?_⟩ hstep) ?_
  · intro c below h
    cases h
    exact ⟨hst.1.procedure_ne.symm, fun _ => rfl⟩
  · refine .arrived (s := ⟨control, evaluation g all f ++ ending, w'⟩) ?_ hremains.1
      (hst.2.trans hremains.2) .refl
    exact .evaluating (j := 0) hn hcalls hstep
      (.others rfl (Or.inl hadmitted) (by simp [MachinePolicy.AdmitsStack])) rfl
      (hg.mono hst.1 hremains.2) hending

/-! ## Where the code of the promise is about to be evaluated -/

theorem proceeds_checking
    (hn : start.steps n = go (.reduce (.pair P.code.check) f) ending w) (hending : Ending ending)
    (hintact : P.code.Intact w) (hst : P.Stands settled w.heap) (hf : P.Entered w.heap f)
    (hknown : ∀ v, known = some v → settled = some v) :
    P.Proceeds true start known settled n ⟨.reduce (.pair P.code.check) f, ending, w⟩ := by
  obtain ⟨σ, rfl, hσ, hb, hp⟩ := hintact
  refine .of_goes (s := ⟨.reduce (.pair P.code.check) f, [], σ.world⟩) hn hending
    (goes_entered hσ hb hp hst hf (hst.keeps hknown)) ?_ ?_ hknown fun n s' _ hn hs' => ?_
  · rintro (⟨v, -, heq⟩ | ⟨-, ⟨_, _, _, heq, -⟩ | ⟨_, _, _, heq, -⟩⟩) <;> cases heq
  · rintro ⟨⟨x, scope, heq⟩, -⟩
    cases heq
  · rcases hs' with ⟨v, rfl, rfl⟩ | ⟨rfl, hs' | hs'⟩
    · exact comes_answered hn hending hst.remains .refl hknown
    · obtain ⟨body, inner, w, rfl, hremains, hallowed, hexpands, -⟩ := hs'
      refine .arrived (s := ⟨_, [.expansion P.code.inner ⟨3⟩ (some f)] ++ ending, w⟩) ?_ hremains.1
        hremains.2 .refl
      exact .expanding (s := ⟨_, [], w⟩) (j := 0) hexpands hn
        (.others rfl hallowed (by simp [MachinePolicy.AdmitsStack])) rfl hst hremains.2
        (hf.mono hst hremains.2) hending
    · obtain ⟨g, all, w, rfl, hremains, hg⟩ := hs'
      have hnone : known = none := (hst.keeps hknown).eq_none hst
      rw [hnone]
      exact comes_calling hn hending hremains hg

theorem proceeds_entered (hn : start.steps n = go (.eval (.pair P.code.check) f) [] w)
    (hst : P.Stands settled w.heap) (hf : P.Entered w.heap f) :
    P.Proceeds true start known settled n ⟨.eval (.pair P.code.check) f, [], w⟩ := by
  by_cases hdepth : w.depth < w.maxDepth
  · have hstep : State.step ⟨.eval (.pair P.code.check) f, [], w⟩ =
        go (.reduce (.pair P.code.check) f) [.leave] { w with depth := w.depth + 1 } := if_pos hdepth
    refine Or.inr (Or.inr ⟨_, hstep, .arrived (.checking ?_ hf (Or.inr rfl)) hst (.refl P _) .refl⟩)
    rw [steps_succ', hn]
    exact hstep
  · have hdeep : State.TooDeep ⟨.eval (.pair P.code.check) f, [], w⟩ :=
      ⟨⟨_, f, rfl⟩, Nat.le_of_not_lt hdepth⟩
    refine Or.inr (Or.inr ⟨_, hdeep.step, .arrived (.failed ?_) hst (.refl P _) .refl⟩)
    rw [steps_succ', hn]
    exact hdeep.step

theorem proceeds_rechecking {inner : Ref .scope}
    (hn : start.steps n = go (.reduce (.pair P.code.recheck) inner) ending w)
    (hending : Ending ending) (hintact : P.code.Intact w) (hst : P.Stands settled w.heap)
    (hi : P.Receives w.heap inner f v) (hv : P.seclusion.Shows w.heap v)
    (hdone : ∃ m ≤ n, ∃ u, start.Delivers P.thunk m u)
    (hknown : ∀ v, known = some v → settled = some v) :
    P.Proceeds true start known settled n ⟨.reduce (.pair P.code.recheck) inner, ending, w⟩ := by
  obtain ⟨σ, rfl, -, -, hp⟩ := hintact
  have hlies : P.code.Lies σ.world.heap.HasPair := hp.lies.mono fun _ _ hr => hr.2
  refine .of_goes (s := ⟨.reduce (.pair P.code.recheck) inner, [], σ.world⟩) hn hending
    (goes_rechecking hlies hst hi hv (hst.keeps hknown)) ?_ ?_ hknown fun n' s' hle hn' hs' => ?_
  · rintro ⟨_, _, heq, -⟩
    cases heq
  · rintro ⟨⟨x, scope, heq⟩, -⟩
    cases heq
  · obtain ⟨v, w, rfl, hremains, hsame⟩ := hs'
    refine comes_answered hn' hending hremains ?_ hknown
    cases settled with
    | some u => exact Or.inl (congrArg some (hsame u rfl))
    | none =>
        obtain ⟨m, hm, hdelivers⟩ := hdone
        exact Or.inr ⟨rfl, m, Nat.le_trans hm hle, hdelivers⟩

/-! ## Where others are at work -/

/-- A part of a run is followed in the whole run, above the work below the part. -/
theorem Proceeds.onto (hs : P.Proceeds b (go control [] w) known settled j s) (hfinal : ¬ s.Final)
    (hm : start.steps m = go control below w) (halong : ∀ i s', P.Leads s.world.heap s'.world.heap →
      P.Along b (go control [] w) i s' →
      P.Along b' start (m + i) ⟨s'.control, s'.stack ++ below, s'.world⟩) :
    P.Proceeds b' start known settled (m + j) ⟨s.control, s.stack ++ below, s.world⟩ := by
  rcases hs with hs | ⟨outcome, w', hstep, htrap⟩ | ⟨s', hstep, hs'⟩
  · exact absurd hs hfinal
  · exact Or.inr (Or.inl ⟨outcome, w', State.step_onto_trap hstep htrap below, htrap⟩)
  · obtain ⟨k, s'', settled', hthrough, hs'', hst, hle, hgrows⟩ := hs'
    refine Or.inr (Or.inr ⟨_, State.step_onto hstep below, k, _, settled', hthrough.onto below, ?_,
      hst, hle, ?_⟩)
    · rw [Nat.add_assoc m j 1, Nat.add_assoc]
      exact halong _ s'' hle hs''
    · rw [Nat.add_assoc m j 1, Nat.add_assoc]
      exact hgrows.onto hm

theorem Stands.shows_result (hst : P.Stands (some v) h) : P.seclusion.Shows h v := by
  obtain ⟨bindings, hflags, hvariables⟩ := hst.flags
  exact hst.secluded.bindings _ _ hflags (fun heq => hst.flags_ne.2 (congrArg Ref.mk heq))
    "result" v (hvariables "result")

/-- A value that a run has come to may be seen. -/
theorem Along.shows (halong : P.Along b start n s) (hs : s.control = .resume v)
    (hstack : s.stack = []) : P.seclusion.Shows s.world.heap v := by
  induction halong with
  | others hn hcontrol =>
      rcases hcontrol with hcontrol | ⟨x, scope, heq | heq, -⟩
      · rw [hs] at hcontrol
        exact hcontrol
      · cases hs.symm.trans heq
      · cases hs.symm.trans heq
  | inCall _ _ _ _ ih => exact ih hs (List.append_eq_nil_iff.1 hstack).1
  | answered _ hst =>
      cases hs
      exact hst.shows_result
  | expanding | evaluating => cases (List.append_eq_nil_iff.1 hstack).2
  | entered | checking | rechecking | failed => cases hs

/-- The expression has a value. -/
theorem proceeds_returning {g : Ref .closure} {all : Value}
    (hn : start.steps n = go (.resume v) (evaluation g all f ++ ending) w) (hending : Ending ending)
    (hst : P.Stands settled w.heap) (hg : P.Rechecks w.heap g f) (hv : P.seclusion.Shows w.heap v)
    (hdone : start.Delivers P.thunk n v) (hknown : ∀ v, known = some v → settled = some v) :
    P.Proceeds true start known settled n ⟨.resume v, evaluation g all f ++ ending, w⟩ := by
  refine .of_goes (s := ⟨.resume v, evaluation g all f, w⟩) hn hending
    (goes_returning hst hg hv (hst.keeps hknown)) ?_ ?_ hknown fun n' s' hle hn' hs' => ?_
  · rintro ⟨_, _, heq, -⟩
    cases heq
  · rintro ⟨⟨x, scope, heq⟩, -⟩
    cases heq
  · obtain ⟨inner, w', rfl, hremains, hi, hv'⟩ := hs'
    exact .arrived (.rechecking hn' hi hv' ⟨n, hle, v, hdone⟩ hending) hremains.1 hremains.2 .refl

/-- A fault passes what waits in a call of the promise. -/
theorem proceeds_passing {fault : Fault} {p : Pending} (above : List Pending)
    (hn : start.steps n = go (.unwind fault) (p :: above ++ ending) w) (hending : Ending ending)
    (hpasses : ∀ q ∈ p :: above, q.Passes) (hst : P.Stands settled w.heap)
    (hknown : ∀ v, known = some v → settled = some v) :
    P.Proceeds true start known settled n ⟨.unwind fault, p :: above ++ ending, w⟩ := by
  obtain ⟨hp, habove⟩ := List.forall_mem_cons.1 hpasses
  obtain ⟨w₁, hstep, hheap⟩ := hp fault (above ++ ending) w
  have hstep' : State.step ⟨.unwind fault, p :: above ++ ending, w⟩ =
    go (.unwind fault) (above ++ ending) w₁ := hstep
  have hkeeps : P.Keeps known w₁.heap := hheap ▸ hst.keeps hknown
  obtain ⟨k, w₂, hthrough, hheap'⟩ : ∃ k w₂, State.Through (P.Calm known) k
      ⟨.unwind fault, above ++ ending, w₁⟩ ⟨.unwind fault, ending, w₂⟩ ∧ w₂.heap = w₁.heap :=
    State.exists_unwound above fault habove hkeeps
  have hn₁ : start.steps (n + 1) = go (.unwind fault) (above ++ ending) w₁ := by
    rw [steps_succ', hn]
    exact hstep'
  refine Or.inr (Or.inr ⟨_, hstep', .of_through hthrough (comes_failed ?_ hending ?_ hknown)⟩)
  · rw [steps_add, hn₁]
    exact hthrough.steps
  · rw [hheap', hheap]
    exact hst.remains

/-- A replacement in the code of the promise leaves the scope secluded. -/
theorem Stands.replaced {site : Ref .pair} {c : Ref .closure} {scope : Ref .scope} {w' : World}
    (hst : P.Stands settled w.heap) (hv : P.seclusion.Shows w.heap v)
    (hreplace : Step.replace site c (some scope) v [] w = go (.reduce (.pair site) scope) [] w') :
    P.Remains settled w.heap w'.heap := by
  have hready : Step.Ready P.seclusion.policy w [] :=
    ⟨hst.secluded, by simp [MachinePolicy.AdmitsStack]⟩
  have hobeys : (Step.replace site c none v [] w).Obeys P.seclusion.policy w.heap :=
    obeys_replace hready trivial (by simp) hv
  have hsame : Step.replace site c none v [] w = go (.resume (.pair site)) [] w' := by
    cases hreplace
    rfl
  rw [hsame] at hobeys
  exact hst.remains_spares hobeys.1 hobeys.2.1

/-- The local binding has been expanded. No result has come in the meantime. -/
theorem goes_expanded {start : Step} (hexpands : P.Expands f h start)
    (hends : start.Ends (.value v) w) (hh : P.Stands none h) (hst : P.Stands settled w.heap)
    (hf : P.Entered w.heap f) (hv : P.seclusion.Shows w.heap v) :
    settled = none ∧ State.Goes (P.Calm none) [] (P.Remains none w.heap) (P.Calling w.heap f)
      ⟨.resume v, [.expansion P.code.inner ⟨3⟩ (some f)], w⟩ := by
  obtain ⟨w', hreplace, hexpanded, hcall, hscopes⟩ := hexpands v w hends
  have hremains := hst.replaced hv (hreplace [])
  -- there was no result before, and the variables are the same
  obtain rfl : none = settled := hh.settled_eq hremains.1 fun t => hscopes _ t
  refine ⟨rfl, .step (State.quiet_resume (keeps_none P _) fun c below h => by cases h)
    (hreplace []) ?_⟩
  refine (goes_calling hcall hexpanded hremains.1 (hf.mono hst hremains.2)).weaken
    (fun _ hremains' => ⟨hremains'.1, hremains.2.trans hremains'.2⟩) ?_
  rintro s ⟨g, all, w'', rfl, hremains', hg⟩
  exact ⟨g, all, w'', rfl, ⟨hremains'.1, hremains.2.trans hremains'.2⟩, hg⟩

theorem proceeds_expanded {j : Nat} {control : Control} {w₀ : World}
    (hn : start.steps n = go (.resume v) (.expansion P.code.inner ⟨3⟩ (some f) :: ending) w)
    (hending : Ending ending) (hexpands : P.Expands f h (go control [] w₀))
    (hj : (go control [] w₀).steps j = go (.resume v) [] w) (hh : P.Stands none h)
    (hst : P.Stands settled w.heap) (hf : P.Entered w.heap f) (hv : P.seclusion.Shows w.heap v)
    (hknown : ∀ v, known = some v → settled = some v) :
    P.Proceeds true start known settled n
      ⟨.resume v, .expansion P.code.inner ⟨3⟩ (some f) :: ending, w⟩ := by
  have hends : (go control [] w₀).Ends (.value v) w := by
    refine ⟨j + 1, ?_⟩
    rw [steps_succ', hj]
    rfl
  obtain ⟨rfl, hgoes⟩ := goes_expanded hexpands hends hh hst hf hv
  obtain rfl := (hst.keeps hknown).eq_none hst
  refine .of_goes (s := ⟨.resume v, [.expansion P.code.inner ⟨3⟩ (some f)], w⟩) hn hending hgoes
    ?_ ?_ hknown fun n' s' _ hn' hs' => ?_
  · rintro ⟨_, _, _, heq, -⟩
    cases heq
  · rintro ⟨⟨x, scope, heq⟩, -⟩
    cases heq
  · obtain ⟨g, all, w', rfl, hremains, hg⟩ := hs'
    exact comes_calling hn' hending hremains hg

/-- What waits outside may wait as long as scopes keep their parents and closures their code. -/
theorem admitsStack_mono {stack : List Pending}
    (hstack : P.seclusion.policy.AdmitsStack h stack) (hle : h.Follows h') :
    P.seclusion.policy.AdmitsStack h' stack :=
  fun p hp => (hstack p hp).imp (fun hv => Seclusion.Shows.mono hv hle)
    fun hs => Seclusion.Opens.mono hs hle

theorem proceeds_others (hn : start.steps n = .next s) (hkept : P.code.Kept start)
    (hcontrol : s.control.Allowed P.seclusion.policy s.world.heap)
    (hstack : P.seclusion.policy.AdmitsStack s.world.heap s.stack)
    (hst : P.Stands settled s.world.heap) (hknown : ∀ v, known = some v → settled = some v) :
    P.Proceeds false start known settled n s := by
  obtain ⟨control, stack, w⟩ := s
  rcases hcontrol with hcontrol | ⟨x, scope, hcontrol, e, he, rfl, holder, hscope⟩
  · have hobeys := State.obeys_step ⟨hst.secluded, hstack⟩ hcontrol
    cases hstep : State.step ⟨control, stack, w⟩ with
    | next s' =>
        rw [hstep] at hobeys
        obtain ⟨hgood, hspares, hcontrol', hstack'⟩ := hobeys
        have hn' : start.steps (n + 1) = .next s' := by
          rw [steps_succ', hn]
          exact hstep
        obtain ⟨hst', hle⟩ := hst.remains_spares hgood hspares
        exact Or.inr (Or.inr ⟨s', hstep, .arrived (.others hn' hcontrol' hstack') hst' hle .refl⟩)
    | done outcome w' =>
        rcases State.done_cases hstep with htrap | ⟨v, rfl, heq⟩ | ⟨f, rfl, heq⟩
        · exact Or.inr (Or.inl ⟨outcome, w', hstep, htrap⟩)
        · cases heq
          exact Or.inl ⟨rfl, Or.inl ⟨v, rfl⟩⟩
        · cases heq
          exact Or.inl ⟨rfl, Or.inr ⟨f, rfl⟩⟩
  · cases he
    have hf : P.Entered w.heap scope := ⟨hscope, holder⟩
    have hcalls : ∀ i s', P.Leads w.heap s'.world.heap → P.Along true (go control [] w) i s' →
        P.Along false start (n + i) ⟨s'.control, s'.stack ++ stack, s'.world⟩ :=
      fun i s' hle h => .inCall hn h rfl (admitsStack_mono hstack hle.toFollows)
    rcases hcontrol with rfl | rfl
    · exact (proceeds_entered (n := 0) rfl hst hf).onto (s := ⟨_, [], w⟩) (fun hfinal => by
        rcases hfinal.2 with ⟨_, h⟩ | ⟨_, h⟩ <;> cases h) hn hcalls
    · have hintact : P.code.Intact w :=
        hkept n _ hn (Or.inl ⟨scope, Or.inr rfl⟩)
      exact (proceeds_checking (n := 0) rfl (Or.inl rfl) hintact hst hf hknown).onto (s := ⟨_, [], w⟩)
        (fun hfinal => by rcases hfinal.2 with ⟨_, h⟩ | ⟨_, h⟩ <;> cases h) hn hcalls

/-- A run that is followed can be followed on. -/
theorem Along.proceeds (halong : P.Along b start n s) (hkept : P.code.Kept start)
    (hst : P.Stands settled s.world.heap) (hknown : ∀ v, known = some v → settled = some v) :
    P.Proceeds b start known settled n s := by
  induction halong with
  | others hn hcontrol hstack => exact proceeds_others hn hkept hcontrol hstack hst hknown
  | @inCall start m j n control below w s hm hcall hn hbelow ih =>
      subst hn
      by_cases hfinal : s.Final
      · obtain ⟨control', stack, w'⟩ := s
        obtain ⟨rfl, hcontrol⟩ := hfinal
        refine proceeds_others (Along.inCall hm hcall rfl hbelow).steps hkept (Or.inl ?_) hbelow hst
          hknown
        rcases hcontrol with ⟨v, rfl⟩ | ⟨f, rfl⟩
        · exact hcall.shows rfl rfl
        · trivial
      · exact (ih (hkept.onto hm) hst).onto hfinal hm fun i s' hle h =>
          .inCall hm h rfl (admitsStack_mono hbelow hle.toFollows)
  | entered hn hf => exact proceeds_entered hn hst hf
  | checking hn hf hending =>
      exact proceeds_checking hn hending (hkept _ _ hn (Or.inl ⟨_, Or.inr rfl⟩)) hst hf
        hknown
  | rechecking hn hi hv hdone hending =>
      exact proceeds_rechecking hn hending (hkept _ _ hn (Or.inr ⟨_, Or.inr rfl⟩)) hst
        hi hv hdone hknown
  | answered | failed => exact Or.inl ⟨rfl, by simp⟩
  | @expanding start m j n control ending w s f h hexpands hm hwork hn hh hle hf hending ih =>
      subst hn
      have hsteps := (Along.expanding hexpands hm hwork rfl hh hle hf hending).steps
      by_cases hfinal : s.Final
      · obtain ⟨control', stack, w'⟩ := s
        obtain ⟨rfl, hcontrol⟩ := hfinal
        rcases hcontrol with ⟨v, rfl⟩ | ⟨fault, rfl⟩
        · exact proceeds_expanded hsteps hending hexpands hwork.steps hh hst hf
            (hwork.shows rfl rfl) hknown
        · refine proceeds_passing [] hsteps hending ?_ hst hknown
          simpa using Pending.passes_expansion _ _ _
      · exact (ih (hkept.onto hm) hst).onto hfinal hm fun i s' hle' h' =>
          .expanding hexpands hm h' rfl hh (hle.trans hle') (hf.mono hst hle') hending
  | @evaluating start m j n called control ending w s f g all hm hcalls hcalled hwork hn hg hending
      ih =>
      subst hn
      have hm' : start.steps (m + 1) = go control (evaluation g all f ++ ending) w := by
        rw [steps_succ', hm]
        exact hcalled
      have hsteps := (Along.evaluating hm hcalls hcalled hwork rfl hg hending).steps
      by_cases hfinal : s.Final
      · obtain ⟨control', stack, w'⟩ := s
        obtain ⟨rfl, hcontrol⟩ := hfinal
        rcases hcontrol with ⟨v, rfl⟩ | ⟨fault, rfl⟩
        · exact proceeds_returning hsteps hending hst hg (hwork.shows rfl rfl)
            ⟨w', _, m, called, control, w, j, hm, hcalls, hcalled, hwork.steps, rfl⟩ hknown
        · refine proceeds_passing _ hsteps hending ?_ hst hknown
          simpa using ⟨Pending.passes_leave, Pending.passes_operand _ _ _ _ _⟩
      · exact (ih (hkept.onto hm') hst).onto hfinal hm' fun i s' hle h =>
          .evaluating hm hcalls hcalled h rfl (hg.mono hst hle) hending

/-- After any number of steps more, the run can be followed or is in a stretch. -/
theorem Along.run (halong : P.Along b start n s) (known : Option Value)
    (hst : P.Stands settled s.world.heap) (hknown : ∀ v, known = some v → settled = some v)
    (hkept : P.code.Kept start) (k : Nat) (hk : start.steps (n + k) = .next s') :
    P.Calm known s' ∨ ∃ settled', P.Along b start (n + k) s' ∧ P.Stands settled' s'.world.heap ∧
      P.Leads s.world.heap s'.world.heap ∧ P.Grows start (n + k) settled settled' := by
  induction k using Nat.strongRecOn generalizing n s settled with
  | ind k ih =>
  cases k with
  | zero =>
      obtain rfl := Step.next.inj (halong.steps.symm.trans hk)
      exact Or.inr ⟨settled, halong, hst, .refl P _, .refl⟩
  | succ k =>
      have hn := halong.steps
      rw [steps_add, hn, steps_next] at hk
      rcases halong.proceeds hkept hst hknown with hfinal | ⟨outcome, w, hstep, -⟩ |
        ⟨s₁, hstep, hs₁⟩
      · obtain ⟨s₁, hstep⟩ := steps_eq_next_of_le (Nat.zero_le k) hk
        exact absurd hfinal (State.not_final_of_next hstep)
      · rw [hstep, steps_done] at hk
        cases hk
      · obtain ⟨i, s₂, settled₂, hthrough, halong₂, hst₂, hle, hgrows⟩ := hs₁
        rw [hstep] at hk
        rcases Nat.lt_or_ge k i with hlt | hge
        · obtain ⟨_, hk', hcalm⟩ := hthrough.exists_at hlt
          cases hk.symm.trans hk'
          exact Or.inl hcalm
        · obtain ⟨d, rfl⟩ := Nat.exists_eq_add_of_le hge
          rw [steps_add, hthrough.steps] at hk
          have hindex : n + 1 + i + d = n + (i + d + 1) := by omega
          rcases ih d (by omega) halong₂ hst₂ (fun v hv => hgrows.eq_some (hknown v hv))
            (by rw [steps_add, halong₂.steps, hk]) with hcalm |
            ⟨settled', halong', hst', hle', hgrows'⟩
          · exact Or.inl hcalm
          · rw [hindex] at halong' hgrows'
            exact Or.inr ⟨settled', halong', hst', hle.trans hle', hgrows.trans (by omega) hgrows'⟩

/-- From its start on, the run can be followed or is in a stretch. -/
theorem Along.follow (halong : P.Along b start 0 s) (hst : P.Stands settled s.world.heap)
    (hkept : P.code.Kept start) (hn : start.steps n = .next s') :
    P.Calm none s' ∨ ∃ settled', P.Along b start n s' ∧ P.Stands settled' s'.world.heap ∧
      P.Leads s.world.heap s'.world.heap ∧ P.Grows start n settled settled' := by
  have hrun := halong.run none hst (fun _ h => by cases h) hkept n (by rwa [Nat.zero_add])
  rwa [Nat.zero_add] at hrun

end Promise

end Scheme
