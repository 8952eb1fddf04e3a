import Scheme.Proofs.PromiseRuns
/-!
# Results of promises

A call of a promise that comes to a value comes to the result of the promise. From then on the
expression is not evaluated again, and all calls come to this value, also those that are open. While
no evaluation of the expression has come to a value, every call evaluates it.
-/

namespace Scheme

open Step

/-- The run comes to a call of the closure, or to where the limit stops it. -/
def Step.Starts (start : Step) (c : Ref .closure) : Prop :=
  ∃ k s, start.steps k = .next s ∧ ((∃ below, s.Calls c below) ∨ s.TooDeep)

/-- Above other work, the run comes there as well. -/
theorem Step.Starts.onto {control : Control} {w : World} {c : Ref .closure}
    (h : (go control [] w).Starts c) (below : List Pending) : (go control below w).Starts c := by
  obtain ⟨k, s, hk, hs⟩ := h
  refine ⟨k, _, steps_onto_next hk below, hs.imp ?_ id⟩
  rintro ⟨below', hcalls⟩
  exact ⟨_, hcalls.onto below⟩

/-- A call that is made above other work is the same call without it. -/
theorem State.Calls.exists_inner {c : Ref .closure} {s : State} {control : Control} {w : World}
    {body : Value} {scope : Ref .scope} {name : Option Symbol} {base below : List Pending}
    (hcalls : State.Calls c ⟨s.control, s.stack ++ base, s.world⟩ below) (hfinal : ¬ s.Final)
    (hc : s.world.heap.closures[c.index]? = some ⟨⟨[], none⟩, body, scope, name⟩)
    (hstep : State.step ⟨s.control, s.stack ++ base, s.world⟩ = go control below w) :
    ∃ below', s.Calls c below' ∧ s.step = go control below' w ∧ below = below' ++ base := by
  obtain ⟨below', hcalls'⟩ := hcalls.of_onto hfinal
  obtain ⟨control', w', hstep', -⟩ := hcalls'.enters hc
  have honto := (State.step_onto hstep' base).symm.trans hstep
  cases honto
  exact ⟨below', hcalls', hstep', rfl⟩

namespace Promise

variable {P : Promise} {b : Bool} {start : Step} {known settled settled' : Option Value}
  {h h' : Heap} {m n j k : Nat} {s s' called : State} {w : World} {f : Ref .scope} {v : Value}
  {control : Control} {below ending : List Pending} {name : Option Symbol}

/-! ## Calls -/

/-- The procedure of the promise. -/
theorem Stands.exists_procedure (hst : P.Stands settled h) : ∃ name,
    h.closures[P.procedure.index]? = some ⟨⟨[], none⟩, .pair P.code.check, P.flags, name⟩ :=
  (hst.secluded.entrance _ rfl).2

/-- Others call only closures that are seen. -/
theorem shows_of_calls {S : Seclusion} {c : Ref .closure} (hcalls : s.Calls c below)
    (hcontrol : s.control.Allowed S.policy s.world.heap)
    (hstack : S.policy.AdmitsStack s.world.heap s.stack) :
    S.Shows s.world.heap (.closure c) ∧ S.policy.AdmitsStack s.world.heap below := by
  rcases hcontrol with hcontrol | ⟨x, scope, heq, -⟩
  · cases hcalls with
    | applied => exact ⟨hcontrol.1, hstack⟩
    | called =>
        obtain ⟨hp, hbelow⟩ := List.forall_mem_cons.1 hstack
        exact ⟨hp.1, hbelow⟩
    | calledWithout =>
        exact ⟨hcontrol, (List.forall_mem_cons.1 hstack).2⟩
  · cases hcalls <;> rcases heq with heq | heq <;> cases heq

/-- In a run that can be followed, the procedure that evaluates the expression is not the next to be
called. -/
theorem Along.not_calls_thunk (halong : P.Along b start n s) : ¬ s.Calls P.thunk below := by
  intro hcalls
  induction halong generalizing below with
  | others hn hcontrol hstack => exact (shows_of_calls hcalls hcontrol hstack).1.1 rfl
  | @inCall start m j n control below₀ w s hm hcall hn hbelow ih =>
      by_cases hfinal : s.Final
      · obtain ⟨control', stack, w'⟩ := s
        obtain ⟨rfl, ⟨v, rfl⟩ | ⟨fault, rfl⟩⟩ := hfinal
        · exact (shows_of_calls hcalls (Or.inl (hcall.shows rfl rfl)) hbelow).1.1 rfl
        · exact (shows_of_calls hcalls (Or.inl trivial) hbelow).1.1 rfl
      · obtain ⟨below', hcalls'⟩ := hcalls.of_onto hfinal
        exact ih hcalls'
  | @expanding start m j n control ending w s f h hexpands hm hwork hn hh hle hf hending ih =>
      by_cases hfinal : s.Final
      · obtain ⟨control', stack, w'⟩ := s
        obtain ⟨rfl, ⟨v, rfl⟩ | ⟨fault, rfl⟩⟩ := hfinal <;> cases hcalls
      · obtain ⟨below', hcalls'⟩ := hcalls.of_onto hfinal
        exact ih hcalls'
  | @evaluating start m j n called control ending w s f g all hm hc hcalled hwork hn hg hending
      ih =>
      by_cases hfinal : s.Final
      · obtain ⟨control', stack, w'⟩ := s
        obtain ⟨rfl, ⟨v, rfl⟩ | ⟨fault, rfl⟩⟩ := hfinal <;> cases hcalls
      · obtain ⟨below', hcalls'⟩ := hcalls.of_onto hfinal
        exact ih hcalls'
  | entered | checking | rechecking => cases hcalls
  | answered | failed => cases hcalls

/-- A call of the promise can be followed in the run that it is made in. -/
theorem Along.inside (halong : P.Along b start m called)
    (hst : P.Stands settled called.world.heap) (hcalls : called.Calls P.procedure below)
    (hstep : called.step = go control below w) (hcall : P.Along true (go control [] w) j s)
    (hle : P.Leads called.world.heap s.world.heap) :
    P.Along b start (m + 1 + j) ⟨s.control, s.stack ++ below, s.world⟩ := by
  obtain ⟨name, hprocedure⟩ := hst.exists_procedure
  have hothers : ∀ {start : Step} {m : Nat} {called : State} {below : List Pending},
      start.steps m = .next called → called.Calls P.procedure below →
      called.step = go control below w →
      called.control.Allowed P.seclusion.policy called.world.heap →
      P.seclusion.policy.AdmitsStack called.world.heap called.stack →
      P.Leads called.world.heap s.world.heap →
      P.Along false start (m + 1 + j) ⟨s.control, s.stack ++ below, s.world⟩ := by
    intro start m called below hm hcalls hstep hcontrol hstack hle
    refine .inCall ?_ hcall rfl (admitsStack_mono (shows_of_calls hcalls hcontrol hstack).2
      hle.toFollows)
    rw [steps_succ', hm]
    exact hstep
  induction halong generalizing below with
  | others hn hcontrol hstack => exact hothers hn hcalls hstep hcontrol hstack hle
  | @inCall start m i n control₀ below₀ w₀ s₀ hm hcall₀ hn hbelow ih =>
      by_cases hfinal : s₀.Final
      · have hsteps := (Along.inCall hm hcall₀ hn hbelow).steps
        obtain ⟨control', stack, w'⟩ := s₀
        obtain ⟨rfl, ⟨v, rfl⟩ | ⟨fault, rfl⟩⟩ := hfinal
        · exact hothers hsteps hcalls hstep (Or.inl (hcall₀.shows rfl rfl)) hbelow hle
        · exact hothers hsteps hcalls hstep (Or.inl trivial) hbelow hle
      · obtain ⟨below', hcalls', hstep', rfl⟩ := hcalls.exists_inner hfinal hprocedure hstep
        have hinner := ih hst hcalls' hstep' hle hprocedure
        rw [← List.append_assoc]
        exact .inCall hm hinner (by omega) (admitsStack_mono hbelow hle.toFollows)
  | @expanding start m i n control₀ ending w₀ s₀ f h hexpands hm hwork hn hh hle₀ hf hending ih =>
      by_cases hfinal : s₀.Final
      · obtain ⟨control', stack, w'⟩ := s₀
        obtain ⟨rfl, ⟨v, rfl⟩ | ⟨fault, rfl⟩⟩ := hfinal <;> cases hcalls
      · obtain ⟨below', hcalls', hstep', rfl⟩ := hcalls.exists_inner hfinal hprocedure hstep
        have hinner := ih hst hcalls' hstep' hle hprocedure
        rw [← List.append_assoc]
        exact .expanding hexpands hm hinner (by omega) hh (hle₀.trans hle) (hf.mono hst hle) hending
  | @evaluating start m i n called₀ control₀ ending w₀ s₀ f g all hm hc hcalled hwork hn hg hending
      ih =>
      by_cases hfinal : s₀.Final
      · obtain ⟨control', stack, w'⟩ := s₀
        obtain ⟨rfl, ⟨v, rfl⟩ | ⟨fault, rfl⟩⟩ := hfinal <;> cases hcalls
      · obtain ⟨below', hcalls', hstep', rfl⟩ := hcalls.exists_inner hfinal hprocedure hstep
        have hinner := ih hst hcalls' hstep' hle hprocedure
        rw [← List.append_assoc]
        exact .evaluating hm hc hcalled hinner (by omega) (hg.mono hst hle) hending
  | entered | checking | rechecking => cases hcalls
  | answered | failed => cases hcalls

/-- A call of the promise begins with its code, in a scope for the call. -/
theorem Stands.calls (hst : P.Stands settled s.world.heap) (hcalls : s.Calls P.procedure below)
    (hstep : s.step = go control below w) : ∃ f,
      (control = .eval (.pair P.code.check) f ∨ control = .reduce (.pair P.code.check) f) ∧
      P.Entered w.heap f ∧ P.Remains settled s.world.heap w.heap := by
  obtain ⟨name, hprocedure⟩ := hst.exists_procedure
  obtain ⟨control', w', hstep', hcontrol, hheap, -⟩ := hcalls.enters hprocedure
  cases hstep.symm.trans hstep'
  have hremains := hst.remains_spares (hst.secluded.addScope (t := ⟨{}, some P.flags⟩) (by simp))
    (s.world.heap.spares_addScope _)
  obtain ⟨bindings, hflags, -⟩ := hst.flags
  refine ⟨_, hcontrol, ?_, hheap ▸ hremains⟩
  rw [hheap]
  exact ⟨Array.getElem?_push_size, (Array.getElem?_eq_some_iff.1 hflags).1⟩

theorem Along.of_calls (hst : P.Stands settled s.world.heap) (hcalls : s.Calls P.procedure below)
    (hstep : s.step = go control below w) :
    P.Along true (go control [] w) 0 ⟨control, [], w⟩ ∧ P.Remains settled s.world.heap w.heap := by
  obtain ⟨f, hcontrol, hf, hremains⟩ := hst.calls hcalls hstep
  rcases hcontrol with rfl | rfl
  · exact ⟨.entered rfl hf, hremains⟩
  · exact ⟨.checking rfl hf (Or.inl rfl), hremains⟩

theorem Along.result (halong : P.Along true start n s) (hs : s.control = .resume v)
    (hstack : s.stack = []) : P.Stands (some v) s.world.heap := by
  cases halong with
  | answered _ hst =>
      cases hs
      exact hst
  | expanding | evaluating => cases (List.append_eq_nil_iff.1 hstack).2
  | entered | checking | rechecking | failed => cases hs

/-! ## Calls that evaluate the expression -/

/-- A stretch to the call of the procedure that evaluates the expression. -/
theorem starts_of_goes {J : Heap → Prop} (hgoes : s.Goes (P.Calm none) [] J (P.Calling h f)) :
    (Step.next s).Starts P.thunk := by
  rcases hgoes with ⟨k, s', hthrough, g, all, w', rfl, -⟩ | ⟨k, deep, -, -, -, hthrough, hdeep, -⟩
  · exact ⟨k, _, hthrough.steps, Or.inl ⟨_, .calledWithout⟩⟩
  · exact ⟨k, deep, hthrough.steps, Or.inr hdeep⟩

/-- When the local binding has been expanded, the expression is evaluated. -/
theorem starts_expanding (hs : P.Expanding h f s) (hh : P.Stands none h) (hf : P.Entered h f)
    (hkept : P.code.Kept (.next s)) : (Step.next s).Starts P.thunk := by
  obtain ⟨body, inner, w, rfl, hremains, hallowed, hexpands, hdeep | ⟨v, w', hends⟩⟩ := hs
  · obtain ⟨k, deep, hk, hdeep⟩ := hdeep
    exact ⟨k, _, steps_onto_next hk _, Or.inr hdeep⟩
  · obtain ⟨k, hk, -⟩ := hends.resumes []
    have hbegun : P.Along false (go (.eval body inner) [] w) 0 ⟨.eval body inner, [], w⟩ :=
      .others rfl hallowed (by simp [MachinePolicy.AdmitsStack])
    rcases hbegun.follow hremains.1 (hkept.onto (m := 0) rfl) hk with hcalm |
      ⟨settled, halong, hst, hle, -⟩
    · exact absurd ⟨rfl, Or.inl ⟨v, rfl⟩⟩ hcalm.active
    · obtain ⟨-, hgoes⟩ := goes_expanded hexpands hends hh hst
        (hf.mono hh (hremains.2.trans hle)) (halong.shows rfl rfl)
      obtain ⟨k', s', hk', hs'⟩ := starts_of_goes hgoes
      refine ⟨k + k', s', ?_, hs'⟩
      have honto : (go (.eval body inner) [.expansion P.code.inner ⟨3⟩ (some f)] w).steps k =
          go (.resume v) [.expansion P.code.inner ⟨3⟩ (some f)] w' := steps_onto_next hk _
      rw [steps_add]
      exact (congrArg (fun step : Step => step.steps k') honto).trans hk'

/-- A call of a promise without a result evaluates the expression. -/
theorem starts_checking (hintact : P.code.Intact w) (hst : P.Stands none w.heap)
    (hf : P.Entered w.heap f)
    (hkept : P.code.Kept (go (.reduce (.pair P.code.check) f) [] w)) :
    (go (.reduce (.pair P.code.check) f) [] w).Starts P.thunk := by
  obtain ⟨σ, rfl, hσ, hb, hp⟩ := hintact
  rcases goes_entered hσ hb hp hst hf (keeps_none P _) with ⟨k, s, hthrough, hs⟩ |
    ⟨k, deep, -, -, -, hthrough, hdeep, -⟩
  · have hk := hthrough.steps
    rcases hs with ⟨v, hv, -⟩ | ⟨-, hs | ⟨g, all, w', rfl, -⟩⟩
    · cases hv
    · obtain ⟨k', s', hk', hs'⟩ := starts_expanding hs hst hf (hkept.of_steps hk)
      refine ⟨k + k', s', ?_, hs'⟩
      rw [steps_add]
      exact (congrArg (fun step : Step => step.steps k') hk).trans hk'
    · exact ⟨k, _, hk, Or.inl ⟨_, .calledWithout⟩⟩
  · exact ⟨k, deep, hthrough.steps, Or.inr hdeep⟩

theorem starts_entered (hst : P.Stands none w.heap) (hf : P.Entered w.heap f)
    (hkept : P.code.Kept (go (.eval (.pair P.code.check) f) [] w)) :
    (go (.eval (.pair P.code.check) f) [] w).Starts P.thunk := by
  by_cases hdepth : w.depth < w.maxDepth
  · generalize hw : ({ w with depth := w.depth + 1 } : World) = w₁
    have hheap : w₁.heap = w.heap := hw ▸ rfl
    have hstep : State.step ⟨.eval (.pair P.code.check) f, [], w⟩ =
        go (.reduce (.pair P.code.check) f) [.leave] w₁ := hw ▸ if_pos hdepth
    have hintact : P.code.Intact w₁ := hkept 1 _ hstep (Or.inl ⟨f, Or.inr rfl⟩)
    obtain ⟨k, s, hk, hs⟩ := (starts_checking hintact (hheap ▸ hst) (hheap ▸ hf)
      (hkept.onto (m := 1) hstep)).onto [.leave]
    refine ⟨1 + k, s, ?_, hs⟩
    rw [steps_add]
    exact (congrArg (fun step : Step => step.steps k) hstep).trans hk
  · exact ⟨0, _, rfl, Or.inr ⟨⟨_, f, rfl⟩, Nat.le_of_not_lt hdepth⟩⟩

/-! ## The laws of promises -/

/-- A result stays, and the expression is not evaluated any more. -/
theorem Along.stays (halong : P.Along false start m s) (hkept : P.code.Kept start)
    (hst' : P.Stands (some v) s.world.heap) (hle : m ≤ n) (hn : start.steps n = .next s') :
    P.Stands (some v) s'.world.heap ∧ ∀ below, ¬ s'.Calls P.thunk below := by
  obtain ⟨k, rfl⟩ := Nat.exists_eq_add_of_le hle
  rcases halong.run (some v) hst' (fun _ => id) hkept k hn with hcalm |
    ⟨settled', halong', hst'', -, hgrows⟩
  · refine ⟨hcalm.heap v rfl, fun below hcalls => ?_⟩
    cases (hcalm.calls _ _ hcalls).2 rfl
  · exact ⟨hgrows.eq_some rfl ▸ hst'', fun below => halong'.not_calls_thunk⟩

section Laws

variable {s₀ : State} (hstart : P.Along false start 0 s₀) (hst : P.Stands settled s₀.world.heap)
  (hkept : P.code.Kept start)
include hstart hst hkept

/-- Where the promise is called, the run can be followed. -/
theorem Along.at_call (hn : start.steps n = .next s) (hcalls : s.Calls P.procedure below) :
    ∃ settled', P.Along false start n s ∧ P.Stands settled' s.world.heap ∧
      P.Grows start n settled settled' := by
  rcases hstart.follow hst hkept hn with hcalm | ⟨settled', halong, hst', -, hgrows⟩
  · exact absurd rfl (hcalm.calls _ _ hcalls).1
  · exact ⟨settled', halong, hst', hgrows⟩

/-- A call that comes to a value comes to the result. -/
theorem Along.delivers (hdelivers : start.Delivers P.procedure n v) :
    ∃ s, P.Along false start n s ∧ P.Stands (some v) s.world.heap := by
  obtain ⟨w', below, m, called, control, w, j, hm, hcalls, hcalled, hj, rfl⟩ := hdelivers
  obtain ⟨settled', halong, hst', -⟩ := hstart.at_call hst hkept hm hcalls
  obtain ⟨hbegun, hremains⟩ := Along.of_calls hst' hcalls hcalled
  have hbelow : start.steps (m + 1) = go control below w := by
    rw [steps_succ', hm]
    exact hcalled
  rcases hbegun.follow hremains.1 (hkept.onto hbelow) hj with hcalm |
    ⟨settled'', halong', -, hle, -⟩
  · exact absurd ⟨rfl, Or.inl ⟨v, rfl⟩⟩ hcalm.active
  · exact ⟨_, halong.inside hst' hcalls hcalled halong' (hremains.2.trans hle),
      halong'.result rfl rfl⟩

/-- From the first value on, this is the result. -/
theorem Along.delivered (hdelivers : start.Delivers P.procedure m v) (hle : m ≤ n)
    (hn : start.steps n = .next s) :
    P.Stands (some v) s.world.heap ∧ ∀ below, ¬ s.Calls P.thunk below := by
  obtain ⟨s₁, halong, hst₁⟩ := hstart.delivers hst hkept hdelivers
  exact halong.stays hkept hst₁ hle hn

/-- While no evaluation of the expression has come to a value, a call of the promise begins one. -/
theorem Along.evaluates (hsettled : settled = none) (hn : start.steps n = .next s)
    (hcalls : s.Calls P.procedure below) (hnone : ∀ m ≤ n, ∀ v, ¬ start.Delivers P.thunk m v) :
    ∃ control w, s.step = go control below w ∧ (go control [] w).Starts P.thunk := by
  obtain ⟨settled', halong, hst', hgrows⟩ := hstart.at_call hst hkept hn hcalls
  obtain rfl : settled' = none := by
    rcases hgrows with rfl | ⟨-, m, hm, v, hdelivers⟩
    · exact hsettled
    · exact absurd hdelivers (hnone m hm v)
  obtain ⟨name, hprocedure⟩ := hst'.exists_procedure
  obtain ⟨control, w, hstep, -⟩ := hcalls.enters hprocedure
  obtain ⟨f, hcontrol, hf, hremains⟩ := hst'.calls hcalls hstep
  have hbelow : start.steps (n + 1) = go control below w := by
    rw [steps_succ', hn]
    exact hstep
  have hkept' : P.code.Kept (go control [] w) := hkept.onto hbelow
  refine ⟨control, w, hstep, ?_⟩
  rcases hcontrol with rfl | rfl
  · exact starts_entered hremains.1 hf hkept'
  · exact starts_checking (hkept' 0 _ rfl (Or.inl ⟨f, Or.inr rfl⟩)) hremains.1 hf hkept'

/-- A run that ends, ends with the promise as it is. -/
theorem Along.ends {outcome : Outcome} {w : World} (hends : start.Ends outcome w)
    (htrap : outcome.isTrap = false) : ∃ n s settled', start.steps n = .next s ∧
      s.step = .done outcome w ∧ s.world = w ∧
      (∀ v, outcome = .value v → P.seclusion.Shows w.heap v) ∧
      P.Remains settled' s₀.world.heap w.heap ∧ P.Grows start n settled settled' := by
  obtain ⟨n, hn⟩ := hends
  rcases exists_last hn with hdone | ⟨m, s, hm, hdone⟩
  · have hnext : start = .next s₀ := hstart.steps
    rw [hnext] at hdone
    cases hdone
  rcases hstart.follow hst hkept hm with hcalm | ⟨settled', halong, hst', hle, hgrows⟩
  · rcases State.done_cases hdone with htrap' | ⟨v, -, rfl⟩ | ⟨f, -, rfl⟩
    · rw [htrap] at htrap'
      cases htrap'
    · exact absurd ⟨rfl, Or.inl ⟨v, rfl⟩⟩ hcalm.active
    · exact absurd ⟨rfl, Or.inr ⟨f, rfl⟩⟩ hcalm.active
  · rcases State.done_cases hdone with htrap' | ⟨v, rfl, rfl⟩ | ⟨f, rfl, rfl⟩
    · rw [htrap] at htrap'
      cases htrap'
    · refine ⟨m, _, settled', hm, hdone, rfl, ?_, ⟨hst', hle⟩, hgrows⟩
      rintro _ ⟨⟩
      exact halong.shows rfl rfl
    · exact ⟨m, _, settled', hm, hdone, rfl, fun _ heq => (by cases heq), ⟨hst', hle⟩, hgrows⟩

end Laws

end Promise

end Scheme
