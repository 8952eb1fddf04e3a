import Scheme.Proofs.LoopRounds
/-!
# Iterations

An iteration is replaced by recursive bindings of one name, those by local bindings, and those by a
call of an abstraction. It comes to what its loop comes to, on one level, as long as the expressions
in it leave the code of the loop and the name as they are.
-/

namespace Scheme

open Evaluator Attempt
open Step (Finishes go)

namespace Moment

variable {σ σ' : Moment} {scope owner owner₁ owner₂ : Ref .scope} {site : Ref .pair}
  {clauses : List (Clause Value)} {test : Value} {results body : List Value}

theorem iterationTemplate_not_has : ¬ iterationTemplate.Has recursionTemplate.template := by
  simp [Datum.Has, recursionTemplate, iterationTemplate, unsetTemplate, assignmentTemplate,
    Datum.template, Datum.form, Datum.list, Datum.listStar, Datum.name, Datum.mapping,
    Datum.procedure, Datum.unquoted]

/-- An iteration comes down to a procedure that can call itself. -/
theorem IterationCall.exists_knot (h : σ.IterationCall site clauses test results body)
    (hσ : σ.Continues World.prelude) (hb : σ.IsBinder) (hr : σ.IsRecursion) (hc : σ.IsIteration)
    (hdo : σ.heap.locate? ⟨"do"⟩ scope = some (owner, .transformer ⟨7⟩))
    (hletrec : σ.heap.locate? ⟨"letrec"⟩ scope = some (owner₁, .transformer ⟨5⟩))
    (hlet : σ.heap.locate? ⟨"let"⟩ scope = some (owner₂, .transformer ⟨3⟩)) :
    ∃ σ' call forms branch again inits, σ.Changes σ' ∧
      Knot σ'.Cell site "__loop__" (clauses.map Clause.name) forms call inits ∧
      Items σ'.Cell forms [.pair branch] ∧
      (Clause.loop clauses test results body).IsRound σ'.Cell branch again ∧
      Items σ'.Cell inits (clauses.map Clause.init) ∧ ∃ least, ∀ k, least ≤ k →
        Focus.Iterates k 0 ⟨.pair site, scope, σ.world⟩ ⟨.pair site, scope, σ'.world⟩ := by
  obtain ⟨operands, list, tested, hsite, hoperands, hlist, htested⟩ := h.form
  -- recursive bindings of one name
  obtain ⟨σ₁, x₁, σ₂, h₁, ⟨operands₁, list₁, procedure, forms, branch, again, call, inits, hx₁,
    hoperands₁, hlist₁, hprocedure, hforms, hround, hcall, hinits⟩, hawaits₁, hrewritten₁, h₂, least₁,
    htail₁⟩ := (transforms_iteration hσ hb hc hlist htested body).exists_rewritten h.awaits hsite rfl
      hdo hoperands (by simp [iterationSites]) (by simp)
  have h₁₂ := h₁.toChanges.trans h₂.toChanges
  have hsite₂ := hrewritten₁.pair_site hawaits₁
  rw [hx₁.eq] at hsite₂
  have hbindings : Table σ₂.Cell list₁ ([("__loop__", .pair procedure)].map Binding.row) :=
    hlist₁.mono h₂.cells
  have hr₁ : σ₁.IsRecursion := hr.advances h₁ (by simp [iterationSites, iterationParts])
    (by simp [iterationSites, not_has_recursionTemplate, iterationTemplate_not_has])
  have hb₂ := (hb.advances h₁).advances h₂
  -- local bindings of it to false
  obtain ⟨σ₃, x₂, σ₄, h₃, ⟨⟨assignments, hform, hassignments⟩, -⟩, hawaits₃, hrewritten₂, h₄, least₂,
    htail₂⟩ := (transforms_recursion (hσ.changes h₁₂) hb₂ (hr₁.advances h₂ (by simp) (by simp))
      hbindings [.pair call]).exists_rewritten (hrewritten₁.sites ▸ hawaits₁) hsite₂ rfl
      (locate?_changes h₁₂ hletrec) (hoperands₁.mono h₂.cells) (by simp [recursionSites]) (by simp)
  have h₁₄ := (h₁₂.trans h₃.toChanges).trans h₄.toChanges
  have hcells : ∀ r p, σ₁.Cell r p → σ₄.Cell r p := fun r p hp =>
    h₄.cells r p (h₃.cells r p (h₂.cells r p hp))
  simp only [List.map_cons, List.map_nil, List.forall₂_cons_right_iff,
    List.forall₂_nil_right_iff] at hassignments
  obtain ⟨assigning, _, hassignment, rfl, rfl⟩ := hassignments
  obtain ⟨assignment, rfl⟩ : ∃ r, assigning = .pair r := by
    cases hassignment
    exact ⟨_, rfl⟩
  obtain ⟨σ₅, h₅, hknot, least₃, htail₃⟩ := (hrewritten₂.letCall hawaits₃ hform rfl).exists_knot
    (hassignment.mono h₄.cells) (hprocedure.mono hcells) (hcells _ _ hcall) (hσ.changes h₁₄)
    ((hb₂.advances h₃).advances h₄) (locate?_changes h₁₄ hlet)
  have hcells₅ : ∀ r p, σ₁.Cell r p → σ₅.Cell r p := fun r p hp => h₅.cells r p (hcells r p hp)
  refine ⟨σ₅, call, forms, branch, again, inits, h₁₄.trans h₅, hknot, hforms.mono hcells₅,
    hround.mono hcells₅, hinits.mono hcells₅, max least₁ (max least₂ least₃), fun k hk => ?_⟩
  exact .tail (htail₁ k (by omega)) (.tail (htail₂ k (by omega)) (.tail (htail₃ k (by omega)) (.refl _)))

end Moment

/-- The call that an iteration comes down to: in a scope that binds nothing but `__loop__`, to the
procedure whose body is the code of a round. -/
structure Loop.Starts (l : Loop) (w : World) (scope : Ref .scope) (es : List Value) (w' : World)
    (inner : Ref .scope) (c : Ref .closure) (call : Ref .pair) (operands code : Value) : Prop where
  code : ∃ branch again, w.Ties scope "__loop__" l.names [.pair branch] w' inner c code ∧
    l.IsRound w'.heap.HasPair branch again
  call : w'.heap.HasPair call ⟨.symbol ⟨"__loop__"⟩, operands⟩
  operands : w'.heap.Lists operands es

namespace Moment

variable {σ σ' : Moment} {scope owner owner₁ owner₂ : Ref .scope} {site : Ref .pair}
  {clauses : List (Clause Value)} {test : Value} {results body : List Value}

theorem IterationCall.exists_loop (h : σ.IterationCall site clauses test results body)
    (hσ : σ.Continues World.prelude) (hb : σ.IsBinder) (hr : σ.IsRecursion) (hc : σ.IsIteration)
    (hdo : σ.heap.locate? ⟨"do"⟩ scope = some (owner, .transformer ⟨7⟩))
    (hletrec : σ.heap.locate? ⟨"letrec"⟩ scope = some (owner₁, .transformer ⟨5⟩))
    (hlet : σ.heap.locate? ⟨"let"⟩ scope = some (owner₂, .transformer ⟨3⟩)) :
    ∃ σ' w' inner c call operands code, σ.Changes σ' ∧
      (Clause.loop clauses test results body).Starts σ'.world scope (clauses.map Clause.init) w' inner
        c call operands code ∧ ∃ least, ∀ k, least ≤ k →
          Focus.Iterates k 1 ⟨.pair site, scope, σ.world⟩ ⟨.pair call, inner, w'⟩ := by
  obtain ⟨σ', call, forms, branch, again, inits, h', hknot, hforms, hround, hinits, least, hiterates⟩ :=
    h.exists_knot hσ hb hr hc hdo hletrec hlet
  have hpairs : ∀ r p, σ'.Cell r p → σ'.world.heap.HasPair r p := fun _ _ hr => hr.2
  obtain ⟨w', inner, c, code, least', hties, hcall, hcalls⟩ :=
    (hknot.mono hpairs).exists_ties (hforms.mono hpairs) scope
  have hpairs' : ∀ r p, σ'.Cell r p → w'.heap.HasPair r p := fun r p hr => hties.pairs _ _ hr.2
  refine ⟨σ', w', inner, c, call, inits, code, h', ⟨⟨branch, again, hties, hround.mono hpairs'⟩, hcall,
    hinits.mono hpairs'⟩, max least least', fun k hk => ?_⟩
  exact (hiterates k (by omega)).trans (hcalls k (by omega))

end Moment

namespace Loop.Starts

variable {l : Loop} {w w' : World} {scope inner : Ref .scope} {es : List Value} {c : Ref .closure}
  {call : Ref .pair} {operands code : Value} {I : Condition}

/-- After any number of rounds, a call in tail position has led from the start to the next one. -/
theorem iterates {k n : Nat} {vs vs' : List Value} {w₁ w₂ : World}
    (h : l.Starts w scope es w' inner c call operands code) (hes : es.length = l.names.length)
    (hnexts : l.nexts.length = l.names.length) (hoperands : Items I.Fixes operands es)
    (hl : l.Stays I inner c code)
    (halong : I.Along inner es (fun vs w => ∀ rounds, l.Along I inner rounds vs w) w')
    (hinits : TurnWithin (k + 1) inner es w' vs w₁) (hrounds : l.Rounds (k + 1) inner n vs w₁ vs' w₂) :
    Focus.Iterates (k + 1) (n + 1) ⟨.pair call, inner, w'⟩
      ⟨code, (w₂.enter ⟨l.names.map Symbol.mk, none⟩ vs' inner).1,
        (w₂.enter ⟨l.names.map Symbol.mk, none⟩ vs' inner).2⟩ := by
  obtain ⟨branch, again, hties, -⟩ := h.code
  -- closures are what they were in all worlds from here on
  let J := I.withCode w'.heap
  have hclosure : ∀ scope w, J scope w → ∃ name,
      w.heap.closures[c.index]? = some ⟨⟨l.names.map Symbol.mk, none⟩, code, inner, name⟩ :=
    fun _ _ hJ => hJ.2 _ _ hties.closure_eq
  have hoperands' : Items J.Fixes operands es := hoperands.mono fun _ _ => Condition.Fixes.withCode
  have halong' : J.Along inner es (fun vs w => ∀ rounds, l.Along J inner rounds vs w) w' :=
    halong.withCode (.of_eq rfl) fun vs w hw hvs hall rounds =>
      (hall rounds).withCode hw hnexts (hvs.trans hes)
  obtain ⟨hJ₁, hall, -⟩ := hinits.along halong'
  have hcalls := calls_procedure (Heap.pair_eq_of_getElem? h.call) hties.locate?_eq
    (hinits.operands hoperands' halong') (hclosure _ _ hJ₁)
  exact .call hcalls (hrounds.iterates hl.withCode hclosure (hall n))

end Loop.Starts

namespace Moment

/-- In a new interpreter, and wherever the code of the transformers is as it was and their names are
not hidden, an iteration evaluates the first values in turn, in a scope that adds nothing but
`__loop__` to the one around it, and comes to what its loop comes to: each round has a new scope with
the variables, where the test is evaluated, and then either the results in a row or the body and all
next values, with which the next round begins. That is so as long as the evaluations that are made
leave the code of the loop and the name `__loop__` as they are. After any number of rounds the machine
is on the first level at the start of the next one, and no more levels are needed for the rounds
before. -/
theorem iterations_rebind_at_once :
    (∀ host clauses test results body, ∃ site clauses' test' results' body',
      (World.prelude.build (doText clauses test results body)).1 = .pair site ∧
      (written host (doText clauses test results body)).Continues World.prelude ∧
      (written host (doText clauses test results body)).IsBinder ∧
      (written host (doText clauses test results body)).IsRecursion ∧
      (written host (doText clauses test results body)).IsIteration ∧
      (written host (doText clauses test results body)).IterationCall site clauses' test' results'
        body' ∧
      List.Forall₂ (Clause.Relates (written host (doText clauses test results body)).Has) clauses'
        clauses ∧
      (written host (doText clauses test results body)).Has test' test ∧
      List.Forall₂ (written host (doText clauses test results body)).Has results' results ∧
      List.Forall₂ (written host (doText clauses test results body)).Has body' body) ∧
    ∀ (σ : Moment) (scope owner owner₁ owner₂ : Ref .scope) (site : Ref .pair)
      (clauses : List (Clause Value)) (test : Value) (results body : List Value),
      σ.Continues World.prelude → σ.IsBinder → σ.IsRecursion → σ.IsIteration →
      σ.heap.locate? ⟨"do"⟩ scope = some (owner, .transformer ⟨7⟩) →
      σ.heap.locate? ⟨"letrec"⟩ scope = some (owner₁, .transformer ⟨5⟩) →
      σ.heap.locate? ⟨"let"⟩ scope = some (owner₂, .transformer ⟨3⟩) →
      σ.IterationCall site clauses test results body →
      let l := Clause.loop clauses test results body
      let es := clauses.map Clause.init
      ∃ σ' w' inner c call operands code least, σ.Changes σ' ∧
        l.Starts σ'.world scope es w' inner c call operands code ∧
        ∀ I : Condition, Items I.Fixes operands es → l.Stays I inner c code →
          I.Along inner es (fun vs w => ∀ rounds, l.Along I inner rounds vs w) w' →
          (∀ outcome w'', Finishes (.pair site) scope σ.world outcome w'' ↔ EndsAs (fun time =>
            ((within time).inTurn inner es w').andThen ((within time).loop l inner time))
              outcome w'') ∧
          ∀ k n vs w₁ vs' w₂, least ≤ k → TurnWithin k inner es w' vs w₁ →
            l.Rounds k inner n vs w₁ vs' w₂ →
            let f : Focus := ⟨code, (w₂.enter ⟨l.names.map Symbol.mk, none⟩ vs' inner).1,
              (w₂.enter ⟨l.names.map Symbol.mk, none⟩ vs' inner).2⟩
            (go (.eval (.pair site) scope) [] (σ.world.onLevel 0 (k + 1))).Reaches
              (f.reduce [.leave] 1 (k + 1)) ∧
            ∀ outcome w, ¬ (f.reduce [] 0 k).Deepens → (f.reduce [] 0 k).Ends outcome w →
              ∃ w₃, (go (.eval (.pair site) scope) [] (σ.world.onLevel 0 (k + 1))).Ends outcome w₃ ∧
                outcome.SameWorld (w.underLimit (k + 1)) w₃ := by
  refine ⟨fun host clauses test results body => ?_, ?_⟩
  · obtain ⟨site, clauses', test', results', body', hsite, hcall, hparts⟩ :=
      exists_iteration_written host clauses test results body
    exact ⟨site, clauses', test', results', body', hsite, continues_written _ _, isBinder_written _ _,
      isRecursion_written _ _, isIteration_written _ _, hcall, hparts⟩
  · intro σ scope owner owner₁ owner₂ site clauses test results body hσ hb hr hc hdo hletrec hlet h l es
    obtain ⟨σ', w', inner, c, call, operands, code, h', hstarts, least, hiterates⟩ :=
      h.exists_loop hσ hb hr hc hdo hletrec hlet
    have hes : es.length = l.names.length := by simp [es, l, Clause.loop]
    have hnexts : l.nexts.length = l.names.length := by simp [l, Clause.loop]
    refine ⟨σ', w', inner, c, call, operands, code, max least 1, h', hstarts,
      fun I hoperands hl halong => ⟨fun outcome w'' => ?_, ?_⟩⟩
    · obtain ⟨branch, again, hties, -⟩ := hstarts.code
      exact (hiterates least (Nat.le_refl _)).finishes_iff.trans
        (hties.loop_iff hstarts.call hes hnexts hoperands hl halong)
    · intro k n vs w₁ vs' w₂ hk hinits hrounds f
      obtain ⟨k, rfl⟩ : ∃ j, k = j + 1 := ⟨k - 1, by omega⟩
      have hwhole := (hiterates (k + 1) (by omega)).trans
        (hstarts.iterates hes hnexts hoperands hl halong hinits hrounds)
      exact ⟨hwhole.eval_reaches, fun outcome w hfits hends => hwhole.ends hfits hends⟩

end Moment

namespace Heap

variable {h h' : Heap} {bindings : Std.TreeMap String Value} {parent ref owner : Ref .scope}
  {name : String} {found : Ref .scope × Value} {v old : Value}

theorem locate?_of_scopes (hscopes : h'.scopes = h.scopes)
    (hfound : h.locate? ⟨name⟩ ref = some found) : h'.locate? ⟨name⟩ ref = some found :=
  locateWithin_mono (fun i s hs => by rwa [hscopes]) (Nat.le_refl _) hfound

/-- What a new scope does not bind is found where it was. -/
theorem locate?_push (hscopes : h'.scopes = h.scopes.push ⟨bindings, some parent⟩)
    (hname : bindings[name]? = none) (hfound : h.locate? ⟨name⟩ parent = some found) :
    h'.locate? ⟨name⟩ ⟨h.scopes.size⟩ = some found := by
  have hscope : h'.scope ⟨h.scopes.size⟩ = ⟨bindings, some parent⟩ := by simp [scope, hscopes]
  simp only [locate?, locateWithin, hscope, hname]
  refine locateWithin_mono (fun i s hs => ?_) (inBounds_of_locate? hfound) hfound
  rw [hscopes]
  exact getElem?_push_of_some _ hs

/-- A call finds what its parameters do not hide. -/
theorem locate?_enter_of_not_mem {w : World} {names : List String} {vs : List Value}
    (hname : name ∉ names) (hnames : names.Nodup) (hlength : vs.length = names.length)
    (hfound : w.heap.locate? ⟨name⟩ parent = some found) :
    (w.enter ⟨names.map Symbol.mk, none⟩ vs parent).2.heap.locate? ⟨name⟩
      (w.enter ⟨names.map Symbol.mk, none⟩ vs parent).1 = some found := by
  have hbindings : (bindFixed {} (names.map Symbol.mk) vs).1[name]? = none := by
    rw [(getElem?_bindFixed hlength hnames {} name).1, Std.TreeMap.getElem?_emptyc, Option.or_none,
      List.lookup_eq_none_iff]
    rintro ⟨name', v⟩ hmem
    have hne : name ≠ name' := fun heq => hname (heq ▸ (List.of_mem_zip hmem).1)
    simpa using hne
  have henter : w.enter ⟨names.map Symbol.mk, none⟩ vs parent = (⟨w.heap.scopes.size⟩, { w with
      heap := (w.heap.addScope ⟨(bindFixed {} (names.map Symbol.mk) vs).1, some parent⟩).2 }) := by
    simp only [World.enter, Parameters.accepts, List.length_map, hlength, BEq.rfl, if_true, extend]
    rfl
  rw [henter]
  exact locate?_push rfl hbindings hfound

/-- Where a name has been assigned a value it is found with that value. -/
theorem locate?_bind (howner : owner.index < h.scopes.size)
    (hfound : h.locate? ⟨name⟩ ref = some (owner, old)) :
    (h.bind owner ⟨name⟩ v).locate? ⟨name⟩ ref = some (owner, v) := by
  suffices hwithin : ∀ budget ref, h.locateWithin ⟨name⟩ budget ref = some (owner, old) →
      (h.bind owner ⟨name⟩ v).locateWithin ⟨name⟩ budget ref = some (owner, v) from
    hwithin _ _ hfound
  intro budget
  induction budget with
  | zero => exact fun _ h => nomatch h
  | succ budget ih =>
      intro ref hfound
      by_cases href : ref = owner
      · subst href
        have hhere : (h.bind ref ⟨name⟩ v).scope ref =
            { h.scope ref with bindings := (h.scope ref).bindings.insert name v } := by
          simp [scope, bind, howner, Array.getElem_modify]
        simp [locateWithin, hhere]
      · have hindex : owner.index ≠ ref.index := fun heq => href (by cases ref; cases owner; simp_all)
        have hthere : (h.bind owner ⟨name⟩ v).scope ref = h.scope ref := by
          simp [scope, bind, Array.getElem?_modify, hindex]
        simp only [locateWithin, hthere] at hfound ⊢
        cases hbinding : (h.scope ref).bindings[name]? with
        | some v' =>
            simp only [hbinding, Option.some.injEq, Prod.mk.injEq] at hfound
            exact absurd hfound.1 href
        | none =>
            simp only [hbinding] at hfound ⊢
            cases hparent : (h.scope ref).parent with
            | none => simp [hparent] at hfound
            | some parent =>
                simp only [hparent] at hfound ⊢
                exact ih parent hfound

end Heap

theorem World.Ties.locate?_outer {w w' : World} {scope inner : Ref .scope} {f name : String}
    {names : List String} {body : List Value} {c : Ref .closure} {code : Value}
    {found : Ref .scope × Value} (h : w.Ties scope f names body w' inner c code) (hname : name ≠ f)
    (hfound : w.heap.locate? ⟨name⟩ scope = some found) :
    w'.heap.locate? ⟨name⟩ inner = some found := by
  obtain ⟨bindings, hscopes, hbindings⟩ := h.scopes
  rw [h.isNew]
  exact Heap.locate?_push hscopes (by rw [hbindings, if_neg hname]) hfound

namespace Condition

/-- All pairs of the heap are as they are there, and the names are found like this. -/
def finding (h : Heap) (inner : Ref .scope) (found : List (String × Ref .scope × Value)) :
    Condition := fun scope w =>
  (∀ r p, h.HasPair r p → w.heap.HasPair r p) ∧
    ∀ e ∈ found, w.heap.locate? ⟨e.1⟩ inner = some e.2 ∧ w.heap.locate? ⟨e.1⟩ scope = some e.2

variable {h : Heap} {inner scope : Ref .scope} {found : List (String × Ref .scope × Value)}
  {w : World}

theorem fixes_finding {r : Ref .pair} {p : Pair} (hr : h.HasPair r p) :
    (finding h inner found).Fixes r p :=
  fun _ _ hI => hI.1 r p hr

/-- A call finds what its parameters do not hide. -/
theorem finding_enter {names : List String} {vs : List Value} (hnames : names.Nodup)
    (hfree : ∀ e ∈ found, e.1 ∉ names) (hlength : vs.length = names.length)
    (hI : finding h inner found scope w) :
    finding h inner found (w.enter ⟨names.map Symbol.mk, none⟩ vs inner).1
      (w.enter ⟨names.map Symbol.mk, none⟩ vs inner).2 := by
  refine ⟨?_, fun e he => ⟨?_, ?_⟩⟩
  · simp only [World.enter, Parameters.accepts, List.length_map, hlength, BEq.rfl, if_true]
    exact hI.1
  · simp only [World.enter, Parameters.accepts, List.length_map, hlength, BEq.rfl, if_true]
    exact Heap.locateWithin_mono (fun _ _ => Heap.getElem?_push_of_some _) (Nat.le_refl _)
      (hI.2 e he).1
  · exact Heap.locate?_enter_of_not_mem (hfree e he) hnames hlength (hI.2 e he).1

theorem finding_of_scopes {w' : World} (hI : finding h inner found scope w)
    (hpairs : ∀ r p, h.HasPair r p → w'.heap.HasPair r p)
    (hscopes : w'.heap.scopes = w.heap.scopes) : finding h inner found scope w' :=
  ⟨hpairs, fun e he => ⟨Heap.locate?_of_scopes hscopes (hI.2 e he).1,
    Heap.locate?_of_scopes hscopes (hI.2 e he).2⟩⟩

end Condition

/-- A loop that has started has its code and its name. -/
theorem Loop.Starts.stays {l : Loop} {w w' : World} {scope inner : Ref .scope} {es : List Value}
    {c : Ref .closure} {call : Ref .pair} {operands code : Value}
    {found : List (String × Ref .scope × Value)}
    (h : l.Starts w scope es w' inner c call operands code)
    (hfound : ("__loop__", inner, .closure c) ∈ found) :
    l.Stays (.finding w'.heap inner found) inner c code where
  code := by
    obtain ⟨branch, again, hties, hround⟩ := h.code
    exact ⟨branch, again, hties.body.mono fun _ _ => Condition.fixes_finding,
      hround.mono fun _ _ => Condition.fixes_finding⟩
  name _ _ hI := (hI.2 _ hfound).2

namespace Evaluator

variable {x v : Value} {rest all : Value} {xs vs : List Value} {scope owner : Ref .scope}
  {s : Symbol} {p : Primitive} {operation : DirectOperation} {w w' : World}

/-- Operands whose evaluation changes nothing. -/
theorem OperandsYield.of_lists (hrest : w.heap.Lists rest xs)
    (h : List.Forall₂ (fun x v => Yields x scope w v w) xs vs) :
    OperandsYield rest all scope w vs w := by
  induction h generalizing rest with
  | nil =>
      cases hrest
      exact .nil all scope w
  | cons hfirst _ ih =>
      obtain ⟨r, others, rfl, hcell, hothers⟩ := hrest.exists_pair
      exact .cons hcell hfirst (ih hothers)

/-- A call of a primitive on such operands. -/
theorem Yields.direct (hx : w.heap.Lists x (.symbol s :: xs)) (hs : SpecialForm.ofSymbol? s = none)
    (hp : w.heap.locate? s scope = some (owner, .primitive p))
    (hxs : List.Forall₂ (fun x v => Yields x scope w v w) xs vs)
    (hcount : p.takes vs.length = true) (hoperation : p.operation = .direct operation)
    (hv : operation.perform vs w = .value v w') : Yields x scope w v w' := by
  obtain ⟨site, rest, rfl, hcell, hrest⟩ := hx.exists_pair
  exact .call hcell hs (.variable hp) rfl (.of_lists hrest hxs)
    (.direct (Primitive.checkCount_eq hcount w) hoperation hv)

end Evaluator

namespace Moment

/-- A loop that changes the pair of its variable in the first round, and ends in the second. -/
def markingText : Datum :=
  doText [⟨"p", .form "list" [.boolean false], none⟩] (.form "car" [.name "p"]) [.name "p"]
    [.form "set-car!" [.name "p", .boolean true]]

example : (Reader.ofText "(do ((p (list #f))) ((car p) p) (set-car! p #t))".toList).read.1 =
    .datum markingText := by
  cbv

end Moment

/-- The loop of this text. -/
def Loop.marking (e test body : Value) : Loop :=
  Clause.loop [⟨"p", e, none⟩] test [.symbol ⟨"p"⟩] [body]

namespace Loop.marking

variable {h : Heap} {inner scope : Ref .scope} {c : Ref .closure} {e test body : Value}
  {q : Ref .pair} {b : Bool} {w : World}

/-- The names of the loop, where it is evaluated. -/
def names (inner : Ref .scope) (c : Ref .closure) : List (String × Ref .scope × Value) :=
  [("__loop__", inner, .closure c), ("list", .global, .primitive .list),
    ("car", .global, .primitive .car), ("set-car!", .global, .primitive .setCar)]

/-- The code of the loop is in the heap, and outside of it is the pair. -/
structure Marks (h : Heap) (test body : Value) (q : Ref .pair) (b : Bool) (h' : Heap) : Prop where
  test : h.Lists test [.symbol ⟨"car"⟩, .symbol ⟨"p"⟩]
  body : h.Lists body [.symbol ⟨"set-car!"⟩, .symbol ⟨"p"⟩, .boolean true]
  fresh : h.pairs.size ≤ q.index
  pair : h'.HasPair q ⟨.boolean b, .nil⟩

/-- The world after the pair has been changed. -/
def marked (q : Ref .pair) (w : World) : World :=
  { w with heap := w.heap.setPair q { w.heap.pair q with first := .boolean true } }

section

variable (hI : Condition.finding h inner (names inner c) scope w)
  (hmarks : Marks h test body q b w.heap)
  (hp : w.heap.locate? ⟨"p"⟩ scope = some (scope, .pair q))
include hI hmarks hp

theorem yields_test : Yields test scope w (.boolean b) w := by
  have hcar := (hI.2 ("car", .global, .primitive .car) (by simp [names])).2
  have hlists := hmarks.test.mono hI.1
  have hfirst : w.heap.first (.pair q) = .boolean b :=
    congrArg Pair.first (Heap.pair_eq_of_getElem? hmarks.pair)
  refine .direct hlists rfl hcar (.cons (.variable hp) .nil) rfl rfl ?_
  change Result.value (w.heap.first (.pair q)) w = _
  rw [hfirst]

theorem yields_body : Yields body scope w (.boolean true) (marked q w) := by
  have hset := (hI.2 ("set-car!", .global, .primitive .setCar) (by simp [names])).2
  have hlists := hmarks.body.mono hI.1
  have htrue : Yields (.boolean true) scope w (.boolean true) w := .selfEvaluating rfl
  exact .direct hlists rfl hset (.cons (.variable hp) (.cons htrue .nil)) rfl rfl rfl

end

theorem Marks.marked (hmarks : Marks h test body q b w.heap) :
    Marks h test body q true (marked q w).heap := by
  refine { hmarks with pair := ?_ }
  have hlt : q.index < w.heap.pairs.size := (Array.getElem?_eq_some_iff.1 hmarks.pair).1
  simp [Loop.marking.marked, Heap.setPair, Heap.HasPair, hlt,
    Heap.pair_eq_of_getElem? hmarks.pair]

theorem locate?_marked {name : String} {found : Ref .scope × Value}
    (hfound : w.heap.locate? ⟨name⟩ scope = some found) :
    (marked q w).heap.locate? ⟨name⟩ scope = some found :=
  Heap.locate?_of_scopes (h := w.heap) rfl hfound

/-- The change leaves the code of the loop as it is. -/
theorem finding_marked (hI : Condition.finding h inner (names inner c) scope w)
    (hfresh : h.pairs.size ≤ q.index) :
    Condition.finding h inner (names inner c) scope (marked q w) := by
  refine Condition.finding_of_scopes hI (fun r p hr => ?_) rfl
  have hlt : r.index < h.pairs.size := (Array.getElem?_eq_some_iff.1 hr).1
  have hne : q.index ≠ r.index := by omega
  simpa [marked, Heap.setPair, Heap.HasPair, Array.getElem?_setIfInBounds_ne hne] using hI.1 r p hr

/-- A round begins in a scope for the pair. -/
theorem finding_frame (hI : Condition.finding h inner (names inner c) scope w) (q : Ref .pair) :
    Condition.finding h inner (names inner c) (w.enter ⟨[⟨"p"⟩], none⟩ [.pair q] inner).1
      (w.enter ⟨[⟨"p"⟩], none⟩ [.pair q] inner).2 := by
  have hnames : ["p"].Nodup := by decide
  have hfree : ∀ e ∈ names inner c, e.1 ∉ ["p"] := by simp [names]
  have hlength : [Value.pair q].length = ["p"].length := rfl
  have hframe := Condition.finding_enter hnames hfree hlength hI
  exact hframe

/-- In the first round, the pair is changed and kept for the next one. -/
theorem along_first {next : List Value → World → Prop}
    (hI : Condition.finding h inner (names inner c) scope w) (hmarks : Marks h test body q b w.heap)
    (hp : w.heap.locate? ⟨"p"⟩ scope = some (scope, .pair q))
    (hnext : ∀ w', Condition.finding h inner (names inner c) scope w' →
      Marks h test body q true w'.heap → next [.pair q] w') :
    Condition.Along (.finding h inner (names inner c)) scope [body]
      (fun _ => Condition.Along (.finding h inner (names inner c)) scope [.symbol ⟨"p"⟩] next) w := by
  refine ⟨hI, fun v w' hbody => ?_⟩
  obtain ⟨-, d, m, rfl⟩ := (yields_body hI hmarks hp).of_finishes hbody
  have hI' := finding_marked hI hmarks.fresh
  refine ⟨hI', hI', fun v w'' hvariable => ?_⟩
  have hp' : ((marked q w).onLevel d m).heap.locate? ⟨"p"⟩ scope = some (scope, .pair q) :=
    locate?_marked hp
  obtain ⟨rfl, d', m', rfl⟩ := (Yields.variable hp').of_finishes hvariable
  exact ⟨hI', hnext _ hI' hmarks.marked⟩

/-- Along all rounds, the code of the loop stays as it is. -/
theorem along_rounds (rounds : Nat) (hI : Condition.finding h inner (names inner c) scope w)
    (hmarks : Marks h test body q b w.heap) : (Loop.marking e test body).Along
      (.finding h inner (names inner c)) inner rounds [.pair q] w := by
  induction rounds generalizing scope b w with
  | zero => trivial
  | succ rounds ih =>
      have hframe := finding_frame hI q
      have hp := Moment.locate?_enter w "p" (.pair q) inner
      have hmarks' : Marks h test body q b (w.enter ⟨[⟨"p"⟩], none⟩ [.pair q] inner).2.heap :=
        { hmarks with pair := hmarks.pair }
      refine ⟨hframe, fun v w₁ htest => ?_⟩
      obtain ⟨rfl, d, m, rfl⟩ := (yields_test hframe hmarks' hp).of_finishes htest
      split
      · exact .nothing hframe
      · refine along_first ?_ hmarks' ?_ fun w' hI' hmarked => ih hI' hmarked
        · exact hframe
        · exact hp

/-- The first value is a new pair. -/
theorem yields_first (he : h.Lists e [.symbol ⟨"list"⟩, .boolean false])
    (hI : Condition.finding h inner (names inner c) scope w) : Yields e scope w
      (.pair ⟨w.heap.pairs.size⟩) { w with heap := (w.heap.cons (.boolean false) .nil).2 } := by
  have hlist := (hI.2 ("list", .global, .primitive .list) (by simp [names])).2
  have hfalse : Yields (.boolean false) scope w (.boolean false) w := .selfEvaluating rfl
  exact .direct (he.mono hI.1) rfl hlist (.cons hfalse .nil) rfl rfl rfl

theorem finding_first (hI : Condition.finding h inner (names inner c) scope w) :
    Condition.finding h inner (names inner c) scope
      { w with heap := (w.heap.cons (.boolean false) .nil).2 } :=
  Condition.finding_of_scopes hI (fun r p hr => Heap.getElem?_push_of_some _ (hI.1 r p hr)) rfl

section

variable (hI : Condition.finding h inner (names inner c) scope w)
  (hp : w.heap.locate? ⟨"p"⟩ scope = some (scope, .pair q))
include hI hp

/-- A round whose pair has been changed is the last one. -/
theorem exists_last (hmarks : Marks h test body q true w.heap) : ∃ least, ∀ time again,
    least ≤ time → (within time).inRound (Loop.marking e test body) again scope w =
      .finished (.value (.pair q) w) := by
  obtain ⟨least, htest⟩ := yields_test hI hmarks hp
  obtain ⟨least', hresult⟩ := Yields.variable hp
  refine ⟨max least least', fun time again htime => ?_⟩
  exact (inRound_of_true (htest time (by omega)) rfl).trans (hresult time (by omega))

/-- Another round changes the pair and keeps it for the next one. -/
theorem exists_first (hmarks : Marks h test body q false w.heap) : ∃ least, ∀ time again,
    least ≤ time → (within time).inRound (Loop.marking e test body) again scope w =
      again [.pair q] (marked q w) := by
  obtain ⟨least, htest⟩ := yields_test hI hmarks hp
  obtain ⟨least', hbody⟩ := yields_body hI hmarks hp
  obtain ⟨least'', hnext⟩ := Yields.variable (locate?_marked (q := q) hp)
  refine ⟨max least (max least' least''), fun time again htime => ?_⟩
  have hbody' : (within time).inTurn scope [body] w =
      .finished (.value [.boolean true] (marked q w)) := by
    simp only [inTurn, hbody time (by omega), Attempt.andThen, answer]
  have hnext' : (within time).inTurn scope [.symbol ⟨"p"⟩] (marked q w) =
      .finished (.value [.pair q] (marked q w)) := by
    simp only [inTurn, hnext time (by omega), Attempt.andThen, answer]
  calc (within time).inRound (Loop.marking e test body) again scope w
    _ = ((within time).inTurn scope [body] w).andThen fun _ w =>
          ((within time).inTurn scope [.symbol ⟨"p"⟩] w).andThen again :=
        inRound_of_false (htest time (by omega)) rfl
    _ = again [.pair q] (marked q w) := by simp only [hbody', hnext', Attempt.andThen]

end

theorem exists_frame (hI : Condition.finding h inner (names inner c) scope w)
    (hmarks : Marks h test body q b w.heap) : ∃ frame w',
      w.enter ⟨[⟨"p"⟩], none⟩ [.pair q] inner = (frame, w') ∧
      Condition.finding h inner (names inner c) frame w' ∧ Marks h test body q b w'.heap ∧
      w'.heap.locate? ⟨"p"⟩ frame = some (frame, .pair q) :=
  ⟨_, _, rfl, finding_frame hI q, { hmarks with pair := hmarks.pair },
    Moment.locate?_enter w "p" (.pair q) inner⟩

/-- The loop ends with the changed pair. -/
theorem exists_end (hI : Condition.finding h inner (names inner c) scope w)
    (hmarks : Marks h test body q false w.heap) : ∃ w' least,
      w'.heap.HasPair q ⟨.boolean true, .nil⟩ ∧ ∀ time rounds, least ≤ time →
        (within time).loop (Loop.marking e test body) inner (rounds + 2) [.pair q] w =
          .finished (.value (.pair q) w') := by
  obtain ⟨frame₁, w₁, henter₁, hI₁, hmarks₁, hp₁⟩ := exists_frame hI hmarks
  obtain ⟨least₁, hfirst⟩ := exists_first (e := e) hI₁ hp₁ hmarks₁
  obtain ⟨frame₂, w₂, henter₂, hI₂, hmarks₂, hp₂⟩ :=
    exists_frame (finding_marked hI₁ hmarks₁.fresh) hmarks₁.marked
  obtain ⟨least₂, hlast⟩ := exists_last (e := e) hI₂ hp₂ hmarks₂
  refine ⟨w₂, max least₁ least₂, hmarks₂.pair, fun time rounds htime => ?_⟩
  calc (within time).loop (Loop.marking e test body) inner (rounds + 2) [.pair q] w
    _ = (within time).inRound (Loop.marking e test body) _ frame₁ w₁ := loop_succ henter₁ (rounds + 1)
    _ = (within time).loop (Loop.marking e test body) inner (rounds + 1) [.pair q] (marked q w₁) :=
        hfirst time _ (by omega)
    _ = (within time).inRound (Loop.marking e test body) _ frame₂ w₂ := loop_succ henter₂ rounds
    _ = .finished (.value (.pair q) w₂) := hlast time _ (by omega)

/-- The first round of the loop leads to the changed pair. -/
theorem exists_round (hI : Condition.finding h inner (names inner c) scope w)
    (hmarks : Marks h test body q false w.heap) : ∃ w' least,
      w'.heap.HasPair q ⟨.boolean true, .nil⟩ ∧ ∀ k, least ≤ k →
        (Loop.marking e test body).Rounds k inner 1 [.pair q] w [.pair q] w' := by
  obtain ⟨frame, w₁, henter, hI₁, hmarks₁, hp⟩ := exists_frame hI hmarks
  obtain ⟨least, htest⟩ := (yields_test hI₁ hmarks₁ hp).evaluatesWithin
  obtain ⟨least', hbody⟩ := (yields_body hI₁ hmarks₁ hp).evaluatesWithin
  obtain ⟨least'', hnext⟩ := (Yields.variable (locate?_marked (q := q) hp)).evaluatesWithin
  refine ⟨marked q w₁, max least (max least' least''), hmarks₁.marked.pair, fun k hk => ?_⟩
  exact .succ henter (htest k (by omega)) rfl (.cons (hbody k (by omega)) .nil)
    (.cons (hnext k (by omega)) .nil) .zero

end Loop.marking

namespace Moment

/-- The loop of this text has two rounds. The first one changes the pair that the variable holds, and
the second one finds it changed, on the level of the first. -/
theorem iterations_rebind_twice : ∃ site q w, (World.prelude.build markingText).1 = .pair site ∧
    Finishes (.pair site) .global (written World.nowhere markingText).world (.value (.pair q)) w ∧
    w.heap.HasPair q ⟨.boolean true, .nil⟩ ∧
    ∃ k f, (go (.eval (.pair site) .global) []
      ((written World.nowhere markingText).world.onLevel 0 (k + 1))).Reaches
        (Focus.reduce f [.leave] 1 (k + 1)) ∧
      f.world.heap.locate? ⟨"p"⟩ f.scope = some (f.scope, .pair q) ∧
      f.world.heap.HasPair q ⟨.boolean true, .nil⟩ := by
  obtain ⟨site, clauses, test, results, body, hsite, hσ, hb, hr, hc, hcall, hclauses, htest, hresults,
    hbody⟩ := iterations_rebind_at_once.1 World.nowhere [⟨"p", .form "list" [.boolean false], none⟩]
      (.form "car" [.name "p"]) [.name "p"] [.form "set-car!" [.name "p", .boolean true]]
  simp only [List.forall₂_cons_right_iff, List.forall₂_nil_right_iff] at hclauses hresults hbody
  obtain ⟨⟨_, e, _⟩, _, ⟨rfl, he, ⟨⟩⟩, rfl, rfl⟩ := hclauses
  obtain ⟨x, _, ⟨hx, -⟩, rfl, rfl⟩ := hresults
  obtain ⟨y, _, hy, rfl, rfl⟩ := hbody
  obtain rfl : x = .symbol ⟨"p"⟩ := hx
  obtain ⟨owner, hdo⟩ := hσ.binds_names.names "do" _ rfl
  obtain ⟨owner₁, hletrec⟩ := hσ.binds_names.names "letrec" _ rfl
  obtain ⟨owner₂, hlet⟩ := hσ.binds_names.names "let" _ rfl
  obtain ⟨σ', w', inner, c, call, operands, code, least, hchanges, hstarts, hlaw⟩ :=
    iterations_rebind_at_once.2 _ .global owner owner₁ owner₂ site _ _ _ _ hσ hb hr hc hdo hletrec
      hlet hcall
  obtain ⟨branch, again, hties, -⟩ := hstarts.code
  -- the code of the loop, and what its names stand for
  have hlists : ∀ v ds, (written World.nowhere markingText).Has v (.list ds) →
      ∃ vs, w'.heap.Lists v vs ∧
        List.Forall₂ (written World.nowhere markingText).Has vs ds := fun v ds hv => by
    obtain ⟨vs, hitems, hall⟩ := hv.items _
    exact ⟨vs, hitems.mono fun r p hr => hties.pairs _ _ (hchanges.cells r p hr).2, hall⟩
  have hprimitive : ∀ name v, (name, v) ∈ Prelude.pairing → name ≠ "__loop__" →
      w'.heap.locate? ⟨name⟩ inner = some (.global, v) := fun name v hv hne =>
    hties.locate?_outer hne (locate?_changes hchanges
      (hσ.names _ _ _ (World.locate?_known (List.mem_append_right _ hv))))
  obtain ⟨_, he', hall⟩ := hlists e [.name "list", .boolean false] he
  simp only [List.forall₂_cons_right_iff, List.forall₂_nil_right_iff] at hall
  obtain ⟨_, _, ⟨⟨⟩, -⟩, ⟨_, _, ⟨⟨⟩, -⟩, rfl, rfl⟩, rfl⟩ := hall
  obtain ⟨_, htest', hall⟩ := hlists test [.name "car", .name "p"] htest
  simp only [List.forall₂_cons_right_iff, List.forall₂_nil_right_iff] at hall
  obtain ⟨_, _, ⟨⟨⟩, -⟩, ⟨_, _, ⟨⟨⟩, -⟩, rfl, rfl⟩, rfl⟩ := hall
  obtain ⟨_, hbody', hall⟩ := hlists y [.name "set-car!", .name "p", .boolean true] hy
  simp only [List.forall₂_cons_right_iff, List.forall₂_nil_right_iff] at hall
  obtain ⟨_, _, ⟨⟨⟩, -⟩, ⟨_, _, ⟨⟨⟩, -⟩, ⟨_, _, ⟨⟨⟩, -⟩, rfl, rfl⟩, rfl⟩, rfl⟩ := hall
  have hI : Condition.finding w'.heap inner (Loop.marking.names inner c) inner w' := by
    refine ⟨fun _ _ => id, ?_⟩
    simp only [Loop.marking.names, List.forall_mem_cons, and_self]
    exact ⟨hties.locate?_eq, hprimitive "list" _ (.head _) (by decide),
      hprimitive "car" _ (.tail _ (.head _)) (by decide),
      hprimitive "set-car!" _ (.tail _ (.tail _ (.head _))) (by decide), by simp⟩
  -- the first value is a pair that the code has nothing to do with
  have hfirst := Loop.marking.yields_first he' hI
  have hI₁ := Loop.marking.finding_first hI
  have hmarks : Loop.marking.Marks w'.heap test y ⟨w'.heap.pairs.size⟩ false
      (w'.heap.cons (.boolean false) .nil).2 :=
    ⟨htest', hbody', Nat.le_refl _, Array.getElem?_push_size⟩
  obtain ⟨hfinishes, hlevels⟩ := hlaw _ (hstarts.operands.mono fun _ _ => Condition.fixes_finding)
    (hstarts.stays (List.mem_cons_self ..)) ⟨hI, fun v w'' hvalue => by
      obtain ⟨rfl, d, m, rfl⟩ := hfirst.of_finishes hvalue
      exact ⟨hI₁, fun rounds => Loop.marking.along_rounds rounds hI₁ hmarks⟩⟩
  obtain ⟨w₂, least₁, hpair, hloop⟩ := Loop.marking.exists_end (e := e) hI₁ hmarks
  refine ⟨site, _, w₂, hsite, (hfinishes _ w₂).2 ?_, hpair, ?_⟩
  · obtain ⟨least₂, hinit⟩ := hfirst
    refine .of_value ⟨max least₁ least₂ + 2, ?_⟩ fun _ _ => rfl
    have hinits : (within (max least₁ least₂ + 2)).inTurn inner [e] w' = .finished (.value
        [.pair ⟨w'.heap.pairs.size⟩] { w' with heap := (w'.heap.cons (.boolean false) .nil).2 }) := by
      simp only [inTurn, hinit (max least₁ least₂ + 2) (by omega), Attempt.andThen, answer]
    change ((within (max least₁ least₂ + 2)).inTurn inner [e] w').andThen _ = _
    rw [hinits]
    exact hloop _ _ (by omega)
  · obtain ⟨least₂, hinit⟩ := hfirst.evaluatesWithin
    obtain ⟨w₃, least₃, hmarked, hround⟩ := Loop.marking.exists_round (e := e) hI₁ hmarks
    have hk : least ≤ max least (max least₂ least₃) := Nat.le_max_left ..
    obtain ⟨hreaches, -⟩ := hlevels (max least (max least₂ least₃)) 1 _ _ _ _ hk
      (.cons (hinit _ (by omega)) .nil) (hround _ (by omega))
    refine ⟨_, _, hreaches, locate?_enter w₃ "p" (.pair ⟨w'.heap.pairs.size⟩) inner, ?_⟩
    exact hmarked

end Moment

/-! ## Bodies that assign to the name of the loop -/

/-- A transformer without parameters that answers an assignment of five to the name. -/
def Heap.Assigns (h : Heap) (cell : Ref .pair → Pair → Prop) (t : Ref .closure) (f : String) :
    Prop :=
  ∃ parent owner form name,
    h.closures[t.index]? = some ⟨⟨[], none⟩, .symbol ⟨"form"⟩, parent, name⟩ ∧
    h.locate? ⟨"form"⟩ parent = some (owner, form) ∧
    Items cell form [.symbol ⟨"set!"⟩, .symbol ⟨f⟩, .number (.float 5)]

theorem Heap.Assigns.mono {h h' : Heap} {cell cell' : Ref .pair → Pair → Prop} {t : Ref .closure}
    {f : String} (ht : h.Assigns cell t f)
    (hclosures : ∀ (i : Nat) c, h.closures[i]? = some c → h'.closures[i]? = some c)
    (hscopes : ∀ (i : Nat) s, h.scopes[i]? = some s → h'.scopes[i]? = some s)
    (hcells : ∀ r p, cell r p → cell' r p) : h'.Assigns cell' t f := by
  obtain ⟨parent, owner, form, name, hclosure, hform, hitems⟩ := ht
  exact ⟨parent, owner, form, name, hclosures _ _ hclosure,
    Heap.locateWithin_mono hscopes (Nat.le_refl _) hform, hitems.mono hcells⟩

/-- A call of it assigns the value in the scope of the call, and replaces nothing but the call. -/
theorem Heap.Assigns.yields {w : World} {t : Ref .closure} {f : String} {m : Ref .pair}
    {s : Symbol} {scope owner owner' : Ref .scope} {old : Value}
    (h : w.heap.Assigns w.heap.HasPair t f)
    (hm : w.heap.HasPair m ⟨.symbol s, .nil⟩) (hs : SpecialForm.ofSymbol? s = none)
    (hname : w.heap.locate? s scope = some (owner', .transformer t))
    (hf : w.heap.locate? ⟨f⟩ scope = some (owner, old))
    (howner : owner.index < w.heap.scopes.size) :
    ∃ w', Yields (.pair m) scope w (.number (.float 5)) w' ∧
      (∀ r p, r ≠ m → w.heap.HasPair r p → w'.heap.HasPair r p) ∧
      w'.heap.locate? ⟨f⟩ scope = some (owner, .number (.float 5)) := by
  obtain ⟨parent, owner₁, form, name, hclosure, hform, hitems⟩ := h
  have hlists : w.heap.Lists form [.symbol ⟨"set!"⟩, .symbol ⟨f⟩, .number (.float 5)] := hitems
  obtain ⟨e, rest, rfl, hcell, hrest⟩ := hlists.exists_pair
  have hclosure' : w.heap.closure t = ⟨⟨[], none⟩, .symbol ⟨"form"⟩, parent, name⟩ := by
    simp [Heap.closure, hclosure]
  generalize henter : w.enter ⟨[], none⟩ [] parent = entered
  obtain ⟨inner, w₁⟩ := entered
  have hform₁ : w₁.heap.locate? ⟨"form"⟩ inner = some (owner₁, .pair e) := by
    have hlocate : (w.enter ⟨[].map Symbol.mk, none⟩ [] parent).2.heap.locate? ⟨"form"⟩
        (w.enter ⟨[].map Symbol.mk, none⟩ [] parent).1 = some (owner₁, .pair e) :=
      Heap.locate?_enter_of_not_mem List.not_mem_nil .nil rfl hform
    rwa [List.map_nil, henter] at hlocate
  obtain ⟨s₁, hw₁⟩ : ∃ s, w₁ = { w with heap := (w.heap.addScope s).2 } :=
    ⟨_, (congrArg Prod.snd henter).symm⟩
  obtain ⟨entries, hspliced⟩ := Moment.spliced_pair m t e w₁
  generalize hw₂ : ({ w₁ with
    heap := w₁.heap.setPair m (w₁.heap.pair e), log := entries } : World) = w₂ at hspliced
  have hpair₁ : w₁.heap.pair e = ⟨.symbol ⟨"set!"⟩, rest⟩ := by rw [hw₁]; exact hcell
  have hpairs₂ : w₂.heap.pairs = w.heap.pairs.setIfInBounds m.index ⟨.symbol ⟨"set!"⟩, rest⟩ := by
    rw [← hw₂, hpair₁, hw₁]
    rfl
  have hscopes₂ : w₂.heap.scopes = w.heap.scopes.push s₁ := by
    rw [← hw₂, hw₁]
    rfl
  have hpairs : ∀ r p, r ≠ m → w.heap.HasPair r p → w₂.heap.HasPair r p := by
    intro r p hne hr
    have hindex : m.index ≠ r.index := fun heq => hne (by cases r; cases m; cases heq; rfl)
    rw [Heap.HasPair, hpairs₂, Array.getElem?_setIfInBounds_ne hindex, hr]
  have hsite : w₂.heap.pair m = ⟨.symbol ⟨"set!"⟩, rest⟩ := by
    have hin : m.index < w.heap.pairs.size := (Array.getElem?_eq_some_iff.1 hm).1
    refine Heap.pair_eq_of_getElem? ?_
    rw [hpairs₂, Array.getElem?_setIfInBounds_self_of_lt hin]
  have hf₂ : w₂.heap.locate? ⟨f⟩ scope = some (owner, old) := by
    refine Heap.locateWithin_mono (fun i s hi => ?_) (Nat.le_refl _) hf
    rw [hscopes₂]
    exact Heap.getElem?_push_of_some _ hi
  have hrest₂ : w₂.heap.Lists rest [.symbol ⟨f⟩, .number (.float 5)] := by
    cases hrest with
    | cons hr hrest =>
    cases hrest with
    | cons hr' hnil =>
    cases hnil
    refine .cons (hpairs _ _ ?_ hr) (.cons (hpairs _ _ ?_ hr') .nil)
    · rintro rfl
      cases Option.some.inj (hr.symm.trans hm)
    · rintro rfl
      cases Option.some.inj (hr'.symm.trans hm)
  have hassigned : Yields (.pair m) scope w₂ (.number (.float 5))
      (w₂.binding owner ⟨f⟩ (.number (.float 5))) :=
    .assignment hsite hrest₂.first_eq (by rw [hrest₂.second_eq]; exact .selfEvaluating rfl) hf₂
  have howner₂ : owner.index < w₂.heap.scopes.size := by
    rw [hscopes₂, Array.size_push]
    omega
  have henter' : w.enter (w.heap.closure t).parameters [] (w.heap.closure t).scope =
      (inner, w₁) := by
    rw [hclosure']
    exact henter
  have hbody : Yields (w.heap.closure t).body inner w₁ (.pair e) w₁ := by
    rw [hclosure']
    exact .variable hform₁
  rw [← hspliced] at hassigned
  refine ⟨_, .expansion (Heap.pair_eq_of_getElem? hm) hs (.variable hname)
    (World.elements_eq (.nil : w.heap.Lists .nil [])) henter' hbody hassigned, ?_, ?_⟩
  · rw [hspliced]
    exact hpairs
  · rw [hspliced]
    exact Heap.locate?_bind howner₂ hf₂

/-- A call of a number is an error. -/
theorem Step.Finishes.of_number {w : World} {r : Ref .pair} {s : Symbol} {operands : Value}
    {scope owner : Ref .scope} {n : Flonum} {b : Bool} (hr : w.heap.HasPair r ⟨.symbol s, operands⟩)
    (hs : SpecialForm.ofSymbol? s = none) (hname : w.heap.locate? s scope = some (owner, .number n))
    (hoperands : w.heap.Lists operands [.boolean b]) : ∃ text w',
      Finishes (.pair r) scope w (.fault (.failed (.notProcedure text))) w' := by
  obtain ⟨e, rest, rfl, hcell, hrest⟩ := hoperands.exists_pair
  cases hrest
  have hoperator : (within 2).eval (.symbol s) scope w = .finished (.value (.number n) w) := by
    change of (World.lookup s scope) w = _
    simp only [of, World.lookup, hname]
  have hvalues : (within 2).operands 2 (.pair e) (.pair e) scope w =
      .finished (.value [.boolean b] w) := by
    simp only [Evaluator.operands, hcell]
    rfl
  have heval : (within 3).eval (.pair r) scope w =
      of (World.failWith fun h => .notProcedure (h.written (.number n))) w := by
    refine (combination_eq (Heap.pair_eq_of_getElem? hr) hs 2).trans ?_
    simp only [combination, hoperator, hvalues, Attempt.andThen]
    rfl
  exact ⟨_, _, finishes_iff.2 ⟨_, ⟨3, heval⟩, fun d m => ⟨_, ⟨rfl, rfl⟩, rfl⟩⟩⟩

namespace Moment

variable {σ : Moment} {scope owner owner₁ owner₂ : Ref .scope} {site : Ref .pair}

/-- The loop of the text, with one call in its body. -/
def twiceWith (m : Ref .pair) : Loop :=
  Clause.loop [⟨"x", .boolean false, some (.boolean true)⟩] (.symbol ⟨"x"⟩) [.symbol ⟨"x"⟩]
    [.pair m]

/-- The first round evaluates the call, and the call for the next round is left as it is. -/
theorem iterates_twiceWith {w w' : World} {frame : Ref .scope} {code v : Value}
    {m branch again : Ref .pair} {s : Symbol} {k : Nat}
    (hcode : IsBody w.heap.HasPair code [.pair branch])
    (hround : (twiceWith m).IsRound w.heap.HasPair branch again)
    (hx : w.heap.locate? ⟨"x"⟩ frame = some (frame, .boolean false))
    (hm : w.heap.HasPair m ⟨.symbol s, .nil⟩)
    (hvalue : EvaluatesWithin (k + 1) (.pair m) frame w v w')
    (hpairs : ∀ r p, r ≠ m → w.heap.HasPair r p → w'.heap.HasPair r p) :
    Focus.Iterates (k + 1) 0 ⟨code, frame, w⟩ ⟨.pair again, frame, w'⟩ ∧ ∃ operands,
      w'.heap.HasPair again ⟨.symbol ⟨"__loop__"⟩, operands⟩ ∧
      w'.heap.Lists operands [.boolean true] := by
  obtain ⟨done, next, results, forms, operands, hbranch, -, -, hnext, hforms, hagain, hoperands⟩ :=
    hround
  -- the pairs in question are not that of the call
  have hne : ∀ {r p}, w.heap.HasPair r p → p ≠ ⟨.symbol s, .nil⟩ → w'.heap.HasPair r p := by
    intro r p hr hother
    refine hpairs r p ?_ hr
    rintro rfl
    exact hother (Option.some.inj (hr.symm.trans hm))
  cases hforms with
  | @cons f₁ _ _ _ hf₁ hforms =>
  cases hforms with
  | @cons f₂ _ _ _ hf₂ hnil =>
  cases hnil
  cases hoperands with
  | @cons o _ _ _ ho hnil =>
  cases hnil
  refine ⟨?_, .pair o, hne hagain (by simp), .cons (hne ho (by simp)) .nil⟩
  have htest : EvaluatesWithin (k + 1) (.symbol ⟨"x"⟩) frame w (.boolean false) w := .variable hx
  -- the test is false
  have hlists : ∃ arms, w.heap.pair branch = ⟨.symbol ⟨"if"⟩, arms⟩ ∧
      w.heap.first arms = .symbol ⟨"x"⟩ ∧ w.heap.third arms = .pair next := by
    cases hbranch with
    | @cons _ _ arms _ hcell harms =>
        have harms' : w.heap.Lists arms [.symbol ⟨"x"⟩, .pair done, .pair next] := harms
        exact ⟨arms, Heap.pair_eq_of_getElem? hcell, harms'.first_eq, harms'.third_eq⟩
  obtain ⟨arms, hcell, hfirst, hthird⟩ := hlists
  have htail := Focus.Tail.branch hcell (by rwa [hfirst])
  rw [Value.isTrue, if_neg Bool.false_ne_true, hthird] at htail
  -- the call in the body comes before the last form
  have hlast : LastForm (k + 1) frame (.pair f₁) w (.pair again) w' := by
    have hf₁' := Heap.pair_eq_of_getElem? hf₁
    have hf₂' := Heap.pair_eq_of_getElem? (hne hf₂ (by simp))
    have hend : LastForm (k + 1) frame (.pair f₂) w' (w'.heap.first (.pair f₂)) w' :=
      .last (by simp [Heap.rest, hf₂', Value.isPair])
    rw [Heap.first, hf₂'] at hend
    refine .next (by simp [Heap.rest, hf₁', Value.isPair]) (by rwa [Heap.first, hf₁']) ?_
    have hf₁'' := Heap.pair_eq_of_getElem? (hne hf₁ (by simp))
    rwa [Heap.rest, hf₁'']
  refine Loop.iterates_body (I := .pairsOf w.heap) (hcode.mono fun _ _ => Condition.fixes_pairsOf)
    ?_ (.tail htail (.tail (.sequence (Heap.pair_eq_of_getElem? hnext) hlast) (.refl _)))
  exact fun _ _ => id

/-- A body that assigns another value to the name of the loop. -/
theorem IterationCall.finishes_assigned {m : Ref .pair} {t : Ref .closure} {owner₃ : Ref .scope}
    (h : σ.IterationCall site [⟨"x", .boolean false, some (.boolean true)⟩] (.symbol ⟨"x"⟩)
      [.symbol ⟨"x"⟩] [.pair m])
    (hσ : σ.Continues World.prelude) (hb : σ.IsBinder) (hr : σ.IsRecursion) (hc : σ.IsIteration)
    (hdo : σ.heap.locate? ⟨"do"⟩ scope = some (owner, .transformer ⟨7⟩))
    (hletrec : σ.heap.locate? ⟨"letrec"⟩ scope = some (owner₁, .transformer ⟨5⟩))
    (hlet : σ.heap.locate? ⟨"let"⟩ scope = some (owner₂, .transformer ⟨3⟩))
    (hm : σ.Cell m ⟨.symbol ⟨"m"⟩, .nil⟩)
    (hname : σ.heap.locate? ⟨"m"⟩ scope = some (owner₃, .transformer t))
    (ht : σ.heap.Assigns σ.Cell t "__loop__") :
    ∃ text w', Finishes (.pair site) scope σ.world (.fault (.failed (.notProcedure text))) w' := by
  obtain ⟨σ', w', inner, c, call, operands, code, h', hstarts, least, hiterates⟩ :=
    h.exists_loop hσ hb hr hc hdo hletrec hlet
  have hstarts' : (twiceWith m).Starts σ'.world scope [.boolean false] w' inner c call operands
    code := hstarts
  obtain ⟨branch, again, hties, hround⟩ := hstarts'.code
  have hcells : ∀ r p, σ'.Cell r p → w'.heap.HasPair r p := fun r p hr => hties.pairs _ _ hr.2
  have ht' : w'.heap.Assigns w'.heap.HasPair t "__loop__" := by
    refine (ht.mono h'.closures h'.scopes h'.cells).mono (fun i c hc => ?_) (fun i s hs => ?_)
      hcells
    · obtain ⟨-, other, hclosures⟩ := hties.closures
      rw [hclosures]
      exact Heap.getElem?_push_of_some _ (Heap.getElem?_push_of_some _ hc)
    · obtain ⟨bindings, hscopes, -⟩ := hties.scopes
      rw [hscopes]
      exact Heap.getElem?_push_of_some _ hs
  -- the first round, in which the variable is false
  let w₁ := (w'.enter ⟨["x"].map Symbol.mk, none⟩ [.boolean false] inner).2
  let frame := (w'.enter ⟨["x"].map Symbol.mk, none⟩ [.boolean false] inner).1
  have hx : w₁.heap.locate? ⟨"x"⟩ frame = some (frame, .boolean false) :=
    locate?_enter w' "x" (.boolean false) inner
  have hloop : w₁.heap.locate? ⟨"__loop__"⟩ frame = some (inner, .closure c) :=
    Heap.locate?_enter_of_not_mem (by decide) (by decide) rfl hties.locate?_eq
  have hmacro : w₁.heap.locate? ⟨"m"⟩ frame = some (owner₃, .transformer t) :=
    Heap.locate?_enter_of_not_mem (by decide) (by decide) rfl
      (hties.locate?_outer (by decide) (locate?_changes h' hname))
  have hassigns : w₁.heap.Assigns w₁.heap.HasPair t "__loop__" :=
    ht'.mono (fun _ _ => id) (fun _ _ => Heap.getElem?_push_of_some _) fun _ _ => id
  have howner : inner.index < w₁.heap.scopes.size := by
    have hinside := Heap.inBounds_of_locate? hties.locate?_eq
    change _ < (w'.heap.scopes.push _).size
    rw [Array.size_push]
    omega
  have hcall : ∀ k, Focus.Calls (k + 1) ⟨.pair call, inner, w'⟩ ⟨code, frame, w₁⟩ := fun k =>
    Loop.calls_procedure (l := twiceWith m) (Heap.pair_eq_of_getElem? hstarts'.call)
      hties.locate?_eq (.of_lists hstarts'.operands (.cons (.of_reduce ⟨2, rfl⟩) .nil))
      ⟨_, hties.closure_eq⟩
  have hcell : w₁.heap.HasPair m ⟨.symbol ⟨"m"⟩, .nil⟩ := hcells _ _ (h'.cells _ _ hm)
  have hcode : IsBody w₁.heap.HasPair code [.pair branch] := hties.body
  have hround₁ : (twiceWith m).IsRound w₁.heap.HasPair branch again := hround
  clear_value w₁ frame
  obtain ⟨w₂, hyields, hpairs, hloop₂⟩ := hassigns.yields hcell rfl hmacro hloop howner
  obtain ⟨least', hwithin⟩ := hyields.evaluatesWithin
  obtain ⟨hthere, operands₂, hagain, hoperands₂⟩ :=
    iterates_twiceWith hcode hround₁ hx hcell (hwithin (max least least' + 1) (by omega)) hpairs
  -- the name stands for a number now
  obtain ⟨text, w₃, hends⟩ := Step.Finishes.of_number hagain rfl hloop₂ hoperands₂
  have hwhole := (hiterates (max least least' + 1) (by omega)).trans (.call (hcall _) hthere)
  exact ⟨text, w₃, hwhole.finishes_iff.2 hends⟩

/-- A scope in which `m` is a transformer without parameters that answers an assignment of five to
the name, which stands for zero there. -/
def withAssigning (σ : Moment) (f : String) : Moment :=
  let form : List Value := [.symbol ⟨"set!"⟩, .symbol ⟨f⟩, .number (.float 5)]
  (σ.listing form).enclosing ⟨.insert (.insert (.insert {} f (.number (.float 0))) "form"
      (σ.heap.list form).1) "m" (.transformer ⟨(σ.listing form).heap.closures.size⟩), some .global⟩
    [⟨⟨[], none⟩, .symbol ⟨"form"⟩, ⟨(σ.listing form).heap.scopes.size⟩, none⟩]

theorem le_withAssigning (σ : Moment) (f : String) : σ.Le (σ.withAssigning f) :=
  (σ.le_listing _).trans (le_enclosing _ _ _)

theorem binds_withAssigning (hσ : σ.Continues World.prelude) (f : String) : ∃ scope form t,
    (σ.withAssigning f).Binds scope
      ([("m", .transformer t), ("form", form), (f, .number (.float 0))] ++ Prelude.names) ∧
    (σ.withAssigning f).heap.Assigns (σ.withAssigning f).Cell t f := by
  let items : List Value := [.symbol ⟨"set!"⟩, .symbol ⟨f⟩, .number (.float 5)]
  have hitems : Items (σ.listing items).Cell (σ.heap.list items).1 items := σ.items_listing items
  have hle := (σ.listing items).le_enclosing ⟨.insert (.insert (.insert {} f (.number (.float 0)))
      "form" (σ.heap.list items).1) "m" (.transformer ⟨(σ.listing items).heap.closures.size⟩),
      some .global⟩ [⟨⟨[], none⟩, .symbol ⟨"form"⟩, ⟨(σ.listing items).heap.scopes.size⟩, none⟩]
  have hempty : ∀ name, (∅ : Std.TreeMap String Value)[name]? = List.lookup name [] :=
    fun _ => Std.TreeMap.getElem?_emptyc
  have hbinds := (hσ.binds_names.mono (σ.le_listing items)).nested hle
    Array.getElem?_push_size
    (hσ.binds_names.mono (σ.le_listing items)).inBounds
    (Heap.getElem?_insert_eq_lookup (Heap.getElem?_insert_eq_lookup (Heap.getElem?_insert_eq_lookup
      hempty f _) "form" _) "m" _)
  refine ⟨⟨(σ.listing items).heap.scopes.size⟩, _, _, hbinds, ?_⟩
  obtain ⟨owner, hform⟩ := hbinds.names "form" _ rfl
  refine ⟨⟨(σ.listing items).heap.scopes.size⟩, owner, _, none, ?_, hform, hitems.mono hle.cells⟩
  change ((σ.listing items).heap.closures ++ _)[(σ.listing items).heap.closures.size]? = _
  simp [items]

/-- A loop with a call in its body. -/
def calledText : Datum :=
  doText [⟨"x", .boolean false, some (.boolean true)⟩] (.name "x") [.name "x"] [.list [.name "m"]]

example : (Reader.ofText "(do ((x #f #t)) (x x) (m))".toList).read.1 = .datum calledText := by
  cbv

/-- None of the expressions mentions `__loop__`, which stands for a number outside, but what the
call expands to replaces the procedure of the loop: instead of a second round there is an error. -/
theorem not_iterated_after_assignment :
    let σ := (written World.nowhere calledText).withAssigning "__loop__"
    ∃ scope form t, σ.Binds scope ([("m", .transformer t), ("form", form),
        ("__loop__", .number (.float 0))] ++ Prelude.names) ∧
      σ.heap.Assigns σ.Cell t "__loop__" ∧
      (∃ text w', Finishes (World.prelude.build calledText).1 scope σ.world
        (.fault (.failed (.notProcedure text))) w') ∧
      ∀ w', ¬ Finishes (World.prelude.build calledText).1 scope σ.world (.value (.boolean true))
        w' := by
  intro σ
  obtain ⟨site, clauses, test, results, body, hsite, hcall, hclauses, htest, hresults, hbody⟩ :=
    exists_iteration_written World.nowhere [⟨"x", .boolean false, some (.boolean true)⟩] (.name "x")
      [.name "x"] [.list [.name "m"]]
  simp only [List.forall₂_cons_right_iff, List.forall₂_nil_right_iff] at hclauses hresults hbody
  obtain ⟨⟨_, e, _⟩, _, ⟨rfl, ⟨he, -⟩, @⟨e', _, he', -⟩⟩, rfl, rfl⟩ := hclauses
  obtain ⟨x, _, ⟨hx, -⟩, rfl, rfl⟩ := hresults
  obtain ⟨y, _, hy, rfl, rfl⟩ := hbody
  obtain rfl : e = .boolean false := he
  obtain rfl : e' = .boolean true := he'
  obtain rfl : x = .symbol ⟨"x"⟩ := hx
  obtain rfl : test = .symbol ⟨"x"⟩ := htest.1
  obtain ⟨m, ⟨_, _⟩, rfl, hm, ⟨rfl, -⟩, ⟨rfl, -⟩⟩ := Has.pair hy
  have hσ := continues_written World.nowhere calledText
  have hle := (written World.nowhere calledText).le_withAssigning "__loop__"
  obtain ⟨scope, form, t, hbinds, hassigns⟩ := binds_withAssigning hσ "__loop__"
  refine ⟨scope, form, t, hbinds, hassigns, ?_⟩
  rw [show (World.prelude.build calledText).1 = .pair site from hsite]
  obtain ⟨owner, hdo⟩ := hbinds.names "do" _ rfl
  obtain ⟨owner₁, hletrec⟩ := hbinds.names "letrec" _ rfl
  obtain ⟨owner₂, hlet⟩ := hbinds.names "let" _ rfl
  obtain ⟨owner₃, hname⟩ := hbinds.names "m" _ rfl
  have hadvances := hle.advances ⟨[], [], []⟩
  obtain ⟨text, w', hends⟩ := (hcall.mono hle).finishes_assigned (hσ.changes hle.changes)
    ((isBinder_written _ _).advances hadvances)
    ((isRecursion_written _ _).advances hadvances (by simp) (by simp))
    ((isIteration_written _ _).mono hle) hdo hletrec hlet (hle.cells _ _ hm) hname hassigns
  refine ⟨⟨text, w', hends⟩, fun w'' hother => ?_⟩
  cases hends.unique hother

end Moment

end Scheme
