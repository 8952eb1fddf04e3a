import Scheme.Proofs.NamedBindings
/-!
# What iterations expand to

The transformer for iterations makes recursive bindings of one name to a procedure that calls itself
in tail position. Its code has local bindings around a template.
-/

namespace Scheme

open Evaluator

/-- A variable of an iteration with its first value, and the expression for the next ones if there
is one. -/
structure Clause (α : Type) where
  name : String
  init : α
  step : Option α

namespace Clause

/-- The clause as a list. -/
def row (c : Clause Value) : List Value :=
  .symbol ⟨c.name⟩ :: c.init :: c.step.toList

/-- The expression for the next value; a variable without one keeps its value. -/
def next (c : Clause Value) : Value :=
  c.step.getD (.symbol ⟨c.name⟩)

theorem next_eq {c c' : Clause Value} (h : c.row = c'.row) : c.next = c'.next := by
  obtain ⟨name, init, step⟩ := c
  obtain ⟨name', init', step'⟩ := c'
  cases step <;> cases step' <;> simp_all [row, next]

end Clause

/-! ## The template -/

theorem isTemplate_iteration : iterationTemplate.IsTemplate where
  sketch := by decide
  pair := ⟨_, _, rfl, rfl⟩
  proper _ _ := rfl
  size h v := by
    have hsize : (h.template v iterationTemplate).size = 31 := by cbv
    omega

theorem follows_iterationTemplate {code : Value → Datum → Prop} {plan : Plan}
    (h : plan.Follows code iterationTemplate) : ∃ names test result body steps inits,
      plan = .pair (.atom (.symbol ⟨"letrec"⟩)) (.pair
        (.pair (.pair (.atom (.symbol ⟨"__loop__"⟩)) (.pair
          (.pair (.atom (.symbol ⟨"lambda"⟩)) (.pair (.hole names) (.pair
            (.pair (.atom (.symbol ⟨"if"⟩)) (.pair (.hole test) (.pair
              (.pair (.atom (.symbol ⟨"begin"⟩)) (.hole result)) (.pair
              (.pair (.atom (.symbol ⟨"begin"⟩)) (.splice body (.pair
                (.pair (.atom (.symbol ⟨"__loop__"⟩)) (.hole steps)) (.atom .nil))))
              (.atom .nil)))))
            (.atom .nil))))
          (.atom .nil))) (.atom .nil))
        (.pair (.pair (.atom (.symbol ⟨"__loop__"⟩)) (.hole inits)) (.atom .nil))) ∧
      code names (.name "variables") ∧ code test (.name "test") ∧ code result (.name "result") ∧
      code body (.name "body") ∧ code steps (.name "steps") ∧ code inits (.name "inits") := by
  obtain ⟨_, _, rfl, rfl, _, _, rfl, hbindings, hcall⟩ := h
  obtain ⟨_, _, rfl, ⟨_, _, rfl, rfl, _, _, rfl, hprocedure, rfl⟩, rfl⟩ := hbindings
  obtain ⟨_, _, rfl, rfl, _, _, rfl, ⟨names, rfl, h₁⟩, _, _, rfl, hbranch, rfl⟩ := hprocedure
  obtain ⟨_, _, rfl, rfl, _, _, rfl, ⟨test, rfl, h₂⟩, _, _, rfl, hdone, hnext⟩ := hbranch
  obtain ⟨_, _, rfl, rfl, result, rfl, h₃⟩ := hdone
  obtain ⟨_, _, rfl, hround, rfl⟩ := hnext
  obtain ⟨_, _, rfl, rfl, body, _, rfl, h₄, _, _, rfl, hagain, rfl⟩ := hround
  obtain ⟨_, _, rfl, rfl, steps, rfl, h₅⟩ := hagain
  obtain ⟨_, _, rfl, ⟨_, _, rfl, rfl, inits, rfl, h₆⟩, rfl⟩ := hcall
  exact ⟨names, test, result, body, steps, inits, rfl, h₁, h₂, h₃, h₄, h₅, h₆⟩

/-! ## The code of a loop -/

/-- A loop: the names, the test, the results, the body, and the expressions for the next values. -/
structure Loop where
  names : List String
  test : Value
  results : List Value
  body : List Value
  nexts : List Value

/-- The code of one round: a branch on the test, to the results or to the body with a call for the
next round after it. -/
def Loop.IsRound (l : Loop) (cell : Ref .pair → Pair → Prop) (branch again : Ref .pair) : Prop :=
  ∃ done next results forms operands,
    Items cell (.pair branch) [.symbol ⟨"if"⟩, l.test, .pair done, .pair next] ∧
    cell done ⟨.symbol .begin, results⟩ ∧ Items cell results l.results ∧
    cell next ⟨.symbol .begin, forms⟩ ∧ Items cell forms (l.body ++ [.pair again]) ∧
    cell again ⟨.symbol ⟨"__loop__"⟩, operands⟩ ∧ Items cell operands l.nexts

theorem Loop.IsRound.mono {l : Loop} {cell cell' : Ref .pair → Pair → Prop}
    (hcells : ∀ r p, cell r p → cell' r p) {branch again : Ref .pair}
    (h : l.IsRound cell branch again) : l.IsRound cell' branch again := by
  obtain ⟨done, next, results, forms, operands, hbranch, hdone, hresults, hnext, hforms, hagain,
    hoperands⟩ := h
  exact ⟨done, next, results, forms, operands, hbranch.mono hcells, hcells _ _ hdone,
    hresults.mono hcells, hcells _ _ hnext, hforms.mono hcells, hcells _ _ hagain,
    hoperands.mono hcells⟩

/-- The loop of an iteration. -/
def Clause.loop (clauses : List (Clause Value)) (test : Value) (results body : List Value) : Loop :=
  ⟨clauses.map Clause.name, test, results, body, clauses.map Clause.next⟩

namespace Moment

variable {σ σ' σ₁ : Moment} {may : Expandables} {scope owner : Ref .scope} {r site x : Ref .pair}
  {v test names list tested results forms steps inits : Value} {locals : Environment}
  {clauses : List (Clause Value)} {rs body es : List Value} {l : Loop}

/-- Recursive bindings of one name to the procedure of a loop around a call of it. -/
def IterationForm (σ : Moment) (x : Ref .pair) (l : Loop) (es : List Value) : Prop :=
  ∃ operands list procedure forms branch again call inits,
    σ.Cell x ⟨.symbol ⟨"letrec"⟩, operands⟩ ∧ Items σ.Cell operands [list, .pair call] ∧
    Table σ.Cell list [[.symbol ⟨"__loop__"⟩, .pair procedure]] ∧
    IsAbstraction σ.Cell procedure l.names forms ∧ Items σ.Cell forms [.pair branch] ∧
    l.IsRound σ.Cell branch again ∧ σ.Cell call ⟨.symbol ⟨"__loop__"⟩, inits⟩ ∧
    Items σ.Cell inits es

/-- The template is evaluated where its names have the values of the parts. -/
theorem does_iterationTemplate (hsite : σ.Flat site iterationTemplate)
    (hσ : σ.Continues World.prelude) (hscope : σ.Binds scope (locals ++ Prelude.names))
    (hshows : Prelude.shows (locals.map Prod.fst) = true)
    (hlocals : ∀ p ∈ [("variables", names), ("test", l.test), ("result", results), ("body", forms),
      ("steps", steps), ("inits", inits)], locals.lookup p.1 = some p.2)
    (hnames : Items σ.Cell names (l.names.map fun name => .symbol ⟨name⟩))
    (hresults : Items σ.Cell results l.results) (hforms : Items σ.Cell forms l.body)
    (hsteps : Items σ.Cell steps l.nexts) (hinits : Items σ.Cell inits es)
    (hmay : iterationTemplate ∈ may.templates) :
    σ.Does may (.pair site) scope fun σ' v => ∃ x, v = .pair x ∧ σ'.IterationForm x l es := by
  have hlocal : ∀ {name : String} {v : Value}, locals.lookup name = some v →
      (locals ++ Prelude.names).lookup name = some v := fun hv => by
    rw [List.lookup_append, hv, Option.some_or]
  simp only [List.forall_mem_cons, List.not_mem_nil, false_imp_iff, implies_true, and_true] at hlocals
  obtain ⟨hl₁, hl₂, hl₃, hl₄, hl₅, hl₆⟩ := hlocals
  refine hsite.does isTemplate_iteration rfl hσ (hscope.seesTemplates hshows) hmay
    fun σ₁ plan h₁ hfollows => ?_
  obtain ⟨_, _, _, _, _, _, rfl, rfl, rfl, rfl, rfl, rfl, rfl⟩ := follows_iterationTemplate hfollows
  have hscope₁ := hscope.changes h₁.toChanges
  refine does_variable hscope₁ (hlocal hl₁) (does_variable hscope₁ (hlocal hl₂)
    (does_variable hscope₁ (hlocal hl₃) ?_))
  intro σ₂ done hle₂ hdone
  have hscope₂ := hscope₁.mono hle₂
  refine does_variable hscope₂ (hlocal hl₄) (does_variable hscope₂ (hlocal hl₅) ?_)
  intro σ₃ again hle₃ hagain σ₄ r₄ hle₄ hr₄
  refine ⟨l.body, (hforms.mono h₁.cells).mono ((hle₂.trans hle₃).trans hle₄).cells,
    fun σ₅ v₅ hle₅ hv₅ => ?_⟩
  intro σ₆ next hle₆ hnext σ₇ r₇ hle₇ hr₇ σ₈ r₈ hle₈ hr₈ σ₉ r₉ hle₉ hr₉ σ₁₀ branch hle₁₀ hbranch
  -- each step of the building keeps all cells, and so do the steps from any one to the last
  have hround : σ₁.Le σ₁₀ ∧ l.IsRound σ₁₀.Cell branch again := by
    have hle₈' := hle₉.trans hle₁₀
    have hle₇' := hle₈.trans hle₈'
    have hle₆' := hle₇.trans hle₇'
    have hle₅' := hle₆.trans hle₆'
    have hle₄' := hle₅.trans hle₅'
    have hle₃' := hle₄.trans hle₄'
    have hle₂' := hle₃.trans hle₃'
    have h₁₀ := hle₂.trans hle₂'
    refine ⟨h₁₀, done, next, results, v₅, steps, .cons hbranch (.cons (hle₁₀.cells _ _ hr₉)
      (.cons (hle₈'.cells _ _ hr₈) (.cons (hle₇'.cells _ _ hr₇) .nil))), hle₂'.cells _ _ hdone,
      (hresults.mono h₁.cells).mono h₁₀.cells, hle₆'.cells _ _ hnext,
      (hv₅ _ (.cons hr₄ .nil)).mono hle₅'.cells, hle₃'.cells _ _ hagain,
      (hsteps.mono h₁.cells).mono h₁₀.cells⟩
  obtain ⟨h₁₀, hround⟩ := hround
  intro σ₁₁ r₁₁ hle₁₁ hr₁₁ σ₁₂ r₁₂ hle₁₂ hr₁₂ σ₁₃ procedure hle₁₃ hprocedure σ₁₄ r₁₄ hle₁₄ hr₁₄ σ₁₅
    r₁₅ hle₁₅ hr₁₅ σ₁₆ r₁₆ hle₁₆ hr₁₆
  have hle₁₄' := hle₁₅.trans hle₁₆
  have hle₁₃' := hle₁₄.trans hle₁₄'
  have hle₁₂' := hle₁₃.trans hle₁₃'
  have hle₁₁' := hle₁₂.trans hle₁₂'
  have h₁₆ := h₁₀.trans (hle₁₁.trans hle₁₁')
  refine does_variable (hscope₁.mono h₁₆) (hlocal hl₆) ?_
  intro σ₁₇ call hle₁₇ hcall σ₁₈ r₁₈ hle₁₈ hr₁₈ σ₁₉ r₁₉ hle₁₉ hr₁₉ σ₂₀ x hle₂₀ hx
  have hle₁₈' := hle₁₉.trans hle₂₀
  have hle₁₇' := hle₁₈.trans hle₁₈'
  have hle₁₆' := hle₁₇.trans hle₁₇'
  have hcells : ∀ r p, σ.Cell r p → σ₂₀.Cell r p := fun r p hr =>
    hle₁₆'.cells r p (h₁₆.cells r p (h₁.cells r p hr))
  exact ⟨x, rfl, .pair r₁₉, .pair r₁₆, procedure, .pair r₁₁, branch, again, call, inits, hx,
    .cons (hle₂₀.cells _ _ hr₁₉) (.cons (hle₁₈'.cells _ _ hr₁₈) .nil),
    ⟨[.pair r₁₅], .cons (hle₁₆'.cells _ _ hr₁₆) .nil,
      .cons (.cons ((hle₁₆.trans hle₁₆').cells _ _ hr₁₅)
        (.cons ((hle₁₄'.trans hle₁₆').cells _ _ hr₁₄) .nil)) .nil⟩,
    ⟨r₁₂, names, (hle₁₃'.trans hle₁₆').cells _ _ hprocedure,
      (hle₁₂'.trans hle₁₆').cells _ _ hr₁₂, hnames.mono hcells⟩,
    .cons ((hle₁₁'.trans hle₁₆').cells _ _ hr₁₁) .nil,
    hround.mono ((hle₁₁.trans hle₁₁').trans hle₁₆').cells, hle₁₇'.cells _ _ hcall,
    hinits.mono hcells⟩

/-! ## The expressions for the next values -/

theorem exists_of_forall₂ {α β : Type} {R : α → β → Prop} {as : List α} {bs : List β} {a : α}
    (h : List.Forall₂ R as bs) (ha : a ∈ as) : ∃ b, R a b := by
  induction h with
  | nil => cases ha
  | cons hb _ ih =>
      rcases List.mem_cons.1 ha with rfl | ha
      · exact ⟨_, hb⟩
      · exact ih ha

theorem exists_inits (h : Table σ.Cell list (clauses.map Clause.row)) :
    ∃ items, Items σ.Cell list items ∧ List.Forall₂
      (fun x v => Primitive.look? .cadr σ.heap [x] = some v) items (clauses.map Clause.init) :=
  exists_seconds h (by simp [List.forall₂_map_left_iff, List.forall₂_map_right_iff, Clause.row])

theorem exists_variables (h : Table σ.Cell list (clauses.map Clause.row)) :
    ∃ items, Items σ.Cell list items ∧ List.Forall₂
      (fun x v => Primitive.look? .car σ.heap [x] = some v) items
      (clauses.map fun c => .symbol ⟨c.name⟩) :=
  exists_firsts h (by simp [List.forall₂_map_left_iff, List.forall₂_map_right_iff, Clause.row])

/-- The third part of a clause if there is one, and else its first part. -/
theorem evals_step {item : Value} {clause : Clause Value} (hitem : Items σ.Cell item clause.row) :
    σ.Evals ([("clause", item), ("body", forms), ("bindings", list), ("test-and-result", tested)] ++
      Prelude.names) scope stepText fun _ v => v = clause.next := by
  have hrest := hitem.of_rest.of_rest
  obtain ⟨name, init, step⟩ := clause
  refine Evals.branch rfl (Evals.looks (v := .boolean step.isNone) ?_ ?_)
  · change some (Value.boolean ((σ.world.heap.rest (σ.world.heap.rest item)).isOf .null)) = _
    generalize σ.world.heap.rest (σ.world.heap.rest item) = rest at hrest
    cases step <;> cases hrest <;> rfl
  · cases step with
    | none => exact Evals.looks (v := .symbol ⟨name⟩) (congrArg some hitem.first_eq) rfl
    | some step => exact Evals.looks (v := step) (congrArg some hrest.first_eq) rfl

/-- Each clause is mapped to its expression for the next value. -/
theorem does_steps (hX : σ.Prepared v (.mapping (.procedure ["clause"] stepText) ["bindings"]))
    (hσ : σ.Continues World.prelude)
    (hscope : σ.Binds scope ([("body", forms), ("bindings", list), ("test-and-result", tested)] ++
      Prelude.names))
    (hlist : Table σ.Cell list (clauses.map Clause.row)) :
    σ.Does may v scope fun σ' v => Items σ'.Cell v (clauses.map Clause.next) := by
  obtain ⟨items, hitems, hall⟩ := hlist
  rw [List.forall₂_map_right_iff] at hall
  let isNext (σ' : Moment) (row : List Value) (v : Value) : Prop :=
    ∃ (item : Value) (clause : Clause Value), row = [item] ∧ Items σ'.Cell item clause.row ∧
      v = clause.next
  refine (Prepared.does_mapping isNext hX rfl rfl rfl (by decide) (by decide) hscope rfl
    (.cons rfl .nil) hitems.rows ?_ ?_ ?_).imp fun σ' v h' hv => ?_
  · intro row hrow
    obtain ⟨item, -, rfl⟩ := List.mem_map.1 hrow
    rfl
  · rintro σ₁ σ₂ row v h₂ ⟨item, clause, hrow, hclause, hv⟩
    exact ⟨item, clause, hrow, hclause.mono h₂.cells, hv⟩
  · intro σ₁ inner code row h₁ hrow hcode hinner
    obtain ⟨item, hmem, rfl⟩ := List.mem_map.1 hrow
    obtain ⟨clause, hclause⟩ := exists_of_forall₂ hall hmem
    have hclause₁ := hclause.mono h₁.cells
    refine (Evals.does (evals_step hclause₁) ((hσ.changes h₁.toChanges).sees hinner rfl)
      (hcode.code rfl rfl)).imp fun σ₂ v h₂ hv => ?_
    exact ⟨item, clause, rfl, hclause₁.mono h₂.cells, hv⟩
  · obtain ⟨vs, hvs, hnexts⟩ := hv
    suffices heq : vs = clauses.map Clause.next from heq ▸ hvs
    rw [List.forall₂_map_left_iff] at hnexts
    have hall' := hall.imp fun _ _ hclause => hclause.mono h'.cells
    clear hvs hitems hall
    induction hall' generalizing vs with
    | nil =>
        cases hnexts
        rfl
    | @cons item clause items clauses hclause _ ih =>
        cases hnexts with
        | cons hv hvs =>
        obtain ⟨_, clause', heq, hclause', rfl⟩ := hv
        cases heq
        have hrow := hclause.unique (fun r p q => @Cell.unique σ' r p q) hclause'
        rw [List.map_cons, ih _ hvs, Clause.next_eq hrow]

/-! ## The transformer -/

/-- The closure for iterations. -/
def IsIteration (σ : Moment) : Prop :=
  ∃ site name variables' inits steps test result inner, σ.heap.closures[7]? =
      some ⟨⟨[⟨"bindings"⟩, ⟨"test-and-result"⟩], some ⟨"body"⟩⟩, .pair site, .global, name⟩ ∧
    σ.Bound site [("variables", variables'), ("inits", inits), ("steps", steps), ("test", test),
      ("result", result)] [.pair inner] ∧
    LaidOut σ.Cell variables' (.mapping (.name "first") ["bindings"]) ∧
    LaidOut σ.Cell inits (.mapping (.name "second") ["bindings"]) ∧
    LaidOut σ.Cell steps (.mapping (.procedure ["clause"] stepText) ["bindings"]) ∧
    LaidOut σ.Cell test (.form "first" [.name "test-and-result"]) ∧
    LaidOut σ.Cell result (.form "rest" [.name "test-and-result"]) ∧
    σ.Flat inner iterationTemplate

/-- What may be replaced when an iteration is expanded. -/
def iterationSites : Expandables :=
  ⟨[bindingTemplate, iterationTemplate], [iterationParts.map Prod.fst], []⟩

/-- The body of the transformer after its local bindings have been replaced. -/
theorem does_iterationCall {vars result : Value} {inner : Ref .pair}
    (h : σ.Abstracted r [("variables", vars), ("inits", inits), ("steps", steps), ("test", test),
      ("result", result)] [.pair inner])
    (hσ : σ.Continues World.prelude)
    (hscope : σ.Binds scope ([("body", forms), ("bindings", list), ("test-and-result", tested)] ++
      Prelude.names))
    (hvars : LaidOut σ.Cell vars (.mapping (.name "first") ["bindings"]))
    (hinits : LaidOut σ.Cell inits (.mapping (.name "second") ["bindings"]))
    (hsteps : LaidOut σ.Cell steps (.mapping (.procedure ["clause"] stepText) ["bindings"]))
    (htest : LaidOut σ.Cell test (.form "first" [.name "test-and-result"]))
    (hresult : LaidOut σ.Cell result (.form "rest" [.name "test-and-result"]))
    (htemplate : σ.Flat inner iterationTemplate)
    (hlist : Table σ.Cell list (clauses.map Clause.row)) {t : Value}
    (htested : Items σ.Cell tested (t :: rs)) (hforms : Items σ.Cell forms body)
    (hmay : iterationTemplate ∈ may.templates) :
    σ.Does may (.pair r) scope fun σ' v => ∃ x, v = .pair x ∧
      σ'.IterationForm x (Clause.loop clauses t rs body) (clauses.map Clause.init) := by
  refine h.does hscope (by simp) fun σ₁ hle₁ => ?_
  have h₁ := hle₁.advances may
  have hsees : ∀ {σ'}, σ.Advances may σ' → σ'.Sees scope
      ([("body", forms), ("bindings", list), ("test-and-result", tested)] ++ Prelude.names) :=
    fun h => (hσ.changes h.toChanges).sees (hscope.changes h.toChanges) rfl
  obtain ⟨items, hitems, hlook⟩ := exists_variables (hlist.mono h₁.cells)
  refine (Evals.mapping rfl rfl rfl rfl hitems hlook).does (hsees h₁) ((hvars.mono h₁.cells).code rfl)
    |>.imp fun σ₂ names h₁₂ hnames => ?_
  have h₂ := h₁.trans h₁₂
  obtain ⟨items', hitems', hlook'⟩ := exists_inits (hlist.mono h₂.cells)
  refine (Evals.mapping rfl rfl rfl rfl hitems' hlook').does (hsees h₂)
    ((hinits.mono h₂.cells).code rfl) |>.imp fun σ₃ firsts h₂₃ hfirsts => ?_
  have h₃ := h₂.trans h₂₃
  refine (does_steps (.of_laidOut rfl (hsteps.mono h₃.cells)) (hσ.changes h₃.toChanges)
    (hscope.changes h₃.toChanges) (hlist.mono h₃.cells)).imp fun σ₄ nexts h₃₄ hnexts => ?_
  have h₄ := h₃.trans h₃₄
  have htested₄ := htested.mono h₄.cells
  have hvalue : Datum.value? ([("body", forms), ("bindings", list), ("test-and-result", tested)] ++
      Prelude.names) σ₄.heap (.form "first" [.name "test-and-result"]) = some t :=
    congrArg some htested₄.first_eq
  refine Evals.does (Evals.looks hvalue ?_) (hsees h₄) ((htest.mono h₄.cells).code rfl)
  have hvalue' : Datum.value? ([("body", forms), ("bindings", list), ("test-and-result", tested)] ++
      Prelude.names) σ₄.heap (.form "rest" [.name "test-and-result"]) =
        some (σ₄.world.heap.rest tested) := rfl
  refine Evals.does (Evals.looks hvalue' ?_) (hsees h₄) ((hresult.mono h₄.cells).code rfl)
  intro σ₅ inner' hle₅ hscope₅
  have h₄₅ := hle₅.advances may
  have h₅ := h₄.trans h₄₅
  have hscope₅' : σ₅.Binds inner' ([("variables", names), ("inits", firsts), ("steps", nexts),
    ("test", t), ("result", σ₄.world.heap.rest tested), ("body", forms), ("bindings", list),
    ("test-and-result", tested)] ++ Prelude.names) := hscope₅
  have hnames₅ : Items σ₅.Cell names
      ((Clause.loop clauses t rs body).names.map fun name => .symbol ⟨name⟩) := by
    rw [Clause.loop, List.map_map]
    exact hnames.mono ((h₂₃.trans h₃₄).trans h₄₅).cells
  refine does_iterationTemplate (h₅.templates _ _ rfl htemplate) (hσ.changes h₅.toChanges) hscope₅' rfl
    ?_ hnames₅ (htested₄.of_rest.mono h₄₅.cells) (hforms.mono h₅.cells) (hnexts.mono h₄₅.cells)
    (hfirsts.mono (h₃₄.trans h₄₅).cells) hmay
  simp only [List.forall_mem_cons, List.not_mem_nil, false_imp_iff, implies_true, and_true]
  exact ⟨rfl, rfl, rfl, rfl, rfl, rfl⟩

/-- A call of the transformer on clauses, a test with the results, and a body. -/
theorem transforms_iteration (hσ : σ.Continues World.prelude) (hb : σ.IsBinder)
    (hc : σ.IsIteration) (hlist : Table σ.Cell list (clauses.map Clause.row)) {t : Value}
    (htested : Items σ.Cell tested (t :: rs)) (body : List Value) :
    σ.Transforms iterationSites ⟨7⟩ (list :: tested :: body) fun σ' x =>
      σ'.IterationForm x (Clause.loop clauses t rs body) (clauses.map Clause.init) := by
  obtain ⟨site, name, vars, inits, steps, test, result, inner, hclosure, hbound, hvars, hinits, hsteps,
    htest, hresult, htemplate⟩ := hc
  refine Transforms.of_does ["bindings", "test-and-result"] [list, tested] body hσ hclosure rfl
    (by decide) fun σ₁ scope forms hle hforms hscope => ?_
  have h₁ := hle.advances ⟨[], [], []⟩
  have hscope₁ : σ₁.Binds scope ([("body", forms), ("bindings", list), ("test-and-result", tested)] ++
    Prelude.names) := hscope
  obtain ⟨owner, howner⟩ := hscope₁.names "let" _ rfl
  refine (hbound.advances h₁ (List.not_mem_nil)).does (hσ.changes h₁.toChanges) (hb.advances h₁)
    howner (by simp [iterationSites]) (by simp [iterationSites, iterationParts])
    fun σ₂ h₂ habstracted => ?_
  have h₁₂ : σ.Changes σ₂ := h₁.toChanges.trans h₂.toChanges
  exact does_iterationCall habstracted (hσ.changes h₁₂) (hscope₁.changes h₂.toChanges)
    (hvars.mono h₁₂.cells) (hinits.mono h₁₂.cells) (hsteps.mono h₁₂.cells) (htest.mono h₁₂.cells)
    (hresult.mono h₁₂.cells) (h₂.templates _ _ rfl (h₁.templates _ _ rfl htemplate))
    (hlist.mono h₁₂.cells) (htested.mono h₁₂.cells) (hforms.mono h₂.cells)
    (by simp [iterationSites])

/-- An iteration as it was written. -/
structure IterationCall (σ : Moment) (site : Ref .pair) (clauses : List (Clause Value)) (test : Value)
    (results body : List Value) : Prop where
  awaits : σ.sites site
  form : ∃ operands list tested, σ.heap.pairs[site.index]? = some ⟨.symbol ⟨"do"⟩, operands⟩ ∧
    Items σ.Cell operands (list :: tested :: body) ∧ Table σ.Cell list (clauses.map Clause.row) ∧
    Items σ.Cell tested (test :: results)

theorem IterationCall.mono (h : σ.Le σ') (hcall : σ.IterationCall site clauses test rs body) :
    σ'.IterationCall site clauses test rs body := by
  obtain ⟨operands, list, tested, hsite, hoperands, hlist, htested⟩ := hcall.form
  obtain ⟨hawaits, hsite'⟩ := h.waiting site _ hcall.awaits hsite (by simp)
  exact ⟨hawaits, operands, list, tested, hsite', hoperands.mono h.cells, hlist.mono h.cells,
    htested.mono h.cells⟩

theorem IsIteration.mono (h : σ.Le σ') (hc : σ.IsIteration) : σ'.IsIteration := by
  obtain ⟨site, name, vars, inits, steps, test, result, inner, hclosure, hbound, hvars, hinits,
    hsteps, htest, hresult, htemplate⟩ := hc
  have h' := h.advances ⟨[], [], []⟩
  exact ⟨site, name, vars, inits, steps, test, result, inner, h.closures _ _ hclosure,
    hbound.advances h' List.not_mem_nil, hvars.mono h.cells, hinits.mono h.cells,
    hsteps.mono h.cells, htest.mono h.cells, hresult.mono h.cells,
    h'.templates _ _ rfl htemplate⟩

theorem isIteration_written (host : Host) (d : Datum) : (written host d).IsIteration := by
  obtain ⟨body, name, hclosure, hbody⟩ := World.closure_iteration
  have hbody' : World.prelude.Denotes (World.prelude.closure ⟨7⟩).body iterationText := by
    rwa [Heap.closure, hclosure]
  obtain ⟨site, bindings, inner, hsite, hcall, hparts, hinner⟩ :=
    exists_letCall host d (.tail _ (.head _)) hbody' (by decide) (by decide +kernel)
  obtain rfl : body = .pair site := by
    rwa [Heap.closure, hclosure] at hsite
  simp only [iterationParts, List.forall₂_cons_right_iff, List.forall₂_nil_right_iff] at hparts
  obtain ⟨⟨_, vars⟩, _, ⟨rfl, hvars⟩, ⟨⟨_, inits⟩, _, ⟨rfl, hinits⟩, ⟨⟨_, steps⟩, _, ⟨rfl, hsteps⟩,
    ⟨⟨_, test⟩, _, ⟨rfl, htest⟩, ⟨⟨_, result⟩, _, ⟨rfl, hresult⟩, rfl, rfl⟩, rfl⟩, rfl⟩, rfl⟩, rfl⟩ :=
      hparts
  exact ⟨site, name, vars, inits, steps, test, result, inner,
    (continues_written host d).closures 7 _ hclosure, Or.inl hcall, cells_of_lies (by decide) hvars,
    cells_of_lies (by decide) hinits, cells_of_lies (by decide) hsteps,
    cells_of_lies (by decide) htest, cells_of_lies (by decide) hresult, Or.inl hinner⟩

end Moment

/-! ## Texts of iterations -/

/-- A variable with expressions that are related to those of the other. -/
def Clause.Relates {α β : Type} (R : α → β → Prop) (c : Clause α) (c' : Clause β) : Prop :=
  c.name = c'.name ∧ R c.init c'.init ∧ Option.Rel R c.step c'.step

def Clause.text (c : Clause Datum) : Datum :=
  .list (.name c.name :: c.init :: c.step.toList)

/-- The text of an iteration. -/
def doText (clauses : List (Clause Datum)) (test : Datum) (results body : List Datum) : Datum :=
  .pair (.name "do") (.pair (.list (clauses.map Clause.text))
    (.pair (.list (test :: results)) (.list body)))

namespace Moment

variable {σ : Moment} {v : Value}

theorem Has.clauses {clauses : List (Clause Datum)} (h : σ.Has v (.list (clauses.map Clause.text))) :
    ∃ clauses' : List (Clause Value), Table σ.Cell v (clauses'.map Clause.row) ∧
      List.Forall₂ (Clause.Relates σ.Has) clauses' clauses := by
  obtain ⟨xs, hxs, hall⟩ := h.items _
  suffices hrows : ∃ clauses' : List (Clause Value),
      List.Forall₂ (Items σ.Cell) xs (clauses'.map Clause.row) ∧
        List.Forall₂ (Clause.Relates σ.Has) clauses' clauses by
    obtain ⟨clauses', hrows, hclauses⟩ := hrows
    exact ⟨clauses', ⟨xs, hxs, hrows⟩, hclauses⟩
  clear hxs h
  induction clauses generalizing xs with
  | nil =>
      cases hall
      exact ⟨[], .nil, .nil⟩
  | cons clause clauses ih =>
      obtain ⟨name, init, step⟩ := clause
      cases hall with
      | cons hrow hall =>
      obtain ⟨clauses', hrows, hclauses⟩ := ih _ hall
      obtain ⟨ys, hys, hrow⟩ := Has.items (.name name :: init :: step.toList) hrow
      simp only [List.forall₂_cons_right_iff] at hrow
      obtain ⟨_, _, ⟨rfl, -⟩, ⟨e, steps, he, hsteps, rfl⟩, rfl⟩ := hrow
      cases step with
      | none =>
          cases hsteps
          exact ⟨⟨name, e, none⟩ :: clauses', .cons hys hrows, .cons ⟨rfl, he, .none⟩ hclauses⟩
      | some step =>
          obtain ⟨e', _, he', hnil, rfl⟩ := List.forall₂_cons_right_iff.1 hsteps
          cases hnil
          exact ⟨⟨name, e, some e'⟩ :: clauses', .cons hys hrows,
            .cons ⟨rfl, he, .some he'⟩ hclauses⟩

/-- Such a text, when a new interpreter has read it. -/
theorem exists_iteration_written (host : Host) (clauses : List (Clause Datum)) (test : Datum)
    (results body : List Datum) : ∃ site clauses' test' results' body',
      (World.prelude.build (doText clauses test results body)).1 = .pair site ∧
      (written host (doText clauses test results body)).IterationCall site clauses' test' results'
        body' ∧
      List.Forall₂ (Clause.Relates (written host (doText clauses test results body)).Has) clauses'
        clauses ∧
      (written host (doText clauses test results body)).Has test' test ∧
      List.Forall₂ (written host (doText clauses test results body)).Has results' results ∧
      List.Forall₂ (written host (doText clauses test results body)).Has body' body := by
  obtain ⟨site, ⟨_, operands⟩, hsite, hawaits, hp, hhead, hrest⟩ :=
    exists_form_written host (.name "do") (.pair (.list (clauses.map Clause.text))
      (.pair (.list (test :: results)) (.list body)))
  obtain rfl := hhead.1
  obtain ⟨r, ⟨list, _⟩, rfl, hr, hlist, hrest⟩ := hrest.pair
  obtain ⟨r', ⟨tested, forms⟩, rfl, hr', htested, hforms⟩ := hrest.pair
  obtain ⟨clauses', htable, hclauses⟩ := hlist.clauses
  obtain ⟨_, hitems, hall⟩ := Has.items (test :: results) htested
  obtain ⟨test', results', htest, hresults, rfl⟩ := List.forall₂_cons_right_iff.1 hall
  obtain ⟨body', hbody, hbodies⟩ := hforms.items _
  exact ⟨site, clauses', test', results', body', hsite,
    ⟨hawaits, _, list, tested, hp, .cons hr (.cons hr' hbody), htable, hitems⟩, hclauses, htest,
    hresults, hbodies⟩

end Moment

end Scheme
