import Scheme.Proofs.LocalBindings
/-!
# Recursive bindings

The transformer for recursive bindings makes local bindings of the names to false, and assigns the
values before the body. Its code has local bindings and templates of its own, and templates in the
expressions of a template.
-/

namespace Scheme

open Evaluator

/-! ## Mappings of procedures with templates -/

/-- Two lists side by side. -/
theorem Items.rows_pairs {α : Type} {cell : Ref .pair → Pair → Prop} {f g : α → Value} {xs : List α}
    {v w : Value} (hv : Items cell v (xs.map f)) (hw : Items cell w (xs.map g)) :
    Rows cell [v, w] (xs.map fun a => [f a, g a]) := by
  induction xs generalizing v w with
  | nil =>
      cases hv
      exact .nil rfl
  | cons a xs ih =>
      cases hv with
      | @cons r _ rest _ hr hrest =>
      cases hw with
      | @cons r' _ rest' _ hr' hrest' =>
      have hcells : ∀ c ∈ [(r, (⟨f a, rest⟩ : Pair)), (r', ⟨g a, rest'⟩)], cell c.1 c.2 := by
        simpa using ⟨hr, hr'⟩
      exact .cons (List.cons_ne_nil _ _) hcells (ih hrest hrest')

namespace Moment

variable {σ σ' σ₁ : Moment} {may : Expandables} {scope parent owner : Ref .scope}
  {r site : Ref .pair} {v x f list : Value} {d : Datum} {env locals : Environment}
  {bindings : List (String × Value)} {body : List Value} {rows : List (List Value)}

/-- Each call in a mapping answers what is stated of it, and goes on to do so. -/
theorem performsAll {Q : Moment → List Value → Value → Prop}
    (hQ : ∀ σ σ' row v, σ.Advances may σ' → Q σ row v → Q σ' row v)
    (h : ∀ row ∈ rows, ∀ σ', σ.Advances may σ' → σ'.Performs may f row fun σ'' v => Q σ'' row v)
    {post : Moment → List Value → Prop}
    (hpost : ∀ σ' vs, σ.Advances may σ' → List.Forall₂ (Q σ') rows vs → post σ' vs) :
    PerformsAll may f rows σ post := by
  induction rows generalizing σ post with
  | nil => exact hpost σ [] (.refl may σ) .nil
  | cons row rows ih =>
      obtain ⟨σ₁, v, hyields, hadvances, hv⟩ := h row (List.mem_cons_self ..) σ (.refl may σ)
      refine ⟨σ₁, v, hyields, hadvances, ih (fun row hrow σ' h' => ?_) fun σ' vs h' hvs => ?_⟩
      · exact h row (List.mem_cons_of_mem _ hrow) σ' (hadvances.trans h')
      · exact hpost σ' (v :: vs) (hadvances.trans h') (.cons (hQ _ _ _ _ h' hv) hvs)

/-- The names of the lists that a procedure is mapped over. -/
theorem doesAll_variables {lists : List String} {vs xs : List Value}
    {post : Moment → List Value → Prop} (hscope : σ.Binds scope env)
    (hlists : List.Forall₂ (fun s v => env.lookup s = some v) lists vs)
    (hxs : List.Forall₂ (σ.CodeWith σ.Placed) xs (lists.map Datum.name)) (hpost : post σ vs) :
    DoesAll may scope xs σ post := by
  induction hlists generalizing xs post with
  | nil =>
      cases hxs
      exact hpost
  | cons hs _ ih =>
      cases hxs with
      | cons hx hxs =>
          obtain rfl := hx
          exact does_variable hscope hs (ih hxs hpost)

/-- A procedure with one expression in its body is mapped over lists. -/
theorem Prepared.does_mapping {names lists : List String} {vs : List Value}
    (Q : Moment → List Value → Value → Prop)
    (hX : σ.Prepared x (.mapping (.procedure names d) lists)) (hd : d.isName "quasiquote" = false)
    (hplain : lists.all (fun s => s != "quasiquote") = true)
    (hparameters : (Datum.list (names.map Datum.name)).isFlat = true) (hand : "and" ∉ names)
    (hnames : names.Nodup) (hscope : σ.Binds scope env)
    (hmap : env.lookup "map" = some (.primitive .map))
    (hlists : List.Forall₂ (fun s v => env.lookup s = some v) lists vs)
    (hrows : Rows σ.Cell vs rows) (hlength : ∀ row ∈ rows, row.length = names.length)
    (hQ : ∀ σ σ' row v, σ.Advances may σ' → Q σ row v → Q σ' row v)
    (hbody : ∀ σ' inner code row, σ.Advances may σ' → row ∈ rows → σ'.Prepared code d →
      σ'.Binds inner (names.zip row ++ env) → σ'.Does may code inner fun σ'' v => Q σ'' row v) :
    σ.Does may x scope fun σ' v => ∃ vs, Items σ'.Cell v vs ∧ List.Forall₂ (Q σ') rows vs := by
  obtain ⟨r, rest, xs, rfl, hr, hxs, hall⟩ := hX.form (by
    simpa [Datum.procedure, Datum.form, Datum.name, Datum.isName] using hplain)
  obtain ⟨procedure, others, hprocedure, hothers, rfl⟩ := List.forall₂_cons_right_iff.1 hall
  have hparts : [.name "lambda", .list (names.map Datum.name), d].all
      (fun d => !d.isName "quasiquote") = true := by
    simp only [List.all_cons, List.all_nil, hd]
    cases names <;> rfl
  obtain ⟨l, rest', ys, rfl, hl, hys, hall⟩ := hprocedure.form hparts
  simp only [List.forall₂_cons_right_iff, List.forall₂_nil_right_iff] at hall
  obtain ⟨parameters, _, hps, ⟨code, _, hcode, rfl, rfl⟩, rfl⟩ := hall
  cases hys with
  | @cons inner _ _ _ hinner hforms =>
  cases hforms with
  | @cons forms _ _ _ hforms hnil =>
  cases hnil
  obtain ⟨owner, howner⟩ := hscope.names _ _ hmap
  have hparameters' := CodeWith.symbols hparameters hand hps
  refine Does.call hr rfl howner rfl hxs ?_
  refine (runs_abstraction hl hinner hparameters' hforms).does.imp fun σ₁ _ h₁ hc => ?_
  obtain ⟨c, rfl, hc⟩ := hc
  have hothers' := hothers.imp fun x d hx => Prepared.advances (v := x) (d := d) hx h₁
  refine doesAll_variables (hscope.changes h₁.toChanges) hlists hothers' ?_
  refine Performs.map (hrows.mono h₁.cells) (performsAll hQ (fun row hrow σ₂ h₂ => ?_) ?_)
  · have h₁₂ := h₁.trans h₂
    refine Performs.closure (hc.changes h₂.toChanges) (hscope.changes h₁₂.toChanges)
      (hlength row hrow) hnames fun σ₃ inner hle hinner => ?_
    have h₁₃ := h₁₂.trans (hle.advances may)
    exact hbody σ₃ inner code row h₁₃ hrow (Prepared.advances hcode h₁₃) hinner
  · intro σ₂ vs h₂ hvs σ₃ v hle hv
    exact ⟨vs, hv, hvs.imp fun _ _ => hQ _ _ _ _ (hle.advances may)⟩

end Moment

/-! ## What recursive bindings expand to -/

theorem isTemplate_recursion : recursionTemplate.IsTemplate where
  sketch := by decide
  pair := ⟨_, _, rfl, rfl⟩
  proper _ _ := rfl
  size h v := by
    have hsize : (h.template v recursionTemplate).size = 40 := by cbv
    omega

theorem isTemplate_unset : unsetTemplate.IsTemplate where
  sketch := by decide
  pair := ⟨_, _, rfl, rfl⟩
  proper _ _ := rfl
  size h v := by
    have hsize : (h.template v unsetTemplate).size = 4 := by cbv
    omega

theorem isTemplate_assignment : assignmentTemplate.IsTemplate where
  sketch := by decide
  pair := ⟨_, _, rfl, rfl⟩
  proper _ _ := rfl
  size h v := by
    have hsize : (h.template v assignmentTemplate).size = 7 := by cbv
    omega

theorem follows_recursionTemplate {code : Value → Datum → Prop} {plan : Plan}
    (h : plan.Follows code recursionTemplate) : ∃ bindings assignments body,
      plan = .pair (.atom (.symbol ⟨"let"⟩))
        (.pair (.hole bindings) (.splice assignments (.hole body))) ∧
      code bindings (.mapping (.procedure ["var"] unsetTemplate.template) ["vars"]) ∧
      code assignments
        (.mapping (.procedure ["var", "val"] assignmentTemplate.template) ["vars", "vals"]) ∧
      code body (.name "body") := by
  obtain ⟨_, _, rfl, rfl, _, _, rfl, ⟨bindings, rfl, hbindings⟩, assignments, _, rfl, hassignments,
    body, rfl, hbody⟩ := h
  exact ⟨bindings, assignments, body, rfl, hbindings, hassignments, hbody⟩

theorem follows_unsetTemplate {code : Value → Datum → Prop} {plan : Plan}
    (h : plan.Follows code unsetTemplate) : ∃ var,
      plan = .pair (.hole var) (.pair (.atom (.boolean false)) (.atom .nil)) ∧
      code var (.name "var") := by
  obtain ⟨_, _, rfl, ⟨var, rfl, hvar⟩, _, _, rfl, rfl, rfl⟩ := h
  exact ⟨var, rfl, hvar⟩

theorem follows_assignmentTemplate {code : Value → Datum → Prop} {plan : Plan}
    (h : plan.Follows code assignmentTemplate) : ∃ var val,
      plan = .pair (.atom (.symbol ⟨"set!"⟩))
        (.pair (.hole var) (.pair (.hole val) (.atom .nil))) ∧
      code var (.name "var") ∧ code val (.name "val") := by
  obtain ⟨_, _, rfl, rfl, _, _, rfl, ⟨var, rfl, hvar⟩, _, _, rfl, ⟨val, rfl, hval⟩, rfl⟩ := h
  exact ⟨var, val, rfl, hvar, hval⟩

namespace Moment

variable {σ σ' σ₁ : Moment} {may : Expandables} {scope parent owner : Ref .scope}
  {r site : Ref .pair} {v x f list : Value} {d : Datum} {env locals : Environment}
  {bindings : List (String × Value)} {body : List Value} {rows : List (List Value)}

theorem does_unsetTemplate (hsite : σ.Placed site unsetTemplate) (hσ : σ.Continues World.prelude)
    (hscope : σ.Binds scope (locals ++ Prelude.names))
    (hshows : Prelude.shows (locals.map Prod.fst) = true) (hvar : locals.lookup "var" = some v)
    (hmay : unsetTemplate ∈ may.templates) :
    σ.Does may (.pair site) scope fun σ' w => Items σ'.Cell w [v, .boolean false] := by
  refine hsite.2.does isTemplate_unset hsite.1 hσ (hscope.seesTemplates hshows) hmay
    fun σ₁ plan h₁ hfollows => ?_
  obtain ⟨var, rfl, rfl⟩ := follows_unsetTemplate hfollows
  have hvar' : (locals ++ Prelude.names).lookup "var" = some v := by
    rw [List.lookup_append, hvar, Option.some_or]
  refine does_variable (hscope.changes h₁.toChanges) hvar' fun σ₂ r _ hr σ₃ r' hle hr' => ?_
  exact .cons hr' (.cons (hle.cells _ _ hr) .nil)

theorem does_assignmentTemplate {w : Value} (hsite : σ.Placed site assignmentTemplate)
    (hσ : σ.Continues World.prelude) (hscope : σ.Binds scope (locals ++ Prelude.names))
    (hshows : Prelude.shows (locals.map Prod.fst) = true) (hvar : locals.lookup "var" = some v)
    (hval : locals.lookup "val" = some w) (hmay : assignmentTemplate ∈ may.templates) :
    σ.Does may (.pair site) scope fun σ' u => Items σ'.Cell u [.symbol ⟨"set!"⟩, v, w] := by
  refine hsite.2.does isTemplate_assignment hsite.1 hσ (hscope.seesTemplates hshows) hmay
    fun σ₁ plan h₁ hfollows => ?_
  obtain ⟨var, val, rfl, rfl, rfl⟩ := follows_assignmentTemplate hfollows
  have hvar' : (locals ++ Prelude.names).lookup "var" = some v := by
    rw [List.lookup_append, hvar, Option.some_or]
  have hval' : (locals ++ Prelude.names).lookup "val" = some w := by
    rw [List.lookup_append, hval, Option.some_or]
  refine does_variable (hscope.changes h₁.toChanges) hvar'
    (does_variable (hscope.changes h₁.toChanges) hval' ?_)
  intro σ₂ r _ hr σ₃ r' hle hr' σ₄ r'' hle' hr''
  exact .cons hr'' (.cons (hle'.cells _ _ hr') (.cons (hle'.cells _ _ (hle.cells _ _ hr)) .nil))

/-- A form of local bindings, in cells. -/
def LetForm (σ : Moment) (x : Ref .pair) (bindings : List (String × Value)) (body : List Value) :
    Prop :=
  ∃ operands list forms, σ.Cell x ⟨.symbol ⟨"let"⟩, .pair operands⟩ ∧
    σ.Cell operands ⟨list, forms⟩ ∧ Table σ.Cell list (bindings.map Binding.row) ∧
    Items σ.Cell forms body

/-- What recursive bindings stand for: local bindings to false, and assignments before the body. -/
def RecursionForm (σ : Moment) (x : Ref .pair) (bindings : List (String × Value))
    (body : List Value) : Prop :=
  ∃ assignments, σ.LetForm x (bindings.map fun b => (b.1, .boolean false)) (assignments ++ body) ∧
    List.Forall₂ (Items σ.Cell) assignments
      (bindings.map fun b => [.symbol ⟨"set!"⟩, .symbol ⟨b.1⟩, b.2])

/-- What may be replaced when recursive bindings are expanded. -/
def recursionSites : Expandables :=
  ⟨[bindingTemplate, recursionTemplate, unsetTemplate, assignmentTemplate],
    [recursionParts.map Prod.fst], []⟩

/-- What the template is replaced by is evaluated in the scope of a call of the transformer. -/
theorem does_recursionPlan {plan : Plan} {names vals : Value} (hσ : σ.Continues World.prelude)
    (hscope : σ.Binds scope ([("vars", names), ("vals", vals), ("body", v), ("bindings", list)] ++
      Prelude.names))
    (hnames : Items σ.Cell names (bindings.map fun b => .symbol ⟨b.1⟩))
    (hvals : Items σ.Cell vals (bindings.map Prod.snd)) (hbody : Items σ.Cell v body)
    (hfollows : plan.Follows σ.Prepared recursionTemplate) :
    plan.Does recursionSites scope σ fun σ' v =>
      ∃ x, v = .pair x ∧ σ'.RecursionForm x bindings body ∧ σ.Advances recursionSites σ' := by
  obtain ⟨first, second, third, rfl, hfirst, hsecond, hthird⟩ := follows_recursionTemplate hfollows
  -- the bindings to false
  refine (Prepared.does_mapping (fun σ row w => Items σ.Cell w (row ++ [.boolean false])) hfirst rfl
    rfl rfl (by decide) (by decide) hscope rfl (.cons rfl .nil) hnames.rows ?_
    (fun _ _ _ _ h hw => hw.mono h.cells) ?_).imp fun σ₁ w₁ h₁ hw₁ => ?_
  · intro row hrow
    obtain ⟨w, -, rfl⟩ := List.mem_map.1 hrow
    rfl
  · intro σ' inner code row h' hrow hcode hinner
    obtain ⟨site, rfl, hsite⟩ := hcode.template
    obtain ⟨w, -, rfl⟩ := List.mem_map.1 hrow
    have hinner' : σ'.Binds inner ([("var", w), ("vars", names), ("vals", vals), ("body", v),
      ("bindings", list)] ++ Prelude.names) := hinner
    exact does_unsetTemplate hsite (hσ.changes h'.toChanges) hinner' rfl rfl
      (by simp [recursionSites])
  -- the assignments
  refine (Prepared.does_mapping (fun σ row w => Items σ.Cell w (.symbol ⟨"set!"⟩ :: row))
    (Prepared.advances (v := second) hsecond h₁) rfl rfl rfl (by decide) (by decide)
    (hscope.changes h₁.toChanges) rfl (.cons rfl (.cons rfl .nil))
    (Items.rows_pairs (hnames.mono h₁.cells) (hvals.mono h₁.cells)) ?_
    (fun _ _ _ _ h hw => hw.mono h.cells) ?_).imp fun σ₂ w₂ h₂ hw₂ => ?_
  · intro row hrow
    obtain ⟨w, -, rfl⟩ := List.mem_map.1 hrow
    rfl
  · intro σ' inner code row h' hrow hcode hinner
    obtain ⟨site, rfl, hsite⟩ := hcode.template
    obtain ⟨b, -, rfl⟩ := List.mem_map.1 hrow
    have hinner' : σ'.Binds inner ([("var", .symbol ⟨b.1⟩), ("val", b.2), ("vars", names),
      ("vals", vals), ("body", v), ("bindings", list)] ++ Prelude.names) := hinner
    exact does_assignmentTemplate hsite (hσ.changes (h₁.trans h').toChanges) hinner' rfl rfl rfl
      (by simp [recursionSites])
  obtain rfl := hthird
  have h₁₂ := h₁.trans h₂
  refine does_variable (hscope.changes h₁₂.toChanges) rfl ?_
  obtain ⟨items, hitems, hunset⟩ := hw₁
  obtain ⟨assignments, hassignments, hassigned⟩ := hw₂
  refine ⟨assignments, hassignments, fun σ₃ w₃ hle₃ hw₃ σ₄ r hle₄ hr σ₅ x hle₅ hx => ?_⟩
  have hle := (hle₃.trans hle₄).trans hle₅
  refine ⟨x, rfl, ⟨assignments, ⟨r, w₁, w₃, hx, hle₅.cells _ _ hr, ?_, ?_⟩, ?_⟩,
    h₁₂.trans (hle.advances _)⟩
  · refine ⟨items, (hitems.mono h₂.cells).mono hle.cells, ?_⟩
    simp only [List.map_map, List.forall₂_map_left_iff, List.forall₂_map_right_iff] at hunset ⊢
    exact hunset.flip.imp fun _ _ hw => (hw.mono h₂.cells).mono hle.cells
  · exact (hw₃ body (hbody.mono h₁₂.cells)).mono (hle₄.trans hle₅).cells
  · simp only [List.forall₂_map_left_iff, List.forall₂_map_right_iff] at hassigned ⊢
    exact hassigned.flip.imp fun _ _ hw => hw.mono hle.cells

theorem prepared_recursionTemplate {plan : Plan}
    (h : plan.Follows (LaidOut σ.Lies) recursionTemplate) :
    plan.Follows σ.Prepared recursionTemplate := by
  obtain ⟨first, second, third, rfl, hfirst, hsecond, hthird⟩ := follows_recursionTemplate h
  exact ⟨_, _, rfl, rfl, _, _, rfl, ⟨_, rfl, prepared_of_lies rfl hfirst⟩, _, _, rfl,
    prepared_of_lies rfl hsecond, _, rfl, hthird⟩

/-- The template is evaluated, and has been replaced after that. -/
theorem does_recursionTemplate {names vals : Value} (hσ : σ.Continues World.prelude)
    (hsite : σ.Templated σ.Prepared site recursionTemplate)
    (hscope : σ.Binds scope ([("vars", names), ("vals", vals), ("body", v), ("bindings", list)] ++
      Prelude.names))
    (hnames : Items σ.Cell names (bindings.map fun b => .symbol ⟨b.1⟩))
    (hvals : Items σ.Cell vals (bindings.map Prod.snd)) (hbody : Items σ.Cell v body) :
    σ.Does recursionSites (.pair site) scope fun σ' v => ∃ x, v = .pair x ∧
      σ'.RecursionForm x bindings body ∧ σ'.Replaces σ'.Prepared site recursionTemplate := by
  have hplans : ∀ σ' plan, σ.Advances recursionSites σ' → (∀ e, plan ≠ .hole (.pair e)) →
      σ'.Expansion (.pair site) plan → plan.Follows σ'.Prepared recursionTemplate →
      plan.Does recursionSites scope σ' fun σ' v => ∃ x, v = .pair x ∧
        σ'.RecursionForm x bindings body ∧ σ'.Replaces σ'.Prepared site recursionTemplate := by
    intro σ' plan h' hplan hexpansion hfollows
    refine (does_recursionPlan (hσ.changes h'.toChanges) (hscope.changes h'.toChanges)
      (hnames.mono h'.cells) (hvals.mono h'.cells) (hbody.mono h'.cells) hfollows).imp ?_
    rintro σ'' _ ⟨x, rfl, hx, h''⟩
    have hreplaces : σ'.Replaces σ'.Prepared site recursionTemplate :=
      ⟨plan, hplan, hexpansion, hfollows⟩
    exact ⟨x, rfl, hx, hreplaces.changes h''.toChanges fun e d he => Prepared.advances he h''⟩
  exact hsite.does isTemplate_recursion hσ (hscope.seesTemplates rfl) (by simp [recursionSites])
    (fun plan hplan hexpansion => hplans σ plan (.refl _ σ) hplan hexpansion)
    fun σ' plan h' hplan hexpansion hfollows =>
      hplans σ' plan h' hplan hexpansion (prepared_recursionTemplate hfollows)

/-! ## The transformer -/

/-- The closure for recursive bindings. -/
def IsRecursion (σ : Moment) : Prop :=
  ∃ site name vars vals inner, σ.heap.closures[5]? =
      some ⟨⟨[⟨"bindings"⟩], some ⟨"body"⟩⟩, .pair site, .global, name⟩ ∧
    σ.Bound site [("vars", vars), ("vals", vals)] [.pair inner] ∧
    LaidOut σ.Cell vars (.mapping (.name "first") ["bindings"]) ∧
    LaidOut σ.Cell vals (.mapping (.name "second") ["bindings"]) ∧
    σ.Templated σ.Prepared inner recursionTemplate

theorem IsRecursion.advances (h : σ.IsRecursion) (h' : σ.Advances may σ')
    (hnames : ["vars", "vals"] ∉ may.bindings)
    (htemplates : ∀ t ∈ may.templates, ¬ t.Has recursionTemplate.template) : σ'.IsRecursion := by
  obtain ⟨site, name, vars, vals, inner, hclosure, hbound, hvars, hvals, htemplate⟩ := h
  exact ⟨site, name, vars, vals, inner, h'.closures _ _ hclosure, hbound.advances h' hnames,
    hvars.mono h'.cells, hvals.mono h'.cells,
    htemplate.advances h' (fun _ _ he => Prepared.advances he h') htemplates⟩

theorem not_has_recursionTemplate : ¬ bindingTemplate.Has recursionTemplate.template := by
  simp [Datum.Has, recursionTemplate, bindingTemplate, unsetTemplate, assignmentTemplate,
    Datum.template, Datum.form, Datum.list, Datum.listStar, Datum.name, Datum.mapping,
    Datum.procedure, Datum.unquoted]

/-- The body of the transformer after its local bindings have been replaced. -/
theorem does_recursionCall {vars vals forms : Value} {inner : Ref .pair}
    (h : σ.Abstracted site [("vars", vars), ("vals", vals)] [.pair inner])
    (hσ : σ.Continues World.prelude)
    (hscope : σ.Binds scope ([("body", forms), ("bindings", list)] ++ Prelude.names))
    (hvars : LaidOut σ.Cell vars (.mapping (.name "first") ["bindings"]))
    (hvals : LaidOut σ.Cell vals (.mapping (.name "second") ["bindings"]))
    (htemplate : σ.Templated σ.Prepared inner recursionTemplate)
    (hlist : Table σ.Cell list (bindings.map Binding.row)) (hforms : Items σ.Cell forms body) :
    σ.Does recursionSites (.pair site) scope fun σ' v => ∃ x, v = .pair x ∧
      σ'.RecursionForm x bindings body ∧ σ'.Replaces σ'.Prepared inner recursionTemplate := by
  refine h.does hscope (by simp) fun σ₁ hle₁ => ?_
  obtain ⟨items, hitems, hlook⟩ := exists_names (hlist.mono hle₁.cells)
  refine (Evals.mapping rfl rfl rfl rfl hitems hlook).does_le
    ((hσ.changes hle₁.changes).sees (hscope.mono hle₁) rfl) ((hvars.mono hle₁.cells).code rfl)
    |>.imp fun σ₂ names _ ⟨hle₂, hnames⟩ => ?_
  have hle₁₂ := hle₁.trans hle₂
  obtain ⟨items', hitems', hlook'⟩ := exists_values (hlist.mono hle₁₂.cells)
  refine (Evals.mapping rfl rfl rfl rfl hitems' hlook').does_le
    ((hσ.changes hle₁₂.changes).sees (hscope.mono hle₁₂) rfl) ((hvals.mono hle₁₂.cells).code rfl)
    |>.imp fun σ₃ values _ ⟨hle₃, hvalues⟩ σ₄ scope' hle₄ hscope₄ => ?_
  have hle₃₄ := hle₃.trans hle₄
  have h₄ := (hle₁₂.trans hle₃₄).advances ⟨[], [], []⟩
  have hscope₄' : σ₄.Binds scope' ([("vars", names), ("vals", values), ("body", forms),
    ("bindings", list)] ++ Prelude.names) := hscope₄
  exact does_recursionTemplate (hσ.changes h₄.toChanges)
    (htemplate.advances h₄ (fun _ _ he => Prepared.advances he h₄) (by simp)) hscope₄'
    (hnames.mono hle₃₄.cells) (hvalues.mono hle₄.cells) (hforms.mono h₄.cells)

theorem transforms_recursion (hσ : σ.Continues World.prelude) (hb : σ.IsBinder)
    (hc : σ.IsRecursion) (hlist : Table σ.Cell list (bindings.map Binding.row)) (body : List Value) :
    σ.Transforms recursionSites ⟨5⟩ (list :: body) fun σ' x =>
      σ'.RecursionForm x bindings body ∧ σ'.IsRecursion := by
  obtain ⟨site, name, vars, vals, inner, hclosure, hbound, hvars, hvals, htemplate⟩ := hc
  refine Transforms.of_does ["bindings"] [list] body hσ hclosure rfl (by decide)
    fun σ₁ scope forms hle hforms hscope => ?_
  have h₁ := hle.advances ⟨[], [], []⟩
  have hscope₁ : σ₁.Binds scope ([("body", forms), ("bindings", list)] ++ Prelude.names) := hscope
  obtain ⟨owner, howner⟩ := hscope₁.names "let" _ rfl
  refine (hbound.advances h₁ (List.not_mem_nil)).does (hσ.changes h₁.toChanges) (hb.advances h₁)
    howner (by simp [recursionSites]) (by simp [recursionSites, recursionParts])
    fun σ₂ h₂ habstracted => ?_
  have h₁₂ : σ.Changes σ₂ := h₁.toChanges.trans h₂.toChanges
  have hcall := (htemplate.advances h₁ (fun _ _ he => Prepared.advances he h₁) (by simp)).advances
    h₂ (fun _ _ he => Prepared.advances he h₂)
    (by simpa [callSites] using not_has_recursionTemplate)
  refine (does_recursionCall habstracted (hσ.changes h₁₂) (hscope₁.changes h₂.toChanges)
    (hvars.mono h₁₂.cells) (hvals.mono h₁₂.cells) hcall (hlist.mono h₁₂.cells)
    (hforms.mono h₂.cells)).imp ?_
  rintro σ₃ _ h₃ ⟨x, rfl, hx, hreplaces⟩
  have h₁₃ := h₁₂.trans h₃.toChanges
  exact ⟨x, rfl, hx, site, name, vars, vals, inner, h₁₃.closures _ _ hclosure,
    Or.inr (habstracted.mono h₃.cells), hvars.mono h₁₃.cells, hvals.mono h₁₃.cells,
    Or.inr hreplaces⟩

end Moment

end Scheme
