import Scheme.Proofs.NewInterpreters
import Scheme.Proofs.SelfCalls
/-!
# Local bindings with a name of their own

Local bindings that begin with a name stand for a procedure of that name and a call of it. They are
replaced by local bindings of the name to false around an assignment and the call, and those by a
call of an abstraction.
-/

namespace Scheme

open Evaluator Attempt
open Step (Finishes)

/-! ## What they expand to -/

theorem isTemplate_named : namedTemplate.IsTemplate where
  sketch := by decide
  pair := ⟨_, _, rfl, rfl⟩
  proper _ _ := rfl
  size h v := by
    have hsize : (h.template v namedTemplate).size = 31 := by cbv
    omega

theorem follows_namedTemplate {code : Value → Datum → Prop} {plan : Plan}
    (h : plan.Follows code namedTemplate) : ∃ name₁ name₂ names body name₃ vals,
      plan = .pair (.atom (.symbol ⟨"let"⟩)) (.pair
        (.pair (.pair (.hole name₁) (.pair (.atom (.boolean false)) (.atom .nil))) (.atom .nil))
        (.pair (.pair (.atom (.symbol ⟨"set!"⟩)) (.pair (.hole name₂) (.pair
            (.pair (.atom (.symbol ⟨"lambda"⟩)) (.pair (.hole names) (.hole body))) (.atom .nil))))
          (.pair (.pair (.hole name₃) (.hole vals)) (.atom .nil)))) ∧
      code name₁ (.name "name") ∧ code name₂ (.name "name") ∧
      code names (.mapping (.name "first") ["bindings"]) ∧ code body (.name "body") ∧
      code name₃ (.name "name") ∧ code vals (.mapping (.name "second") ["bindings"]) := by
  obtain ⟨_, _, rfl, rfl, _, _, rfl, hbinding, _, _, rfl, hassignment, _, _, rfl, hcall, rfl⟩ := h
  obtain ⟨_, _, rfl, ⟨_, _, rfl, ⟨name₁, rfl, h₁⟩, _, _, rfl, rfl, rfl⟩, rfl⟩ := hbinding
  obtain ⟨_, _, rfl, rfl, _, _, rfl, ⟨name₂, rfl, h₂⟩, _, _, rfl, hprocedure, rfl⟩ := hassignment
  obtain ⟨_, _, rfl, rfl, _, _, rfl, ⟨names, rfl, hnames⟩, body, rfl, hbody⟩ := hprocedure
  obtain ⟨_, _, rfl, ⟨name₃, rfl, h₃⟩, vals, rfl, hvals⟩ := hcall
  exact ⟨name₁, name₂, names, body, name₃, vals, rfl, h₁, h₂, hnames, hbody, h₃, hvals⟩

namespace Moment

variable {σ σ' σ₁ : Moment} {may : Expandables} {scope owner : Ref .scope} {r site x : Ref .pair}
  {v list forms : Value} {f : String} {locals : Environment} {bindings : List (String × Value)}
  {body : List Value} {p q : Pair}

/-- A binding of the name to false around an assignment of a procedure and a call of it, with the
expressions of the bindings for its operands. -/
def NamedForm (σ : Moment) (x : Ref .pair) (f : String) (bindings : List (String × Value))
    (body : List Value) : Prop :=
  ∃ assignment procedure call forms rest,
    σ.LetForm x [(f, .boolean false)] [.pair assignment, .pair call] ∧
    Items σ.Cell (.pair assignment) [.symbol ⟨"set!"⟩, .symbol ⟨f⟩, .pair procedure] ∧
    IsAbstraction σ.Cell procedure (bindings.map Prod.fst) forms ∧ Items σ.Cell forms body ∧
    σ.Cell call ⟨.symbol ⟨f⟩, rest⟩ ∧ Items σ.Cell rest (bindings.map Prod.snd)

/-- The template is evaluated in the scope of a call of the procedure for such bindings. -/
theorem does_namedTemplate (hsite : σ.Flat site namedTemplate) (hσ : σ.Continues World.prelude)
    (hscope : σ.Binds scope (locals ++ Prelude.names))
    (hshows : Prelude.shows (locals.map Prod.fst) = true)
    (hnames : ∀ name ∈ ["map", "first", "second"], locals.lookup name = none)
    (hname : locals.lookup "name" = some (.symbol ⟨f⟩))
    (hlist : locals.lookup "bindings" = some list) (hforms : locals.lookup "body" = some forms)
    (hbindings : Table σ.Cell list (bindings.map Binding.row)) (hbody : Items σ.Cell forms body)
    (hmay : namedTemplate ∈ may.templates) :
    σ.Does may (.pair site) scope fun σ' v => ∃ x, v = .pair x ∧ σ'.NamedForm x f bindings body := by
  have hglobal : ∀ name ∈ ["map", "first", "second"],
      (locals ++ Prelude.names).lookup name = Prelude.names.lookup name := fun name hname => by
    rw [List.lookup_append, hnames name hname, Option.none_or]
  have hlocal : ∀ {name : String} {v : Value}, locals.lookup name = some v →
      (locals ++ Prelude.names).lookup name = some v := fun hv => by
    rw [List.lookup_append, hv, Option.some_or]
  refine hsite.does isTemplate_named rfl hσ (hscope.seesTemplates hshows) hmay
    fun σ₁ plan h₁ hfollows => ?_
  obtain ⟨name₁, name₂, names, b, name₃, vals, rfl, rfl, rfl, hnames', rfl, rfl, hvals⟩ :=
    follows_namedTemplate hfollows
  have hsees : ∀ {σ' : Moment}, σ.Advances may σ' → σ'.Sees scope (locals ++ Prelude.names) :=
    fun h => (hσ.changes h.toChanges).sees (hscope.changes h.toChanges) hshows
  -- the binding of the name to false
  refine does_variable (hscope.changes h₁.toChanges) (hlocal hname) ?_
  intro σ₂ r₁ hle₂ hr₁ σ₃ r₂ hle₃ hr₂ σ₄ r₃ hle₄ hr₃
  have h₄ := h₁.trans (((hle₂.trans hle₃).trans hle₄).advances may)
  -- the assignment of the procedure
  refine does_variable (hscope.changes h₄.toChanges) (hlocal hname) ?_
  obtain ⟨items, hitems, hlook⟩ := exists_names (hbindings.mono h₄.cells)
  refine (Evals.mapping rfl (hglobal _ (by decide)) (hglobal _ (by decide)) (hlocal hlist) hitems
    hlook).does (hsees h₄) ((hnames'.mono ((hle₂.trans hle₃).trans hle₄).cells).code rfl) |>.imp
    fun σ₅ v₁ h₅ hv₁ => ?_
  have h₁₅ := h₄.trans h₅
  refine does_variable (hscope.changes h₁₅.toChanges) (hlocal hforms) ?_
  intro σ₆ r₄ hle₆ hr₄ σ₇ r₅ hle₇ hr₅ σ₈ r₆ hle₈ hr₆ σ₉ r₇ hle₉ hr₇ σ₁₀ r₈ hle₁₀ hr₈
  have h₅₁₀ := ((((hle₆.trans hle₇).trans hle₈).trans hle₉).trans hle₁₀).advances may
  have h₁₀ := h₁₅.trans h₅₁₀
  -- the call
  refine does_variable (hscope.changes h₁₀.toChanges) (hlocal hname) ?_
  obtain ⟨items', hitems', hlook'⟩ := exists_values (hbindings.mono h₁₀.cells)
  have hvals' := hvals.mono ((((hle₂.trans hle₃).trans hle₄).advances may).trans
    (h₅.trans h₅₁₀)).cells
  refine (Evals.mapping rfl (hglobal _ (by decide)) (hglobal _ (by decide)) (hlocal hlist) hitems'
    hlook').does (hsees h₁₀) (hvals'.code rfl) |>.imp fun σ₁₁ v₂ h₁₁ hv₂ => ?_
  intro σ₁₂ r₉ hle₁₂ hr₉ σ₁₃ r₁₀ hle₁₃ hr₁₀ σ₁₄ r₁₁ hle₁₄ hr₁₁ σ₁₅ r₁₂ hle₁₅ hr₁₂ σ₁₆ x hle₁₆ hx
  -- all of it is still there at the end
  have hle := (((hle₁₃.trans hle₁₄).trans hle₁₅).trans hle₁₆)
  have h₁₀₁₆ := h₁₁.trans ((hle₁₂.trans hle).advances may)
  have h₈₁₆ := (((hle₈.trans hle₉).trans hle₁₀).advances may).trans h₁₀₁₆
  have h₆₁₆ := (hle₇.advances may).trans h₈₁₆
  have h₄₁₆ := h₅.trans ((hle₆.advances may).trans h₆₁₆)
  have h₃₁₆ := (hle₄.advances may).trans h₄₁₆
  have h₂₁₆ := (hle₃.advances may).trans h₃₁₆
  have hforms₁₆ := hbody.mono (h₄.trans h₄₁₆).cells
  refine ⟨x, rfl, r₈, r₅, r₉, forms, v₂, ⟨r₁₂, .pair r₃, .pair r₁₁, hx, hle₁₆.cells _ _ hr₁₂, ?_, ?_⟩,
    ?_, ⟨r₄, v₁, h₈₁₆.cells _ _ hr₅, h₆₁₆.cells _ _ hr₄, ?_⟩, hforms₁₆,
    hle.cells _ _ hr₉, hv₂.mono (hle₁₂.trans hle).cells⟩
  · exact ⟨[.pair r₂], .cons (h₄₁₆.cells _ _ hr₃) .nil,
      .cons (.cons (h₃₁₆.cells _ _ hr₂) (.cons (h₂₁₆.cells _ _ hr₁) .nil)) .nil⟩
  · exact .cons ((hle₁₅.trans hle₁₆).cells _ _ hr₁₁)
      (.cons (((hle₁₄.trans hle₁₅).trans hle₁₆).cells _ _ hr₁₀) .nil)
  · exact .cons (h₁₀₁₆.cells _ _ hr₈) (.cons (h₁₀₁₆.cells _ _ (hle₁₀.cells _ _ hr₇))
      (.cons (h₁₀₁₆.cells _ _ ((hle₉.trans hle₁₀).cells _ _ hr₆)) .nil))
  · have hnames₁₆ := hv₁.mono ((hle₆.advances may).trans h₆₁₆).cells
    rwa [List.map_map]

/-- What may be replaced when local bindings with a name of their own are expanded. -/
def namedSites : Expandables :=
  ⟨[namedTemplate], [], []⟩

/-- A call of the transformer whose first operand is a name. -/
theorem transforms_named (hσ : σ.Continues World.prelude) (hc : σ.IsBinder) (f : String)
    (hlist : Table σ.Cell list (bindings.map Binding.row)) (body : List Value) :
    σ.Transforms namedSites ⟨3⟩ (.symbol ⟨f⟩ :: list :: body) fun σ' x =>
      σ'.NamedForm x f bindings body := by
  refine transforms_branch hσ hc (.symbol ⟨f⟩) (list :: body) fun σ₁ inner c operands branch named
    hle hencloses hnamed hoperands hbinds hbranch => ?_
  have hσ₁ := hσ.changes (hle.advances namedSites).toChanges
  have hsees := hσ₁.sees hbinds rfl
  obtain ⟨b, arms, ys, rfl, hb, hys, hall⟩ := CodeWith.form rfl hbranch
  simp only [List.forall₂_cons_right_iff, List.forall₂_nil_right_iff] at hall
  obtain ⟨test, _, htest, ⟨call, _, hcall, ⟨template, _, -, rfl, rfl⟩, rfl⟩, rfl⟩ := hall
  refine Does.branch hb hys (Evals.does (Evals.looks (v := .boolean true) rfl ?_) hsees
    (htest.code rfl rfl))
  -- the procedure is called on the name, the bindings and the forms
  obtain ⟨r, rest, zs, rfl, hr, hzs, hall⟩ := CodeWith.form rfl hcall
  simp only [List.forall₂_cons_right_iff, List.forall₂_nil_right_iff] at hall
  obtain ⟨name, _, hname, ⟨first, _, hfirst, ⟨others, _, hothers, rfl, rfl⟩, rfl⟩, rfl⟩ := hall
  obtain rfl := hname
  obtain ⟨owner, howner⟩ := hbinds.names "named-let" (.closure c) rfl
  cases hoperands with
  | @cons o _ forms _ ho hforms =>
  have hvalue : Datum.value? (binderNames c (.pair o) (.symbol ⟨f⟩) ++ Prelude.names) σ₁.heap
      (.form "first" [.name "body"]) = some list := congrArg some ho.first_eq
  have hvalue' : Datum.value? (binderNames c (.pair o) (.symbol ⟨f⟩) ++ Prelude.names) σ₁.heap
      (.form "rest" [.name "body"]) = some forms := congrArg some ho.rest_eq
  refine Does.call hr rfl howner rfl hzs (does_variable hbinds rfl ?_)
  refine Evals.does (Evals.looks hvalue ?_) hsees (hfirst.code rfl rfl)
  refine Evals.does (Evals.looks hvalue' ?_) hsees (hothers.code rfl rfl)
  refine Performs.closure hencloses hbinds rfl (by decide) fun σ₂ scope hle₂ hscope => ?_
  have hσ₂ := hσ₁.changes (hle₂.advances namedSites).toChanges
  have hscope' : σ₂.Binds scope (([("name", .symbol ⟨f⟩), ("bindings", list), ("body", forms)] ++
      binderNames c (.pair o) (.symbol ⟨f⟩)) ++ Prelude.names) := hscope
  exact does_namedTemplate ((hle₂.advances namedSites).templates _ _ hnamed.1 hnamed.2) hσ₂ hscope'
    rfl (by simp [binderNames]) rfl rfl rfl (hlist.mono (hle.trans hle₂).cells)
    (hforms.mono hle₂.cells) (List.mem_singleton_self _)

/-- The call of local bindings with a name of their own, as it was written. -/
structure NamedCall (σ : Moment) (site : Ref .pair) (f : String) (bindings : List (String × Value))
    (body : List Value) : Prop where
  awaits : σ.sites site
  form : ∃ operands list, σ.heap.pairs[site.index]? = some ⟨.symbol ⟨"let"⟩, operands⟩ ∧
    Items σ.Cell operands (.symbol ⟨f⟩ :: list :: body) ∧
    Table σ.Cell list (bindings.map Binding.row)

/-! ## Replacing a call by another one -/

/-- A pair that is to be replaced is another call after that, which is to be replaced in turn. -/
structure Rewritten (σ σ' : Moment) (site : Ref .pair) (q : Pair) : Prop where
  world : ∃ entries, σ'.world = { σ.world with heap := σ.heap.setPair site q, log := entries }
  known : σ'.known = σ.known
  sites : σ'.sites = σ.sites

theorem exists_rewritten (σ : Moment) (site : Ref .pair) (q : Pair) (entries : Array Entry) :
    ∃ σ', σ.Rewritten σ' site q ∧
      σ'.world = { σ.world with heap := σ.heap.setPair site q, log := entries } := by
  refine ⟨⟨_, σ.known, σ.sites, σ.apart, fun r hr => ?_⟩, ⟨⟨entries, rfl⟩, rfl, rfl⟩, rfl⟩
  have hlt := σ.bounds r hr
  simpa [Heap.setPair, Moment.heap] using hlt

namespace Rewritten

variable (h : σ.Rewritten σ' site q) (hsite : σ.sites site)

include h

theorem pair_ne (hne : r ≠ site) (hp : σ.heap.pairs[r.index]? = some p) :
    σ'.heap.pairs[r.index]? = some p := by
  obtain ⟨entries, hworld⟩ := h.world
  have hheap : σ'.heap = σ.heap.setPair site q := congrArg World.heap hworld
  have hindex : site.index ≠ r.index := fun heq => hne (by cases r; cases site; cases heq; rfl)
  rw [hheap, Heap.setPair, Array.getElem?_setIfInBounds_ne hindex, hp]

include hsite

theorem pair_site : σ'.heap.pairs[site.index]? = some q := by
  obtain ⟨entries, hworld⟩ := h.world
  have hheap : σ'.heap = σ.heap.setPair site q := congrArg World.heap hworld
  rw [hheap]
  exact Array.getElem?_setIfInBounds_self_of_lt (σ.bounds site (Or.inr hsite))

theorem cells : ∀ r p, σ.Cell r p → σ'.Cell r p := by
  refine fun r p hr => ⟨h.known ▸ hr.1, h.pair_ne ?_ hr.2⟩
  rintro rfl
  exact σ.apart _ hsite hr.1

theorem stills : ∀ r p, σ.Still r p → σ'.Still r p := by
  refine fun r p hr => ⟨h.sites ▸ hr.1, h.pair_ne ?_ hr.2⟩
  rintro rfl
  exact hr.1 hsite

/-- Conjunctions stay, if the call is none. -/
theorem changes (hp : σ.heap.pairs[site.index]? = some p) (hhead : p.first ≠ .symbol ⟨"and"⟩) :
    σ.Changes σ' := by
  obtain ⟨entries, hworld⟩ := h.world
  have hheap : σ'.heap = σ.heap.setPair site q := congrArg World.heap hworld
  have hcells := h.cells hsite
  refine ⟨?_, hcells, h.stills hsite, fun v xs hv => ?_, ?_, ?_, ?_, ?_, ?_, ?_, ?_⟩
  · simp [hheap, Heap.setPair]
  · induction hv with
    | @site r _ _ hr hitems =>
        refine .site ⟨h.sites ▸ hr.1, h.pair_ne ?_ hr.2⟩ (hitems.mono hcells)
        rintro rfl
        cases Option.some.inj (hp.symm.trans hr.2)
        exact hhead rfl
    | last hcell hx => exact .last (hcells _ _ hcell) (hcells _ _ hx)
    | branch hcell hitems _ ih => exact .branch (hcells _ _ hcell) (hitems.mono hcells) ih
  · rw [h.known, h.sites]
    exact fun r hr => hr.imp_right Or.inl
  all_goals simp [hheap, hworld, Heap.setPair]

/-- All else stays, if the call is no template either. -/
theorem advances {head : String} (hp : σ.heap.pairs[site.index]? = some p)
    (hhead : p.first = .symbol ⟨head⟩) (hand : head ≠ "and") (hquasiquote : head ≠ "quasiquote")
    (hmay : head ∈ may.forms) (hcall : ∀ bindings body, ¬ σ.LetCall site bindings body) :
    σ.Advances may σ' := by
  have hcells := h.cells hsite
  have hne : ∀ {r : Ref .pair} {p' : Pair}, σ.heap.pairs[r.index]? = some p' →
      p'.first ≠ .symbol ⟨head⟩ → r ≠ site := by
    rintro r p' hp' hother rfl
    cases Option.some.inj (hp.symm.trans hp')
    exact hother hhead
  have hquasiquote' : Value.symbol .quasiquote ≠ .symbol ⟨head⟩ := by
    simpa [Symbol.quasiquote] using Ne.symm hquasiquote
  have hlies : ∀ r p', σ.Lies r p' → σ'.Lies r p' := by
    intro r p' hr
    by_cases htemplate : p'.first = .symbol .quasiquote
    · unfold Lies
      rw [if_pos htemplate, h.sites]
      exact ⟨hr.site htemplate, h.pair_ne (hne hr.getElem? (by rwa [htemplate])) hr.getElem?⟩
    · exact (hcells r p' (hr.cell htemplate)).lies htemplate
  refine ⟨h.changes hsite hp (by simpa [hhead] using hand), ?_, ?_, ?_, ?_⟩
  · intro r p' hr hp' _ _ _ hforms
    rw [h.sites]
    exact ⟨hr, h.pair_ne (hne hp' (hforms head hmay)) hp'⟩
  · exact fun r d hr _ => LaidOut.mono hlies hr
  · intro r d _ hr
    refine hr.imp (LaidOut.mono hlies) ?_
    rintro ⟨plan, hplan, ⟨part, hskeleton, hcovers⟩, hfollows⟩
    exact ⟨plan, hplan, ⟨part, hskeleton.mono hcells (h.stills hsite), hcovers.mono hcells⟩,
      hfollows.mono fun _ _ he => he.mono hcells⟩
  · intro r bindings body _ hr
    refine hr.of_pair hcells fun p' hr' hp' _ => ?_
    rw [h.sites]
    refine ⟨hr', h.pair_ne ?_ hp'⟩
    rintro rfl
    exact hcall bindings body hr

/-- Local bindings that a call has been replaced by are to be replaced in turn. -/
theorem letCall (hx : σ.LetForm x bindings body) (hq : q = σ.world.heap.pair x) :
    σ'.LetCall site bindings body := by
  obtain ⟨operands, list, forms, hform, hoperands, hlist, hforms⟩ := hx
  have hcells := h.cells hsite
  refine ⟨h.sites ▸ hsite, operands, list, forms, ?_, hcells _ _ hoperands, hlist.mono hcells,
    hforms.mono hcells⟩
  rw [h.pair_site hsite, hq, hform.eq]

end Rewritten

end Moment

/-- A call of a transformer goes on with what its code answers, in the place of the call. -/
theorem Focus.exists_tail {w w₁ w₂ : World} {site : Ref .pair} {s : Symbol} {operands v : Value}
    {es : List Value} {c : Ref .closure} {scope owner inner : Ref .scope}
    (hcell : w.heap.pair site = ⟨.symbol s, operands⟩) (hs : SpecialForm.ofSymbol? s = none)
    (hname : w.heap.locate? s scope = some (owner, .transformer c))
    (helements : World.elements operands w = .value es w)
    (henter : w.enter (w.heap.closure c).parameters es (w.heap.closure c).scope = (inner, w₁))
    (hbody : Yields (w.heap.closure c).body inner w₁ v w₂) :
    ∃ least, ∀ k, least ≤ k → Focus.Tail k ⟨.pair site, scope, w⟩
      ⟨.pair site, scope, spliced site c v w₂⟩ := by
  have hhead : Yields (.symbol s) scope w (.transformer c) w := .variable hname
  obtain ⟨least, hhead⟩ := hhead.evaluatesWithin
  obtain ⟨least', hbody⟩ := hbody.evaluatesWithin
  refine ⟨max least least', fun k hk => ?_⟩
  have hhead' : EvaluatesWithin k (w.heap.pair site).first scope w (.transformer c) w := by
    rw [hcell]
    exact hhead k (by omega)
  have helements' : World.elements (w.heap.pair site).rest w = .value es w := by rwa [hcell]
  exact .expansion (by simp [Pair.isSpecial, hcell, hs]) hhead' helements' henter
    (hbody k (by omega))

theorem Knot.mono {cell cell' : Ref .pair → Pair → Prop} (hcells : ∀ r p, cell r p → cell' r p)
    {site call : Ref .pair} {f : String} {names : List String} {forms rest : Value}
    (h : Knot cell site f names forms call rest) : Knot cell' site f names forms call rest := by
  obtain ⟨head, operands, body, assignment, procedure, hsite, hoperands, hhead, hbody, hassignment,
    hprocedure, hcall⟩ := h
  exact ⟨head, operands, body, assignment, procedure, hcells _ _ hsite, hoperands.mono hcells,
    hhead.mono hcells, hbody.mono hcells, hassignment.mono hcells, hprocedure.mono hcells,
    hcells _ _ hcall⟩

namespace Moment

variable {σ σ' σ₁ : Moment} {may : Expandables} {scope owner : Ref .scope}
  {r site call assignment procedure : Ref .pair} {v list forms rest : Value} {f : String}
  {names : List String} {bindings : List (String × Value)} {body : List Value} {p q : Pair}

/-- The call is replaced by what the code of the transformer answers, and awaits what comes next. -/
theorem Transforms.exists_rewritten {head : String} {operands : Value} {es : List Value}
    {c : Ref .closure} {post : Moment → Ref .pair → Prop} (h : σ.Transforms may c es post)
    (hawaits : σ.sites site) (hcell : σ.heap.pairs[site.index]? = some ⟨.symbol ⟨head⟩, operands⟩)
    (hs : SpecialForm.ofSymbol? ⟨head⟩ = none)
    (hname : σ.heap.locate? ⟨head⟩ scope = some (owner, .transformer c))
    (hitems : Items σ.Cell operands es) (hplain : head ∉ "and" :: "quasiquote" :: may.forms)
    (hnamed : head = "let" → σ.IsNamed ⟨.symbol ⟨head⟩, operands⟩) :
    ∃ σ₁ x σ₂, σ.Advances may σ₁ ∧ post σ₁ x ∧ σ₁.sites site ∧
      σ₁.Rewritten σ₂ site (σ₁.world.heap.pair x) ∧ σ₁.Advances ⟨[], [], [head]⟩ σ₂ ∧
      ∃ least, ∀ k, least ≤ k →
        Focus.Tail k ⟨.pair site, scope, σ.world⟩ ⟨.pair site, scope, σ₂.world⟩ := by
  simp only [List.mem_cons, not_or] at hplain
  obtain ⟨hand, hquasiquote, hmay⟩ := hplain
  obtain ⟨inner, w₁, σ₁, x, henter, hyields, hadvances, hx⟩ := h
  obtain ⟨entries, hspliced⟩ := spliced_pair site c x σ₁.world
  obtain ⟨σ₂, hrewritten, hworld⟩ := σ₁.exists_rewritten site (σ₁.world.heap.pair x) entries
  obtain ⟨hawaits₁, hsite₁⟩ := hadvances.waiting site _ hawaits hcell (by simpa using hand)
    (by simpa [Symbol.quasiquote] using hquasiquote)
    (fun heq => hnamed (by simpa using heq)) fun name hname heq => hmay (by simp_all)
  -- the call is not one of local bindings that could be replaced by a call of an abstraction
  have hnot : ∀ bindings body, ¬ σ₁.LetCall site bindings body := by
    intro bindings body hcall
    obtain ⟨operands', _, _, hlet, -⟩ := hcall.form
    cases Option.some.inj (hsite₁.symm.trans hlet)
    exact hcall.not_isNamed hsite₁ ((hnamed rfl).mono hadvances.cells)
  refine ⟨σ₁, x, σ₂, hadvances, hx, hawaits₁, hrewritten, hrewritten.advances hawaits₁ hsite₁ rfl hand
    hquasiquote (List.mem_singleton_self _) hnot, ?_⟩
  rw [hworld.trans hspliced.symm]
  exact Focus.exists_tail (Heap.pair_eq_of_getElem? hcell) hs hname
    (World.elements_eq (hitems.mono fun _ _ hr => hr.2)) henter hyields

/-- Local bindings of a name around an assignment of a procedure and a call of it. -/
theorem LetCall.exists_knot
    (h : σ.LetCall site [(f, .boolean false)] [.pair assignment, .pair call])
    (hassignment : Items σ.Cell (.pair assignment) [.symbol ⟨"set!"⟩, .symbol ⟨f⟩, .pair procedure])
    (hprocedure : IsAbstraction σ.Cell procedure names forms)
    (hcall : σ.Cell call ⟨.symbol ⟨f⟩, rest⟩) (hσ : σ.Continues World.prelude) (hc : σ.IsBinder)
    (hlet : σ.heap.locate? ⟨"let"⟩ scope = some (owner, .transformer ⟨3⟩)) :
    ∃ σ', σ.Changes σ' ∧ Knot σ'.Cell site f names forms call rest ∧ ∃ least, ∀ k, least ≤ k →
      Focus.Tail k ⟨.pair site, scope, σ.world⟩ ⟨.pair site, scope, σ'.world⟩ := by
  obtain ⟨operands, es, inner, w₁, x, hsite, helements, henter, w₂, hyields, σ', hworld, hadvances,
    habstracted⟩ := h.exists_abstracted (callSites [f]) hσ hc (List.mem_singleton_self _)
      (List.mem_singleton_self _)
  obtain ⟨head, operands', inner', names', forms', hr, hoperands, hhead, hinner, hnames, hforms⟩ :=
    habstracted.form
  refine ⟨σ', hadvances.toChanges, ⟨head, operands', forms', assignment, procedure, hr, hoperands,
    ⟨inner', names', hhead, hinner, hnames⟩, hforms, hassignment.mono hadvances.cells,
    hprocedure.mono hadvances.cells, hadvances.cells _ _ hcall⟩, ?_⟩
  rw [hworld]
  exact Focus.exists_tail (Heap.pair_eq_of_getElem? hsite) rfl hlet helements henter hyields

theorem locate?_changes {s : Symbol} {found : Ref .scope × Value} (h : σ.Changes σ')
    (hs : σ.heap.locate? s scope = some found) : σ'.heap.locate? s scope = some found :=
  Heap.locateWithin_mono h.scopes (Nat.le_refl _) hs

/-- Local bindings with a name of their own come down to a procedure that can call itself. -/
theorem NamedCall.exists_knot (h : σ.NamedCall site f bindings body)
    (hσ : σ.Continues World.prelude) (hc : σ.IsBinder)
    (hlet : σ.heap.locate? ⟨"let"⟩ scope = some (owner, .transformer ⟨3⟩)) :
    ∃ σ' call forms rest, σ.Changes σ' ∧
      Knot σ'.Cell site f (bindings.map Prod.fst) forms call rest ∧ Items σ'.Cell forms body ∧
      Items σ'.Cell rest (bindings.map Prod.snd) ∧ ∃ least, ∀ k, least ≤ k →
        Focus.Iterates k 0 ⟨.pair site, scope, σ.world⟩ ⟨.pair site, scope, σ'.world⟩ := by
  obtain ⟨operands, list, hsite, hoperands, hlist⟩ := h.form
  have hnamed : σ.IsNamed ⟨.symbol ⟨"let"⟩, operands⟩ := by
    cases hoperands with
    | cons hr _ => exact ⟨_, _, _, rfl, hr⟩
  obtain ⟨σ₁, x, σ₂, h₁, ⟨assignment, procedure, call, forms, rest, hform, hassignment, hprocedure,
    hforms, hcall, hrest⟩, hawaits, hrewritten, h₂, least, htail⟩ :=
      (transforms_named hσ hc f hlist body).exists_rewritten h.awaits hsite rfl hlet hoperands
        (by simp [namedSites]) fun _ => hnamed
  have h₁₂ := h₁.toChanges.trans h₂.toChanges
  obtain ⟨σ₃, h₃, hknot, least', htail'⟩ := (hrewritten.letCall hawaits hform rfl).exists_knot
    (hassignment.mono h₂.cells) (hprocedure.mono h₂.cells) (h₂.cells _ _ hcall) (hσ.changes h₁₂)
    ((hc.advances h₁).advances h₂) (locate?_changes h₁₂ hlet)
  refine ⟨σ₃, call, forms, rest, h₁₂.trans h₃, hknot, (hforms.mono h₂.cells).mono h₃.cells,
    (hrest.mono h₂.cells).mono h₃.cells, max least least', fun k hk => ?_⟩
  exact .tail (htail k (by omega)) (.tail (htail' k (by omega)) (.refl _))

/-- The call of the procedure that local bindings with a name of their own come down to: in a scope
that binds the name to the procedure, around which there is the scope of the bindings. -/
structure NamedLoop (w : World) (scope : Ref .scope) (f : String) (names : List String)
    (es body : List Value) (w' : World) (inner : Ref .scope) (call : Ref .pair) (operands code : Value) :
    Prop where
  ties : ∃ c, w.Ties scope f names body w' inner c code
  call : w'.heap.HasPair call ⟨.symbol ⟨f⟩, operands⟩
  operands : w'.heap.Lists operands es

theorem NamedCall.exists_loop (h : σ.NamedCall site f bindings body)
    (hσ : σ.Continues World.prelude) (hc : σ.IsBinder)
    (hlet : σ.heap.locate? ⟨"let"⟩ scope = some (owner, .transformer ⟨3⟩)) :
    ∃ σ' w' inner call operands code, σ.Changes σ' ∧
      NamedLoop σ'.world scope f (bindings.map Prod.fst) (bindings.map Prod.snd) body w' inner call
        operands code ∧
      ∀ outcome w'', Finishes (.pair site) scope σ.world outcome w'' ↔
        Finishes (.pair call) inner w' outcome w'' := by
  obtain ⟨σ', call, forms, rest, h', hknot, hforms, hrest, least, hiterates⟩ :=
    h.exists_knot hσ hc hlet
  have hpairs : ∀ r p, σ'.Cell r p → σ'.world.heap.HasPair r p := fun _ _ hr => hr.2
  obtain ⟨w', inner, c, code, least', hties, hcall, hcalls⟩ :=
    (hknot.mono hpairs).exists_ties (hforms.mono hpairs) scope
  refine ⟨σ', w', inner, call, rest, code, h', ⟨⟨c, hties⟩, hcall,
    hrest.mono fun r p hr => hties.pairs _ _ hr.2⟩, fun outcome w'' => ?_⟩
  exact (hiterates (max least least') (by omega)).finishes_iff.trans
    (hcalls (max least least') (by omega)).finishes_iff

/-- The text of local bindings with a name of their own. -/
def namedText (f : String) (parts : List (String × Datum)) (forms : List Datum) : Datum :=
  .pair (.name "let") (.pair (.name f)
    (.pair (.list (parts.map fun p => .list [.name p.1, p.2])) (.list forms)))

/-- Such a text, when a new interpreter has read it. -/
theorem exists_named_written (host : Host) (f : String) (parts : List (String × Datum))
    (forms : List Datum) : ∃ site, ∃ bindings : List (String × Value), ∃ body,
      (World.prelude.build (namedText f parts forms)).1 = .pair site ∧
      (written host (namedText f parts forms)).NamedCall site f bindings body ∧
      List.Forall₂ (fun b p => b.1 = p.1 ∧ (written host (namedText f parts forms)).Has b.2 p.2)
        bindings parts ∧
      List.Forall₂ (written host (namedText f parts forms)).Has body forms := by
  obtain ⟨site, ⟨_, operands⟩, hsite, hawaits, hp, hhead, hrest⟩ :=
    exists_form_written host (.name "let") (.pair (.name f)
      (.pair (.list (parts.map fun p => .list [.name p.1, p.2])) (.list forms)))
  obtain rfl := hhead.1
  obtain ⟨r, ⟨_, _⟩, rfl, hr, hname, hrest⟩ := hrest.pair
  obtain rfl := hname.1
  obtain ⟨r', ⟨list, others⟩, rfl, hr', hlist, hothers⟩ := hrest.pair
  obtain ⟨bindings, htable, hparts⟩ := hlist.table
  obtain ⟨body, hbody, hforms⟩ := hothers.items _
  exact ⟨site, bindings, body, hsite, ⟨hawaits, _, list, hp, .cons hr (.cons hr' hbody), htable⟩,
    hparts, hforms⟩

/-- In a new interpreter, and wherever the code of the transformer is as it was and its name is not
hidden, local bindings with a name of their own bind the name to a procedure in a scope of its own,
around which there is the scope of the bindings. In that scope, where the name has its new meaning,
the expressions are evaluated in turn; after that the forms of the body are evaluated in a row, in a
new scope with the names inside of it, as long as these evaluations leave the code of the procedure
as it is. A name of a special form heads the call as such. -/
theorem named_bindings_call (host : Host) (f : String) (parts : List (String × Datum))
    (forms : List Datum) :
    (∃ site, ∃ bindings : List (String × Value), ∃ body,
      (World.prelude.build (namedText f parts forms)).1 = .pair site ∧
      (written host (namedText f parts forms)).Continues World.prelude ∧
      (written host (namedText f parts forms)).IsBinder ∧
      (written host (namedText f parts forms)).NamedCall site f bindings body ∧
      List.Forall₂ (fun b p => b.1 = p.1 ∧ (written host (namedText f parts forms)).Has b.2 p.2)
        bindings parts ∧
      List.Forall₂ (written host (namedText f parts forms)).Has body forms) ∧
    ∀ (σ : Moment) (scope owner : Ref .scope) (site : Ref .pair)
      (bindings : List (String × Value)) (body : List Value),
      σ.Continues World.prelude → σ.IsBinder →
      σ.heap.locate? ⟨"let"⟩ scope = some (owner, .transformer ⟨3⟩) →
      σ.NamedCall site f bindings body →
      ∃ σ' w' inner call operands code, σ.Changes σ' ∧
        NamedLoop σ'.world scope f (bindings.map Prod.fst) (bindings.map Prod.snd) body w' inner call
          operands code ∧
        (∀ outcome w'', Finishes (.pair site) scope σ.world outcome w'' ↔
          Finishes (.pair call) inner w' outcome w'') ∧
        ∀ I : Condition, SpecialForm.ofSymbol? ⟨f⟩ = none →
          Items I.Fixes operands (bindings.map Prod.snd) → IsBody I.Fixes code body →
          I.AlongCall (bindings.map Prod.fst) inner (bindings.map Prod.snd) body w' →
          ∀ outcome w'', Finishes (.pair site) scope σ.world outcome w'' ↔ EndsAs (fun time =>
            ((within time).inTurn inner (bindings.map Prod.snd) w').andThen
              ((within time).inFrame (bindings.map Prod.fst) inner body)) outcome w'' := by
  refine ⟨?_, fun σ scope owner site bindings body hσ hc hlet h => ?_⟩
  · obtain ⟨site, bindings, body, hsite, hcall, hparts, hforms⟩ :=
      exists_named_written host f parts forms
    exact ⟨site, bindings, body, hsite, continues_written _ _, isBinder_written _ _, hcall, hparts,
      hforms⟩
  · obtain ⟨σ', w', inner, call, operands, code, h', hloop, hfinishes⟩ := h.exists_loop hσ hc hlet
    refine ⟨σ', w', inner, call, operands, code, h', hloop, hfinishes,
      fun I hf hoperands hbody halong outcome w'' => (hfinishes outcome w'').trans ?_⟩
    obtain ⟨c, hties⟩ := hloop.ties
    exact hties.finishes_iff hloop.call hf (by simp) hoperands hbody halong

theorem locate?_enter (w : World) (name : String) (v : Value) (parent : Ref .scope) :
    (w.enter ⟨[⟨name⟩], none⟩ [v] parent).2.heap.locate? ⟨name⟩ (w.enter ⟨[⟨name⟩], none⟩ [v] parent).1 =
      some ((w.enter ⟨[⟨name⟩], none⟩ [v] parent).1, v) := by
  have hscope : (w.enter ⟨[⟨name⟩], none⟩ [v] parent).2.heap.scope ⟨w.heap.scopes.size⟩ =
      ⟨.insert {} name v, some parent⟩ := by
    simp [World.enter, Parameters.accepts, Heap.extend, Heap.bindFixed, Heap.addScope, Heap.scope]
  change (w.enter ⟨[⟨name⟩], none⟩ [v] parent).2.heap.locate? ⟨name⟩ ⟨w.heap.scopes.size⟩ =
    some (⟨w.heap.scopes.size⟩, v)
  simp [Heap.locate?, Heap.locateWithin, hscope]

/-- What a procedure that answers its operand comes to. -/
theorem endsAs_identity {w : World} {e v : Value} (he : Yields e scope w v w) : ∃ w', EndsAs
    (fun time => ((within time).inTurn scope [e] w).andThen
      ((within time).inFrame ["x"] scope [.symbol ⟨"x"⟩])) (.value v) w' := by
  have hframe : Yields (.symbol ⟨"x"⟩) (w.enter ⟨[⟨"x"⟩], none⟩ [v] scope).1
      (w.enter ⟨[⟨"x"⟩], none⟩ [v] scope).2 v (w.enter ⟨[⟨"x"⟩], none⟩ [v] scope).2 :=
    .variable (locate?_enter w "x" v scope)
  have hturn : Settles (fun time => (within time).inTurn scope [e] w) [v] w :=
    he.andThen (Settles.at_once _ w)
  have hends : Settles (fun time => ((within time).inTurn scope [e] w).andThen
      ((within time).inFrame ["x"] scope [.symbol ⟨"x"⟩])) v _ := hturn.andThen hframe
  obtain ⟨least, hends⟩ := hends
  exact ⟨_, .of_value ⟨least, hends least (Nat.le_refl least)⟩ fun _ _ => rfl⟩

/-- Atoms leave the code of the procedure as it is. -/
theorem NamedLoop.along {w w' : World} {inner : Ref .scope} {es : List Value} {operands code : Value}
    (h : NamedLoop w scope f names es body w' inner call operands code)
    (hlength : es.length = names.length) (hatoms : ∀ x ∈ es ++ body, x.isPair = false) :
    Items (Condition.pairsOf w'.heap).Fixes operands es ∧
      IsBody (Condition.pairsOf w'.heap).Fixes code body ∧
      (Condition.pairsOf w'.heap).AlongCall names inner es body w' := by
  obtain ⟨c, hties⟩ := h.ties
  have hkeeps : ∀ x ∈ es ++ body, (Condition.pairsOf w'.heap).Keeps x := fun x hx =>
    Condition.keeps_atom (hatoms x hx) fun scope w₁ w₂ hI heq r p hr => by
      rw [heq]
      exact hI r p hr
  refine ⟨h.operands.mono fun _ _ => Condition.fixes_pairsOf,
    hties.body.mono fun _ _ => Condition.fixes_pairsOf, ?_⟩
  refine Condition.Keeps.along (fun x hx => hkeeps x (by simp [hx])) (fun _ _ => id)
    fun vs w₁ hI hvs => ?_
  -- the scope of the call has the pairs that there were
  refine Condition.Keeps.along (fun x hx => hkeeps x ?_) (fun r p hr => ?_) fun _ _ _ _ => trivial
  · exact List.mem_append_right _ (List.mem_of_mem_dropLast hx)
  · simp only [Parameters.accepts, List.length_map, hvs.trans hlength, BEq.rfl, if_true]
    exact hI r p hr

/-- A procedure that answers its operand, called on a number. -/
theorem named_bindings_call_identity :
    ∃ w', Finishes (World.prelude.build (namedText "f" [("x", .number 5)] [.name "x"])).1 .global
      (written World.nowhere (namedText "f" [("x", .number 5)] [.name "x"])).world
      (.value (.number (.float 5))) w' := by
  obtain ⟨site, bindings, body, hsite, hσ, hc, hcall, hparts, hforms⟩ :=
    (named_bindings_call World.nowhere "f" [("x", .number 5)] [.name "x"]).1
  simp only [List.forall₂_cons_right_iff, List.forall₂_nil_right_iff] at hparts hforms
  obtain ⟨⟨_, e⟩, _, ⟨rfl, he, -⟩, rfl, rfl⟩ := hparts
  obtain ⟨x, _, ⟨hx, -⟩, rfl, rfl⟩ := hforms
  obtain rfl : e = .number (.float 5) := he
  obtain rfl : x = .symbol ⟨"x"⟩ := hx
  obtain ⟨owner, hlet⟩ := hσ.binds_names.names "let" _ rfl
  obtain ⟨σ', w', inner, call, operands, code, -, hloop, -, hlaw⟩ :=
    (named_bindings_call World.nowhere "f" [("x", .number 5)] [.name "x"]).2 _ .global owner site _ _
      hσ hc hlet hcall
  obtain ⟨hoperands, hbody, halong⟩ := hloop.along rfl (by decide)
  have hends := hlaw (.pairsOf w'.heap) rfl hoperands hbody halong
  have hfive : Yields (.number (.float 5)) inner w' (.number (.float 5)) w' := .selfEvaluating rfl
  obtain ⟨w'', hidentity⟩ := endsAs_identity hfive
  rw [hsite]
  exact ⟨w'', (hends _ w'').2 hidentity⟩

theorem NamedCall.mono (h : σ.Le σ') (hcall : σ.NamedCall site f bindings body) :
    σ'.NamedCall site f bindings body := by
  obtain ⟨operands, list, hsite, hoperands, hlist⟩ := hcall.form
  obtain ⟨hawaits, hsite'⟩ := h.waiting site _ hcall.awaits hsite (by simp)
  exact ⟨hawaits, operands, list, hsite', hoperands.mono h.cells, hlist.mono h.cells⟩

/-- What stands for the name in the expressions of the bindings is the procedure. -/
theorem NamedCall.finishes_closure
    (h : σ.NamedCall site f [("x", .symbol ⟨f⟩)] [.symbol ⟨"x"⟩]) (hσ : σ.Continues World.prelude)
    (hc : σ.IsBinder) (hlet : σ.heap.locate? ⟨"let"⟩ scope = some (owner, .transformer ⟨3⟩))
    (hf : SpecialForm.ofSymbol? ⟨f⟩ = none) :
    ∃ c w', Finishes (.pair site) scope σ.world (.value (.closure c)) w' := by
  obtain ⟨σ', w', inner, call, operands, code, -, hloop, hfinishes⟩ := h.exists_loop hσ hc hlet
  obtain ⟨hoperands, hbody, halong⟩ := hloop.along rfl (by simp [Value.isPair])
  obtain ⟨c, hties⟩ := hloop.ties
  obtain ⟨w'', hidentity⟩ := endsAs_identity (.variable hties.locate?_eq)
  refine ⟨c, w'', (hfinishes _ w'').2 ?_⟩
  exact (hties.finishes_iff hloop.call hf rfl hoperands hbody halong).2 hidentity

/-- The text of a procedure that answers its operand, called on what has the name outside. -/
def shadowText : Datum :=
  namedText "f" [("x", .name "f")] [.name "x"]

example : (Reader.ofText "(let f ((x f)) x)".toList).read.1 = .datum shadowText := by
  cbv

theorem locate?_withScope (σ : Moment) (name : String) (v : Value) (parent : Ref .scope) :
    (σ.withScope ⟨.insert {} name v, some parent⟩).heap.locate? ⟨name⟩ ⟨σ.heap.scopes.size⟩ =
      some (⟨σ.heap.scopes.size⟩, v) := by
  have hscope : (σ.withScope ⟨.insert {} name v, some parent⟩).heap.scope ⟨σ.heap.scopes.size⟩ =
      ⟨.insert {} name v, some parent⟩ := by
    simp [withScope, Moment.heap, Heap.addScope, Heap.scope]
  simp [Heap.locate?, Heap.locateWithin, hscope]

/-- In a scope where the name stands for a number, the expressions see the procedure instead. -/
theorem not_evaluated_outside :
    let σ := written World.nowhere shadowText
    let scope : Ref .scope := ⟨σ.heap.scopes.size⟩
    let w := (σ.withScope ⟨.insert {} "f" (.number (.float 5)), some .global⟩).world
    w.heap.locate? ⟨"f"⟩ scope = some (scope, .number (.float 5)) ∧
      (∃ c w', Finishes (World.prelude.build shadowText).1 scope w (.value (.closure c)) w') ∧
      ∀ w', ¬ Finishes (World.prelude.build shadowText).1 scope w (.value (.number (.float 5))) w' := by
  have hlocate := (written World.nowhere shadowText).locate?_withScope "f" (.number (.float 5)) .global
  obtain ⟨site, bindings, body, hsite, hcall, hparts, hforms⟩ :=
    exists_named_written World.nowhere "f" [("x", .name "f")] [.name "x"]
  have hσ := continues_written World.nowhere shadowText
  have hc := isBinder_written World.nowhere shadowText
  simp only [List.forall₂_cons_right_iff, List.forall₂_nil_right_iff] at hparts hforms
  obtain ⟨⟨_, e⟩, _, ⟨rfl, he, -⟩, rfl, rfl⟩ := hparts
  obtain ⟨x, _, ⟨hx, -⟩, rfl, rfl⟩ := hforms
  obtain rfl : e = .symbol ⟨"f"⟩ := he
  obtain rfl : x = .symbol ⟨"x"⟩ := hx
  intro σ scope w
  refine ⟨hlocate, ?_⟩
  rw [show (World.prelude.build shadowText).1 = .pair site from hsite]
  have hle := (written World.nowhere shadowText).le_withScope
    ⟨.insert {} "f" (.number (.float 5)), some .global⟩
  have hempty : ∀ name, (∅ : Std.TreeMap String Value)[name]? = List.lookup name [] :=
    fun _ => Std.TreeMap.getElem?_emptyc
  have hbinds := hσ.binds_names.withScope
    (Heap.getElem?_insert_eq_lookup hempty "f" (.number (.float 5)))
  obtain ⟨owner, hlet⟩ := hbinds.names "let" _ rfl
  obtain ⟨c, w', hvalue⟩ := (hcall.mono hle).finishes_closure (hσ.changes hle.changes)
    (hc.advances (hle.advances ⟨[], [], []⟩)) hlet rfl
  refine ⟨⟨c, w', hvalue⟩, fun w'' hother => ?_⟩
  cases hvalue.unique hother

end Moment

end Scheme
