import Scheme.Proofs.TransformerRuns
/-!
# Local bindings in code

Local bindings stand for a call of an abstraction. They are replaced by one when they are evaluated
for the first time; from then on it is there.
-/

namespace Scheme

open Evaluator

/-! ## Code whose templates have been replaced or not -/

/-- No template in the text holds another one. -/
def Datum.areSimple : Datum → Bool
  | .pair first rest =>
    if first.isName "quasiquote" then
      match rest with
      | .pair d .nil => d.isSimple
      | _ => false
    else first.areSimple && rest.areSimple
  | _ => true

namespace Moment

variable {σ σ' σ₁ : Moment} {may : Expandables} {scope parent owner : Ref .scope}
  {r site : Ref .pair} {v x list : Value} {d first rest : Datum} {env : Environment}

/-- A template that holds none within, replaced or not. -/
def Placed (σ : Moment) (r : Ref .pair) (d : Datum) : Prop :=
  d.isSimple = true ∧ σ.Flat r d

/-- Code with such templates. -/
abbrev Prepared (σ : Moment) (v : Value) (d : Datum) : Prop :=
  σ.CodeWith σ.Placed v d

theorem prepared_of_lies {v : Value} {d : Datum} (hd : d.areSimple = true)
    (h : LaidOut σ.Lies v d) : σ.Prepared v d := by
  cases d with
  | pair first rest =>
      simp only [Datum.areSimple] at hd
      by_cases hname : first.isName "quasiquote" = true
      · rw [if_pos hname] at hd
        simp only [CodeWith, if_pos hname]
        split at hd
        · obtain ⟨r, p, rfl, hr, hfirst, hrest⟩ := h
          obtain rfl : first = .name "quasiquote" := by
            unfold Datum.isName at hname
            split at hname
            · rw [Datum.name, ← eq_of_beq hname]
            · cases hname
          exact ⟨r, rfl, rfl, hd, Or.inl ⟨r, p, rfl, hr, hfirst, hrest⟩⟩
        · cases hd
      · rw [if_neg hname, Bool.and_eq_true] at hd
        obtain ⟨r, p, rfl, hr, hfirst, hrest⟩ := h
        simp only [CodeWith, if_neg hname]
        exact ⟨r, p, rfl, hr.cell (hfirst.ne_symbol (by simpa using hname)),
          prepared_of_lies hd.1 hfirst, prepared_of_lies hd.2 hrest⟩
  | character | string | vector => cases h
  | _ => exact h
termination_by structural d

theorem CodeWith.pair {placed : Ref .pair → Datum → Prop} (hname : first.isName "quasiquote" = false)
    (h : σ.CodeWith placed v (.pair first rest)) : ∃ r p, v = .pair r ∧ σ.Cell r p ∧
      σ.CodeWith placed p.first first ∧ σ.CodeWith placed p.rest rest := by
  simpa only [CodeWith, hname, Bool.false_eq_true, if_false] using h

theorem CodeWith.template {placed : Ref .pair → Datum → Prop}
    (h : σ.CodeWith placed v d.template) : ∃ r, v = .pair r ∧ placed r d := by
  obtain ⟨r, hv, -, hr⟩ := h
  exact ⟨r, hv, hr⟩

/-- A form that is headed by a name, and its operands. -/
theorem CodeWith.form {placed : Ref .pair → Datum → Prop} {head : String} {ds : List Datum}
    (hplain : (Datum.name head :: ds).all (fun d => !d.isName "quasiquote") = true)
    (h : σ.CodeWith placed v (.form head ds)) : ∃ r rest xs, v = .pair r ∧
      σ.Cell r ⟨.symbol ⟨head⟩, rest⟩ ∧ Items σ.Cell rest xs ∧
      List.Forall₂ (σ.CodeWith placed) xs ds := by
  rw [List.all_cons, Bool.and_eq_true, Bool.not_eq_true'] at hplain
  obtain ⟨r, ⟨_, rest⟩, rfl, hr, rfl, hrest⟩ := h.pair hplain.1
  suffices hall : ∃ xs, Items σ.Cell rest xs ∧ List.Forall₂ (σ.CodeWith placed) xs ds by
    obtain ⟨xs, hxs, hall⟩ := hall
    exact ⟨r, rest, xs, rfl, hr, hxs, hall⟩
  replace hplain := hplain.2
  clear h hr
  induction ds generalizing rest with
  | nil =>
      cases hrest
      exact ⟨[], .nil, .nil⟩
  | cons d ds ih =>
      rw [List.all_cons, Bool.and_eq_true, Bool.not_eq_true'] at hplain
      obtain ⟨r, ⟨x, others⟩, rfl, hr, hx, hothers⟩ := hrest.pair hplain.1
      obtain ⟨xs, hxs, hall⟩ := @ih others hothers hplain.2
      exact ⟨x :: xs, .cons hr hxs, .cons hx hall⟩

theorem CodeWith.mono {placed placed' : Ref .pair → Datum → Prop}
    (hcells : ∀ r p, σ.Cell r p → σ'.Cell r p) (hplaced : ∀ r d, placed r d → placed' r d)
    {v : Value} {d : Datum} (h : σ.CodeWith placed v d) : σ'.CodeWith placed' v d := by
  cases d with
  | pair first rest =>
      by_cases hname : first.isName "quasiquote" = true
      · simp only [CodeWith, if_pos hname] at h ⊢
        obtain ⟨r, hv, hrest, hr⟩ := h
        exact ⟨r, hv, hrest, hplaced r _ hr⟩
      · simp only [CodeWith, if_neg hname] at h ⊢
        obtain ⟨r, p, hv, hr, hfirst, hrest⟩ := h
        exact ⟨r, p, hv, hcells r p hr, hfirst.mono hcells hplaced, hrest.mono hcells hplaced⟩
  | _ => exact h
termination_by structural d

/-- Code without templates lies in cells. -/
theorem CodeWith.laidOut {placed : Ref .pair → Datum → Prop} {v : Value} {d : Datum}
    (hflat : d.isFlat = true) (h : σ.CodeWith placed v d) : LaidOut σ.Cell v d := by
  cases d with
  | pair first rest =>
      simp only [Datum.isFlat, Bool.and_eq_true, Bool.not_eq_true'] at hflat
      obtain ⟨r, p, hv, hr, hfirst, hrest⟩ := h.pair hflat.1.1
      exact ⟨r, p, hv, hr, hfirst.laidOut hflat.1.2, hrest.laidOut hflat.2⟩
  | _ => exact h
termination_by structural d

theorem CodeWith.of_laidOut {placed : Ref .pair → Datum → Prop} {v : Value} {d : Datum}
    (hflat : d.isFlat = true) (h : LaidOut σ.Cell v d) : σ.CodeWith placed v d := by
  cases d with
  | pair first rest =>
      simp only [Datum.isFlat, Bool.and_eq_true, Bool.not_eq_true'] at hflat
      obtain ⟨r, p, hv, hr, hfirst, hrest⟩ := h
      simp only [CodeWith, hflat.1.1, Bool.false_eq_true, if_false]
      exact ⟨r, p, hv, hr, .of_laidOut hflat.1.2 hfirst, .of_laidOut hflat.2 hrest⟩
  | _ => exact h
termination_by structural d

theorem CodeWith.code {placed : Ref .pair → Datum → Prop} (hflat : d.isFlat = true)
    (hfree : d.isFree = true) (h : σ.CodeWith placed v d) : σ.Code v d :=
  (h.laidOut hflat).code hfree

/-- The cells of a list of symbols. -/
theorem CodeWith.symbols {placed : Ref .pair → Datum → Prop} {names : List String}
    (hflat : (Datum.list (names.map Datum.name)).isFlat = true) (hand : "and" ∉ names)
    (h : σ.CodeWith placed v (.list (names.map Datum.name))) :
    Items σ.Cell v (names.map fun name => .symbol ⟨name⟩) := by
  refine Code.symbols hand (h.code hflat ?_)
  clear h hflat
  induction names with
  | nil => rfl
  | cons name names ih =>
      rw [List.mem_cons, not_or] at hand
      have hname : (Datum.name name).isName "and" = false := by
        simpa [Datum.name, Datum.isName] using fun h => hand.1 h.symm
      have hrest := ih hand.2
      simp only [Datum.list, Datum.listStar, List.map_cons, List.foldr_cons] at hrest ⊢
      simp only [Datum.isFree, Datum.isConjunction_eq_false hname, hrest]
      rfl

theorem Prepared.advances (h : σ.Prepared v d) (h' : σ.Advances may σ') : σ'.Prepared v d :=
  CodeWith.mono h'.cells (fun r d hr => ⟨hr.1, h'.templates r d hr.1 hr.2⟩) h

theorem Replaces.changes {code code' : Value → Datum → Prop} (h' : σ.Changes σ')
    (hcode : ∀ e d, code e d → code' e d) (h : σ.Replaces code r d) : σ'.Replaces code' r d := by
  obtain ⟨plan, hplan, ⟨part, hskeleton, hcovers⟩, hfollows⟩ := h
  exact ⟨plan, hplan, ⟨part, hskeleton.mono h'.cells h'.stills, hcovers.mono h'.cells⟩,
    hfollows.mono hcode⟩

theorem Templated.advances {code code' : Value → Datum → Prop} (h' : σ.Advances may σ')
    (hcode : ∀ e d, code e d → code' e d) (hd : ∀ t ∈ may.templates, ¬ t.Has d.template)
    (h : σ.Templated code r d) : σ'.Templated code' r d :=
  h.imp (fun hr => h'.unexpanded r d hr hd) (.changes h'.toChanges hcode)

/-! ## Evaluating forms -/

theorem Does.branch {arms test yes no : Value} {post : Moment → Value → Prop}
    (hr : σ.Cell r ⟨.symbol ⟨"if"⟩, arms⟩) (harms : Items σ.Cell arms [test, yes, no])
    (h : σ.Does may test scope fun σ' v => σ'.Does may (if v.isTrue then yes else no) scope post) :
    σ.Does may (.pair r) scope post := by
  obtain ⟨σ₁, v, hyields, hadvances, σ₂, v', hyields', hadvances', hpost⟩ := h
  have harms' := harms.mono hadvances.cells
  have hsecond : σ₁.world.heap.second arms = yes := harms'.of_rest.first_eq
  have hthird : σ₁.world.heap.third arms = no := harms'.of_rest.of_rest.first_eq
  rw [← hsecond, ← hthird] at hyields'
  exact ⟨σ₂, v', .branch hr.eq (harms.first_eq ▸ hyields) hyields', hadvances.trans hadvances', hpost⟩

theorem does_variable {s : String} {post : Moment → Value → Prop} (hscope : σ.Binds scope env)
    (hs : env.lookup s = some v) (hpost : post σ v) : σ.Does may (.symbol ⟨s⟩) scope post := by
  obtain ⟨owner, howner⟩ := hscope.names s v hs
  exact ⟨σ, v, .variable howner, .refl may σ, hpost⟩

/-- The expressions have values, one after the other. -/
def DoesAll (may : Expandables) (scope : Ref .scope) :
    List Value → Moment → (Moment → List Value → Prop) → Prop
  | [], σ, post => post σ []
  | x :: xs, σ, post => σ.Does may x scope fun σ v =>
    DoesAll may scope xs σ fun σ vs => post σ (v :: vs)

theorem DoesAll.operands {rest all : Value} {xs : List Value} {post : Moment → List Value → Prop}
    (hrest : Items σ.Cell rest xs) (h : DoesAll may scope xs σ post) :
    ∃ σ' vs, OperandsYield rest all scope σ.world vs σ'.world ∧ σ.Advances may σ' ∧ post σ' vs := by
  induction xs generalizing σ rest post with
  | nil =>
      cases hrest
      exact ⟨σ, [], .nil all scope σ.world, .refl may σ, h⟩
  | cons x xs ih =>
      cases hrest with
      | cons hcell hothers =>
          obtain ⟨σ₁, v, hyields, hadvances, hnext⟩ := h
          obtain ⟨σ₂, vs, hoperands, hadvances', hpost⟩ := ih (hothers.mono hadvances.cells) hnext
          exact ⟨σ₂, v :: vs, .cons hcell.eq hyields hoperands, hadvances.trans hadvances', hpost⟩

theorem Does.call {s : Symbol} {rest f : Value} {xs : List Value} {post : Moment → Value → Prop}
    (hr : σ.Cell r ⟨.symbol s, rest⟩) (hs : SpecialForm.ofSymbol? s = none)
    (hname : σ.heap.locate? s scope = some (owner, f)) (hplain : f.isTransformer = false)
    (hrest : Items σ.Cell rest xs)
    (h : DoesAll may scope xs σ fun σ' vs => σ'.Performs may f vs post) :
    σ.Does may (.pair r) scope post := by
  obtain ⟨σ₁, vs, hoperands, hadvances, σ₂, v, hcall, hadvances', hpost⟩ := h.operands hrest
  exact ⟨σ₂, v, .call hr.eq hs (.variable hname) hplain hoperands hcall,
    hadvances.trans hadvances', hpost⟩

theorem DoesAll.imp {xs : List Value} {post post' : Moment → List Value → Prop}
    (h : DoesAll may scope xs σ post) (himp : ∀ σ' vs, σ.Advances may σ' → post σ' vs → post' σ' vs) :
    DoesAll may scope xs σ post' := by
  induction xs generalizing σ post post' with
  | nil => exact himp σ [] (.refl may σ) h
  | cons x xs ih =>
      exact Does.imp h fun σ₁ v hadvances hnext =>
        ih hnext fun σ' vs hadvances' => himp σ' (v :: vs) (hadvances.trans hadvances')

end Moment

/-- A call of what an operator in the form of a combination has as its value. -/
theorem Evaluator.Yields.application {w w₁ w₂ w' : World} {site head : Ref .pair}
    {rest f v : Value} {vs : List Value} {scope : Ref .scope}
    (hcell : w.heap.pair site = ⟨.pair head, rest⟩) (hhead : Yields (.pair head) scope w f w₁)
    (hplain : f.isTransformer = false) (hoperands : OperandsYield rest rest scope w₁ vs w₂)
    (h : CallYields f vs w₂ v w') : Yields (.pair site) scope w v w' := by
  have hreduce : ∀ time, (within time).reduce time (.pair site) scope w =
      (within time).combination time site (.pair head) rest scope w := fun time => by
    simp only [reduce, hcell]
  refine .of_reduce ?_
  simp only [hreduce]
  refine Settles.andThen hhead ?_
  cases f with
  | transformer => cases hplain
  | _ => exact Settles.andThen hoperands h

namespace Moment

variable {σ σ' σ₁ : Moment} {may : Expandables} {scope parent owner : Ref .scope}
  {r site : Ref .pair} {v x list body : Value} {d : Datum} {env : Environment}
  {bindings : List (String × Value)} {forms : List Value}

/-- There are as many values as expressions. -/
theorem DoesAll.length {xs : List Value} {post : Moment → List Value → Prop}
    (h : DoesAll may scope xs σ post) :
    DoesAll may scope xs σ fun σ' vs => vs.length = xs.length ∧ post σ' vs := by
  induction xs generalizing σ post with
  | nil => exact ⟨rfl, h⟩
  | cons x xs ih =>
      exact Does.imp h fun σ₁ v _ hnext =>
        (ih hnext).imp fun _ vs _ ⟨hlength, hpost⟩ => ⟨congrArg (· + 1) hlength, hpost⟩

/-- The operands are evaluated, and then the body in a scope with the names. -/
theorem Abstracted.does {post : Moment → Value → Prop} (h : σ.Abstracted site bindings [body])
    (hscope : σ.Binds scope env) (hnames : (bindings.map Prod.fst).Nodup)
    (hbody : ∀ σ₁, σ.Le σ₁ → DoesAll may scope (bindings.map Prod.snd) σ₁ fun σ' vs =>
      ∀ σ'' inner, σ'.Le σ'' → σ''.Binds inner ((bindings.map Prod.fst).zip vs ++ env) →
        σ''.Does may body inner post) :
    σ.Does may (.pair site) scope post := by
  obtain ⟨head, operands, inner, names, list, hr, hoperands, hhead, hinner, hlist, hforms⟩ := h.form
  cases hforms with
  | cons hform hnil =>
  cases hnil
  have hparameters : Items σ.Cell names ((bindings.map Prod.fst).map fun name => .symbol ⟨name⟩) := by
    rwa [List.map_map]
  have habstraction : σ.Runs (.pair head) scope _ := runs_abstraction hhead hinner hparameters hform
  obtain ⟨σ₁, _, hclosure, hle, c, rfl, hc⟩ := habstraction
  have hvalues : ∃ (σ' : Moment) (vs : List Value),
      OperandsYield operands operands scope σ₁.world vs σ'.world ∧ _ ∧ _ :=
    (hbody σ₁ hle).length.operands (hoperands.mono hle.cells)
  obtain ⟨σ₂, vs, hvalues, hadvances, hlength, hcall⟩ := hvalues
  rw [List.length_map] at hlength
  obtain ⟨σ₃, v, hyields, hadvances', hpost⟩ := Performs.closure
    (hc.changes hadvances.toChanges) ((hscope.mono hle).changes hadvances.toChanges)
    (by rw [hlength, List.length_map]) hnames hcall
  exact ⟨σ₃, v, .application hr.eq hclosure rfl hvalues hyields,
    ((hle.advances may).trans hadvances).trans hadvances', hpost⟩

/-! ## Mappings over tables -/

theorem callsAll_look {p : Primitive} {items vs : List Value} {post : Moment → List Value → Prop}
    (hlook : List.Forall₂ (fun x v => p.look? σ.heap [x] = some v) items vs) (hpost : post σ vs) :
    CallsAll (.primitive p) (items.map fun x => [x]) σ post := by
  induction hlook generalizing post with
  | nil => exact hpost
  | cons hv _ ih => exact Calls.looks hv (ih hpost)

/-- A primitive that only looks is mapped over a list. -/
theorem Evals.mapping {p : Primitive} {f s : String} {items vs : List Value}
    (hcall : Datum.isCall "map" [.name f, .name s] = true)
    (hmap : env.lookup "map" = some (.primitive .map)) (hf : env.lookup f = some (.primitive p))
    (hs : env.lookup s = some list) (hitems : Items σ.Cell list items)
    (hlook : List.Forall₂ (fun x v => p.look? σ.heap [x] = some v) items vs) :
    σ.Evals env scope (.mapping (.name f) [s]) fun σ' v => Items σ'.Cell v vs :=
  Evals.call hcall hmap rfl (Evals.looks hf (Evals.looks hs
    (Calls.map hitems.rows (callsAll_look hlook fun _ _ _ hv => hv))))

/-- The first elements of the lists. -/
theorem exists_firsts {rows : List (List Value)} {vs : List Value}
    (h : Table σ.Cell list rows) (hrows : List.Forall₂ (fun row v => ∃ rest, row = v :: rest) rows vs) :
    ∃ items, Items σ.Cell list items ∧
      List.Forall₂ (fun x v => Primitive.look? .car σ.heap [x] = some v) items vs := by
  obtain ⟨items, hitems, hall⟩ := h
  refine ⟨items, hitems, ?_⟩
  clear hitems
  induction hall generalizing vs with
  | nil =>
      cases hrows
      exact .nil
  | cons hitem _ ih =>
      cases hrows with
      | cons hrow hrows =>
          obtain ⟨rest, rfl⟩ := hrow
          exact .cons (congrArg some hitem.first_eq) (ih hrows)

/-- The second elements of the lists. -/
theorem exists_seconds {rows : List (List Value)} {vs : List Value}
    (h : Table σ.Cell list rows)
    (hrows : List.Forall₂ (fun row v => ∃ first rest, row = first :: v :: rest) rows vs) :
    ∃ items, Items σ.Cell list items ∧
      List.Forall₂ (fun x v => Primitive.look? .cadr σ.heap [x] = some v) items vs := by
  obtain ⟨items, hitems, hall⟩ := h
  refine ⟨items, hitems, ?_⟩
  clear hitems
  induction hall generalizing vs with
  | nil =>
      cases hrows
      exact .nil
  | cons hitem _ ih =>
      cases hrows with
      | cons hrow hrows =>
          obtain ⟨first, rest, rfl⟩ := hrow
          exact .cons (congrArg some hitem.of_rest.first_eq) (ih hrows)

/-- The names of bindings. -/
theorem exists_names (h : Table σ.Cell list (bindings.map Binding.row)) :
    ∃ items, Items σ.Cell list items ∧ List.Forall₂
      (fun x v => Primitive.look? .car σ.heap [x] = some v) items
      (bindings.map fun b => .symbol ⟨b.1⟩) :=
  exists_firsts h (by simp [List.forall₂_map_left_iff, List.forall₂_map_right_iff, Binding.row])

/-- The expressions for their values. -/
theorem exists_values (h : Table σ.Cell list (bindings.map Binding.row)) :
    ∃ items, Items σ.Cell list items ∧ List.Forall₂
      (fun x v => Primitive.look? .cadr σ.heap [x] = some v) items (bindings.map Prod.snd) :=
  exists_seconds h (by simp [List.forall₂_map_left_iff, List.forall₂_map_right_iff, Binding.row])

end Moment

/-! ## What local bindings expand to -/

theorem isTemplate_binding : bindingTemplate.IsTemplate where
  sketch := by decide
  pair := ⟨_, _, rfl, rfl⟩
  proper _ _ := rfl
  size h v := by
    have hsize : (h.template v bindingTemplate).size = 15 := by cbv
    omega

theorem follows_bindingTemplate {code : Value → Datum → Prop} {plan : Plan}
    (h : plan.Follows code bindingTemplate) : ∃ names body vals,
      plan = .pair (.pair (.atom (.symbol ⟨"lambda"⟩)) (.pair (.hole names) (.hole body)))
        (.hole vals) ∧
      code names (.mapping (.name "first") ["bindings"]) ∧ code body (.name "body") ∧
      code vals (.mapping (.name "second") ["bindings"]) := by
  obtain ⟨_, _, rfl, ⟨_, _, rfl, rfl, _, _, rfl, ⟨names, rfl, hnames⟩, body, rfl, hbody⟩, vals, rfl,
    hvals⟩ := h
  exact ⟨names, body, vals, rfl, hnames, hbody, hvals⟩

namespace Moment

variable {σ σ' σ₁ : Moment} {may : Expandables} {scope parent owner : Ref .scope}
  {r site : Ref .pair} {v x list : Value} {d : Datum} {locals : Environment}
  {bindings : List (String × Value)} {body : List Value}

/-- The template is evaluated in the scope of a call of the transformer. -/
theorem does_bindingTemplate (hsite : σ.Flat site bindingTemplate)
    (hσ : σ.Continues World.prelude) (hscope : σ.Binds scope (locals ++ Prelude.names))
    (hshows : Prelude.shows (locals.map Prod.fst) = true)
    (hnames : ∀ name ∈ ["map", "first", "second"], locals.lookup name = none)
    (hlist : locals.lookup "bindings" = some list) (hforms : locals.lookup "body" = some v)
    (hbindings : Table σ.Cell list (bindings.map Binding.row)) (hbody : Items σ.Cell v body)
    (hmay : bindingTemplate ∈ may.templates) :
    σ.Does may (.pair site) scope fun σ' v => ∃ x, v = .pair x ∧ σ'.Abstracted x bindings body := by
  have hglobal : ∀ name ∈ ["map", "first", "second"],
      (locals ++ Prelude.names).lookup name = Prelude.names.lookup name := fun name hname => by
    rw [List.lookup_append, hnames name hname, Option.none_or]
  have hlist' : (locals ++ Prelude.names).lookup "bindings" = some list := by
    rw [List.lookup_append, hlist, Option.some_or]
  have hforms' : (locals ++ Prelude.names).lookup "body" = some v := by
    rw [List.lookup_append, hforms, Option.some_or]
  refine hsite.does isTemplate_binding rfl hσ (hscope.seesTemplates hshows) hmay
    fun σ₁ plan h₁ hfollows => ?_
  obtain ⟨names, b, vals, rfl, hnames', hb, hvals⟩ := follows_bindingTemplate hfollows
  have hsees := ((hσ.changes h₁.toChanges).sees (hscope.changes h₁.toChanges) hshows)
  obtain ⟨items, hitems, hlook⟩ := exists_names (hbindings.mono h₁.cells)
  refine (Evals.mapping rfl (hglobal _ (by decide)) (hglobal _ (by decide)) hlist' hitems hlook).does
    hsees (hnames'.code rfl) |>.imp fun σ₂ v₁ h₂ hv₁ => ?_
  obtain rfl : b = .symbol ⟨"body"⟩ := hb
  have h₁₂ := h₁.trans h₂
  refine does_variable (hscope.changes h₁₂.toChanges) hforms' fun σ₃ r hle₃ hr => ?_
  intro σ₄ r' hle₄ hr'
  have h₄ := h₁₂.trans ((hle₃.trans hle₄).advances may)
  have hsees' := ((hσ.changes h₄.toChanges).sees (hscope.changes h₄.toChanges) hshows)
  obtain ⟨items', hitems', hlook'⟩ := exists_values (hbindings.mono h₄.cells)
  refine (Evals.mapping rfl (hglobal _ (by decide)) (hglobal _ (by decide)) hlist' hitems'
    hlook').does hsees' ((hvals.mono (h₂.trans ((hle₃.trans hle₄).advances may)).cells).code rfl)
    |>.imp fun σ₅ v₃ h₅ hv₃ => ?_
  intro σ₆ x hle₆ hx
  have h₄₆ := h₅.trans (hle₆.advances may)
  have h₃₆ := (hle₄.advances may).trans h₄₆
  refine ⟨x, rfl, r', v₃, r, v₁, v, hx, hv₃.mono hle₆.cells, h₄₆.cells _ _ hr', h₃₆.cells _ _ hr,
    hv₁.mono (fun r p hp => h₃₆.cells r p (hle₃.cells r p hp)), hbody.mono fun r p hp => ?_⟩
  exact h₄₆.cells r p (h₄.cells r p hp)

/-- The closure for local bindings. -/
def IsBinder (σ : Moment) : Prop :=
  ∃ body name, σ.heap.closures[3]? =
      some ⟨⟨[⟨"bindings"⟩], some ⟨"body"⟩⟩, body, .global, name⟩ ∧ σ.Prepared body bindingText

theorem IsBinder.advances (h : σ.IsBinder) (h' : σ.Advances may σ') : σ'.IsBinder := by
  obtain ⟨body, name, hclosure, hbody⟩ := h
  exact ⟨body, name, h'.closures _ _ hclosure, hbody.advances h'⟩

/-- What may be replaced when local bindings are expanded. -/
def bindingSites : Expandables :=
  ⟨[bindingTemplate], [], []⟩

/-- The value is a definition of a procedure with one expression in its body. -/
def Defines (σ : Moment) (v : Value) (name : String) (parameters : List String) (body : Value) :
    Prop :=
  ∃ r r₁ r₂ target list, v = .pair r ∧ σ.Cell r ⟨.symbol ⟨"define"⟩, .pair r₁⟩ ∧
    σ.Cell r₁ ⟨.pair target, .pair r₂⟩ ∧ σ.Cell target ⟨.symbol ⟨name⟩, list⟩ ∧
    Items σ.Cell list (parameters.map fun name => .symbol ⟨name⟩) ∧ σ.Cell r₂ ⟨body, .nil⟩

theorem Defines.yields {name : String} {parameters : List String} {code : Value}
    (h : σ.Defines v name parameters code) (s : Scope) :
    Yields v ⟨σ.heap.scopes.size⟩ (σ.enclosing s []).world (.symbol ⟨name⟩)
      (σ.enclosing (s.bound name (.closure ⟨σ.heap.closures.size⟩))
        [σ.localClosure name parameters code]).world := by
  obtain ⟨r, r₁, r₂, target, list, rfl, hr, hr₁, ht, hlist, hr₂⟩ := h
  exact yields_procedureDefinition hr hr₁ ht hlist hr₂ s []

theorem CodeWith.defines {placed : Ref .pair → Datum → Prop} {name : String}
    {parameters : List String} (hname : name ≠ "quasiquote") (hand : "and" ∉ parameters)
    (hflat : (Datum.list (parameters.map Datum.name)).isFlat = true)
    (h : σ.CodeWith placed v
      (.form "define" [.form name (parameters.map Datum.name), d.template])) :
    ∃ site, σ.Defines v name parameters (.pair site) ∧ placed site d := by
  have hhead : (Datum.name name).isName "quasiquote" = false := by
    simpa [Datum.isName, Datum.name] using hname
  obtain ⟨r, rest, xs, rfl, hr, hxs, hall⟩ := h.form rfl
  simp only [List.forall₂_cons_right_iff, List.forall₂_nil_right_iff] at hall
  obtain ⟨target, _, htarget, ⟨body, _, hbody, rfl, rfl⟩, rfl⟩ := hall
  obtain ⟨site, rfl, hsite⟩ := hbody.template
  obtain ⟨t, ⟨_, list⟩, rfl, ht, rfl, hlist⟩ := htarget.pair hhead
  cases hxs with
  | @cons r₁ _ _ _ hr₁ hrest =>
  cases hrest with
  | @cons r₂ _ _ _ hr₂ hnil =>
  cases hnil
  exact ⟨site, ⟨r, r₁, r₂, t, list, rfl, hr, hr₁, ht, CodeWith.symbols hflat hand hlist, hr₂⟩, hsite⟩

/-- Code that defines a procedure goes on in a scope that binds it, besides the names that were
bound there. -/
theorem Defines.exists_defined {locals : Environment} {name : String} {parameters : List String}
    {code definition last : Value} {bindings : Std.TreeMap String Value}
    (h : σ.Defines definition name parameters code)
    (hr : Items σ.Cell (.pair r) [.symbol .begin, definition, last])
    (hparent : σ.Binds parent env) (hnames : ∀ other, bindings[other]? = locals.lookup other) :
    ∃ (σ' : Moment) (c : Ref .closure), σ.Le σ' ∧ σ'.Encloses c parameters code ⟨σ.heap.scopes.size⟩ ∧
      σ'.Binds ⟨σ.heap.scopes.size⟩ ((name, .closure c) :: locals ++ env) ∧
      σ'.heap.scopes[σ.heap.scopes.size]? =
        some (Scope.bound ⟨bindings, some parent⟩ name (.closure c)) ∧
      ∀ v w', Yields last ⟨σ.heap.scopes.size⟩ σ'.world v w' →
        Yields (.pair r) ⟨σ.heap.scopes.size⟩ (σ.enclosing ⟨bindings, some parent⟩ []).world v w' := by
  have hdefined := h.yields ⟨bindings, some parent⟩
  have hle := σ.le_enclosing
    (Scope.bound ⟨bindings, some parent⟩ name (.closure ⟨σ.heap.closures.size⟩))
    [σ.localClosure name parameters code]
  have hle' := σ.le_enclosing ⟨bindings, some parent⟩ []
  have hscope : (σ.enclosing
      (Scope.bound ⟨bindings, some parent⟩ name (.closure ⟨σ.heap.closures.size⟩))
      [σ.localClosure name parameters code]).heap.scopes[σ.heap.scopes.size]? =
        some (Scope.bound ⟨bindings, some parent⟩ name (.closure ⟨σ.heap.closures.size⟩)) :=
    Array.getElem?_push_size
  have hbinds := hparent.nested hle hscope hparent.inBounds
    (Heap.getElem?_insert_eq_lookup hnames _ _)
  refine ⟨_, ⟨σ.heap.closures.size⟩, hle, ⟨some ⟨name⟩, ?_⟩, hbinds, hscope,
    fun v w' hyields => ?_⟩
  · change (σ.heap.closures ++ [_].toArray)[σ.heap.closures.size]? = _
    simp [localClosure]
  · cases hr with
    | cons hr hforms =>
    cases hforms with
    | cons hf hrest =>
    cases hrest with
    | cons hf' hnil =>
    cases hnil
    exact .sequence (hle'.cells _ _ hr).eq (bodyYields_next (hle'.cells _ _ hf).eq
      (hle.cells _ _ hf).eq hdefined (bodyYields_last (hle.cells _ _ hf').eq hyields))

/-- The names that are seen in a call of the transformer. -/
def binderNames (c : Ref .closure) (forms list : Value) : Environment :=
  [("named-let", .closure c), ("body", forms), ("bindings", list)]

/-- The branch that the code of the transformer ends in. -/
def branchText : Datum :=
  .form "if" [.form "symbol?" [.name "bindings"],
    .form "named-let" [.name "bindings", .form "first" [.name "body"], .form "rest" [.name "body"]],
    bindingTemplate.template]

/-- The transformer defines a procedure of its own, and then comes to a branch. -/
theorem transforms_branch {post : Moment → Ref .pair → Prop} (hσ : σ.Continues World.prelude)
    (hc : σ.IsBinder) (list : Value) (body : List Value)
    (h : ∀ (σ' : Moment) inner c forms branch named, σ.Le σ' →
      σ'.Encloses c ["name", "bindings", "body"] (.pair named) inner →
      σ'.Placed named namedTemplate → Items σ'.Cell forms body →
      σ'.Binds inner (binderNames c forms list ++ Prelude.names) → σ'.Prepared branch branchText →
      σ'.Does may branch inner fun σ'' v => ∃ x, v = .pair x ∧ post σ'' x) :
    σ.Transforms may ⟨3⟩ (list :: body) post := by
  obtain ⟨code, name, hclosure, hcode⟩ := hc
  have hclosure' : σ.world.heap.closure ⟨3⟩ =
      ⟨⟨["bindings"].map Symbol.mk, some ⟨"body"⟩⟩, code, .global, name⟩ := by
    have hsome : σ.world.heap.closures[3]? = _ := hclosure
    simp [Heap.closure, hsome]
  have hlength : [list].length = ["bindings"].length := rfl
  obtain ⟨σ₁, forms, names, hle₁, hforms, hnames, henter⟩ :=
    σ.exists_entered hlength (by decide) "body" body .global
  obtain ⟨r, rest, xs, rfl, hr, hxs, hall⟩ := (hcode.advances (hle₁.advances may)).form rfl
  simp only [List.forall₂_cons_right_iff, List.forall₂_nil_right_iff] at hall
  obtain ⟨definition, _, hdefinition, ⟨branch, _, hbranch, rfl, rfl⟩, rfl⟩ := hall
  obtain ⟨named, hdefines, hnamed⟩ : ∃ named, σ₁.Defines definition "named-let"
      ["name", "bindings", "body"] (.pair named) ∧ σ₁.Placed named namedTemplate :=
    hdefinition.defines (by decide) (by decide) rfl
  obtain ⟨σ₂, c, hle₂, hencloses, hbinds, -, hlast⟩ :=
    hdefines.exists_defined (.cons hr hxs) (hσ.binds_names.mono hle₁) hnames
  have hadvances := hle₂.advances may
  obtain ⟨σ₃, _, hyields, hadvances', x, rfl, hpost⟩ := h σ₂ ⟨σ₁.heap.scopes.size⟩ c forms branch named
    (hle₁.trans hle₂) hencloses ⟨hnamed.1, hadvances.templates _ _ hnamed.1 hnamed.2⟩
    (hforms.mono hle₂.cells) hbinds (Prepared.advances hbranch hadvances)
  refine ⟨⟨σ₁.heap.scopes.size⟩, (σ₁.enclosing ⟨names, some .global⟩ []).world, σ₃, x,
    (by rw [hclosure']; exact henter), ?_, ((hle₁.trans hle₂).advances may).trans hadvances', hpost⟩
  rw [hclosure']
  exact hlast _ _ hyields

/-- A call of the transformer makes a call of an abstraction. -/
theorem transforms_bindings (hσ : σ.Continues World.prelude) (hc : σ.IsBinder)
    (hlist : Table σ.Cell list (bindings.map Binding.row)) (body : List Value) :
    σ.Transforms bindingSites ⟨3⟩ (list :: body) fun σ' x => σ'.Abstracted x bindings body := by
  refine transforms_branch hσ hc list body fun σ₁ inner c forms branch _ hle _ _ hforms hbinds
    hbranch => ?_
  have hσ₁ := hσ.changes (hle.advances bindingSites).toChanges
  obtain ⟨b, arms, ys, rfl, hb, hys, hall⟩ := CodeWith.form rfl hbranch
  simp only [List.forall₂_cons_right_iff, List.forall₂_nil_right_iff] at hall
  obtain ⟨test, _, htest, ⟨call, _, -, ⟨template, _, htemplate, rfl, rfl⟩, rfl⟩, rfl⟩ := hall
  obtain ⟨site, rfl, hsite⟩ := htemplate.template
  have hvalue : Datum.value? (binderNames c forms list ++ Prelude.names) σ₁.heap
      (.form "symbol?" [.name "bindings"]) = some (.boolean false) :=
    congrArg (fun b => some (Value.boolean b)) hlist.isOf_symbol
  refine Does.branch hb hys (Evals.does (Evals.looks hvalue ?_) (hσ₁.sees hbinds rfl)
    (htest.code rfl rfl))
  exact does_bindingTemplate hsite.2 hσ₁ hbinds rfl (by simp [binderNames]) rfl rfl
    (hlist.mono hle.cells) hforms (List.mem_singleton_self _)

/-! ## Local bindings in code -/

/-- The local bindings are as they were written, or they have been replaced. -/
def Bound (σ : Moment) (r : Ref .pair) (bindings : List (String × Value)) (body : List Value) : Prop :=
  σ.LetCall r bindings body ∨ σ.Abstracted r bindings body

theorem Bound.advances (h : σ.Bound r bindings body) (h' : σ.Advances may σ')
    (hnames : bindings.map Prod.fst ∉ may.bindings) : σ'.Bound r bindings body :=
  h.imp (h'.calls _ _ _ hnames) (.mono h'.cells)

theorem LetCall.exists_abstracted (may : Expandables) (h : σ.LetCall site bindings body) (hσ : σ.Continues World.prelude)
    (hc : σ.IsBinder) (hmay : bindingTemplate ∈ may.templates)
    (hmay' : bindings.map Prod.fst ∈ may.bindings) : ∃ operands es inner w₁ x,
      σ.heap.pairs[site.index]? = some ⟨.symbol ⟨"let"⟩, operands⟩ ∧
      World.elements operands σ.world = .value es σ.world ∧
      σ.world.enter (σ.world.heap.closure ⟨3⟩).parameters es (σ.world.heap.closure ⟨3⟩).scope =
        (inner, w₁) ∧
      ∃ w₂, Yields (σ.world.heap.closure ⟨3⟩).body inner w₁ (.pair x) w₂ ∧
        ∃ σ', σ'.world = spliced site ⟨3⟩ (.pair x) w₂ ∧ σ.Advances may σ' ∧
          σ'.Abstracted site bindings body := by
  obtain ⟨operands, list, forms, hsite, hoperands, hlist, hforms⟩ := h.form
  obtain ⟨inner, w₁, σ₁, x, henter, hyields, hadvances, hx⟩ := transforms_bindings hσ hc hlist body
  have hcall := hadvances.calls _ _ _ (by simp [bindingSites]) h
  obtain ⟨entries, hspliced⟩ := spliced_pair site ⟨3⟩ x σ₁.world
  obtain ⟨σ₂, hreplaced, hworld⟩ := exists_replaced hcall.awaits (σ₁.world.heap.pair x) entries
  have hitems : Items σ.Cell (.pair operands) (list :: body) := .cons hoperands hforms
  refine ⟨.pair operands, list :: body, inner, w₁, x, hsite,
    World.elements_eq (hitems.mono fun _ _ hr => hr.2), henter, σ₁.world, hyields, σ₂,
    hworld.trans hspliced.symm, ?_, ?_⟩
  · refine (hadvances.weaken ?_ (List.nil_subset _) (List.nil_subset _)).trans
      (hreplaced.advances_call hcall hmay')
    simpa [bindingSites] using hmay
  · obtain ⟨head, operands, inner, names, list, hr, hrest⟩ := (hx.mono hreplaced.cells).form
    have hcell := hreplaced.cell
    obtain ⟨_, _, _, _, _, hr', -⟩ := hx.form
    have hpair := (hreplaced.cells _ _ hr').unique hr
    rw [hr'.eq, hpair] at hcell
    exact ⟨head, operands, inner, names, list, hcell, hrest⟩

/-- What may be replaced when local bindings of these names are evaluated. -/
def callSites (names : List String) : Expandables :=
  ⟨[bindingTemplate], [names], []⟩

/-- Local bindings are replaced when they are evaluated. -/
theorem Bound.does {post : Moment → Value → Prop} (h : σ.Bound site bindings body)
    (hσ : σ.Continues World.prelude) (hc : σ.IsBinder)
    (hlet : σ.heap.locate? ⟨"let"⟩ scope = some (owner, .transformer ⟨3⟩))
    (hmay : bindingTemplate ∈ may.templates) (hmay' : bindings.map Prod.fst ∈ may.bindings)
    (hdoes : ∀ σ', σ.Advances (callSites (bindings.map Prod.fst)) σ' →
      σ'.Abstracted site bindings body → σ'.Does may (.pair site) scope post) :
    σ.Does may (.pair site) scope post := by
  rcases h with h | h
  · obtain ⟨operands, es, inner, w₁, x, hsite, helements, henter, w₂, hyields, σ₁, hworld, h₁,
      habstracted⟩ := h.exists_abstracted (callSites (bindings.map Prod.fst)) hσ hc
        (List.mem_singleton_self _) (List.mem_singleton_self _)
    obtain ⟨σ₂, v, hvalue, h₂, hpost⟩ := hdoes σ₁ h₁ habstracted
    rw [hworld] at hvalue
    exact ⟨σ₂, v, .expansion (Heap.pair_eq_of_getElem? hsite) rfl (.variable hlet) helements henter
      hyields hvalue, (h₁.weaken (by simpa [callSites] using hmay) (by simpa [callSites] using hmay')
      (List.nil_subset _)).trans h₂, hpost⟩
  · exact hdoes σ (.refl _ σ) h

end Moment

end Scheme
