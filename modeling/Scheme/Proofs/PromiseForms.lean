import Scheme.Proofs.NamedBindings
import Scheme.Proofs.Promises
/-!
# What delayed expressions expand to

The transformer for delayed expressions defines a procedure that makes promises, in a scope of its
own. A delayed expression is replaced by a call of that procedure, on a procedure that evaluates the
expression.
-/

namespace Scheme

open Evaluator

/-- The scope of a call binds the names of the parameters. -/
theorem Heap.getElem?_bindFixed_pairs (bindings : List (String × Value))
    (hnames : (bindings.map Prod.fst).Nodup) (name : String) :
    (Heap.bindFixed {} ((bindings.map Prod.fst).map Symbol.mk) (bindings.map Prod.snd)).1[name]? =
      bindings.lookup name := by
  have hlength : (bindings.map Prod.snd).length = (bindings.map Prod.fst).length := by simp
  simpa [List.zip_map'] using (Heap.getElem?_bindFixed hlength hnames {} name).1

/-! ## The template -/

theorem isTemplate_promise : promiseTemplate.IsTemplate where
  sketch := by decide
  pair := ⟨_, _, rfl, rfl⟩
  proper _ _ := rfl
  size h v := by
    have hsize : (h.template v promiseTemplate).size = 9 := by cbv
    omega

theorem follows_promiseTemplate {code : Value → Datum → Prop} {plan : Plan}
    (h : plan.Follows code promiseTemplate) : ∃ maker exp,
      plan = .pair (.hole maker) (.pair (.pair (.atom (.symbol ⟨"lambda"⟩)) (.pair (.atom .nil)
        (.pair (.hole exp) (.atom .nil)))) (.atom .nil)) ∧
      code maker (.name "make-promise") ∧ code exp (.name "exp") := by
  obtain ⟨_, _, rfl, ⟨maker, rfl, hmaker⟩, _, _, rfl, ⟨_, _, rfl, rfl, _, _, rfl, rfl, _, _, rfl,
    ⟨exp, rfl, hexp⟩, rfl⟩, rfl⟩ := h
  exact ⟨maker, exp, rfl, hmaker, hexp⟩

namespace Moment

variable {σ σ' : Moment} {may : Expandables} {c : PromiseCode} {m : Ref .closure}
  {scope owner frame : Ref .scope} {site x : Ref .pair} {e : Value} {locals : Environment}

/-- A call of the closure on a procedure without parameters whose body is the expression. -/
def PromiseForm (σ : Moment) (x : Ref .pair) (m : Ref .closure) (e : Value) : Prop :=
  ∃ operands l forms, σ.heap.pairs[x.index]? = some ⟨.closure m, .pair operands⟩ ∧
    σ.Cell operands ⟨.pair l, .nil⟩ ∧ IsAbstraction σ.Cell l [] (.pair forms) ∧
    σ.Cell forms ⟨e, .nil⟩

/-- The template is evaluated where its names have the values of the two parts. -/
theorem does_promiseTemplate (hsite : σ.Flat site promiseTemplate)
    (hσ : σ.Continues World.prelude) (hscope : σ.Binds scope (locals ++ Prelude.names))
    (hshows : Prelude.shows (locals.map Prod.fst) = true)
    (hmaker : locals.lookup "make-promise" = some (.closure m))
    (hexp : locals.lookup "exp" = some e) (hmay : promiseTemplate ∈ may.templates) :
    σ.Does may (.pair site) scope fun σ' v => ∃ x, v = .pair x ∧ σ'.PromiseForm x m e := by
  have hlocal : ∀ {name : String} {v : Value}, locals.lookup name = some v →
      (locals ++ Prelude.names).lookup name = some v := fun hv => by
    rw [List.lookup_append, hv, Option.some_or]
  refine hsite.does isTemplate_promise rfl hσ (hscope.seesTemplates hshows) hmay
    fun σ₁ plan h₁ hfollows => ?_
  obtain ⟨_, _, rfl, rfl, rfl⟩ := follows_promiseTemplate hfollows
  have hscope₁ := hscope.changes h₁.toChanges
  refine does_variable hscope₁ (hlocal hmaker) (does_variable hscope₁ (hlocal hexp) ?_)
  intro σ₂ forms hle₂ hforms σ₃ inner hle₃ hinner σ₄ l hle₄ hl σ₅ operands hle₅ hoperands σ₆ x hle₆
    hx
  exact ⟨x, rfl, operands, l, forms, hx.2, hle₆.cells _ _ hoperands,
    ⟨inner, .nil, (hle₅.trans hle₆).cells _ _ hl, ((hle₄.trans hle₅).trans hle₆).cells _ _ hinner,
      .nil⟩,
    (((hle₃.trans hle₄).trans hle₅).trans hle₆).cells _ _ hforms⟩

/-! ## The transformer -/

/-- The two variables of a promise, without a result. -/
def promiseBindings : List (String × Value) :=
  [("result-ready?", .boolean false), ("result", .boolean false)]

/-- The code that makes a promise: local bindings of the two variables around the procedure. -/
def Makes (σ : Moment) (c : PromiseCode) : Prop :=
  ∃ l forms, σ.Bound c.outer promiseBindings [.pair l] ∧
    IsAbstraction σ.Cell l [] (.pair forms) ∧ σ.Cell forms ⟨.pair c.check, .nil⟩

/-- The local bindings of the two variables have been replaced. -/
def Produces (σ : Moment) (c : PromiseCode) (l : Ref .pair) : Prop :=
  ∃ forms, σ.Abstracted c.outer promiseBindings [.pair l] ∧
    IsAbstraction σ.Cell l [] (.pair forms) ∧ σ.Cell forms ⟨.pair c.check, .nil⟩

theorem Produces.mono {l : Ref .pair} (hcells : ∀ r p, σ.Cell r p → σ'.Cell r p)
    (h : σ.Produces c l) : σ'.Produces c l := by
  obtain ⟨forms, habstracted, hl, hforms⟩ := h
  exact ⟨forms, habstracted.mono hcells, hl.mono hcells, hcells _ _ hforms⟩

/-- The closure for delayed expressions. -/
def IsDelayer (σ : Moment) (c : PromiseCode) : Prop :=
  ∃ code definition template name,
    σ.heap.closures[8]? = some ⟨⟨[⟨"exp"⟩], none⟩, .pair code, .global, name⟩ ∧
    Items σ.Cell (.pair code) [.symbol .begin, definition, .pair template] ∧
    σ.Defines definition "make-promise" ["proc"] (.pair c.outer) ∧
    σ.Flat template promiseTemplate

/-- The scope that promises are made in: below the global one, with no other meaning of the name of
local bindings. -/
def IsFrame (σ : Moment) (frame : Ref .scope) : Prop :=
  ∃ t, σ.heap.scopes[frame.index]? = some t ∧ t.parent = some .global ∧ t.bindings["let"]? = none

/-- The closure makes promises. -/
def IsMaker (σ : Moment) (c : PromiseCode) (m : Ref .closure) (frame : Ref .scope) : Prop :=
  σ.Encloses m ["proc"] (.pair c.outer) frame ∧ σ.IsFrame frame

theorem IsMaker.changes (h : σ.IsMaker c m frame) (h' : σ.Changes σ') : σ'.IsMaker c m frame := by
  obtain ⟨hm, t, ht, hparent⟩ := h
  exact ⟨hm.changes h', t, h'.scopes _ _ ht, hparent⟩

/-- What may be replaced when a delayed expression is expanded. -/
def promiseSites : Expandables :=
  ⟨[promiseTemplate], [], []⟩

/-- A call of the transformer makes a call of a new procedure that makes promises. -/
theorem transforms_promise (hσ : σ.Continues World.prelude) (hd : σ.IsDelayer c) :
    σ.Transforms promiseSites ⟨8⟩ [e] fun σ' x => ∃ m frame, σ'.PromiseForm x m e ∧
      σ'.IsMaker c m frame ∧ σ.heap.scopes.size ≤ frame.index := by
  obtain ⟨code, definition, template, name, hclosure, hcode, hdefines, htemplate⟩ := hd
  have hencloses : σ.Encloses ⟨8⟩ ["exp"] (.pair code) .global := ⟨name, hclosure⟩
  have hnames : ∀ other, (Heap.bindFixed {} (["exp"].map Symbol.mk) [e]).1[other]? =
      List.lookup other [("exp", e)] := Heap.getElem?_bindFixed_pairs [("exp", e)] (by simp)
  obtain ⟨σ₁, m, hle₁, hm, hbinds, hframe, hlast⟩ :=
    hdefines.exists_defined hcode hσ.binds_names hnames
  have h₁ := hle₁.advances promiseSites
  have hdoes : σ₁.Does promiseSites (.pair template) ⟨σ.heap.scopes.size⟩ fun σ' v =>
      ∃ x, v = .pair x ∧ σ'.PromiseForm x m e :=
    does_promiseTemplate (h₁.templates _ _ rfl htemplate) (hσ.changes h₁.toChanges) hbinds rfl rfl
      rfl (List.mem_singleton_self _)
  obtain ⟨σ₂, _, hyields, h₂, x, rfl, hx⟩ := hdoes
  obtain ⟨name', hclosure'⟩ := hencloses.closure_eq
  have henter := hencloses.enter (rfl : [e].length = 1)
  refine ⟨_, _, σ₂, x, henter, ?_, h₁.trans h₂, m, ⟨σ.heap.scopes.size⟩, hx,
    IsMaker.changes ⟨hm, _, hframe, rfl, ?_⟩ h₂.toChanges, Nat.le_refl _⟩
  · rw [hclosure']
    exact hlast _ _ hyields
  · simp [Scope.bound, Heap.bindFixed]

/-- Delayed expressions come to promises here. -/
structure HasPromises (σ : Moment) (c : PromiseCode) : Prop where
  continues : σ.Continues World.prelude
  binder : σ.IsBinder
  delayer : σ.IsDelayer c
  makes : σ.Makes c
  code : σ.IsPromise c

end Moment

end Scheme
