import Scheme.Proofs.TemplateExpansion
/-!
# The transformer for templates

A call of the transformer makes the procedures of the expander anew, closed over the template, and
calls the expander on it.
-/

namespace Scheme

/-! ## The code -/

namespace Datum

/-- A definition of a procedure. -/
def definition (name : String) (parameters : List String) (text : Datum) : Datum :=
  .form "define" [.form name (parameters.map Datum.name), text]

/-- The body of the transformer. -/
def transformerText : Datum :=
  .form "begin" [definition "constant?" ["exp"] constantText,
    definition "combine-skeletons" ["left", "right", "exp"] combineText,
    definition "expand-quasiquote" ["exp", "nesting"] expanderText,
    expanding (.name "x") (.number (Float.ofNat 0))]

end Datum

/-! ## Definitions -/

namespace World

theorem parametersFrom_eq {w : World} {whole v : Value} {names : List String} {budget : Nat}
    (h : w.heap.Lists v (names.map fun name => .symbol ⟨name⟩)) (hbudget : names.length ≤ budget)
    (passed : List Symbol) :
    parametersFrom whole budget passed v w =
      .value ⟨passed.reverse ++ names.map Symbol.mk, none⟩ w := by
  induction names generalizing v budget passed with
  | nil =>
      cases h
      rw [List.map_nil, List.append_nil, parametersFrom]
      rfl
  | cons name names ih =>
      cases h with
      | cons hcell hrest =>
          rw [List.length_cons] at hbudget
          obtain ⟨budget, rfl⟩ : ∃ n, budget = n + 1 := ⟨budget - 1, by omega⟩
          have hnext := ih hrest (by omega : names.length ≤ budget) (⟨name⟩ :: passed)
          rw [parametersFrom]
          simp only [bind, Action.bind, look, Heap.pair_eq_of_getElem? hcell]
          change parametersFrom whole budget (⟨name⟩ :: passed) _ w = _
          simpa using hnext

theorem parameters_eq {w : World} {v : Value} {names : List String}
    (h : w.heap.Lists v (names.map fun name => .symbol ⟨name⟩)) :
    parameters v w = .value ⟨names.map Symbol.mk, none⟩ w :=
  parametersFrom_eq h (by simpa using h.length_le) []

end World

theorem Heap.push_append_toArray {α : Type} (xs : Array α) (ys : List α) (a : α) :
    (xs ++ ys.toArray).push a = xs ++ (ys ++ [a]).toArray := by
  simp

/-- The scope with one more name. -/
def Scope.bound (s : Scope) (name : String) (v : Value) : Scope :=
  { s with bindings := s.bindings.insert name v }

namespace Moment

open Evaluator

variable {σ σ' : Moment}

/-- A named procedure that is closed over the scope that is made next. -/
def localClosure (σ : Moment) (name : String) (parameters : List String) (body : Value) : Closure :=
  ⟨⟨parameters.map Symbol.mk, none⟩, body, ⟨σ.heap.scopes.size⟩, some ⟨name⟩⟩

/-- The cells of a list of symbols. -/
theorem Code.symbols {names : List String} (hplain : "and" ∉ names) {v : Value}
    (h : σ.Code v (.list (names.map Datum.name))) :
    Items σ.Cell v (names.map fun name => .symbol ⟨name⟩) := by
  induction names generalizing v with
  | nil =>
      cases h
      exact .nil
  | cons name names ih =>
      rw [List.mem_cons, not_or] at hplain
      have hname : (Datum.name name).isName "and" = false := by
        simpa [Datum.name, Datum.isName] using fun h => hplain.1 h.symm
      obtain ⟨r, ⟨_, rest⟩, rfl, hcell, hsymbol, hrest⟩ :=
        Code.pair (Datum.isConjunction_eq_false hname) h
      cases hsymbol
      exact .cons hcell (ih hplain.2 hrest)

/-- A definition of a procedure in a scope that was made last. -/
theorem yields_procedureDefinition {name : String} {parameters : List String}
    {r r₁ r₂ target : Ref .pair} {list body : Value}
    (hr : σ.Cell r ⟨.symbol ⟨"define"⟩, .pair r₁⟩) (hr₁ : σ.Cell r₁ ⟨.pair target, .pair r₂⟩)
    (ht : σ.Cell target ⟨.symbol ⟨name⟩, list⟩)
    (hlist : Items σ.Cell list (parameters.map fun name => .symbol ⟨name⟩))
    (hr₂ : σ.Cell r₂ ⟨body, .nil⟩) (s : Scope) (cs : List Closure) :
    Yields (.pair r) ⟨σ.heap.scopes.size⟩ (σ.enclosing s cs).world (.symbol ⟨name⟩)
      (σ.enclosing (s.bound name (.closure ⟨σ.heap.closures.size + cs.length⟩))
        (cs ++ [σ.localClosure name parameters body])).world := by
  have hle := σ.le_enclosing s cs
  have hsize : (σ.heap.closures ++ cs.toArray).size = σ.heap.closures.size + cs.length := by simp
  have hparameters : (σ.enclosing s cs).world.heap.Lists list
      (parameters.map fun name => .symbol ⟨name⟩) := hlist.mono fun _ _ hcell => hcell.2
  have hrest' : (σ.enclosing s cs).world.heap.rest (.pair r₁) = .pair r₂ :=
    (hle.cells _ _ hr₁).rest_eq
  have hbody' : (σ.enclosing s cs).world.heap.pair r₂ = ⟨body, .nil⟩ := (hle.cells _ _ hr₂).eq
  have hclosure : Step.abstraction list ((σ.enclosing s cs).world.heap.rest (.pair r₁))
      ⟨σ.heap.scopes.size⟩ (σ.enclosing s cs).world = .value ⟨σ.heap.closures.size + cs.length⟩
        { σ.world with heap := { σ.heap with
          scopes := σ.heap.scopes.push s
          closures := (σ.heap.closures ++ cs.toArray).push
            ⟨⟨parameters.map Symbol.mk, none⟩, body, ⟨σ.heap.scopes.size⟩, none⟩ } } := by
    rw [hrest']
    simp only [Step.abstraction, bind, Action.bind, World.parameters_eq hparameters, World.alter,
      Heap.close, hbody', Value.isNil, if_true, Heap.addClosure]
    simp only [enclosing, hsize]
  have hyields := Yields.procedureDefinition (hle.cells _ _ hr).eq (hle.cells _ _ hr₁).first_eq
    (hle.cells _ _ ht).eq hclosure
  have hscopes := Heap.modify_push_size σ.heap.scopes s fun s =>
    { s with bindings := s.bindings.insert name (.closure ⟨σ.heap.closures.size + cs.length⟩) }
  simp only [Heap.define] at hyields
  rw [← hsize, Heap.nameClosure_last rfl rfl, hsize] at hyields
  simp only [Heap.bind, hscopes] at hyields
  rw [Heap.push_append_toArray] at hyields
  exact hyields

/-- A definition of a procedure whose text is known. -/
theorem yields_definition {name : String} {parameters : List String} {text : Datum} {x : Value}
    (hplain : "and" ∉ name :: parameters) (htext : text.isName "and" = false)
    (hx : σ.Code x (.definition name parameters text)) (s : Scope) (cs : List Closure) :
    ∃ body, σ.Code body text ∧
      Yields x ⟨σ.heap.scopes.size⟩ (σ.enclosing s cs).world (.symbol ⟨name⟩)
        (σ.enclosing (s.bound name (.closure ⟨σ.heap.closures.size + cs.length⟩))
          (cs ++ [σ.localClosure name parameters body])).world := by
  rw [List.mem_cons, not_or] at hplain
  obtain ⟨r, rest, rfl, hr, hrest⟩ := Code.form rfl hx
  obtain ⟨r₁, ⟨_, _⟩, rfl, hr₁, htarget, hrest⟩ := Code.pair rfl hrest
  have hname : (Datum.name name).isName "and" = false := by
    simpa [Datum.name, Datum.isName] using fun h => hplain.1 h.symm
  obtain ⟨target, list, rfl, ht, hlist⟩ := Code.form (Datum.isConjunction_eq_false hname) htarget
  obtain ⟨r₂, ⟨body, _⟩, rfl, hr₂, hbody, hnil⟩ :=
    Code.pair (Datum.isConjunction_eq_false htext) hrest
  cases hnil
  exact ⟨body, hbody,
    yields_procedureDefinition hr hr₁ ht (Code.symbols hplain.2 hlist) hr₂ s cs⟩

/-! ## Calls of the transformer -/

/-- The closure is the transformer for templates, and the other one that for conjunctions. -/
def IsTransformer (σ : Moment) (c conjunction : Ref .closure) : Prop :=
  ∃ body name, σ.heap.closures[c.index]? = some ⟨⟨[⟨"x"⟩], none⟩, body, .global, name⟩ ∧
    σ.Code body .transformerText ∧ σ.Sees .global (expanderGlobals conjunction)

/-- A form of a body that lies in pairs that stay as they are, and the forms after it. -/
theorem bodyYields_next {r r' : Ref .pair} {x v v' : Value} {scope : Ref .scope} {w w₁ w' : World}
    (hr : w.heap.pair r = ⟨x, .pair r'⟩) (hr₁ : w₁.heap.pair r = ⟨x, .pair r'⟩)
    (hx : Yields x scope w v w₁) (h : BodyYields (.pair r') scope w₁ v' w') :
    BodyYields (.pair r) scope w v' w' := by
  have hfirst : w.heap.first (.pair r) = x := congrArg Pair.first hr
  have hrest : w.heap.rest (.pair r) = .pair r' := congrArg Pair.rest hr
  have hrest₁ : w₁.heap.rest (.pair r) = .pair r' := congrArg Pair.rest hr₁
  refine .next (by rw [hrest]; rfl) (by rwa [hfirst]) ?_
  rwa [hrest₁]

theorem bodyYields_last {r : Ref .pair} {x v : Value} {scope : Ref .scope} {w w' : World}
    (hr : w.heap.pair r = ⟨x, .nil⟩) (hx : Yields x scope w v w') :
    BodyYields (.pair r) scope w v w' := by
  have hfirst : w.heap.first (.pair r) = x := congrArg Pair.first hr
  have hrest : w.heap.rest (.pair r) = .nil := congrArg Pair.rest hr
  refine .last (by rw [hrest]; rfl) ?_
  rwa [hfirst]

theorem Cell.eq_enclosing {r : Ref .pair} {p : Pair} (h : σ.Cell r p) (s : Scope)
    (cs : List Closure) : (σ.enclosing s cs).world.heap.pair r = p :=
  ((σ.le_enclosing s cs).cells r p h).eq

/-- The scope of a call of the transformer, when its procedures have been defined. -/
def callScope (σ : Moment) (v : Value) : Scope :=
  (((Scope.mk ((∅ : Std.TreeMap String Value).insert "x" v) (some .global)).bound "constant?"
    (.closure ⟨σ.heap.closures.size⟩)).bound "combine-skeletons"
    (.closure ⟨σ.heap.closures.size + 1⟩)).bound "expand-quasiquote"
    (.closure ⟨σ.heap.closures.size + 2⟩)

/-- The procedures of a call. -/
def callRefs (σ : Moment) (conjunction : Ref .closure) (v : Value) : ExpanderRefs :=
  ⟨conjunction, ⟨σ.heap.closures.size⟩, ⟨σ.heap.closures.size + 1⟩, ⟨σ.heap.closures.size + 2⟩, v⟩

theorem sees_callScope {conjunction : Ref .closure} (v : Value) (cs : List Closure)
    (hsees : σ.Sees .global (expanderGlobals conjunction)) :
    (σ.enclosing (σ.callScope v) cs).Sees ⟨σ.heap.scopes.size⟩ (σ.callRefs conjunction v).names := by
  have hle := σ.le_enclosing (σ.callScope v) cs
  have hbindings : ∀ name, (σ.callScope v).bindings[name]? =
      List.lookup name [("expand-quasiquote", .closure ⟨σ.heap.closures.size + 2⟩),
        ("combine-skeletons", .closure ⟨σ.heap.closures.size + 1⟩),
        ("constant?", .closure ⟨σ.heap.closures.size⟩), ("x", v)] :=
    Heap.getElem?_insert_eq_lookup (Heap.getElem?_insert_eq_lookup
      (Heap.getElem?_insert_eq_lookup (Heap.getElem?_insert_eq_lookup
        (fun _ => Std.TreeMap.getElem?_emptyc) _ _) _ _) _ _) _ _
  exact ⟨hsees.toBinds.nested hle Array.getElem?_push_size hsees.inBounds hbindings,
    fun c hc => (hsees.conjunction c hc).mono hle⟩

theorem procedure_enclosing {s : Scope} {cs : List Closure} {i : Nat} {name : String}
    {parameters : List String} {body : Value} {text : Datum} {env : Environment}
    (hi : cs[i]? = some (σ.localClosure name parameters body)) (hbody : σ.Code body text)
    (hsees : (σ.enclosing s cs).Sees ⟨σ.heap.scopes.size⟩ env) :
    (σ.enclosing s cs).Procedure ⟨σ.heap.closures.size + i⟩ parameters text env := by
  refine ⟨body, ⟨σ.heap.scopes.size⟩, some ⟨name⟩, ?_, hbody.mono (σ.le_enclosing s cs), hsees⟩
  change (σ.heap.closures ++ cs.toArray)[σ.heap.closures.size + i]? = _
  rw [Array.getElem?_append_right (Nat.le_add_right _ _), Nat.add_sub_cancel_left,
    List.getElem?_toArray, hi]
  rfl

/-- The procedures that a call defines are those of the expander. -/
theorem expander_enclosing {conjunction : Ref .closure} (v : Value) {body₁ body₂ body₃ : Value}
    (hsees : σ.Sees .global (expanderGlobals conjunction)) (h₁ : σ.Code body₁ .constantText)
    (h₂ : σ.Code body₂ .combineText) (h₃ : σ.Code body₃ .expanderText) :
    (σ.enclosing (σ.callScope v) [σ.localClosure "constant?" ["exp"] body₁,
      σ.localClosure "combine-skeletons" ["left", "right", "exp"] body₂,
      σ.localClosure "expand-quasiquote" ["exp", "nesting"] body₃]).Expander
        (σ.callRefs conjunction v) :=
  have hnames := sees_callScope v _ hsees
  ⟨procedure_enclosing (i := 0) rfl h₁ hnames, procedure_enclosing (i := 1) rfl h₂ hnames,
    procedure_enclosing (i := 2) rfl h₃ hnames⟩

/-- A call of the transformer answers an expansion of its operand. -/
theorem expands_template {c conjunction : Ref .closure} (hc : σ.IsTransformer c conjunction)
    {v : Value} {t : Template} (hv : σ.Reads v t 0) (hproper : t.isWellFormed = true)
    (hsize : t.size < 2 ^ 53) :
    ∃ inner w₁ σ' s,
      σ.world.enter (σ.world.heap.closure c).parameters [v] (σ.world.heap.closure c).scope =
        (inner, w₁) ∧
      Yields (σ.world.heap.closure c).body inner w₁ s σ'.world ∧ σ.Le σ' ∧
        σ'.Answers s v (t.plan 0) := by
  obtain ⟨body, name, hclosure, hbody, hsees⟩ := hc
  have hclosure' : σ.world.heap.closure c = ⟨⟨[⟨"x"⟩], none⟩, body, .global, name⟩ := by
    have hsome : σ.world.heap.closures[c.index]? = _ := hclosure
    simp [Heap.closure, hsome]
  obtain ⟨r, rest, rfl, hr, hforms⟩ := Code.form rfl hbody
  obtain ⟨r₁, ⟨x₁, _⟩, rfl, hr₁, hx₁, hforms⟩ := Code.pair rfl hforms
  obtain ⟨r₂, ⟨x₂, _⟩, rfl, hr₂, hx₂, hforms⟩ := Code.pair rfl hforms
  obtain ⟨r₃, ⟨x₃, _⟩, rfl, hr₃, hx₃, hforms⟩ := Code.pair rfl hforms
  obtain ⟨r₄, ⟨x₄, _⟩, rfl, hr₄, hx₄, hnil⟩ := Code.pair rfl hforms
  cases hnil
  -- each definition adds a closure to the heap and a name to the scope of the call
  let s₀ : Scope := ⟨(∅ : Std.TreeMap String Value).insert "x" v, some .global⟩
  obtain ⟨body₁, hbody₁, hyields₁⟩ := yields_definition (by decide) rfl hx₁ s₀ []
  obtain ⟨body₂, hbody₂, hyields₂⟩ := yields_definition (by decide) rfl hx₂
    (s₀.bound "constant?" (.closure ⟨σ.heap.closures.size⟩)) [σ.localClosure "constant?" ["exp"] body₁]
  obtain ⟨body₃, hbody₃, hyields₃⟩ := yields_definition (by decide) rfl hx₃ _
    [σ.localClosure "constant?" ["exp"] body₁,
      σ.localClosure "combine-skeletons" ["left", "right", "exp"] body₂]
  have hrefs := expander_enclosing v hsees hbody₁ hbody₂ hbody₃
  have hle := σ.le_enclosing (σ.callScope v) [σ.localClosure "constant?" ["exp"] body₁,
      σ.localClosure "combine-skeletons" ["left", "right", "exp"] body₂,
      σ.localClosure "expand-quasiquote" ["exp", "nesting"] body₃]
  generalize hσ₃ : σ.enclosing (σ.callScope v) _ = σ₃ at hrefs hle
  have hexpanding : σ₃.Evals (σ.callRefs conjunction v).names ⟨σ.heap.scopes.size⟩
      (.expanding (.name "x") (.number (Float.ofNat 0))) fun σ' s => σ'.Answers s v (t.plan 0) :=
    Evals.call rfl rfl rfl (Evals.looks rfl (Evals.looks rfl
      (expandable t 0 σ₃ v _ hrefs (Reads.mono hle hv) hproper (by omega) fun _ _ _ => id)))
  obtain ⟨σ', expansion, hyields₄, hle', hanswers⟩ :=
    hexpanding (hσ₃ ▸ sees_callScope v _ hsees) x₄ (hx₄.mono hle)
  refine ⟨⟨σ.heap.scopes.size⟩, (σ.enclosing s₀ []).world, σ', expansion, ?_, ?_, hle.trans hle',
    hanswers⟩
  · rw [hclosure']
    simp only [World.enter, Parameters.accepts, List.length_cons, List.length_nil, BEq.rfl, if_true,
      Heap.extend, Heap.bindFixed, Heap.addScope, enclosing, heap, s₀,
      Array.append_empty]
  · rw [hclosure']
    exact .sequence (hr.eq_enclosing _ _) (bodyYields_next (hr₁.eq_enclosing _ _)
      (hr₁.eq_enclosing _ _) hyields₁ (bodyYields_next (hr₂.eq_enclosing _ _)
      (hr₂.eq_enclosing _ _) hyields₂ (bodyYields_next (hr₃.eq_enclosing _ _)
      (hr₃.eq_enclosing _ _) hyields₃ (bodyYields_last (hr₄.eq_enclosing _ _) (hσ₃ ▸ hyields₄)))))

end Moment

end Scheme
