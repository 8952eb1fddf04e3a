import Scheme.Primitive.Table
import Scheme.Proofs.Moments
/-!
# Runs of fixed code

What code does from one moment of its run to a later one, with a rule for each form. A rule is
applied to the text of the code, whatever cells it is in; the names in it have their values from an
environment.
-/

namespace Scheme

/-! ## Texts of code -/

namespace Datum

def name (s : String) : Datum :=
  .symbol ⟨s⟩

/-- A form that is headed by a name. -/
def form (head : String) (operands : List Datum) : Datum :=
  .pair (name head) (.list operands)

def quoted (s : String) : Datum :=
  form "quote" [name s]

/-- Clauses that are tried in order, and what is left if none holds. -/
def cond (clauses : List (Datum × Datum)) (otherwise : Datum) : Datum :=
  form "cond" (clauses.map (fun clause => .list [clause.1, clause.2]) ++
    [.list [name "else", otherwise]])

def isName (s : String) : Datum → Bool
  | .symbol t => t.name == s
  | _ => false

/-- Operands that cannot be taken for a conjunction. -/
def arePlain (ds : List Datum) : Bool :=
  ds.all fun d => !d.isName "and"

/-- A form that calls a procedure: neither a special form nor a conjunction. -/
def isCall (head : String) (operands : List Datum) : Bool :=
  (SpecialForm.ofSymbol? ⟨head⟩).isNone && head != "and" && arePlain operands

/-- Clauses with tests and bodies that are taken for nothing else. -/
def areClauses (clauses : List (Datum × Datum)) (otherwise : Datum) : Bool :=
  clauses.all (fun clause => !clause.1.isName "and" && !clause.1.isName "else" &&
    !clause.2.isName "and" && !clause.2.isName "=>") &&
  (!otherwise.isName "and" && !otherwise.isName "=>")

theorem isConjunction_eq_false {first rest : Datum} (h : first.isName "and" = false) :
    isConjunction first rest = false := by
  unfold isConjunction
  split
  · exact h
  · rfl

end Datum

/-! ## Expressions that only look -/

/-- The value of an operation that changes nothing. -/
def DirectOperation.look? : DirectOperation → Heap → List Value → Option Value
  | .not, _, [x] => some (.boolean !x.isTrue)
  | .test kind, _, [x] => some (.boolean (x.isOf kind))
  | .same sameness, h, [x, y] => some (.boolean (h.same sameness x y))
  | .list (.path sides), h, [x] => some (sides.foldl (fun v side => h.side side v) x)
  | .list .length, h, [x] => (h.spineLength? x).map fun n => .number (.ofNat n)
  | .number (.compare relation), _, [.number x, .number y] =>
    some (.boolean (relation.holds x.toFloat y.toFloat))
  | .number .add, _, [.number x, .number y] =>
    some (.number (.map₂ (· + ·) (.map₂ (· + ·) (.float (-0.0)) x) y))
  | .number .subtract, _, [.number x, .number y] => some (.number (.map₂ (· - ·) x y))
  | _, _, _ => none

theorem DirectOperation.perform_of_look? {operation : DirectOperation} {vs : List Value} {v : Value}
    {w : World} (h : operation.look? w.heap vs = some v) :
    operation.perform vs w = .value v w := by
  unfold look? at h
  split at h
  case h_5 =>
    obtain ⟨n, hn, rfl⟩ := Option.map_eq_some_iff.1 h
    simp only [DirectOperation.perform, ListOperation.perform, bind, Action.bind, World.look,
      List.getD_cons_zero, hn]
    rfl
  case h_6 =>
    cases h
    exact congrArg (fun b => Result.value (Value.boolean b) w) (Bool.and_true _)
  case h_9 => cases h
  all_goals
    cases h
    rfl

namespace Primitive

/-- Whether a call may have so many arguments. -/
def takes (p : Primitive) (count : Nat) : Bool :=
  p.least ≤ count && p.most.all (count ≤ ·)

/-- The value of a call that changes nothing. -/
def look? (p : Primitive) (h : Heap) (vs : List Value) : Option Value :=
  if p.takes vs.length then
    match p.operation with
    | .direct operation => operation.look? h vs
    | .control _ => none
  else none

theorem checkCount_eq {p : Primitive} {vs : List Value} (h : p.takes vs.length = true) (w : World) :
    Step.checkCount p vs w = .value () w := by
  simp only [takes, Bool.and_eq_true, decide_eq_true_eq] at h
  cases hmost : p.most with
  | none =>
      simp only [Step.checkCount, Nat.not_lt.2 h.1, if_false, hmost]
      rfl
  | some most =>
      have hle : vs.length ≤ most := by simpa [hmost] using h.2
      simp only [Step.checkCount, Nat.not_lt.2 h.1, if_false, hmost, Nat.not_lt.2 hle]
      rfl

end Primitive

namespace Datum

/-- The symbol that is the only operand of a quotation. -/
def quoted? : Datum → Option Value
  | .pair (.symbol s) .nil => some (.symbol s)
  | _ => none

mutual

/-- The value of an expression that only looks. -/
def value? (env : Environment) (h : Heap) : Datum → Option Value
  | .boolean value => some (.boolean value)
  | .number value => some (.number (.float value))
  | .symbol s => env.lookup s.name
  | .pair (.symbol s) operands =>
    if s.name = "quote" then operands.quoted?
    else if (SpecialForm.ofSymbol? s).isNone && s.name != "and" then
      match env.lookup s.name with
      | some (.primitive p) => (values? env h operands).bind (p.look? h)
      | _ => none
    else none
  | _ => none

/-- The values of operands that only look. -/
def values? (env : Environment) (h : Heap) : Datum → Option (List Value)
  | .nil => some []
  | .pair first rest =>
    if first.isName "and" then none
    else (value? env h first).bind fun v => (values? env h rest).map (v :: ·)
  | _ => none

end

end Datum

/-! ## Environments -/

namespace Heap

/-- A binding is found in every heap that has the scopes of this one. -/
theorem locateWithin_mono {h h' : Heap} {name : Symbol} {budget budget' : Nat} {ref : Ref .scope}
    {found : Ref .scope × Value}
    (hscopes : ∀ (i : Nat) s, h.scopes[i]? = some s → h'.scopes[i]? = some s)
    (hbudget : budget ≤ budget') (h₁ : h.locateWithin name budget ref = some found) :
    h'.locateWithin name budget' ref = some found := by
  induction budget generalizing ref budget' with
  | zero => cases h₁
  | succ budget ih =>
      obtain ⟨budget', rfl⟩ : ∃ n, budget' = n + 1 := ⟨budget' - 1, by omega⟩
      cases hs : h.scopes[ref.index]? with
      | none => simp [locateWithin, scope, hs] at h₁
      | some s =>
          simp only [locateWithin, scope, hs, hscopes _ _ hs, Option.getD_some] at h₁ ⊢
          cases hbinding : s.bindings[name.name]? with
          | some v => simpa [hbinding] using h₁
          | none =>
              cases hparent : s.parent with
              | none => simp [hbinding, hparent] at h₁
              | some parent =>
                  simp only [hbinding, hparent] at h₁ ⊢
                  exact ih (by omega) h₁

end Heap

namespace Primitive

def car : Primitive := exactly 1 "car" (pathOf [.first])
def cdr : Primitive := exactly 1 "cdr" (pathOf [.rest])
def cons : Primitive := exactly 2 "cons" (.list .cons)
def list : Primitive := atLeast 0 "list" (.list .list)
def isNull : Primitive := exactly 1 "null?" (.test .null)
def eval : Primitive := ⟨"eval", .control .eval, 1, some 2⟩

end Primitive

/-- The text of the transformer for conjunctions. -/
def conjunctionText : Datum :=
  .cond
    [(.form "null?" [.name "args"], .boolean true),
      (.form "null?" [.form "rest" [.name "args"]], .form "first" [.name "args"])]
    (.form "list" [.quoted "if", .form "first" [.name "args"],
      .form "cons" [.quoted "and", .form "rest" [.name "args"]], .boolean false])

/-- The names in that text. -/
def conjunctionNames : Environment :=
  [("null?", .primitive .isNull), ("rest", .primitive .cdr), ("first", .primitive .car),
    ("list", .primitive .list), ("cons", .primitive .cons)]

namespace Moment

/-- The names have these values as seen from the scope. -/
structure Binds (σ : Moment) (scope : Ref .scope) (env : Environment) : Prop where
  inBounds : scope.index < σ.heap.scopes.size
  names : ∀ name v, env.lookup name = some v →
    ∃ owner, σ.heap.locate? ⟨name⟩ scope = some (owner, v)

/-- The closure is the one for conjunctions. -/
def IsConjunction (σ : Moment) (c : Ref .closure) : Prop :=
  ∃ body scope name, σ.heap.closures[c.index]? = some ⟨⟨[], some ⟨"args"⟩⟩, body, scope, name⟩ ∧
    σ.Code body conjunctionText ∧ σ.Binds scope conjunctionNames

/-- The names have these values, and the one of conjunctions is the right transformer. -/
structure Sees (σ : Moment) (scope : Ref .scope) (env : Environment) : Prop
    extends Binds σ scope env where
  conjunction : ∀ c, env.lookup "and" = some (.transformer c) → σ.IsConjunction c

variable {σ σ' : Moment}

theorem Le.scopes_size (h : σ.Le σ') : σ.heap.scopes.size ≤ σ'.heap.scopes.size := by
  refine Nat.le_of_not_lt fun hlt => ?_
  have hold := h.scopes _ _ (Array.getElem?_eq_getElem hlt)
  simp at hold

theorem Binds.mono (h : σ.Le σ') {scope : Ref .scope} {env : Environment}
    (hbinds : σ.Binds scope env) : σ'.Binds scope env where
  inBounds := Nat.lt_of_lt_of_le hbinds.inBounds h.scopes_size
  names name v hv := by
    obtain ⟨owner, howner⟩ := hbinds.names name v hv
    exact ⟨owner, Heap.locateWithin_mono h.scopes (Nat.le_refl _) howner⟩

theorem IsConjunction.mono (h : σ.Le σ') {c : Ref .closure} (hc : σ.IsConjunction c) :
    σ'.IsConjunction c := by
  obtain ⟨body, scope, name, hclosure, hbody, hscope⟩ := hc
  exact ⟨body, scope, name, h.closures _ _ hclosure, hbody.mono h, hscope.mono h⟩

theorem Sees.mono (h : σ.Le σ') {scope : Ref .scope} {env : Environment}
    (hsees : σ.Sees scope env) : σ'.Sees scope env where
  toBinds := hsees.toBinds.mono h
  conjunction c hc := (hsees.conjunction c hc).mono h

end Moment

/-- One more name. -/
theorem Heap.getElem?_insert_eq_lookup {bindings : Std.TreeMap String Value} {names : Environment}
    (h : ∀ name, bindings[name]? = names.lookup name) (first : String) (v : Value) (name : String) :
    (bindings.insert first v)[name]? = List.lookup name ((first, v) :: names) := by
  rw [Std.TreeMap.getElem?_insert, List.lookup_cons, h]
  by_cases hname : name = first
  · simp [hname]
  · have hne : ¬ first = name := fun heq => hname heq.symm
    have hbeq : (name == first) = false := by simpa using hname
    simp [hne, hbeq]

namespace Heap

theorem modify_push_size {α : Type} (xs : Array α) (a : α) (f : α → α) :
    (xs.push a).modify xs.size f = xs.push (f a) := by
  refine Array.ext_getElem? fun i => ?_
  rw [Array.getElem?_modify, Array.getElem?_push, Array.getElem?_push]
  by_cases hi : i = xs.size
  · simp [hi]
  · have hne : ¬ xs.size = i := fun h => hi h.symm
    simp [hi, hne]

/-- The closure that was made last takes a name. -/
theorem nameClosure_last {h : Heap} {cs : Array Closure} {c : Closure}
    (hc : h.closures = cs.push c) (hname : c.name = none) (name : Symbol) :
    h.nameClosure ⟨cs.size⟩ name =
      { h with closures := cs.push { c with name := some name } } := by
  simp only [nameClosure, hc, modify_push_size, hname]

end Heap

/-- Arguments are bound to names in order. -/
theorem Heap.getElem?_bindFixed {names : List String} {vs : List Value}
    (hlength : vs.length = names.length) (hnames : names.Nodup)
    (bindings : Std.TreeMap String Value) (name : String) :
    (Heap.bindFixed bindings (names.map Symbol.mk) vs).1[name]? =
      ((names.zip vs).lookup name).or bindings[name]? ∧
    (Heap.bindFixed bindings (names.map Symbol.mk) vs).2 = [] := by
  induction names generalizing vs bindings with
  | nil =>
      obtain rfl := List.eq_nil_of_length_eq_zero hlength
      exact ⟨rfl, rfl⟩
  | cons first names ih =>
      cases vs with
      | nil => cases hlength
      | cons v vs =>
          rw [List.nodup_cons] at hnames
          obtain ⟨hlookup, hrest⟩ := ih (Nat.succ.inj hlength) hnames.2 (bindings.insert first v)
          simp only [List.map_cons, Heap.bindFixed, List.zip_cons_cons, List.lookup_cons]
          refine ⟨?_, hrest⟩
          rw [hlookup, Std.TreeMap.getElem?_insert]
          by_cases heq : first = name
          · subst heq
            have hnone : (names.zip vs).lookup first = none := by
              rw [List.lookup_eq_none_iff]
              intro p hp
              have hne : first ≠ p.1 := fun h => hnames.1 (h ▸ (List.of_mem_zip hp).1)
              simpa using hne
            simp [hnone]
          · have hne : (name == first) = false := by simpa using fun h => heq h.symm
            simp [hne, heq]

namespace Moment

variable {σ σ' : Moment}

/-- The names of a new scope, and those of the scope around it. -/
theorem Binds.nested (hle : σ.Le σ') {parent scope : Ref .scope} {env names : Environment}
    (h : σ.Binds parent env) {bindings : Std.TreeMap String Value}
    (hscope : σ'.heap.scopes[scope.index]? = some ⟨bindings, some parent⟩)
    (hparent : parent.index < scope.index)
    (hnames : ∀ name, bindings[name]? = names.lookup name) : σ'.Binds scope (names ++ env) where
  inBounds := (Array.getElem?_eq_some_iff.1 hscope).1
  names name v hv := by
    have hscope' : σ'.heap.scope scope = ⟨bindings, some parent⟩ := by
      simp [Heap.scope, hscope]
    rw [List.lookup_append] at hv
    simp only [Heap.locate?, Heap.locateWithin, hscope', hnames]
    cases hname : names.lookup name with
    | some v' =>
        rw [hname, Option.some_or] at hv
        cases hv
        exact ⟨_, rfl⟩
    | none =>
        rw [hname, Option.none_or] at hv
        obtain ⟨owner, howner⟩ := h.names name v hv
        exact ⟨owner, Heap.locateWithin_mono hle.scopes hparent howner⟩

theorem Binds.withScope {parent : Ref .scope} {env names : Environment} (h : σ.Binds parent env)
    {bindings : Std.TreeMap String Value} (hnames : ∀ name, bindings[name]? = names.lookup name) :
    (σ.withScope ⟨bindings, some parent⟩).Binds ⟨σ.heap.scopes.size⟩ (names ++ env) :=
  h.nested (σ.le_withScope _) Array.getElem?_push_size h.inBounds hnames

/-! ## Judgements -/

/-- The expression has a value at a later moment, and the two are as stated. -/
def Runs (σ : Moment) (x : Value) (scope : Ref .scope) (post : Moment → Value → Prop) : Prop :=
  ∃ σ' v, Evaluator.Yields x scope σ.world v σ'.world ∧ σ.Le σ' ∧ post σ' v

/-- The call has a value at a later moment, and the two are as stated. -/
def Calls (σ : Moment) (procedure : Value) (arguments : List Value)
    (post : Moment → Value → Prop) : Prop :=
  ∃ σ' v, Evaluator.CallYields procedure arguments σ.world v σ'.world ∧ σ.Le σ' ∧ post σ' v

/-- Code with this text has a value at a later moment, and the two are as stated. -/
def Evals (σ : Moment) (env : Environment) (scope : Ref .scope) (text : Datum)
    (post : Moment → Value → Prop) : Prop :=
  σ.Sees scope env → ∀ x, σ.Code x text → σ.Runs x scope post

/-- Code with these texts has values, one after the other. -/
def EvalsAll (env : Environment) (scope : Ref .scope) :
    List Datum → Moment → (Moment → List Value → Prop) → Prop
  | [], σ, post => post σ []
  | text :: texts, σ, post => σ.Evals env scope text fun σ v =>
    EvalsAll env scope texts σ fun σ vs => post σ (v :: vs)

/-- The clauses have a value: that of the first whose test is true, or what is left. A pair is made
before the body of a clause is evaluated, so that is at a later moment. -/
def EvalsClauses (env : Environment) (scope : Ref .scope) (otherwise : Datum)
    (post : Moment → Value → Prop) : List (Datum × Datum) → Moment → Prop
  | [], σ => ∀ σ', σ.Le σ' → σ'.Evals env scope otherwise post
  | (test, text) :: clauses, σ => σ.Evals env scope test fun σ v =>
    if v.isTrue then ∀ σ', σ.Le σ' → σ'.Evals env scope text post
    else EvalsClauses env scope otherwise post clauses σ

variable {env : Environment} {scope : Ref .scope} {text : Datum} {post post' : Moment → Value → Prop}

theorem Evals.imp (h : σ.Evals env scope text post)
    (himp : ∀ σ' v, σ.Le σ' → post σ' v → post' σ' v) : σ.Evals env scope text post' := by
  intro hsees x hx
  obtain ⟨σ', v, hyields, hle, hpost⟩ := h hsees x hx
  exact ⟨σ', v, hyields, hle, himp σ' v hle hpost⟩

/-- A form that is headed by a name. -/
theorem Code.form {head : Symbol} {rest : Datum} (hplain : Datum.isConjunction (.symbol head) rest = false)
    {x : Value} (h : σ.Code x (.pair (.symbol head) rest)) :
    ∃ r operands, x = .pair r ∧ σ.Cell r ⟨.symbol head, operands⟩ ∧ σ.Code operands rest := by
  obtain ⟨r, ⟨first, operands⟩, rfl, hcell, hfirst, hrest⟩ := Code.pair hplain h
  cases hfirst
  exact ⟨r, operands, rfl, hcell, hrest⟩

/-! ## Expressions that only look -/

open Evaluator

/-- A quotation of a symbol. -/
theorem yields_of_quoted? {x v : Value} {s : Symbol} {operands : Datum} (hs : s.name = "quote")
    (hx : σ.Code x (.pair (.symbol s) operands)) (hv : operands.quoted? = some v) :
    Yields x scope σ.world v σ.world := by
  obtain rfl : s = .quote := by
    cases s
    cases hs
    rfl
  obtain ⟨r, rest, rfl, hcell, hrest⟩ := Code.form (by cases operands <;> rfl) hx
  unfold Datum.quoted? at hv
  split at hv
  · obtain ⟨r', p', rfl, hcell', hfirst, -⟩ := Code.pair rfl hrest
    cases hv
    have hvalue : σ.world.heap.first (.pair r') = p'.first := by
      simp only [Heap.first, hcell'.eq]
    rw [← hfirst, ← hvalue]
    exact .quotation hcell.eq
  · cases hv

theorem callYields_of_look? {p : Primitive} {vs : List Value} {v : Value}
    (h : p.look? σ.heap vs = some v) : CallYields (.primitive p) vs σ.world v σ.world := by
  unfold Primitive.look? at h
  split at h
  · rename_i htakes
    split at h
    · rename_i operation hoperation
      exact .direct (Primitive.checkCount_eq htakes _) hoperation
        (DirectOperation.perform_of_look? h)
    · cases h
  · cases h

mutual

theorem yields_of_value? (hbinds : σ.Binds scope env) {x v : Value} {d : Datum}
    (hx : σ.Code x d) (hv : d.value? env σ.heap = some v) :
    Yields x scope σ.world v σ.world := by
  cases d with
  | boolean value | number value =>
      cases hx
      cases hv
      exact .selfEvaluating rfl
  | symbol s =>
      cases hx
      obtain ⟨owner, howner⟩ := hbinds.names _ _ hv
      exact .variable howner
  | pair first operands =>
      cases first with
      | symbol s =>
          simp only [Datum.value?] at hv
          split at hv
          · exact yields_of_quoted? (by assumption) hx hv
          · split at hv
            · rename_i hcall
              simp only [Bool.and_eq_true, Option.isNone_iff_eq_none, bne_iff_ne, ne_eq] at hcall
              have hplain : Datum.isConjunction (.symbol s) operands = false :=
                Datum.isConjunction_eq_false (by simpa [Datum.isName] using hcall.2)
              obtain ⟨r, rest, rfl, hcell, hrest⟩ := Code.form hplain hx
              split at hv
              · rename_i p hp
                obtain ⟨vs, hvs, hlook⟩ := Option.bind_eq_some_iff.1 hv
                obtain ⟨owner, howner⟩ := hbinds.names _ _ hp
                exact .call hcell.eq hcall.1 (.variable howner) rfl
                  (operandsYield_of_values? hbinds hrest hvs rest) (callYields_of_look? hlook)
              · cases hv
            · cases hv
      | _ => simp [Datum.value?] at hv
  | _ => simp [Datum.value?] at hv
termination_by structural d

theorem operandsYield_of_values? (hbinds : σ.Binds scope env) {rest : Value} {vs : List Value}
    {d : Datum} (hrest : σ.Code rest d) (hvs : d.values? env σ.heap = some vs) (all : Value) :
    OperandsYield rest all scope σ.world vs σ.world := by
  cases d with
  | nil =>
      cases hrest
      cases hvs
      exact .nil all scope σ.world
  | pair first others =>
      simp only [Datum.values?] at hvs
      split at hvs
      · cases hvs
      · rename_i hfirst
        obtain ⟨v, hv, hmap⟩ := Option.bind_eq_some_iff.1 hvs
        obtain ⟨vs, hothers', rfl⟩ := Option.map_eq_some_iff.1 hmap
        obtain ⟨r, p, rfl, hcell, hx, hothers⟩ :=
          Code.pair (Datum.isConjunction_eq_false (by simpa using hfirst)) hrest
        exact .cons hcell.eq (yields_of_value? hbinds hx hv)
          (operandsYield_of_values? hbinds hothers hothers' all)
  | _ => simp [Datum.values?] at hvs
termination_by structural d

end

theorem Evals.looks {v : Value} (hv : text.value? env σ.heap = some v) (hpost : post σ v) :
    σ.Evals env scope text post :=
  fun hsees _ hx => ⟨σ, v, yields_of_value? hsees.toBinds hx hv, .refl σ, hpost⟩

/-! ## Calls -/

theorem EvalsAll.operands {texts : List Datum} {post : Moment → List Value → Prop}
    (hplain : Datum.arePlain texts = true) (hsees : σ.Sees scope env) {rest : Value}
    (hrest : σ.Code rest (.list texts)) (h : EvalsAll env scope texts σ post) (all : Value) :
    ∃ σ' vs, OperandsYield rest all scope σ.world vs σ'.world ∧ σ.Le σ' ∧ post σ' vs := by
  induction texts generalizing σ rest post with
  | nil =>
      cases hrest
      exact ⟨σ, [], .nil all scope σ.world, .refl σ, h⟩
  | cons text texts ih =>
      simp only [Datum.arePlain, List.all_cons, Bool.and_eq_true, Bool.not_eq_true'] at hplain
      obtain ⟨r, p, rfl, hcell, hx, hothers⟩ :=
        Code.pair (Datum.isConjunction_eq_false hplain.1) hrest
      obtain ⟨σ₁, v, hyields, hle, hnext⟩ := h hsees _ hx
      obtain ⟨σ₂, vs, hoperands, hle', hpost⟩ :=
        ih hplain.2 (hsees.mono hle) (hothers.mono hle) hnext
      exact ⟨σ₂, v :: vs, .cons hcell.eq hyields hoperands, hle.trans hle', hpost⟩

theorem Evals.call {head : String} {operands : List Datum} {procedure : Value}
    (hcall : Datum.isCall head operands = true) (hprocedure : env.lookup head = some procedure)
    (htransformer : procedure.isTransformer = false)
    (h : EvalsAll env scope operands σ fun σ vs => σ.Calls procedure vs post) :
    σ.Evals env scope (.form head operands) post := by
  intro hsees x hx
  simp only [Datum.isCall, Bool.and_eq_true, Option.isNone_iff_eq_none, bne_iff_ne, ne_eq] at hcall
  have hplain : Datum.isConjunction (.symbol ⟨head⟩) (.list operands) = false :=
    Datum.isConjunction_eq_false (by simpa [Datum.isName] using hcall.1.2)
  obtain ⟨r, rest, rfl, hcell, hrest⟩ := Code.form hplain hx
  obtain ⟨owner, howner⟩ := hsees.names _ _ hprocedure
  obtain ⟨σ₁, vs, hoperands, hle, σ₂, v, hyields, hle', hpost⟩ :=
    h.operands hcall.2 hsees hrest rest
  exact ⟨σ₂, v, .call hcell.eq hcall.1.1 (.variable howner) htransformer hoperands hyields,
    hle.trans hle', hpost⟩

theorem Calls.looks {p : Primitive} {vs : List Value} {v : Value} (hv : p.look? σ.heap vs = some v)
    (hpost : post σ v) : σ.Calls (.primitive p) vs post :=
  ⟨σ, v, callYields_of_look? hv, .refl σ, hpost⟩

theorem Calls.cons {x y : Value}
    (h : ∀ σ' r, σ.Le σ' → σ'.Cell r ⟨x, y⟩ → post σ' (.pair r)) :
    σ.Calls (.primitive .cons) [x, y] post :=
  ⟨σ.cons x y, _, .direct rfl rfl rfl, σ.le_cons x y,
    h _ _ (σ.le_cons x y) (σ.cell_cons x y)⟩

/-- The new pair is a conjunction that is to be replaced. -/
theorem Calls.conjoin {operands : Value}
    (h : ∀ σ' r, σ.Le σ' → σ'.Site r operands → post σ' (.pair r)) :
    σ.Calls (.primitive .cons) [.symbol ⟨"and"⟩, operands] post :=
  ⟨σ.conjoin operands, _, .direct rfl rfl rfl, σ.le_conjoin operands,
    h _ _ (σ.le_conjoin operands) (σ.site_conjoin operands)⟩

end Moment

theorem Heap.listStar_cons (h : Heap) (item : Value) (items : List Value) (tail : Value) :
    h.listStar (item :: items) tail =
      (h.listStar items tail).2.cons item (h.listStar items tail).1 := by
  have happend : ∀ (front back : List Value) (h : Heap) (tail : Value),
      h.consReversed tail (front ++ back) =
        (h.consReversed tail front).2.consReversed (h.consReversed tail front).1 back := by
    intro front back
    induction front with
    | nil => exact fun _ _ => rfl
    | cons first front ih => exact fun h tail => ih _ _
  simp only [Heap.listStar, List.reverse_cons, happend]
  rfl

namespace Moment

variable {σ σ' : Moment} {env : Environment} {scope : Ref .scope} {text : Datum}
  {post post' : Moment → Value → Prop}

open Evaluator

/-- The moment after a list was made. -/
def listing (σ : Moment) : List Value → Moment
  | [] => σ
  | item :: items => (σ.listing items).cons item (σ.heap.list items).1

theorem world_listing (σ : Moment) (items : List Value) :
    (σ.listing items).world = { σ.world with heap := (σ.heap.list items).2 } := by
  induction items with
  | nil => rfl
  | cons item items ih =>
      have hheap : (σ.listing items).heap = (σ.heap.list items).2 := congrArg World.heap ih
      have hlist : σ.heap.list (item :: items) =
          (σ.listing items).heap.cons item (σ.heap.list items).1 := by
        rw [hheap]
        exact Heap.listStar_cons _ _ _ _
      rw [hlist]
      simp only [listing, Moment.cons, ih]

theorem le_listing (σ : Moment) (items : List Value) : σ.Le (σ.listing items) := by
  induction items with
  | nil => exact .refl σ
  | cons item items ih => exact ih.trans (Moment.le_cons _ _ _)

theorem items_listing (σ : Moment) (items : List Value) :
    Items (σ.listing items).Cell (σ.heap.list items).1 items := by
  induction items with
  | nil => exact .nil
  | cons item items ih =>
      have hheap : (σ.listing items).heap = (σ.heap.list items).2 :=
        congrArg World.heap (σ.world_listing items)
      have hlist : (σ.heap.list (item :: items)).1 = .pair ⟨(σ.listing items).heap.pairs.size⟩ := by
        rw [hheap]
        exact congrArg Prod.fst (Heap.listStar_cons _ _ _ _)
      rw [hlist]
      exact .cons (Moment.cell_cons _ _ _) (ih.mono (Moment.le_cons _ _ _).cells)

/-- A conjunction that is to be replaced stays one while a list is made. -/
theorem site_listing {r : Ref .pair} {operands : Value} (h : σ.Site r operands)
    (items : List Value) : (σ.listing items).Site r operands := by
  induction items with
  | nil => exact h
  | cons item items ih => exact ⟨ih.1, Heap.getElem?_push_of_some _ ih.2⟩

theorem exists_list (σ : Moment) (items : List Value) :
    ∃ σ' : Moment, σ'.world = { σ.world with heap := (σ.heap.list items).2 } ∧ σ.Le σ' ∧
      Items σ'.Cell (σ.heap.list items).1 items :=
  ⟨σ.listing items, σ.world_listing items, σ.le_listing items, σ.items_listing items⟩

/-- A new list, at the very next moment. -/
theorem Calls.listing {items : List Value}
    (h : post (σ.listing items) (σ.heap.list items).1) :
    σ.Calls (.primitive .list) items post := by
  refine ⟨σ.listing items, _, ?_, σ.le_listing items, h⟩
  rw [world_listing]
  exact .direct (Primitive.checkCount_eq rfl _) rfl rfl

theorem Calls.list {items : List Value}
    (h : ∀ σ' v, σ.Le σ' → Items σ'.Cell v items → post σ' v) :
    σ.Calls (.primitive .list) items post :=
  .listing (h _ _ (σ.le_listing items) (σ.items_listing items))

theorem Calls.eval {x : Value} (h : σ.Runs x .global post) :
    σ.Calls (.primitive .eval) [x] post := by
  obtain ⟨σ', v, hyields, hle, hpost⟩ := h
  exact ⟨σ', v, .primitive rfl hyields, hle, hpost⟩

/-- A closure with parameters of these names, whose body has this text, and which is closed over
a scope with these names. -/
def Procedure (σ : Moment) (c : Ref .closure) (names : List String) (text : Datum)
    (env : Environment) : Prop :=
  ∃ body scope name,
    σ.heap.closures[c.index]? = some ⟨⟨names.map Symbol.mk, none⟩, body, scope, name⟩ ∧
      σ.Code body text ∧ σ.Sees scope env

theorem Procedure.mono (h : σ.Le σ') {c : Ref .closure} {names : List String}
    (hc : σ.Procedure c names text env) : σ'.Procedure c names text env := by
  obtain ⟨body, scope, name, hclosure, hbody, hscope⟩ := hc
  exact ⟨body, scope, name, h.closures _ _ hclosure, hbody.mono h, hscope.mono h⟩

theorem Calls.closure {c : Ref .closure} {names : List String} (hc : σ.Procedure c names text env)
    {vs : List Value} (hlength : vs.length = names.length) (hnames : names.Nodup)
    (hand : "and" ∉ names)
    (h : ∀ σ' scope, σ.Le σ' → σ'.Evals (names.zip vs ++ env) scope text post) :
    σ.Calls (.closure c) vs post := by
  obtain ⟨body, parent, name, hclosure, hbody, hsees⟩ := hc
  have hbind := Heap.getElem?_bindFixed hlength hnames {}
  have hlookup : ∀ name, (Heap.bindFixed {} (names.map Symbol.mk) vs).1[name]? =
      (names.zip vs).lookup name := fun name => by simpa using (hbind name).1
  have hle := σ.le_withScope ⟨(Heap.bindFixed {} (names.map Symbol.mk) vs).1, some parent⟩
  have hinner : (σ.withScope ⟨(Heap.bindFixed {} (names.map Symbol.mk) vs).1, some parent⟩).Sees
      ⟨σ.heap.scopes.size⟩ (names.zip vs ++ env) := by
    refine ⟨hsees.toBinds.withScope hlookup, fun a ha => ?_⟩
    have hnone : (names.zip vs).lookup "and" = none := by
      rw [List.lookup_eq_none_iff]
      intro p hp
      have hne : "and" ≠ p.1 := fun h => hand (h ▸ (List.of_mem_zip hp).1)
      simpa using hne
    rw [List.lookup_append, hnone, Option.none_or] at ha
    exact (hsees.conjunction a ha).mono hle
  obtain ⟨σ', v, hyields, hle', hpost⟩ := h _ ⟨σ.heap.scopes.size⟩ hle hinner body (hbody.mono hle)
  refine ⟨σ', v, ?_, hle.trans hle', hpost⟩
  have hclosure' : σ.world.heap.closure c = ⟨⟨names.map Symbol.mk, none⟩, body, parent, name⟩ := by
    have : σ.world.heap.closures[c.index]? = _ := hclosure
    simp [Heap.closure, this]
  have henter : σ.world.enter ⟨names.map Symbol.mk, none⟩ vs parent = (⟨σ.heap.scopes.size⟩,
      (σ.withScope ⟨(Heap.bindFixed {} (names.map Symbol.mk) vs).1, some parent⟩).world) := by
    simp only [World.enter, Parameters.accepts, List.length_map, hlength, BEq.rfl, if_true,
      Heap.extend]
    rfl
  exact .closure (by rw [hclosure', henter]) (by rwa [hclosure'])

/-! ## Forms -/

theorem Code.items {texts : List Datum} (hplain : Datum.arePlain texts = true) {v : Value}
    (h : σ.Code v (.list texts)) :
    ∃ xs, Items σ.Cell v xs ∧ σ.CodeAll xs (.list texts) := by
  induction texts generalizing v with
  | nil =>
      cases h
      exact ⟨[], .nil, rfl⟩
  | cons text texts ih =>
      simp only [Datum.arePlain, List.all_cons, Bool.and_eq_true, Bool.not_eq_true'] at hplain
      obtain ⟨r, p, rfl, hcell, hx, hothers⟩ :=
        Code.pair (Datum.isConjunction_eq_false hplain.1) h
      obtain ⟨xs, hitems, hall⟩ := ih hplain.2 hothers
      exact ⟨p.first :: xs, .cons hcell hitems, p.first, xs, rfl, hx, hall⟩

/-- Code that is a symbol is the text of the symbol. -/
theorem Code.eq_symbol {s : Symbol} (h : σ.Code (.symbol s) text) : text = .symbol s := by
  cases text with
  | symbol t =>
      cases h
      rfl
  | pair first rest =>
      cases hconjunction : Datum.isConjunction first rest with
      | true =>
          simp only [Code, hconjunction, if_true] at h
          obtain ⟨xs, hconjoins, -⟩ := h
          cases hconjoins
      | false =>
          obtain ⟨r, p, heq, -⟩ := Code.pair hconjunction h
          cases heq
  | _ => cases h

theorem Code.ne_symbol {x : Value} (h : σ.Code x text) {s : String}
    (hs : text.isName s = false) : x ≠ .symbol ⟨s⟩ := by
  rintro rfl
  rw [h.eq_symbol] at hs
  simp [Datum.isName] at hs

end Moment

theorem Items.first_eq {σ : Moment} {v x : Value} {xs : List Value}
    (h : Items σ.Cell v (x :: xs)) : σ.world.heap.first v = x := by
  cases h with
  | cons hcell hrest => simp only [Heap.first, hcell.eq]

theorem Items.of_rest {σ : Moment} {v x : Value} {xs : List Value}
    (h : Items σ.Cell v (x :: xs)) : Items σ.Cell (σ.world.heap.rest v) xs := by
  cases h with
  | cons hcell hrest => simpa only [Heap.rest, hcell.eq] using hrest

namespace Moment

variable {σ σ' : Moment} {env : Environment} {scope : Ref .scope} {text : Datum}
  {post post' : Moment → Value → Prop}

open Evaluator

theorem Evals.branch {test yes no : Datum} (hplain : Datum.arePlain [test, yes, no] = true)
    (h : σ.Evals env scope test fun σ v => σ.Evals env scope (if v.isTrue then yes else no) post) :
    σ.Evals env scope (.form "if" [test, yes, no]) post := by
  intro hsees x hx
  obtain ⟨r, rest, rfl, hcell, hrest⟩ := Code.form rfl hx
  obtain ⟨xs, hitems, test', others, rfl, htest, yes', others', rfl, hyes, no', others'', rfl, hno,
    rfl⟩ := hrest.items hplain
  obtain ⟨σ₁, v, hyields, hle, harm⟩ := h hsees _ htest
  have hitems' := hitems.mono hle.cells
  have harms : σ₁.world.heap.second rest = yes' ∧ σ₁.world.heap.third rest = no' :=
    ⟨hitems'.of_rest.first_eq, hitems'.of_rest.of_rest.first_eq⟩
  have harm' : σ₁.Runs (if v.isTrue then yes' else no') scope post := by
    refine harm (hsees.mono hle) _ ?_
    split
    · exact hyes.mono hle
    · exact hno.mono hle
  obtain ⟨σ₂, v', hyields', hle', hpost⟩ := harm'
  rw [← harms.1, ← harms.2] at hyields'
  exact ⟨σ₂, v', .branch hcell.eq (hitems.first_eq ▸ hyields) hyields', hle.trans hle', hpost⟩

/-- A quotation has its operand as its value. -/
theorem Evals.quotation (hplain : text.isName "and" = false)
    (hpost : ∀ x, σ.Code x text → post σ x) : σ.Evals env scope (.form "quote" [text]) post := by
  intro hsees x hx
  obtain ⟨r, rest, rfl, hcell, hrest⟩ := Code.form rfl hx
  obtain ⟨r', p, rfl, hcell', hoperand, -⟩ :=
    Code.pair (Datum.isConjunction_eq_false hplain) hrest
  have hvalue : σ.world.heap.first (.pair r') = p.first := hcell'.first_eq
  exact ⟨σ, p.first, hvalue ▸ .quotation hcell.eq, .refl σ, hpost _ hoperand⟩

/-- The body of a clause is evaluated as a sequence of its own. -/
theorem Evals.chosen {body : Ref .pair} {x : Value} (hsees : σ.Sees scope env)
    (hbody : σ.Cell body ⟨x, .nil⟩) (hx : σ.Code x text)
    (h : ∀ σ', σ.Le σ' → σ'.Evals env scope text post) :
    ∃ σ' v, Yields (σ.world.heap.cons (.symbol .begin) (.pair body)).1 scope
      { σ.world with heap := (σ.world.heap.cons (.symbol .begin) (.pair body)).2 } v σ'.world ∧
        σ.Le σ' ∧ post σ' v := by
  have hle := σ.le_cons (.symbol .begin) (.pair body)
  have hcell : (σ.world.heap.cons (.symbol .begin) (.pair body)).2.pair body = ⟨x, .nil⟩ :=
    (hle.cells _ _ hbody).eq
  obtain ⟨σ', v, hyields, hle', hpost⟩ := h _ hle (hsees.mono hle) x (hx.mono hle)
  refine ⟨σ', v, .sequence (σ.cell_cons _ _).eq (.last ?_ ?_), hle.trans hle', hpost⟩
  · simp only [Heap.rest, hcell, Value.isPair]
  · simp only [Heap.first, hcell]
    exact hyields

theorem EvalsClauses.yield {clauses : List (Datum × Datum)} {otherwise : Datum}
    (hplain : Datum.areClauses clauses otherwise = true) (hsees : σ.Sees scope env) {rest : Value}
    (hrest : σ.Code rest (.list (clauses.map (fun clause => .list [clause.1, clause.2]) ++
      [.list [.name "else", otherwise]])))
    (h : EvalsClauses env scope otherwise post clauses σ) :
    ∃ σ' v, ClausesYield rest scope σ.world v σ'.world ∧ σ.Le σ' ∧ post σ' v := by
  induction clauses generalizing σ rest with
  | nil =>
      simp only [Datum.areClauses, List.all_nil, Bool.true_and, Bool.and_eq_true,
        Bool.not_eq_true'] at hplain
      obtain ⟨r, ⟨_, _⟩, rfl, hcell, hclause, -⟩ := Code.pair rfl hrest
      obtain ⟨clause, ⟨_, _⟩, rfl, hcell', htest, hbody⟩ := Code.pair rfl hclause
      obtain ⟨body, ⟨x, _⟩, rfl, hcell'', hx, hnil⟩ :=
        Code.pair (Datum.isConjunction_eq_false hplain.1) hbody
      cases htest
      cases hnil
      obtain ⟨σ', v, hyields, hle, hpost⟩ := Evals.chosen hsees hcell'' hx h
      refine ⟨σ', v, .otherwise hcell.eq hcell'.eq ?_ hyields, hle, hpost⟩
      rw [hcell''.eq]
      exact hx.ne_symbol hplain.2
  | cons clause clauses ih =>
      simp only [Datum.areClauses, List.all_cons, Bool.and_assoc, Bool.and_eq_true,
        Bool.not_eq_true'] at hplain
      obtain ⟨htest, helse, htext, harrow, hothers⟩ := hplain
      obtain ⟨r, ⟨_, others⟩, rfl, hcell, hclause, hnext⟩ := Code.pair rfl hrest
      obtain ⟨ref, ⟨test, _⟩, rfl, hcell', hcode, hbody⟩ :=
        Code.pair (Datum.isConjunction_eq_false htest) hclause
      obtain ⟨body, ⟨x, _⟩, rfl, hcell'', hx, hnil⟩ :=
        Code.pair (Datum.isConjunction_eq_false htext) hbody
      cases hnil
      have hnot : (σ.world.heap.pair ref).first ≠ .symbol .else_ := by
        rw [hcell'.eq]
        exact hcode.ne_symbol helse
      obtain ⟨σ₁, v, hyields, hle, hgoes⟩ := h hsees test hcode
      have hyields' : Yields (σ.world.heap.pair ref).first scope σ.world v σ₁.world := by
        rwa [hcell'.eq]
      cases hv : v.isTrue with
      | true =>
          simp only [hv, if_true] at hgoes
          have hbody' := hle.cells _ _ hcell''
          obtain ⟨σ₂, v', hyields₂, hle', hpost⟩ :=
            Evals.chosen (hsees.mono hle) hbody' (hx.mono hle) hgoes
          refine ⟨σ₂, v', .chosen hcell.eq hnot hyields' hv ?_ ?_ hyields₂, hle.trans hle', hpost⟩
          · rw [(hle.cells _ _ hcell').eq]
          · rw [hbody'.eq]
            exact (hx.mono hle).ne_symbol harrow
      | false =>
          simp only [hv, Bool.false_eq_true, if_false] at hgoes
          have hplain' : Datum.areClauses clauses otherwise = true := by
            simpa only [Datum.areClauses, Bool.and_assoc, Bool.and_eq_true, Bool.not_eq_true']
              using hothers
          obtain ⟨σ₂, v', hyields₂, hle', hpost⟩ :=
            ih hplain' (hsees.mono hle) (hnext.mono hle) hgoes
          exact ⟨σ₂, v', .skipped hcell.eq hnot hyields' hv hyields₂, hle.trans hle', hpost⟩

theorem Evals.cond {clauses : List (Datum × Datum)} {otherwise : Datum}
    (hplain : Datum.areClauses clauses otherwise = true)
    (h : EvalsClauses env scope otherwise post clauses σ) :
    σ.Evals env scope (.cond clauses otherwise) post := by
  intro hsees x hx
  obtain ⟨r, rest, rfl, hcell, hrest⟩ := Code.form (by cases clauses <;> rfl) hx
  obtain ⟨σ', v, hyields, hle, hpost⟩ := h.yield hplain hsees hrest
  exact ⟨σ', v, .clauses hcell.eq hyields, hle, hpost⟩

end Moment

end Scheme
