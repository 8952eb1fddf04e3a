import Scheme.Proofs.Conjunctions
import Scheme.Proofs.Expansions
import Scheme.Proofs.WholeDoubles
/-!
# The expander of templates

The procedures with which the transformer for templates makes an expansion. Each is specified by
what it answers, from any moment of a run of its code on.
-/

namespace Scheme

/-! ## The code -/

namespace Datum

/-- The text of the procedure that tells constants. -/
def constantText : Datum :=
  .form "if" [.form "pair?" [.name "exp"],
    .form "eq?" [.form "car" [.name "exp"], .quoted "quote"],
    .form "not" [.form "symbol?" [.name "exp"]]]

/-- A pair of constants is a constant: the one in the template, if that has the same parts. -/
def foldText : Datum :=
  .form "if" [.form "and" [
      .form "eqv?" [.form "eval" [.name "left"], .form "car" [.name "exp"]],
      .form "eqv?" [.form "eval" [.name "right"], .form "cdr" [.name "exp"]]],
    .form "list" [.quoted "quote", .name "exp"],
    .form "list" [.quoted "quote",
      .form "cons" [.form "eval" [.name "left"], .form "eval" [.name "right"]]]]

/-- Other pairs are made by calls, and calls of `list` are merged. -/
def callClauses : List (Datum × Datum) :=
  [(.form "null?" [.name "right"], .form "list" [.quoted "list", .name "left"]),
    (.form "and" [.form "pair?" [.name "right"],
        .form "eq?" [.form "car" [.name "right"], .quoted "list"]],
      .form "cons" [.quoted "list", .form "cons" [.name "left", .form "cdr" [.name "right"]]])]

/-- The text of the procedure that makes an expression for a pair of those for its parts. -/
def combineText : Datum :=
  .cond
    ((.form "and" [.form "constant?" [.name "left"], .form "constant?" [.name "right"]],
      foldText) :: callClauses)
    (.form "list" [.quoted "cons", .name "left", .name "right"])

/-- A test for a list of a mark and one operand. -/
def markTest (head whole : Datum) (mark : String) : List Datum :=
  [.form "eq?" [head, .quoted mark],
    .form "=" [.form "length" [whole], .number (Float.ofNat 2)]]

/-- A call of the expander, on some level. -/
def expanding (part level : Datum) : Datum :=
  .form "expand-quasiquote" [part, level]

/-- The level below and the level above. -/
def levelBelow : Datum := .form "-" [.name "nesting", .number (Float.ofNat 1)]
def levelAbove : Datum := .form "+" [.name "nesting", .number (Float.ofNat 1)]

def isOutermost : Datum := .form "=" [.name "nesting", .number (Float.ofNat 0)]

def combining (left right : Datum) : Datum :=
  .form "combine-skeletons" [left, right, .name "exp"]

/-- What is done with a pair, by its role. -/
def roleText : Template.Role → Datum
  | .unquoted => .form "if" [isOutermost, .form "second" [.name "exp"],
    combining (.form "quote" [.quoted "unquote"])
      (expanding (.form "cdr" [.name "exp"]) levelBelow)]
  | .nested => combining (.form "quote" [.quoted "quasiquote"])
    (expanding (.form "cdr" [.name "exp"]) levelAbove)
  | .spliced => .form "if" [isOutermost,
    .form "list" [.quoted "append", .form "second" [.form "first" [.name "exp"]],
      expanding (.form "cdr" [.name "exp"]) (.name "nesting")],
    combining (expanding (.form "car" [.name "exp"]) levelBelow)
      (expanding (.form "cdr" [.name "exp"]) (.name "nesting"))]
  | .plain => combining (expanding (.form "car" [.name "exp"]) (.name "nesting"))
    (expanding (.form "cdr" [.name "exp"]) (.name "nesting"))

/-- The text of the procedure that makes an expression for a template. -/
def expanderText : Datum :=
  .cond
    [(.form "vector?" [.name "exp"],
      .form "list" [.quoted "apply", .quoted "vector",
        expanding (.form "vector->list" [.name "exp"]) (.name "nesting")]),
      (.form "not" [.form "pair?" [.name "exp"]],
        .form "if" [.form "constant?" [.name "exp"], .name "exp",
          .form "list" [.quoted "quote", .name "exp"]]),
      (.form "and" (markTest (.form "car" [.name "exp"]) (.name "exp") "unquote"),
        roleText .unquoted),
      (.form "and" (markTest (.form "car" [.name "exp"]) (.name "exp") "quasiquote"),
        roleText .nested),
      (.form "and" (.form "pair?" [.form "car" [.name "exp"]] ::
          markTest (.form "caar" [.name "exp"]) (.form "car" [.name "exp"]) "unquote-splicing"),
        roleText .spliced)]
    (roleText .plain)

end Datum

namespace Primitive

def caar : Primitive := exactly 1 "caar" (pathOf [.first, .first])
def cadr : Primitive := exactly 1 "cadr" (pathOf [.first, .rest])
def isPair : Primitive := exactly 1 "pair?" (.test .pair)
def isSymbol : Primitive := exactly 1 "symbol?" (.test .symbol)
def isVector : Primitive := exactly 1 "vector?" (.test .vector)
def not : Primitive := exactly 1 "not" .not
def isEq : Primitive := exactly 2 "eq?" (.same .eq)
def isEqv : Primitive := exactly 2 "eqv?" (.same .eqv)
def vectorToList : Primitive := exactly 1 "vector->list" (.vector .toList)
def length : Primitive := exactly 1 "length" (.list .length)
def equals : Primitive := atLeast 2 "=" (.number (.compare .eq))
def plus : Primitive := atLeast 0 "+" (.number .add)
def minus : Primitive := atLeast 1 "-" (.number .subtract)

end Primitive

/-- The global names in the code. -/
def expanderGlobals (conjunction : Ref .closure) : Environment :=
  [("and", .transformer conjunction), ("car", .primitive .car), ("cdr", .primitive .cdr),
    ("caar", .primitive .caar), ("first", .primitive .car), ("second", .primitive .cadr),
    ("pair?", .primitive .isPair), ("null?", .primitive .isNull), ("not", .primitive .not),
    ("symbol?", .primitive .isSymbol), ("vector?", .primitive .isVector),
    ("eq?", .primitive .isEq), ("eqv?", .primitive .isEqv), ("=", .primitive .equals),
    ("+", .primitive .plus), ("-", .primitive .minus), ("length", .primitive .length),
    ("vector->list", .primitive .vectorToList), ("list", .primitive .list),
    ("cons", .primitive .cons), ("eval", .primitive .eval)]

/-- The closures of the expander, and the template it was made for. -/
structure ExpanderRefs where
  conjunction : Ref .closure
  constant : Ref .closure
  combine : Ref .closure
  expand : Ref .closure
  template : Value

namespace ExpanderRefs

/-- All names in the code. -/
def names (refs : ExpanderRefs) : Environment :=
  [("expand-quasiquote", .closure refs.expand), ("combine-skeletons", .closure refs.combine),
    ("constant?", .closure refs.constant), ("x", refs.template)] ++ expanderGlobals refs.conjunction

end ExpanderRefs

namespace Moment

/-- The closures are those of the expander. -/
structure Expander (σ : Moment) (refs : ExpanderRefs) : Prop where
  constant : σ.Procedure refs.constant ["exp"] .constantText refs.names
  combine : σ.Procedure refs.combine ["left", "right", "exp"] .combineText refs.names
  expand : σ.Procedure refs.expand ["exp", "nesting"] .expanderText refs.names

variable {σ σ' : Moment} {refs : ExpanderRefs} {post : Moment → Value → Prop}

theorem Expander.mono (h : σ.Le σ') (hrefs : σ.Expander refs) : σ'.Expander refs where
  constant := hrefs.constant.mono h
  combine := hrefs.combine.mono h
  expand := hrefs.expand.mono h

/-! ## Constants -/

end Moment

/-- Whether the expander takes an expression for a constant. -/
def Heap.isConstant (h : Heap) : Value → Bool
  | .pair r => (h.pair r).first = .symbol .quote
  | .symbol _ => false
  | _ => true

namespace Moment

variable {σ σ' : Moment} {refs : ExpanderRefs} {post : Moment → Value → Prop}

theorem Calls.constant (hrefs : σ.Expander refs) {s : Value} {b : Bool}
    (hb : ∀ σ', σ.Le σ' → σ'.heap.isConstant s = b)
    (hpost : ∀ σ', σ.Le σ' → post σ' (.boolean b)) : σ.Calls (.closure refs.constant) [s] post := by
  refine Calls.closure hrefs.constant rfl (by decide) (by decide) fun σ₁ scope hle => ?_
  have hb₁ := hb σ₁ hle
  have hpost₁ := hpost σ₁ hle
  refine Evals.branch rfl (Evals.looks rfl ?_)
  cases s with
  | pair r =>
      refine Evals.looks rfl ?_
      have hvalue : decide ((σ₁.heap.pair r).first = .symbol .quote) = b := hb₁
      rw [← hvalue] at hpost₁
      exact hpost₁
  | _ =>
      refine Evals.looks rfl ?_
      cases hb₁
      exact hpost₁

/-! ## Expansions -/

/-- The expression is an expansion for the plan. -/
def Expansion (σ : Moment) (s : Value) (plan : Plan) : Prop :=
  ∃ part, Skeleton σ.Cell σ.Still s part ∧ Covers σ.Cell part plan

theorem Expansion.mono (h : σ.Le σ') {s : Value} {plan : Plan} (hs : σ.Expansion s plan) :
    σ'.Expansion s plan := by
  obtain ⟨part, hskeleton, hcovers⟩ := hs
  exact ⟨part, hskeleton.mono h.cells h.stills, hcovers.mono h.cells⟩

/-- An expression that the expander does not take for a constant. -/
inductive Unsettled (σ : Moment) : Value → Prop where
  | name (s : Symbol) : Unsettled σ (.symbol s)
  | form {r : Ref .pair} {head rest : Value} (hpair : σ.Still r ⟨head, rest⟩)
      (hquote : head ≠ .symbol .quote)
      (hlist : head = .symbol ⟨"list"⟩ → σ.Cell r ⟨head, rest⟩) : Unsettled σ (.pair r)

theorem Unsettled.mono (h : σ.Le σ') {s : Value} (hs : σ.Unsettled s) : σ'.Unsettled s := by
  cases hs with
  | name s => exact .name s
  | form hpair hquote hlist =>
      exact .form (h.stills _ _ hpair) hquote fun heq => h.cells _ _ (hlist heq)

theorem Unsettled.isConstant {s : Value} (hs : σ.Unsettled s) : σ.heap.isConstant s = false := by
  cases hs with
  | name s => rfl
  | form hpair hquote _ =>
      simpa only [Heap.isConstant, Heap.pair_eq_of_getElem? hpair.2, decide_eq_false_iff_not]

theorem isConstant_of_quotes {s v : Value} (h : Quotes σ.Cell s v) :
    σ.heap.isConstant s = true := by
  cases h with
  | self hself => cases s <;> first | rfl | cases hself
  | quotation hform _ | bare hform _ =>
      simp only [Heap.isConstant, Heap.pair_eq_of_getElem? hform.2, decide_true]

theorem unsettled_of_items {r : Ref .pair} {head : Symbol} {xs : List Value}
    (h : Items σ.Cell (.pair r) (.symbol head :: xs)) (hquote : head ≠ .quote) :
    σ.Unsettled (.pair r) := by
  cases h with
  | cons hcell _ => exact .form hcell.still (by simpa using hquote) fun _ => hcell

/-- An expansion is a constant with the value that is asked for, or not taken for one. -/
theorem Expansion.cases {s : Value} {plan : Plan} (h : σ.Expansion s plan) :
    (∃ v, Quotes σ.Cell s v ∧ Stands σ.Cell v plan) ∨ σ.Unsettled s := by
  obtain ⟨part, hskeleton, hcovers⟩ := h
  cases hskeleton with
  | self hself =>
      cases hcovers with
      | constant hstands => exact Or.inl ⟨s, .self hself, hstands⟩
  | quoted hitems =>
      cases hcovers with
      | constant hstands =>
          cases hitems with
          | cons hr hrest =>
              cases hrest with
              | cons hr' _ => exact Or.inl ⟨_, .quotation hr hr', hstands⟩
  | hole hlegible =>
      cases hcovers
      cases hlegible with
      | atom hatom =>
          cases s with
          | pair => cases hatom
          | symbol t => exact Or.inr (.name t)
          | _ => exact Or.inl ⟨_, .self rfl, .hole (.self rfl)⟩
      | @form r head rest hpair hlist hquote =>
          by_cases hhead : head = .symbol .quote
          · obtain ⟨v, hv⟩ := hquote hhead
            exact Or.inl ⟨v, hv, .hole hv⟩
          · exact Or.inr (.form hpair hhead hlist)
  | single hitems | cons hitems | append hitems | vector hitems =>
      exact Or.inr (unsettled_of_items hitems (by decide))
  | merged hr => exact Or.inr (.form hr.still (by decide) fun _ => hr)

/-- Whether an expansion is taken for a constant does not change. -/
theorem Expansion.steady {s : Value} {plan : Plan} (h : σ.Expansion s plan) :
    ∃ b, (∀ σ', σ.Le σ' → σ'.heap.isConstant s = b) ∧
      (b = true → ∃ v, Quotes σ.Cell s v ∧ Stands σ.Cell v plan) := by
  rcases h.cases with ⟨v, hv, hstands⟩ | hunsettled
  · exact ⟨true, fun σ' hle => isConstant_of_quotes (hv.mono hle.cells),
      fun _ => ⟨v, hv, hstands⟩⟩
  · exact ⟨false, fun σ' hle => (hunsettled.mono hle).isConstant, fun h => by cases h⟩

theorem yields_of_quotes {s v : Value} (h : Quotes σ.Cell s v) (scope : Ref .scope) :
    Evaluator.Yields s scope σ.world v σ.world := by
  cases h with
  | self hself => exact .selfEvaluating hself
  | @quotation r r' v rest hform hoperand =>
      have hvalue : σ.world.heap.first (.pair r') = v := hoperand.first_eq
      rw [← hvalue]
      exact .quotation (Heap.pair_eq_of_getElem? hform.2)
  | @bare r rest hform hrest =>
      have hvalue : σ.world.heap.first rest = .nil := by
        cases rest <;> first | rfl | cases hrest
      rw [← hvalue]
      exact .quotation (Heap.pair_eq_of_getElem? hform.2)

/-- A constant that counts as the same as a part of the template is that part. -/
theorem eq_of_eqv {s v a : Value} (h : Quotes σ.Cell s v) (hsame : v.eqv a = true)
    (hnumber : ∀ x, a = .number x → s = a) : v = a := by
  unfold Value.eqv at hsame
  split at hsame
  · rename_i x y
    cases hnumber y rfl
    cases h
    rfl
  · simpa using hsame

/-! ## Combining expansions -/

/-- The names in a call of the procedure that combines expansions. -/
def combineNames (refs : ExpanderRefs) (left right exp : Value) : Environment :=
  ["left", "right", "exp"].zip [left, right, exp] ++ refs.names

section

variable {left right exp : Value} {scope : Ref .scope}

/-- Both expressions are tested. -/
theorem Evals.areConstants (hrefs : σ.Expander refs) {b b' : Bool}
    (hleft : ∀ σ', σ.Le σ' → σ'.heap.isConstant left = b)
    (hright : ∀ σ', σ.Le σ' → σ'.heap.isConstant right = b') :
    σ.Evals (combineNames refs left right exp) scope
      (.form "and" [.form "constant?" [.name "left"], .form "constant?" [.name "right"]])
      fun _ v => v = .boolean (b && b') := by
  refine Evals.conjunction rfl rfl fun σ₁ hle₁ => ?_
  refine Evals.call rfl rfl rfl (Evals.looks rfl ?_)
  refine Calls.constant (hrefs.mono hle₁) (fun σ' hle' => hleft σ' (hle₁.trans hle'))
    fun σ₂ hle₂ => ?_
  cases b with
  | false => rfl
  | true =>
      intro σ₃ hle₃
      have hle := (hle₁.trans hle₂).trans hle₃
      refine Evals.call rfl rfl rfl (Evals.looks rfl ?_)
      refine Calls.constant (hrefs.mono hle) (fun σ' hle' => hright σ' (hle.trans hle'))
        fun σ₄ _ => rfl

/-- The expression that a name stands for is evaluated. -/
theorem Evals.constantValue {name : String} {s v : Value} (hplain : Datum.isCall "eval" [.name name] = true)
    (hname : (combineNames refs left right exp).lookup name = some s) (hs : Quotes σ.Cell s v)
    (hpost : post σ v) :
    σ.Evals (combineNames refs left right exp) scope (.form "eval" [.name name]) post := by
  refine Evals.call hplain rfl rfl (Evals.looks hname ?_)
  exact Calls.eval ⟨σ, v, yields_of_quotes hs .global, .refl σ, hpost⟩

theorem expansion_of_quoted {s v : Value} {plan : Plan}
    (hitems : Items σ.Cell s [.symbol .quote, v]) (hv : Stands σ.Cell v plan) :
    σ.Expansion s plan := by
  cases hitems with
  | cons hr hrest => exact ⟨.constant v, .quoted (.cons hr hrest), .constant hv⟩

variable {a d lv rv : Value} {r : Ref .pair} {p q : Plan}

/-- The constants are the parts of a new pair. -/
theorem Evals.foldAnew (hlv : Quotes σ.Cell left lv) (hp : Stands σ.Cell lv p)
    (hrv : Quotes σ.Cell right rv) (hq : Stands σ.Cell rv q)
    (hpost : ∀ σ' s, σ.Le σ' → σ'.Expansion s (.pair p q) → post σ' s) :
    σ.Evals (combineNames refs left right exp) scope
      (.form "list" [.quoted "quote",
        .form "cons" [.form "eval" [.name "left"], .form "eval" [.name "right"]]]) post := by
  refine Evals.call rfl rfl rfl (Evals.looks rfl (Evals.call rfl rfl rfl
    (Evals.constantValue rfl rfl hlv (Evals.constantValue rfl rfl hrv (Calls.cons ?_)))))
  intro σ₁ r₁ hle₁ hcell
  refine Calls.list fun σ₂ s hle₂ hitems => ?_
  have hle := hle₁.trans hle₂
  exact hpost σ₂ s hle (expansion_of_quoted hitems (.pair (hle₂.cells _ _ hcell)
    (hp.mono hle.cells) (hq.mono hle.cells)))

theorem Evals.fold (hexp : σ.Cell r ⟨a, d⟩) (hlv : Quotes σ.Cell left lv)
    (hp : Stands σ.Cell lv p) (hrv : Quotes σ.Cell right rv)
    (hq : Stands σ.Cell rv q) (ha : ∀ x, a = .number x → left = a)
    (hd : ∀ x, d = .number x → right = d)
    (hpost : ∀ σ' s, σ.Le σ' → σ'.Expansion s (.pair p q) → post σ' s) :
    σ.Evals (combineNames refs left right (.pair r)) scope .foldText post := by
  refine Evals.branch rfl (Evals.conjunction rfl rfl fun σ₁ hle₁ => ?_)
  have hanew : ∀ σ', σ.Le σ' → σ'.Evals (combineNames refs left right (.pair r)) scope
      (.form "list" [.quoted "quote",
        .form "cons" [.form "eval" [.name "left"], .form "eval" [.name "right"]]]) post :=
    fun σ' hle => Evals.foldAnew (hlv.mono hle.cells) (hp.mono hle.cells)
      (hrv.mono hle.cells) (hq.mono hle.cells)
      fun σ'' s hle' hs => hpost σ'' s (hle.trans hle') hs
  refine Evals.call rfl rfl rfl (Evals.constantValue rfl rfl (hlv.mono hle₁.cells)
    (Evals.looks rfl (Calls.looks rfl ?_)))
  change if (Value.boolean (lv.eqv (σ₁.heap.first (.pair r)))).isTrue then _ else _
  rw [(hle₁.cells _ _ hexp).first_eq]
  cases hleft : lv.eqv a with
  | false => exact hanew σ₁ hle₁
  | true =>
      intro σ₂ hle₂
      have hle := hle₁.trans hle₂
      refine Evals.call rfl rfl rfl (Evals.constantValue rfl rfl (hrv.mono hle.cells)
        (Evals.looks rfl (Calls.looks rfl ?_)))
      change σ₂.Evals _ _ (if (Value.boolean (rv.eqv (σ₂.heap.rest (.pair r)))).isTrue then _ else _)
        _
      rw [(hle.cells _ _ hexp).rest_eq]
      cases hright : rv.eqv d with
      | false => exact hanew σ₂ hle
      | true =>
          obtain rfl := eq_of_eqv hlv hleft ha
          obtain rfl := eq_of_eqv hrv hright hd
          refine Evals.call rfl rfl rfl (Evals.looks rfl (Evals.looks rfl (Calls.list ?_)))
          intro σ₃ s hle₃ hitems
          have hle' := hle.trans hle₃
          exact hpost σ₃ s hle' (expansion_of_quoted hitems (.pair (hle'.cells _ _ hexp)
            (hp.mono hle'.cells) (hq.mono hle'.cells)))

theorem Evals.consCall (hleft : σ.Expansion left p) (hright : σ.Expansion right q)
    (hpost : ∀ σ' s, σ.Le σ' → σ'.Expansion s (.pair p q) → post σ' s) :
    σ.Evals (combineNames refs left right exp) scope
      (.form "list" [.quoted "cons", .name "left", .name "right"]) post := by
  refine Evals.call rfl rfl rfl (Evals.looks rfl (Evals.looks rfl (Evals.looks rfl (Calls.list ?_))))
  intro σ₁ s hle hitems
  obtain ⟨part, hskeleton, hcovers⟩ := hleft.mono hle
  obtain ⟨part', hskeleton', hcovers'⟩ := hright.mono hle
  cases hitems with
  | cons hr hrest =>
      exact hpost σ₁ _ hle
        ⟨.pair part part', .cons (.cons hr hrest) hskeleton hskeleton', .pair hcovers hcovers'⟩

theorem Evals.listCall (hleft : σ.Expansion left p) (hright : σ.Expansion .nil q)
    (hpost : ∀ σ' s, σ.Le σ' → σ'.Expansion s (.pair p q) → post σ' s) :
    σ.Evals (combineNames refs left right exp) scope
      (.form "list" [.quoted "list", .name "left"]) post := by
  refine Evals.call rfl rfl rfl (Evals.looks rfl (Evals.looks rfl (Calls.list ?_)))
  intro σ₁ s hle hitems
  obtain ⟨part, hskeleton, hcovers⟩ := hleft.mono hle
  obtain ⟨part', hskeleton', hcovers'⟩ := hright.mono hle
  cases hitems with
  | cons hr hrest =>
      exact hpost σ₁ _ hle
        ⟨.pair part part', .single (.cons hr hrest) hskeleton hskeleton', .pair hcovers hcovers'⟩

theorem Evals.mergedCall {x : Ref .pair} {rest : Value} (hleft : σ.Expansion left p)
    (hright : σ.Expansion (.pair x) q) (hx : σ.Cell x ⟨.symbol ⟨"list"⟩, rest⟩)
    (hpost : ∀ σ' s, σ.Le σ' → σ'.Expansion s (.pair p q) → post σ' s) :
    σ.Evals (combineNames refs left (.pair x) exp) scope
      (.form "cons" [.quoted "list", .form "cons" [.name "left", .form "cdr" [.name "right"]]])
      post := by
  refine Evals.call rfl rfl rfl (Evals.looks rfl (Evals.call rfl rfl rfl (Evals.looks rfl
    (Evals.looks rfl (Calls.cons ?_)))))
  intro σ₁ r' hle₁ hr'
  refine Calls.cons fun σ₂ r hle₂ hr => ?_
  change σ₁.Cell r' ⟨left, σ.heap.rest (.pair x)⟩ at hr'
  rw [hx.rest_eq] at hr'
  have hle := hle₁.trans hle₂
  obtain ⟨part, hskeleton, hcovers⟩ := hleft.mono hle
  obtain ⟨part', hskeleton', hcovers'⟩ := hright.mono hle
  exact hpost σ₂ _ hle ⟨.pair part part', .merged hr (hle₂.cells _ _ hr') hskeleton
    (hle.cells _ _ hx) hskeleton', .pair hcovers hcovers'⟩

/-- The first pair of an expansion is there, and a call of `list` is a cell. -/
theorem Expansion.head {x : Ref .pair} (h : σ.Expansion (.pair x) q) :
    ∃ head rest, σ.Still x ⟨head, rest⟩ ∧ (head = .symbol ⟨"list"⟩ → σ.Cell x ⟨head, rest⟩) := by
  rcases h.cases with ⟨v, hquotes, -⟩ | hunsettled
  · cases hquotes with
    | self hself => cases hself
    | quotation hform _ | bare hform _ => exact ⟨_, _, hform.still, fun h => absurd h (by decide)⟩
  · cases hunsettled with
    | form hpair _ hlist => exact ⟨_, _, hpair, hlist⟩

theorem EvalsClauses.calls (hleft : σ.Expansion left p) (hright : σ.Expansion right q)
    (hpost : ∀ σ' s, σ.Le σ' → σ'.Expansion s (.pair p q) → post σ' s) :
    EvalsClauses (combineNames refs left right exp) scope
      (.form "list" [.quoted "cons", .name "left", .name "right"]) post Datum.callClauses σ := by
  have hcons : ∀ σ', σ.Le σ' → σ'.Evals (combineNames refs left right exp) scope
      (.form "list" [.quoted "cons", .name "left", .name "right"]) post :=
    fun σ' hle => Evals.consCall (hleft.mono hle) (hright.mono hle)
      fun σ'' s hle' hs => hpost σ'' s (hle.trans hle') hs
  refine Evals.looks rfl ?_
  cases right with
  | nil =>
      intro σ₁ hle₁
      exact Evals.listCall (hleft.mono hle₁) (hright.mono hle₁)
        fun σ' s hle' hs => hpost σ' s (hle₁.trans hle') hs
  | pair x =>
      obtain ⟨head, rest, hstill, hcell⟩ := hright.head
      refine Evals.conjunction rfl rfl fun σ₁ hle₁ => Evals.looks rfl fun σ₂ hle₂ => ?_
      have hle := hle₁.trans hle₂
      refine Evals.looks rfl ?_
      change if (Value.boolean (decide (σ₂.heap.first (.pair x) = .symbol ⟨"list"⟩))).isTrue then _
        else _
      rw [(hle.stills _ _ hstill).first_eq]
      by_cases hhead : head = .symbol ⟨"list"⟩
      · rw [decide_eq_true hhead]
        intro σ₃ hle₃
        have hle' := hle.trans hle₃
        subst hhead
        exact Evals.mergedCall (hleft.mono hle') (hright.mono hle') (hle'.cells _ _ (hcell rfl))
          fun σ' s hle'' hs => hpost σ' s (hle'.trans hle'') hs
      · rw [decide_eq_false hhead]
        exact fun σ₃ hle₃ => hcons σ₃ (hle.trans hle₃)
  | _ =>
      refine Evals.conjunction rfl rfl fun σ₁ hle₁ => Evals.looks rfl ?_
      exact fun σ₂ hle₂ => hcons σ₂ (hle₁.trans hle₂)

end

/-- The expansion for a pair of the template is made of those for its parts. -/
theorem Calls.combine (hrefs : σ.Expander refs) {left right a d : Value} {r : Ref .pair}
    {p q : Plan} (hexp : σ.Cell r ⟨a, d⟩) (hleft : σ.Expansion left p)
    (hright : σ.Expansion right q) (ha : ∀ x, a = .number x → left = a)
    (hd : ∀ x, d = .number x → right = d)
    (hpost : ∀ σ' s, σ.Le σ' → σ'.Expansion s (.pair p q) → post σ' s) :
    σ.Calls (.closure refs.combine) [left, right, .pair r] post := by
  refine Calls.closure hrefs.combine rfl (by decide) (by decide) fun σ₁ scope hle₁ => ?_
  change σ₁.Evals (combineNames refs left right (.pair r)) scope _ _
  obtain ⟨b, hb, hl⟩ := (hleft.mono hle₁).steady
  obtain ⟨b', hb', hr⟩ := (hright.mono hle₁).steady
  refine Evals.cond rfl (Evals.imp (Evals.areConstants (hrefs.mono hle₁) hb hb') ?_)
  rintro σ₂ _ hle₂ rfl
  cases hboth : b && b' with
  | false =>
      have hle := hle₁.trans hle₂
      exact EvalsClauses.calls (hleft.mono hle) (hright.mono hle)
        fun σ' s hle' hs => hpost σ' s (hle.trans hle') hs
  | true =>
      rw [Bool.and_eq_true] at hboth
      obtain ⟨lv, hlv, hp⟩ := hl hboth.1
      obtain ⟨rv, hrv, hq⟩ := hr hboth.2
      intro σ₃ hle₃
      have hle := hle₂.trans hle₃
      exact Evals.fold ((hle₁.trans hle).cells _ _ hexp) (hlv.mono hle.cells)
        (hp.mono hle.cells) (hrv.mono hle.cells) (hq.mono hle.cells) ha hd
        fun σ' s hle' hs => hpost σ' s ((hle₁.trans hle).trans hle') hs

end Moment

end Scheme
