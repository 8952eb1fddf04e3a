import Scheme.Proofs.Conjunctions
/-!
# Disjunctions

Fixed code may map a procedure over lists that stay as they are. The transformer for disjunctions
does: it makes a `cond` with a clause for each operand.
-/

namespace Scheme

/-! ## Mappings in fixed code -/

/-- Lists side by side, up to where one of them ends, and the rows that are read off them. -/
inductive Rows (cell : Ref .pair → Pair → Prop) : List Value → List (List Value) → Prop where
  | nil {lists : List Value} (h : (!lists.isEmpty && lists.all Value.isPair) = false) :
      Rows cell lists []
  | cons {cells : List (Ref .pair × Pair)} {rows : List (List Value)} (hne : cells ≠ [])
      (hcells : ∀ c ∈ cells, cell c.1 c.2) (hrest : Rows cell (cells.map (·.2.rest)) rows) :
      Rows cell (cells.map fun c => .pair c.1) (cells.map (·.2.first) :: rows)

theorem Rows.mono {cell cell' : Ref .pair → Pair → Prop} (hcells : ∀ r p, cell r p → cell' r p)
    {lists : List Value} {rows : List (List Value)} (h : Rows cell lists rows) :
    Rows cell' lists rows := by
  induction h with
  | nil h => exact .nil h
  | cons hne hcell _ ih => exact .cons hne (fun c hc => hcells _ _ (hcell c hc)) ih

/-- The rows of a single list. -/
theorem Items.rows {cell : Ref .pair → Pair → Prop} {v : Value} {xs : List Value}
    (h : Items cell v xs) : Rows cell [v] (xs.map fun x => [x]) := by
  induction h with
  | nil => exact .nil rfl
  | @cons r item rest items hcell _ ih =>
      have hcells : ∀ c ∈ [(r, (⟨item, rest⟩ : Pair))], cell c.1 c.2 := by simpa using hcell
      exact .cons (List.cons_ne_nil _ _) hcells ih

namespace Primitive

def map : Primitive := ⟨"map", .control .map, 1, none⟩

end Primitive

namespace Evaluator

variable {f v : Value} {vs : List Value} {w w' : World}

/-- A procedure does the same for a primitive that calls it as it does in a call of its own. -/
theorem CallYields.apply (h : CallYields f vs w v w') :
    Settles (fun time => (within time).apply f vs w) v w' := by
  cases f with
  | closure => exact Settles.later h
  | _ => exact h

end Evaluator

namespace Moment

open Evaluator

variable {σ : Moment} {f : Value}

/-- The procedure is called on each row, one after the other. -/
def CallsAll (f : Value) : List (List Value) → Moment → (Moment → List Value → Prop) → Prop
  | [], σ, post => post σ []
  | row :: rows, σ, post => σ.Calls f row fun σ v =>
    CallsAll f rows σ fun σ vs => post σ (v :: vs)

theorem CallsAll.settles {lists : List Value} {rows : List (List Value)}
    {post : Moment → List Value → Prop} (hrows : Rows σ.Cell lists rows)
    (h : CallsAll f rows σ post) (results : List Value) :
    ∃ σ' vs, Settles (fun time => (within time).mapping f true time lists results σ.world)
        (σ'.heap.list (results.reverse ++ vs)).1
        { σ'.world with heap := (σ'.heap.list (results.reverse ++ vs)).2 } ∧
      σ.Le σ' ∧ post σ' vs := by
  induction rows generalizing σ lists results post with
  | nil =>
      cases hrows with
      | nil hend =>
          refine ⟨σ, [], Settles.later ?_, .refl σ, h⟩
          simp only [mapping, hend, Bool.false_eq_true, if_false, List.append_nil]
          exact Settles.action rfl
  | cons row rows ih =>
      cases hrows with
      | @cons cells _ hne hcells hrest =>
          obtain ⟨σ₁, v, hcall, hle, hnext⟩ := h
          obtain ⟨σ', vs, hothers, hle', hpost⟩ := ih (hrest.mono hle.cells) hnext (v :: results)
          refine ⟨σ', v :: vs, Settles.later ?_, hle.trans hle', hpost⟩
          have hmore : (!(cells.map fun c => Value.pair c.1).isEmpty &&
              (cells.map fun c => Value.pair c.1).all Value.isPair) = true := by
            cases cells with
            | nil => exact absurd rfl hne
            | cons => simp [Value.isPair]
          have hfirsts : (cells.map fun c => Value.pair c.1).map σ.world.heap.first =
              cells.map (·.2.first) := by
            rw [List.map_map]
            exact List.map_congr_left fun c hc => (hcells c hc).first_eq
          have hrests : (cells.map fun c => Value.pair c.1).map σ.world.heap.rest =
              cells.map (·.2.rest) := by
            rw [List.map_map]
            exact List.map_congr_left fun c hc => (hcells c hc).rest_eq
          simp only [mapping, hmore, if_true, hfirsts, hrests]
          refine Settles.andThen hcall.apply.shift ?_
          rw [List.reverse_cons, List.append_assoc] at hothers
          exact hothers.mono fun time =>
            (within_le (Nat.le_succ time)).mapping (Nat.le_refl time) _ _ _ _ _

/-- A mapping makes a new list of the results. -/
theorem Calls.map {lists : List Value} {rows : List (List Value)} {post : Moment → Value → Prop}
    (hrows : Rows σ.Cell lists rows)
    (h : CallsAll f rows σ fun σ vs => ∀ σ' v, σ.Le σ' → Items σ'.Cell v vs → post σ' v) :
    σ.Calls (.primitive .map) (f :: lists) post := by
  obtain ⟨σ₁, vs, hsettles, hle, hpost⟩ := h.settles hrows []
  obtain ⟨σ₂, hworld, hle', hitems⟩ := σ₁.exists_list vs
  refine ⟨σ₂, _, .primitive (Primitive.checkCount_eq ?_ _) ?_, hle.trans hle',
    hpost σ₂ _ hle' hitems⟩
  · simp [Primitive.takes, Primitive.map]
  · rw [hworld]
    exact hsettles

end Moment

/-! ## The transformer for disjunctions -/

/-- The text of the transformer for disjunctions. -/
def disjunctionText : Datum :=
  .form "if" [.form "null?" [.name "args"], .boolean false,
    .form "cons" [.quoted "cond", .form "map" [.name "list", .name "args"]]]

/-- The names in that text. -/
def disjunctionNames : Environment :=
  [("null?", .primitive .isNull), ("cons", .primitive .cons), ("map", .primitive .map),
    ("list", .primitive .list)]

namespace Moment

open Evaluator

variable {σ : Moment}

/-- Clauses without bodies, one for each of the expressions. -/
def Tests (σ : Moment) (v : Value) (xs : List Value) : Prop :=
  ∃ clauses, Items σ.Cell v clauses ∧ List.Forall₂ (fun c x => Items σ.Cell c [x]) clauses xs

theorem callsAll_list (xs : List Value) {post : Moment → List Value → Prop}
    (h : ∀ σ' vs, σ.Le σ' → List.Forall₂ (fun c x => Items σ'.Cell c [x]) vs xs → post σ' vs) :
    CallsAll (.primitive .list) (xs.map fun x => [x]) σ post := by
  induction xs generalizing σ post with
  | nil => exact h σ [] (.refl σ) .nil
  | cons x xs ih =>
      refine Calls.list fun σ₁ c hle hc => ih fun σ₂ cs hle' hcs => ?_
      exact h σ₂ (c :: cs) (hle.trans hle') (.cons (hc.mono hle'.cells) hcs)

/-- What the expansion of a disjunction is. -/
def Clauses (σ : Moment) (v : Value) (xs : List Value) : Prop :=
  xs = [] ∧ v = .boolean false ∨
    xs ≠ [] ∧ ∃ r clauses, v = .pair r ∧ σ.Cell r ⟨.symbol ⟨"cond"⟩, clauses⟩ ∧ σ.Tests clauses xs

theorem evals_disjunctionText {scope : Ref .scope} {args : Value} {xs : List Value}
    (hargs : Items σ.Cell args xs) :
    σ.Evals ([("args", args)] ++ disjunctionNames) scope disjunctionText fun σ' v =>
      σ'.Clauses v xs := by
  refine Evals.branch rfl (Evals.looks rfl ?_)
  cases hargs with
  | nil => exact Evals.looks rfl (Or.inl ⟨rfl, rfl⟩)
  | @cons r x rest xs hcell hrest =>
      refine Evals.call rfl rfl rfl (Evals.looks rfl ?_)
      refine Evals.call rfl rfl rfl (Evals.looks rfl (Evals.looks rfl ?_))
      refine Calls.map (Items.cons hcell hrest).rows (callsAll_list (x :: xs) ?_)
      intro σ₁ cs hle hcs σ₂ v hle' hv
      refine Calls.cons fun σ₃ r' hle'' hr' => Or.inr ⟨List.cons_ne_nil _ _, r', v, rfl, hr', cs, ?_, ?_⟩
      · exact hv.mono hle''.cells
      · exact hcs.imp fun c x hc => hc.mono (hle'.trans hle'').cells

theorem expands_disjunction {c : Ref .closure} {body : Value} {parent : Ref .scope}
    {name : Option Symbol}
    (hclosure : σ.heap.closures[c.index]? = some ⟨⟨[], some ⟨"args"⟩⟩, body, parent, name⟩)
    (hbody : σ.Code body disjunctionText) (hbinds : σ.Binds parent disjunctionNames)
    (xs : List Value) :
    ∃ inner w₁ σ' v,
      σ.world.enter (σ.world.heap.closure c).parameters xs (σ.world.heap.closure c).scope =
        (inner, w₁) ∧
      Yields (σ.world.heap.closure c).body inner w₁ v σ'.world ∧ σ.Le σ' ∧ σ'.Clauses v xs :=
  expands_operands hclosure hbody hbinds rfl xs fun _ _ _ => evals_disjunctionText

end Moment

end Scheme
