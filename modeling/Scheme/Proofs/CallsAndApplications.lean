import Scheme.Proofs.Agreement
import Scheme.Proofs.Evaluations
import Scheme.Proofs.ProperLists
/-!
# Calls and applications

A closure is called in two ways: on the current level where a form calls it, and on a level of its
own where it is applied. Both come to the same end, and so does an application whose last arguments
are spread from a list.
-/

namespace Scheme

open Step

/-! ## Forms made of quotations -/

/-- The value is a list of quotations of the values. -/
def Heap.QuotesAll (h : Heap) (x : Value) (vs : List Value) : Prop :=
  ∃ forms, h.Lists x forms ∧ List.Forall₂ (fun form v => h.Lists form [.symbol .quote, v]) forms vs

namespace Evaluator

variable {w : World} {x f v : Value} {vs : List Value}

theorem Yields.quoted (hx : w.heap.Lists x [.symbol .quote, v]) (scope : Ref .scope) :
    Yields x scope w v w := by
  obtain ⟨site, operands, rfl, hcell, hoperands⟩ := hx.exists_pair
  obtain ⟨r, rest, rfl, hquoted, -⟩ := hoperands.exists_pair
  have hyields : Yields (.pair site) scope w _ w := Yields.quotation hcell
  simpa only [Heap.first, hquoted] using hyields

theorem OperandsYield.quoted (hx : w.heap.QuotesAll x vs) (all : Value) (scope : Ref .scope) :
    OperandsYield x all scope w vs w := by
  obtain ⟨forms, hlists, hforms⟩ := hx
  induction hforms generalizing x with
  | nil =>
      cases hlists
      exact OperandsYield.nil all scope w
  | cons hform _ ih =>
      obtain ⟨r, rest, rfl, hcell, hrest⟩ := hlists.exists_pair
      exact OperandsYield.cons hcell (Yields.quoted hform scope) (ih hrest)

/-- Evaluating a call of a quoted procedure on quoted arguments comes down to the call. -/
theorem sameEnds_eval_call (hx : w.heap.QuotesAll x (f :: vs)) (hf : f.isTransformer = false)
    (scope : Ref .scope) :
    Attempt.SameEnds (fun time => (within time).eval x scope w)
      fun time => (within time).call f vs w := by
  obtain ⟨forms, hlists, hforms⟩ := hx
  cases hforms with
  | @cons operator _ forms _ hoperator hforms =>
      obtain ⟨site, rest, rfl, hcell, hrest⟩ := hlists.exists_pair
      obtain ⟨r, _, rfl, -, -⟩ := hoperator.exists_pair
      obtain ⟨least, hyields⟩ := Yields.quoted hoperator scope
      obtain ⟨least', hoperands⟩ := OperandsYield.quoted ⟨forms, hrest, hforms⟩ rest scope
      refine .of_eventually (steady_eval _ scope w) (steady_call f vs w) (max least least') 1 ?_
      intro time htime
      have hcombination : (within (time + 1)).eval (.pair site) scope w =
          (within time).combination time site (.pair r) rest scope w := by
        simp only [within, reduce, hcell]
      have hprocedure : (within time).eval (.pair r) scope w = _ := hyields time (by omega)
      have harguments : (within time).operands time rest rest scope w = _ :=
        hoperands time (by omega)
      have hcall : ((within time).operands time rest rest scope w).andThen
          (fun arguments w => (within time).call f arguments w) = (within time).call f vs w := by
        rw [harguments]
        rfl
      rw [hcombination, combination, hprocedure]
      cases f with
      | transformer => cases hf
      | _ => exact hcall

/-! ## Applications -/

/-- An application leads to a call: for a closure it takes one level more. -/
theorem sameEnds_apply_call (hf : f.isTransformer = false) (vs : List Value) (w : World) :
    Attempt.SameEnds (fun time => (within time).apply f vs w)
      fun time => (within time).call f vs w := by
  cases f with
  | transformer => cases hf
  | closure ref =>
      exact .of_eventually (steady_apply _ vs w) (steady_call _ vs w) 0 1 fun time _ => rfl
  | _ => exact .of_eventually (steady_apply _ vs w) (steady_call _ vs w) 0 0 fun time _ => rfl

end Evaluator

/-- An application with its last arguments in a list leads to the application to all of them. -/
theorem Step.steps_spread {p : Primitive} (hp : p ∈ Primitive.table) (hname : p.name = "apply")
    {w : World} {last : Value} {others : List Value} (hlast : w.heap.Lists last others) (f : Value)
    (vs : List Value) (stack : List Pending) :
    (go (.apply (.primitive p) (f :: vs ++ [last])) stack w).steps 1 =
      go (.apply f (vs ++ others)) stack w := by
  obtain ⟨-, -, hspreads, -⟩ := Primitive.of_list_name p hp
  have hstep := apply_spreading f vs last stack w
  rw [after, World.elements_eq hlast, ← hspreads hname] at hstep
  exact hstep

/-- Evaluating a call of a quoted procedure on quoted arguments, applying the procedure to the
arguments, and applying `apply` to the procedure, some of the arguments and the list of the others
come to the same end with the same effects, unless the limit of nesting stops them. -/
theorem Step.calls_agree_with_applications {w : World} {x f last : Value} {vs : List Value}
    {k : Nat} (scope : Ref .scope) (hf : f.isTransformer = false)
    (hx : w.heap.QuotesAll x (f :: vs)) (hlast : w.heap.Lists last (vs.drop k)) {p : Primitive}
    (hp : p ∈ Primitive.table) (hname : p.name = "apply") :
    let called := go (.eval x scope) [] w
    let applied := go (.apply f vs) [] w
    let spread := go (.apply (.primitive p) (f :: vs.take k ++ [last])) [] w
    (¬ called.Deepens → ¬ applied.Deepens → called.Agree applied) ∧
      (¬ applied.Deepens → ¬ spread.Deepens → applied.Agree spread) ∧
      (¬ called.Deepens → ¬ spread.Deepens → called.Agree spread) := by
  intro called applied spread
  have hcalled := Evaluator.enacts_eval x scope w w.depth w.maxDepth
  have happlied := Evaluator.enacts_apply f vs w w.depth w.maxDepth
  rw [World.onLevel_self] at hcalled happlied
  have hspread : spread.Enacts w.depth w.maxDepth
      fun time => (Evaluator.within time).apply f vs w := by
    refine Enacts.of_steps (n := 1) ?_
    rw [steps_spread hp hname hlast, List.take_append_drop]
    exact happlied
  have hsame := (Evaluator.sameEnds_eval_call hx hf scope).trans
    (Evaluator.sameEnds_apply_call hf vs w).symm
  exact ⟨hcalled.agree happlied hsame, happlied.agree hspread fun r => Iff.rfl,
    hcalled.agree hspread hsame⟩

/-- A world with the form `('f '#t '#f)` in pair 0, where `f` has the parameters `a` and `b` and the
body `(cons b a)`, and with the list `(#f)` in pair 9. -/
def World.withQuotedCall : World where
  heap :=
    { pairs := #[
        ⟨.pair ⟨3⟩, .pair ⟨1⟩⟩, ⟨.pair ⟨5⟩, .pair ⟨2⟩⟩, ⟨.pair ⟨7⟩, .nil⟩,
        -- the quotations
        ⟨.symbol .quote, .pair ⟨4⟩⟩, ⟨.closure ⟨0⟩, .nil⟩, ⟨.symbol .quote, .pair ⟨6⟩⟩,
        ⟨.boolean true, .nil⟩, ⟨.symbol .quote, .pair ⟨8⟩⟩, ⟨.boolean false, .nil⟩,
        -- the list and the body
        ⟨.boolean false, .nil⟩, ⟨.primitive (.exactly 2 "cons" (.list .cons)), .pair ⟨11⟩⟩,
        ⟨.symbol ⟨"b"⟩, .pair ⟨12⟩⟩, ⟨.symbol ⟨"a"⟩, .nil⟩]
      scopes := #[⟨{}, none⟩]
      closures := #[⟨⟨[⟨"a"⟩, ⟨"b"⟩], none⟩, .pair ⟨10⟩, .global, none⟩] }
  host := nowhere
  maxDepth := 2

/-- A closure that is called, applied, and applied to arguments of which the last is in a list. -/
theorem Step.call_of_cons_agrees :
    let w := World.withQuotedCall
    let called := go (.eval (.pair ⟨0⟩) .global) [] w
    let applied := go (.apply (.closure ⟨0⟩) [.boolean true, .boolean false]) [] w
    let spread := go (.apply (.primitive ⟨"apply", .control .apply, 2, none⟩)
      [.closure ⟨0⟩, .boolean true, .pair ⟨9⟩]) [] w
    (w.heap.QuotesAll (.pair ⟨0⟩) [.closure ⟨0⟩, .boolean true, .boolean false] ∧
      w.heap.Lists (.pair ⟨9⟩) [.boolean false]) ∧
    (¬ called.Deepens ∧ ¬ applied.Deepens ∧ ¬ spread.Deepens) ∧
    called.Agree applied ∧ applied.Agree spread ∧ called.Agree spread ∧
    ∃ w', w'.heap.pair ⟨13⟩ = ⟨.boolean false, .boolean true⟩ ∧
      called.Ends (.value (.pair ⟨13⟩)) w' ∧ applied.Ends (.value (.pair ⟨13⟩)) w' ∧
      spread.Ends (.value (.pair ⟨13⟩)) w' := by
  intro w called applied spread
  have hlast : w.heap.Lists (.pair ⟨9⟩) [.boolean false] := .cons rfl .nil
  have hform : w.heap.QuotesAll (.pair ⟨0⟩) [.closure ⟨0⟩, .boolean true, .boolean false] :=
    ⟨[.pair ⟨3⟩, .pair ⟨5⟩, .pair ⟨7⟩], .cons rfl (.cons rfl (.cons rfl .nil)),
      .cons (.cons rfl (.cons rfl .nil)) (.cons (.cons rfl (.cons rfl .nil))
        (.cons (.cons rfl (.cons rfl .nil)) .nil))⟩
  have hends : ∃ w', w'.heap.pair ⟨13⟩ = ⟨.boolean false, .boolean true⟩ ∧
      called.Ends (.value (.pair ⟨13⟩)) w' ∧ applied.Ends (.value (.pair ⟨13⟩)) w' ∧
      spread.Ends (.value (.pair ⟨13⟩)) w' :=
    ⟨_, rfl, ⟨40, rfl⟩, ⟨40, rfl⟩, ⟨40, rfl⟩⟩
  obtain ⟨w', hpair, hcalled, happlied, hspread⟩ := hends
  have hcalls := hcalled.fits ⟨by simp, by simp⟩
  have happlies := happlied.fits ⟨by simp, by simp⟩
  have hspreads := hspread.fits ⟨by simp, by simp⟩
  obtain ⟨hfirst, hsecond, hthird⟩ := calls_agree_with_applications (k := 1) .global rfl hform
    hlast (p := ⟨"apply", .control .apply, 2, none⟩) (by decide +kernel) rfl
  exact ⟨⟨hform, hlast⟩, ⟨hcalls, happlies, hspreads⟩, hfirst hcalls happlies,
    hsecond happlies hspreads, hthird hcalls hspreads, w', hpair, hcalled, happlied, hspread⟩

end Scheme
