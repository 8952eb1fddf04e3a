import Scheme.Proofs.CodeRuns
import Scheme.Proofs.ProperLists
/-!
# Conjunctions

A conjunction is replaced by its expansion when it is evaluated for the first time. Whether it has
been replaced or not, its operands are evaluated in order up to the first that is false.
-/

namespace Scheme

/-- No part of the text is a conjunction. -/
def Datum.isFree : Datum → Bool
  | .pair first rest => !isConjunction first rest && first.isFree && rest.isFree
  | _ => true

/-- A form that is no conjunction. -/
def Datum.isPlainForm : Datum → Bool
  | .pair first rest => !isConjunction first rest
  | _ => false

namespace Moment

open Evaluator

variable {σ σ' : Moment} {env : Environment} {scope : Ref .scope} {text : Datum}
  {post : Moment → Value → Prop}

/-- Code without conjunctions lies in known pairs. -/
theorem Code.of_cells {text : Datum} (hfree : text.isFree = true) (hcells : ∀ r p, σ.Cell r p → σ'.Cell r p)
    {v : Value} (h : σ.Code v text) : σ'.Code v text := by
  cases text with
  | pair first rest =>
      simp only [Datum.isFree, Bool.and_eq_true, Bool.not_eq_true'] at hfree
      obtain ⟨r, p, rfl, hcell, hfirst, hrest⟩ := h.pair hfree.1.1
      simp only [Code, hfree.1.1, Bool.false_eq_true, if_false]
      exact ⟨r, p, rfl, hcells r p hcell, of_cells hfree.1.2 hcells hfirst,
        of_cells hfree.2 hcells hrest⟩
  | _ => exact h
termination_by structural text

theorem IsConjunction.without {c : Ref .closure} (hc : σ.IsConjunction c) (r : Ref .pair) :
    (σ.without r).IsConjunction c := by
  obtain ⟨body, scope, name, hclosure, hbody, hscope⟩ := hc
  exact ⟨body, scope, name, hclosure, hbody.of_cells rfl fun _ _ => id, hscope.inBounds,
    hscope.names⟩

/-- A transformer that takes its operands as one list does what its text does. -/
theorem expands_operands {c : Ref .closure} {body : Value} {parent : Ref .scope}
    {name : Option Symbol} {names : Environment}
    (hclosure : σ.heap.closures[c.index]? = some ⟨⟨[], some ⟨"args"⟩⟩, body, parent, name⟩)
    (hbody : σ.Code body text) (hbinds : σ.Binds parent names) (hand : names.lookup "and" = none)
    (xs : List Value)
    (h : ∀ (σ' : Moment) args scope, Items σ'.Cell args xs →
      σ'.Evals ([("args", args)] ++ names) scope text post) :
    ∃ inner w₁ σ' v,
      σ.world.enter (σ.world.heap.closure c).parameters xs (σ.world.heap.closure c).scope =
        (inner, w₁) ∧
      Yields (σ.world.heap.closure c).body inner w₁ v σ'.world ∧ σ.Le σ' ∧ post σ' v := by
  have hclosure' : σ.world.heap.closure c = ⟨⟨[], some ⟨"args"⟩⟩, body, parent, name⟩ := by
    have hsome : σ.world.heap.closures[c.index]? = _ := hclosure
    simp [Heap.closure, hsome]
  -- the operands are the value of the only parameter
  obtain ⟨σ₁, hworld, hle₁, hitems⟩ := σ.exists_list xs
  generalize hargs : (σ.heap.list xs).1 = args at hitems
  have hbind : ∀ name, ((∅ : Std.TreeMap String Value).insert "args" args)[name]? =
      List.lookup name [("args", args)] :=
    Heap.getElem?_insert_eq_lookup (fun _ => Std.TreeMap.getElem?_emptyc) "args" args
  have hle₂ := σ₁.le_withScope ⟨(∅ : Std.TreeMap String Value).insert "args" args, some parent⟩
  generalize hσ₂ : σ₁.withScope ⟨(∅ : Std.TreeMap String Value).insert "args" args, some parent⟩ = σ₂
    at hle₂
  have hle := hle₁.trans hle₂
  have hsees : σ₂.Sees ⟨σ₁.heap.scopes.size⟩ ([("args", args)] ++ names) := by
    refine ⟨hσ₂ ▸ (hbinds.mono hle₁).withScope hbind, fun a ha => ?_⟩
    have hnone : ([("args", args)] ++ names).lookup "and" = none := hand
    rw [hnone] at ha
    cases ha
  obtain ⟨σ', v, hyields, hle', hpost⟩ :=
    h σ₂ args ⟨σ₁.heap.scopes.size⟩ (hitems.mono hle₂.cells) hsees body (hbody.mono hle)
  refine ⟨⟨σ₁.heap.scopes.size⟩, σ₂.world, σ', v, ?_, by rwa [hclosure'], hle.trans hle', hpost⟩
  have hheap : σ₁.heap = (σ.heap.list xs).2 := congrArg World.heap hworld
  rw [hclosure', ← hσ₂, ← hargs]
  simp only [World.enter, Parameters.accepts, Heap.extend, Heap.bindFixed, List.length_nil,
    Nat.zero_le, decide_true, if_true, Moment.withScope, hworld, hheap]
  rfl

/-- What the expansion of a conjunction is. -/
inductive Expands (σ : Moment) : Value → List Value → Prop where
  | none : Expands σ (.boolean true) []
  | last (x : Value) : Expands σ x [x]
  | branch {v x x' operands : Value} {r : Ref .pair} {xs : List Value}
      (hitems : Items σ.Cell v [.symbol ⟨"if"⟩, x, .pair r, .boolean false])
      (hsite : σ.Site r operands) (hothers : Items σ.Cell operands (x' :: xs)) :
      Expands σ v (x :: x' :: xs)

theorem evals_conjunctionText {args : Value} {xs : List Value} (hargs : Items σ.Cell args xs) :
    σ.Evals ([("args", args)] ++ conjunctionNames) scope conjunctionText fun σ' v =>
      σ'.Expands v xs := by
  refine Evals.cond rfl (Evals.looks rfl ?_)
  cases hargs with
  | nil => exact fun σ₁ _ => Evals.looks rfl .none
  | @cons r x rest xs hcell hrest =>
      refine Evals.looks rfl ?_
      change if (Value.boolean ((σ.heap.rest (.pair r)).isOf .null)).isTrue then _ else _
      rw [hcell.rest_eq]
      cases hrest with
      | nil =>
          intro σ₁ hle₁
          refine Evals.looks rfl ?_
          change σ₁.Expands (σ₁.heap.first (.pair r)) _
          rw [(hle₁.cells _ _ hcell).first_eq]
          exact .last x
      | @cons r' x' rest' xs' hcell' hrest' =>
          intro σ₁ hle₁
          refine Evals.call rfl rfl rfl (Evals.looks rfl (Evals.looks rfl ?_))
          refine Evals.call rfl rfl rfl (Evals.looks rfl (Evals.looks rfl (Calls.conjoin ?_)))
          intro σ₂ r₂ hle₂ hsite
          refine Evals.looks rfl (Calls.listing ?_)
          have hthis := hle₁.cells _ _ hcell
          have hfirst : σ₁.heap.first (.pair r) = x := hthis.first_eq
          have hrest₁ : σ₁.heap.rest (.pair r) = .pair r' := hthis.rest_eq
          change σ₂.Site r₂ (σ₁.heap.rest (.pair r)) at hsite
          rw [hrest₁] at hsite
          refine .branch ?_ (site_listing hsite _) ?_
          · rw [← hfirst]
            exact σ₂.items_listing _
          · exact (Items.cons hcell' hrest').mono
              ((hle₁.trans hle₂).trans (σ₂.le_listing _)).cells

theorem expands_conjunction {c : Ref .closure} (hc : σ.IsConjunction c) (xs : List Value) :
    ∃ inner w₁ σ' v,
      σ.world.enter (σ.world.heap.closure c).parameters xs (σ.world.heap.closure c).scope =
        (inner, w₁) ∧
      Yields (σ.world.heap.closure c).body inner w₁ v σ'.world ∧ σ.Le σ' ∧ σ'.Expands v xs := by
  obtain ⟨body, parent, name, hclosure, hbody, hbinds⟩ := hc
  exact expands_operands hclosure hbody hbinds rfl xs fun σ' args scope => evals_conjunctionText

/-! ## Replacing a conjunction by its expansion -/

theorem spliced_pair (site : Ref .pair) (c : Ref .closure) (r : Ref .pair) (w : World) :
    ∃ entries, spliced site c (.pair r) w =
      { w with heap := w.heap.setPair site (w.heap.pair r), log := entries } := by
  unfold spliced
  split
  · exact ⟨_, rfl⟩
  · exact ⟨_, rfl⟩

/-- The expansion of a conjunction whose operands are pairs is a pair, with which it is the same
conjunction. -/
theorem Expands.conjoins {v : Value} {x : Ref .pair} {p : Pair} {xs : List Value}
    (h : σ.Expands v (.pair x :: xs)) (hx : σ.Cell x p) :
    ∃ r q, v = .pair r ∧ σ.Cell r q ∧ ∀ (σ' : Moment) site,
      (∀ r p, σ.Cell r p → σ'.Cell r p) →
      (∀ v xs, σ.Conjoins v xs → σ'.Conjoins v xs) → σ'.Cell site q →
      σ'.Conjoins (.pair site) (.pair x :: xs) := by
  cases h with
  | last => exact ⟨x, p, rfl, hx, fun σ' site hcells _ hsite => .last hsite (hcells _ _ hx)⟩
  | branch hitems hsite hothers =>
      cases hitems with
      | cons hcell harms =>
          exact ⟨_, _, rfl, hcell, fun σ' site hcells hconjoins hsite' =>
            .branch hsite' (harms.mono hcells) (hconjoins _ _ (.site hsite hothers))⟩

/-- A conjunction has been replaced by its expansion, or it is when it is evaluated. -/
theorem Conjoins.replaced {c : Ref .closure} {v : Value} {x : Ref .pair} {p : Pair}
    {xs : List Value} (hsees : σ.Sees scope env) (hand : env.lookup "and" = some (.transformer c))
    (h : σ.Conjoins v (.pair x :: xs)) (hx : σ.Cell x p) :
    ∃ σ' r, v = .pair r ∧ σ.Le σ' ∧ σ'.known r ∧ σ'.Conjoins v (.pair x :: xs) ∧
      ∀ v' w', Yields v scope σ'.world v' w' → Yields v scope σ.world v' w' := by
  cases h with
  | last hcell hx => exact ⟨σ, _, rfl, .refl σ, hcell.1, .last hcell hx, fun _ _ => id⟩
  | branch hcell hitems hothers =>
      exact ⟨σ, _, rfl, .refl σ, hcell.1, .branch hcell hitems hothers, fun _ _ => id⟩
  | @site r operands _ hsite hitems =>
      have hpair : σ.world.heap.pair r = ⟨.symbol ⟨"and"⟩, operands⟩ :=
        Heap.pair_eq_of_getElem? hsite.2
      obtain ⟨owner, howner⟩ := hsees.names _ _ hand
      obtain ⟨w₁, w₂, σ₁, v₁, henter, hbody, hle, hexpands⟩ :=
        expands_conjunction ((hsees.conjunction c hand).without r) (.pair x :: xs)
      obtain ⟨r₁, q, rfl, hq, hconjoins⟩ := hexpands.conjoins (hle.cells _ _ hx)
      obtain ⟨entries, hspliced⟩ := spliced_pair r c r₁ σ₁.world
      have hfresh : ¬ (σ₁.known r ∨ σ₁.sites r) := by
        intro hr
        rcases hle.fresh r hr with hr | hr | hr
        · exact σ.apart r hsite.1 hr
        · exact hr.2 rfl
        · exact Nat.not_lt_of_le hr (σ.bounds r (Or.inr hsite.1))
      have hnot : ¬ σ₁.sites r := fun hr => hfresh (Or.inr hr)
      have hknown : ¬ σ₁.known r := fun hr => hfresh (Or.inl hr)
      have hbound : r.index < σ₁.heap.pairs.size :=
        Nat.lt_of_lt_of_le (σ.bounds r (Or.inr hsite.1)) hle.size
      have hnow : (σ₁.replacing r q entries hnot hbound).Conjoins (.pair r) (.pair x :: xs) :=
        hconjoins _ _ (fun _ _ => Cell.replacing hnot hknown hbound)
          (fun _ _ => Conjoins.replacing hnot hknown hbound) (cell_replacing hnot hbound)
      refine ⟨σ₁.replacing r q entries hnot hbound, r, rfl, ?_, Or.inr rfl, hnow, ?_⟩
      · refine hle.replacing hsite hnot hknown hbound fun operands' xs' hsite' hitems' => ?_
        obtain rfl : operands = operands' := by
          have heq := hsite.2.symm.trans hsite'.2
          cases heq
          rfl
        have hcells : ∀ r p q, σ.Cell r p → σ.Cell r q → p = q := fun _ _ _ => Cell.unique
        rwa [← Items.unique hcells hitems hitems']
      · intro v' w' hyields
        refine .expansion hpair rfl (.variable howner) (World.elements_eq hitems.lists) henter hbody
          ?_
        rw [hspliced, hq.eq]
        exact hyields

/-! ## Evaluating a conjunction -/

/-- Code with these texts has values up to the first that is false. Conjunctions may be replaced
before each of them is evaluated, so that is at a later moment. -/
def EvalsWhileTrue (env : Environment) (scope : Ref .scope) (post : Moment → Value → Prop) :
    List Datum → Moment → Prop
  | [], _ => False
  | [text], σ => ∀ σ', σ.Le σ' → σ'.Evals env scope text post
  | text :: texts, σ => ∀ σ', σ.Le σ' → σ'.Evals env scope text fun σ v =>
    if v.isTrue then EvalsWhileTrue env scope post texts σ else post σ (.boolean false)

/-- Code of a form lies in a pair, and so does code with the same pair. -/
theorem Code.isPair (hform : text.isPlainForm = true) {v : Value} (h : σ.Code v text) :
    ∃ x p, v = .pair x ∧ σ.Cell x p ∧ ∀ r, σ.Cell r p → σ.Code (.pair r) text := by
  cases text with
  | pair first rest =>
      have hplain : Datum.isConjunction first rest = false := by
        simpa [Datum.isPlainForm] using hform
      obtain ⟨x, p, rfl, hx, hfirst, hrest⟩ := h.pair hplain
      refine ⟨x, p, rfl, hx, fun r hr => ?_⟩
      simp only [Code, hplain, Bool.false_eq_true, if_false]
      exact ⟨r, p, rfl, hr, hfirst, hrest⟩
  | _ => cases hform

theorem Conjoins.runs {c : Ref .closure} (hand : env.lookup "and" = some (.transformer c))
    {texts : List Datum} (hforms : texts.all Datum.isPlainForm = true) {v : Value} {xs : List Value}
    (hsees : σ.Sees scope env) (hv : σ.Conjoins v xs) (hxs : σ.CodeAll xs (.list texts))
    (h : EvalsWhileTrue env scope post texts σ) : σ.Runs v scope post := by
  induction texts generalizing σ v xs with
  | nil => cases h
  | cons text texts ih =>
      rw [List.all_cons, Bool.and_eq_true] at hforms
      obtain ⟨x, others, rfl, hx, hothers⟩ := hxs
      obtain ⟨x, p, rfl, hcell, -⟩ := hx.isPair hforms.1
      obtain ⟨σ₁, r, rfl, hle, hknown, hconjoins, hyields⟩ := hv.replaced hsees hand hcell
      have hsees₁ := hsees.mono hle
      suffices hruns : σ₁.Runs (.pair r) scope post by
        obtain ⟨σ', v, hv, hle', hpost⟩ := hruns
        exact ⟨σ', v, hyields _ _ hv, hle.trans hle', hpost⟩
      cases hconjoins with
      | site hsite => exact absurd hknown (σ₁.apart r hsite.1)
      | last hr hx' =>
          cases texts with
          | cons => obtain ⟨_, _, hcons, _⟩ := hothers; cases hcons
          | nil =>
              obtain ⟨_, q, heq, hq, hcopy⟩ := (hx.mono hle).isPair hforms.1
              cases heq
              cases hx'.unique hq
              exact h σ₁ hle hsees₁ _ (hcopy r hr)
      | @branch _ arms _ x' rest xs hr hitems hrest =>
          cases texts with
          | nil => cases hothers
          | cons text' texts =>
              obtain ⟨σ₂, v, hv₂, hle₂, hnext⟩ := h σ₁ hle hsees₁ _ (hx.mono hle)
              have hitems₂ := hitems.mono hle₂.cells
              cases htrue : v.isTrue with
              | true =>
                  simp only [htrue, if_true] at hnext
                  have hle' := hle.trans hle₂
                  obtain ⟨σ₃, v', hv₃, hle₃, hpost⟩ :=
                    ih hforms.2 (hsees₁.mono hle₂) (hrest.mono hle₂) (hothers.mono hle') hnext
                  refine ⟨σ₃, v', .branch hr.eq (hitems.first_eq ▸ hv₂) ?_, hle₂.trans hle₃, hpost⟩
                  have hsecond : σ₂.world.heap.second arms = rest := hitems₂.of_rest.first_eq
                  rwa [if_pos htrue, hsecond]
              | false =>
                  simp only [htrue, Bool.false_eq_true, if_false] at hnext
                  have hthird : σ₂.world.heap.third arms = .boolean false :=
                    hitems₂.of_rest.of_rest.first_eq
                  refine ⟨σ₂, .boolean false, .branch hr.eq (hitems.first_eq ▸ hv₂) ?_, hle₂, hnext⟩
                  rw [if_neg (by simp [htrue]), hthird]
                  exact .selfEvaluating rfl

/-- A conjunction is evaluated up to its first operand that is false. -/
theorem Evals.conjunction {c : Ref .closure} {texts : List Datum}
    (hforms : texts.all Datum.isPlainForm = true)
    (hand : env.lookup "and" = some (.transformer c))
    (h : EvalsWhileTrue env scope post texts σ) : σ.Evals env scope (.form "and" texts) post := by
  intro hsees x hx
  cases texts with
  | nil => cases h
  | cons text texts =>
      obtain ⟨xs, hconjoins, hall⟩ := hx
      exact hconjoins.runs hand hforms hsees hall h

end Moment

end Scheme
