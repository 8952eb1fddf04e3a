import Scheme.Proofs.Templates
/-!
# Expansions of templates

The expressions that templates expand to, and the values they have: whenever the parts of a
template can be filled, its expansion does that.
-/

namespace Scheme

open Evaluator

/-- What can be told of an expression before it is evaluated. -/
inductive Legible (cell still : Ref .pair → Pair → Prop) : Value → Prop where
  | atom {e : Value} (h : e.isPair = false) : Legible cell still e
  | form {r : Ref .pair} {head rest : Value} (hpair : still r ⟨head, rest⟩)
      (hlist : head = .symbol ⟨"list"⟩ → cell r ⟨head, rest⟩)
      (hquote : head = .symbol .quote → ∃ v, Quotes cell (.pair r) v) :
      Legible cell still (.pair r)

/-- The expression fills the part, and its own pairs are cells. -/
inductive Skeleton (cell still : Ref .pair → Pair → Prop) : Value → Part → Prop where
  | self {v : Value} (h : v.isSelfEvaluating = true) : Skeleton cell still v (.constant v)
  | quoted {r : Ref .pair} {v : Value} (h : Items cell (.pair r) [.symbol .quote, v]) :
      Skeleton cell still (.pair r) (.constant v)
  | hole {e : Value} (h : Legible cell still e) : Skeleton cell still e (.hole e)
  | single {r : Ref .pair} {s : Value} {p q : Part}
      (h : Items cell (.pair r) [.symbol ⟨"list"⟩, s]) (hs : Skeleton cell still s p)
      (hnil : Skeleton cell still .nil q) : Skeleton cell still (.pair r) (.pair p q)
  | merged {r r' x : Ref .pair} {s rest : Value} {p q : Part}
      (h : cell r ⟨.symbol ⟨"list"⟩, .pair r'⟩) (h' : cell r' ⟨s, rest⟩)
      (hs : Skeleton cell still s p) (hlist : cell x ⟨.symbol ⟨"list"⟩, rest⟩)
      (hx : Skeleton cell still (.pair x) q) : Skeleton cell still (.pair r) (.pair p q)
  | cons {r : Ref .pair} {s t : Value} {p q : Part}
      (h : Items cell (.pair r) [.symbol ⟨"cons"⟩, s, t]) (hs : Skeleton cell still s p)
      (ht : Skeleton cell still t q) : Skeleton cell still (.pair r) (.pair p q)
  | append {r : Ref .pair} {e s : Value} {p : Part}
      (h : Items cell (.pair r) [.symbol ⟨"append"⟩, e, s]) (hs : Skeleton cell still s p) :
      Skeleton cell still (.pair r) (.splice e p)
  | vector {r : Ref .pair} {s : Value} {p : Part}
      (h : Items cell (.pair r) [.symbol ⟨"apply"⟩, .symbol ⟨"vector"⟩, s])
      (hs : Skeleton cell still s p) : Skeleton cell still (.pair r) (.vector p)

section

variable {cell cell' still still' : Ref .pair → Pair → Prop}
  (hcells : ∀ r p, cell r p → cell' r p) (hstills : ∀ r p, still r p → still' r p)
include hcells hstills

theorem Legible.mono {e : Value} (h : Legible cell still e) : Legible cell' still' e := by
  cases h with
  | atom h => exact .atom h
  | form hpair hlist hquote =>
      refine .form (hstills _ _ hpair) (fun h => hcells _ _ (hlist h)) fun h => ?_
      obtain ⟨v, hv⟩ := hquote h
      exact ⟨v, hv.mono hcells⟩

theorem Skeleton.mono {s : Value} {part : Part} (h : Skeleton cell still s part) :
    Skeleton cell' still' s part := by
  induction h with
  | self h => exact .self h
  | quoted h => exact .quoted (h.mono hcells)
  | hole h => exact .hole (h.mono hcells hstills)
  | single h _ _ ihs ihnil => exact .single (h.mono hcells) ihs ihnil
  | merged h h' _ hlist _ ihs ihx =>
      exact .merged (hcells _ _ h) (hcells _ _ h') ihs (hcells _ _ hlist) ihx
  | cons h _ _ ihs iht => exact .cons (h.mono hcells) ihs iht
  | append h _ ih => exact .append (h.mono hcells) ih
  | vector h _ ih => exact .vector (h.mono hcells) ih

end

/-! ## What filling a part leaves alone -/

namespace Heap

variable (h : Heap)

theorem extends_listStar (items : List Value) (tail : Value) :
    h.Extends (h.listStar items tail).2 ∧ (h.listStar items tail).2.scopes = h.scopes := by
  induction items with
  | nil => exact ⟨.refl h, rfl⟩
  | cons item items ih =>
      rw [listStar_cons]
      exact ⟨ih.1.trans (extends_cons _ _ _), ih.2⟩

variable {h}

theorem Lists.extend {h' : Heap} (hext : h.Extends h') {v : Value} {xs : List Value}
    (hv : h.Lists v xs) : h'.Lists v xs :=
  Items.mono (fun r p => hext.pairs r.index p) hv

theorem Lists.elementsOf_eq {v : Value} {xs : List Value} (hv : h.Lists v xs) :
    h.elementsOf v = xs := by
  simp only [elementsOf, hv.spine?_eq, Option.map_some, Option.getD_some]

theorem Lists.onto {v : Value} {xs : List Value} (hv : h.Lists v xs) (item : Value) :
    (h.cons item v).2.Lists (h.cons item v).1 (item :: xs) :=
  Items.cons Array.getElem?_push_size (hv.extend (extends_cons h item v))

theorem Lists.listStar {tail : Value} {xs : List Value} (htail : h.Lists tail xs)
    (items : List Value) :
    (h.listStar items tail).2.Lists (h.listStar items tail).1 (items ++ xs) := by
  induction items with
  | nil => exact htail
  | cons item items ih =>
      rw [listStar_cons]
      exact ih.onto item

end Heap

namespace World

variable {kept : Ref .pair → Prop} {scope : Ref .scope} {w w₁ w₂ : World}

theorem Keeps.trans (h : w.Keeps kept scope w₁) (h' : w₁.Keeps kept scope w₂) :
    w.Keeps kept scope w₂ :=
  ⟨fun r p hr hp => h'.pairs r p hr (h.pairs r p hr hp), h'.names⟩

theorem Keeps.refl (h : w.HasBuilders scope) : w.Keeps kept scope w :=
  ⟨fun _ _ _ hp => hp, h⟩

/-- New cells change nothing. -/
theorem Keeps.of_extends {heap : Heap} (h : w.HasBuilders scope) (hext : w.heap.Extends heap)
    (hscopes : heap.scopes = w.heap.scopes) : w.Keeps kept scope { w with heap } where
  pairs r p _ hp := hext.pairs _ p hp
  names p hp := by
    obtain ⟨owner, howner⟩ := h p hp
    refine ⟨owner, Heap.locateWithin_mono (fun i s hs => ?_) (Nat.le_refl _) howner⟩
    rwa [hscopes]

end World

theorem Fills.keeps {scope : Ref .scope} {kept : Ref .pair → Prop} {part : Part} {w w' : World}
    {v : Value} (h : Fills scope kept part w v w') (hnames : w.HasBuilders scope) :
    w.Keeps kept scope w' := by
  induction h with
  | constant => exact .refl hnames
  | hole _ hkeeps => exact hkeeps
  | pair _ _ ihp ihq =>
      have hkeeps := ihp hnames
      have hkeeps' := hkeeps.trans (ihq hkeeps.names)
      exact hkeeps'.trans (.of_extends hkeeps'.names (Heap.extends_cons _ _ _) rfl)
  | splice _ hkeeps _ _ ih =>
      have hkeeps' := hkeeps.trans (ih hkeeps.names)
      have hext := Heap.extends_listStar
      exact hkeeps'.trans (.of_extends hkeeps'.names (hext _ _ _).1 (hext _ _ _).2)
  | vector _ ih =>
      have hkeeps := ih hnames
      exact hkeeps.trans (.of_extends hkeeps.names (Heap.extends_addVector _ _) rfl)

/-! ## Lists of the elements of vectors -/

namespace Plan

def isList : Plan → Bool
  | .atom v => v = .nil
  | .pair _ q => q.isList
  | .splice _ p => p.isList
  | .hole _ | .vector _ => false

/-- Vectors are made of the elements of lists. -/
def isSound : Plan → Bool
  | .atom _ | .hole _ => true
  | .pair p q => p.isSound && q.isSound
  | .splice _ p => p.isSound
  | .vector p => p.isList && p.isSound

end Plan

section

variable {scope : Ref .scope} {kept : Ref .pair → Prop} {cell still : Ref .pair → Pair → Prop}
  {part : Part} {plan : Plan} {v : Value} {w w' : World}

theorem Stands.lists {h : Heap} (hcells : ∀ r p, cell r p → h.pairs[r.index]? = some p)
    (hv : Stands cell v plan) (hplan : plan.isList = true) : ∃ items, h.Lists v items := by
  induction hv with
  | atom v =>
      obtain rfl : v = .nil := by simpa [Plan.isList] using hplan
      exact ⟨[], .nil⟩
  | hole => cases hplan
  | pair hcell _ _ _ ih =>
      obtain ⟨items, hitems⟩ := ih hplan
      exact ⟨_, Items.cons (hcells _ _ hcell) hitems⟩

/-- What is built of the elements of a vector is a list. -/
theorem Fills.lists (h : Fills scope kept part w v w') (hcovers : Covers cell part plan)
    (hplan : plan.isList = true) (hkept : ∀ r p, cell r p → kept r)
    (hcells : ∀ r p, cell r p → w.heap.pairs[r.index]? = some p) (hnames : w.HasBuilders scope) :
    ∃ items, w'.heap.Lists v items := by
  induction h generalizing plan with
  | constant =>
      cases hcovers with
      | constant hstands => exact hstands.lists hcells hplan
  | hole =>
      cases hcovers with
      | hole => cases hplan
  | pair hp _ _ ihq =>
      cases hcovers with
      | pair _ hq =>
          have hkeeps := hp.keeps hnames
          obtain ⟨items, hitems⟩ := ihq hq hplan
            (fun r p hr => hkeeps.pairs r p (hkept r p hr) (hcells r p hr)) hkeeps.names
          exact ⟨_, hitems.onto _⟩
  | splice _ hkeeps _ hitems ih =>
      cases hcovers with
      | splice _ hp =>
          obtain ⟨items, hitems⟩ := ih hp hplan
            (fun r p hr => hkeeps.pairs r p (hkept r p hr) (hcells r p hr)) hkeeps.names
          exact ⟨_, hitems.listStar _⟩
  | vector =>
      cases hcovers with
      | vector => cases hplan

end

/-! ## Evaluating an expansion -/

namespace Evaluator

variable {scope : Ref .scope} {w w' : World}

/-- Values of operands are not changed by how the operands would be written in an error. -/
theorem operands_eq_of_value {self : Evaluator} {time : Nat} {rest all : Value} {vs : List Value}
    (h : self.operands time rest all scope w = .finished (.value vs w')) (all' : Value) :
    self.operands time rest all' scope w = .finished (.value vs w') := by
  induction time generalizing rest vs w w' with
  | zero => cases h
  | succ time ih =>
      cases rest with
      | nil => exact h
      | pair r =>
          simp only [Evaluator.operands] at h ⊢
          cases hfirst : self.eval (w.heap.pair r).first scope w with
          | outOfTime => rw [hfirst] at h; cases h
          | finished result =>
              cases result with
              | fault | trap => rw [hfirst] at h; cases h
              | value v w₁ =>
                  rw [hfirst] at h
                  simp only [Attempt.andThen] at h ⊢
                  cases hrest : self.operands time (w.heap.pair r).rest all scope w₁ with
                  | outOfTime => rw [hrest] at h; cases h
                  | finished result =>
                      cases result with
                      | fault | trap => rw [hrest] at h; cases h
                      | value vs w₂ =>
                          rw [hrest] at h
                          rw [ih hrest]
                          exact h
      | _ => cases h

theorem OperandsYield.whatever {rest all : Value} {vs : List Value}
    (h : OperandsYield rest all scope w vs w') (all' : Value) :
    OperandsYield rest all' scope w vs w' := by
  obtain ⟨least, hleast⟩ := h
  exact ⟨least, fun time htime => operands_eq_of_value (hleast time htime) all'⟩

theorem CallYields.list (vs : List Value) (w : World) :
    CallYields (.primitive .list) vs w (w.heap.list vs).1
      { w with heap := (w.heap.list vs).2 } :=
  .direct (Primitive.checkCount_eq rfl w) rfl rfl

theorem CallYields.append {a : Value} {items : List Value} (b : Value)
    (h : w.heap.Lists a items) :
    CallYields (.primitive .append) [a, b] w (w.heap.listStar items b).1
      { w with heap := (w.heap.listStar items b).2 } := by
  refine .direct (Primitive.checkCount_eq rfl w) rfl ?_
  change ListOperation.appendReversed b [a] w = _
  simp only [ListOperation.appendReversed, bind, Action.bind, World.spine, h.spine?_eq,
    World.alter]
  rfl

theorem CallYields.apply_vector {a : Value} {items : List Value} (h : w.heap.Lists a items) :
    CallYields (.primitive .apply) [.primitive .vector, a] w (w.heap.addVector items.toArray).1
      { w with heap := (w.heap.addVector items.toArray).2 } :=
  .primitive (Primitive.checkCount_eq rfl w)
    (Settles.andThen (Settles.action (World.elements_eq h))
      (CallYields.direct (Primitive.checkCount_eq rfl w) rfl rfl))

end Evaluator

section

variable {scope : Ref .scope} {kept : Ref .pair → Prop} {cell still : Ref .pair → Pair → Prop}

/-- A call of a builder on operands that have values. -/
theorem World.HasBuilders.yields {w w₁ w' : World} (hnames : w.HasBuilders scope) {p : Primitive}
    (hp : p ∈ Primitive.builders) (hform : SpecialForm.ofSymbol? ⟨p.name⟩ = none)
    {r : Ref .pair} {rest v : Value} {vs : List Value}
    (hcell : w.heap.pair r = ⟨.symbol ⟨p.name⟩, rest⟩)
    (hoperands : OperandsYield rest rest scope w vs w₁)
    (hcall : CallYields (.primitive p) vs w₁ v w') : Yields (.pair r) scope w v w' := by
  obtain ⟨owner, howner⟩ := hnames p hp
  exact .call hcell hform (.variable howner) rfl hoperands hcall

/-- A world has the cells. -/
def World.HasCells (w : World) (cell : Ref .pair → Pair → Prop) : Prop :=
  ∀ r p, cell r p → w.heap.pairs[r.index]? = some p

theorem World.HasCells.eq {w : World} (h : w.HasCells cell) {r : Ref .pair} {p : Pair}
    (hr : cell r p) : w.heap.pair r = p :=
  Heap.pair_eq_of_getElem? (h r p hr)

theorem World.HasCells.keeps {w w' : World} (h : w.HasCells cell)
    (hkept : ∀ r p, cell r p → kept r) (hkeeps : w.Keeps kept scope w') : w'.HasCells cell :=
  fun r p hr => hkeeps.pairs r p (hkept r p hr) (h r p hr)

/-- A call with two operands. -/
theorem Items.yields_two {w w₁ w₂ w' : World} {r : Ref .pair} {s : Symbol}
    {x y a b procedure v : Value} {owner : Ref .scope}
    (hitems : Items cell (.pair r) [.symbol s, x, y]) (hform : SpecialForm.ofSymbol? s = none)
    (hname : w.heap.locate? s scope = some (owner, procedure))
    (hplain : procedure.isTransformer = false) (hcells : w.HasCells cell)
    (hcells₁ : w₁.HasCells cell) (hx : Yields x scope w a w₁) (hy : Yields y scope w₁ b w₂)
    (hcall : CallYields procedure [a, b] w₂ v w') : Yields (.pair r) scope w v w' := by
  cases hitems with
  | cons hr hrest =>
      refine .call (hcells.eq hr) hform (.variable hname) hplain ?_ hcall
      cases hrest with
      | cons hr' hrest' =>
          cases hrest' with
          | cons hr'' hnil =>
              cases hnil
              exact .cons (hcells.eq hr') hx (.cons (hcells₁.eq hr'') hy (.nil _ scope w₂))

/-- A call of a builder with two operands. -/
theorem World.HasBuilders.yields_two {w w₁ w₂ w' : World} (hnames : w.HasBuilders scope)
    {p : Primitive} (hp : p ∈ Primitive.builders) (hform : SpecialForm.ofSymbol? ⟨p.name⟩ = none)
    {r : Ref .pair} {s t a b v : Value} (hitems : Items cell (.pair r) [.symbol ⟨p.name⟩, s, t])
    (hcells : w.HasCells cell) (hcells₁ : w₁.HasCells cell) (hs : Yields s scope w a w₁)
    (ht : Yields t scope w₁ b w₂) (hcall : CallYields (.primitive p) [a, b] w₂ v w') :
    Yields (.pair r) scope w v w' := by
  obtain ⟨owner, howner⟩ := hnames p hp
  exact hitems.yields_two hform howner rfl hcells hcells₁ hs ht hcall

/-- The expansion has the value that filling the part gives. -/
theorem Skeleton.yields {s v : Value} {part : Part} {plan : Plan} {w w' : World}
    (h : Skeleton cell still s part) (hcovers : Covers cell part plan)
    (hplan : plan.isSound = true) (hkept : ∀ r p, cell r p → kept r) (hcells : w.HasCells cell)
    (hnames : w.HasBuilders scope) (hfills : Fills scope kept part w v w') :
    Yields s scope w v w' := by
  induction h generalizing plan v w w' with
  | self hself =>
      cases hfills
      exact .selfEvaluating hself
  | @quoted _ x hitems =>
      cases hfills
      cases hitems with
      | cons hr hrest =>
          cases hrest with
          | @cons r' _ _ _ hr' =>
              have hvalue : w.heap.first (.pair r') = x := congrArg Pair.first (hcells.eq hr')
              rw [← hvalue]
              exact .quotation (hcells.eq hr)
  | hole =>
      cases hfills with
      | hole hyields => exact hyields
  | single hitems _ _ ihs ihnil =>
      cases hfills with
      | pair hp hq =>
          cases hcovers with
          | pair hcp hcq =>
              simp only [Plan.isSound, Bool.and_eq_true] at hplan
              have hkeeps := hp.keeps hnames
              have hs := ihs hcp hplan.1 hcells hnames hp
              have hnil := ihnil hcq hplan.2 (hcells.keeps hkept hkeeps) hkeeps.names hq
              obtain ⟨rfl, rfl⟩ := hnil.unique (.selfEvaluating rfl)
              cases hitems with
              | cons hr hrest =>
                  cases hrest with
                  | cons hr' hrest' =>
                      cases hrest'
                      exact hnames.yields (by decide : Primitive.list ∈ Primitive.builders) rfl
                        (hcells.eq hr) (.cons (hcells.eq hr') hs (.nil _ scope _)) (.list _ _)
  | merged hr hr' _ hx _ ihs ihx =>
      cases hfills with
      | @pair _ _ a _ _ _ _ hp hq =>
          cases hcovers with
          | pair hcp hcq =>
              simp only [Plan.isSound, Bool.and_eq_true] at hplan
              have hkeeps := hp.keeps hnames
              have hcells₁ := hcells.keeps hkept hkeeps
              have hs := ihs hcp hplan.1 hcells hnames hp
              -- the rest of the call is a call of `list` too, so its operands have values
              obtain ⟨owner, howner⟩ := hkeeps.names .list (by decide)
              obtain ⟨vs, w₂, hoperands, hcall⟩ := Yields.exists_operands (hcells₁.eq hx) rfl
                (.variable howner) rfl (ihx hcq hplan.2 hcells₁ hkeeps.names hq)
              obtain ⟨rfl, rfl⟩ := Settles.unique hcall (CallYields.list vs w₂)
              have hlist := CallYields.list (a :: vs) w₂
              rw [Heap.list, Heap.listStar_cons] at hlist
              exact hnames.yields (by decide : Primitive.list ∈ Primitive.builders) rfl
                (hcells.eq hr) (.cons (hcells.eq hr') hs (hoperands.whatever _)) hlist
  | cons hitems _ _ ihs iht =>
      cases hfills with
      | pair hp hq =>
          cases hcovers with
          | pair hcp hcq =>
              simp only [Plan.isSound, Bool.and_eq_true] at hplan
              have hkeeps := hp.keeps hnames
              have hcells₁ := hcells.keeps hkept hkeeps
              exact hnames.yields_two (by decide : Primitive.cons ∈ Primitive.builders) rfl hitems hcells hcells₁
                (ihs hcp hplan.1 hcells hnames hp) (iht hcq hplan.2 hcells₁ hkeeps.names hq)
                (.direct (Primitive.checkCount_eq rfl _) rfl rfl)
  | append hitems _ ih =>
      cases hfills with
      | splice he hkeeps hp hlists =>
          cases hcovers with
          | splice _ hcp =>
              have hcells₁ := hcells.keeps hkept hkeeps
              exact hnames.yields_two (by decide : Primitive.append ∈ Primitive.builders) rfl hitems hcells hcells₁ he
                (ih hcp hplan hcells₁ hkeeps.names hp) (.append _ hlists)
  | vector hitems _ ih =>
      cases hfills with
      | vector hp =>
          cases hcovers with
          | vector hcp =>
              simp only [Plan.isSound, Bool.and_eq_true] at hplan
              obtain ⟨items, hlists⟩ := hp.lists hcp hplan.1 hkept hcells hnames
              obtain ⟨owner, howner⟩ := hnames .vector (by decide)
              rw [hlists.elementsOf_eq]
              exact hnames.yields_two (by decide : Primitive.apply ∈ Primitive.builders) rfl hitems hcells hcells
                (.variable howner) (ih hcp hplan.2 hcells hnames hp) (.apply_vector hlists)

end

end Scheme
