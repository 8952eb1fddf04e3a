import Scheme.Proofs.Evaluations
import Scheme.Proofs.Unfolding
/-!
# Moments of a run of fixed code

The code of a transformer is a list structure in the heap, and the conjunctions in it are replaced
by their expansions in place, the first time each of them is evaluated. A moment is a world with
what is known of its pairs: those that stay as they are for good, and the calls that are yet to be
replaced. Later moments know more pairs, and each conjunction still stands for the same operands.
-/

namespace Scheme

/-- Names with their values. -/
abbrev Environment := List (String × Value)

/-- The value is a list whose pairs are cells of a kind. -/
inductive Items (cell : Ref .pair → Pair → Prop) : Value → List Value → Prop where
  | nil : Items cell .nil []
  | cons {r : Ref .pair} {item rest : Value} {items : List Value} (hcell : cell r ⟨item, rest⟩)
      (hrest : Items cell rest items) : Items cell (.pair r) (item :: items)

theorem Items.mono {cell cell' : Ref .pair → Pair → Prop} (hcells : ∀ r p, cell r p → cell' r p)
    {v : Value} {items : List Value} (h : Items cell v items) : Items cell' v items := by
  induction h with
  | nil => exact .nil
  | cons hcell _ ih => exact .cons (hcells _ _ hcell) ih

/-- A world in the run of some code: the pairs known to stay as they are, and the calls of
transformers that have not been replaced yet. -/
structure Moment where
  world : World
  known : Ref .pair → Prop
  sites : Ref .pair → Prop
  apart : ∀ r, sites r → ¬ known r
  bounds : ∀ r, known r ∨ sites r → r.index < world.heap.pairs.size

namespace Moment

def heap (σ : Moment) : Heap :=
  σ.world.heap

/-- A pair that stays as it is. -/
def Cell (σ : Moment) (r : Ref .pair) (p : Pair) : Prop :=
  σ.known r ∧ σ.heap.pairs[r.index]? = some p

/-- A pair that is not about to be replaced. -/
def Still (σ : Moment) (r : Ref .pair) (p : Pair) : Prop :=
  ¬ σ.sites r ∧ σ.heap.pairs[r.index]? = some p

/-- A conjunction to be replaced, with its operands. -/
def Site (σ : Moment) (r : Ref .pair) (operands : Value) : Prop :=
  σ.sites r ∧ σ.heap.pairs[r.index]? = some ⟨.symbol ⟨"and"⟩, operands⟩

/-- The expression is a conjunction of the operands: it is yet to be replaced; or it has been
replaced by its only operand; or by a branch on the first one, with a conjunction of the others. -/
inductive Conjoins (σ : Moment) : Value → List Value → Prop where
  | site {r : Ref .pair} {operands : Value} {xs : List Value} (hsite : σ.Site r operands)
      (hitems : Items σ.Cell operands xs) : Conjoins σ (.pair r) xs
  | last {r x : Ref .pair} {p : Pair} (hcell : σ.Cell r p) (hx : σ.Cell x p) :
      Conjoins σ (.pair r) [.pair x]
  | branch {r : Ref .pair} {arms x x' others : Value} {xs : List Value}
      (hcell : σ.Cell r ⟨.symbol ⟨"if"⟩, arms⟩)
      (hitems : Items σ.Cell arms [x, others, .boolean false])
      (hothers : Conjoins σ others (x' :: xs)) : Conjoins σ (.pair r) (x :: x' :: xs)

/-- A later moment of the run. -/
structure Le (σ σ' : Moment) : Prop where
  size : σ.heap.pairs.size ≤ σ'.heap.pairs.size
  cells : ∀ r p, σ.Cell r p → σ'.Cell r p
  stills : ∀ r p, σ.Still r p → σ'.Still r p
  waiting : ∀ r p, σ.sites r → σ.heap.pairs[r.index]? = some p → p.first ≠ .symbol ⟨"and"⟩ →
    σ'.sites r ∧ σ'.heap.pairs[r.index]? = some p
  sites : ∀ r operands xs, σ.Site r operands → Items σ.Cell operands xs → σ'.Conjoins (.pair r) xs
  fresh : ∀ r, σ'.known r ∨ σ'.sites r → σ.known r ∨ σ.sites r ∨ σ.heap.pairs.size ≤ r.index
  scopes : ∀ (i : Nat) s, σ.heap.scopes[i]? = some s → σ'.heap.scopes[i]? = some s
  closures : ∀ (i : Nat) c, σ.heap.closures[i]? = some c → σ'.heap.closures[i]? = some c
  vectors : ∀ (i : Nat) elements, σ.heap.vectors[i]? = some elements →
    σ'.heap.vectors[i]? = some elements
  strings : σ'.heap.strings = σ.heap.strings
  continuations : σ'.heap.continuations = σ.heap.continuations
  others : σ'.world = { σ.world with heap := σ'.heap, log := σ'.world.log }

variable {σ σ' σ'' : Moment}

theorem Cell.eq {r : Ref .pair} {p : Pair} (h : σ.Cell r p) : σ.world.heap.pair r = p :=
  Heap.pair_eq_of_getElem? h.2

theorem Cell.first_eq {r : Ref .pair} {p : Pair} (h : σ.Cell r p) :
    σ.heap.first (.pair r) = p.first :=
  congrArg Pair.first h.eq

theorem Cell.rest_eq {r : Ref .pair} {p : Pair} (h : σ.Cell r p) :
    σ.heap.rest (.pair r) = p.rest :=
  congrArg Pair.rest h.eq

theorem Still.first_eq {r : Ref .pair} {p : Pair} (h : σ.Still r p) :
    σ.heap.first (.pair r) = p.first :=
  congrArg Pair.first (Heap.pair_eq_of_getElem? h.2)

theorem Still.rest_eq {r : Ref .pair} {p : Pair} (h : σ.Still r p) :
    σ.heap.rest (.pair r) = p.rest :=
  congrArg Pair.rest (Heap.pair_eq_of_getElem? h.2)

theorem Cell.unique {r : Ref .pair} {p q : Pair} (h : σ.Cell r p) (h' : σ.Cell r q) : p = q :=
  Option.some.inj (h.2.symm.trans h'.2)

theorem Cell.still {r : Ref .pair} {p : Pair} (h : σ.Cell r p) : σ.Still r p :=
  ⟨fun hsite => σ.apart r hsite h.1, h.2⟩

theorem Conjoins.imp (hcells : ∀ r p, σ.Cell r p → σ'.Cell r p)
    (hsites : ∀ r operands xs, σ.Site r operands → Items σ.Cell operands xs →
      σ'.Conjoins (.pair r) xs) {v : Value} {xs : List Value} (hv : σ.Conjoins v xs) :
    σ'.Conjoins v xs := by
  induction hv with
  | site hsite hitems => exact hsites _ _ _ hsite hitems
  | last hcell hx => exact .last (hcells _ _ hcell) (hcells _ _ hx)
  | branch hcell hitems _ ih => exact .branch (hcells _ _ hcell) (hitems.mono hcells) ih

theorem Conjoins.mono (h : σ.Le σ') {v : Value} {xs : List Value} (hv : σ.Conjoins v xs) :
    σ'.Conjoins v xs :=
  hv.imp h.cells h.sites

theorem Le.refl (σ : Moment) : σ.Le σ where
  size := Nat.le_refl _
  cells _ _ h := h
  stills _ _ h := h
  waiting _ _ hsite hp _ := ⟨hsite, hp⟩
  sites _ _ _ hsite hitems := .site hsite hitems
  fresh _ h := h.elim Or.inl fun h => Or.inr (Or.inl h)
  scopes _ _ h := h
  closures _ _ h := h
  vectors _ _ h := h
  strings := rfl
  continuations := rfl
  others := rfl

theorem Le.trans (h : σ.Le σ') (h' : σ'.Le σ'') : σ.Le σ'' where
  size := Nat.le_trans h.size h'.size
  cells r p hr := h'.cells r p (h.cells r p hr)
  stills r p hr := h'.stills r p (h.stills r p hr)
  waiting r p hsite hp hand := by
    obtain ⟨hsite', hp'⟩ := h.waiting r p hsite hp hand
    exact h'.waiting r p hsite' hp' hand
  sites r operands xs hsite hitems := (h.sites r operands xs hsite hitems).mono h'
  fresh r hr := by
    have hsize := h.size
    rcases h'.fresh r hr with hr | hr | hr
    · exact h.fresh r (Or.inl hr)
    · exact h.fresh r (Or.inr hr)
    · exact Or.inr (Or.inr (by omega))
  scopes i s hs := h'.scopes i s (h.scopes i s hs)
  closures i c hc := h'.closures i c (h.closures i c hc)
  vectors i elements he := h'.vectors i elements (h.vectors i elements he)
  strings := h'.strings.trans h.strings
  continuations := h'.continuations.trans h.continuations
  others := by rw [h'.others, h.others]

/-! ## Code -/

end Moment

/-- Whether a pair of these parts is a conjunction with operands. -/
def Datum.isConjunction : Datum → Datum → Bool
  | .symbol s, .pair _ _ => s.name == "and"
  | _, _ => false

namespace Moment

mutual

/-- The value is the datum as code, where a conjunction may have been replaced. -/
def Code (σ : Moment) (v : Value) : Datum → Prop
  | .nil => v = .nil
  | .boolean value => v = .boolean value
  | .number value => v = .number (.float value)
  | .symbol value => v = .symbol value
  | .pair first rest =>
    if Datum.isConjunction first rest then ∃ xs, σ.Conjoins v xs ∧ CodeAll σ xs rest
    else ∃ r p, v = .pair r ∧ σ.Cell r p ∧ Code σ p.first first ∧ Code σ p.rest rest
  | .character _ | .string _ | .vector _ => False

/-- The values are the elements of the list as code. -/
def CodeAll (σ : Moment) (xs : List Value) : Datum → Prop
  | .nil => xs = []
  | .pair first rest => ∃ x others, xs = x :: others ∧ Code σ x first ∧ CodeAll σ others rest
  | _ => False

end

variable {σ σ' : Moment}

mutual

theorem Code.mono (h : σ.Le σ') {v : Value} {d : Datum} (hv : σ.Code v d) : σ'.Code v d := by
  cases d with
  | pair first rest =>
      cases hconjunction : Datum.isConjunction first rest with
      | true =>
          simp only [Code, hconjunction, if_true] at hv ⊢
          obtain ⟨xs, hconjoins, hall⟩ := hv
          exact ⟨xs, hconjoins.mono h, CodeAll.mono h hall⟩
      | false =>
          simp only [Code, hconjunction, Bool.false_eq_true, if_false] at hv ⊢
          obtain ⟨r, p, rfl, hcell, hfirst, hrest⟩ := hv
          exact ⟨r, p, rfl, h.cells r p hcell, Code.mono h hfirst, Code.mono h hrest⟩
  | _ => exact hv
termination_by structural d

theorem CodeAll.mono (h : σ.Le σ') {xs : List Value} {d : Datum} (hxs : σ.CodeAll xs d) :
    σ'.CodeAll xs d := by
  cases d with
  | pair first rest =>
      obtain ⟨x, others, rfl, hfirst, hrest⟩ := hxs
      exact ⟨x, others, rfl, Code.mono h hfirst, CodeAll.mono h hrest⟩
  | _ => exact hxs
termination_by structural d

end

theorem Code.pair {first rest : Datum} (hplain : Datum.isConjunction first rest = false) {v : Value}
    (h : σ.Code v (.pair first rest)) :
    ∃ r p, v = .pair r ∧ σ.Cell r p ∧ σ.Code p.first first ∧ σ.Code p.rest rest := by
  simpa only [Code, hplain, Bool.false_eq_true, if_false] using h

/-! ## New cells -/

/-- A moment at which cells have been added, and nothing was replaced. -/
theorem Le.of_extends
    (hpairs : ∀ (i : Nat) p, σ.heap.pairs[i]? = some p → σ'.heap.pairs[i]? = some p)
    (hknown : ∀ r, σ.known r → σ'.known r) (hsites : ∀ r, σ.sites r → σ'.sites r)
    (hfresh : ∀ r, σ'.known r ∨ σ'.sites r →
      σ.known r ∨ σ.sites r ∨ σ.heap.pairs.size ≤ r.index)
    (hscopes : ∀ (i : Nat) s, σ.heap.scopes[i]? = some s → σ'.heap.scopes[i]? = some s)
    (hclosures : ∀ (i : Nat) c, σ.heap.closures[i]? = some c → σ'.heap.closures[i]? = some c)
    (hworld : σ'.world = { σ.world with heap := { σ.heap with
      pairs := σ'.heap.pairs, scopes := σ'.heap.scopes, closures := σ'.heap.closures } }) :
    σ.Le σ' := by
  have hheap : σ'.heap = { σ.heap with
      pairs := σ'.heap.pairs, scopes := σ'.heap.scopes, closures := σ'.heap.closures } :=
    congrArg World.heap hworld
  have hcells : ∀ r p, σ.Cell r p → σ'.Cell r p := fun r p hr => ⟨hknown r hr.1, hpairs _ p hr.2⟩
  refine ⟨?_, hcells, ?_, fun r p hr hp _ => ⟨hsites r hr, hpairs _ p hp⟩, ?_, hfresh, hscopes,
    hclosures, ?_, ?_, ?_, ?_⟩
  · refine Nat.le_of_not_lt fun hlt => ?_
    have hold := hpairs _ _ (Array.getElem?_eq_getElem hlt)
    simp at hold
  · intro r p hr
    refine ⟨fun hsite => ?_, hpairs _ p hr.2⟩
    rcases hfresh r (Or.inr hsite) with hr' | hr' | hr'
    · exact σ'.apart r hsite (hknown r hr')
    · exact hr.1 hr'
    · exact Nat.not_lt_of_le hr' (Array.getElem?_eq_some_iff.1 hr.2).1
  · exact fun r operands xs hsite hitems =>
      .site ⟨hsites r hsite.1, hpairs _ _ hsite.2⟩ (hitems.mono hcells)
  · intro i elements he
    rwa [hheap]
  · rw [hheap]
  · rw [hheap]
  · have hlog : σ'.world.log = σ.world.log := by rw [hworld]
    rw [hlog]
    exact hworld.trans (by rw [← hheap])

/-- The moment after a pair was made that is known from then on. -/
def cons (σ : Moment) (first rest : Value) : Moment where
  world := { σ.world with heap := (σ.heap.cons first rest).2 }
  known r := σ.known r ∨ r.index = σ.heap.pairs.size
  sites := σ.sites
  apart r hsite hknown := by
    rcases hknown with hknown | hknown
    · exact σ.apart r hsite hknown
    · have := σ.bounds r (Or.inr hsite)
      exact Nat.ne_of_lt this hknown
  bounds r hr := by
    simp only [Heap.cons, Array.size_push]
    rcases hr with (hr | hr) | hr
    · exact Nat.lt_succ_of_lt (σ.bounds r (Or.inl hr))
    · exact Nat.lt_succ_of_le (Nat.le_of_eq hr)
    · exact Nat.lt_succ_of_lt (σ.bounds r (Or.inr hr))

theorem le_cons (σ : Moment) (first rest : Value) : σ.Le (σ.cons first rest) := by
  refine .of_extends (fun _ _ => Heap.getElem?_push_of_some _) (fun _ => Or.inl) (fun _ => id) ?_
    (fun _ _ => id) (fun _ _ => id) rfl
  rintro r ((hr | hr) | hr)
  · exact Or.inl hr
  · exact Or.inr (Or.inr (Nat.le_of_eq hr.symm))
  · exact Or.inr (Or.inl hr)

theorem cell_cons (σ : Moment) (first rest : Value) :
    (σ.cons first rest).Cell ⟨σ.heap.pairs.size⟩ ⟨first, rest⟩ :=
  ⟨Or.inr rfl, Array.getElem?_push_size⟩

/-- The moment after a conjunction was made that is to be replaced. -/
def conjoin (σ : Moment) (operands : Value) : Moment where
  world := { σ.world with heap := (σ.heap.cons (.symbol ⟨"and"⟩) operands).2 }
  known := σ.known
  sites r := σ.sites r ∨ r.index = σ.heap.pairs.size
  apart r hsite hknown := by
    rcases hsite with hsite | hsite
    · exact σ.apart r hsite hknown
    · exact Nat.ne_of_lt (σ.bounds r (Or.inl hknown)) hsite
  bounds r hr := by
    simp only [Heap.cons, Array.size_push]
    rcases hr with hr | hr | hr
    · exact Nat.lt_succ_of_lt (σ.bounds r (Or.inl hr))
    · exact Nat.lt_succ_of_lt (σ.bounds r (Or.inr hr))
    · exact Nat.lt_succ_of_le (Nat.le_of_eq hr)

theorem le_conjoin (σ : Moment) (operands : Value) : σ.Le (σ.conjoin operands) := by
  refine .of_extends (fun _ _ => Heap.getElem?_push_of_some _) (fun _ => id) (fun _ => Or.inl) ?_
    (fun _ _ => id) (fun _ _ => id) rfl
  rintro r (hr | hr | hr)
  · exact Or.inl hr
  · exact Or.inr (Or.inl hr)
  · exact Or.inr (Or.inr (Nat.le_of_eq hr.symm))

theorem site_conjoin (σ : Moment) (operands : Value) :
    (σ.conjoin operands).Site ⟨σ.heap.pairs.size⟩ operands :=
  ⟨Or.inr rfl, Array.getElem?_push_size⟩

/-- The moment after a scope was made. -/
def withScope (σ : Moment) (s : Scope) : Moment where
  world := { σ.world with heap := (σ.heap.addScope s).2 }
  known := σ.known
  sites := σ.sites
  apart := σ.apart
  bounds := σ.bounds

theorem le_withScope (σ : Moment) (s : Scope) : σ.Le (σ.withScope s) :=
  .of_extends (fun _ _ => id) (fun _ => id) (fun _ => id)
    (fun _ hr => hr.elim Or.inl fun hr => Or.inr (Or.inl hr))
    (fun _ _ => Heap.getElem?_push_of_some _) (fun _ _ => id) rfl

/-- The moment after a scope and closures were made. -/
def enclosing (σ : Moment) (s : Scope) (cs : List Closure) : Moment where
  world := { σ.world with heap := { σ.heap with
    scopes := σ.heap.scopes.push s, closures := σ.heap.closures ++ cs.toArray } }
  known := σ.known
  sites := σ.sites
  apart := σ.apart
  bounds := σ.bounds

theorem le_enclosing (σ : Moment) (s : Scope) (cs : List Closure) : σ.Le (σ.enclosing s cs) :=
  .of_extends (fun _ _ => id) (fun _ => id) (fun _ => id)
    (fun _ hr => hr.elim Or.inl fun hr => Or.inr (Or.inl hr))
    (fun _ _ => Heap.getElem?_push_of_some _)
    (fun _ _ hc => by
      obtain ⟨hi, rfl⟩ := Array.getElem?_eq_some_iff.1 hc
      rw [← Array.getElem?_eq_getElem hi]
      exact Array.getElem?_append_left hi) rfl

/-! ## Replacing a conjunction -/

/-- The same moment, with a conjunction left out of account. -/
def without (σ : Moment) (r : Ref .pair) : Moment where
  world := σ.world
  known := σ.known
  sites r' := σ.sites r' ∧ r' ≠ r
  apart r' hsite := σ.apart r' hsite.1
  bounds r' hr := σ.bounds r' (hr.imp_right And.left)

/-- The moment after a pair nobody knew was changed for good. -/
def replacing (σ : Moment) (r : Ref .pair) (p : Pair) (entries : Array Entry)
    (hsite : ¬ σ.sites r) (hbound : r.index < σ.heap.pairs.size) : Moment where
  world := { σ.world with heap := σ.heap.setPair r p, log := entries }
  known r' := σ.known r' ∨ r' = r
  sites := σ.sites
  apart r' hr' := by
    rintro (hknown | rfl)
    · exact σ.apart r' hr' hknown
    · exact hsite hr'
  bounds r' hr' := by
    simp only [Heap.setPair, Array.size_setIfInBounds]
    rcases hr' with (hr' | rfl) | hr'
    · exact σ.bounds r' (Or.inl hr')
    · exact hbound
    · exact σ.bounds r' (Or.inr hr')

theorem cell_replacing {r : Ref .pair} {p : Pair} {entries : Array Entry} (hsite : ¬ σ.sites r)
    (hbound : r.index < σ.heap.pairs.size) : (σ.replacing r p entries hsite hbound).Cell r p :=
  ⟨Or.inr rfl, Array.getElem?_setIfInBounds_self_of_lt hbound⟩

theorem getElem?_replacing {r r' : Ref .pair} {p p' : Pair} {entries : Array Entry}
    (hsite : ¬ σ.sites r) (hbound : r.index < σ.heap.pairs.size) (hne : r' ≠ r)
    (h : σ.heap.pairs[r'.index]? = some p') :
    (σ.replacing r p entries hsite hbound).heap.pairs[r'.index]? = some p' := by
  have hindex : r.index ≠ r'.index := fun heq => hne (by cases r; cases r'; cases heq; rfl)
  simpa [heap, replacing, Heap.setPair, Array.getElem?_setIfInBounds_ne hindex] using h

theorem Cell.replacing {r r' : Ref .pair} {p p' : Pair} {entries : Array Entry}
    (hsite : ¬ σ.sites r) (hknown : ¬ σ.known r) (hbound : r.index < σ.heap.pairs.size)
    (h : σ.Cell r' p') : (σ.replacing r p entries hsite hbound).Cell r' p' :=
  ⟨Or.inl h.1, getElem?_replacing hsite hbound (by rintro rfl; exact hknown h.1) h.2⟩

theorem Conjoins.replacing {r : Ref .pair} {p : Pair} {entries : Array Entry}
    (hsite : ¬ σ.sites r) (hknown : ¬ σ.known r) (hbound : r.index < σ.heap.pairs.size)
    {v : Value} {xs : List Value} (h : σ.Conjoins v xs) :
    (σ.replacing r p entries hsite hbound).Conjoins v xs := by
  have hcells : ∀ r' p', σ.Cell r' p' → (σ.replacing r p entries hsite hbound).Cell r' p' :=
    fun _ _ => Cell.replacing hsite hknown hbound
  induction h with
  | @site r' _ _ hsite' hitems =>
      have hne : r' ≠ r := by
        rintro rfl
        exact hsite hsite'.1
      exact .site ⟨hsite'.1, getElem?_replacing hsite hbound hne hsite'.2⟩ (hitems.mono hcells)
  | last hcell hx => exact .last (hcells _ _ hcell) (hcells _ _ hx)
  | branch hcell hitems _ ih => exact .branch (hcells _ _ hcell) (hitems.mono hcells) ih

/-- A conjunction is replaced at a moment at which it was out of account. -/
theorem Le.replacing {r : Ref .pair} {p : Pair} {entries : Array Entry} {operands : Value}
    (h : (σ.without r).Le σ') (hr : σ.Site r operands) (hsite : ¬ σ'.sites r)
    (hknown : ¬ σ'.known r)
    (hbound : r.index < σ'.heap.pairs.size)
    (hconjoins : ∀ operands xs, σ.Site r operands → Items σ.Cell operands xs →
      (σ'.replacing r p entries hsite hbound).Conjoins (.pair r) xs) :
    σ.Le (σ'.replacing r p entries hsite hbound) := by
  refine ⟨?_, fun r' p' hr' => (h.cells r' p' hr').replacing hsite hknown hbound, ?_, ?_, ?_, ?_,
    h.scopes, h.closures, h.vectors, h.strings, h.continuations, ?_⟩
  · simpa [heap, Moment.replacing, Heap.setPair, without] using h.size
  · intro r' p' hr'
    have hne : r' ≠ r := by
      rintro rfl
      exact hr'.1 hr.1
    have hstill := h.stills r' p' ⟨fun hsite' => hr'.1 hsite'.1, hr'.2⟩
    exact ⟨hstill.1, getElem?_replacing hsite hbound hne hstill.2⟩
  · intro r' p' hsite' hp' hand
    have hne : r' ≠ r := by
      rintro rfl
      rw [hr.2] at hp'
      cases hp'
      exact hand rfl
    obtain ⟨hlater, hp''⟩ := h.waiting r' p' ⟨hsite', hne⟩ hp' hand
    exact ⟨hlater, getElem?_replacing hsite hbound hne hp''⟩
  · intro r' operands xs hsite' hitems
    by_cases heq : r' = r
    · subst heq
      exact hconjoins operands xs hsite' hitems
    · exact (h.sites r' operands xs ⟨⟨hsite'.1, heq⟩, hsite'.2⟩ hitems).replacing hsite hknown hbound
  · rintro r' ((hr' | rfl) | hr')
    · exact (h.fresh r' (Or.inl hr')).imp_right (Or.imp_left And.left)
    · exact Or.inr (Or.inl hr.1)
    · exact (h.fresh r' (Or.inr hr')).imp_right (Or.imp_left And.left)
  · have hothers := h.others
    simp only [Moment.replacing, heap] at hothers ⊢
    rw [hothers]
    rfl

end Moment

end Scheme
