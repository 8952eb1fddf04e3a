import Scheme.Proofs.Agreement
import Scheme.Proofs.InPlaceExpansion
import Scheme.Proofs.PreludeCode
/-!
# Connectives

A form of `and` or `or` stands for its operands: as the call that was written, or as what has
replaced the call and the calls within. Evaluation may rewrite it, which leaves it standing for the
same operands, and all other pairs as they are.
-/

namespace Scheme

open Evaluator

/-! ## Code in pairs of a kind -/

/-- The value is the datum, in pairs of a kind. -/
def LaidOut (cell : Ref .pair → Pair → Prop) (v : Value) : Datum → Prop
  | .nil => v = .nil
  | .boolean value => v = .boolean value
  | .number value => v = .number (.float value)
  | .symbol value => v = .symbol value
  | .pair first rest => ∃ r p, v = .pair r ∧ cell r p ∧ LaidOut cell p.first first ∧
      LaidOut cell p.rest rest
  | .character _ | .string _ | .vector _ => False

namespace LaidOut

variable {cell cell' : Ref .pair → Pair → Prop}

theorem mono (hcells : ∀ r p, cell r p → cell' r p) {v : Value} {d : Datum}
    (h : LaidOut cell v d) : LaidOut cell' v d := by
  cases d with
  | pair first rest =>
      obtain ⟨r, p, rfl, hcell, hfirst, hrest⟩ := h
      exact ⟨r, p, rfl, hcells r p hcell, hfirst.mono hcells, hrest.mono hcells⟩
  | _ => exact h
termination_by structural d

/-- A text without conjunctions is code as it stands. -/
theorem code {σ : Moment} {v : Value} {d : Datum} (hfree : d.isFree = true)
    (h : LaidOut σ.Cell v d) : σ.Code v d := by
  cases d with
  | pair first rest =>
      simp only [Datum.isFree, Bool.and_eq_true, Bool.not_eq_true'] at hfree
      obtain ⟨r, p, rfl, hcell, hfirst, hrest⟩ := h
      simp only [Moment.Code, hfree.1.1, Bool.false_eq_true, if_false]
      exact ⟨r, p, rfl, hcell, hfirst.code hfree.1.2, hrest.code hfree.2⟩
  | _ => exact h
termination_by structural d

end LaidOut

/-- A pair that is among those that are to stay. -/
def Heap.Still (h : Heap) (still : Ref .pair → Prop) (r : Ref .pair) (p : Pair) : Prop :=
  still r ∧ h.pairs[r.index]? = some p

/-! ## Connectives and their forms -/

/-- The two connectives. -/
inductive Connective where
  | conjunction
  | disjunction

namespace Connective

def name : Connective → Symbol
  | conjunction => ⟨"and"⟩
  | disjunction => ⟨"or"⟩

/-- The value of the connective without operands. -/
def unit : Connective → Value
  | conjunction => .boolean true
  | disjunction => .boolean false

/-- Whether the next operand is evaluated after an operand with the value. -/
def goesOn : Connective → Value → Bool
  | conjunction, v => v.isTrue
  | disjunction, v => !v.isTrue

/-- Whether the expression may be an operand. -/
def Admits : Connective → Value → Prop
  | conjunction, _ => True
  | disjunction, e => e ≠ .symbol .else_

/-- The text of the transformer. -/
def text : Connective → Datum
  | conjunction => conjunctionText
  | disjunction => disjunctionText

/-- The names in that text. -/
def names : Connective → Environment
  | conjunction => conjunctionNames
  | disjunction => disjunctionNames

/-- The name of the connective is seen from the scope with its transformer, the code of which has
its text in pairs that are to stay, and the names in that text have their values. -/
def Known (c : Connective) (h : Heap) (still : Ref .pair → Prop) (scope : Ref .scope) : Prop :=
  ∃ owner t body parent name, h.locate? c.name scope = some (owner, .transformer t) ∧
    h.closures[t.index]? = some ⟨⟨[], some ⟨"args"⟩⟩, body, parent, name⟩ ∧
    LaidOut (h.Still still) body c.text ∧
    ∀ s v, c.names.lookup s = some v → ∃ owner, h.locate? ⟨s⟩ parent = some (owner, v)

/-- The expression is a form of the connective and stands for the operands: it is the call, which is
yet to be replaced; or the call was replaced, of a conjunction by a copy of its only operand, by a
sequence if that is no pair, or by a branch on the first operand, and of a disjunction by clauses.
Other than a call and a copy, the pairs of the form are to stay. -/
inductive Stands (h : Heap) (still : Ref .pair → Prop) : Connective → Value → List Value → Prop where
  | call {c : Connective} {r : Ref .pair} {operands : Value} {es : List Value} (hr : ¬ still r)
      (hcell : h.pairs[r.index]? = some ⟨.symbol c.name, operands⟩)
      (hes : Items (h.Still still) operands es) (hadmits : ∀ e ∈ es, c.Admits e) :
      Stands h still c (.pair r) es
  | unit {c : Connective} {r b : Ref .pair} (hcell : h.Still still r ⟨.symbol .begin, .pair b⟩)
      (hbody : h.Still still b ⟨c.unit, .nil⟩) : Stands h still c (.pair r) []
  | copy {r e : Ref .pair} (hsame : h.pair r = h.pair e) :
      Stands h still conjunction (.pair r) [.pair e]
  | sequence {r b : Ref .pair} {e : Value} (hcell : h.Still still r ⟨.symbol .begin, .pair b⟩)
      (hbody : h.Still still b ⟨e, .nil⟩) (he : e.isPair = false) :
      Stands h still conjunction (.pair r) [e]
  | branch {r : Ref .pair} {arms e e' others : Value} {es : List Value}
      (hcell : h.Still still r ⟨.symbol ⟨"if"⟩, arms⟩)
      (harms : Items (h.Still still) arms [e, others, .boolean false])
      (hothers : Stands h still conjunction others (e' :: es)) :
      Stands h still conjunction (.pair r) (e :: e' :: es)
  | clauses {r : Ref .pair} {clauses e : Value} {cs es : List Value}
      (hcell : h.Still still r ⟨.symbol ⟨"cond"⟩, clauses⟩)
      (hclauses : Items (h.Still still) clauses cs)
      (htests : List.Forall₂ (fun clause e => Items (h.Still still) clause [e]) cs (e :: es))
      (hadmits : ∀ x ∈ e :: es, disjunction.Admits x) :
      Stands h still disjunction (.pair r) (e :: es)

/-- The form is no call any more: its pair is to stay, or it is a copy of its only operand. -/
def IsReplaced (c : Connective) (h : Heap) (still : Ref .pair → Prop) (r : Ref .pair)
    (es : List Value) : Prop :=
  Stands h still c (.pair r) es ∧
    (still r ∨ c = conjunction ∧ ∃ e, es = [.pair e] ∧ h.pair r = h.pair e)

/-- The same operands, but for a copy in the place of the last one. -/
def Alike (es es' : List Value) : Prop :=
  es'.length = es.length ∧ es'.dropLast = es.dropLast

theorem Alike.refl (es : List Value) : Alike es es :=
  ⟨rfl, rfl⟩

theorem Alike.cons {e : Value} {es es' : List Value} (h : Alike (e :: es) es') (x : Value) :
    Alike (x :: e :: es) (x :: es') := by
  obtain ⟨hlength, hlast⟩ := h
  cases es' with
  | nil => cases hlength
  | cons e' es' => exact ⟨congrArg (· + 1) hlength, congrArg (x :: ·) hlast⟩

/-- Pairs that are to stay have stayed, and forms that stood for operands still do. -/
structure Leaves (c : Connective) (scope : Ref .scope) (h : Heap) (still : Ref .pair → Prop)
    (h' : Heap) (still' : Ref .pair → Prop) : Prop where
  cells : ∀ r p, h.Still still r p → h'.Still still' r p
  forms : ∀ x es, Stands h still c x es → ∃ es', Alike es es' ∧ Stands h' still' c x es'
  known : c.Known h still scope → c.Known h' still' scope

/-- A call of the connective has been replaced, if anything was, and nothing else is changed. -/
structure Rewrites (c : Connective) (scope : Ref .scope) (site : Ref .pair) (w : World)
    (still : Ref .pair → Prop) (w' : World) (still' : Ref .pair → Prop) : Prop
    extends c.Leaves scope w.heap still w'.heap still' where
  pairs : ∀ r p, w.heap.pairs[r.index]? = some p → r ≠ site ∨ p.first ≠ .symbol c.name →
    w'.heap.pairs[r.index]? = some p
  fresh : ∀ r, still' r → still r ∨ r = site ∨ w.heap.pairs.size ≤ r.index
  scopes : ∀ (i : Nat) s, w.heap.scopes[i]? = some s → w'.heap.scopes[i]? = some s
  closures : ∀ (i : Nat) c, w.heap.closures[i]? = some c → w'.heap.closures[i]? = some c
  vectors : ∀ (i : Nat) elements, w.heap.vectors[i]? = some elements →
    w'.heap.vectors[i]? = some elements
  strings : w'.heap.strings = w.heap.strings
  continuations : w'.heap.continuations = w.heap.continuations
  others : w' = { w with heap := w'.heap, log := w'.log }

variable {c : Connective} {scope : Ref .scope} {h h' h'' : Heap}
  {still still' still'' : Ref .pair → Prop} {w w' : World} {site : Ref .pair}

theorem Known.mono (hcells : ∀ r p, h.Still still r p → h'.Still still' r p)
    (hscopes : ∀ (i : Nat) s, h.scopes[i]? = some s → h'.scopes[i]? = some s)
    (hclosures : ∀ (i : Nat) c, h.closures[i]? = some c → h'.closures[i]? = some c)
    (hknown : c.Known h still scope) : c.Known h' still' scope := by
  obtain ⟨owner, t, body, parent, name, hname, hclosure, hbody, hnames⟩ := hknown
  refine ⟨owner, t, body, parent, name, Heap.locateWithin_mono hscopes (Nat.le_refl _) hname,
    hclosures _ _ hclosure, hbody.mono hcells, fun s v hs => ?_⟩
  obtain ⟨owner', howner'⟩ := hnames s v hs
  exact ⟨owner', Heap.locateWithin_mono hscopes (Nat.le_refl _) howner'⟩

theorem Leaves.refl (c : Connective) (scope : Ref .scope) (h : Heap) (still : Ref .pair → Prop) :
    c.Leaves scope h still h still where
  cells _ _ hr := hr
  forms _ es hx := ⟨es, .refl es, hx⟩
  known hknown := hknown

theorem Rewrites.refl (c : Connective) (scope : Ref .scope) (site : Ref .pair) (w : World)
    (still : Ref .pair → Prop) : c.Rewrites scope site w still w still where
  toLeaves := .refl c scope w.heap still
  pairs _ _ hp _ := hp
  fresh _ hr := Or.inl hr
  scopes _ _ hs := hs
  closures _ _ hc := hc
  vectors _ _ hv := hv
  strings := rfl
  continuations := rfl
  others := rfl

/-! ## The expansion of a call -/

/-- The moment of a world at which some pairs are known, and no call is to be replaced. -/
def keeping (w : World) (still : Ref .pair → Prop) : Moment where
  world := w
  known r := still r ∧ r.index < w.heap.pairs.size
  sites _ := False
  apart _ hsite := hsite.elim
  bounds _ hr := hr.elim And.right False.elim

theorem cell_keeping {r : Ref .pair} {p : Pair} (hr : w.heap.Still still r p) :
    (keeping w still).Cell r p :=
  ⟨⟨hr.1, (Array.getElem?_eq_some_iff.1 hr.2).1⟩, hr.2⟩

/-- What the expansion of a call is. -/
def Makes : Connective → Moment → Value → List Value → Prop
  | conjunction, σ, v, es => σ.Expands v es
  | disjunction, σ, v, es => σ.Clauses v es

theorem isFree_text (c : Connective) : c.text.isFree = true := by
  cases c <;> decide

/-- The transformer of a connective makes the expansion of a call. -/
theorem Known.expands (hknown : c.Known w.heap still scope) (es : List Value) :
    ∃ owner t inner w₁ σ v, w.heap.locate? c.name scope = some (owner, .transformer t) ∧
      w.enter (w.heap.closure t).parameters es (w.heap.closure t).scope = (inner, w₁) ∧
      Yields (w.heap.closure t).body inner w₁ v σ.world ∧ (keeping w still).Le σ ∧
      c.Makes σ v es := by
  obtain ⟨owner, t, body, parent, name, hname, hclosure, hbody, hnames⟩ := hknown
  have hcode : (keeping w still).Code body c.text :=
    (hbody.mono fun _ _ => cell_keeping).code c.isFree_text
  have hbinds : (keeping w still).Binds parent c.names := by
    refine ⟨?_, hnames⟩
    have hsome : ∃ owner, w.heap.locate? ⟨"null?"⟩ parent = some (owner, .primitive .isNull) :=
      hnames _ _ (by cases c <;> rfl)
    obtain ⟨_, hsome⟩ := hsome
    exact Heap.inBounds_of_locate? hsome
  have hmakes : ∃ inner w₁ σ v, w.enter (w.heap.closure t).parameters es
      (w.heap.closure t).scope = (inner, w₁) ∧
      Yields (w.heap.closure t).body inner w₁ v σ.world ∧ (keeping w still).Le σ ∧
        c.Makes σ v es := by
    cases c with
    | conjunction => exact Moment.expands_conjunction ⟨body, parent, name, hclosure, hcode, hbinds⟩ es
    | disjunction => exact Moment.expands_disjunction hclosure hcode hbinds es
  obtain ⟨inner, w₁, σ, v, hrest⟩ := hmakes
  exact ⟨owner, t, inner, w₁, σ, v, hname, hrest⟩

end Connective

/-! ## The expansion takes the place of the call -/

namespace Heap

variable {h h' : Heap} {site r : Ref .pair} {v : Value} {p : Pair}

theorem getElem?_pair (hr : r.index < h.pairs.size) : h.pairs[r.index]? = some (h.pair r) := by
  simp [Heap.pair, hr]

theorem Spliced.size_le (hspliced : h.Spliced site v h') : h.pairs.size ≤ h'.pairs.size := by
  cases hv : v.isPair with
  | true =>
      obtain ⟨e, rfl⟩ : ∃ e, v = .pair e := by
        cases v <;> cases hv
        exact ⟨_, rfl⟩
      exact Nat.le_of_eq (hspliced.pair e rfl).2.symm
  | false =>
      obtain ⟨_, _, _, _, hsize⟩ := hspliced.other hv
      omega

theorem Spliced.getElem?_elsewhere (hspliced : h.Spliced site v h') (hr : r ≠ site)
    (hp : h.pairs[r.index]? = some p) : h'.pairs[r.index]? = some p := by
  have hlt := (Array.getElem?_eq_some_iff.1 hp).1
  rw [getElem?_pair (Nat.lt_of_lt_of_le hlt hspliced.size_le), hspliced.elsewhere r hr hlt,
    pair_eq_of_getElem? hp]

/-- A pair and the call that it replaces are the same from then on. -/
theorem Spliced.pair_eq {e : Ref .pair} (hspliced : h.Spliced site (.pair e) h') :
    h'.pair site = h.pair e ∧ h'.pair e = h.pair e := by
  obtain ⟨hsite, hsize⟩ := hspliced.pair e rfl
  refine ⟨hsite, ?_⟩
  by_cases he : e = site
  · rw [he, hsite, he]
  · by_cases hlt : e.index < h.pairs.size
    · exact hspliced.elsewhere e he hlt
    · simp [Heap.pair, hsize, Nat.le_of_not_lt hlt]

end Heap

namespace Connective

/-- A call of the connective and its expansion, at the moment before that takes its place. -/
structure Expanded (c : Connective) (scope : Ref .scope) (site : Ref .pair) (operands : Value)
    (es : List Value) (w : World) (still : Ref .pair → Prop) (σ : Moment) (v : Value) : Prop where
  apart : ¬ still site
  cell : w.heap.pairs[site.index]? = some ⟨.symbol c.name, operands⟩
  items : Items (w.heap.Still still) operands es
  le : (keeping w still).Le σ
  known : c.Known w.heap still scope

variable {c : Connective} {scope : Ref .scope} {site : Ref .pair} {operands v : Value}
  {es : List Value} {w : World} {still still' : Ref .pair → Prop} {σ : Moment}

namespace Expanded

variable (h : c.Expanded scope site operands es w still σ v) (t : Ref .closure)
include h

theorem fresh {r : Ref .pair} (hr : σ.known r ∨ σ.sites r) :
    still r ∧ r.index < w.heap.pairs.size ∨ w.heap.pairs.size ≤ r.index := by
  rcases h.le.fresh r hr with hr | hr | hr
  · exact Or.inl hr
  · exact hr.elim
  · exact Or.inr hr

theorem site_lt : site.index < w.heap.pairs.size :=
  (Array.getElem?_eq_some_iff.1 h.cell).1

theorem ne_site {r : Ref .pair} (hr : σ.known r ∨ σ.sites r) : r ≠ site := by
  rintro rfl
  rcases h.fresh hr with hr | hr
  · exact h.apart hr.1
  · exact Nat.not_lt_of_le hr h.site_lt

theorem spliced : σ.heap.Spliced site v (spliced site t v σ.world).heap ∧
    spliced site t v σ.world = { σ.world with
      heap := (spliced site t v σ.world).heap, log := (spliced site t v σ.world).log } :=
  Step.spliced_spliced (Nat.lt_of_lt_of_le h.site_lt h.le.size) v

theorem getElem?_spliced {r : Ref .pair} {p : Pair} (hr : r ≠ site)
    (hp : w.heap.pairs[r.index]? = some p) :
    (Evaluator.spliced site t v σ.world).heap.pairs[r.index]? = some p :=
  (h.spliced t).1.getElem?_elsewhere hr (h.le.stills r p ⟨id, hp⟩).2

theorem scopes_spliced (i : Nat) (s : Scope) (hs : w.heap.scopes[i]? = some s) :
    (Evaluator.spliced site t v σ.world).heap.scopes[i]? = some s := by
  rw [(h.spliced t).1.scopes]
  exact h.le.scopes i s hs

theorem closures_spliced (i : Nat) (cl : Closure) (hcl : w.heap.closures[i]? = some cl) :
    (Evaluator.spliced site t v σ.world).heap.closures[i]? = some cl := by
  rw [(h.spliced t).1.closures]
  exact h.le.closures i cl hcl

theorem still_spliced (hstill : ∀ r, σ.known r → still' r) {r : Ref .pair} {p : Pair}
    (hr : σ.Cell r p) : (Evaluator.spliced site t v σ.world).heap.Still still' r p :=
  ⟨hstill r hr.1, (h.spliced t).1.getElem?_elsewhere (h.ne_site (Or.inl hr.1)) hr.2⟩

/-- All forms stand for their operands when the expansion has taken the place of the call, if the
call does. -/
theorem stands (hstill : ∀ r, σ.known r → still' r)
    (hnew : ∀ r, still' r → σ.known r ∨ r = site ∨ σ.heap.pairs.size ≤ r.index)
    (hnow : Stands (Evaluator.spliced site t v σ.world).heap still' c (.pair site) es) {x : Value}
    {xs : List Value} (hx : Stands w.heap still c x xs) :
    ∃ xs', Alike xs xs' ∧ Stands (Evaluator.spliced site t v σ.world).heap still' c x xs' := by
  have hcells : ∀ r p, w.heap.Still still r p →
      (Evaluator.spliced site t v σ.world).heap.Still still' r p := fun r p hr =>
    h.still_spliced t hstill (h.le.cells r p (cell_keeping hr))
  induction hx with
  | @call _ r _ xs hr hcell hes hadmits =>
      refine ⟨xs, .refl xs, ?_⟩
      by_cases heq : r = site
      · subst heq
        cases hcell.symm.trans h.cell
        have hunique : ∀ r p q, w.heap.Still still r p → w.heap.Still still r q → p = q :=
          fun _ _ _ hp hq => Option.some.inj (hp.2.symm.trans hq.2)
        rwa [Items.unique hunique hes h.items]
      · refine .call (fun hstays => ?_) (h.getElem?_spliced t heq hcell) (hes.mono hcells) hadmits
        have hlt := (Array.getElem?_eq_some_iff.1 hcell).1
        rcases hnew r hstays with hknown | hsite | hsize
        · rcases h.fresh (Or.inl hknown) with hold | hold
          · exact hr hold.1
          · exact Nat.not_lt_of_le hold hlt
        · exact heq hsite
        · exact Nat.not_lt_of_le hsize (Nat.lt_of_lt_of_le hlt h.le.size)
  | unit hcell hbody => exact ⟨[], .refl [], .unit (hcells _ _ hcell) (hcells _ _ hbody)⟩
  | @copy r e => exact ⟨[.pair r], ⟨rfl, rfl⟩, .copy rfl⟩
  | sequence hcell hbody he =>
      exact ⟨_, .refl _, .sequence (hcells _ _ hcell) (hcells _ _ hbody) he⟩
  | @branch r arms e e' others xs hcell harms _ ih =>
      obtain ⟨xs', halike, hothers⟩ := ih h hnow
      refine ⟨e :: xs', halike.cons e, ?_⟩
      cases xs' with
      | nil => cases halike.1
      | cons => exact .branch (hcells _ _ hcell) (harms.mono hcells) hothers
  | clauses hcell hclauses htests hadmits =>
      exact ⟨_, .refl _, .clauses (hcells _ _ hcell) (hclauses.mono hcells)
        (htests.imp fun _ _ htest => htest.mono hcells) hadmits⟩

theorem rewrites (hstill : ∀ r, σ.known r → still' r)
    (hnew : ∀ r, still' r → σ.known r ∨ r = site ∨ σ.heap.pairs.size ≤ r.index)
    (hnow : Stands (Evaluator.spliced site t v σ.world).heap still' c (.pair site) es) :
    c.Rewrites scope site w still (Evaluator.spliced site t v σ.world) still' := by
  obtain ⟨hspliced, hworld⟩ := h.spliced t
  have hcells : ∀ r p, w.heap.Still still r p →
      (Evaluator.spliced site t v σ.world).heap.Still still' r p := fun r p hr =>
    h.still_spliced t hstill (h.le.cells r p (cell_keeping hr))
  refine ⟨⟨hcells, fun x xs => h.stands t hstill hnew hnow, ?_⟩, ?_, ?_, ?_, ?_, ?_, ?_, ?_, ?_⟩
  · exact Known.mono hcells (h.scopes_spliced t) (h.closures_spliced t)
  · intro r p hp hother
    have hne : r ≠ site := by
      rcases hother with hne | hne
      · exact hne
      · rintro rfl
        cases hp.symm.trans h.cell
        exact hne rfl
    exact h.getElem?_spliced t hne hp
  · intro r hr
    rcases hnew r hr with hr | hr | hr
    · exact (h.fresh (Or.inl hr)).imp And.left Or.inr
    · exact Or.inr (Or.inl hr)
    · exact Or.inr (Or.inr (Nat.le_trans h.le.size hr))
  · exact h.scopes_spliced t
  · exact h.closures_spliced t
  · intro i elements helements
    rw [hspliced.vectors]
    exact h.le.vectors i elements helements
  · exact hspliced.strings.trans h.le.strings
  · exact hspliced.continuations.trans h.le.continuations
  · rw [hworld, h.le.others]
    rfl

/-- An expansion that is no pair becomes the last form of a sequence. -/
theorem exists_sequence (hv : v.isPair = false) : ∃ b still',
    (∀ r, σ.known r → still' r) ∧
    (∀ r, still' r → σ.known r ∨ r = site ∨ σ.heap.pairs.size ≤ r.index) ∧
    (Evaluator.spliced site t v σ.world).heap.Still still' site ⟨.symbol .begin, .pair b⟩ ∧
    (Evaluator.spliced site t v σ.world).heap.Still still' b ⟨v, .nil⟩ := by
  obtain ⟨hspliced, -⟩ := h.spliced t
  obtain ⟨b, hindex, hsite, hbody, hsize⟩ := hspliced.other hv
  refine ⟨b, fun r => σ.known r ∨ r = site ∨ r = b, fun r => Or.inl, ?_, ⟨Or.inr (Or.inl rfl), ?_⟩,
    Or.inr (Or.inr rfl), ?_⟩
  · rintro r (hr | hr | rfl)
    · exact Or.inl hr
    · exact Or.inr (Or.inl hr)
    · exact Or.inr (Or.inr (Nat.le_of_eq hindex.symm))
  · rw [Heap.getElem?_pair (Nat.lt_of_lt_of_le (Nat.lt_of_lt_of_le h.site_lt h.le.size)
      hspliced.size_le), hsite]
  · have hlt : b.index < (Evaluator.spliced site t v σ.world).heap.pairs.size := by
      rw [hsize, hindex]
      exact Nat.lt_succ_self _
    rw [Heap.getElem?_pair hlt, hbody]

/-- An expansion that is a pair has its fields in the place of the call. -/
theorem still_site {q : Ref .pair} {p : Pair} (hv : v = .pair q) (hq : σ.Cell q p) :
    (Evaluator.spliced site t v σ.world).heap.Still (fun r => σ.known r ∨ r = site) site p := by
  obtain ⟨hspliced, -⟩ := h.spliced t
  subst hv
  refine ⟨Or.inr rfl, ?_⟩
  rw [Heap.getElem?_pair (Nat.lt_of_lt_of_le (Nat.lt_of_lt_of_le h.site_lt h.le.size)
    hspliced.size_le), hspliced.pair_eq.1, Heap.pair_eq_of_getElem? hq.2]

/-- The call is replaced by its expansion, which stands for the same operands. -/
theorem exists_rewrites (hmakes : c.Makes σ v es) (hadmits : ∀ e ∈ es, c.Admits e) :
    ∃ still', c.Rewrites scope site w still (Evaluator.spliced site t v σ.world) still' ∧
      c.IsReplaced (Evaluator.spliced site t v σ.world).heap still' site es := by
  -- Either the call turns into a form whose pairs stay, or into a copy.
  have hkeeps : ∀ still', (∀ r, σ.known r → still' r) →
      (∀ r, still' r → σ.known r ∨ r = site ∨ σ.heap.pairs.size ≤ r.index) → still' site →
      Stands (Evaluator.spliced site t v σ.world).heap still' c (.pair site) es →
      ∃ still', c.Rewrites scope site w still (Evaluator.spliced site t v σ.world) still' ∧
        c.IsReplaced (Evaluator.spliced site t v σ.world).heap still' site es :=
    fun still' hstill hnew hsite hnow =>
      ⟨still', h.rewrites t hstill hnew hnow, hnow, Or.inl hsite⟩
  have hpair : (∀ r, σ.known r ∨ r = site → σ.known r ∨ r = site ∨ σ.heap.pairs.size ≤ r.index) :=
    fun r hr => hr.imp_right Or.inl
  have hcells : ∀ r p, σ.Cell r p →
      (Evaluator.spliced site t v σ.world).heap.Still (fun r => σ.known r ∨ r = site) r p :=
    fun r p => h.still_spliced t fun r => Or.inl
  cases c with
  | conjunction =>
      cases hmakes with
      | none =>
          obtain ⟨b, still', hstill, hnew, hsite, hbody⟩ := h.exists_sequence t rfl
          exact hkeeps still' hstill hnew hsite.1 (.unit hsite hbody)
      | last x =>
          cases hv : v.isPair with
          | true =>
              obtain ⟨e, rfl⟩ : ∃ e, v = .pair e := by
                cases v <;> cases hv
                exact ⟨_, rfl⟩
              obtain ⟨hsite, he⟩ := (h.spliced t).1.pair_eq
              have hnow : Stands _ σ.known conjunction (.pair site) [.pair e] :=
                .copy (hsite.trans he.symm)
              exact ⟨σ.known, h.rewrites t (fun _ => id) (fun _ => Or.inl) hnow, hnow,
                Or.inr ⟨rfl, e, rfl, hsite.trans he.symm⟩⟩
          | false =>
              obtain ⟨b, still', hstill, hnew, hsite, hbody⟩ := h.exists_sequence t hv
              exact hkeeps still' hstill hnew hsite.1 (.sequence hsite hbody hv)
      | @branch _ x x' rest q xs hitems hsite hothers =>
          cases hitems with
          | cons hcell harms =>
              refine hkeeps _ (fun r => Or.inl) hpair (Or.inr rfl) (.branch
                (h.still_site t rfl hcell) (harms.mono hcells) (.call ?_ ?_ (hothers.mono hcells) ?_))
              · rintro (hknown | heq)
                · exact σ.apart q hsite.1 hknown
                · exact h.ne_site (Or.inr hsite.1) heq
              · exact (h.spliced t).1.getElem?_elsewhere (h.ne_site (Or.inr hsite.1)) hsite.2
              · exact fun _ _ => trivial
  | disjunction =>
      rcases hmakes with ⟨rfl, rfl⟩ | ⟨hsome, q, clauses, hv, hcell, cs, hclauses, htests⟩
      · obtain ⟨b, still', hstill, hnew, hsite, hbody⟩ := h.exists_sequence t rfl
        exact hkeeps still' hstill hnew hsite.1 (.unit hsite hbody)
      · cases es with
        | nil => exact absurd rfl hsome
        | cons e es =>
            exact hkeeps _ (fun r => Or.inl) hpair (Or.inr rfl) (.clauses (h.still_site t hv hcell)
              (hclauses.mono hcells) (htests.imp fun _ _ htest => htest.mono hcells) hadmits)

end Expanded

/-- A call of a transformer comes to the ends of its expansion in its place. -/
theorem sameEnds_expansion {site : Ref .pair} {s : Symbol} {rest x : Value}
    {vs : List Value} {c : Ref .closure} {scope inner owner : Ref .scope} {w w₁ w₂ : World}
    (hcell : w.heap.pair site = ⟨.symbol s, rest⟩) (hs : SpecialForm.ofSymbol? s = none)
    (hname : w.heap.locate? s scope = some (owner, .transformer c))
    (helements : World.elements rest w = .value vs w)
    (henter : w.enter (w.heap.closure c).parameters vs (w.heap.closure c).scope = (inner, w₁))
    (hbody : Yields (w.heap.closure c).body inner w₁ x w₂) :
    Attempt.SameEnds (fun time => (within time).eval (.pair site) scope w)
      (fun time => (within time).eval (.pair site) scope (spliced site c x w₂)) := by
  obtain ⟨least, hoperator⟩ : Yields (.symbol s) scope w (.transformer c) w := .variable hname
  have hexpands : Settles (fun time => (within time).expand site c rest w) (.pair site)
      (spliced site c x w₂) := settles_expand helements henter hbody
  obtain ⟨least', hexpand⟩ := hexpands
  refine .of_eventually (steady_eval _ _ _) (steady_eval _ _ _) (max least least') 1
    fun time htime => ?_
  refine (combination_eq hcell hs time).trans ?_
  simp only [combination, hoperator time (by omega), Attempt.andThen, hexpand time (by omega)]

/-- A form of a connective has been replaced, or it is when it is evaluated. -/
theorem Known.replaced {x : Value} (hknown : c.Known w.heap still scope)
    (hx : Stands w.heap still c x es) : ∃ r w' still', x = .pair r ∧
      c.Rewrites scope r w still w' still' ∧ c.IsReplaced w'.heap still' r es ∧
      Attempt.SameEnds (fun time => (within time).eval x scope w)
        (fun time => (within time).eval x scope w') := by
  have hthere : ∀ r, x = .pair r → c.IsReplaced w.heap still r es →
      ∃ r w' still', x = .pair r ∧ c.Rewrites scope r w still w' still' ∧
        c.IsReplaced w'.heap still' r es ∧
        Attempt.SameEnds (fun time => (within time).eval x scope w)
          (fun time => (within time).eval x scope w') := fun r hr hreplaced =>
    ⟨r, w, still, hr, .refl c scope r w still, hreplaced, fun _ => Iff.rfl⟩
  cases hx with
  | @call _ r operands _ hr hcell hes hadmits =>
      obtain ⟨owner, t, inner, w₁, σ, v, hname, henter, hbody, hle, hmakes⟩ := hknown.expands es
      have hexpanded : c.Expanded scope r operands es w still σ v := ⟨hr, hcell, hes, hle, hknown⟩
      obtain ⟨still', hrewrites, hreplaced⟩ := hexpanded.exists_rewrites t hmakes hadmits
      have hlists : w.heap.Lists operands es := hes.mono fun _ _ hp => hp.2
      exact ⟨r, _, still', rfl, hrewrites, hreplaced,
        sameEnds_expansion (Heap.pair_eq_of_getElem? hcell) (by cases c <;> rfl) hname
          (World.elements_eq hlists) henter hbody⟩
  | unit hcell hbody => exact hthere _ rfl ⟨.unit hcell hbody, Or.inl hcell.1⟩
  | sequence hcell hbody he => exact hthere _ rfl ⟨.sequence hcell hbody he, Or.inl hcell.1⟩
  | branch hcell harms hothers => exact hthere _ rfl ⟨.branch hcell harms hothers, Or.inl hcell.1⟩
  | clauses hcell hclauses htests hadmits =>
      exact hthere _ rfl ⟨.clauses hcell hclauses htests hadmits, Or.inl hcell.1⟩
  | copy hsame => exact hthere _ rfl ⟨.copy hsame, Or.inr ⟨rfl, _, rfl, hsame⟩⟩

end Connective

end Scheme
