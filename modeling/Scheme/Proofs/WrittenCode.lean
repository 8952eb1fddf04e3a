import Scheme.Proofs.Connectives
import Scheme.Proofs.Quasiquotation
/-!
# Code with templates

The code of a transformer may hold templates and local bindings of its own, which are replaced by
their expansions in place, the first time each of them is evaluated. As it was written it lies in
pairs that stay as they are, but for the templates, which are to be replaced.
-/

namespace Scheme

open Evaluator

namespace LaidOut

variable {cell cell' : Ref .pair → Pair → Prop} {v : Value} {d d' : Datum}

/-- A value is one datum at most. -/
theorem unique (hcell : ∀ r p q, cell r p → cell r q → p = q) {v : Value} {d d' : Datum}
    (h : LaidOut cell v d) (h' : LaidOut cell v d') : d = d' := by
  cases d with
  | pair first rest =>
      obtain ⟨r, p, rfl, hr, hfirst, hrest⟩ := h
      cases d' with
      | pair first' rest' =>
          obtain ⟨r', p', heq, hr', hfirst', hrest'⟩ := h'
          cases heq
          cases hcell r p p' hr hr'
          rw [unique hcell hfirst hfirst', unique hcell hrest hrest']
      | _ => cases h'
  | character | string | vector => cases h
  | _ =>
      cases h
      cases d' with
      | pair =>
          obtain ⟨_, _, heq, -⟩ := h'
          cases heq
      | _ => cases h' <;> rfl
termination_by structural d

theorem eq_symbol {s : Symbol} (h : LaidOut cell (.symbol s) d) : d = .symbol s := by
  cases d with
  | pair =>
      obtain ⟨_, _, heq, -⟩ := h
      cases heq
  | _ => cases h <;> rfl

theorem ne_symbol {s : String} (h : LaidOut cell v d) (hs : d.isName s = false) :
    v ≠ .symbol ⟨s⟩ := by
  rintro rfl
  rw [h.eq_symbol] at hs
  simp [Datum.isName] at hs

end LaidOut

/-- No part of the text is headed by the name of templates. -/
def Datum.isFlat : Datum → Bool
  | .pair first rest => !first.isName "quasiquote" && first.isFlat && rest.isFlat
  | _ => true

/-- The template holds none within. -/
def Datum.isSimple (d : Datum) : Bool :=
  (Datum.list [d]).isFlat

namespace Moment

variable {σ σ' : Moment} {r : Ref .pair} {p q : Pair} {v : Value} {d : Datum}

/-- A pair of code as it was written: a template is to be replaced, and all else stays. -/
def Lies (σ : Moment) (r : Ref .pair) (p : Pair) : Prop :=
  if p.first = .symbol .quasiquote then σ.sites r ∧ σ.heap.pairs[r.index]? = some p
  else σ.Cell r p

theorem Lies.getElem? (h : σ.Lies r p) : σ.heap.pairs[r.index]? = some p := by
  unfold Lies at h
  split at h
  · exact h.2
  · exact h.2

theorem Lies.unique (h : σ.Lies r p) (h' : σ.Lies r q) : p = q :=
  Option.some.inj (h.getElem?.symm.trans h'.getElem?)

theorem Lies.site (h : σ.Lies r p) (hhead : p.first = .symbol .quasiquote) : σ.sites r := by
  unfold Lies at h
  rw [if_pos hhead] at h
  exact h.1

theorem Lies.cell (h : σ.Lies r p) (hhead : p.first ≠ .symbol .quasiquote) : σ.Cell r p := by
  unfold Lies at h
  rwa [if_neg hhead] at h

theorem Cell.lies (h : σ.Cell r p) (hhead : p.first ≠ .symbol .quasiquote) : σ.Lies r p := by
  unfold Lies
  rwa [if_neg hhead]

theorem Lies.mono (h : σ.Le σ') (hr : σ.Lies r p) : σ'.Lies r p := by
  by_cases hhead : p.first = .symbol .quasiquote
  · unfold Lies at hr ⊢
    rw [if_pos hhead] at hr ⊢
    exact h.waiting r p hr.1 hr.2 (by rw [hhead]; decide)
  · exact (h.cells r p (hr.cell hhead)).lies hhead

/-- Code without templates stays as it is. -/
theorem cells_of_lies {v : Value} {d : Datum} (hflat : d.isFlat = true)
    (h : LaidOut σ.Lies v d) : LaidOut σ.Cell v d := by
  cases d with
  | pair first rest =>
      simp only [Datum.isFlat, Bool.and_eq_true, Bool.not_eq_true'] at hflat
      obtain ⟨r, p, rfl, hr, hfirst, hrest⟩ := h
      exact ⟨r, p, rfl, hr.cell (hfirst.ne_symbol hflat.1.1), cells_of_lies hflat.1.2 hfirst,
        cells_of_lies hflat.2 hrest⟩
  | _ => exact h
termination_by structural d

/-- The call of the transformer for templates as it was written, with the templates within. -/
def Unexpanded (σ : Moment) (r : Ref .pair) (d : Datum) : Prop :=
  LaidOut σ.Lies (.pair r) d.template

theorem Unexpanded.site (h : σ.Unexpanded r d) : σ.sites r := by
  obtain ⟨_, p, heq, hr, hname, -⟩ := h
  cases heq
  exact hr.site hname

theorem Unexpanded.form (h : σ.Unexpanded r d) : ∃ operand x,
    σ.heap.pairs[r.index]? = some ⟨.symbol .quasiquote, .pair operand⟩ ∧
      σ.Lies operand ⟨x, .nil⟩ ∧ LaidOut σ.Lies x d := by
  obtain ⟨_, ⟨_, _⟩, heq, hr, hname, operand, ⟨x, _⟩, rfl, hoperand, hx, hnil⟩ := h
  cases heq
  cases hname
  cases hnil
  exact ⟨operand, x, hr.getElem?, hoperand, hx⟩

theorem Unexpanded.unique {d' : Datum} (h : σ.Unexpanded r d) (h' : σ.Unexpanded r d') :
    d = d' := by
  have hlies : ∀ r p q, σ.Lies r p → σ.Lies r q → p = q := fun _ _ _ => Lies.unique
  have heq := LaidOut.unique hlies h h'
  simpa [Datum.template, Datum.form, Datum.list, Datum.listStar] using heq

theorem Unexpanded.mono (h : σ.Le σ') (hr : σ.Unexpanded r d) : σ'.Unexpanded r d :=
  LaidOut.mono (fun _ _ => Lies.mono h) hr

end Moment

/-! ## Templates in code -/

namespace Datum

/-- The value of an atom. -/
def atom : Datum → Value
  | .nil => .nil
  | .boolean value => .boolean value
  | .number value => .number (.float value)
  | .symbol value => .symbol value
  | _ => .endOfFile

/-- Whether a pair of these parts is a list of the symbol and one operand. -/
def isMarked (s : Symbol) : Datum → Datum → Bool
  | .symbol t, .pair _ .nil => t = s
  | _, _ => false

/-- The first element of a list. -/
def head : Datum → Datum
  | .pair first _ => first
  | _ => .nil

/-- All elements of a list but the first. -/
def tail : Datum → Datum
  | .pair _ rest => rest
  | _ => .nil

/-- What a pair of these parts is to a template. -/
def role (first rest : Datum) : Template.Role :=
  if isMarked .unquote first rest then .unquoted
  else if isMarked .quasiquote first rest then .nested
  else match first with
    | .pair mark operand => if isMarked .unquoteSplicing mark operand then .spliced else .plain
    | _ => .plain

/-- A template that holds none within, other than in its expressions, and asks neither for
quotations nor for templates. -/
def isSketch : Datum → Bool
  | .pair first rest =>
    match role first rest with
    | .unquoted => !rest.head.head.isName "quote" && !rest.head.head.isName "quasiquote"
    | .nested => false
    | .spliced => rest.isSketch
    | .plain => !first.isName "quasiquote" && first.isSketch && rest.isSketch
  | .character _ | .string _ | .vector _ => false
  | _ => true

end Datum

/-- The template that lies in the pairs of a value. -/
def Heap.template (h : Heap) (v : Value) : Datum → Template
  | .pair first rest =>
    .pair (h.first v) (h.template (h.first v) first) (h.template (h.rest v) rest)
  | d => .atom d.atom

/-- The plan is for the template, and its expressions are code for those in the template. -/
def Plan.Follows (code : Value → Datum → Prop) : Plan → Datum → Prop
  | plan, .pair first rest =>
    match Datum.role first rest with
    | .unquoted => ∃ e, plan = .hole e ∧ code e rest.head
    | .spliced => ∃ e p, plan = .splice e p ∧ code e first.tail.head ∧ Follows code p rest
    | _ => ∃ p q, plan = .pair p q ∧ Follows code p first ∧ Follows code q rest
  | plan, d => plan = .atom d.atom

namespace Heap

variable {h : Heap} {cell : Ref .pair → Pair → Prop} {v w : Value} {s : Symbol}
  {first rest d : Datum}

theorem isMarked_template :
    Template.isMarked s (h.template v first) (h.template w rest) = Datum.isMarked s first rest := by
  cases first with
  | symbol t =>
      cases rest with
      | pair a b => cases b <;> rfl
      | _ => rfl
  | _ => rfl

theorem role_template :
    Template.role (h.template v first) (h.template w rest) = Datum.role first rest := by
  unfold Template.role Datum.role
  rw [isMarked_template, isMarked_template]
  cases first with
  | pair mark operand =>
      have hform : (h.template v (.pair mark operand)).isForm .unquoteSplicing =
          Datum.isMarked .unquoteSplicing mark operand := isMarked_template
      rw [hform]
  | _ => rfl

/-- Code is the template that lies in its pairs. -/
theorem holds_template {row : Ref .vector → Array Value → Prop}
    (hcell : ∀ r p, cell r p → h.pairs[r.index]? = some p) {still : Ref .pair → Pair → Prop}
    (hstill : ∀ r p, cell r p → still r p) {v : Value} {d : Datum} (hv : LaidOut cell v d) :
    (h.template v d).Holds still row v := by
  cases d with
  | pair first rest =>
      obtain ⟨r, p, rfl, hr, hfirst, hrest⟩ := hv
      have hpair := pair_eq_of_getElem? (hcell r p hr)
      have hfirst_eq : h.first (.pair r) = p.first := congrArg Pair.first hpair
      have hrest_eq : h.rest (.pair r) = p.rest := congrArg Pair.rest hpair
      simp only [template, hfirst_eq, hrest_eq]
      exact ⟨r, p.rest, rfl, hstill r p hr, holds_template hcell hstill hfirst,
        holds_template hcell hstill hrest⟩
  | character | string | vector => cases hv
  | _ =>
      cases hv
      exact ⟨rfl, rfl, rfl⟩
termination_by structural d

end Heap

namespace Datum

variable {s : Symbol} {first rest : Datum}

theorem eq_of_isMarked (h : isMarked s first rest = true) :
    first = .symbol s ∧ rest = .pair rest.head .nil := by
  unfold isMarked at h
  split at h
  · exact ⟨by rw [of_decide_eq_true h], rfl⟩
  · cases h

theorem eq_of_unquoted (h : role first rest = .unquoted) :
    first = .symbol .unquote ∧ rest = .pair rest.head .nil := by
  unfold role at h
  split at h
  · exact eq_of_isMarked (by assumption)
  · repeat' split at h
    all_goals cases h

theorem eq_of_spliced (h : role first rest = .spliced) :
    first = .pair (.symbol .unquoteSplicing) (.pair first.tail.head .nil) := by
  unfold role at h
  split at h
  · cases h
  · split at h
    · cases h
    · split at h
      · split at h
        · rename_i hmarked
          obtain ⟨rfl, hoperand⟩ := eq_of_isMarked hmarked
          rw [hoperand]
          rfl
        · cases h
      · cases h

end Datum

namespace Moment

variable {σ τ : Moment} {v e x : Value} {d first rest : Datum}

theorem spares_of_lies (hcell : ∀ r p, σ.Cell r p → τ.Cell r p)
    (hstill : ∀ r p, σ.Lies r p → τ.Still r p) (hd : d.head.isName "quote" = false)
    (he : LaidOut σ.Lies e d) : Template.Spares τ.Still τ.Cell e := by
  rintro r rfl
  cases d with
  | pair first rest =>
      obtain ⟨_, p, heq, hr, hfirst, -⟩ := he
      cases heq
      refine ⟨p, hstill r p hr, fun hlist => hcell r p (hr.cell ?_),
        fun hquote => absurd hquote (hfirst.ne_symbol hd)⟩
      rw [hlist]
      decide
  | _ => cases he

/-- A template in code can be read, as long as those within are not about to be replaced. -/
theorem reads_template (hcell : ∀ r p, σ.Cell r p → τ.Cell r p)
    (hstill : ∀ r p, σ.Lies r p → τ.Still r p) {x : Value} {d : Datum} (hd : d.isSketch = true)
    (hx : LaidOut σ.Lies x d) : τ.Reads x (σ.heap.template x d) 0 := by
  have hlies : ∀ r p, σ.Lies r p → σ.heap.pairs[r.index]? = some p := fun _ _ => Lies.getElem?
  cases d with
  | pair first rest =>
      obtain ⟨r, p, rfl, hr, hfirst, hrest⟩ := hx
      have hpair := Heap.pair_eq_of_getElem? hr.getElem?
      have hfirst_eq : σ.heap.first (.pair r) = p.first := congrArg Pair.first hpair
      have hrest_eq : σ.heap.rest (.pair r) = p.rest := congrArg Pair.rest hpair
      have hholds : (σ.heap.template p.first first).Holds τ.Still τ.Row p.first :=
        Heap.holds_template hlies hstill hfirst
      have hholds' : (σ.heap.template p.rest rest).Holds τ.Still τ.Row p.rest :=
        Heap.holds_template hlies hstill hrest
      simp only [Heap.template, hfirst_eq, hrest_eq]
      refine ⟨r, p.rest, rfl, hstill r p hr, ?_⟩
      rw [Heap.role_template]
      simp only [Datum.isSketch] at hd
      cases hrole : Datum.role first rest with
      | unquoted =>
          simp only [hrole, Bool.and_eq_true, Bool.not_eq_true'] at hd ⊢
          refine ⟨hholds, hholds', ?_⟩
          obtain ⟨-, hoperand⟩ := Datum.eq_of_unquoted hrole
          rw [hoperand] at hrest ⊢
          obtain ⟨r', p', heq, hr', he, -⟩ := hrest
          rw [heq]
          have hhead : σ.heap.first (.pair r') = p'.first :=
            congrArg Pair.first (Heap.pair_eq_of_getElem? hr'.getElem?)
          simp only [Heap.template, Template.head, hhead]
          exact spares_of_lies hcell hstill hd.1 he
      | nested =>
          rw [hrole] at hd
          cases hd
      | spliced =>
          simp only [hrole] at hd ⊢
          exact ⟨hholds, reads_template hcell hstill hd hrest⟩
      | plain =>
          simp only [hrole, Bool.and_eq_true, Bool.not_eq_true'] at hd ⊢
          exact ⟨hcell r p (hr.cell (hfirst.ne_symbol hd.1.1)),
            reads_template hcell hstill hd.1.2 hfirst,
            reads_template hcell hstill hd.2 hrest⟩
  | character | string | vector => cases hd
  | _ =>
      cases hx
      exact ⟨rfl, rfl, rfl⟩
termination_by structural d

/-- What a template in code denotes asks for the expressions in it. -/
theorem follows_template {x : Value} {d : Datum} (hd : d.isSketch = true)
    (hx : LaidOut σ.Lies x d) :
    ((σ.heap.template x d).plan 0).Follows (LaidOut σ.Lies) d := by
  cases d with
  | pair first rest =>
      obtain ⟨r, p, rfl, hr, hfirst, hrest⟩ := hx
      have hpair := Heap.pair_eq_of_getElem? hr.getElem?
      have hfirst_eq : σ.heap.first (.pair r) = p.first := congrArg Pair.first hpair
      have hrest_eq : σ.heap.rest (.pair r) = p.rest := congrArg Pair.rest hpair
      simp only [Heap.template, hfirst_eq, hrest_eq, Template.plan, Heap.role_template,
        Plan.Follows]
      simp only [Datum.isSketch] at hd
      cases hrole : Datum.role first rest with
      | unquoted =>
          obtain ⟨-, hoperand⟩ := Datum.eq_of_unquoted hrole
          rw [hoperand] at hrest ⊢
          obtain ⟨r', p', heq, hr', he, -⟩ := hrest
          rw [heq]
          have hhead : σ.heap.first (.pair r') = p'.first :=
            congrArg Pair.first (Heap.pair_eq_of_getElem? hr'.getElem?)
          simp only [Heap.template, Template.head, hhead]
          exact ⟨p'.first, rfl, he⟩
      | nested =>
          rw [hrole] at hd
          cases hd
      | spliced =>
          simp only [hrole] at hd ⊢
          have hform := Datum.eq_of_spliced hrole
          rw [hform] at hfirst ⊢
          obtain ⟨r₁, p₁, heq, hr₁, -, r₂, p₂, heq', hr₂, he, -⟩ := hfirst
          have hsecond : σ.heap.first (σ.heap.rest p.first) = p₂.first := by
            rw [heq, Heap.rest, Heap.pair_eq_of_getElem? hr₁.getElem?, heq', Heap.first,
              Heap.pair_eq_of_getElem? hr₂.getElem?]
          simp only [Heap.template, Template.operand, Template.head, hsecond]
          exact ⟨_, _, rfl, he, follows_template hd hrest⟩
      | plain =>
          simp only [hrole, Bool.and_eq_true] at hd ⊢
          exact ⟨_, _, rfl, follows_template hd.1.2 hfirst, follows_template hd.2 hrest⟩
  | character | string | vector => cases hd
  | _ => rfl
termination_by structural d

theorem lies_of_cells {v : Value} {d : Datum} (hflat : d.isFlat = true)
    (h : LaidOut σ.Cell v d) : LaidOut σ.Lies v d := by
  cases d with
  | pair first rest =>
      simp only [Datum.isFlat, Bool.and_eq_true, Bool.not_eq_true'] at hflat
      obtain ⟨r, p, rfl, hr, hfirst, hrest⟩ := h
      exact ⟨r, p, rfl, hr.lies (hfirst.ne_symbol hflat.1.1), lies_of_cells hflat.1.2 hfirst,
        lies_of_cells hflat.2 hrest⟩
  | _ => exact h
termination_by structural d

end Moment

/-- The expressions of a template are smaller than the template. -/
theorem Plan.Follows.imp {code code' : Value → Datum → Prop} {plan : Plan} {d : Datum}
    (hcode : ∀ e d', sizeOf d' < sizeOf d → (d.isFlat = true → d'.isFlat = true) → code e d' →
      code' e d') (h : plan.Follows code d) : plan.Follows code' d := by
  cases d with
  | pair first rest =>
      simp only [Plan.Follows] at h ⊢
      have hflat : (Datum.pair first rest).isFlat = true → first.isFlat = true ∧ rest.isFlat = true := by
        simp only [Datum.isFlat, Bool.and_eq_true]
        exact fun h => ⟨h.1.2, h.2⟩
      have hrest' : ∀ e d', sizeOf d' < sizeOf rest → (rest.isFlat = true → d'.isFlat = true) →
          code e d' → code' e d' := fun e d' hd hd' =>
        hcode e d' (by simp only [Datum.pair.sizeOf_spec]; omega) fun h => hd' (hflat h).2
      cases hrole : Datum.role first rest with
      | unquoted =>
          obtain ⟨-, hoperand⟩ := Datum.eq_of_unquoted hrole
          simp only [hrole] at h ⊢
          obtain ⟨e, rfl, he⟩ := h
          refine ⟨e, rfl, hcode e _ ?_ (fun h => ?_) he⟩
          · rw [hoperand]
            simp only [Datum.head, Datum.pair.sizeOf_spec]
            omega
          · have hrest := (hflat h).2
            rw [hoperand] at hrest
            simp only [Datum.isFlat, Bool.and_eq_true] at hrest
            exact hrest.1.2
      | spliced =>
          have hform := Datum.eq_of_spliced hrole
          simp only [hrole] at h ⊢
          obtain ⟨e, p, rfl, he, hp⟩ := h
          refine ⟨e, p, rfl, hcode e _ ?_ (fun h => ?_) he, hp.imp hrest'⟩
          · rw [hform]
            simp only [Datum.head, Datum.tail, Datum.pair.sizeOf_spec]
            omega
          · have hfirst := (hflat h).1
            rw [hform] at hfirst
            simp only [Datum.isFlat, Bool.and_eq_true] at hfirst
            exact hfirst.2.1.2
      | nested | plain =>
          simp only [hrole] at h ⊢
          obtain ⟨p, q, rfl, hp, hq⟩ := h
          refine ⟨p, q, rfl, hp.imp fun e d' hd hd' => hcode e d' ?_ fun h => hd' (hflat h).1,
            hq.imp hrest'⟩
          simp only [Datum.pair.sizeOf_spec]
          omega
  | _ => exact h
termination_by structural d

theorem Plan.Follows.mono {code code' : Value → Datum → Prop} {plan : Plan} {d : Datum}
    (hcode : ∀ e d', code e d' → code' e d') (h : plan.Follows code d) : plan.Follows code' d :=
  h.imp fun e d' _ _ => hcode e d'

/-- The value is a list of lists with these elements. -/
def Table (cell : Ref .pair → Pair → Prop) (v : Value) (rows : List (List Value)) : Prop :=
  ∃ items, Items cell v items ∧ List.Forall₂ (Items cell) items rows

namespace Table

variable {cell cell' : Ref .pair → Pair → Prop} {v : Value} {rows rows' : List (List Value)}

theorem mono (hcells : ∀ r p, cell r p → cell' r p) (h : Table cell v rows) :
    Table cell' v rows := by
  obtain ⟨items, hitems, hrows⟩ := h
  exact ⟨items, hitems.mono hcells, hrows.imp fun _ _ hrow => hrow.mono hcells⟩

theorem isOf_symbol (h : Table cell v rows) : v.isOf .symbol = false := by
  obtain ⟨items, hitems, -⟩ := h
  cases hitems <;> rfl

theorem unique (hcell : ∀ r p q, cell r p → cell r q → p = q) (h : Table cell v rows)
    (h' : Table cell v rows') : rows = rows' := by
  obtain ⟨items, hitems, hrows⟩ := h
  obtain ⟨items', hitems', hrows'⟩ := h'
  obtain rfl := hitems.unique hcell hitems'
  clear hitems hitems'
  induction hrows generalizing rows' with
  | nil =>
      cases hrows'
      rfl
  | cons hrow _ ih =>
      cases hrows' with
      | cons hrow' hrows' => rw [hrow.unique hcell hrow', ih hrows']

end Table

namespace Moment

variable {σ σ' σ'' : Moment} {r site : Ref .pair} {p q : Pair} {v : Value} {d : Datum}

/-! ## Code in which templates may have been replaced -/

/-- The template has been replaced by an expansion with the same expressions. -/
def Replaces (σ : Moment) (code : Value → Datum → Prop) (r : Ref .pair) (d : Datum) : Prop :=
  ∃ plan, (∀ e, plan ≠ .hole (.pair e)) ∧ σ.Expansion (.pair r) plan ∧ plan.Follows code d

/-- The template is as it was written, or it has been replaced. -/
def Templated (σ : Moment) (code : Value → Datum → Prop) (r : Ref .pair) (d : Datum) : Prop :=
  σ.Unexpanded r d ∨ σ.Replaces code r d

/-- A template that holds none within, in its place. -/
def Flat (σ : Moment) (r : Ref .pair) (d : Datum) : Prop :=
  σ.Templated (LaidOut σ.Cell) r d

/-- Code whose templates are in their places. -/
def CodeWith (σ : Moment) (placed : Ref .pair → Datum → Prop) (v : Value) : Datum → Prop
  | .pair first rest =>
    if first.isName "quasiquote" then
      ∃ r, v = .pair r ∧ rest = .list [rest.head] ∧ placed r rest.head
    else
      ∃ r p, v = .pair r ∧ σ.Cell r p ∧ CodeWith σ placed p.first first ∧
        CodeWith σ placed p.rest rest
  | d => LaidOut σ.Cell v d

/-- A name with its expression, as in a list of bindings. -/
def Binding.row (b : String × Value) : List Value :=
  [.symbol ⟨b.1⟩, b.2]

/-- The local bindings are as they were written: names with expressions, and the forms of a body. -/
structure LetCall (σ : Moment) (r : Ref .pair) (bindings : List (String × Value))
    (body : List Value) : Prop where
  awaits : σ.sites r
  form : ∃ operands list forms, σ.heap.pairs[r.index]? = some ⟨.symbol ⟨"let"⟩, .pair operands⟩ ∧
    σ.Cell operands ⟨list, forms⟩ ∧ Table σ.Cell list (bindings.map Binding.row) ∧
    Items σ.Cell forms body

/-- The local bindings have been replaced by a call of an abstraction. -/
structure Abstracted (σ : Moment) (r : Ref .pair) (bindings : List (String × Value))
    (body : List Value) : Prop where
  form : ∃ head operands inner names forms, σ.Cell r ⟨.pair head, operands⟩ ∧
    Items σ.Cell operands (bindings.map Prod.snd) ∧
    σ.Cell head ⟨.symbol ⟨"lambda"⟩, .pair inner⟩ ∧ σ.Cell inner ⟨names, forms⟩ ∧
    Items σ.Cell names (bindings.map fun b => .symbol ⟨b.1⟩) ∧ Items σ.Cell forms body

end Moment

/-- Whether the template occurs in the text. -/
def Datum.Has (d : Datum) : Datum → Prop
  | .pair first rest => .pair first rest = d.template ∨ d.Has first ∨ d.Has rest
  | _ => False

/-- What may be replaced in a run of code: templates with these texts, local bindings of these
names, and forms that are headed by these names. -/
structure Expandables where
  templates : List Datum
  bindings : List (List String)
  forms : List String

namespace Moment

variable {σ σ' σ'' : Moment} {r site : Ref .pair} {p q : Pair} {v : Value} {d : Datum}
  {may : Expandables} {bindings : List (String × Value)} {body : List Value}

/-- The first operand is a name. -/
def IsNamed (σ : Moment) (p : Pair) : Prop :=
  ∃ operands s rest, p.rest = .pair operands ∧ σ.Cell operands ⟨.symbol s, rest⟩

theorem IsNamed.mono (hcells : ∀ r p, σ.Cell r p → σ'.Cell r p) (h : σ.IsNamed p) : σ'.IsNamed p := by
  obtain ⟨operands, s, rest, hp, hoperands⟩ := h
  exact ⟨operands, s, rest, hp, hcells _ _ hoperands⟩

/-- A later moment of a run of code that may have templates and local bindings. Other calls wait to
be replaced, those of local bindings with a name of their own among them. -/
structure Advances (may : Expandables) (σ σ' : Moment) : Prop extends Changes σ σ' where
  waiting : ∀ r p, σ.sites r → σ.heap.pairs[r.index]? = some p → p.first ≠ .symbol ⟨"and"⟩ →
    p.first ≠ .symbol .quasiquote → (p.first = .symbol ⟨"let"⟩ → σ.IsNamed p) →
    (∀ name ∈ may.forms, p.first ≠ .symbol ⟨name⟩) →
    σ'.sites r ∧ σ'.heap.pairs[r.index]? = some p
  unexpanded : ∀ r d, σ.Unexpanded r d → (∀ t ∈ may.templates, ¬ t.Has d.template) →
    σ'.Unexpanded r d
  templates : ∀ r d, d.isSimple = true → σ.Flat r d → σ'.Flat r d
  calls : ∀ r bindings body, bindings.map Prod.fst ∉ may.bindings → σ.LetCall r bindings body →
    σ'.LetCall r bindings body

theorem LetCall.of_pair (hcells : ∀ r p, σ.Cell r p → σ'.Cell r p)
    (hstays : ∀ p, σ.sites r → σ.heap.pairs[r.index]? = some p → p.first = .symbol ⟨"let"⟩ →
      σ'.sites r ∧ σ'.heap.pairs[r.index]? = some p) (h : σ.LetCall r bindings body) :
    σ'.LetCall r bindings body := by
  obtain ⟨operands, list, forms, hr, hoperands, hlist, hforms⟩ := h.form
  obtain ⟨hsite, hr'⟩ := hstays _ h.awaits hr rfl
  exact ⟨hsite, operands, list, forms, hr', hcells _ _ hoperands, hlist.mono hcells,
    hforms.mono hcells⟩

theorem LetCall.bindings_unique {bindings' : List (String × Value)} {body' : List Value}
    (h : σ.LetCall r bindings body) (h' : σ.LetCall r bindings' body') : bindings = bindings' := by
  have hcell : ∀ r p q, σ.Cell r p → σ.Cell r q → p = q := fun _ _ _ => Cell.unique
  obtain ⟨operands, list, forms, hr, hoperands, hlist, -⟩ := h.form
  obtain ⟨operands', list', forms', hr', hoperands', hlist', -⟩ := h'.form
  cases Option.some.inj (hr.symm.trans hr')
  cases hoperands.unique hoperands'
  refine List.map_injective_iff.2 ?_ (hlist.unique hcell hlist')
  rintro ⟨name, e⟩ ⟨name', e'⟩ heq
  cases heq
  rfl

theorem LetCall.not_isNamed (h : σ.LetCall r bindings body)
    (hp : σ.heap.pairs[r.index]? = some p) : ¬ σ.IsNamed p := by
  rintro ⟨operands, s, rest, hrest, hoperands⟩
  obtain ⟨operands', list, forms, hr, hoperands', hlist, -⟩ := h.form
  cases Option.some.inj (hr.symm.trans hp)
  cases hrest
  cases hoperands.unique hoperands'
  cases hlist.isOf_symbol

theorem Abstracted.mono (hcells : ∀ r p, σ.Cell r p → σ'.Cell r p)
    (h : σ.Abstracted r bindings body) : σ'.Abstracted r bindings body := by
  obtain ⟨head, operands, inner, names, forms, hr, hoperands, hhead, hinner, hnames, hforms⟩ := h.form
  exact ⟨head, operands, inner, names, forms, hcells _ _ hr, hoperands.mono hcells,
    hcells _ _ hhead, hcells _ _ hinner, hnames.mono hcells, hforms.mono hcells⟩

theorem Le.advances (may : Expandables) (h : σ.Le σ') : σ.Advances may σ' where
  toChanges := h.changes
  waiting r p hsite hp hand _ _ _ := h.waiting r p hsite hp hand
  unexpanded _ _ hr _ := hr.mono h
  templates r d _ hr := hr.imp (.mono h) fun ⟨plan, hplan, hexpansion, hfollows⟩ =>
    ⟨plan, hplan, hexpansion.mono h, hfollows.mono fun _ _ he => he.mono h.cells⟩
  calls _ _ _ _ hr := hr.of_pair h.cells fun p hsite hp hlet =>
    h.waiting _ p hsite hp (by rw [hlet]; decide)

theorem Advances.trans (h : σ.Advances may σ') (h' : σ'.Advances may σ'') : σ.Advances may σ'' where
  toChanges := h.toChanges.trans h'.toChanges
  waiting r p hsite hp hand hquasiquote hlet hforms := by
    obtain ⟨hsite', hp'⟩ := h.waiting r p hsite hp hand hquasiquote hlet hforms
    exact h'.waiting r p hsite' hp' hand hquasiquote (fun heq => (hlet heq).mono h.cells) hforms
  unexpanded r d hr hd := h'.unexpanded r d (h.unexpanded r d hr hd) hd
  templates r d hd hr := h'.templates r d hd (h.templates r d hd hr)
  calls r bindings body hnames hr := h'.calls r bindings body hnames (h.calls r bindings body hnames hr)

theorem Advances.weaken {may' : Expandables} (htemplates : may.templates ⊆ may'.templates)
    (hbindings : may.bindings ⊆ may'.bindings) (hforms : may.forms ⊆ may'.forms)
    (h : σ.Advances may σ') : σ.Advances may' σ' where
  toChanges := h.toChanges
  waiting r p hsite hp hand hquasiquote hlet hother :=
    h.waiting r p hsite hp hand hquasiquote hlet fun name hname => hother name (hforms hname)
  unexpanded r d hr hd := h.unexpanded r d hr fun t ht => hd t (htemplates ht)
  templates := h.templates
  calls r bindings body hnames hr := h.calls r bindings body (fun hin => hnames (hbindings hin)) hr

theorem Advances.refl (may : Expandables) (σ : Moment) : σ.Advances may σ :=
  (Le.refl σ).advances may

/-! ## Replacing templates and local bindings -/

theorem Flat.of_cells (hcells : ∀ r p, σ.Cell r p → σ'.Cell r p)
    (hexpansions : ∀ s plan, σ.Expansion s plan → σ'.Expansion s plan)
    (hd : d.isSimple = true) (hstays : σ.Unexpanded r d → σ'.Flat r d ∨
      σ'.sites r ∧ ∀ p, σ.heap.pairs[r.index]? = some p → σ'.heap.pairs[r.index]? = some p)
    (h : σ.Flat r d) : σ'.Flat r d := by
  rcases h with hr | ⟨plan, hplan, hexpansion, hfollows⟩
  · rcases hstays hr with hflat | ⟨hsite, hpair⟩
    · exact hflat
    · -- the pairs of the operand are cells
      obtain ⟨_, p, heq, hr', hname, hoperand⟩ := id hr
      cases heq
      have hhead : p.first = .symbol .quasiquote := hname
      refine Or.inl ⟨r, p, rfl, ?_, hname,
        lies_of_cells hd ((cells_of_lies hd hoperand).mono hcells)⟩
      unfold Lies
      rw [if_pos hhead]
      exact ⟨hsite, hpair p hr'.getElem?⟩
  · exact Or.inr ⟨plan, hplan, hexpansions _ _ hexpansion,
      hfollows.mono fun _ _ he => he.mono hcells⟩

theorem Replaced.lies {q' : Pair} (h : σ.Replaced σ' site q) (hr : σ.Lies r q') (hne : r ≠ site) :
    σ'.Lies r q' := by
  by_cases hhead : q'.first = .symbol .quasiquote
  · unfold Lies
    rw [if_pos hhead]
    exact h.waiting r q' (hr.site hhead) hne hr.getElem?
  · exact (h.cells r q' (hr.cell hhead)).lies hhead

/-- Code without the template that is replaced stays as it was written. -/
theorem Replaced.laidOut {d : Datum} (h : σ.Replaced σ' site q) (hsite : σ.Unexpanded site d)
    {v : Value} {d' : Datum} (hd' : ¬ d.Has d') (hv : LaidOut σ.Lies v d') :
    LaidOut σ'.Lies v d' := by
  cases d' with
  | pair first rest =>
      simp only [Datum.Has, not_or] at hd'
      have hlies : ∀ r p q, σ.Lies r p → σ.Lies r q → p = q := fun _ _ _ => Lies.unique
      have hne : v ≠ .pair site := by
        rintro rfl
        exact hd'.1 (LaidOut.unique hlies hv hsite)
      obtain ⟨r, p, rfl, hr, hfirst, hrest⟩ := hv
      refine ⟨r, p, rfl, h.lies hr ?_, h.laidOut hsite hd'.2.1 hfirst, h.laidOut hsite hd'.2.2 hrest⟩
      rintro rfl
      exact hne rfl
  | _ => exact hv
termination_by structural d'

theorem Unexpanded.head (h : σ.Unexpanded r d) :
    ∃ p, σ.heap.pairs[r.index]? = some p ∧ p.first = .symbol .quasiquote := by
  obtain ⟨operand, x, hr, -⟩ := h.form
  exact ⟨_, hr, rfl⟩

/-- A template is replaced by an expansion with the same expressions. -/
theorem Replaced.advances_template (h : σ.Replaced σ' site q) (hsite : σ.Unexpanded site d)
    (hmay : d ∈ may.templates) (hflat : d.isSimple = true → σ'.Flat site d) :
    σ.Advances may σ' := by
  obtain ⟨p, hp, hhead⟩ := hsite.head
  have hother : ∀ r p', σ.heap.pairs[r.index]? = some p' → p'.first ≠ .symbol .quasiquote →
      r ≠ site := by
    rintro r p' hp' hne rfl
    cases Option.some.inj (hp.symm.trans hp')
    exact hne hhead
  refine ⟨h.changes hsite.site hp (by rw [hhead]; decide), ?_, ?_, ?_, ?_⟩
  · exact fun r p' hr hp' _ hquasiquote _ _ => h.waiting r p' hr (hother r p' hp' hquasiquote) hp'
  · exact fun r d' hr hd' => h.laidOut hsite (hd' d hmay) hr
  · refine fun r d' hd' hr => hr.of_cells h.cells (fun _ _ he => he.across h) hd' fun hr' => ?_
    by_cases heq : r = site
    · subst heq
      obtain rfl := hr'.unique hsite
      exact Or.inl (hflat hd')
    · exact Or.inr ⟨(h.waiting r _ hr'.site heq hr'.head.choose_spec.1).1, fun p' hp' =>
        (h.waiting r p' hr'.site heq hp').2⟩
  · intro r bindings body _ hr
    refine hr.of_pair h.cells fun p' hsite' hp' hlet => h.waiting r p' hsite' (hother r p' hp' ?_) hp'
    rw [hlet]
    decide

/-- Local bindings are replaced. -/
theorem Replaced.advances_call (h : σ.Replaced σ' site q) (hsite : σ.LetCall site bindings body)
    (hmay : bindings.map Prod.fst ∈ may.bindings) : σ.Advances may σ' := by
  obtain ⟨operands, _, _, hp, -⟩ := hsite.form
  have hother : ∀ r p', σ.heap.pairs[r.index]? = some p' → p'.first ≠ .symbol ⟨"let"⟩ →
      r ≠ site := by
    rintro r p' hp' hne rfl
    cases Option.some.inj (hp.symm.trans hp')
    exact hne rfl
  have hlies : ∀ r p', σ.Lies r p' → σ'.Lies r p' := by
    intro r p' hr
    by_cases hhead : p'.first = .symbol .quasiquote
    · exact h.lies hr (hother r p' hr.getElem? (by rw [hhead]; decide))
    · exact (h.cells r p' (hr.cell hhead)).lies hhead
  refine ⟨h.changes hsite.awaits hp (by simp), ?_, ?_, ?_, ?_⟩
  · intro r p' hr hp' _ _ hlet _
    refine h.waiting r p' hr ?_ hp'
    rintro rfl
    cases Option.some.inj (hp.symm.trans hp')
    exact hsite.not_isNamed hp (hlet rfl)
  · exact fun r d hr _ => LaidOut.mono hlies hr
  · exact fun r d _ hr => hr.imp (LaidOut.mono hlies) fun ⟨plan, hplan, hexpansion, hfollows⟩ =>
      ⟨plan, hplan, hexpansion.across h, hfollows.mono fun _ _ he => he.mono h.cells⟩
  · intro r bindings' body' hnames hr
    refine hr.of_pair h.cells fun p' hsite' hp' _ => h.waiting r p' hsite' ?_ hp'
    rintro rfl
    rw [hsite.bindings_unique hr] at hmay
    exact hnames hmay

end Moment

end Scheme
