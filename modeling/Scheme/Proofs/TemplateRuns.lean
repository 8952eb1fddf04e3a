import Scheme.Proofs.WrittenCode
/-!
# Evaluating templates in code

A template in code is evaluated by its expansion. That is made and put in its place when the
template is evaluated for the first time; from then on it is there.
-/

namespace Scheme

open Evaluator

namespace Moment

variable {σ σ' σ₁ : Moment} {r site : Ref .pair} {p q : Pair} {v s : Value} {d : Datum}
  {plan : Plan} {may : Expandables}

/-! ## Leaving all but conjunctions out of account -/

/-- The same moment, with no calls left to be replaced but the conjunctions. -/
def onlyConjunctions (σ : Moment) : Moment where
  world := σ.world
  known := σ.known
  sites r := σ.sites r ∧ ∃ p, σ.heap.pairs[r.index]? = some p ∧ p.first = .symbol ⟨"and"⟩
  apart r hsite := σ.apart r hsite.1
  bounds r hr := σ.bounds r (hr.imp_right And.left)

theorem Conjoins.onlyConjunctions {xs : List Value} (h : σ.Conjoins v xs) :
    σ.onlyConjunctions.Conjoins v xs := by
  induction h with
  | site hsite hitems => exact .site ⟨⟨hsite.1, _, hsite.2, rfl⟩, hsite.2⟩ hitems
  | last hcell hx => exact .last hcell hx
  | branch hcell hitems _ ih => exact .branch hcell hitems ih

theorem Continues.onlyConjunctions {h : Heap} (hσ : σ.Continues h) :
    σ.onlyConjunctions.Continues h where
  cells := hσ.cells
  conjunctions r p xs hin hp hconjunction hlists :=
    (hσ.conjunctions r p xs hin hp hconjunction hlists).onlyConjunctions
  closures := hσ.closures
  names := hσ.names

theorem Lies.still (h : σ.Lies r p) : σ.onlyConjunctions.Still r p := by
  refine ⟨fun hsite => ?_, h.getElem?⟩
  obtain ⟨hsite, q, hq, hhead⟩ := hsite
  cases Option.some.inj (hq.symm.trans h.getElem?)
  exact σ.apart r hsite (h.cell (by rw [hhead]; decide)).1

/-- The later moment, with the calls in account that were left out. -/
def restoring (σ σ₁ : Moment) (h : σ.onlyConjunctions.Le σ₁) : Moment where
  world := σ₁.world
  known := σ₁.known
  sites r := σ₁.sites r ∨ σ.sites r ∧ ¬ σ.onlyConjunctions.sites r
  apart r hsite hknown := by
    rcases hsite with hsite | ⟨hsite, hnot⟩
    · exact σ₁.apart r hsite hknown
    · rcases h.fresh r (Or.inl hknown) with hr | hr | hr
      · exact σ.apart r hsite hr
      · exact hnot hr
      · exact Nat.not_lt_of_le hr (σ.bounds r (Or.inr hsite))
  bounds r hr := by
    rcases hr with hr | hr | hr
    · exact σ₁.bounds r (Or.inl hr)
    · exact σ₁.bounds r (Or.inr hr)
    · exact Nat.lt_of_lt_of_le (σ.bounds r (Or.inr hr.1)) h.size

theorem le_restoring (h : σ.onlyConjunctions.Le σ₁) : σ.Le (σ.restoring σ₁ h) := by
  have hstill : ∀ r p, ¬ σ.onlyConjunctions.sites r → σ.heap.pairs[r.index]? = some p →
      σ₁.heap.pairs[r.index]? = some p := fun r p hr hp => (h.stills r p ⟨hr, hp⟩).2
  have hconjoins : ∀ v xs, σ₁.Conjoins v xs → (σ.restoring σ₁ h).Conjoins v xs := by
    intro v xs hv
    induction hv with
    | site hsite hitems => exact .site ⟨Or.inl hsite.1, hsite.2⟩ hitems
    | last hcell hx => exact .last hcell hx
    | branch hcell hitems _ ih => exact .branch hcell hitems ih
  refine ⟨h.size, h.cells, ?_, ?_, ?_, ?_, h.scopes, h.closures, h.vectors, h.strings,
    h.continuations, h.others⟩
  · intro r p hr
    have hnot : ¬ σ.onlyConjunctions.sites r := fun hsite => hr.1 hsite.1
    obtain ⟨hsite, hp⟩ := h.stills r p ⟨hnot, hr.2⟩
    exact ⟨fun hsite' => hsite'.elim hsite fun hsite' => hr.1 hsite'.1, hp⟩
  · intro r p hsite hp hand
    have hnot : ¬ σ.onlyConjunctions.sites r := by
      rintro ⟨-, q, hq, hhead⟩
      cases Option.some.inj (hp.symm.trans hq)
      exact hand hhead
    exact ⟨Or.inr ⟨hsite, hnot⟩, hstill r p hnot hp⟩
  · intro r operands xs hsite hitems
    exact hconjoins _ _ (h.sites r operands xs ⟨⟨hsite.1, _, hsite.2, rfl⟩, hsite.2⟩ hitems)
  · rintro r (hr | hr | hr)
    · exact (h.fresh r (Or.inl hr)).imp_right (Or.imp_left And.left)
    · exact (h.fresh r (Or.inr hr)).imp_right (Or.imp_left And.left)
    · exact Or.inr (Or.inl hr.1)

/-! ## Expansions whose expressions can be read -/

/-- The expressions of the plan can be told apart. -/
def Clear (σ : Moment) : Plan → Prop
  | .atom _ => True
  | .hole e => Legible σ.Cell σ.Still e
  | .pair p q => σ.Clear p ∧ σ.Clear q
  | .splice _ p => σ.Clear p
  | .vector p => σ.Clear p

theorem clear_of_follows {plan : Plan} {d : Datum} (hd : d.isSketch = true)
    (h : plan.Follows (LaidOut σ.Lies) d) : σ.Clear plan := by
  cases d with
  | pair first rest =>
      simp only [Plan.Follows] at h
      simp only [Datum.isSketch] at hd
      cases hrole : Datum.role first rest with
      | unquoted =>
          simp only [hrole, Bool.and_eq_true, Bool.not_eq_true'] at h hd
          obtain ⟨e, rfl, he⟩ := h
          generalize rest.head = d at he hd
          cases d with
          | pair head operands =>
              obtain ⟨r, p, rfl, hr, hhead, -⟩ := he
              have hcell := hr.cell (hhead.ne_symbol hd.2)
              exact .form hcell.still (fun _ => hcell) fun hquote =>
                absurd hquote (hhead.ne_symbol hd.1)
          | character | string | vector => cases he
          | _ =>
              cases he
              exact .atom rfl
      | nested =>
          rw [hrole] at hd
          cases hd
      | spliced =>
          simp only [hrole] at h hd
          obtain ⟨e, p, rfl, -, hp⟩ := h
          have hclear : σ.Clear p := clear_of_follows hd hp
          exact hclear
      | plain =>
          simp only [hrole, Bool.and_eq_true] at h hd
          obtain ⟨p, q, rfl, hp, hq⟩ := h
          exact ⟨clear_of_follows hd.1.2 hp, clear_of_follows hd.2 hq⟩
  | _ =>
      cases h
      trivial
termination_by structural d

theorem Expansion.of_clear (hcells : ∀ r p, σ.Cell r p → σ'.Cell r p) (hclear : σ'.Clear plan)
    (h : σ.Expansion s plan) : σ'.Expansion s plan := by
  obtain ⟨part, hskeleton, hcovers⟩ := h
  refine ⟨part, ?_, hcovers.mono hcells⟩
  induction hskeleton generalizing plan with
  | self hself => exact .self hself
  | quoted hitems => exact .quoted (hitems.mono hcells)
  | hole =>
      cases hcovers
      exact .hole hclear
  | single hitems _ _ ihs ihnil =>
      cases hcovers with
      | pair hp hq => exact .single (hitems.mono hcells) (ihs hclear.1 hp) (ihnil hclear.2 hq)
  | merged hr hr' _ hlist _ ihs ihx =>
      cases hcovers with
      | pair hp hq =>
          exact .merged (hcells _ _ hr) (hcells _ _ hr') (ihs hclear.1 hp) (hcells _ _ hlist)
            (ihx hclear.2 hq)
  | cons hitems _ _ ihs iht =>
      cases hcovers with
      | pair hp hq => exact .cons (hitems.mono hcells) (ihs hclear.1 hp) (iht hclear.2 hq)
  | append hitems _ ih =>
      cases hcovers with
      | splice _ hp => exact .append (hitems.mono hcells) (ih (by exact hclear) hp)
  | vector hitems _ ih =>
      cases hcovers with
      | vector hp => exact .vector (hitems.mono hcells) (ih (by exact hclear) hp)

theorem Expansion.exists_pair {a b : Plan} (h : σ.Expansion s (.pair a b)) : ∃ x, s = .pair x := by
  obtain ⟨part, hskeleton, hcovers⟩ := h
  cases hskeleton with
  | self hself =>
      cases hcovers with
      | constant hstands =>
          cases hstands
          cases hself
  | hole => cases hcovers
  | append => cases hcovers
  | vector => cases hcovers
  | _ => exact ⟨_, rfl⟩

end Moment

/-! ## Replacing a template -/

/-- The text of a template that is more than an expression and means something. -/
structure Datum.IsTemplate (d : Datum) : Prop where
  sketch : d.isSketch = true
  pair : ∃ first rest, d = .pair first rest ∧ Datum.role first rest = .plain
  proper : ∀ (h : Heap) v, (h.template v d).isWellFormed = true
  size : ∀ (h : Heap) v, (h.template v d).size < 2 ^ 53

theorem Datum.Has.size_lt {d d' : Datum} (h : d.Has d') : sizeOf d < sizeOf d' := by
  cases d' with
  | pair first rest =>
      rcases h with heq | hfirst | hrest
      · rw [heq]
        simp only [Datum.template, Datum.form, Datum.list, Datum.listStar, List.foldr,
          Datum.pair.sizeOf_spec]
        omega
      · have := hfirst.size_lt
        simp only [Datum.pair.sizeOf_spec]
        omega
      · have := hrest.size_lt
        simp only [Datum.pair.sizeOf_spec]
        omega
  | _ => cases h
termination_by structural d'

namespace Moment

variable {σ σ' σ₁ : Moment} {r site : Ref .pair} {p q : Pair} {v s : Value} {d : Datum}
  {plan : Plan} {may : Expandables} {scope owner : Ref .scope}

theorem Unexpanded.exists_advances (h : σ.Unexpanded site d) (hd : d.IsTemplate)
    (hσ : σ.Continues World.prelude)
    (hname : σ.heap.locate? .quasiquote scope = some (owner, .transformer ⟨2⟩))
    (hmay : d ∈ may.templates) :
    ∃ σ' plan, σ.Advances may σ' ∧
      (∀ v w', Yields (.pair site) scope σ'.world v w' → Yields (.pair site) scope σ.world v w') ∧
      (∀ e, plan ≠ .hole (.pair e)) ∧ σ'.Expansion (.pair site) plan ∧
      plan.Follows (LaidOut σ'.Lies) d := by
  obtain ⟨operand, x, hform, hoperand, hx⟩ := h.form
  have hhead : Value.symbol .quasiquote ≠ .symbol ⟨"and"⟩ := by decide
  have hfollows := follows_template hd.sketch hx
  have hreads : σ.onlyConjunctions.Reads x (σ.heap.template x d) 0 :=
    reads_template (σ := σ) (τ := σ.onlyConjunctions) (fun _ _ => id) (fun _ _ => Lies.still)
      hd.sketch hx
  obtain ⟨a, b, hplan⟩ : ∃ a b, (σ.heap.template x d).plan 0 = .pair a b := by
    obtain ⟨first, rest, rfl, hrole⟩ := hd.pair
    simp only [Plan.Follows, hrole] at hfollows
    obtain ⟨a, b, hplan, -⟩ := hfollows
    exact ⟨a, b, hplan⟩
  obtain ⟨inner, w₁, σ₁, s, henter, hbody, hle, hanswers⟩ :=
    expands_template hσ.onlyConjunctions.isTransformer hreads (hd.proper _ _) (hd.size _ _)
  -- the calls that were out of account are as they were
  have hle₂ := le_restoring hle
  generalize hσ₂ : σ.restoring σ₁ hle = σ₂ at hle₂
  have hworld₂ : σ₂.world = σ₁.world := by rw [← hσ₂]; rfl
  have hcells₂ : ∀ r p, σ₁.Cell r p → σ₂.Cell r p := by
    rw [← hσ₂]
    exact fun _ _ => id
  have hfollows₂ := hfollows.mono fun _ _ he => LaidOut.mono (fun _ _ => Lies.mono hle₂) he
  have hsite₂ := h.mono hle₂
  obtain ⟨-, hform₂⟩ := hle₂.waiting site _ h.site hform hhead
  have hexpansion₂ := hanswers.expansion.of_clear hcells₂ (clear_of_follows hd.sketch hfollows₂)
  rw [hplan] at hexpansion₂ hfollows₂
  obtain ⟨x₁, rfl⟩ := hexpansion₂.exists_pair
  obtain ⟨head, rest, hx₁, -⟩ := hexpansion₂.head
  obtain ⟨entries, hspliced⟩ := spliced_pair site ⟨2⟩ x₁ σ₂.world
  obtain ⟨σ₃, hreplaced, hworld₃⟩ := exists_replaced hsite₂.site (σ₂.world.heap.pair x₁) entries
  have hcell := hreplaced.cell
  have hpair : σ₂.world.heap.pair x₁ = ⟨head, rest⟩ := Heap.pair_eq_of_getElem? hx₁.2
  rw [hpair] at hcell
  have hnot : ∀ e, Plan.pair a b ≠ .hole (.pair e) := by simp
  have hexpansion₃ : σ₃.Expansion (.pair site) (.pair a b) :=
    (hexpansion₂.across hreplaced).copied hnot (hreplaced.stills _ _ hx₁).2 hcell
  have hfollows₃ : (Plan.pair a b).Follows (LaidOut σ₃.Lies) d :=
    hfollows₂.imp fun e d' hsize _ he => hreplaced.laidOut hsite₂
      (fun hhas => Nat.lt_asymm hsize hhas.size_lt) he
  have hflat : d.isSimple = true → σ₃.Flat site d := fun hsimple => by
    simp only [Datum.isSimple, Datum.list, Datum.listStar, List.foldr, Datum.isFlat,
      Bool.and_eq_true] at hsimple
    exact Or.inr ⟨_, hnot, hexpansion₃, hfollows₃.imp fun e d' _ hflat he =>
      cells_of_lies (hflat hsimple.1.2) he⟩
  refine ⟨σ₃, .pair a b, (hle₂.advances may).trans (hreplaced.advances_template hsite₂ hmay hflat),
    fun v w' hyields => ?_, hnot, hexpansion₃, hfollows₃⟩
  have hlists : σ.world.heap.Lists (.pair operand) [x] := .cons hoperand.getElem? .nil
  rw [hworld₃.trans hspliced.symm, hworld₂] at hyields
  exact .expansion (Heap.pair_eq_of_getElem? hform) rfl (.variable hname)
    (World.elements_eq hlists) henter hbody hyields

/-! ## Runs of code with templates -/

/-- The expression has a value at a later moment, and the two are as stated. -/
def Does (may : Expandables) (σ : Moment) (x : Value) (scope : Ref .scope)
    (post : Moment → Value → Prop) : Prop :=
  ∃ σ' v, Yields x scope σ.world v σ'.world ∧ σ.Advances may σ' ∧ post σ' v

theorem Runs.does {x : Value} {post : Moment → Value → Prop} (h : σ.Runs x scope post) :
    σ.Does may x scope post := by
  obtain ⟨σ', v, hyields, hle, hpost⟩ := h
  exact ⟨σ', v, hyields, hle.advances may, hpost⟩

theorem Does.imp {x : Value} {post post' : Moment → Value → Prop} (h : σ.Does may x scope post)
    (himp : ∀ σ' v, σ.Advances may σ' → post σ' v → post' σ' v) : σ.Does may x scope post' := by
  obtain ⟨σ', v, hyields, hadvances, hpost⟩ := h
  exact ⟨σ', v, hyields, hadvances, himp σ' v hadvances hpost⟩

end Moment

/-- The plan can be built, and the moment and the value after that are as stated. -/
def Plan.Does (may : Expandables) (scope : Ref .scope) :
    Plan → Moment → (Moment → Value → Prop) → Prop
  | .atom v, σ, post => post σ v
  | .hole e, σ, post => σ.Does may e scope post
  | .pair p q, σ, post => p.Does may scope σ fun σ a => q.Does may scope σ fun σ b =>
    ∀ σ' r, σ.Le σ' → σ'.Cell r ⟨a, b⟩ → post σ' (.pair r)
  | .splice e p, σ, post => σ.Does may e scope fun σ a => p.Does may scope σ fun σ b =>
    ∃ items, Items σ.Cell a items ∧ ∀ σ' v, σ.Le σ' →
      (∀ xs, Items σ.Cell b xs → Items σ'.Cell v (items ++ xs)) → post σ' v
  | .vector _, _, _ => False

theorem Plan.Does.imp {may : Expandables} {scope : Ref .scope} {plan : Plan} {σ : Moment}
    {post post' : Moment → Value → Prop} (h : plan.Does may scope σ post)
    (himp : ∀ σ v, post σ v → post' σ v) : plan.Does may scope σ post' := by
  induction plan generalizing σ post post' with
  | atom v => exact himp σ v h
  | hole e => exact Moment.Does.imp h fun σ' v _ => himp σ' v
  | pair p q ihp ihq =>
      exact ihp h fun _ _ h => ihq h fun _ _ h σ' r hle hr => himp _ _ (h σ' r hle hr)
  | splice e p ih =>
      refine Moment.Does.imp h fun _ _ _ h => ih h fun _ _ ⟨items, hitems, h⟩ => ?_
      exact ⟨items, hitems, fun σ' v hle hv => himp _ _ (h σ' v hle hv)⟩
  | vector => exact h

namespace Moment

variable {σ σ' σ₀ : Moment} {r site : Ref .pair} {v s e : Value} {d : Datum} {plan : Plan}
  {part : Part} {may : Expandables} {scope owner : Ref .scope} {post : Moment → Value → Prop}

theorem exists_listStar (σ : Moment) (items : List Value) (tail : Value) :
    ∃ σ' : Moment, σ'.world = { σ.world with heap := (σ.heap.listStar items tail).2 } ∧ σ.Le σ' ∧
      ∀ xs, Items σ.Cell tail xs → Items σ'.Cell (σ.heap.listStar items tail).1 (items ++ xs) := by
  induction items with
  | nil => exact ⟨σ, rfl, .refl σ, fun xs h => h⟩
  | cons item items ih =>
      obtain ⟨σ₁, hworld, hle, hitems⟩ := ih
      have hheap : σ₁.heap = (σ.heap.listStar items tail).2 := congrArg World.heap hworld
      refine ⟨σ₁.cons item (σ.heap.listStar items tail).1, ?_, hle.trans (le_cons _ _ _),
        fun xs hxs => ?_⟩
      · rw [Heap.listStar_cons]
        simp only [Moment.cons, hworld, hheap]
      · rw [Heap.listStar_cons]
        simp only [Heap.cons, ← hheap]
        exact .cons (cell_cons _ _ _) ((hitems xs hxs).mono (le_cons _ _ _).cells)

/-- What was known at the start is kept. -/
theorem Advances.keeps (h₀ : σ₀.Advances may σ) (h : σ.Advances may σ')
    (hnames : σ.world.HasBuilders scope) : σ.world.Keeps σ₀.known scope σ'.world where
  pairs r p hr hp := by
    have hlt := σ₀.bounds r (Or.inl hr)
    have hold : σ₀.Cell r (σ₀.heap.pair r) := ⟨hr, Heap.getElem?_pair hlt⟩
    have hnow := h₀.cells _ _ hold
    cases Option.some.inj (hp.symm.trans hnow.2)
    exact (h.cells _ _ hnow).2
  names := h.toChanges.hasBuilders hnames

end Moment

section

variable {σ σ₀ : Moment} {v s e : Value} {d : Datum} {plan : Plan} {part : Part}
  {may : Expandables} {scope owner : Ref .scope} {post : Moment → Value → Prop}

open Moment

/-- What stands for a plan is what comes of building it. -/
theorem Stands.does (h : Stands σ.Cell v plan) (hplan : plan.Does may scope σ post) :
    ∃ σ' : Moment, σ'.world = σ.world ∧ σ.Advances may σ' ∧ post σ' v := by
  -- the cells are those of the start, the moment is that of what has been built
  suffices hall : ∀ σ₁ : Moment, σ.Advances may σ₁ → σ₁.world = σ.world →
      ∀ post, plan.Does may scope σ₁ post →
        ∃ σ' : Moment, σ'.world = σ.world ∧ σ.Advances may σ' ∧ post σ' v from
    hall σ (.refl may σ) rfl post hplan
  clear hplan
  induction h with
  | atom v => exact fun σ₁ hadvances hworld post hplan => ⟨σ₁, hworld, hadvances, hplan⟩
  | hole hquotes =>
      intro σ₁ hadvances hworld post hplan
      obtain ⟨σ', v', hyields, hadvances', hpost⟩ := hplan
      have hcells : σ₁.world.HasCells σ.Cell := fun r p hr => (hadvances.cells r p hr).2
      obtain ⟨rfl, heq⟩ := hyields.unique (hquotes.yields hcells)
      exact ⟨σ', heq.trans hworld, hadvances.trans hadvances', hpost⟩
  | @pair r a b p q hcell _ _ iha ihb =>
      intro σ₁ hadvances hworld post hplan
      obtain ⟨σ₂, hworld₂, hadvances₂, hrest⟩ := iha σ₁ hadvances hworld _ hplan
      obtain ⟨σ₃, hworld₃, hadvances₃, hpost⟩ := ihb σ₂ hadvances₂ hworld₂ _ hrest
      exact ⟨σ₃, hworld₃, hadvances₃, hpost σ₃ r (.refl σ₃) (hadvances₃.cells _ _ hcell)⟩

/-- A part that covers the plan is filled by building the plan. -/
theorem Covers.does (h : Covers σ₀.Cell part plan) (h₀ : σ₀.Advances may σ)
    (hnames : σ.world.HasBuilders scope) (hplan : plan.Does may scope σ post) :
    ∃ (σ' : Moment) (v : Value), Fills scope σ₀.known part σ.world v σ'.world ∧
      σ.Advances may σ' ∧ post σ' v := by
  induction h generalizing σ post with
  | @constant v p hstands =>
      obtain ⟨σ', hworld, hadvances, hpost⟩ := Stands.does (hstands.mono h₀.cells) hplan
      refine ⟨σ', v, ?_, hadvances, hpost⟩
      rw [hworld]
      exact .constant v σ.world
  | hole e =>
      obtain ⟨σ', v, hyields, hadvances, hpost⟩ := hplan
      exact ⟨σ', v, .hole hyields (h₀.keeps hadvances hnames), hadvances, hpost⟩
  | pair _ _ ihp ihq =>
      obtain ⟨σ₁, a, hp, hadvances₁, hrest⟩ := ihp h₀ hnames hplan
      have hnames₁ := hadvances₁.toChanges.hasBuilders hnames
      obtain ⟨σ₂, b, hq, hadvances₂, hpost⟩ := ihq (h₀.trans hadvances₁) hnames₁ hrest
      exact ⟨σ₂.cons a b, _, .pair hp hq,
        (hadvances₁.trans hadvances₂).trans ((σ₂.le_cons a b).advances may),
        hpost _ _ (σ₂.le_cons a b) (σ₂.cell_cons a b)⟩
  | splice e _ ih =>
      obtain ⟨σ₁, a, hyields, hadvances₁, hrest⟩ := hplan
      have hnames₁ := hadvances₁.toChanges.hasBuilders hnames
      obtain ⟨σ₂, b, hp, hadvances₂, items, hitems, hpost⟩ :=
        ih (h₀.trans hadvances₁) hnames₁ hrest
      obtain ⟨σ', hworld, hle, hlist⟩ := σ₂.exists_listStar items b
      refine ⟨σ', _, ?_, (hadvances₁.trans hadvances₂).trans (hle.advances may),
        hpost σ' _ hle hlist⟩
      rw [hworld]
      exact .splice hyields (h₀.keeps hadvances₁ hnames) hp hitems.lists
  | vector => exact hplan.elim

theorem Plan.Follows.isSound {code : Value → Datum → Prop} {plan : Plan} {d : Datum}
    (h : plan.Follows code d) : plan.isSound = true := by
  cases d with
  | pair first rest =>
      simp only [Plan.Follows] at h
      cases hrole : Datum.role first rest with
      | unquoted =>
          simp only [hrole] at h
          obtain ⟨e, rfl, -⟩ := h
          rfl
      | spliced =>
          simp only [hrole] at h
          obtain ⟨e, p, rfl, -, hp⟩ := h
          exact hp.isSound
      | nested | plain =>
          simp only [hrole] at h
          obtain ⟨p, q, rfl, hp, hq⟩ := h
          simp only [Plan.isSound, hp.isSound, hq.isSound, Bool.and_self]
  | _ =>
      cases h
      rfl
termination_by structural d

namespace Moment

theorem Expansion.does (h : σ.Expansion s plan) (hsound : plan.isSound = true)
    (hnames : σ.world.HasBuilders scope) (hplan : plan.Does may scope σ post) :
    σ.Does may s scope post := by
  obtain ⟨part, hskeleton, hcovers⟩ := h
  have hkept : ∀ r p, σ.Cell r p → σ.known r := fun _ _ hr => hr.1
  have hcells : σ.world.HasCells σ.Cell := fun _ _ hr => hr.2
  obtain ⟨σ', v, hfills, hadvances, hpost⟩ := hcovers.does (.refl may σ) hnames hplan
  exact ⟨σ', v, hskeleton.yields hcovers hsound hkept hcells hnames hfills, hadvances, hpost⟩

/-- The names that templates are evaluated with have their values. -/
structure SeesTemplates (σ : Moment) (scope : Ref .scope) : Prop where
  quasiquote : ∃ owner, σ.heap.locate? .quasiquote scope = some (owner, .transformer ⟨2⟩)
  builders : σ.world.HasBuilders scope

theorem SeesTemplates.advances {σ' : Moment} (h : σ.SeesTemplates scope) (h' : σ.Advances may σ') :
    σ'.SeesTemplates scope where
  quasiquote := by
    obtain ⟨owner, howner⟩ := h.quasiquote
    exact ⟨owner, Heap.locateWithin_mono h'.scopes (Nat.le_refl _) howner⟩
  builders := h'.toChanges.hasBuilders h.builders

/-- A template is evaluated by building what it denotes, whether it has been replaced or not. -/
theorem Templated.does {code : Value → Datum → Prop} {site : Ref .pair}
    (h : σ.Templated code site d) (hd : d.IsTemplate) (hσ : σ.Continues World.prelude)
    (hscope : σ.SeesTemplates scope) (hmay : d ∈ may.templates)
    (hcode : ∀ plan, (∀ e, plan ≠ .hole (.pair e)) → σ.Expansion (.pair site) plan →
      plan.Follows code d → plan.Does may scope σ post)
    (hlies : ∀ σ' plan, σ.Advances may σ' → (∀ e, plan ≠ .hole (.pair e)) →
      σ'.Expansion (.pair site) plan → plan.Follows (LaidOut σ'.Lies) d →
      plan.Does may scope σ' post) :
    σ.Does may (.pair site) scope post := by
  rcases h with hsite | ⟨plan, hplan, hexpansion, hfollows⟩
  · obtain ⟨owner, hname⟩ := hscope.quasiquote
    obtain ⟨σ₁, plan, hadvances, hplace, hplan, hexpansion, hfollows⟩ :=
      hsite.exists_advances hd hσ hname hmay
    obtain ⟨σ', v, hyields, hadvances', hpost⟩ := hexpansion.does hfollows.isSound
      (hscope.advances hadvances).builders (hlies σ₁ plan hadvances hplan hexpansion hfollows)
    exact ⟨σ', v, hplace v _ hyields, hadvances.trans hadvances', hpost⟩
  · exact hexpansion.does hfollows.isSound hscope.builders (hcode plan hplan hexpansion hfollows)

/-- A template that holds none within. -/
theorem Flat.does {site : Ref .pair} (h : σ.Flat site d) (hd : d.IsTemplate)
    (hsimple : d.isSimple = true) (hσ : σ.Continues World.prelude) (hscope : σ.SeesTemplates scope)
    (hmay : d ∈ may.templates)
    (hplan : ∀ (σ' : Moment) (plan : Plan), σ.Advances may σ' →
      plan.Follows (LaidOut σ'.Cell) d →
      plan.Does may scope σ' post) :
    σ.Does may (.pair site) scope post := by
  have hflat : d.isFlat = true := by
    simp only [Datum.isSimple, Datum.list, Datum.listStar, List.foldr, Datum.isFlat,
      Bool.and_eq_true] at hsimple
    exact hsimple.1.2
  refine Templated.does h hd hσ hscope hmay (fun plan _ _ hfollows => ?_)
    fun σ' plan hadvances _ _ hfollows => ?_
  · exact hplan σ plan (.refl may σ) hfollows
  · exact hplan σ' plan hadvances (hfollows.imp fun e d' _ hd' he => cells_of_lies (hd' hflat) he)

end Moment

end

end Scheme
