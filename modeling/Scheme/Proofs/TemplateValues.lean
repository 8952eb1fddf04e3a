import Scheme.Proofs.Refinement
import Scheme.Proofs.TemplateTransformer
/-!
# Values of templates

What a template denotes, as a specification of what evaluating it comes to: the expressions on the
outermost level are evaluated from left to right, and what is built of their values lies in pairs
and vectors of which it is not said whether they are new. The value of a template that is evaluated
is as specified.
-/

namespace Scheme

open Evaluator

/-! ## Building -/

/-- The later world has more pairs and vectors. -/
structure World.Adds (w w' : World) : Prop where
  heap : w.heap.Extends w'.heap
  others : w' = { w with heap := { w.heap with
    pairs := w'.heap.pairs, vectors := w'.heap.vectors } }

/-- The value is a list that begins with the items and goes on with the tail. -/
def Heap.ListsOnto (h : Heap) (tail : Value) : List Value → Value → Prop
  | [], v => v = tail
  | item :: items, v => ∃ r rest, v = .pair r ∧ h.pairs[r.index]? = some ⟨item, rest⟩ ∧
    ListsOnto h tail items rest

/-- Building the plan comes to an end as stated, in whatever pairs and vectors. Each expression has
a value, and leaves the names of the builders and the pairs that are kept as they are. -/
def Plan.Builds (scope : Ref .scope) (kept : Ref .pair → Prop) :
    Plan → World → (Value → World → Prop) → Prop
  | .atom v, w, post => post v w
  | .hole e, w, post => ∃ v w', Yields e scope w v w' ∧ w.Keeps kept scope w' ∧ post v w'
  | .pair p q, w, post => p.Builds scope kept w fun a w => q.Builds scope kept w fun b w =>
    ∀ r w', w.Adds w' → w'.heap.pairs[r.index]? = some ⟨a, b⟩ → post (.pair r) w'
  | .splice e p, w, post => ∃ a w₁, Yields e scope w a w₁ ∧ w.Keeps kept scope w₁ ∧
    p.Builds scope kept w₁ fun b w => ∃ items, w.heap.Lists a items ∧
      ∀ v w', w.Adds w' → w'.heap.ListsOnto b items v → post v w'
  | .vector p, w, post => p.Builds scope kept w fun a w => ∀ items, w.heap.Lists a items →
    ∀ r w', w.Adds w' → w'.heap.vectors[r.index]? = some items.toArray → post (.vector r) w'

namespace World

theorem Adds.refl (w : World) : w.Adds w :=
  ⟨.refl _, rfl⟩

theorem Adds.trans {w w₁ w' : World} (h : w.Adds w₁) (h' : w₁.Adds w') : w.Adds w' := by
  refine ⟨h.heap.trans h'.heap, ?_⟩
  have heq := h'.others
  rw [h.others] at heq
  exact heq

theorem adds_cons (w : World) (a b : Value) :
    w.Adds { w with heap := (w.heap.cons a b).2 } :=
  ⟨Heap.extends_cons _ _ _, rfl⟩

theorem adds_listStar (w : World) (items : List Value) (tail : Value) :
    w.Adds { w with heap := (w.heap.listStar items tail).2 } := by
  induction items with
  | nil => exact .refl w
  | cons item items ih =>
      rw [Heap.listStar_cons]
      exact ih.trans (adds_cons { w with heap := (w.heap.listStar items tail).2 } _ _)

end World

theorem Heap.ListsOnto.extend {h h' : Heap} (hext : h.Extends h') {tail : Value} {items : List Value}
    {v : Value} (hv : h.ListsOnto tail items v) : h'.ListsOnto tail items v := by
  induction items generalizing v with
  | nil => exact hv
  | cons item items ih =>
      obtain ⟨r, rest, rfl, hr, hrest⟩ := hv
      exact ⟨r, rest, rfl, hext.pairs _ _ hr, ih hrest⟩

theorem Heap.listsOnto_listStar (h : Heap) (items : List Value) (tail : Value) :
    (h.listStar items tail).2.ListsOnto tail items (h.listStar items tail).1 := by
  induction items with
  | nil => rfl
  | cons item items ih =>
      rw [listStar_cons]
      exact ⟨_, _, rfl, Array.getElem?_push_size, ih.extend (extends_cons _ _ _)⟩

/-! ## Expansions build what they are for -/

section

variable {scope : Ref .scope} {kept : Ref .pair → Prop} {cell : Ref .pair → Pair → Prop}
  {plan : Plan} {w : World} {post : Value → World → Prop}

/-- A constant has its value wherever it is evaluated. -/
theorem Quotes.yields {e v : Value} (h : Quotes cell e v) (hcells : w.HasCells cell) :
    Yields e scope w v w := by
  cases h with
  | self hself => exact .selfEvaluating hself
  | @quotation r r' v rest hform hoperand =>
      have hvalue : w.heap.first (.pair r') = v := congrArg Pair.first (hcells.eq hoperand)
      rw [← hvalue]
      exact .quotation (hcells.eq hform)
  | @bare r rest hform hrest =>
      have hvalue : w.heap.first rest = .nil := by
        cases rest <;> first | rfl | cases hrest
      rw [← hvalue]
      exact .quotation (hcells.eq hform)

/-- What stands for the plan is what building it comes to. -/
theorem Stands.of_builds {v : Value} (h : Stands cell v plan) (hcells : w.HasCells cell)
    (hbuilds : plan.Builds scope kept w post) : post v w := by
  induction h generalizing post with
  | atom v => exact hbuilds
  | hole hquotes =>
      obtain ⟨v', w', hyields, -, hpost⟩ := hbuilds
      obtain ⟨rfl, rfl⟩ := hyields.unique (hquotes.yields hcells)
      exact hpost
  | pair hcell _ _ iha ihb => exact ihb (iha hbuilds) _ w (.refl w) (hcells _ _ hcell)

/-- A part that covers the plan can be filled where the plan can be built. -/
theorem Covers.fills {part : Part} (h : Covers cell part plan) (hplan : plan.isSound = true)
    (hkept : ∀ r p, cell r p → kept r) (hcells : w.HasCells cell) (hnames : w.HasBuilders scope)
    (hbuilds : plan.Builds scope kept w post) :
    ∃ v w', Fills scope kept part w v w' ∧ post v w' := by
  induction h generalizing w post with
  | constant hstands => exact ⟨_, w, .constant _ w, hstands.of_builds hcells hbuilds⟩
  | hole e =>
      obtain ⟨v, w', hyields, hkeeps, hpost⟩ := hbuilds
      exact ⟨v, w', .hole hyields hkeeps, hpost⟩
  | pair _ _ ihp ihq =>
      simp only [Plan.isSound, Bool.and_eq_true] at hplan
      obtain ⟨a, w₁, hp, hrest⟩ := ihp hplan.1 hcells hnames hbuilds
      have hkeeps := hp.keeps hnames
      obtain ⟨b, w₂, hq, hpost⟩ := ihq hplan.2 (hcells.keeps hkept hkeeps) hkeeps.names hrest
      exact ⟨_, _, .pair hp hq, hpost _ _ (w₂.adds_cons a b) Array.getElem?_push_size⟩
  | splice e _ ih =>
      obtain ⟨a, w₁, hyields, hkeeps, hrest⟩ := hbuilds
      obtain ⟨b, w₂, hp, items, hlists, hpost⟩ :=
        ih hplan (hcells.keeps hkept hkeeps) hkeeps.names hrest
      exact ⟨_, _, .splice hyields hkeeps hp hlists,
        hpost _ _ (w₂.adds_listStar items b) (w₂.heap.listsOnto_listStar items b)⟩
  | vector hp ih =>
      simp only [Plan.isSound, Bool.and_eq_true] at hplan
      obtain ⟨a, w₁, hfills, hpost⟩ := ih hplan.2 hcells hnames hbuilds
      obtain ⟨items, hlists⟩ := hfills.lists hp hplan.1 hkept hcells hnames
      refine ⟨_, _, .vector hfills, hpost items hlists _ _ ⟨Heap.extends_addVector _ _, rfl⟩ ?_⟩
      rw [hlists.elementsOf_eq]
      exact Array.getElem?_push_size

end

/-! ## Plans of templates -/

namespace Template

/-- The elements of a vector are built as a list. -/
theorem isList_plan {t : Template} (hlist : t.isList = true) (hbare : t.hasBareMark = false)
    (n : Nat) : (t.plan n).isList = true := by
  induction t generalizing n with
  | atom v => exact hlist
  | vector => cases hlist
  | pair head first rest _ ih =>
      simp only [hasBareMark, Bool.or_eq_false_iff] at hbare
      have hrest := ih hlist hbare.2
      cases hrole : role first rest with
      | unquoted =>
          rw [isSymbol_of_isMarked (isMarked_of_unquoted hrole)] at hbare
          cases hbare.1.1
      | nested =>
          rw [isSymbol_of_isMarked (isMarked_of_nested hrole)] at hbare
          cases hbare.1.2
      | spliced => cases n <;> simpa only [plan, hrole, Plan.isList] using hrest _
      | plain => simpa only [plan, hrole, Plan.isList] using hrest _

theorem isSound_plan {t : Template} (h : t.isWellFormed = true) (n : Nat) :
    (t.plan n).isSound = true := by
  induction t generalizing n with
  | atom => rfl
  | vector elements ih =>
      simp only [isWellFormed, Bool.and_eq_true, Bool.not_eq_true'] at h
      simp only [plan, Plan.isSound, Bool.and_eq_true]
      exact ⟨isList_plan h.1.1 h.1.2 n, ih h.2 n⟩
  | pair head first rest ihfirst ihrest =>
      obtain ⟨-, hfirst, hrest⟩ := isWellFormed_pair h
      cases hrole : role first rest <;> cases n <;>
        simp [plan, hrole, Plan.isSound, ihfirst hfirst, ihrest hrest]

end Template

/-- An expression that is all of a template is evaluated in the place of the template. -/
def Plan.inPlace (site : Ref .pair) : Plan → Plan
  | .hole (.pair _) => .hole (.pair site)
  | plan => plan

theorem Plan.inPlace_eq {plan : Plan} (h : ∀ e, plan ≠ .hole (.pair e)) (site : Ref .pair) :
    plan.inPlace site = plan := by
  unfold inPlace
  split
  · exact absurd rfl (h _)
  · rfl

/-- The machine comes to the value that an expression has in direct style, unless the limit of
nesting stops it. A limit that is high enough does not. -/
theorem Evaluator.Yields.ends {x v : Value} {scope : Ref .scope} {w w' : World}
    (h : Yields x scope w v w') : ∃ enough, ∀ m,
    m < enough ∧ (Step.go (.eval x scope) [] (w.underLimit m)).Deepens ∨
      (Step.go (.eval x scope) [] (w.underLimit m)).Ends (.value v) (w'.onLevel w.depth m) := by
  obtain ⟨time, htime⟩ := h
  refine ⟨w.depth + (time + 1), fun m => ?_⟩
  rcases (followed_within time).nested (d := w.depth) (m := m) scope [] w x (Nat.le_refl time) with
    hdeep | harrives
  · exact Or.inl hdeep
  · have hvalue : (within time).eval x scope w = _ := htime time (Nat.le_refl time)
    rw [hvalue] at harrives
    obtain ⟨outcome, w'', hends, rfl, rfl⟩ := harrives.ends
    exact Or.inr hends

namespace Moment

variable {σ σ' : Moment} {scope : Ref .scope} {plan : Plan}
  {post : Value → World → Prop} {site x : Ref .pair} {q : Pair}

/-- Evaluating an expansion builds what it is for. -/
theorem Expansion.builds {s : Value} (h : σ.Expansion s plan) (hplan : plan.isSound = true)
    (hnames : σ.world.HasBuilders scope) (hbuilds : plan.Builds scope σ.known σ.world post) :
    ∃ v w', Yields s scope σ.world v w' ∧ post v w' := by
  obtain ⟨part, hskeleton, hcovers⟩ := h
  have hkept : ∀ r p, σ.Cell r p → σ.known r := fun _ _ hr => hr.1
  have hcells : σ.world.HasCells σ.Cell := fun _ _ hr => hr.2
  obtain ⟨v, w', hfills, hpost⟩ := hcovers.fills hplan hkept hcells hnames hbuilds
  exact ⟨v, w', hskeleton.yields hcovers hplan hkept hcells hnames hfills, hpost⟩

/-! ## Putting an expansion in its place -/

theorem Items.copied {item : Value} {items : List Value}
    (h : Items σ.Cell (.pair x) (item :: items)) (hx : σ.heap.pairs[x.index]? = some q)
    (hsite : σ.Cell site q) : Items σ.Cell (.pair site) (item :: items) := by
  cases h with
  | cons hcell hrest =>
      cases Option.some.inj (hcell.2.symm.trans hx)
      exact .cons hsite hrest

/-- A copy of the first pair of an expansion is an expansion, unless it is one of the expressions
of the template. -/
theorem Expansion.copied (h : σ.Expansion (.pair x) plan) (hplan : ∀ e, plan ≠ .hole (.pair e))
    (hx : σ.heap.pairs[x.index]? = some q) (hsite : σ.Cell site q) :
    σ.Expansion (.pair site) plan := by
  obtain ⟨part, hskeleton, hcovers⟩ := h
  cases hskeleton with
  | self hself => cases hself
  | quoted hitems =>
      cases hcovers with
      | constant hstands => exact ⟨_, .quoted (Items.copied hitems hx hsite), .constant hstands⟩
  | hole =>
      cases hcovers
      exact absurd rfl (hplan x)
  | single hitems hs hnil =>
      cases hcovers with
      | pair hp hq => exact ⟨_, .single (Items.copied hitems hx hsite) hs hnil, .pair hp hq⟩
  | merged hr hr' hs hlist hrest =>
      cases hcovers with
      | pair hp hq =>
          cases Option.some.inj (hr.2.symm.trans hx)
          exact ⟨_, .merged hsite hr' hs hlist hrest, .pair hp hq⟩
  | cons hitems hs ht =>
      cases hcovers with
      | pair hp hq => exact ⟨_, .cons (Items.copied hitems hx hsite) hs ht, .pair hp hq⟩
  | append hitems hs =>
      cases hcovers with
      | splice _ hp => exact ⟨_, .append (Items.copied hitems hx hsite) hs, .splice _ hp⟩
  | vector hitems hs =>
      cases hcovers with
      | vector hp => exact ⟨_, .vector (Items.copied hitems hx hsite) hs, .vector hp⟩

/-- A pair that was to be replaced has been, for good. -/
structure Replaced (σ σ' : Moment) (site : Ref .pair) (q : Pair) : Prop where
  world : ∃ entries, σ'.world = { σ.world with heap := σ.heap.setPair site q, log := entries }
  cells : ∀ r p, σ.Cell r p → σ'.Cell r p
  stills : ∀ r p, σ.Still r p → σ'.Still r p
  waiting : ∀ r p, σ.sites r → r ≠ site → σ.heap.pairs[r.index]? = some p →
    σ'.sites r ∧ σ'.heap.pairs[r.index]? = some p
  cell : σ'.Cell site q
  known : ∀ r, σ'.known r → σ.known r ∨ r = site
  sites : ∀ r, σ'.sites r → σ.sites r

theorem exists_replaced (hsite : σ.sites site) (q : Pair) (entries : Array Entry) :
    ∃ σ', σ.Replaced σ' site q ∧
      σ'.world = { σ.world with heap := σ.heap.setPair site q, log := entries } := by
  have hnot : ¬ (σ.without site).sites site := fun h => h.2 rfl
  have hbound : site.index < (σ.without site).heap.pairs.size := σ.bounds site (Or.inr hsite)
  have hold : ∀ r p, r ≠ site → σ.heap.pairs[r.index]? = some p →
      ((σ.without site).replacing site q entries hnot hbound).heap.pairs[r.index]? = some p :=
    fun _ _ hne hp => getElem?_replacing hnot hbound hne hp
  refine ⟨(σ.without site).replacing site q entries hnot hbound, ⟨⟨entries, rfl⟩, ?_, ?_, ?_,
    cell_replacing hnot hbound, fun _ => id, fun _ h => h.1⟩, rfl⟩
  · exact fun r p hr => Cell.replacing hnot (σ.apart site hsite) hbound ⟨hr.1, hr.2⟩
  · intro r p hr
    have hne : r ≠ site := by
      rintro rfl
      exact hr.1 hsite
    exact ⟨fun h => hr.1 h.1, hold r p hne hr.2⟩
  · exact fun r p hr hne hp => ⟨⟨hr, hne⟩, hold r p hne hp⟩

theorem Expansion.across {s : Value} (h : σ.Expansion s plan) (hreplaced : σ.Replaced σ' site q) :
    σ'.Expansion s plan := by
  obtain ⟨part, hskeleton, hcovers⟩ := h
  exact ⟨part, hskeleton.mono hreplaced.cells hreplaced.stills, hcovers.mono hreplaced.cells⟩

/-- The later moment differs at most in calls that were to be replaced, and has more pairs, scopes,
closures and vectors. What is known is still known, and all conjunctions are what they were. -/
structure Changes (σ σ' : Moment) : Prop where
  size : σ.heap.pairs.size ≤ σ'.heap.pairs.size
  cells : ∀ r p, σ.Cell r p → σ'.Cell r p
  stills : ∀ r p, σ.Still r p → σ'.Still r p
  conjunctions : ∀ v xs, σ.Conjoins v xs → σ'.Conjoins v xs
  fresh : ∀ r, σ'.known r ∨ σ'.sites r → σ.known r ∨ σ.sites r ∨ σ.heap.pairs.size ≤ r.index
  scopes : ∀ (i : Nat) s, σ.heap.scopes[i]? = some s → σ'.heap.scopes[i]? = some s
  closures : ∀ (i : Nat) c, σ.heap.closures[i]? = some c → σ'.heap.closures[i]? = some c
  vectors : ∀ (i : Nat) elements, σ.heap.vectors[i]? = some elements →
    σ'.heap.vectors[i]? = some elements
  strings : σ'.heap.strings = σ.heap.strings
  continuations : σ'.heap.continuations = σ.heap.continuations
  others : σ'.world = { σ.world with heap := σ'.heap, log := σ'.world.log }

theorem Le.changes (h : σ.Le σ') : σ.Changes σ' where
  size := h.size
  cells := h.cells
  stills := h.stills
  conjunctions _ _ := Conjoins.mono h
  fresh := h.fresh
  scopes := h.scopes
  closures := h.closures
  vectors := h.vectors
  strings := h.strings
  continuations := h.continuations
  others := h.others

theorem Changes.trans {σ'' : Moment} (h : σ.Changes σ') (h' : σ'.Changes σ'') : σ.Changes σ'' where
  size := Nat.le_trans h.size h'.size
  cells r p hr := h'.cells r p (h.cells r p hr)
  stills r p hr := h'.stills r p (h.stills r p hr)
  conjunctions v xs hv := h'.conjunctions v xs (h.conjunctions v xs hv)
  fresh r hr := by
    have hsize := h.size
    rcases h'.fresh r hr with hr | hr | hr
    · exact h.fresh r (Or.inl hr)
    · exact h.fresh r (Or.inr hr)
    · exact Or.inr (Or.inr (by omega))
  scopes i s hs := h'.scopes i s (h.scopes i s hs)
  closures i c hc := h'.closures i c (h.closures i c hc)
  vectors i elements he := h'.vectors i elements (h.vectors i elements he)
  strings := h'.strings.trans h.strings
  continuations := h'.continuations.trans h.continuations
  others := by rw [h'.others, h.others]

/-- Replacing a call that is no conjunction leaves the conjunctions alone. -/
theorem Replaced.changes (h : σ.Replaced σ' site q) (hsite : σ.sites site) {p : Pair}
    (hp : σ.heap.pairs[site.index]? = some p) (hhead : p.first ≠ .symbol ⟨"and"⟩) :
    σ.Changes σ' := by
  obtain ⟨entries, hworld⟩ := h.world
  have hheap : σ'.heap = σ.heap.setPair site q := congrArg World.heap hworld
  refine ⟨?_, h.cells, h.stills, fun v xs hv => ?_, ?_, ?_, ?_, ?_, ?_, ?_, ?_⟩
  · simp [hheap, Heap.setPair]
  · induction hv with
    | @site r _ _ hr hitems =>
        have hne : r ≠ site := by
          rintro rfl
          cases Option.some.inj (hp.symm.trans hr.2)
          exact hhead rfl
        exact .site (h.waiting r _ hr.1 hne hr.2) (hitems.mono h.cells)
    | last hcell hx => exact .last (h.cells _ _ hcell) (h.cells _ _ hx)
    | branch hcell hitems _ ih => exact .branch (h.cells _ _ hcell) (hitems.mono h.cells) ih
  · rintro r (hr | hr)
    · rcases h.known r hr with hr | rfl
      · exact Or.inl hr
      · exact Or.inr (Or.inl hsite)
    · exact Or.inr (Or.inl (h.sites r hr))
  all_goals simp [hheap, hworld, Heap.setPair]

theorem Changes.hasBuilders (h : σ.Changes σ') (hnames : σ.world.HasBuilders scope) :
    σ'.world.HasBuilders scope := by
  intro p hp
  obtain ⟨owner, howner⟩ := hnames p hp
  exact ⟨owner, Heap.locateWithin_mono h.scopes (Nat.le_refl _) howner⟩

theorem spliced_atom {v : Value} (hv : v.isPair = false) (site : Ref .pair) (c : Ref .closure)
    (w : World) :
    ∃ entries, spliced site c v w = { w with
      heap := (w.heap.cons v .nil).2.setPair site ⟨.symbol .begin, (w.heap.cons v .nil).1⟩
      log := entries } := by
  unfold spliced
  split
  · cases v <;> first | exact ⟨_, rfl⟩ | cases hv
  · cases v <;> first | exact ⟨_, rfl⟩ | cases hv

/-- An expansion takes the place of its call, and has the same value there. -/
theorem Expansion.exists_spliced {s : Value} (h : σ.Expansion s plan) (hsite : σ.sites site)
    {p : Pair} (hp : σ.heap.pairs[site.index]? = some p) (hhead : p.first ≠ .symbol ⟨"and"⟩)
    (c : Ref .closure) :
    ∃ σ₁, σ.Changes σ₁ ∧ σ₁.world = spliced site c s σ.world ∧
      ((∀ e, plan ≠ .hole (.pair e)) → ∃ e, σ₁.Expansion e plan ∧ ∀ scope v w',
        Yields e scope σ₁.world v w' → Yields (.pair site) scope σ₁.world v w') := by
  by_cases hpair : s.isPair = true
  · obtain ⟨x, rfl⟩ : ∃ x, s = .pair x := by
      cases s <;> first | exact ⟨_, rfl⟩ | cases hpair
    obtain ⟨head, rest, hx, -⟩ := h.head
    obtain ⟨entries, hspliced⟩ := spliced_pair site c x σ.world
    obtain ⟨σ₁, hreplaced, hworld⟩ := exists_replaced hsite (σ.world.heap.pair x) entries
    refine ⟨σ₁, hreplaced.changes hsite hp hhead, hworld.trans hspliced.symm, fun hplan => ?_⟩
    have hpair : σ.world.heap.pair x = ⟨head, rest⟩ := Heap.pair_eq_of_getElem? hx.2
    have hcell := hreplaced.cell
    rw [hpair] at hcell
    exact ⟨.pair site, (h.across hreplaced).copied hplan (hreplaced.stills _ _ hx).2 hcell,
      fun _ _ _ => id⟩
  · have hatom : s.isPair = false := by simpa using hpair
    obtain ⟨entries, hspliced⟩ := spliced_atom hatom site c σ.world
    have hle := σ.le_cons s .nil
    obtain ⟨hsite₁, hp₁⟩ := hle.waiting site p hsite hp hhead
    obtain ⟨σ₁, hreplaced, hworld⟩ := exists_replaced hsite₁
      ⟨.symbol .begin, .pair ⟨σ.heap.pairs.size⟩⟩ entries
    refine ⟨σ₁, hle.changes.trans (hreplaced.changes hsite₁ hp₁ hhead),
      hworld.trans hspliced.symm, fun _ => ?_⟩
    refine ⟨s, (h.mono hle).across hreplaced, fun scope v w' hyields => ?_⟩
    exact .sequence hreplaced.cell.eq
      (bodyYields_last (hreplaced.cells _ _ (σ.cell_cons s .nil)).eq hyields)

/-! ## Evaluating a template -/

/-- The call of the transformer for templates that is to be replaced: its operand is the template. -/
structure Quasiquotes (σ : Moment) (site : Ref .pair) (t : Template) : Prop where
  awaits : σ.sites site
  form : ∃ operand x, σ.heap.pairs[site.index]? = some ⟨.symbol .quasiquote, .pair operand⟩ ∧
    σ.heap.pairs[operand.index]? = some ⟨x, .nil⟩ ∧ σ.Reads x t 0

/-- An expression that is all of a template is not about to be replaced. -/
theorem Reads.still_of_hole {v : Value} {t : Template} {e : Ref .pair} (h : σ.Reads v t 0)
    (he : t.plan 0 = .hole (.pair e)) : ∃ p, σ.Still e p := by
  cases t with
  | atom => cases he
  | vector => cases he
  | pair head first rest =>
      obtain ⟨r, tail, rfl, -, h⟩ := h
      cases hrole : Template.role first rest with
      | unquoted =>
          simp only [hrole, Template.plan, Plan.hole.injEq] at h he
          obtain ⟨p, hp, -⟩ := h.2.2 e he
          exact ⟨p, hp⟩
      | _ => simp [Template.plan, hrole] at he

theorem pair_spliced (hsite : σ.sites site) (c : Ref .closure) (x : Ref .pair) :
    (spliced site c (.pair x) σ.world).heap.pair site = σ.heap.pair x := by
  obtain ⟨entries, hspliced⟩ := spliced_pair site c x σ.world
  have hbound : site.index < σ.world.heap.pairs.size := σ.bounds site (Or.inr hsite)
  rw [hspliced]
  exact Heap.pair_eq_of_getElem? (Array.getElem?_setIfInBounds_self_of_lt hbound)

/-- A template is evaluated by its expansion, once that is in its place. -/
theorem Quasiquotes.exists_expansion {t : Template} (h : σ.Quasiquotes site t)
    {c conjunction : Ref .closure} (hc : σ.IsTransformer c conjunction) {owner : Ref .scope}
    (hname : σ.heap.locate? .quasiquote scope = some (owner, .transformer c))
    (hproper : t.isWellFormed = true) (hsize : t.size < 2 ^ 53) :
    ∃ σ₁, σ.Changes σ₁ ∧
      (∀ e, t.plan 0 = .hole (.pair e) → σ₁.heap.pair site = σ.heap.pair e) ∧
      (∀ v w', Yields (.pair site) scope σ₁.world v w' → Yields (.pair site) scope σ.world v w') ∧
      ((∀ e, t.plan 0 ≠ .hole (.pair e)) → ∃ e, σ₁.Expansion e (t.plan 0) ∧
        ∀ v w', Yields e scope σ₁.world v w' → Yields (.pair site) scope σ₁.world v w') := by
  obtain ⟨operand, x, hform, hoperand, hx⟩ := h.form
  have hhead : Value.symbol .quasiquote ≠ .symbol ⟨"and"⟩ := by decide
  obtain ⟨inner, w₁, σ₁, s, henter, hbody, hle, hanswers⟩ := expands_template hc hx hproper hsize
  obtain ⟨hsite₁, hform₁⟩ := hle.waiting site _ h.awaits hform hhead
  obtain ⟨σ₂, hchanges, hworld, hplace⟩ :=
    hanswers.expansion.exists_spliced hsite₁ hform₁ hhead c
  refine ⟨σ₂, hle.changes.trans hchanges, fun e he => ?_, fun v w' hyields => ?_, fun hplan => ?_⟩
  · obtain ⟨p, hp⟩ := hx.still_of_hole he
    rw [hanswers.hole _ he] at hworld
    rw [heap, hworld, pair_spliced hsite₁]
    exact (Heap.pair_eq_of_getElem? (hle.stills e p hp).2).trans
      (Heap.pair_eq_of_getElem? hp.2).symm
  · rw [hworld] at hyields
    have hlists : σ.world.heap.Lists (.pair operand) [x] := .cons hoperand .nil
    exact .expansion (Heap.pair_eq_of_getElem? hform) rfl (.variable hname)
      (World.elements_eq hlists) henter hbody hyields
  · obtain ⟨e, he, hyields⟩ := hplace hplan
    exact ⟨e, he, hyields scope⟩

/-- A template has the value that building what it denotes comes to, from the moment on at which its
expansion is in its place. -/
theorem Quasiquotes.yields {t : Template} (h : σ.Quasiquotes site t) {c conjunction : Ref .closure}
    (hc : σ.IsTransformer c conjunction) {owner : Ref .scope}
    (hname : σ.heap.locate? .quasiquote scope = some (owner, .transformer c))
    (hnames : σ.world.HasBuilders scope) (hproper : t.isWellFormed = true)
    (hsize : t.size < 2 ^ 53) :
    ∃ σ₁, σ.Changes σ₁ ∧
      (∀ e, t.plan 0 = .hole (.pair e) → σ₁.heap.pair site = σ.heap.pair e) ∧
      ∀ post, ((t.plan 0).inPlace site).Builds scope σ₁.known σ₁.world post →
        ∃ v w', Yields (.pair site) scope σ.world v w' ∧ post v w' := by
  obtain ⟨σ₁, hchanges, hhole, hsite, hexpansion⟩ := h.exists_expansion hc hname hproper hsize
  refine ⟨σ₁, hchanges, hhole, fun post hbuilds => ?_⟩
  by_cases hplan : ∃ e, t.plan 0 = .hole (.pair e)
  · -- the expression itself is in the place of the template
    obtain ⟨e, he⟩ := hplan
    rw [he] at hbuilds
    obtain ⟨v, w', hyields, -, hpost⟩ := hbuilds
    exact ⟨v, w', hsite v w' hyields, hpost⟩
  · have hplan : ∀ e, t.plan 0 ≠ .hole (.pair e) := fun e he => hplan ⟨e, he⟩
    rw [Plan.inPlace_eq hplan] at hbuilds
    obtain ⟨e, he, hyields⟩ := hexpansion hplan
    obtain ⟨v, w', hv, hpost⟩ := he.builds (Template.isSound_plan hproper 0)
      (hchanges.hasBuilders hnames) hbuilds
    exact ⟨v, w', hsite v w' (hyields v w' hv), hpost⟩

end Moment

end Scheme
