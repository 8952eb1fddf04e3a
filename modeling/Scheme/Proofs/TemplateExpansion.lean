import Scheme.Proofs.Expander
/-!
# Expanding a template

What the expander answers for a template inside so many templates is an expansion for what the
template denotes there.
-/

namespace Scheme

namespace Moment

variable {σ σ' : Moment} {refs : ExpanderRefs} {post : Moment → Value → Prop}

/-! ## Tests for marks -/

/-- The elements of a vector. -/
def Row (σ : Moment) (r : Ref .vector) (vs : Array Value) : Prop :=
  σ.heap.vectors[r.index]? = some vs

/-- The value is the template, in pairs that are not about to be replaced. -/
def Shows (σ : Moment) (v : Value) (t : Template) : Prop :=
  t.Holds σ.Still σ.Row v

/-- The value is the template inside so many templates. -/
def Reads (σ : Moment) (v : Value) (t : Template) (n : Nat) : Prop :=
  t.Reads σ.Still σ.Row σ.Cell n v

theorem Shows.mono (h : σ.Le σ') {v : Value} {t : Template} (hv : σ.Shows v t) : σ'.Shows v t :=
  Template.Holds.mono h.stills (fun r => h.vectors r.index) hv

theorem Reads.mono (h : σ.Le σ') {v : Value} {t : Template} {n : Nat} (hv : σ.Reads v t n) :
    σ'.Reads v t n :=
  Template.Reads.mono h.cells h.stills (fun r => h.vectors r.index) hv

/-- The names in a call of the expander. -/
def expanderNames (refs : ExpanderRefs) (exp : Value) (level : Nat) : Environment :=
  ["exp", "nesting"].zip [exp, .number (.ofNat level)] ++ refs.names

section

variable {exp head tail : Value} {n : Nat} {scope : Ref .scope} {first rest : Template}
  {r : Ref .pair}

/-- A list is compared with the form that a mark heads. -/
theorem EvalsWhileTrue.marked {headText wholeText : Datum} {mark : String}
    (hplain : Datum.isCall "eq?" [headText, .quoted mark] = true)
    (hplain' : Datum.isCall "length" [wholeText] = true)
    (hhead : ∀ σ', σ.Le σ' →
      headText.value? (expanderNames refs exp n) σ'.heap = some head)
    (hwhole : ∀ σ', σ.Le σ' →
      wholeText.value? (expanderNames refs exp n) σ'.heap = some (.pair r))
    (hr : σ.Still r ⟨head, tail⟩) (hfirst : σ.Shows head first) (hrest : σ.Shows tail rest)
    (hproper : first.isSymbol ⟨mark⟩ = true → rest.isList = true) (hsize : rest.size + 1 < 2 ^ 53)
    (hpost : ∀ σ', σ.Le σ' → post σ' (.boolean (Template.isMarked ⟨mark⟩ first rest))) :
    EvalsWhileTrue (expanderNames refs exp n) scope post
      (Datum.markTest headText wholeText mark) σ := by
  intro σ₁ hle₁
  refine Evals.call hplain rfl rfl (Evals.looks (hhead σ₁ hle₁) (Evals.looks rfl
    (Calls.looks rfl ?_)))
  change if (Value.boolean (decide (head = .symbol ⟨mark⟩))).isTrue then _ else _
  rw [← hfirst.isSymbol_eq]
  cases hmark : first.isSymbol ⟨mark⟩ with
  | false =>
      have hnot := hpost σ₁ hle₁
      rw [Template.isMarked_eq_false hmark] at hnot
      exact hnot
  | true =>
      intro σ₂ hle₂
      have hle := hle₁.trans hle₂
      obtain rfl : first = .atom (.symbol ⟨mark⟩) := by
        cases first with
        | atom v => simpa [Template.isSymbol] using hmark
        | _ => cases hmark
      obtain ⟨vs, hitems, hlength⟩ := Template.Holds.items hrest (hproper hmark)
      have hlists : σ₂.heap.Lists (.pair r) (head :: vs) :=
        (Items.cons hr hitems).mono fun r p hp => (hle.stills r p hp).2
      have hlook : Primitive.length.look? σ₂.heap [.pair r] =
          some (.number (.ofNat (rest.length + 1))) := by
        change (σ₂.heap.spineLength? (.pair r)).map _ = _
        rw [hlists.spineLength?_eq, List.length_cons, hlength]
        rfl
      have hbound := rest.length_le_size
      refine Evals.call rfl rfl rfl (Evals.call hplain' rfl rfl (Evals.looks (hwhole σ₂ hle)
        (Calls.looks hlook (Evals.looks rfl (Calls.looks rfl ?_)))))
      have hmarked := hpost σ₂ hle
      rw [Template.isMarked_eq (hproper hmark)] at hmarked
      change post σ₂ (.boolean (Float.ofNat (rest.length + 1) == Float.ofNat 2))
      rw [Number.ofNat_beq_ofNat (by omega) (by decide)]
      simpa using hmarked

theorem Evals.marked (mark : String) (hr : σ.Still r ⟨head, tail⟩) (hfirst : σ.Shows head first)
    (hrest : σ.Shows tail rest) (hproper : first.isSymbol ⟨mark⟩ = true → rest.isList = true)
    (hsize : rest.size + 1 < 2 ^ 53) :
    σ.Evals (expanderNames refs (.pair r) n) scope
      (.form "and" (Datum.markTest (.form "car" [.name "exp"]) (.name "exp") mark))
      fun _ v => v = .boolean (Template.isMarked ⟨mark⟩ first rest) := by
  refine Evals.conjunction rfl rfl (EvalsWhileTrue.marked rfl rfl ?_ (fun _ _ => rfl) hr hfirst
    hrest hproper hsize fun _ _ => rfl)
  intro σ' hle
  change some (σ'.heap.first (.pair r)) = some head
  rw [(hle.stills _ _ hr).first_eq]

theorem Evals.spliced (hr : σ.Still r ⟨head, tail⟩) (hfirst : σ.Shows head first)
    (hproper : first.isWellFormed = true) (hsize : first.size < 2 ^ 53) :
    σ.Evals (expanderNames refs (.pair r) n) scope
      (.form "and" (.form "pair?" [.form "car" [.name "exp"]] ::
        Datum.markTest (.form "caar" [.name "exp"]) (.form "car" [.name "exp"]) "unquote-splicing"))
      fun _ v => v = .boolean (first.isForm .unquoteSplicing) := by
  refine Evals.conjunction rfl rfl fun σ₁ hle₁ => Evals.looks rfl ?_
  change if (Value.boolean ((σ₁.heap.first (.pair r)).isOf .pair)).isTrue then _ else _
  rw [(hle₁.stills _ _ hr).first_eq]
  cases first with
  | atom a =>
      obtain ⟨rfl, hatom, -⟩ := hfirst
      have hnot : head.isOf .pair = false := by
        cases head <;> first | rfl | cases hatom
      simp only [hnot]
      rfl
  | vector =>
      obtain ⟨r', vs, rfl, -⟩ := hfirst
      rfl
  | pair head' first' rest' =>
      obtain ⟨r', tail', rfl, hr', hfirst', hrest'⟩ := hfirst
      have hmarks := (Template.isWellFormed_pair hproper).1
      simp only [Template.size] at hsize
      refine EvalsWhileTrue.marked rfl rfl ?_ ?_ (hle₁.stills _ _ hr')
        (Shows.mono hle₁ hfirst') (Shows.mono hle₁ hrest') (fun h => hmarks (Or.inr (Or.inr h)))
        (by omega) fun _ _ => rfl
      · intro σ' hle
        change some (σ'.heap.first (σ'.heap.first (.pair r))) = some head'
        have hle' := hle₁.trans hle
        rw [(hle'.stills _ _ hr).first_eq, (hle'.stills _ _ hr').first_eq]
      · intro σ' hle
        change some (σ'.heap.first (.pair r)) = some (.pair r')
        rw [((hle₁.trans hle).stills _ _ hr).first_eq]

/-- A pair is treated by its role. -/
theorem Evals.byRole (hr : σ.Still r ⟨head, tail⟩) (hfirst : σ.Shows head first)
    (hrest : σ.Shows tail rest) (hproper : (Template.pair head first rest).isWellFormed = true)
    (hsize : (Template.pair head first rest).size < 2 ^ 53)
    (h : ∀ σ', σ.Le σ' → σ'.Evals (expanderNames refs (.pair r) n) scope
      (Datum.roleText (Template.role first rest)) post) :
    σ.Evals (expanderNames refs (.pair r) n) scope .expanderText post := by
  obtain ⟨hmarks, hproper', -⟩ := Template.isWellFormed_pair hproper
  simp only [Template.size] at hsize
  refine Evals.cond rfl (Evals.looks rfl (Evals.looks rfl (Evals.imp
    (Evals.marked "unquote" hr hfirst hrest (fun h => hmarks (Or.inl h)) (by omega)) ?_)))
  rintro σ₁ _ hle₁ rfl
  change if (Value.boolean (Template.isMarked .unquote first rest)).isTrue then _ else _
  unfold Template.role at h
  cases hunquoted : Template.isMarked .unquote first rest with
  | true =>
      simp only [hunquoted, if_true] at h
      exact fun σ₂ hle₂ => h σ₂ (hle₁.trans hle₂)
  | false =>
      simp only [hunquoted, Bool.false_eq_true, if_false] at h
      refine Evals.imp (Evals.marked "quasiquote" (hle₁.stills _ _ hr) (hfirst.mono hle₁)
        (hrest.mono hle₁) (fun h => hmarks (Or.inr (Or.inl h))) (by omega)) ?_
      rintro σ₂ _ hle₂ rfl
      have hle := hle₁.trans hle₂
      change if (Value.boolean (Template.isMarked .quasiquote first rest)).isTrue then _ else _
      cases hnested : Template.isMarked .quasiquote first rest with
      | true =>
          simp only [hnested, if_true] at h
          exact fun σ₃ hle₃ => h σ₃ (hle.trans hle₃)
      | false =>
          simp only [hnested, Bool.false_eq_true, if_false] at h
          refine Evals.imp (Evals.spliced (hle.stills _ _ hr) (hfirst.mono hle) hproper'
            (by omega)) ?_
          rintro σ₃ _ hle₃ rfl
          cases hspliced : first.isForm .unquoteSplicing with
          | true =>
              simp only [hspliced, if_true] at h
              exact fun σ₄ hle₄ => h σ₄ ((hle.trans hle₃).trans hle₄)
          | false =>
              simp only [hspliced, Bool.false_eq_true, if_false] at h
              exact fun σ₄ hle₄ => h σ₄ ((hle.trans hle₃).trans hle₄)

/-! ## Expressions for pairs -/

/-- The expression is an expansion for what a value denotes. A number stands for itself, and so does
an expression that is to be evaluated. -/
structure Answers (σ : Moment) (s v : Value) (plan : Plan) : Prop where
  expansion : σ.Expansion s plan
  number : ∀ x, v = .number x → s = v
  hole : ∀ e, plan = .hole e → s = e

theorem Answers.mono (h : σ.Le σ') {s v : Value} {plan : Plan} (hs : σ.Answers s v plan) :
    σ'.Answers s v plan :=
  ⟨hs.expansion.mono h, hs.number, hs.hole⟩

/-- The expander answers for the template, on all levels that can be counted. -/
def Expandable (refs : ExpanderRefs) (t : Template) : Prop :=
  ∀ (n : Nat) (σ : Moment) (v : Value) (post : Moment → Value → Prop), σ.Expander refs →
    σ.Reads v t n → t.isWellFormed = true → n + t.size < 2 ^ 53 →
    (∀ σ' s, σ.Le σ' → σ'.Answers s v (t.plan n) → post σ' s) →
    σ.Calls (.closure refs.expand) [v, .number (.ofNat n)] post

variable {p q : Plan}

/-- The expander is called on a part of the template. -/
theorem Evals.expanding {t : Template} (ht : Expandable refs t) (hrefs : σ.Expander refs) {v : Value}
    {m : Nat} (hv : σ.Reads v t m) (hproper : t.isWellFormed = true) (hsize : m + t.size < 2 ^ 53)
    {part level : Datum} (hplain : Datum.isCall "expand-quasiquote" [part, level] = true)
    (hpart : part.value? (expanderNames refs exp n) σ.heap = some v)
    (hlevel : level.value? (expanderNames refs exp n) σ.heap = some (.number (.ofNat m)))
    (hpost : ∀ σ' s, σ.Le σ' → σ'.Answers s v (t.plan m) → post σ' s) :
    σ.Evals (expanderNames refs exp n) scope (.expanding part level) post :=
  Evals.call hplain rfl rfl (Evals.looks hpart (Evals.looks hlevel
    (ht m σ v post hrefs hv hproper hsize hpost)))

/-- The expressions for the parts of a pair are combined. -/
theorem Evals.combining (hrefs : σ.Expander refs) (hr : σ.Cell r ⟨head, tail⟩) {left right : Datum}
    (hplain : Datum.isCall "combine-skeletons" [left, right, .name "exp"] = true)
    (h : σ.Evals (expanderNames refs (.pair r) n) scope left fun σ₁ s =>
      σ₁.Evals (expanderNames refs (.pair r) n) scope right fun σ₂ s' =>
        σ.Le σ₂ ∧ σ₂.Answers s head p ∧ σ₂.Answers s' tail q)
    (hpost : ∀ σ' s, σ.Le σ' → σ'.Answers s (.pair r) (.pair p q) → post σ' s) :
    σ.Evals (expanderNames refs (.pair r) n) scope (.combining left right) post := by
  refine Evals.call hplain rfl rfl (h.imp fun σ₁ s hle₁ h₁ => h₁.imp fun σ₂ s' hle₂ h₂ => ?_)
  obtain ⟨hle, hleft, hright⟩ := h₂
  refine Evals.looks rfl ?_
  exact Calls.combine (hrefs.mono hle) (hle.cells _ _ hr) hleft.expansion hright.expansion
    hleft.number hright.number fun σ' t hle' ht => hpost σ' t (hle.trans hle') ⟨ht, nofun, nofun⟩

/-- A mark is a constant. -/
theorem Evals.mark {mark : String} (hplain : (Datum.name mark).isName "and" = false)
    (hpost : ∀ s, σ.Answers s (.symbol ⟨mark⟩) (.atom (.symbol ⟨mark⟩)) → post σ s) :
    σ.Evals (expanderNames refs exp n) scope (.form "quote" [.quoted mark]) post := by
  refine Evals.quotation rfl fun x hx => hpost x ⟨?_, nofun, nofun⟩
  obtain ⟨r, rest, rfl, hr, hrest⟩ := Code.form rfl hx
  obtain ⟨r', ⟨_, _⟩, rfl, hr', hmark, hnil⟩ :=
    Code.pair (Datum.isConjunction_eq_false hplain) hrest
  cases hmark
  cases hnil
  exact expansion_of_quoted (.cons hr (.cons hr' .nil)) (.atom _)

/-- What can be told of an expression in a template. -/
theorem legible_of_spares {e : Value} (h : Template.Spares σ.Still σ.Cell e) :
    Legible σ.Cell σ.Still e := by
  cases e with
  | pair x =>
      obtain ⟨⟨head, rest⟩, hx, hlist, hquote⟩ := h x rfl
      refine .form hx hlist fun hhead => ?_
      obtain ⟨hform, hoperand⟩ := hquote hhead
      obtain rfl : head = .symbol .quote := hhead
      cases rest with
      | pair y =>
          obtain ⟨⟨v, _⟩, hy⟩ := hoperand y rfl
          exact ⟨v, .quotation hform hy⟩
      | _ => exact ⟨_, .bare hform rfl⟩
  | _ => exact .atom rfl

/-- A form has its operand in the second place. -/
theorem Shows.operand {mark : Symbol} (hr : σ.Still r ⟨head, tail⟩) (hfirst : σ.Shows head first)
    (hrest : σ.Shows tail rest) (hmarked : Template.isMarked mark first rest = true) :
    head = .symbol mark ∧ σ.heap.first (σ.heap.rest (.pair r)) = rest.head := by
  have hsymbol := Template.isSymbol_of_isMarked hmarked
  rw [hfirst.isSymbol_eq, decide_eq_true_eq] at hsymbol
  unfold Template.isMarked at hmarked
  split at hmarked
  · obtain ⟨r', tail', rfl, hr', -⟩ := hrest
    refine ⟨hsymbol, ?_⟩
    rw [hr.rest_eq, hr'.first_eq]
    rfl
  · cases hmarked

theorem Shows.secondOfFirst {mark : Symbol} (hr : σ.Still r ⟨head, tail⟩)
    (hfirst : σ.Shows head first) (hform : first.isForm mark = true) :
    σ.heap.first (σ.heap.rest (σ.heap.first (.pair r))) = first.operand := by
  cases first with
  | pair head' first' rest' =>
      obtain ⟨r', tail', rfl, hr', hfirst', hrest'⟩ := hfirst
      rw [hr.first_eq]
      exact (Shows.operand hr' hfirst' hrest' hform).2
  | _ => cases hform

/-- Whether this is the outermost template. -/
theorem Evals.outermost {yes no : Datum} (hplain : Datum.arePlain [.isOutermost, yes, no] = true)
    (hn : n < 2 ^ 53)
    (h : σ.Evals (expanderNames refs exp n) scope (if n = 0 then yes else no) post) :
    σ.Evals (expanderNames refs exp n) scope (.form "if" [.isOutermost, yes, no]) post := by
  refine Evals.branch hplain (Evals.looks rfl ?_)
  change σ.Evals _ _ (if (Value.boolean (Float.ofNat n == Float.ofNat 0)).isTrue then _ else _) _
  rw [Number.ofNat_beq_ofNat hn (by decide)]
  by_cases hzero : n = 0
  · simpa [hzero, Value.isTrue] using h
  · simpa [hzero, Value.isTrue] using h

theorem levelBelow_eq {h : Heap} (hn : n + 1 < 2 ^ 53) :
    Datum.levelBelow.value? (expanderNames refs exp (n + 1)) h = some (.number (.ofNat n)) := by
  change some (Value.number (.map₂ (· - ·) (.ofNat (n + 1)) (.ofNat 1))) = _
  rw [Flonum.sub_one hn]

theorem levelAbove_eq {h : Heap} (hn : n + 1 < 2 ^ 53) :
    Datum.levelAbove.value? (expanderNames refs exp n) h = some (.number (.ofNat (n + 1))) := by
  change some (Value.number (.map₂ (· + ·) (.map₂ (· + ·) (.float (-0.0)) (.ofNat n)) (.ofNat 1))) =
    _
  rw [Flonum.add_one hn]

/-! ## Expressions by role -/

/-- The pair is treated by its role, given answers for its parts. -/
theorem Evals.pairOfRole (hrefs : σ.Expander refs) (hfirst : Expandable refs first)
    (hrest : Expandable refs rest) (hv : σ.Reads (.pair r) (.pair head first rest) n)
    (hproper : (Template.pair head first rest).isWellFormed = true)
    (hsize : n + (Template.pair head first rest).size < 2 ^ 53)
    (hpost : ∀ σ' s, σ.Le σ' →
      σ'.Answers s (.pair r) ((Template.pair head first rest).plan n) → post σ' s) :
    σ.Evals (expanderNames refs (.pair r) n) scope (Datum.roleText (Template.role first rest))
      post := by
  obtain ⟨-, hproper₁, hproper₂⟩ := Template.isWellFormed_pair hproper
  simp only [Template.size] at hsize
  obtain ⟨_, tail, heq, hr, hv⟩ := hv
  cases heq
  have hcar : (Datum.form "car" [.name "exp"]).value? (expanderNames refs (.pair r) n) σ.heap =
      some head := congrArg some hr.first_eq
  have hcdr : ∀ σ', σ.Le σ' →
      (Datum.form "cdr" [.name "exp"]).value? (expanderNames refs (.pair r) n) σ'.heap =
        some tail := fun σ' hle => congrArg some (hle.stills _ _ hr).rest_eq
  cases hrole : Template.role first rest with
  | unquoted =>
      have hmarked := Template.isMarked_of_unquoted hrole
      refine Evals.outermost rfl (by omega) ?_
      cases n with
      | zero =>
          simp only [Template.plan, hrole] at hv hpost
          obtain ⟨-, hoperand⟩ := Shows.operand hr hv.1 hv.2.1 hmarked
          refine Evals.looks rfl ?_
          change post σ (σ.heap.first (σ.heap.rest (.pair r)))
          rw [hoperand]
          exact hpost σ _ (.refl σ)
            ⟨⟨.hole _, .hole (legible_of_spares hv.2.2), .hole _⟩, by simp, fun _ => Plan.hole.inj⟩
      | succ n =>
          simp only [Template.plan, hrole] at hv hpost
          obtain ⟨rfl, -⟩ := Shows.operand hr hv.2.1 hv.2.2.holds hmarked
          refine Evals.combining hrefs hv.1 rfl (Evals.mark rfl fun s hs => ?_) hpost
          exact Evals.expanding hrest hrefs hv.2.2 hproper₂ (by omega) rfl (hcdr σ (.refl σ))
            (levelBelow_eq (by omega)) fun σ' s' hle hs' => ⟨hle, hs.mono hle, hs'⟩
  | nested =>
      simp only [Template.plan, hrole] at hv hpost
      obtain ⟨rfl, -⟩ := Shows.operand hr hv.2.1 hv.2.2.holds (Template.isMarked_of_nested hrole)
      refine Evals.combining hrefs hv.1 rfl (Evals.mark rfl fun s hs => ?_) hpost
      exact Evals.expanding hrest hrefs hv.2.2 hproper₂ (by omega) rfl (hcdr σ (.refl σ))
        (levelAbove_eq (by omega)) fun σ' s' hle hs' => ⟨hle, hs.mono hle, hs'⟩
  | spliced =>
      refine Evals.outermost rfl (by omega) ?_
      cases n with
      | zero =>
          simp only [Template.plan, hrole] at hv hpost
          have hsecond := Shows.secondOfFirst hr hv.1 (Template.isForm_of_spliced hrole)
          refine Evals.call rfl rfl rfl (Evals.looks rfl (Evals.looks (congrArg some hsecond) ?_))
          refine Evals.expanding hrest hrefs hv.2 hproper₂ (by omega) rfl (hcdr σ (.refl σ)) rfl
            fun σ₁ s hle₁ hs => Calls.list fun σ₂ v hle₂ hitems => ?_
          obtain ⟨part, hskeleton, hcovers⟩ := (hs.mono hle₂).expansion
          cases hitems with
          | cons hx hitems =>
              exact hpost σ₂ _ (hle₁.trans hle₂)
                ⟨⟨_, .append (.cons hx hitems) hskeleton, .splice _ hcovers⟩, by simp, by simp⟩
      | succ n =>
          simp only [Template.plan, hrole] at hv hpost
          refine Evals.combining hrefs hv.1 rfl ?_ hpost
          refine Evals.expanding hfirst hrefs hv.2.1 hproper₁ (by omega) rfl hcar
            (levelBelow_eq (by omega)) fun σ' s hle hs => ?_
          exact Evals.expanding hrest (hrefs.mono hle) (Reads.mono hle hv.2.2) hproper₂ (by omega)
            rfl (hcdr σ' hle) rfl fun σ'' s' hle' hs' => ⟨hle.trans hle', hs.mono hle', hs'⟩
  | plain =>
      simp only [Template.plan, hrole] at hv hpost
      refine Evals.combining hrefs hv.1 rfl ?_ hpost
      refine Evals.expanding hfirst hrefs hv.2.1 hproper₁ (by omega) rfl hcar rfl
        fun σ' s hle hs => ?_
      exact Evals.expanding hrest (hrefs.mono hle) (Reads.mono hle hv.2.2) hproper₂ (by omega)
        rfl (hcdr σ' hle) rfl fun σ'' s' hle' hs' => ⟨hle.trans hle', hs.mono hle', hs'⟩

/-- The elements of a vector are listed. -/
theorem Calls.vectorToList {x : Ref .vector} {vs : Array Value} (hx : σ.Row x vs)
    (h : ∀ σ' l, σ.Le σ' → Items σ'.Cell l vs.toList → post σ' l) :
    σ.Calls (.primitive .vectorToList) [.vector x] post := by
  obtain ⟨σ', hworld, hle, hitems⟩ := σ.exists_list vs.toList
  refine ⟨σ', _, ?_, hle, h σ' _ hle hitems⟩
  rw [hworld]
  refine .direct (Primitive.checkCount_eq rfl _) rfl ?_
  have hvector : σ.world.heap.vector x = vs := Heap.vector_eq_of_getElem? hx
  change Result.value (σ.world.heap.list (σ.world.heap.vector x).toList).1
    { σ.world with heap := (σ.world.heap.list (σ.world.heap.vector x).toList).2 } = _
  rw [hvector]
  rfl

/-- The expander answers for every template. -/
theorem expandable (t : Template) : Expandable refs t := by
  induction t with
  | atom a =>
      intro n σ v post hrefs hv hproper hsize hpost
      refine Calls.closure hrefs.expand rfl (by decide) (by decide) fun σ₁ scope hle₁ => ?_
      obtain ⟨rfl, hatom, hvector⟩ := hv
      have hpair : v.isOf .pair = false := by
        cases v <;> first | rfl | cases hatom
      refine Evals.cond rfl (Evals.looks rfl ?_)
      rw [hvector]
      refine Evals.looks rfl ?_
      rw [hpair]
      intro σ₂ hle₂
      have hle := hle₁.trans hle₂
      refine Evals.branch rfl (Evals.call rfl rfl rfl (Evals.looks rfl ?_))
      cases hsymbol : v.isOf .symbol with
      | true =>
          refine Calls.constant (hrefs.mono hle) (b := false) (fun σ' _ => ?_) fun σ₃ hle₃ => ?_
          · cases v <;> first | rfl | cases hsymbol
          · refine Evals.call rfl rfl rfl (Evals.looks rfl (Evals.looks rfl (Calls.list ?_)))
            intro σ₄ s hle₄ hitems
            refine hpost σ₄ s ((hle.trans hle₃).trans hle₄)
              ⟨expansion_of_quoted hitems (.atom v), ?_, by simp [Template.plan]⟩
            rintro x rfl
            cases hsymbol
      | false =>
          have hself : v.isSelfEvaluating = true := by
            cases v with
            | symbol => cases hsymbol
            | pair => cases hatom
            | _ => rfl
          refine Calls.constant (hrefs.mono hle) (b := true) (fun σ' _ => ?_) fun σ₃ hle₃ => ?_
          · cases v <;> first | rfl | cases hself
          · refine Evals.looks rfl (hpost σ₃ v (hle.trans hle₃)
              ⟨?_, fun _ _ => rfl, by simp [Template.plan]⟩)
            exact ⟨.constant v, .self hself, .constant (.atom v)⟩
  | vector elements ih =>
      intro n σ v post hrefs hv hproper hsize hpost
      refine Calls.closure hrefs.expand rfl (by decide) (by decide) fun σ₁ scope hle₁ => ?_
      obtain ⟨x, vs, rfl, hx, hall⟩ := hv
      refine Evals.cond rfl (Evals.looks rfl fun σ₂ hle₂ => ?_)
      have hle := hle₁.trans hle₂
      simp only [Template.isWellFormed, Bool.and_eq_true, Bool.not_eq_true'] at hproper
      simp only [Template.size] at hsize
      refine Evals.call rfl rfl rfl (Evals.looks rfl (Evals.looks rfl (Evals.call rfl rfl rfl
        (Evals.call rfl rfl rfl (Evals.looks rfl (Calls.vectorToList (hle.vectors _ _ hx) ?_))))))
      intro σ₃ l hle₃ hitems
      have hle' := hle.trans hle₃
      have hl : σ₃.Reads l elements n :=
        (hall.mono hle'.cells hle'.stills fun r => hle'.vectors r.index).reads
          (fun _ _ => Cell.still) hproper.1.2 hitems
      refine Evals.looks rfl (ih n σ₃ l _ (hrefs.mono hle') hl hproper.2 (by omega) ?_)
      intro σ₄ s hle₄ hs
      refine Calls.list fun σ₅ v hle₅ hitems => ?_
      obtain ⟨part, hskeleton, hcovers⟩ := (hs.mono hle₅).expansion
      cases hitems with
      | cons hr hitems =>
          exact hpost σ₅ _ ((hle'.trans hle₄).trans hle₅)
            ⟨⟨_, .vector (.cons hr hitems) hskeleton, .vector hcovers⟩, by simp,
              by simp [Template.plan]⟩
  | pair head first rest ihfirst ihrest =>
      intro n σ v post hrefs hv hproper hsize hpost
      refine Calls.closure hrefs.expand rfl (by decide) (by decide) fun σ₁ scope hle₁ => ?_
      have hv₁ := Reads.mono hle₁ hv
      obtain ⟨r, tail, rfl, hr, hfirst, hrest⟩ := hv₁.holds
      refine Evals.byRole hr hfirst hrest hproper (by omega) fun σ₂ hle₂ => ?_
      have hle := hle₁.trans hle₂
      exact Evals.pairOfRole (hrefs.mono hle) ihfirst ihrest (Reads.mono hle hv) hproper hsize
        fun σ' s hle' hs => hpost σ' s (hle.trans hle') hs

end

end Moment

end Scheme
