import Scheme.Proofs.PreludeCode
import Scheme.Proofs.TemplateValues
/-!
# Quasiquotation

Where the code of the prelude is as it was and no scope hides the names it needs, a template has the
value that it denotes.
-/

namespace Scheme

open Evaluator

/-- The names that a template and its expansion are evaluated with. -/
def Template.names : List Symbol :=
  .quasiquote :: Primitive.builders.map fun p => ⟨p.name⟩

namespace Moment

variable {σ σ' : Moment} {h : Heap}

/-- Evaluating a template leaves the code of the prelude as it needs to be. -/
theorem Continues.changes (hσ : σ.Continues h) (hchanges : σ.Changes σ') : σ'.Continues h where
  cells r p hin hp hplain := hchanges.cells r p (hσ.cells r p hin hp hplain)
  conjunctions r p xs hin hp hconjunction hlists :=
    hchanges.conjunctions _ _ (hσ.conjunctions r p xs hin hp hconjunction hlists)
  closures i c hc := hchanges.closures i c (hσ.closures i c hc)
  names name owner v hv :=
    Heap.locateWithin_mono hchanges.scopes (Nat.le_refl _) (hσ.names name owner v hv)

theorem Continues.template_yields (hσ : σ.Continues World.prelude) {scope : Ref .scope}
    (hscope : ∀ name ∈ Template.names, σ.heap.locate? name scope = σ.heap.locate? name .global)
    {site : Ref .pair} {t : Template} (ht : σ.Quasiquotes site t) (hproper : t.isWellFormed = true)
    (hsize : t.size < 2 ^ 53) :
    ∃ σ₁, σ.Changes σ₁ ∧
      (∀ e, t.plan 0 = .hole (.pair e) → σ₁.heap.pair site = σ.heap.pair e) ∧
      ∀ post, ((t.plan 0).inPlace site).Builds scope σ₁.known σ₁.world post →
        ∃ v w', Yields (.pair site) scope σ.world v w' ∧ post v w' := by
  have hname : σ.heap.locate? .quasiquote scope = some (.global, .transformer ⟨2⟩) :=
    (hscope _ (List.mem_cons_self ..)).trans (hσ.locate?_eq (List.mem_cons_self ..))
  have hbuilders : σ.world.HasBuilders scope := hσ.hasBuilders fun p hp =>
    hscope _ (List.mem_cons_of_mem _ (List.mem_map_of_mem hp))
  exact ht.yields hσ.isTransformer hname hbuilders hproper hsize

/-- The value of a template is what it denotes, unless the limit of nesting stops its evaluation. A
limit that is high enough does not. -/
theorem value_of_template (hσ : σ.Continues World.prelude) {scope : Ref .scope}
    (hscope : ∀ name ∈ Template.names, σ.heap.locate? name scope = σ.heap.locate? name .global)
    {site : Ref .pair} {t : Template} (ht : σ.Quasiquotes site t) (hproper : t.isWellFormed = true)
    (hsize : t.size < 2 ^ 53) :
    ∃ σ₁, σ.Changes σ₁ ∧ σ₁.Continues World.prelude ∧
      (∀ e, t.plan 0 = .hole (.pair e) → σ₁.heap.pair site = σ.heap.pair e) ∧
      ∀ post, ((t.plan 0).inPlace site).Builds scope σ₁.known σ₁.world post →
        ∃ v w', post v w' ∧ ∃ enough, ∀ m,
          m < enough ∧
            (Step.go (.eval (.pair site) scope) [] (σ.world.underLimit m)).Deepens ∨
          (Step.go (.eval (.pair site) scope) [] (σ.world.underLimit m)).Ends (.value v)
            (w'.onLevel σ.world.depth m) := by
  obtain ⟨σ₁, hchanges, hplace, hbuilds⟩ := hσ.template_yields hscope ht hproper hsize
  refine ⟨σ₁, hchanges, hσ.changes hchanges, hplace, fun post hpost => ?_⟩
  obtain ⟨v, w', hyields, hv⟩ := hbuilds post hpost
  exact ⟨v, w', hv, hyields.ends⟩

end Moment

/-! ## Templates in a new interpreter -/

namespace Heap

theorem size_le_of_build {h : Heap} {d : Datum} {r : Ref .pair} (hr : (h.build d).1 = .pair r) :
    h.pairs.size ≤ r.index := by
  cases d with
  | pair first rest =>
      cases hr
      have hfirst := pairCount_le_size h first
      have hrest := pairCount_le_size (h.build first).2 rest
      change _ ≤ ((h.build first).2.build rest).2.pairs.size
      omega
  | _ => cases hr

end Heap

namespace World

/-- All code that expands conjunctions and templates can be evaluated as such. -/
theorem exists_code_prelude {r : Ref .pair} (hr : prelude.InExpanders r) :
    ∃ d, prelude.Denotes (.pair r) d ∧ (d.isCode = true ∨ d.areOperands = true) := by
  rcases hr with ⟨owner, c, hname, hwithin⟩ | ⟨owner, c, hname, hwithin⟩
  · obtain ⟨body, name, hclosure, hbody⟩ := closure_conjunction
    cases hname.symm.trans (locate?_prelude (v := .transformer ⟨1⟩) (by decide))
    rw [Heap.closure, hclosure] at hwithin
    exact hwithin.exists_code hbody (Or.inl isCode_conjunctionText)
  · obtain ⟨body, name, hclosure, hbody⟩ := closure_quasiquote
    cases hname.symm.trans (locate?_prelude (v := .transformer ⟨2⟩) (by decide))
    rw [Heap.closure, hclosure] at hwithin
    exact hwithin.exists_code hbody (Or.inl isCode_transformerText)

end World

namespace Moment

/-- A new interpreter that has read a form which is to be replaced. -/
def fresh (host : Host) (d : Datum) : Moment where
  world := { World.new host with heap := (World.prelude.build d).2 }
  known r := r.index < (World.prelude.build d).2.pairs.size ∧
    ¬ ((World.prelude.build d).1 = .pair r ∨
      ∃ p, World.prelude.pairs[r.index]? = some p ∧ p.isConjunction = true)
  sites r := r.index < (World.prelude.build d).2.pairs.size ∧
    ((World.prelude.build d).1 = .pair r ∨
      ∃ p, World.prelude.pairs[r.index]? = some p ∧ p.isConjunction = true)
  apart _ hsite hknown := hknown.2 hsite.2
  bounds _ hr := hr.elim And.left And.left

variable {host : Host} {d : Datum} {r : Ref .pair} {p : Pair}

theorem getElem?_fresh (host : Host) (d : Datum) (hp : World.prelude.pairs[r.index]? = some p) :
    (fresh host d).heap.pairs[r.index]? = some p :=
  (World.prelude.extends_build d).pairs _ _ hp

theorem cell_fresh (hp : (fresh host d).heap.pairs[r.index]? = some p)
    (hplain : p.isConjunction = false) (hr : (World.prelude.build d).1 ≠ .pair r) :
    (fresh host d).Cell r p := by
  refine ⟨⟨(Array.getElem?_eq_some_iff.1 hp).1, ?_⟩, hp⟩
  rintro (hr' | ⟨q, hq, hconjunction⟩)
  · exact hr hr'
  · cases Option.some.inj (hp.symm.trans (getElem?_fresh host d hq))
    rw [hplain] at hconjunction
    cases hconjunction

theorem cell_fresh_of_prelude (hp : World.prelude.pairs[r.index]? = some p)
    (hplain : p.isConjunction = false) : (fresh host d).Cell r p := by
  refine cell_fresh (getElem?_fresh host d hp) hplain fun hr => ?_
  have hlt := (Array.getElem?_eq_some_iff.1 hp).1
  have hle := Heap.size_le_of_build hr
  omega

theorem continues_fresh (host : Host) (d : Datum) : (fresh host d).Continues World.prelude where
  cells r p _ hp hplain := cell_fresh_of_prelude hp hplain
  conjunctions r p xs hin hp hconjunction hlists := by
    obtain ⟨d', hd', hcode⟩ := World.exists_code_prelude hin
    obtain ⟨first, rest, q, rfl, hq, hfirst, hrest⟩ := hd'.exists_pair
    cases Option.some.inj (hp.symm.trans hq)
    have hform := (hfirst.isConjunction_eq hrest).symm.trans hconjunction
    have hoperands : rest.areOperands = true := by
      simpa [Datum.isCode, Datum.areOperands, hform] using hcode
    have hcells : ∀ r' p', World.prelude.pairs[r'.index]? = some p' ∧ p'.isConjunction = false →
        (fresh host d).Cell r' p' := fun _ _ hr' => cell_fresh_of_prelude hr'.1 hr'.2
    have hold := getElem?_fresh host d hp
    have hsite : (fresh host d).sites r :=
      ⟨(Array.getElem?_eq_some_iff.1 hold).1, Or.inr ⟨p, hp, hconjunction⟩⟩
    have hhead : p.first = .symbol ⟨"and"⟩ := by
      simp only [Pair.isConjunction, Bool.and_eq_true, decide_eq_true_eq] at hconjunction
      exact hconjunction.1
    obtain ⟨_, b⟩ := p
    obtain rfl := hhead
    exact .site ⟨hsite, hold⟩ ((hrest.operands hoperands hlists).mono hcells)
  closures i c hc := by
    change (World.prelude.build d).2.closures[i]? = some c
    rwa [(World.prelude.scopes_build d).2]
  names name owner v hv := by
    refine Heap.locateWithin_mono (fun i s hs => ?_) (Nat.le_refl _) hv
    change (World.prelude.build d).2.scopes[i]? = some s
    rwa [(World.prelude.scopes_build d).1]

/-- All pairs are known that are neither conjunctions nor templates. -/
def KnowsPlain (σ : Moment) : Prop :=
  ∀ r p, σ.heap.pairs[r.index]? = some p → p.isConjunction = false →
    p.first ≠ .symbol .quasiquote → σ.Cell r p

/-- The form of a template in a new interpreter. -/
theorem exists_form_fresh (host : Host) (d : Datum) :
    (fresh host (.form "quasiquote" [d])).KnowsPlain ∧ ∃ site operand x,
      (World.prelude.build (.form "quasiquote" [d])).1 = .pair site ∧
      (fresh host (.form "quasiquote" [d])).sites site ∧
      (fresh host (.form "quasiquote" [d])).heap.pairs[site.index]? =
        some ⟨.symbol .quasiquote, .pair operand⟩ ∧
      (fresh host (.form "quasiquote" [d])).heap.pairs[operand.index]? = some ⟨x, .nil⟩ ∧
      (fresh host (.form "quasiquote" [d])).heap.Denotes x d := by
  have hdenotes := World.prelude.denotes_build (.form "quasiquote" [d])
  obtain ⟨site, ⟨_, _⟩, hsite, hform, hhead, operand, ⟨x, _⟩, rfl, hoperand, hx, hnil⟩ := hdenotes
  cases hhead
  cases hnil
  refine ⟨fun r p hp hplain hhead => cell_fresh hp hplain fun hr => ?_, site, operand, x, hsite,
    ⟨(Array.getElem?_eq_some_iff.1 hform).1, Or.inl hsite⟩, hform, hoperand, hx⟩
  cases hsite.symm.trans hr
  cases Option.some.inj (hform.symm.trans hp)
  exact hhead rfl

end Moment

namespace Template

/-- The template of a list of names. -/
def ofNames : List String → Template
  | [] => .atom .nil
  | name :: names => .pair (.symbol ⟨name⟩) (.atom (.symbol ⟨name⟩)) (ofNames names)

theorem holds_ofNames {still : Ref .pair → Pair → Prop} {row : Ref .vector → Array Value → Prop}
    {names : List String} {v : Value} (h : Items still v (names.map fun name => .symbol ⟨name⟩)) :
    (ofNames names).Holds still row v := by
  induction names generalizing v with
  | nil =>
      cases h
      exact ⟨rfl, rfl, rfl⟩
  | cons name names ih =>
      cases h with
      | @cons r _ rest _ hcell hrest => exact ⟨r, rest, rfl, hcell, ⟨rfl, rfl, rfl⟩, ih hrest⟩

end Template

namespace Moment

variable {σ : Moment} {v : Value}

theorem KnowsPlain.items (hσ : σ.KnowsPlain) (names : List String) (hand : "and" ∉ names)
    (hquasiquote : "quasiquote" ∉ names) (hv : σ.heap.Denotes v (.list (names.map Datum.name))) :
    Items σ.Cell v (names.map fun name => .symbol ⟨name⟩) := by
  induction names generalizing v with
  | nil =>
      cases hv
      exact .nil
  | cons name names ih =>
      rw [List.mem_cons, not_or] at hand hquasiquote
      obtain ⟨r, ⟨_, rest⟩, rfl, hr, hname, hrest⟩ := hv
      cases hname
      refine .cons (hσ r _ hr ?_ ?_) (ih hand.2 hquasiquote.2 hrest)
      · simp [Pair.isConjunction, Ne.symm hand.1]
      · simpa [Symbol.quasiquote] using Ne.symm hquasiquote.1

/-- The value of a name is asked for. -/
theorem reads_name {name : String}
    (hv : Items σ.Cell v (["unquote", name].map fun name => .symbol ⟨name⟩)) :
    σ.Reads v (.ofNames ["unquote", name]) 0 := by
  have hstill : Items σ.Still v (["unquote", name].map fun name => .symbol ⟨name⟩) :=
    hv.mono fun _ _ => Cell.still
  have hholds : (Template.ofNames ["unquote", name]).Holds σ.Still σ.Row v :=
    Template.holds_ofNames hstill
  obtain ⟨r, tail, rfl, hr, hmark, hrest⟩ := hholds
  exact ⟨r, tail, rfl, hr, hmark, hrest, nofun⟩

/-- The template of a pair of the values of two names. -/
def pairText : Datum :=
  .pair (.form "unquote" [.name "car"]) (.form "unquote" [.name "cdr"])

theorem KnowsPlain.reads_pairText (hσ : σ.KnowsPlain) (hv : σ.heap.Denotes v pairText) :
    ∃ head, σ.Reads v
      (.pair head (.ofNames ["unquote", "car"]) (.ofNames ["unquote", "cdr"])) 0 := by
  obtain ⟨r, ⟨head, tail⟩, rfl, hr, hhead, htail⟩ := hv
  have hfirst := hσ.items ["unquote", "car"] (by decide) (by decide) hhead
  have hrest := hσ.items ["unquote", "cdr"] (by decide) (by decide) htail
  have hcell : σ.Cell r ⟨head, tail⟩ := by
    cases hfirst
    exact hσ r _ hr rfl nofun
  exact ⟨head, r, tail, rfl, hcell.still, hcell, reads_name hfirst, reads_name hrest⟩

theorem value_of_template_pair :
    ∃ r, ∃ w' : World, w'.heap.pair r = ⟨.primitive .car, .primitive .cdr⟩ ∧ ∃ enough, ∀ m,
      m < enough ∧
        (Step.go (.eval (World.prelude.build (.form "quasiquote" [pairText])).1 .global) []
          ((fresh World.nowhere (.form "quasiquote" [pairText])).world.underLimit m)).Deepens ∨
      (Step.go (.eval (World.prelude.build (.form "quasiquote" [pairText])).1 .global) []
        ((fresh World.nowhere (.form "quasiquote" [pairText])).world.underLimit m)).Ends
          (.value (.pair r)) (w'.onLevel 0 m) := by
  have hcontinues := continues_fresh World.nowhere (.form "quasiquote" [pairText])
  obtain ⟨hknows, site, operand, x, hbuilt, hsite, hform, hoperand, hx⟩ :=
    exists_form_fresh World.nowhere pairText
  obtain ⟨head, hreads⟩ := hknows.reads_pairText hx
  obtain ⟨σ₁, -, hcontinues₁, -, hvalue⟩ := value_of_template hcontinues (fun _ _ => rfl)
    ⟨hsite, operand, x, hform, hoperand, hreads⟩ rfl (show 5 < 2 ^ 53 by decide)
  have hkeeps : σ₁.world.Keeps σ₁.known .global σ₁.world :=
    .refl (hcontinues₁.hasBuilders fun _ _ => rfl)
  have hcar : σ₁.heap.locate? ⟨"car"⟩ .global = some (.global, .primitive .car) :=
    hcontinues₁.locate?_eq (by decide)
  have hcdr : σ₁.heap.locate? ⟨"cdr"⟩ .global = some (.global, .primitive .cdr) :=
    hcontinues₁.locate?_eq (by decide)
  obtain ⟨_, w', ⟨r, rfl, hr⟩, hends⟩ := hvalue
    (fun v w' => ∃ r, v = .pair r ∧ w'.heap.pair r = ⟨.primitive .car, .primitive .cdr⟩)
    ⟨_, _, .variable hcar, hkeeps, _, _, .variable hcdr, hkeeps, fun r w' _ hr =>
      ⟨r, rfl, Heap.pair_eq_of_getElem? hr⟩⟩
  rw [hbuilt]
  exact ⟨r, w', hr, hends⟩

/-! ## Expressions that change the names of the builders -/

theorem not_quotes_name (name : Symbol) (v : Value) : ¬Quotes σ.Cell (.symbol name) v := by
  intro h
  cases h with
  | self hself => cases hself

theorem not_quotes_form {r : Ref .pair} {p : Pair} (hp : σ.heap.pairs[r.index]? = some p)
    (hhead : p.first ≠ .symbol .quote) (v : Value) : ¬Quotes σ.Cell (.pair r) v := by
  intro h
  cases h with
  | self hself => cases hself
  | quotation hform | bare hform =>
      cases Option.some.inj (hp.symm.trans hform.2)
      exact hhead rfl

section

variable {s a b : Value} {q : Plan} {name : Symbol}

/-- An expression that is no constant expands to itself. -/
theorem Expansion.eq_of_hole (h : σ.Expansion s (.hole a)) (ha : ∀ v, ¬Quotes σ.Cell a v) :
    s = a := by
  obtain ⟨part, hskeleton, hcovers⟩ := h
  cases hcovers with
  | constant hstands =>
      cases hstands with
      | hole hquotes => exact absurd hquotes (ha _)
  | hole =>
      cases hskeleton
      rfl

/-- An expression for a pair that begins with a value that is asked for is a call of `cons`, unless
the rest is a constant or a call of `list`. -/
theorem Expansion.of_pair (h : σ.Expansion s (.pair (.hole a) q)) (ha : ∀ v, ¬Quotes σ.Cell a v) :
    ∃ t, σ.Expansion t q ∧ (Items σ.Cell s [.symbol ⟨"cons"⟩, a, t] ∨ t = .nil ∨
      ∃ x rest, t = .pair x ∧ σ.Cell x ⟨.symbol ⟨"list"⟩, rest⟩) := by
  obtain ⟨part, hskeleton, hcovers⟩ := h
  cases hcovers with
  | constant hstands =>
      cases hstands with
      | pair _ hfirst =>
          cases hfirst with
          | hole hquotes => exact absurd hquotes (ha _)
  | pair hp hq =>
      cases hskeleton with
      | single _ _ hnil => exact ⟨.nil, ⟨_, hnil, hq⟩, Or.inr (Or.inl rfl)⟩
      | merged _ _ _ hlist hx => exact ⟨_, ⟨_, hx, hq⟩, Or.inr (Or.inr ⟨_, _, rfl, hlist⟩)⟩
      | cons hitems hs ht =>
          have heq := eq_of_hole ⟨_, hs, hp⟩ ha
          exact ⟨_, ⟨_, ht, hq⟩, Or.inl (heq ▸ hitems)⟩

/-- A pair of two values that are asked for is made by `cons`. -/
theorem Expansion.items_of_tail (h : σ.Expansion s (.pair (.hole a) (.hole (.symbol name))))
    (ha : ∀ v, ¬Quotes σ.Cell a v) : Items σ.Cell s [.symbol ⟨"cons"⟩, a, .symbol name] := by
  obtain ⟨t, ht, hcases⟩ := h.of_pair ha
  obtain rfl := ht.eq_of_hole (not_quotes_name name)
  rcases hcases with hitems | hnil | ⟨x, rest, hpair, -⟩
  · exact hitems
  · cases hnil
  · cases hpair

theorem Expansion.items_of_pairs
    (h : σ.Expansion s (.pair (.hole a) (.pair (.hole b) (.hole (.symbol name)))))
    (ha : ∀ v, ¬Quotes σ.Cell a v) (hb : ∀ v, ¬Quotes σ.Cell b v) :
    ∃ t, Items σ.Cell s [.symbol ⟨"cons"⟩, a, t] ∧
      Items σ.Cell t [.symbol ⟨"cons"⟩, b, .symbol name] := by
  obtain ⟨t, ht, hcases⟩ := h.of_pair ha
  have hrest := ht.items_of_tail hb
  rcases hcases with hitems | rfl | ⟨x, rest, rfl, hlist⟩
  · exact ⟨t, hitems, hrest⟩
  · cases hrest
  · cases hrest with
    | cons hcell =>
        have heq := Option.some.inj (hcell.2.symm.trans hlist.2)
        simp at heq

end

/-- The template of `pairText` after a value of which the evaluation changes what `cons` is. -/
def rebindingText : Datum :=
  .pair (.form "unquote" [.form "set!" [.name "cons", .name "list"]]) pairText

theorem KnowsPlain.reads_rebindingText (hσ : σ.KnowsPlain) (hv : σ.heap.Denotes v rebindingText) :
    ∃ t : Template, σ.Reads v t 0 ∧ t.isWellFormed = true ∧ t.size < 2 ^ 53 ∧ ∃ e,
      Items σ.Cell (.pair e) (["set!", "cons", "list"].map fun name => .symbol ⟨name⟩) ∧
      t.plan 0 = .pair (.hole (.pair e)) (.pair (.hole (.symbol ⟨"car"⟩))
        (.hole (.symbol ⟨"cdr"⟩))) := by
  obtain ⟨r, ⟨head, tail⟩, rfl, hr, ⟨r₁, ⟨_, _⟩, rfl, hr₁, hmark, r₂, ⟨e, _⟩, rfl, hr₂, he, hnil⟩,
    htail⟩ := hv
  cases hmark
  cases hnil
  obtain ⟨head', hrest⟩ := hσ.reads_pairText htail
  have hitems := hσ.items ["set!", "cons", "list"] (by decide) (by decide) he
  have hcell₁ : σ.Cell r₁ ⟨.symbol .unquote, .pair r₂⟩ := hσ r₁ _ hr₁ rfl
    (by simp [Symbol.unquote, Symbol.quasiquote])
  cases hitems with
  | @cons x _ rest _ hx hothers =>
      have hcell₂ : σ.Cell r₂ ⟨.pair x, .nil⟩ := hσ r₂ _ hr₂ rfl nofun
      have hcell : σ.Cell r ⟨.pair r₁, tail⟩ := hσ r _ hr rfl nofun
      have hholds : (Template.ofNames ["set!", "cons", "list"]).Holds σ.Still σ.Row (.pair x) :=
        Template.holds_ofNames ((Items.cons hx hothers).mono fun _ _ => Cell.still)
      refine ⟨.pair (.pair r₁) (.pair (.symbol .unquote) (.atom (.symbol .unquote))
        (.pair (.pair x) (.ofNames ["set!", "cons", "list"]) (.atom .nil)))
        (.pair head' (.ofNames ["unquote", "car"]) (.ofNames ["unquote", "cdr"])), ?_, rfl,
        show 11 < 2 ^ 53 by decide, x, .cons hx hothers, rfl⟩
      refine ⟨r, tail, rfl, hcell.still, hcell, ⟨r₁, .pair r₂, rfl, hcell₁.still, ⟨rfl, rfl, rfl⟩,
        ⟨r₂, .nil, rfl, hcell₂.still, hholds, rfl, rfl, rfl⟩, ?_⟩, hrest⟩
      rintro r' hr'
      cases hr'
      exact ⟨_, hx.still, by simp, by simp [Symbol.quote]⟩

/-- An assignment of a global name. -/
theorem locate?_bind_global {h : Heap} {name other : Symbol} {v old : Value}
    (hold : h.locate? name .global = some (.global, old)) :
    (h.bind .global other v).locate? name .global =
      some (.global, if other = name then v else old) := by
  simp only [Heap.locate?, Ref.global, Heap.locateWithin, Heap.scope, Heap.bind] at hold ⊢
  cases hscope : h.scopes[0]? with
  | none => simp [hscope] at hold
  | some s =>
      have hbinding : s.bindings[name.name]? = some old := by
        cases hname : s.bindings[name.name]? with
        | none =>
            simp only [hscope, Option.getD_some, hname] at hold
            split at hold <;> cases hold
        | some v' => simpa [hscope, hname] using hold
      have hsame : other.name = name.name ↔ other = name := by
        obtain ⟨_⟩ := other
        obtain ⟨_⟩ := name
        simp
      by_cases heq : other = name <;>
        simp [Array.getElem?_modify, hscope, Std.TreeMap.getElem?_insert, hbinding, hsame, heq]

/-- After the change of the name, all pairs in the rest of the expansion are made by `list`. -/
theorem Continues.yields_rebinding (hσ : σ.Continues World.prelude) {s t : Value} {e : Ref .pair}
    (he : Items σ.Cell (.pair e) (["set!", "cons", "list"].map fun name => .symbol ⟨name⟩))
    (hs : Items σ.Cell s [.symbol ⟨"cons"⟩, .pair e, t])
    (ht : Items σ.Cell t [.symbol ⟨"cons"⟩, .symbol ⟨"car"⟩, .symbol ⟨"cdr"⟩]) :
    ∃ v w', Yields s .global σ.world v w' ∧
      w'.heap.Lists v [.primitive .list, .primitive .car, .primitive .cdr] := by
  have hlist : σ.heap.locate? ⟨"list"⟩ .global = some (.global, .primitive .list) :=
    hσ.locate?_eq (by decide)
  have hcons : σ.heap.locate? ⟨"cons"⟩ .global = some (.global, .primitive .cons) :=
    hσ.locate?_eq (by decide)
  have hcar : σ.heap.locate? ⟨"car"⟩ .global = some (.global, .primitive .car) :=
    hσ.locate?_eq (by decide)
  have hcdr : σ.heap.locate? ⟨"cdr"⟩ .global = some (.global, .primitive .cdr) :=
    hσ.locate?_eq (by decide)
  have hcells : σ.world.HasCells σ.Cell := fun _ _ hr => hr.2
  let w₁ : World :=
    { σ.world with heap := σ.heap.bind .global ⟨"cons"⟩ (.primitive .list) }
  have hcells₁ : w₁.HasCells σ.Cell := fun _ _ hr => hr.2
  have hset : Yields (.pair e) .global σ.world (.primitive .list) w₁ := by
    cases he with
    | cons hr hrest =>
      cases hrest with
      | cons hr' hrest' =>
        cases hrest' with
        | cons hr'' hnil =>
          refine .assignment (hcells.eq hr) (congrArg Pair.first (hcells.eq hr')) ?_ hcons
          rw [Heap.second, Heap.rest, hcells.eq hr', Heap.first, hcells.eq hr'']
          exact .variable hlist
  obtain ⟨r, rfl⟩ : ∃ r, s = .pair r := by
    cases hs
    exact ⟨_, rfl⟩
  obtain ⟨r', rfl⟩ : ∃ r, t = .pair r := by
    cases ht
    exact ⟨_, rfl⟩
  have hothers : Yields (.pair r') .global w₁ (w₁.heap.list [.primitive .car, .primitive .cdr]).1
      { w₁ with heap := (w₁.heap.list [.primitive .car, .primitive .cdr]).2 } :=
    ht.yields_two rfl (locate?_bind_global hcons) rfl hcells₁ hcells₁
      (.variable (locate?_bind_global hcar)) (.variable (locate?_bind_global hcdr))
      (.list _ w₁)
  refine ⟨_, _, hs.yields_two rfl hcons rfl hcells hcells₁ hset hothers
    (.direct (Primitive.checkCount_eq rfl _) rfl rfl), ?_⟩
  have hrest := Heap.Lists.listStar (h := w₁.heap) .nil [.primitive .car, .primitive .cdr]
  exact hrest.onto _

theorem Continues.yields_rebindingText (hσ : σ.Continues World.prelude) (hknows : σ.KnowsPlain)
    {site operand : Ref .pair} {x : Value} (hsite : σ.sites site)
    (hform : σ.heap.pairs[site.index]? = some ⟨.symbol .quasiquote, .pair operand⟩)
    (hoperand : σ.heap.pairs[operand.index]? = some ⟨x, .nil⟩)
    (hx : σ.heap.Denotes x rebindingText) :
    ∃ v w', Yields (.pair site) .global σ.world v w' ∧
      w'.heap.Lists v [.primitive .list, .primitive .car, .primitive .cdr] := by
  obtain ⟨t, hreads, hproper, hsize, e, he, hplan⟩ := hknows.reads_rebindingText hx
  have hname : σ.heap.locate? .quasiquote .global = some (.global, .transformer ⟨2⟩) :=
    hσ.locate?_eq (List.mem_cons_self ..)
  obtain ⟨σ₁, hchanges, -, hplace, hexpansion⟩ :=
    Quasiquotes.exists_expansion ⟨hsite, operand, x, hform, hoperand, hreads⟩
      hσ.isTransformer hname hproper hsize
  rw [hplan] at hexpansion
  obtain ⟨s, hs, hyields⟩ := hexpansion nofun
  have he₁ := he.mono hchanges.cells
  have hnot : ∀ v, ¬Quotes σ₁.Cell (.pair e) v := by
    cases he₁ with
    | cons hr => exact not_quotes_form hr.2 (by simp [Symbol.quote])
  obtain ⟨rest, hitems, hrest⟩ := hs.items_of_pairs hnot (not_quotes_name _)
  obtain ⟨v, w', hvalue, hlists⟩ := (hσ.changes hchanges).yields_rebinding he₁ hitems hrest
  exact ⟨v, w', hplace v w' (hyields v w' hvalue), hlists⟩

/-- A list of three values is not two pairs with the second one's rest in the place of a list. -/
theorem not_pair_of_lists {h : Heap} {v a b c d : Value} (hlists : h.Lists v [a, b, c])
    (hd : d.isPair = false) :
    ¬∃ r r', v = .pair r ∧ h.pair r = ⟨a, .pair r'⟩ ∧ h.pair r' = ⟨b, d⟩ := by
  rintro ⟨r, r', rfl, hr, hr'⟩
  cases hlists with
  | cons hcell hothers =>
      cases hr.symm.trans (Heap.pair_eq_of_getElem? hcell)
      cases hothers with
      | cons hcell' hlast =>
          cases hr'.symm.trans (Heap.pair_eq_of_getElem? hcell')
          cases hlast
          cases hd

/-- An expression that changes what `cons` is changes what is made of the values after it: the
template denotes a pair of two primitives, but its value is a list of them. -/
theorem value_of_rebinding :
    ∃ enough, ∀ m, enough ≤ m → ∃ v w',
      (Step.go (.eval (World.prelude.build (.form "quasiquote" [rebindingText])).1 .global) []
        ((fresh World.nowhere (.form "quasiquote" [rebindingText])).world.underLimit m)).Ends
          (.value v) w' ∧
      w'.heap.Lists v [.primitive .list, .primitive .car, .primitive .cdr] ∧
      ¬∃ r r', v = .pair r ∧ w'.heap.pair r = ⟨.primitive .list, .pair r'⟩ ∧
        w'.heap.pair r' = ⟨.primitive .car, .primitive .cdr⟩ := by
  have hcontinues := continues_fresh World.nowhere (.form "quasiquote" [rebindingText])
  obtain ⟨hknows, site, operand, x, hbuilt, hsite, hform, hoperand, hx⟩ :=
    exists_form_fresh World.nowhere rebindingText
  obtain ⟨v, w', hyields, hlists⟩ :=
    hcontinues.yields_rebindingText hknows hsite hform hoperand hx
  obtain ⟨enough, hends⟩ := hyields.ends
  rw [hbuilt]
  refine ⟨enough, fun m hm => ?_⟩
  have hend := (hends m).resolve_left fun hdeep => absurd hdeep.1 (Nat.not_lt.2 hm)
  refine ⟨v, _, hend, ?_⟩
  have hheap : ∀ d, (w'.onLevel d m).heap = w'.heap := fun _ => rfl
  rw [hheap]
  exact ⟨hlists, not_pair_of_lists hlists rfl⟩

end Moment

end Scheme
