import Scheme.Proofs.Definitions
import Scheme.Proofs.DerivedTexts
/-!
# The code of the prelude

The prelude is read and evaluated as a program of definitions. The closures it leaves for
conjunctions and for templates have the code that their transformers are known by, and the names in
that code have the values that it needs. All of this holds as long as the code of the two is as the
prelude left it, but for conjunctions in it that have been replaced.
-/

namespace Scheme

/-! ## Code in a heap -/

mutual

/-- Data that can be evaluated as code with conjunctions in it. -/
def Datum.isCode : Datum → Bool
  | .pair first rest =>
    if isConjunction first rest then rest.areOperands else first.isCode && rest.isCode
  | .character _ | .string _ | .vector _ => false
  | _ => true

/-- Operands of a conjunction, in a list that does not go on like a conjunction. -/
def Datum.areOperands : Datum → Bool
  | .nil => true
  | .pair first rest => !isConjunction first rest && first.isCode && rest.areOperands
  | _ => false

end

/-- A pair that is a conjunction with operands. -/
def Pair.isConjunction (p : Pair) : Bool :=
  p.first = .symbol ⟨"and"⟩ && p.rest.isPair

namespace Heap

variable {h : Heap} {r : Ref .pair} {v : Value} {d : Datum}

theorem Denotes.isConjunction_eq {p : Pair} {first rest : Datum}
    (hfirst : h.Denotes p.first first) (hrest : h.Denotes p.rest rest) :
    p.isConjunction = Datum.isConjunction first rest := by
  obtain ⟨a, b⟩ := p
  refine Bool.eq_iff_iff.2 ⟨fun hp => ?_, fun hd => ?_⟩
  · simp only [Pair.isConjunction, Bool.and_eq_true, decide_eq_true_eq] at hp
    obtain ⟨rfl, hpair⟩ := hp
    obtain ⟨r, rfl⟩ : ∃ r, b = .pair r := by
      cases b <;> first | exact ⟨_, rfl⟩ | cases hpair
    obtain rfl := hfirst.eq_symbol
    obtain ⟨_, _, _, rfl, -⟩ := hrest.exists_pair
    rfl
  · unfold Datum.isConjunction at hd
    split at hd
    · obtain ⟨r, -, rfl, -⟩ := hrest
      cases hfirst
      rename_i s _ _
      obtain ⟨name⟩ := s
      obtain rfl : name = "and" := eq_of_beq hd
      rfl
    · cases hd

/-- The pair is one of those that the value is made of. -/
inductive Within (h : Heap) (r : Ref .pair) : Value → Prop where
  | here : Within h r (.pair r)
  | first {r' : Ref .pair} {p : Pair} (hp : h.pairs[r'.index]? = some p)
      (hr : Within h r p.first) : Within h r (.pair r')
  | rest {r' : Ref .pair} {p : Pair} (hp : h.pairs[r'.index]? = some p)
      (hr : Within h r p.rest) : Within h r (.pair r')

/-- The pair is in the code of the transformer that has the name. -/
def InCodeOf (h : Heap) (name : Symbol) (r : Ref .pair) : Prop :=
  ∃ owner c, h.locate? name .global = some (owner, .transformer c) ∧ h.Within r (h.closure c).body

/-- The pair is in the code that expands conjunctions and templates. -/
def InExpanders (h : Heap) (r : Ref .pair) : Prop :=
  h.InCodeOf ⟨"and"⟩ r ∨ h.InCodeOf .quasiquote r

/-- All pairs of code are code in turn, or the rest of a list of operands. -/
theorem Within.exists_code (hr : h.Within r v) (hv : h.Denotes v d)
    (hd : d.isCode = true ∨ d.areOperands = true) :
    ∃ d', h.Denotes (.pair r) d' ∧ (d'.isCode = true ∨ d'.areOperands = true) := by
  induction hr generalizing d with
  | here => exact ⟨d, hv, hd⟩
  | @first r' p hp _ ih =>
      obtain ⟨first, rest, _, rfl, hp', hfirst, -⟩ := hv.exists_pair
      cases Option.some.inj (hp.symm.trans hp')
      refine ih hfirst (Or.inl ?_)
      rcases hd with hd | hd
      · by_cases hconjunction : Datum.isConjunction first rest = true
        · unfold Datum.isConjunction at hconjunction
          split at hconjunction
          · rfl
          · cases hconjunction
        · simp only [Datum.isCode, hconjunction, Bool.false_eq_true, if_false,
            Bool.and_eq_true] at hd
          exact hd.1
      · simp only [Datum.areOperands, Bool.and_eq_true] at hd
        exact hd.1.2
  | @rest r' p hp _ ih =>
      obtain ⟨first, rest, _, rfl, hp', -, hrest⟩ := hv.exists_pair
      cases Option.some.inj (hp.symm.trans hp')
      refine ih hrest ?_
      rcases hd with hd | hd
      · by_cases hconjunction : Datum.isConjunction first rest = true
        · simp only [Datum.isCode, hconjunction, if_true] at hd
          exact Or.inr hd
        · simp only [Datum.isCode, hconjunction, Bool.false_eq_true, if_false,
            Bool.and_eq_true] at hd
          exact Or.inl hd.2
      · simp only [Datum.areOperands, Bool.and_eq_true] at hd
        exact Or.inr hd.2

/-- The list of operands holds no conjunctions in its own pairs. -/
theorem Denotes.operands (hv : h.Denotes v d) (hd : d.areOperands = true) {xs : List Value}
    (hxs : h.Lists v xs) :
    Items (fun r p => h.pairs[r.index]? = some p ∧ p.isConjunction = false) v xs := by
  induction hxs generalizing d with
  | nil => exact .nil
  | @cons r item rest items hcell _ ih =>
      obtain ⟨first, others, p, rfl, hp, hfirst, hothers⟩ := hv.exists_pair
      cases Option.some.inj (hp.symm.trans hcell)
      simp only [Datum.areOperands, Bool.and_eq_true, Bool.not_eq_true'] at hd
      exact .cons ⟨hcell, (hfirst.isConjunction_eq hothers).trans hd.1.1⟩ (ih hothers hd.2)

end Heap

namespace Moment

variable {σ : Moment} {h : Heap}

/-- The code that expands conjunctions and templates is still as it was in the heap, but for
conjunctions in it that have been replaced, and so are all closures and global names. -/
structure Continues (σ : Moment) (h : Heap) : Prop where
  cells : ∀ r p, h.InExpanders r → h.pairs[r.index]? = some p → p.isConjunction = false →
    σ.Cell r p
  conjunctions : ∀ r p xs, h.InExpanders r → h.pairs[r.index]? = some p →
    p.isConjunction = true → h.Lists p.rest xs → σ.Conjoins (.pair r) xs
  closures : ∀ (i : Nat) c, h.closures[i]? = some c → σ.heap.closures[i]? = some c
  names : ∀ name owner v, h.locate? name .global = some (owner, v) →
    σ.heap.locate? name .global = some (owner, v)

mutual

theorem Continues.code (hσ : σ.Continues h) {d : Datum} (hd : d.isCode = true) {v : Value}
    (hv : h.Denotes v d) (hin : ∀ r, h.Within r v → h.InExpanders r) : σ.Code v d := by
  cases d with
  | pair first rest =>
      obtain ⟨r, p, rfl, hr, hfirst, hrest⟩ := hv
      have hawaits := hfirst.isConjunction_eq hrest
      have hinfirst : ∀ r', h.Within r' p.first → h.InExpanders r' := fun r' hr' => hin r' (.first hr hr')
      have hinrest : ∀ r', h.Within r' p.rest → h.InExpanders r' := fun r' hr' => hin r' (.rest hr hr')
      cases hconjunction : Datum.isConjunction first rest with
      | true =>
          simp only [Datum.isCode, hconjunction, if_true] at hd
          obtain ⟨xs, hlists, hall⟩ := hσ.codeAll hd hrest hinrest
          simp only [Code, hconjunction, if_true]
          exact ⟨xs, hσ.conjunctions r p xs (hin r .here) hr (hawaits.trans hconjunction) hlists, hall⟩
      | false =>
          simp only [Datum.isCode, hconjunction, Bool.false_eq_true, if_false,
            Bool.and_eq_true] at hd
          simp only [Code, hconjunction, Bool.false_eq_true, if_false]
          exact ⟨r, p, rfl, hσ.cells r p (hin r .here) hr (hawaits.trans hconjunction),
            hσ.code hd.1 hfirst hinfirst, hσ.code hd.2 hrest hinrest⟩
  | character | string | vector => cases hd
  | _ => exact hv
termination_by structural d

theorem Continues.codeAll (hσ : σ.Continues h) {d : Datum} (hd : d.areOperands = true) {v : Value}
    (hv : h.Denotes v d) (hin : ∀ r, h.Within r v → h.InExpanders r) :
    ∃ xs, h.Lists v xs ∧ σ.CodeAll xs d := by
  cases d with
  | nil =>
      cases hv
      exact ⟨[], .nil, rfl⟩
  | pair first rest =>
      obtain ⟨r, p, rfl, hr, hfirst, hrest⟩ := hv
      simp only [Datum.areOperands, Bool.and_eq_true] at hd
      obtain ⟨xs, hlists, hall⟩ := hσ.codeAll hd.2 hrest fun r' hr' => hin r' (.rest hr hr')
      exact ⟨p.first :: xs, .cons hr hlists, p.first, xs, rfl,
        hσ.code hd.1.2 hfirst fun r' hr' => hin r' (.first hr hr'), hall⟩
  | _ => cases hd
termination_by structural d

end

end Moment

/-! ## Reading the prelude -/

namespace Heap

/-- The global names and the closures of an interpreter that knows the primitives only. -/
def knownPrimitives : Environment × List (Parameters × Datum) :=
  ((Primitive.table.map fun p => (p.name, Value.primitive p)).reverse, [])

theorem getElem?_foldl_insert {bindings : Std.TreeMap String Value} {names : Environment}
    (hnames : ∀ name, bindings[name]? = names.lookup name) (table : List Primitive) (name : String) :
    (table.foldl (fun b p => b.insert p.name (Value.primitive p)) bindings)[name]? =
      ((table.map fun p => (p.name, Value.primitive p)).reverse ++ names).lookup name := by
  induction table generalizing bindings names with
  | nil => exact hnames name
  | cons p table ih =>
      rw [List.foldl_cons, ih (getElem?_insert_eq_lookup hnames p.name (.primitive p))]
      simp

theorem knows_primitives : primitives.Knows knownPrimitives.1 knownPrimitives.2 where
  scopes := by
    refine ⟨_, rfl, fun name => ?_⟩
    have hempty : ∀ name, (∅ : Std.TreeMap String Value)[name]? = List.lookup name [] :=
      fun _ => Std.TreeMap.getElem?_emptyc
    have hnames := getElem?_foldl_insert hempty Primitive.table name
    rwa [List.append_nil] at hnames
  count := rfl
  closures i p d hi := by cases hi

end Heap

/-- Whether the two are the same tree of names and numbers. -/
def Datum.isSame : Datum → Datum → Bool
  | .nil, .nil => true
  | .boolean a, .boolean b => a == b
  | .number x, .number y => x.toBits == y.toBits
  | .symbol a, .symbol b => a.name == b.name
  | .pair a b, .pair c d => a.isSame c && b.isSame d
  | _, _ => false

theorem Datum.eq_of_isSame {d d' : Datum} (h : d.isSame d' = true) : d = d' := by
  fun_induction Datum.isSame d d' with
  | case1 => rfl
  | case2 a b => rw [eq_of_beq h]
  | case3 x y => rw [Float.toBits_inj.1 (eq_of_beq h)]
  | case4 a b =>
      obtain ⟨a⟩ := a
      obtain ⟨b⟩ := b
      obtain rfl : a = b := eq_of_beq h
      rfl
  | case5 a b c d iha ihb =>
      rw [Bool.and_eq_true] at h
      rw [iha h.1, ihb h.2]
  | case6 => cases h

def Primitive.setCar : Primitive :=
  exactly 2 "set-car!" (.list (.set .first))

namespace Prelude

/-- The global names that templates are expanded with. -/
def expanding : Environment :=
  [(Symbol.quasiquote.name, .transformer ⟨2⟩), ("rest", .primitive .cdr)] ++ expanderGlobals ⟨1⟩ ++
    Primitive.builders.map fun p => (p.name, .primitive p)

/-- The global names that derived forms are expanded with. -/
def names : Environment :=
  expanding ++ [("or", .transformer ⟨0⟩), ("map", .primitive .map), ("third", .primitive .caddr),
    ("cddr", .primitive .cddr), ("let", .transformer ⟨3⟩), ("letrec", .transformer ⟨5⟩),
    ("do", .transformer ⟨7⟩)]

/-- The global names that make promises and force them. -/
def delaying : Environment :=
  [("delay", .transformer ⟨8⟩), ("force", .primitive .force)]

/-- The global names that pairs are made, read and changed with. -/
def pairing : Environment :=
  [("list", .primitive .list), ("car", .primitive .car), ("set-car!", .primitive .setCar)]

/-- Closures of the prelude with their parameters and the texts of their bodies. -/
def texts : List (Ref .closure × Parameters × Datum) :=
  [(⟨0⟩, ⟨[], some ⟨"args"⟩⟩, disjunctionText), (⟨1⟩, ⟨[], some ⟨"args"⟩⟩, conjunctionText),
    (⟨2⟩, ⟨[⟨"x"⟩], none⟩, .transformerText),
    (⟨3⟩, ⟨[⟨"bindings"⟩], some ⟨"body"⟩⟩, bindingText),
    (⟨5⟩, ⟨[⟨"bindings"⟩], some ⟨"body"⟩⟩, recursionText),
    (⟨7⟩, ⟨[⟨"bindings"⟩, ⟨"test-and-result"⟩], some ⟨"body"⟩⟩, iterationText),
    (⟨8⟩, ⟨[⟨"exp"⟩], none⟩, delayText)]

/-- Whether these names and closures are enough to expand derived forms. -/
def isEnough (known : Environment × List (Parameters × Datum)) : Bool :=
  (names ++ delaying ++ pairing).all (fun entry => known.1.lookup entry.1 = some entry.2) &&
  texts.all fun entry => known.2[entry.1.index]?.any fun p =>
    p.1 = entry.2.1 && p.2.isSame entry.2.2

/-- Whether the text is a program of definitions that make these names and closures known. -/
def defines (text : List Char) : Bool :=
  match (Reader.ofText text).readAll with
  | (data, .endOfInput, _) =>
    9 * data.length + 2 ≤ stepBound &&
      (data.foldlM Datum.define? Heap.knownPrimitives).any isEnough
  | _ => false

set_option maxRecDepth 20000 in
theorem defines_text : defines text.toList = true := by
  have htext : ∃ l₁ l₂ l₃ l₄ l₅ l₆ l₇ l₈ l₉, aliases = String.ofList l₁ ∧
      disjunction = String.ofList l₂ ∧ conjunction = String.ofList l₃ ∧
      quasiquotation = String.ofList l₄ ∧ localBindings = String.ofList l₅ ∧
      selection = String.ofList l₆ ∧ iteration = String.ofList l₇ ∧ promises = String.ofList l₈ ∧
      timing = String.ofList l₉ ∧
      defines (l₁ ++ l₂ ++ l₃ ++ l₄ ++ l₅ ++ l₆ ++ l₇ ++ l₈ ++ l₉) = true :=
    ⟨_, _, _, _, _, _, _, _, _, rfl, rfl, rfl, rfl, rfl, rfl, rfl, rfl, rfl, by decide +kernel⟩
  obtain ⟨l₁, l₂, l₃, l₄, l₅, l₆, l₇, l₈, l₉, h₁, h₂, h₃, h₄, h₅, h₆, h₇, h₈, h₉, hdefines⟩ := htext
  rw [text, h₁, h₂, h₃, h₄, h₅, h₆, h₇, h₈, h₉]
  simpa only [String.toList_append, String.toList_ofList] using hdefines

end Prelude

namespace World

/-- A program of definitions runs to a value, and leaves what they make known. -/
theorem exists_knows_of_defines {text : String} (h : Prelude.defines text.toList = true) :
    ∃ v w known, (bare nowhere).interpret text = (.value v, w) ∧ w.heap.Knows known.1 known.2 ∧
      Prelude.isEnough known = true := by
  unfold Prelude.defines at h
  split at h
  · rename_i data r hread
    rw [Bool.and_eq_true, decide_eq_true_eq, Option.any_eq_true] at h
    obtain ⟨hbound, known, hdata, henough⟩ := h
    have hdepth : (bare nowhere).depth + 1 < (bare nowhere).maxDepth := by decide
    obtain ⟨v, w, hsteps, hknows⟩ :=
      Step.steps_definitions hread hdepth Heap.knows_primitives hdata .nil
    have hrun : (bare nowhere).interpret text = (.value v, w) := by
      rw [interpret, run, State.run_eq]
      exact congrArg Step.outcome (Step.steps_eq_done_of_le hbound hsteps)
    exact ⟨v, w, known, hrun, hknows, henough⟩
  · cases h

/-- There is an interpreter with the prelude: the prelude runs to a value. -/
theorem reachable_new (host : Host) : (new host).Reachable := by
  obtain ⟨v, w, -, hrun, -⟩ := exists_knows_of_defines Prelude.defines_text
  exact .new host hrun

/-- What the prelude leaves in the heap is enough to expand derived forms. -/
theorem exists_knows_prelude :
    ∃ known, prelude.Knows known.1 known.2 ∧ Prelude.isEnough known = true := by
  obtain ⟨v, w, known, hrun, hknows, henough⟩ := exists_knows_of_defines Prelude.defines_text
  refine ⟨known, ?_, henough⟩
  rw [prelude, hrun]
  exact hknows

theorem locate?_known {name : String} {v : Value}
    (h : (name, v) ∈ Prelude.names ++ Prelude.delaying ++ Prelude.pairing) :
    prelude.locate? ⟨name⟩ .global = some (.global, v) := by
  obtain ⟨known, hknows, henough⟩ := exists_knows_prelude
  simp only [Prelude.isEnough, Bool.and_eq_true, List.all_eq_true, decide_eq_true_eq] at henough
  exact hknows.locate?_eq (henough.1 _ h)

theorem locate?_prelude {name : String} {v : Value} (h : (name, v) ∈ Prelude.names) :
    prelude.locate? ⟨name⟩ .global = some (.global, v) :=
  locate?_known (List.mem_append_left _ (List.mem_append_left _ h))

theorem closure_prelude {c : Ref .closure} {p : Parameters} {text : Datum}
    (h : (c, p, text) ∈ Prelude.texts) : ∃ body name,
      prelude.closures[c.index]? = some ⟨p, body, .global, name⟩ ∧ prelude.Denotes body text := by
  obtain ⟨known, hknows, henough⟩ := exists_knows_prelude
  simp only [Prelude.isEnough, Bool.and_eq_true, List.all_eq_true, Option.any_eq_true,
    decide_eq_true_eq] at henough
  obtain ⟨⟨_, d⟩, hp, rfl, hsame⟩ := henough.2 _ h
  obtain rfl : d = text := Datum.eq_of_isSame hsame
  exact hknows.closures c.index _ _ hp

/-- The closure for conjunctions. -/
theorem closure_conjunction : ∃ body name,
    prelude.closures[1]? = some ⟨⟨[], some ⟨"args"⟩⟩, body, .global, name⟩ ∧
      prelude.Denotes body conjunctionText :=
  closure_prelude (c := ⟨1⟩) (.tail _ (.head _))

/-- The closure for templates. -/
theorem closure_quasiquote : ∃ body name,
    prelude.closures[2]? = some ⟨⟨[⟨"x"⟩], none⟩, body, .global, name⟩ ∧
      prelude.Denotes body .transformerText :=
  closure_prelude (c := ⟨2⟩) (.tail _ (.tail _ (.head _)))

end World

theorem Heap.inBounds_of_locate? {h : Heap} {name : Symbol} {scope : Ref .scope}
    {found : Ref .scope × Value} (hfound : h.locate? name scope = some found) :
    scope.index < h.scopes.size := by
  refine Nat.lt_of_not_le fun hle => ?_
  have hscope : h.scope scope = ⟨{}, none⟩ := by simp [Heap.scope, Array.getElem?_eq_none hle]
  simp [Heap.locate?, Heap.locateWithin, hscope] at hfound

/-! ## The code as long as it stays -/

theorem isCode_conjunctionText : conjunctionText.isCode = true := by decide

theorem isCode_transformerText : Datum.transformerText.isCode = true := by decide +kernel

namespace Moment.Continues

variable {σ : Moment} (hσ : σ.Continues World.prelude)
include hσ

theorem locate?_eq {name : String} {v : Value} (h : (name, v) ∈ Prelude.expanding) :
    σ.heap.locate? ⟨name⟩ .global = some (.global, v) :=
  hσ.names _ _ _ (World.locate?_prelude (List.mem_append_left _ h))

theorem binds {env : Environment} (henv : env ⊆ Prelude.expanding) : σ.Binds .global env where
  inBounds := Heap.inBounds_of_locate? (hσ.locate?_eq (List.mem_cons_self ..))
  names name v hv := by
    obtain ⟨before, after, rfl, -⟩ := List.lookup_eq_some_iff.1 hv
    exact ⟨_, hσ.locate?_eq (henv (by simp))⟩

/-- The closure for conjunctions is one still. -/
theorem isConjunction : σ.IsConjunction ⟨1⟩ := by
  obtain ⟨body, name, hclosure, hbody⟩ := World.closure_conjunction
  have hcode : ∀ r, World.prelude.Within r body → World.prelude.InExpanders r := fun r hr =>
    Or.inl ⟨_, ⟨1⟩, World.locate?_prelude (by decide), by simpa [Heap.closure, hclosure] using hr⟩
  exact ⟨body, .global, name, hσ.closures 1 _ hclosure,
    hσ.code isCode_conjunctionText hbody hcode, hσ.binds (by decide)⟩

/-- The closure for templates is one still. -/
theorem isTransformer : σ.IsTransformer ⟨2⟩ ⟨1⟩ := by
  obtain ⟨body, name, hclosure, hbody⟩ := World.closure_quasiquote
  have hcode : ∀ r, World.prelude.Within r body → World.prelude.InExpanders r := fun r hr =>
    Or.inr ⟨_, ⟨2⟩, World.locate?_prelude (by decide), by simpa [Heap.closure, hclosure] using hr⟩
  refine ⟨body, name, hσ.closures 2 _ hclosure, hσ.code isCode_transformerText hbody hcode,
    hσ.binds (by decide), fun c hc => ?_⟩
  cases hc
  exact hσ.isConjunction

/-- The names of the builders are found where they are not shadowed. -/
theorem hasBuilders {scope : Ref .scope}
    (hscope : ∀ p ∈ Primitive.builders,
      σ.heap.locate? ⟨p.name⟩ scope = σ.heap.locate? ⟨p.name⟩ .global) :
    σ.world.HasBuilders scope := by
  intro p hp
  refine ⟨.global, (hscope p hp).trans (hσ.locate?_eq ?_)⟩
  exact List.mem_append_right _ (List.mem_map_of_mem hp)

end Moment.Continues

end Scheme
