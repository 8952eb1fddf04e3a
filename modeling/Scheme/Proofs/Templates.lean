import Scheme.Proofs.CodeRuns
import Scheme.Proofs.ProperLists
/-!
# Templates

What a template denotes, as a plan: which parts are built and which expressions are evaluated on
which level of nesting. An expansion of the template settles the parts that hold nothing to be
evaluated when it is made; the others are filled from left to right each time it is evaluated.
-/

namespace Scheme

open Evaluator

/-- A finite tree of pairs and vectors. A pair comes with the value of its first part, and a vector
with the list of its elements. -/
inductive Template where
  | atom (v : Value)
  | pair (head : Value) (first rest : Template)
  | vector (elements : Template)

/-- What is to be built: atoms and pairs, the values of expressions, lists that begin with the
elements of such a value, and vectors of the elements of a list. -/
inductive Plan where
  | atom (v : Value)
  | pair (p q : Plan)
  | hole (e : Value)
  | splice (e : Value) (p : Plan)
  | vector (p : Plan)

namespace Template

/-- Whether a pair of these parts is a list of the symbol and one operand. -/
def isMarked (s : Symbol) : Template → Template → Bool
  | .atom (.symbol t), .pair _ _ (.atom .nil) => t = s
  | _, _ => false

/-- Whether the template is a list of the symbol and one operand. -/
def isForm (s : Symbol) : Template → Bool
  | .pair _ first rest => isMarked s first rest
  | _ => false

def head : Template → Value
  | .pair head _ _ => head
  | _ => .nil

/-- The operand of a form. -/
def operand : Template → Value
  | .pair _ _ rest => rest.head
  | _ => .nil

/-- What a pair is to a template. -/
inductive Role where
  | unquoted
  | nested
  | spliced
  | plain

/-- The role of a pair of these parts. -/
def role (first rest : Template) : Role :=
  if isMarked .unquote first rest then .unquoted
  else if isMarked .quasiquote first rest then .nested
  else if first.isForm .unquoteSplicing then .spliced
  else .plain

/-- What the template denotes inside so many templates. -/
def plan : Template → Nat → Plan
  | .atom v, _ => .atom v
  | .vector elements, n => .vector (plan elements n)
  | .pair head first rest, n =>
    match role first rest, n with
    | .unquoted, 0 => .hole rest.head
    | .unquoted, n + 1 => .pair (.atom head) (plan rest n)
    | .nested, n => .pair (.atom head) (plan rest (n + 1))
    | .spliced, 0 => .splice first.operand (plan rest 0)
    | .spliced, n + 1 => .pair (plan first n) (plan rest (n + 1))
    | .plain, n => .pair (plan first n) (plan rest n)

/-! ## Templates that mean something -/

def isList : Template → Bool
  | .atom v => v = .nil
  | .pair _ _ rest => rest.isList
  | .vector _ => false

def isSymbol (s : Symbol) : Template → Bool
  | .atom v => v = .symbol s
  | _ => false

/-- Whether an element of the list is one of the symbols that mark a form. -/
def hasBareMark : Template → Bool
  | .pair _ first rest => first.isSymbol .unquote || first.isSymbol .quasiquote || rest.hasBareMark
  | _ => false

/-- All lists that are headed by a mark are proper, and no vector has a mark as an element with
which the list of its elements could end in a form. -/
def isWellFormed : Template → Bool
  | .atom _ => true
  | .pair _ first rest =>
    (rest.isList || !(first.isSymbol .unquote || first.isSymbol .quasiquote ||
      first.isSymbol .unquoteSplicing)) && first.isWellFormed && rest.isWellFormed
  | .vector elements => elements.isList && !elements.hasBareMark && elements.isWellFormed

/-- The number of pairs and vectors. -/
def size : Template → Nat
  | .atom _ => 0
  | .pair _ first rest => first.size + rest.size + 1
  | .vector elements => elements.size + 1

/-! ## Templates in a heap -/

section

variable (still : Ref .pair → Pair → Prop) (row : Ref .vector → Array Value → Prop)

mutual

/-- The value is the template, where it lies in pairs and vectors that may be read. -/
def Holds : Template → Value → Prop
  | .atom a, v => v = a ∧ a.isPair = false ∧ a.isOf .vector = false
  | .pair head first rest, v =>
    ∃ r tail, v = .pair r ∧ still r ⟨head, tail⟩ ∧ Holds first head ∧ Holds rest tail
  | .vector elements, v => ∃ r vs, v = .vector r ∧ row r vs ∧ HoldsAll elements vs.toList

/-- The values are the elements of the list. -/
def HoldsAll : Template → List Value → Prop
  | .atom a, vs => a = .nil ∧ vs = []
  | .pair head first rest, vs => ∃ others, vs = head :: others ∧ Holds first head ∧
    HoldsAll rest others
  | .vector _, _ => False

end

variable (cell : Ref .pair → Pair → Prop)

/-- An expression that is headed by `list` may become part of a longer one, and a quotation is
evaluated when the expansion is made. -/
def Spares (e : Value) : Prop :=
  ∀ r, e = .pair r → ∃ p, still r p ∧ (p.first = .symbol ⟨"list"⟩ → cell r p) ∧
    (p.first = .symbol .quote → cell r p ∧ ∀ r', p.rest = .pair r' → ∃ p', cell r' p')

mutual

/-- The value is the template inside so many templates, where the pairs that may become part of
what is built are cells. -/
def Reads : Template → Nat → Value → Prop
  | .atom a, _, v => Holds still row (.atom a) v
  | .vector elements, n, v => ∃ r vs, v = .vector r ∧ row r vs ∧ ReadsAll elements n vs.toList
  | .pair head first rest, n, v => ∃ r tail, v = .pair r ∧ still r ⟨head, tail⟩ ∧
    match role first rest, n with
    | .unquoted, 0 => Holds still row first head ∧ Holds still row rest tail ∧
      Spares still cell rest.head
    | .unquoted, n + 1 => cell r ⟨head, tail⟩ ∧ Holds still row first head ∧ Reads rest n tail
    | .nested, n => cell r ⟨head, tail⟩ ∧ Holds still row first head ∧ Reads rest (n + 1) tail
    | .spliced, 0 => Holds still row first head ∧ Reads rest 0 tail
    | .spliced, n + 1 => cell r ⟨head, tail⟩ ∧ Reads first n head ∧ Reads rest (n + 1) tail
    | .plain, n => cell r ⟨head, tail⟩ ∧ Reads first n head ∧ Reads rest n tail

/-- The values are the elements of the list inside so many templates. -/
def ReadsAll : Template → Nat → List Value → Prop
  | .atom a, _, vs => a = .nil ∧ vs = []
  | .vector _, _, _ => False
  | .pair head first rest, n, vs => ∃ others, vs = head :: others ∧
    match role first rest, n with
    | .spliced, 0 => Holds still row first head ∧ ReadsAll rest 0 others
    | .spliced, n + 1 => Reads first n head ∧ ReadsAll rest (n + 1) others
    | _, n => Reads first n head ∧ ReadsAll rest n others

end

end

/-! ## Reading a template -/

section

variable {still still' cell cell' : Ref .pair → Pair → Prop}
  {row row' : Ref .vector → Array Value → Prop} {t first rest : Template} {v : Value} {n : Nat}

mutual

theorem Holds.mono (hstills : ∀ r p, still r p → still' r p) (hrows : ∀ r vs, row r vs → row' r vs)
    {t : Template} {v : Value} (h : t.Holds still row v) : t.Holds still' row' v := by
  cases t with
  | atom => exact h
  | pair head first rest =>
      obtain ⟨r, tail, rfl, hr, hfirst, hrest⟩ := h
      exact ⟨r, tail, rfl, hstills _ _ hr, hfirst.mono hstills hrows, hrest.mono hstills hrows⟩
  | vector elements =>
      obtain ⟨r, vs, rfl, hr, hall⟩ := h
      exact ⟨r, vs, rfl, hrows _ _ hr, hall.mono hstills hrows⟩

theorem HoldsAll.mono (hstills : ∀ r p, still r p → still' r p)
    (hrows : ∀ r vs, row r vs → row' r vs) {t : Template} {vs : List Value}
    (h : t.HoldsAll still row vs) : t.HoldsAll still' row' vs := by
  cases t with
  | atom => exact h
  | pair head first rest =>
      obtain ⟨others, rfl, hfirst, hrest⟩ := h
      exact ⟨others, rfl, hfirst.mono hstills hrows, hrest.mono hstills hrows⟩
  | vector => exact h

end

theorem Spares.mono (hcells : ∀ r p, cell r p → cell' r p)
    (hstills : ∀ r p, still r p → still' r p) {e : Value} (h : Spares still cell e) :
    Spares still' cell' e := by
  intro r hr
  obtain ⟨p, hp, hlist, hquote⟩ := h r hr
  refine ⟨p, hstills r p hp, fun hhead => hcells r p (hlist hhead), fun hhead => ?_⟩
  obtain ⟨hform, hoperand⟩ := hquote hhead
  refine ⟨hcells r p hform, fun r' hr' => ?_⟩
  obtain ⟨p', hp'⟩ := hoperand r' hr'
  exact ⟨p', hcells r' p' hp'⟩

mutual

theorem Reads.mono (hcells : ∀ r p, cell r p → cell' r p) (hstills : ∀ r p, still r p → still' r p)
    (hrows : ∀ r vs, row r vs → row' r vs) {t : Template} {n : Nat} {v : Value}
    (h : t.Reads still row cell n v) : t.Reads still' row' cell' n v := by
  cases t with
  | atom => exact h
  | vector elements =>
      obtain ⟨r, vs, rfl, hr, hall⟩ := h
      exact ⟨r, vs, rfl, hrows _ _ hr, hall.mono hcells hstills hrows⟩
  | pair head first rest =>
      obtain ⟨r, tail, rfl, hr, h⟩ := h
      refine ⟨r, tail, rfl, hstills _ _ hr, ?_⟩
      cases hrole : role first rest with
      | unquoted =>
          cases n with
          | zero =>
              simp only [hrole] at h ⊢
              exact ⟨h.1.mono hstills hrows, h.2.1.mono hstills hrows, h.2.2.mono hcells hstills⟩
          | succ n =>
              simp only [hrole] at h ⊢
              exact ⟨hcells _ _ h.1, h.2.1.mono hstills hrows, h.2.2.mono hcells hstills hrows⟩
      | nested =>
          simp only [hrole] at h ⊢
          exact ⟨hcells _ _ h.1, h.2.1.mono hstills hrows, h.2.2.mono hcells hstills hrows⟩
      | spliced =>
          cases n with
          | zero =>
              simp only [hrole] at h ⊢
              exact ⟨h.1.mono hstills hrows, h.2.mono hcells hstills hrows⟩
          | succ n =>
              simp only [hrole] at h ⊢
              exact ⟨hcells _ _ h.1, h.2.1.mono hcells hstills hrows, h.2.2.mono hcells hstills hrows⟩
      | plain =>
          simp only [hrole] at h ⊢
          exact ⟨hcells _ _ h.1, h.2.1.mono hcells hstills hrows, h.2.2.mono hcells hstills hrows⟩

theorem ReadsAll.mono (hcells : ∀ r p, cell r p → cell' r p)
    (hstills : ∀ r p, still r p → still' r p) (hrows : ∀ r vs, row r vs → row' r vs)
    {t : Template} {n : Nat} {vs : List Value} (h : t.ReadsAll still row cell n vs) : t.ReadsAll still' row' cell' n vs := by
  cases t with
  | atom => exact h
  | vector => exact h
  | pair head first rest =>
      obtain ⟨others, rfl, h⟩ := h
      refine ⟨others, rfl, ?_⟩
      cases hrole : role first rest with
      | spliced =>
          cases n with
          | zero =>
              simp only [hrole] at h ⊢
              exact ⟨h.1.mono hstills hrows, h.2.mono hcells hstills hrows⟩
          | succ n =>
              simp only [hrole] at h ⊢
              exact ⟨h.1.mono hcells hstills hrows, h.2.mono hcells hstills hrows⟩
      | unquoted | nested | plain =>
          simp only [hrole] at h ⊢
          exact ⟨h.1.mono hcells hstills hrows, h.2.mono hcells hstills hrows⟩

end

mutual

theorem Reads.holds {t : Template} {n : Nat} {v : Value} (h : t.Reads still row cell n v) :
    t.Holds still row v := by
  cases t with
  | atom => exact h
  | vector elements =>
      obtain ⟨r, vs, rfl, hr, hall⟩ := h
      exact ⟨r, vs, rfl, hr, hall.holds⟩
  | pair head first rest =>
      obtain ⟨r, tail, rfl, hr, h⟩ := h
      refine ⟨r, tail, rfl, hr, ?_⟩
      cases hrole : role first rest with
      | unquoted =>
          cases n with
          | zero =>
              simp only [hrole] at h
              exact ⟨h.1, h.2.1⟩
          | succ n =>
              simp only [hrole] at h
              exact ⟨h.2.1, h.2.2.holds⟩
      | nested =>
          simp only [hrole] at h
          exact ⟨h.2.1, h.2.2.holds⟩
      | spliced =>
          cases n with
          | zero =>
              simp only [hrole] at h
              exact ⟨h.1, h.2.holds⟩
          | succ n =>
              simp only [hrole] at h
              exact ⟨h.2.1.holds, h.2.2.holds⟩
      | plain =>
          simp only [hrole] at h
          exact ⟨h.2.1.holds, h.2.2.holds⟩

theorem ReadsAll.holds {t : Template} {n : Nat} {vs : List Value}
    (h : t.ReadsAll still row cell n vs) : t.HoldsAll still row vs := by
  cases t with
  | atom => exact h
  | vector => exact h
  | pair head first rest =>
      obtain ⟨others, rfl, h⟩ := h
      refine ⟨others, rfl, ?_⟩
      cases hrole : role first rest with
      | spliced =>
          cases n with
          | zero =>
              simp only [hrole] at h
              exact ⟨h.1, h.2.holds⟩
          | succ n =>
              simp only [hrole] at h
              exact ⟨h.1.holds, h.2.holds⟩
      | unquoted | nested | plain =>
          simp only [hrole] at h
          exact ⟨h.1.holds, h.2.holds⟩

end

/-! ## Marked pairs -/

theorem isWellFormed_pair {head : Value} (h : (pair head first rest).isWellFormed = true) :
    ((first.isSymbol .unquote = true ∨ first.isSymbol .quasiquote = true ∨
      first.isSymbol .unquoteSplicing = true) → rest.isList = true) ∧
    first.isWellFormed = true ∧ rest.isWellFormed = true := by
  simp only [isWellFormed, Bool.and_eq_true, Bool.or_eq_true, Bool.not_eq_true',
    Bool.or_eq_false_iff] at h
  refine ⟨fun hmark => ?_, h.1.2, h.2⟩
  rcases h.1.1 with hlist | ⟨⟨hunquote, hquasiquote⟩, hsplicing⟩
  · exact hlist
  · simp [hunquote, hquasiquote, hsplicing] at hmark

/-- The number of elements of a list. -/
def length : Template → Nat
  | .pair _ _ rest => rest.length + 1
  | _ => 0

theorem length_le_size (t : Template) : t.length ≤ t.size := by
  induction t with
  | atom => exact Nat.le_refl 0
  | vector => exact Nat.zero_le _
  | pair head first rest _ ih =>
      simp only [length, size]
      omega

theorem isSymbol_of_isMarked {s : Symbol} (h : isMarked s first rest = true) :
    first.isSymbol s = true := by
  unfold isMarked at h
  split at h
  · simpa [isSymbol] using h
  · cases h

theorem isMarked_of_unquoted (h : role first rest = .unquoted) :
    isMarked .unquote first rest = true := by
  unfold role at h
  split at h
  · assumption
  · split at h
    · cases h
    · split at h <;> cases h

theorem isMarked_of_nested (h : role first rest = .nested) :
    isMarked .quasiquote first rest = true := by
  unfold role at h
  split at h
  · cases h
  · split at h
    · assumption
    · split at h <;> cases h

theorem isForm_of_spliced (h : role first rest = .spliced) :
    first.isForm .unquoteSplicing = true := by
  unfold role at h
  split at h
  · cases h
  · split at h
    · cases h
    · split at h
      · assumption
      · cases h

/-- A proper list that is headed by a mark is a form if it has one operand. -/
theorem isMarked_eq {s : Symbol} (hlist : rest.isList = true) :
    isMarked s (.atom (.symbol s)) rest = decide (rest.length = 1) := by
  cases rest with
  | atom v => rfl
  | vector => rfl
  | pair head first others =>
      cases others with
      | atom v =>
          obtain rfl : v = .nil := by simpa [isList] using hlist
          simp [isMarked, length]
      | vector => cases hlist
      | pair => simp [isMarked, length]

theorem isMarked_eq_false {s : Symbol} (h : first.isSymbol s = false) :
    isMarked s first rest = false :=
  Bool.eq_false_iff.2 fun hmarked => by rw [isSymbol_of_isMarked hmarked] at h; cases h

theorem Holds.isSymbol_eq {s : Symbol} (h : t.Holds still row v) :
    t.isSymbol s = decide (v = .symbol s) := by
  cases t with
  | atom a =>
      obtain ⟨rfl, -⟩ := h
      rfl
  | pair =>
      obtain ⟨r, tail, rfl, -⟩ := h
      rfl
  | vector =>
      obtain ⟨r, vs, rfl, -⟩ := h
      rfl

theorem Holds.items (h : t.Holds still row v) (hlist : t.isList = true) :
    ∃ vs, Items still v vs ∧ vs.length = t.length := by
  induction t generalizing v with
  | atom a =>
      obtain ⟨rfl, -⟩ := h
      obtain rfl : v = .nil := by simpa [isList] using hlist
      exact ⟨[], .nil, rfl⟩
  | vector => cases hlist
  | pair head first rest _ ih =>
      obtain ⟨r, tail, rfl, hr, -, hrest⟩ := h
      obtain ⟨vs, hitems, hlength⟩ := ih hrest hlist
      exact ⟨head :: vs, .cons hr hitems, congrArg (· + 1) hlength⟩

/-- A list of the elements of a vector is a template without marks of its own. -/
theorem ReadsAll.reads (hstills : ∀ r p, cell r p → still r p) {t : Template}
    (hbare : t.hasBareMark = false) {n : Nat} {vs : List Value} {l : Value}
    (hl : Items cell l vs) (h : t.ReadsAll still row cell n vs) : t.Reads still row cell n l := by
  induction t generalizing n vs l with
  | atom a =>
      obtain ⟨rfl, rfl⟩ := h
      cases hl
      exact ⟨rfl, rfl, rfl⟩
  | vector => cases h
  | pair head first rest _ ih =>
      obtain ⟨others, rfl, h⟩ := h
      simp only [hasBareMark, Bool.or_eq_false_iff] at hbare
      cases hl with
      | @cons r _ tail _ hr htail =>
          refine ⟨r, tail, rfl, hstills _ _ hr, ?_⟩
          cases hrole : role first rest with
          | unquoted =>
              rw [isSymbol_of_isMarked (isMarked_of_unquoted hrole)] at hbare
              cases hbare.1.1
          | nested =>
              rw [isSymbol_of_isMarked (isMarked_of_nested hrole)] at hbare
              cases hbare.1.2
          | spliced =>
              cases n with
              | zero =>
                  simp only [hrole] at h ⊢
                  exact ⟨h.1, ih hbare.2 htail h.2⟩
              | succ n =>
                  simp only [hrole] at h ⊢
                  exact ⟨hr, h.1, ih hbare.2 htail h.2⟩
          | plain =>
              simp only [hrole] at h ⊢
              exact ⟨hr, h.1, ih hbare.2 htail h.2⟩

end

end Template

/-! ## Parts that are settled -/

/-- The expression has this value whenever it is evaluated: it is its own value or a quotation. -/
inductive Quotes (cell : Ref .pair → Pair → Prop) : Value → Value → Prop where
  | self {v : Value} (h : v.isSelfEvaluating = true) : Quotes cell v v
  | quotation {r r' : Ref .pair} {v rest : Value} (hform : cell r ⟨.symbol .quote, .pair r'⟩)
      (hoperand : cell r' ⟨v, rest⟩) : Quotes cell (.pair r) v
  | bare {r : Ref .pair} {rest : Value} (hform : cell r ⟨.symbol .quote, rest⟩)
      (hrest : rest.isPair = false) : Quotes cell (.pair r) .nil

/-- The value is what the plan asks for, and its pairs are cells. -/
inductive Stands (cell : Ref .pair → Pair → Prop) : Value → Plan → Prop where
  | atom (v : Value) : Stands cell v (.atom v)
  | hole {e v : Value} (h : Quotes cell e v) : Stands cell v (.hole e)
  | pair {r : Ref .pair} {a b : Value} {p q : Plan} (hcell : cell r ⟨a, b⟩)
      (ha : Stands cell a p) (hb : Stands cell b q) :
      Stands cell (.pair r) (.pair p q)

/-- A plan in which some parts are settled. -/
inductive Part where
  | constant (v : Value)
  | hole (e : Value)
  | pair (p q : Part)
  | splice (e : Value) (p : Part)
  | vector (p : Part)

/-- The parts that are settled have the values that the plan asks for. -/
inductive Covers (cell : Ref .pair → Pair → Prop) : Part → Plan → Prop where
  | constant {v : Value} {p : Plan} (h : Stands cell v p) : Covers cell (.constant v) p
  | hole (e : Value) : Covers cell (.hole e) (.hole e)
  | pair {p q : Part} {p' q' : Plan} (hp : Covers cell p p') (hq : Covers cell q q') :
      Covers cell (.pair p q) (.pair p' q')
  | splice {p : Part} {p' : Plan} (e : Value) (h : Covers cell p p') :
      Covers cell (.splice e p) (.splice e p')
  | vector {p : Part} {p' : Plan} (h : Covers cell p p') :
      Covers cell (.vector p) (.vector p')

section

variable {cell cell' : Ref .pair → Pair → Prop} (hcells : ∀ r p, cell r p → cell' r p)
include hcells

theorem Quotes.mono {e v : Value} (h : Quotes cell e v) : Quotes cell' e v := by
  cases h with
  | self h => exact .self h
  | quotation hform hoperand => exact .quotation (hcells _ _ hform) (hcells _ _ hoperand)
  | bare hform hrest => exact .bare (hcells _ _ hform) hrest

theorem Stands.mono {v : Value} {plan : Plan} (h : Stands cell v plan) : Stands cell' v plan := by
  induction h with
  | atom v => exact .atom v
  | hole h => exact .hole (h.mono hcells)
  | pair hcell _ _ iha ihb => exact .pair (hcells _ _ hcell) iha ihb

theorem Covers.mono {part : Part} {plan : Plan} (h : Covers cell part plan) :
    Covers cell' part plan := by
  induction h with
  | constant h => exact .constant (h.mono hcells)
  | hole e => exact .hole e
  | pair _ _ ihp ihq => exact .pair ihp ihq
  | splice e _ ih => exact .splice e ih
  | vector _ ih => exact .vector ih

end

/-! ## Filling the other parts -/

namespace Primitive

def append : Primitive := atLeast 0 "append" (.list .append)
def apply : Primitive := ⟨"apply", .control .apply, 2, none⟩
def vector : Primitive := atLeast 0 "vector" (.vector .ofElements)

/-- The primitives that expansions call. -/
def builders : List Primitive :=
  [list, cons, append, apply, vector]

end Primitive

namespace World

/-- The builders have their names in the scope. -/
def HasBuilders (w : World) (scope : Ref .scope) : Prop :=
  ∀ p ∈ Primitive.builders, ∃ owner, w.heap.locate? ⟨p.name⟩ scope = some (owner, .primitive p)

/-- The later world has the same pairs there, and the builders have their names. -/
structure Keeps (kept : Ref .pair → Prop) (scope : Ref .scope) (w w' : World) : Prop where
  pairs : ∀ r p, kept r → w.heap.pairs[r.index]? = some p → w'.heap.pairs[r.index]? = some p
  names : w'.HasBuilders scope

end World

/-- The elements along a spine that has an end. -/
def Heap.elementsOf (h : Heap) (v : Value) : List Value :=
  ((h.spine? v).map Prod.fst).getD []

/-- The part has the value. Its expressions are evaluated from left to right and keep some pairs
and the names of the builders; a pair is made when both of its parts have been built, and elements
are taken from a list when what follows them has been built. -/
inductive Fills (scope : Ref .scope) (kept : Ref .pair → Prop) :
    Part → World → Value → World → Prop where
  | constant (v : Value) (w : World) : Fills scope kept (.constant v) w v w
  | hole {e v : Value} {w w' : World} (h : Yields e scope w v w') (hkeeps : w.Keeps kept scope w') :
      Fills scope kept (.hole e) w v w'
  | pair {p q : Part} {a b : Value} {w w₁ w₂ : World} (hp : Fills scope kept p w a w₁)
      (hq : Fills scope kept q w₁ b w₂) :
      Fills scope kept (.pair p q) w (w₂.heap.cons a b).1
        { w₂ with heap := (w₂.heap.cons a b).2 }
  | splice {e : Value} {p : Part} {a b : Value} {items : List Value} {w w₁ w₂ : World}
      (h : Yields e scope w a w₁) (hkeeps : w.Keeps kept scope w₁)
      (hp : Fills scope kept p w₁ b w₂) (hitems : w₂.heap.Lists a items) :
      Fills scope kept (.splice e p) w (w₂.heap.listStar items b).1
        { w₂ with heap := (w₂.heap.listStar items b).2 }
  | vector {p : Part} {a : Value} {w w₁ : World} (hp : Fills scope kept p w a w₁) :
      Fills scope kept (.vector p) w (w₁.heap.addVector (w₁.heap.elementsOf a).toArray).1
        { w₁ with heap := (w₁.heap.addVector (w₁.heap.elementsOf a).toArray).2 }

end Scheme
