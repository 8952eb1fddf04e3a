import Mathlib.Order.Compare
import Mathlib.Data.List.Forall2
import Scheme.Interpreter
import Scheme.Primitive.Table
/-!
# Orders of strings

Strings are ordered character by character. The predicates that distinguish upper and lower case
extend those for characters. The others do not: they order by the upper case of characters, and
those for characters order by the lower case. The two cases agree on letters, but other characters
may stand between upper and lower case, as six in ASCII do.
-/

namespace Scheme

/-! ## Lexicographic order -/

/-- The order of lists that an order of their elements induces: the first difference counts, and a
list comes after its proper prefixes. -/
inductive Precedes {α : Type} (before same : α → α → Prop) : List α → List α → Prop where
  | nil (b : α) (bs : List α) : Precedes before same [] (b :: bs)
  | first {a b : α} (as bs : List α) (h : before a b) : Precedes before same (a :: as) (b :: bs)
  | later {a b : α} {as bs : List α} (h : same a b) (hrest : Precedes before same as bs) :
      Precedes before same (a :: as) (b :: bs)

/-- The relation, in an order that is given by what comes before what and what is the same. -/
def Relation.In {α : Type} (before same : α → α → Prop) (a b : α) : Relation → Prop
  | .lt => before a b
  | .le => before a b ∨ same a b
  | .eq => same a b
  | .ge => same a b ∨ before b a
  | .gt => before b a

/-- The relation holds in the lexicographic order that an order of characters induces. -/
def Relation.InLists (before same : Char → Char → Prop) (as bs : List Char) (r : Relation) : Prop :=
  r.In (Precedes before same) (List.Forall₂ same) as bs

section

variable (key : Char → Char) (as bs : List Char)

theorem lexicographic_eq_lt : lexicographic (as.map key) (bs.map key) = .lt ↔
    Precedes (fun a b => compare (key a) (key b) = .lt) (fun a b => compare (key a) (key b) = .eq)
      as bs := by
  induction as generalizing bs with
  | nil =>
      cases bs with
      | nil => exact ⟨nofun, nofun⟩
      | cons b bs => exact ⟨fun _ => .nil b bs, fun _ => rfl⟩
  | cons a as ih =>
      cases bs with
      | nil => exact ⟨nofun, nofun⟩
      | cons b bs =>
          rw [List.map_cons, List.map_cons, lexicographic, Ordering.then_eq_lt, ih]
          constructor
          · rintro (h | ⟨h, hrest⟩)
            · exact .first as bs h
            · exact .later h hrest
          · intro h
            cases h with
            | first _ _ h => exact .inl h
            | later h hrest => exact .inr ⟨h, hrest⟩

theorem lexicographic_eq_eq : lexicographic (as.map key) (bs.map key) = .eq ↔
    List.Forall₂ (fun a b => compare (key a) (key b) = .eq) as bs := by
  induction as generalizing bs with
  | nil =>
      cases bs with
      | nil => exact ⟨fun _ => .nil, fun _ => rfl⟩
      | cons b bs => exact ⟨nofun, nofun⟩
  | cons a as ih =>
      cases bs with
      | nil => exact ⟨nofun, nofun⟩
      | cons b bs =>
          rw [List.map_cons, List.map_cons, lexicographic, Ordering.then_eq_eq, ih,
            List.forall₂_cons]

theorem swap_lexicographic (as bs : List Char) :
    (lexicographic as bs).swap = lexicographic bs as := by
  induction as generalizing bs with
  | nil => cases bs <;> rfl
  | cons a as ih =>
      cases bs with
      | nil => rfl
      | cons b bs => 
          rw [lexicographic, lexicographic, Ordering.swap_then, ih, ← Std.OrientedOrd.eq_swap]

/-- The outcome of a comparison admits the relation when the relation holds in the order. -/
theorem admits_lexicographic (r : Relation) :
    r.admits (lexicographic (as.map key) (bs.map key)) = true ↔
      r.InLists (fun a b => compare (key a) (key b) = .lt)
        (fun a b => compare (key a) (key b) = .eq) as bs := by
  have hlt := lexicographic_eq_lt key as bs
  have heq := lexicographic_eq_eq key as bs
  have hgt := lexicographic_eq_lt key bs as
  rw [← swap_lexicographic, Ordering.swap_eq_lt] at hgt
  cases r <;> simp only [Relation.InLists, Relation.In, ← hlt, ← heq, ← hgt, Relation.admits] <;>
    cases lexicographic (as.map key) (bs.map key) <;> decide

/-- Of two ways to compare characters it does not matter which is taken for these lists. -/
theorem lexicographic_congr {key' : Char → Char}
    (h : ∀ a ∈ as, ∀ b ∈ bs, compare (key a) (key b) = compare (key' a) (key' b)) :
    lexicographic (as.map key) (bs.map key) = lexicographic (as.map key') (bs.map key') := by
  induction as generalizing bs with
  | nil => cases bs <;> rfl
  | cons a as ih =>
      cases bs with
      | nil => rfl
      | cons b bs =>
          have hrest : ∀ a ∈ as, ∀ b ∈ bs, compare (key a) (key b) = compare (key' a) (key' b) :=
            fun a ha b hb => h a (List.mem_cons_of_mem _ ha) b (List.mem_cons_of_mem _ hb)
          simp only [List.map_cons, lexicographic, h a List.mem_cons_self b List.mem_cons_self,
            ih bs hrest]

end

/-! ## Upper and lower case -/

namespace Text

/-- The characters are in the same order in upper and in lower case. -/
def SameOrder (a b : Char) : Prop :=
  compare (lower a) (lower b) = compare (upper a) (upper b)

instance : DecidableRel SameOrder := fun a b =>
  inferInstanceAs (Decidable (compare (lower a) (lower b) = compare (upper a) (upper b)))

/-- In ASCII, and not one of the six characters between upper and lower case. -/
def IsPlain (c : Char) : Prop :=
  c.toNat < 91 ∨ 97 ≤ c.toNat ∧ c.toNat < 128

theorem toNat_cases {c : Char} (hc : c.toNat < 128) :
    (lower c).toNat = (if 65 ≤ c.toNat ∧ c.toNat ≤ 90 then c.toNat + 32 else c.toNat) ∧
      (upper c).toNat = if 97 ≤ c.toNat ∧ c.toNat ≤ 122 then c.toNat - 32 else c.toNat := by
  have hall : ∀ code : Fin 128,
      (lower (Char.ofNat code)).toNat =
          (if 65 ≤ code.val ∧ code.val ≤ 90 then code.val + 32 else code.val) ∧
        (upper (Char.ofNat code)).toNat =
          if 97 ≤ code.val ∧ code.val ≤ 122 then code.val - 32 else code.val := by
    decide +kernel
  have hself := hall ⟨c.toNat, hc⟩
  simpa only [Char.ofNat_toNat] using hself

theorem compare_eq_toNat (a b : Char) : compare a b = compare a.toNat b.toNat := by
  have hlt : a < b ↔ a.toNat < b.toNat := Iff.rfl
  have heq : a = b ↔ a.toNat = b.toNat := ⟨congrArg _, fun h => Char.toNat_inj.1 h⟩
  change compareOfLessAndEq a b = compareOfLessAndEq a.toNat b.toNat
  simp only [compareOfLessAndEq, hlt, heq]

theorem IsPlain.sameOrder {a b : Char} (ha : IsPlain a) (hb : IsPlain b) : SameOrder a b := by
  unfold IsPlain at ha hb
  obtain ⟨hla, hua⟩ := toNat_cases (c := a) (by omega)
  obtain ⟨hlb, hub⟩ := toNat_cases (c := b) (by omega)
  have hlt : (lower a).toNat < (lower b).toNat ↔ (upper a).toNat < (upper b).toNat := by
    split at hla <;> split at hua <;> split at hlb <;> split at hub <;> omega
  have heq : (lower a).toNat = (lower b).toNat ↔ (upper a).toNat = (upper b).toNat := by
    split at hla <;> split at hua <;> split at hlb <;> split at hub <;> omega
  rw [SameOrder, compare_eq_toNat, compare_eq_toNat]
  change compareOfLessAndEq _ _ = compareOfLessAndEq _ _
  simp only [compareOfLessAndEq, hlt, heq]

end Text

/-! ## The predicates -/

/-- What the names of predicates for the relation end in. -/
def Relation.mark : Relation → String
  | .lt => "<?"
  | .le => "<=?"
  | .eq => "=?"
  | .ge => ">=?"
  | .gt => ">?"

namespace Primitive

def comparesCharacters (r : Relation) (foldCase : Bool) : Primitive :=
  exactly 2 ((if foldCase then "char-ci" else "char") ++ r.mark) (.character (.compare r foldCase))

def comparesStrings (r : Relation) (foldCase : Bool) : Primitive :=
  exactly 2 ((if foldCase then "string-ci" else "string") ++ r.mark) (.string (.compare r foldCase))

theorem compares_mem_table (r : Relation) (foldCase : Bool) :
    comparesCharacters r foldCase ∈ table ∧ comparesStrings r foldCase ∈ table := by
  revert foldCase
  cases r <;> decide +kernel

/-- The primitive answers at once, and changes nothing. -/
def Answers (p : Primitive) (arguments : List Value) (w : World) (v : Value) : Prop :=
  ∀ stack, State.step ⟨.apply (.primitive p) arguments, stack, w⟩ = .next ⟨.resume v, stack, w⟩

/-- The predicate holds of the characters, in every world. -/
def HoldsOf (p : Primitive) (a b : Char) : Prop :=
  ∀ w, p.Answers [.character a, .character b] w (.boolean true)

/-- What the predicates for characters compare. -/
def characterKey (foldCase : Bool) : Char → Char :=
  if foldCase then Text.lower else id

/-- What the predicates for strings compare. -/
def stringKey (foldCase : Bool) : Char → Char :=
  if foldCase then Text.upper else id

theorem comparesCharacters_answers (r : Relation) (foldCase : Bool) (a b : Char) (w : World) :
    (comparesCharacters r foldCase).Answers [.character a, .character b] w
      (.boolean (r.admits (compare (characterKey foldCase a) (characterKey foldCase b)))) :=
  fun _ => rfl

theorem comparesStrings_answers (r : Relation) (foldCase : Bool) (s t : Ref .string) (w : World) :
    (comparesStrings r foldCase).Answers [.string s, .string t] w
      (.boolean (r.admits (lexicographic ((w.heap.string s).toList.map (stringKey foldCase))
        ((w.heap.string t).toList.map (stringKey foldCase))))) := by
  intro stack
  cases foldCase with
  | true => rfl
  | false =>
      simp only [stringKey, Bool.false_eq_true, if_false, List.map_id]
      rfl

theorem Answers.unique {p : Primitive} {arguments : List Value} {w : World} {v v' : Value}
    (h : p.Answers arguments w v) (h' : p.Answers arguments w v') : v = v' := by
  have heq := (h []).symm.trans (h' [])
  injection heq with heq
  injection heq with heq
  injection heq

theorem holdsOf_iff (r : Relation) (foldCase : Bool) (a b : Char) :
    (comparesCharacters r foldCase).HoldsOf a b ↔
      r.admits (compare (characterKey foldCase a) (characterKey foldCase b)) = true := by
  constructor
  · intro h
    have heq := (h (World.bare World.nowhere)).unique (comparesCharacters_answers r foldCase a b _)
    injection heq with heq
    exact heq.symm
  · intro h w
    rw [← h]
    exact comparesCharacters_answers r foldCase a b w

/-- The orders of characters that the predicates decide. -/
theorem holdsOf_order (foldCase : Bool) :
    (comparesCharacters .lt foldCase).HoldsOf =
        (fun a b => compare (characterKey foldCase a) (characterKey foldCase b) = .lt) ∧
      (comparesCharacters .eq foldCase).HoldsOf =
        fun a b => compare (characterKey foldCase a) (characterKey foldCase b) = .eq := by
  constructor
  · funext a b
    rw [holdsOf_iff, Relation.admits, beq_iff_eq]
  · funext a b
    rw [holdsOf_iff, Relation.admits, beq_iff_eq]

/-- The relation holds of the texts in the lexicographic extension of the order of characters
that `char<?` and `char=?` decide, or `char-ci<?` and `char-ci=?`. -/
def ExtendsCharacters (r : Relation) (foldCase : Bool) (as bs : List Char) : Prop :=
  r.InLists (comparesCharacters .lt foldCase).HoldsOf (comparesCharacters .eq foldCase).HoldsOf as bs

theorem extendsCharacters_iff (r : Relation) (foldCase : Bool) (as bs : List Char) :
    r.admits (lexicographic (as.map (characterKey foldCase)) (bs.map (characterKey foldCase))) =
      true ↔ ExtendsCharacters r foldCase as bs := by
  obtain ⟨hlt, heq⟩ := holdsOf_order foldCase
  rw [ExtendsCharacters, hlt, heq]
  exact admits_lexicographic _ as bs r

/-- The predicates of the table for strings decide the lexicographic extension of the order of
characters: those that distinguish upper and lower case that of `char<?` and `char=?`; the others
that of the same order of upper-case characters, which is the one of `char-ci<?` and `char-ci=?`
where upper and lower case come in the same order, as they do in ASCII but for six characters. On
strings of one character they agree with the predicates for characters, the others again where upper
and lower case come in the same order. -/
theorem strings_compare_lexicographically (r : Relation) (s t : Ref .string) (w : World)
    (as bs : List Char) (hs : (w.heap.string s).toList = as) (ht : (w.heap.string t).toList = bs) :
    (∀ foldCase, comparesCharacters r foldCase ∈ table ∧ comparesStrings r foldCase ∈ table) ∧
    (∃ answer, (comparesStrings r false).Answers [.string s, .string t] w (.boolean answer) ∧
      (answer = true ↔ ExtendsCharacters r false as bs) ∧
      ∀ a b, as = [a] → bs = [b] →
        (comparesCharacters r false).Answers [.character a, .character b] w (.boolean answer)) ∧
    (∃ answer, (comparesStrings r true).Answers [.string s, .string t] w (.boolean answer) ∧
      (answer = true ↔ ExtendsCharacters r false (as.map Text.upper) (bs.map Text.upper)) ∧
      ((∀ a ∈ as, ∀ b ∈ bs, Text.SameOrder a b) →
        (answer = true ↔ ExtendsCharacters r true as bs) ∧
        ∀ a b, as = [a] → bs = [b] →
          (comparesCharacters r true).Answers [.character a, .character b] w (.boolean answer))) ∧
    ∀ a b, Text.IsPlain a → Text.IsPlain b → Text.SameOrder a b := by
  have hone : ∀ a b : Char, lexicographic [a] [b] = compare a b := fun a b => by
    rw [lexicographic, lexicographic]
    cases compare a b <;> rfl
  refine ⟨compares_mem_table r, ⟨_, comparesStrings_answers r false s t w, ?_, ?_⟩,
    ⟨_, comparesStrings_answers r true s t w, ?_, fun hsame => ?_⟩, fun _ _ => Text.IsPlain.sameOrder⟩
  · rw [hs, ht]
    exact extendsCharacters_iff r false as bs
  · rintro a b rfl rfl
    rw [hs, ht, List.map_singleton, List.map_singleton, hone]
    exact comparesCharacters_answers r false a b w
  · rw [hs, ht, ← extendsCharacters_iff]
    simp only [characterKey, stringKey, Bool.false_eq_true, if_false, if_true, List.map_id]
  · have hkeys : lexicographic (as.map Text.lower) (bs.map Text.lower) =
        lexicographic (as.map Text.upper) (bs.map Text.upper) := lexicographic_congr _ as bs hsame
    rw [hs, ht]
    refine ⟨?_, ?_⟩
    · rw [← extendsCharacters_iff]
      simp only [characterKey, stringKey, if_true, hkeys]
    · rintro a b rfl rfl
      rw [List.map_singleton, List.map_singleton, hone]
      have horder : compare (Text.lower a) (Text.lower b) = compare (Text.upper a) (Text.upper b) :=
        hsame a (List.mem_singleton_self a) b (List.mem_singleton_self b)
      simp only [stringKey, if_true, ← horder]
      exact comparesCharacters_answers r true a b w

/-- A world with two strings. -/
def holding (s t : String) : World :=
  { World.bare World.nowhere with heap := { strings := #[s.toList.toArray, t.toList.toArray] } }

/-- Whatever their case, `a` comes before `B`. -/
theorem strings_compare_mixed_case : comparesStrings .lt true ∈ table ∧
    (comparesStrings .lt true).Answers [.string ⟨0⟩, .string ⟨1⟩] (holding "ax" "B")
      (.boolean true) := by
  have hplain : ∀ a ∈ ['a', 'x'], ∀ b ∈ ['B'], Text.SameOrder a b := by
    simp only [List.forall_mem_cons, List.not_mem_nil, false_imp_iff, implies_true, and_true]
    decide
  obtain ⟨hentries, -, ⟨answer, hanswers, -, hsame⟩, -⟩ :=
    strings_compare_lexicographically .lt ⟨0⟩ ⟨1⟩ (holding "ax" "B") ['a', 'x'] ['B'] rfl rfl
  have hfirst : (comparesCharacters .lt true).HoldsOf 'a' 'B' := (holdsOf_iff _ _ _ _).2 (by decide)
  rw [(hsame hplain).1.2 (.first _ _ hfirst)] at hanswers
  exact ⟨(hentries true).2, hanswers⟩

/-- The underscore comes after the upper case of `a`, and before its lower case. -/
theorem strings_compare_underscore :
    (comparesStrings .lt true).Answers [.string ⟨0⟩, .string ⟨1⟩] (holding "a" "_")
      (.boolean true) ∧ ¬ ExtendsCharacters .lt true ['a'] ['_'] := by
  refine ⟨comparesStrings_answers .lt true ⟨0⟩ ⟨1⟩ (holding "a" "_"), ?_⟩
  rw [← extendsCharacters_iff]
  decide

end Primitive

end Scheme
