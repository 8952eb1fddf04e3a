import Mathlib
import Scheme.Proofs.Reachability
/-!
# Structural equality

Two values are structurally equal when some relation holds between them that, wherever it holds,
finds two pairs with related fields, two vectors with related elements, two strings of the same
characters, or two values that are the same object. On cyclic structure this is equality of the
infinite trees that the values unfold to.

The comparison keeps a store of pairs of values to be compared and a record of the containers it
has compared, and takes the pairs of values in some order. Whatever the order is, it ends, and its
answer is structural equality. `Heap.equal` is one such comparison.
-/

namespace Scheme

namespace Heap

/-- The values agree as far as one level shows, and what they contain is related. -/
def Matches (h : Heap) (R : Value → Value → Prop) : Value → Value → Prop
  | .pair a, .pair b =>
    a = b ∨ R (h.pair a).first (h.pair b).first ∧ R (h.pair a).rest (h.pair b).rest
  | .vector a, .vector b => a = b ∨ List.Forall₂ R (h.vector a).toList (h.vector b).toList
  | .string a, .string b => h.string a = h.string b
  | a, b => a.eqv b = true

/-- The values are related by a relation between values that match. -/
def Bisimilar (h : Heap) (a b : Value) : Prop :=
  ∃ R : Value → Value → Prop, (∀ x y, R x y → h.Matches R x y) ∧ R a b

/-! ## The comparison -/

/-- A comparison under way: the containers that have been compared, and the values waiting. -/
structure Comparison where
  seen : Finset (Value × Value)
  waiting : Multiset (Value × Value)

/-- The comparison of two values, before it begins. -/
def Comparison.start (a b : Value) : Comparison :=
  ⟨∅, {(a, b)}⟩

/-- The values to be compared in place of two values, or `none` if these differ. -/
def questions? (h : Heap) (seen : Finset (Value × Value)) :
    Value → Value → Option (List (Value × Value))
  | .pair a, .pair b =>
    if a = b ∨ (.pair a, .pair b) ∈ seen then some []
    else some [((h.pair a).first, (h.pair b).first), ((h.pair a).rest, (h.pair b).rest)]
  | .vector a, .vector b =>
    if a = b ∨ (.vector a, .vector b) ∈ seen then some []
    else if (h.vector a).size = (h.vector b).size then
      some ((h.vector a).toList.zip (h.vector b).toList)
    else none
  | .string a, .string b => if h.string a = h.string b then some [] else none
  | a, b => if a.eqv b then some [] else none

/-- Two different pairs and two different vectors are kept in mind. -/
def noted (seen : Finset (Value × Value)) : Value → Value → Finset (Value × Value)
  | .pair a, .pair b => if a = b then seen else insert (.pair a, .pair b) seen
  | .vector a, .vector b => if a = b then seen else insert (.vector a, .vector b) seen
  | _, _ => seen

/-- A round of the comparison takes any of the values waiting. -/
inductive Round (h : Heap) : Comparison → Comparison → Prop where
  | intro {seen : Finset (Value × Value)} {a b : Value} {waiting : Multiset (Value × Value)}
      {new : List (Value × Value)} (hnew : h.questions? seen a b = some new) :
      Round h ⟨seen, (a, b) ::ₘ waiting⟩ ⟨noted seen a b, ↑new + waiting⟩

/-- What a comparison answers: true when nothing waits, and false on values that differ. -/
def Comparison.Answers (h : Heap) (c : Comparison) : Bool → Prop
  | true => c.waiting = 0
  | false => ∃ a b, (a, b) ∈ c.waiting ∧ h.questions? c.seen a b = none

/-- The comparison can come to the answer. -/
def Comparison.Gives (h : Heap) (c : Comparison) (answer : Bool) : Prop :=
  ∃ last, Relation.ReflTransGen h.Round c last ∧ last.Answers h answer

variable {h : Heap}

theorem Matches.mono {R S : Value → Value → Prop} (hRS : ∀ x y, R x y → S x y) {a b : Value}
    (hab : h.Matches R a b) : h.Matches S a b := by
  unfold Matches at hab ⊢
  split at hab
  · exact hab.imp_right (And.imp (hRS _ _) (hRS _ _))
  · exact hab.imp_right (List.Forall₂.imp hRS)
  · exact hab
  · exact hab

theorem Bisimilar.matches {a b : Value} (hab : h.Bisimilar a b) : h.Matches h.Bisimilar a b := by
  obtain ⟨R, hR, hab⟩ := hab
  exact (hR a b hab).mono fun x y hxy => ⟨R, hR, hxy⟩

/-! ## What a round does -/

/-- The pairs of containers of one kind that are there. -/
def comparable (h : Heap) : Finset (Value × Value) :=
  (Finset.range h.pairs.size ×ˢ Finset.range h.pairs.size).image
      (fun x => (.pair ⟨x.1⟩, .pair ⟨x.2⟩)) ∪
    (Finset.range h.vectors.size ×ˢ Finset.range h.vectors.size).image
      (fun x => (.vector ⟨x.1⟩, .vector ⟨x.2⟩))

theorem card_comparable_le (h : Heap) : h.comparable.card ≤ h.comparisons := by
  refine (Finset.card_union_le _ _).trans (Nat.add_le_add ?_ ?_)
  · exact Finset.card_image_le.trans (by simp)
  · exact Finset.card_image_le.trans (by simp)

theorem mem_comparable_pair {a b : Ref .pair} (ha : h.Has (.pair a)) (hb : h.Has (.pair b)) :
    (.pair a, .pair b) ∈ h.comparable := by
  refine Finset.mem_union_left _ (Finset.mem_image.2 ⟨(a.index, b.index), ?_, rfl⟩)
  exact Finset.mem_product.2 ⟨Finset.mem_range.2 ha, Finset.mem_range.2 hb⟩

theorem mem_comparable_vector {a b : Ref .vector} (ha : h.Has (.vector a))
    (hb : h.Has (.vector b)) : (.vector a, .vector b) ∈ h.comparable := by
  refine Finset.mem_union_right _ (Finset.mem_image.2 ⟨(a.index, b.index), ?_, rfl⟩)
  exact Finset.mem_product.2 ⟨Finset.mem_range.2 ha, Finset.mem_range.2 hb⟩

/-- A question that is skipped is noted nowhere. -/
theorem insert_unless_skipped {c : Prop} [Decidable c] {x : Value × Value}
    {seen : Finset (Value × Value)} (hskip : c ∨ x ∈ seen) :
    (if c then seen else insert x seen) = seen := by
  split_ifs with hc
  · rfl
  · exact Finset.insert_eq_of_mem (hskip.resolve_left hc)

/-- What a round can do: drop two values that match, or that have been compared before, or keep two
containers in mind and ask about what they contain. -/
theorem questions_cases {seen : Finset (Value × Value)} {a b : Value} {new : List (Value × Value)}
    (hnew : h.questions? seen a b = some new) :
    (new = [] ∧ noted seen a b = seen ∧ ((a, b) ∈ seen ∨ h.Matches (fun _ _ => False) a b)) ∨
      ((a, b) ∉ seen ∧ noted seen a b = insert (a, b) seen ∧
        (h.Has a → h.Has b → (a, b) ∈ h.comparable) ∧
        (∀ x ∈ new, h.Contains a x.1 ∧ h.Contains b x.2) ∧
        ∀ R : Value → Value → Prop, (∀ x ∈ new, R x.1 x.2) → h.Matches R a b) := by
  unfold questions? at hnew
  split at hnew
  case h_1 a b =>
    split at hnew
    · rename_i hskip
      exact Or.inl ⟨by simpa using hnew.symm, insert_unless_skipped hskip,
        hskip.symm.imp_right Or.inl⟩
    · rename_i hfresh
      rw [Option.some.injEq] at hnew
      subst hnew
      refine Or.inr ⟨fun hseen => hfresh (Or.inr hseen), if_neg fun heq => hfresh (Or.inl heq),
        mem_comparable_pair, ?_, ?_⟩
      · simpa using ⟨⟨.first a, .first b⟩, .rest a, .rest b⟩
      · intro R hR
        exact Or.inr (by simpa using hR)
  case h_2 a b =>
    split at hnew
    · rename_i hskip
      exact Or.inl ⟨by simpa using hnew.symm, insert_unless_skipped hskip,
        hskip.symm.imp_right Or.inl⟩
    · rename_i hfresh
      split at hnew
      · rename_i hsize
        rw [Option.some.injEq] at hnew
        subst hnew
        refine Or.inr ⟨fun hseen => hfresh (Or.inr hseen), if_neg fun heq => hfresh (Or.inl heq),
          mem_comparable_vector, ?_, ?_⟩
        · intro x hx
          obtain ⟨ha, hb⟩ := List.of_mem_zip hx
          exact ⟨.element (Array.mem_toList_iff.1 ha), .element (Array.mem_toList_iff.1 hb)⟩
        · intro R hR
          exact Or.inr (List.forall₂_iff_zip.2 ⟨by simpa using hsize, fun hx => hR _ hx⟩)
      · simp at hnew
  case h_3 a b =>
    split at hnew
    · exact Or.inl ⟨by simpa using hnew.symm, rfl, Or.inr ‹_›⟩
    · simp at hnew
  case h_4 a b hpairs hvectors hstrings =>
    split at hnew
    · rename_i heqv
      refine Or.inl ⟨by simpa using hnew.symm, ?_, Or.inr ?_⟩
      · unfold noted
        split
        · exact (hpairs _ _ rfl rfl).elim
        · exact (hvectors _ _ rfl rfl).elim
        · rfl
      · unfold Matches
        split
        · exact (hpairs _ _ rfl rfl).elim
        · exact (hvectors _ _ rfl rfl).elim
        · exact (hstrings _ _ rfl rfl).elim
        · exact heqv
    · simp at hnew

/-! ## An answer is right -/

/-- Values that match are not found to differ, and what they raise is related. -/
theorem Matches.questions {R : Value → Value → Prop} {a b : Value} (hab : h.Matches R a b)
    (seen : Finset (Value × Value)) :
    ∃ new, h.questions? seen a b = some new ∧ ∀ x ∈ new, R x.1 x.2 := by
  unfold Matches at hab
  unfold questions?
  split at hab
  · split
    · exact ⟨[], rfl, by simp⟩
    · rename_i hne
      obtain ⟨hfirst, hrest⟩ := hab.resolve_left fun heq => hne (Or.inl heq)
      exact ⟨_, rfl, by simp [hfirst, hrest]⟩
  · split
    · exact ⟨[], rfl, by simp⟩
    · rename_i hne
      have hall := hab.resolve_left fun heq => hne (Or.inl heq)
      obtain ⟨hlength, hzip⟩ := List.forall₂_iff_zip.1 hall
      rw [if_pos (by simpa using hlength)]
      exact ⟨_, rfl, fun x hx => hzip hx⟩
  · rw [if_pos hab]
    exact ⟨[], rfl, by simp⟩
  · rw [if_pos hab]
    exact ⟨[], rfl, by simp⟩

/-- Values that have been compared, that wait, or that match on the face of it. -/
def Comparison.Relates (h : Heap) (c : Comparison) (a b : Value) : Prop :=
  (a, b) ∈ c.seen ∨ (a, b) ∈ c.waiting ∨ h.Matches (fun _ _ => False) a b

/-- What has been compared matches, given what waits. -/
def Comparison.Sound (h : Heap) (c : Comparison) : Prop :=
  ∀ a b, (a, b) ∈ c.seen → h.Matches (c.Relates h) a b

theorem Round.relates {c d : Comparison} (hround : h.Round c d) {a b : Value}
    (hab : c.Relates h a b) : d.Relates h a b := by
  obtain @⟨seen, x, y, waiting, new, hnew⟩ := hround
  have hkept : seen ⊆ noted seen x y ∧
      ((x, y) ∈ noted seen x y ∨ h.Matches (fun _ _ => False) x y) := by
    rcases questions_cases hnew with ⟨-, hnoted, hdropped⟩ | ⟨-, hnoted, -⟩
    · rw [hnoted]
      exact ⟨Finset.Subset.refl _, hdropped⟩
    · rw [hnoted]
      exact ⟨Finset.subset_insert _ _, Or.inl (Finset.mem_insert_self _ _)⟩
  rcases hab with hseen | hwaiting | hmatches
  · exact Or.inl (hkept.1 hseen)
  · rcases Multiset.mem_cons.1 hwaiting with heq | hwaiting
    · cases heq
      exact hkept.2.imp_right Or.inr
    · exact Or.inr (Or.inl (Multiset.mem_add.2 (Or.inr hwaiting)))
  · exact Or.inr (Or.inr hmatches)

theorem Round.sound {c d : Comparison} (hround : h.Round c d) (hsound : c.Sound h) :
    d.Sound h := by
  have hrelates := fun x y => hround.relates (a := x) (b := y)
  obtain @⟨seen, x, y, waiting, new, hnew⟩ := hround
  intro a b hab
  rcases questions_cases hnew with ⟨-, hnoted, -⟩ | ⟨-, hnoted, -, -, hmatches⟩
  · exact (hsound a b (hnoted ▸ hab)).mono hrelates
  · rcases Finset.mem_insert.1 (hnoted ▸ hab) with heq | hold
    · cases heq
      exact hmatches _ fun p hp => Or.inr (Or.inl (Multiset.mem_add.2 (Or.inl hp)))
    · exact (hsound a b hold).mono hrelates

/-- A comparison in which nothing waits any more has found a relation between all it was asked
about. -/
theorem Comparison.bisimilar {c last : Comparison}
    (hrun : Relation.ReflTransGen h.Round c last) (hdone : last.waiting = 0) (hsound : c.Sound h)
    {a b : Value} (hab : c.Relates h a b) : h.Bisimilar a b := by
  induction hrun using Relation.ReflTransGen.head_induction_on with
  | refl =>
      refine ⟨last.Relates h, ?_, hab⟩
      rintro x y (hseen | hwaiting | hmatches)
      · exact hsound x y hseen
      · simp [hdone] at hwaiting
      · exact hmatches.mono fun _ _ => False.elim
  | head hround _ ih => exact ih (hround.sound hsound) (hround.relates hab)

/-- Between structurally equal values a comparison only meets structurally equal values. -/
theorem Comparison.bisimilar_of_mem_waiting {c last : Comparison}
    (hrun : Relation.ReflTransGen h.Round c last)
    (hall : ∀ a b, (a, b) ∈ c.waiting → h.Bisimilar a b) :
    ∀ a b, (a, b) ∈ last.waiting → h.Bisimilar a b := by
  induction hrun with
  | refl => exact hall
  | tail _ hround ih =>
      obtain @⟨seen, x, y, waiting, new, hnew⟩ := hround
      obtain ⟨new', hnew', hrelated⟩ :=
        (ih x y (Multiset.mem_cons_self _ _)).matches.questions seen
      rw [hnew, Option.some.injEq] at hnew'
      subst hnew'
      intro a b hab
      rcases Multiset.mem_add.1 hab with hab | hab
      · exact hrelated (a, b) hab
      · exact ih a b (Multiset.mem_cons_of_mem hab)

/-- Whatever order the values are taken in, an answer tells whether they are structurally
equal. -/
theorem Comparison.Gives.iff_bisimilar {a b : Value} {answer : Bool}
    (hgives : (Comparison.start a b).Gives h answer) : answer = true ↔ h.Bisimilar a b := by
  obtain ⟨last, hrun, hanswer⟩ := hgives
  have hsound : (Comparison.start a b).Sound h := fun x y hxy => by simp [start] at hxy
  have hstart : (Comparison.start a b).Relates h a b :=
    Or.inr (Or.inl (Multiset.mem_singleton_self _))
  cases answer with
  | true => exact iff_of_true rfl (bisimilar hrun hanswer hsound hstart)
  | false =>
      refine iff_of_false Bool.false_ne_true fun hab => ?_
      obtain ⟨x, y, hxy, hdiffer⟩ := hanswer
      have hxy := bisimilar_of_mem_waiting hrun (by
        intro x y hxy
        cases Multiset.mem_singleton.1 hxy
        exact hab) x y hxy
      obtain ⟨new, hnew, -⟩ := hxy.matches.questions last.seen
      rw [hdiffer] at hnew
      cases hnew

/-! ## Every comparison ends -/

/-- A comparison of values that are there. -/
structure Comparison.Within (h : Heap) (c : Comparison) : Prop where
  seen : c.seen ⊆ h.comparable
  waiting : ∀ a b, (a, b) ∈ c.waiting → h.Has a ∧ h.Has b

theorem Comparison.within_start {a b : Value} (ha : h.Has a) (hb : h.Has b) :
    (start a b).Within h where
  seen := Finset.empty_subset _
  waiting x y hxy := by
    cases Multiset.mem_singleton.1 hxy
    exact ⟨ha, hb⟩

theorem Round.within {c d : Comparison} (hround : h.Round c d) (hc : h.Closed)
    (hwithin : c.Within h) : d.Within h := by
  obtain @⟨seen, x, y, waiting, new, hnew⟩ := hround
  have hxy := hwithin.waiting x y (Multiset.mem_cons_self _ _)
  have hwaiting := fun a b hab => hwithin.waiting a b (Multiset.mem_cons_of_mem hab)
  rcases questions_cases hnew with ⟨rfl, hnoted, -⟩ | ⟨-, hnoted, hcomparable, hcontains, -⟩
  · refine ⟨?_, ?_⟩
    · simpa only [hnoted] using hwithin.seen
    · simpa using hwaiting
  · refine ⟨?_, ?_⟩
    · simp only [hnoted]
      exact Finset.insert_subset (hcomparable hxy.1 hxy.2) hwithin.seen
    · intro a b hab
      rcases Multiset.mem_add.1 hab with hab | hab
      · obtain ⟨ha, hb⟩ := hcontains (a, b) hab
        exact ⟨hc.has_contained ha, hc.has_contained hb⟩
      · exact hwaiting a b hab

/-- A round that asks about new values leaves fewer containers to compare, and any other leaves
fewer values waiting. -/
theorem Round.decreases {c d : Comparison} (hround : h.Round c d) (hwithin : c.Within h) :
    Prod.Lex (· < ·) (· < ·) ((h.comparable \ d.seen).card, d.waiting.card)
      ((h.comparable \ c.seen).card, c.waiting.card) := by
  obtain @⟨seen, x, y, waiting, new, hnew⟩ := hround
  rcases questions_cases hnew with ⟨rfl, hnoted, -⟩ | ⟨hfresh, hnoted, hcomparable, -⟩
  · simp only [hnoted]
    exact Prod.Lex.right _ (by simp)
  · simp only [hnoted]
    obtain ⟨hx, hy⟩ := hwithin.waiting x y (Multiset.mem_cons_self _ _)
    refine Prod.Lex.left _ _ (Finset.card_lt_card ?_)
    refine Finset.ssubset_iff_of_subset ?_ |>.2 ⟨(x, y), ?_, ?_⟩
    · exact Finset.sdiff_subset_sdiff (Finset.Subset.refl _) (Finset.subset_insert _ _)
    · exact Finset.mem_sdiff.2 ⟨hcomparable hx hy, hfresh⟩
    · simp

/-- No comparison goes on for ever, in whatever order the values are taken. -/
theorem Comparison.Within.ends (hc : h.Closed) {c : Comparison} (hwithin : c.Within h) :
    Acc (fun d c => h.Round c d) c := by
  constructor
  intro d hround
  exact Within.ends hc (hround.within hc hwithin)
termination_by ((h.comparable \ c.seen).card, c.waiting.card)
decreasing_by exact hround.decreases hwithin

/-- A comparison without an answer goes on. -/
theorem Comparison.exists_round_or_answers (h : Heap) (c : Comparison) :
    (∃ d, h.Round c d) ∨ ∃ answer, c.Answers h answer := by
  obtain ⟨seen, waiting⟩ := c
  rcases waiting.empty_or_exists_mem with rfl | ⟨⟨a, b⟩, hab⟩
  · exact Or.inr ⟨true, rfl⟩
  · cases hnew : h.questions? seen a b with
    | none => exact Or.inr ⟨false, a, b, hab, hnew⟩
    | some new =>
        obtain ⟨others, rfl⟩ := Multiset.exists_cons_of_mem hab
        exact Or.inl ⟨_, .intro hnew⟩

/-! ## The comparison of the heap -/

theorem Met.contains_insert_iff {met : Met} {x y : Nat × Nat} :
    (met.insert x).contains y = true ↔ x = y ∨ met.contains y = true := by
  rw [Std.TreeSet.contains_insert, Bool.or_eq_true, beq_iff_eq, compareLex_eq_eq]
  simp only [compareOn, Nat.compare_eq_eq, Prod.ext_iff]

/-- The keys met are those of the containers seen. -/
def Met.Records (met : Met) (seen : Finset (Value × Value)) : Prop :=
  ∀ a b k l, containerKey? a = some k → containerKey? b = some l →
    (met.contains (k, l) = true ↔ (a, b) ∈ seen)

theorem Met.records_empty : Met.Records {} ∅ := by
  intro a b k l _ _
  simp

theorem Met.Records.insert {met : Met} {seen : Finset (Value × Value)} (hrecords : met.Records seen)
    {a b : Value} {k l : Nat} (ha : containerKey? a = some k) (hb : containerKey? b = some l) :
    Met.Records (met.insert (k, l)) (insert (a, b) seen) := by
  intro x y i j hx hy
  rw [Met.contains_insert_iff, Finset.mem_insert, hrecords x y i j hx hy]
  refine or_congr_left ⟨fun heq => ?_, fun heq => ?_⟩
  · cases heq
    rw [containerKey?_inj hx ha, containerKey?_inj hy hb]
  · cases heq
    rw [Option.some.inj (ha.symm.trans hx), Option.some.inj (hb.symm.trans hy)]

/-- A comparison gives what it gives after a round. -/
theorem Comparison.Within.gives (hc : h.Closed) {c d : Comparison} {answer : Bool}
    (hwithin : c.Within h) (hround : h.Round c d) (hgives : d.Within h → d.Gives h answer) :
    c.Gives h answer := by
  obtain ⟨last, hrun, hanswer⟩ := hgives (hround.within hc hwithin)
  exact ⟨last, .head hround hrun, hanswer⟩

theorem Comparison.gives_false {seen : Finset (Value × Value)} {a b : Value}
    {waiting : List (Value × Value)} (hdiffer : h.questions? seen a b = none) :
    Comparison.Gives h ⟨seen, ↑((a, b) :: waiting)⟩ false :=
  ⟨_, .refl, a, b, by simp, hdiffer⟩

section Rounds

variable {seen : Finset (Value × Value)} {waiting : List (Value × Value)}

theorem round_cons {seen' : Finset (Value × Value)} {a b : Value} {new : List (Value × Value)}
    (hnew : h.questions? seen a b = some new) (hnoted : noted seen a b = seen') :
    h.Round ⟨seen, ↑((a, b) :: waiting)⟩ ⟨seen', ↑(new ++ waiting)⟩ := by
  subst hnoted
  rw [← Multiset.cons_coe, ← Multiset.coe_add]
  exact .intro hnew

theorem round_pair_skip {a b : Ref .pair} (hskip : a = b ∨ (.pair a, .pair b) ∈ seen) :
    h.Round ⟨seen, ↑((.pair a, .pair b) :: waiting)⟩ ⟨seen, ↑waiting⟩ := by
  have hnew : h.questions? seen (.pair a) (.pair b) = some [] := if_pos hskip
  refine round_cons hnew ?_
  by_cases heq : a = b
  · exact if_pos heq
  · exact (if_neg heq).trans (Finset.insert_eq_of_mem (hskip.resolve_left heq))

theorem round_pair {a b : Ref .pair} (hfresh : ¬(a = b ∨ (.pair a, .pair b) ∈ seen)) :
    h.Round ⟨seen, ↑((.pair a, .pair b) :: waiting)⟩
      ⟨insert (.pair a, .pair b) seen, ↑(((h.pair a).first, (h.pair b).first) ::
        ((h.pair a).rest, (h.pair b).rest) :: waiting)⟩ := by
  have hnew : h.questions? seen (.pair a) (.pair b) =
      some [((h.pair a).first, (h.pair b).first), ((h.pair a).rest, (h.pair b).rest)] :=
    if_neg hfresh
  exact round_cons hnew (if_neg fun heq => hfresh (Or.inl heq))

theorem round_vector_skip {a b : Ref .vector} (hskip : a = b ∨ (.vector a, .vector b) ∈ seen) :
    h.Round ⟨seen, ↑((.vector a, .vector b) :: waiting)⟩ ⟨seen, ↑waiting⟩ := by
  have hnew : h.questions? seen (.vector a) (.vector b) = some [] := if_pos hskip
  refine round_cons hnew ?_
  by_cases heq : a = b
  · exact if_pos heq
  · exact (if_neg heq).trans (Finset.insert_eq_of_mem (hskip.resolve_left heq))

theorem round_vector {a b : Ref .vector} (hfresh : ¬(a = b ∨ (.vector a, .vector b) ∈ seen))
    (hsize : (h.vector a).size = (h.vector b).size) :
    h.Round ⟨seen, ↑((.vector a, .vector b) :: waiting)⟩
      ⟨insert (.vector a, .vector b) seen,
        ↑((h.vector a).toList.zip (h.vector b).toList ++ waiting)⟩ := by
  have hnew : h.questions? seen (.vector a) (.vector b) =
      some ((h.vector a).toList.zip (h.vector b).toList) :=
    (if_neg hfresh).trans (if_pos hsize)
  exact round_cons hnew (if_neg fun heq => hfresh (Or.inl heq))

theorem questions_atom {a b : Value} (hpairs : ∀ x y, a = .pair x → b = .pair y → False)
    (hvectors : ∀ x y, a = .vector x → b = .vector y → False)
    (hstrings : ∀ x y, a = .string x → b = .string y → False) :
    h.questions? seen a b = (if a.eqv b then some [] else none) ∧ noted seen a b = seen := by
  constructor
  · unfold questions?
    split
    · exact (hpairs _ _ rfl rfl).elim
    · exact (hvectors _ _ rfl rfl).elim
    · exact (hstrings _ _ rfl rfl).elim
    · rfl
  · unfold noted
    split
    · exact (hpairs _ _ rfl rfl).elim
    · exact (hvectors _ _ rfl rfl).elim
    · rfl

end Rounds

/-- Containers that are there and have not been seen are paid for. -/
theorem Comparison.Within.pos {c : Comparison} (hwithin : c.Within h) {budget : Nat}
    (hbudget : h.comparisons ≤ c.seen.card + budget) {a b : Value}
    (hab : (a, b) ∈ h.comparable) (hfresh : (a, b) ∉ c.seen) : 0 < budget := by
  have hle := Finset.card_le_card (Finset.insert_subset hab hwithin.seen)
  rw [Finset.card_insert_of_notMem hfresh] at hle
  have := h.card_comparable_le
  omega

/-- The budget lasts, and the answer is that of a comparison. -/
theorem gives_equalAll (hc : h.Closed) (budget : Nat) (met : Met)
    (waiting : List (Value × Value)) :
    ∀ seen, met.Records seen → Comparison.Within h ⟨seen, ↑waiting⟩ →
      h.comparisons ≤ seen.card + budget →
      Comparison.Gives h ⟨seen, ↑waiting⟩ (h.equalAll budget met waiting) := by
  fun_induction equalAll h budget met waiting with
  | case1 => exact fun _ _ _ _ => ⟨_, .refl, rfl⟩
  | case2 budget met a b waiting key hskip ih =>
      intro seen hrecords hwithin hbudget
      rw [hrecords (.pair a) (.pair b) _ _ rfl rfl] at hskip
      refine hwithin.gives hc (round_pair_skip hskip) fun hnext => ?_
      exact ih seen hrecords hnext hbudget
  | case3 met a b waiting key hfresh =>
      intro seen hrecords hwithin hbudget
      rw [hrecords (.pair a) (.pair b) _ _ rfl rfl] at hfresh
      -- with a budget of zero all comparable pairs have been noted, and this one has not
      obtain ⟨ha, hb⟩ := hwithin.waiting (.pair a) (.pair b) (by simp)
      have := hwithin.pos hbudget (mem_comparable_pair ha hb) fun hseen => hfresh (Or.inr hseen)
      omega
  | case4 met a b waiting key hfresh budget p q ih =>
      intro seen hrecords hwithin hbudget
      rw [hrecords (.pair a) (.pair b) _ _ rfl rfl] at hfresh
      refine hwithin.gives hc (round_pair hfresh) fun hnext => ?_
      refine ih _ (hrecords.insert rfl rfl) hnext ?_
      rw [Finset.card_insert_of_notMem fun hseen => hfresh (Or.inr hseen)]
      omega
  | case5 budget met a b waiting key hskip ih =>
      intro seen hrecords hwithin hbudget
      rw [hrecords (.vector a) (.vector b) _ _ rfl rfl] at hskip
      refine hwithin.gives hc (round_vector_skip hskip) fun hnext => ?_
      exact ih seen hrecords hnext hbudget
  | case6 met a b waiting key hfresh =>
      intro seen hrecords hwithin hbudget
      rw [hrecords (.vector a) (.vector b) _ _ rfl rfl] at hfresh
      obtain ⟨ha, hb⟩ := hwithin.waiting (.vector a) (.vector b) (by simp)
      have := hwithin.pos hbudget (mem_comparable_vector ha hb) fun hseen => hfresh (Or.inr hseen)
      omega
  | case7 met a b waiting key hfresh budget xs ys hsize ih =>
      intro seen hrecords hwithin hbudget
      rw [hrecords (.vector a) (.vector b) _ _ rfl rfl] at hfresh
      refine hwithin.gives hc (round_vector hfresh hsize) fun hnext => ?_
      refine ih _ (hrecords.insert rfl rfl) hnext ?_
      rw [Finset.card_insert_of_notMem fun hseen => hfresh (Or.inr hseen)]
      omega
  | case8 met a b waiting key hfresh budget xs ys hsize =>
      intro seen hrecords hwithin hbudget
      rw [hrecords (.vector a) (.vector b) _ _ rfl rfl] at hfresh
      exact Comparison.gives_false ((if_neg hfresh).trans (if_neg hsize))
  | case9 budget met a b waiting heq ih =>
      intro seen hrecords hwithin hbudget
      have hnew : h.questions? seen (.string a) (.string b) = some [] := if_pos heq
      refine hwithin.gives hc (round_cons hnew rfl) fun hnext => ?_
      exact ih seen hrecords hnext hbudget
  | case10 budget met a b waiting hne => exact fun _ _ _ _ => Comparison.gives_false (if_neg hne)
  | case11 budget met a b waiting hpairs hvectors hstrings heqv ih =>
      intro seen hrecords hwithin hbudget
      obtain ⟨hnew, hnoted⟩ := questions_atom (h := h) hpairs hvectors hstrings
      refine hwithin.gives hc (round_cons (hnew.trans (if_pos heqv)) hnoted) fun hnext => ?_
      exact ih seen hrecords hnext hbudget
  | case12 budget met a b waiting hpairs hvectors hstrings hne =>
      intro seen _ _ _
      obtain ⟨hnew, -⟩ := questions_atom (h := h) hpairs hvectors hstrings
      exact Comparison.gives_false (hnew.trans (if_neg hne))

theorem gives_equal (hc : h.Closed) {a b : Value} (ha : h.Has a) (hb : h.Has b) :
    (Comparison.start a b).Gives h (h.equal a b) :=
  gives_equalAll hc _ _ [(a, b)] ∅ Met.records_empty (Comparison.within_start ha hb) (by simp)

theorem equal_iff_bisimilar (hc : h.Closed) {a b : Value} (ha : h.Has a) (hb : h.Has b) :
    h.equal a b = true ↔ h.Bisimilar a b :=
  (gives_equal hc ha hb).iff_bisimilar

end Heap

/-! ## The three kinds of sameness -/

namespace Value

/-- Numbers are the same when they are equal as numbers, and other values when they are one. -/
theorem eqv_iff {a b : Value} :
    a.eqv b = true ↔
      (∃ x y, a = .number x ∧ b = .number y ∧ (x.toFloat == y.toFloat) = true) ∨
        (a = b ∧ ∀ x, a ≠ .number x) := by
  unfold eqv
  split
  · simp
  · rename_i hnumbers
    rw [decide_eq_true_iff]
    constructor
    · rintro rfl
      exact Or.inr ⟨rfl, fun x hx => hnumbers x x hx hx⟩
    · rintro (⟨x, y, rfl, rfl, -⟩ | ⟨heq, -⟩)
      · exact (hnumbers x y rfl rfl).elim
      · exact heq

theorem eqv_symm {a b : Value} (hab : a.eqv b = true) : b.eqv a = true := by
  rw [eqv_iff] at hab ⊢
  rcases hab with ⟨x, y, rfl, rfl, hxy⟩ | ⟨rfl, hnumber⟩
  · refine Or.inl ⟨y, x, rfl, rfl, ?_⟩
    rw [Float.beq_iff_ne_nan_and_eq] at hxy ⊢
    grind
  · exact Or.inr ⟨rfl, hnumber⟩

theorem eqv_trans {a b c : Value} (hab : a.eqv b = true) (hbc : b.eqv c = true) :
    a.eqv c = true := by
  rw [eqv_iff] at hab hbc ⊢
  rcases hab with ⟨x, y, rfl, rfl, hxy⟩ | ⟨rfl, -⟩
  · rcases hbc with ⟨y', z, heq, rfl, hyz⟩ | ⟨-, hnumber⟩
    · cases heq
      refine Or.inl ⟨x, z, rfl, rfl, ?_⟩
      rw [Float.beq_iff_ne_nan_and_eq] at hxy hyz ⊢
      grind
    · exact absurd rfl (hnumber y)
  · exact hbc

/-- A value that is no NaN is the same as itself. -/
theorem eqv_self {a : Value} (ha : ∀ x : Flonum, a = .number x → x.isNaN = false) :
    a.eqv a = true := by
  rw [eqv_iff]
  by_cases hnumber : ∃ x, a = .number x
  · obtain ⟨x, rfl⟩ := hnumber
    refine Or.inl ⟨x, x, rfl, rfl, ?_⟩
    have hx := ha x rfl
    rw [Flonum.isNaN, Float.isNaN_eq_decide_eq_nan, decide_eq_false_iff_not] at hx
    exact Float.beq_self_iff.2 hx
  · exact Or.inr ⟨rfl, fun x hx => hnumber ⟨x, hx⟩⟩

end Value

namespace Heap

variable {h : Heap}

/-- Values match as pairs, as vectors, as strings or as the same object. -/
theorem matches_iff {R : Value → Value → Prop} {a b : Value} :
    h.Matches R a b ↔
      (∃ x y, a = .pair x ∧ b = .pair y ∧
        (x = y ∨ R (h.pair x).first (h.pair y).first ∧ R (h.pair x).rest (h.pair y).rest)) ∨
      (∃ x y, a = .vector x ∧ b = .vector y ∧
        (x = y ∨ List.Forall₂ R (h.vector x).toList (h.vector y).toList)) ∨
      (∃ x y, a = .string x ∧ b = .string y ∧ h.string x = h.string y) ∨
      a.eqv b = true := by
  unfold Matches
  split
  · simp [Value.eqv]
    exact Or.inl
  · simp [Value.eqv]
    exact Or.inl
  · simp [Value.eqv]
    rintro rfl
    rfl
  · rename_i hpairs hvectors hstrings
    constructor
    · exact fun heqv => Or.inr (Or.inr (Or.inr heqv))
    · rintro (⟨x, y, rfl, rfl, -⟩ | ⟨x, y, rfl, rfl, -⟩ | ⟨x, y, rfl, rfl, -⟩ | heqv)
      · exact (hpairs x y rfl rfl).elim
      · exact (hvectors x y rfl rfl).elim
      · exact (hstrings x y rfl rfl).elim
      · exact heqv

/-- Values that are the same object match, whatever is inside them. -/
theorem matches_of_eqv {R : Value → Value → Prop} {a b : Value} (hab : a.eqv b = true) :
    h.Matches R a b :=
  matches_iff.2 (Or.inr (Or.inr (Or.inr hab)))

theorem Matches.symm {R : Value → Value → Prop} {a b : Value} (hab : h.Matches R a b) :
    h.Matches (fun x y => R y x) b a := by
  rw [matches_iff] at hab ⊢
  rcases hab with ⟨x, y, rfl, rfl, hxy⟩ | ⟨x, y, rfl, rfl, hxy⟩ | ⟨x, y, rfl, rfl, hxy⟩ | heqv
  · exact Or.inl ⟨y, x, rfl, rfl, hxy.imp_left Eq.symm⟩
  · exact Or.inr (Or.inl ⟨y, x, rfl, rfl, hxy.imp Eq.symm List.Forall₂.flip⟩)
  · exact Or.inr (Or.inr (Or.inl ⟨y, x, rfl, rfl, hxy.symm⟩))
  · exact Or.inr (Or.inr (Or.inr (Value.eqv_symm heqv)))

/-- Related by either of two relations, or by one after the other. -/
def Joined (R S : Value → Value → Prop) (a c : Value) : Prop :=
  R a c ∨ S a c ∨ ∃ b, R a b ∧ S b c

theorem Matches.eqv_trans {S : Value → Value → Prop} {a b c : Value} (hab : a.eqv b = true)
    (hbc : h.Matches S b c) : h.Matches S a c := by
  rcases Value.eqv_iff.1 hab with ⟨x, y, rfl, rfl, -⟩ | ⟨rfl, -⟩
  · rw [matches_iff] at hbc
    rcases hbc with ⟨_, _, heq, -⟩ | ⟨_, _, heq, -⟩ | ⟨_, _, heq, -⟩ | heqv
    · cases heq
    · cases heq
    · cases heq
    · exact matches_of_eqv (Value.eqv_trans hab heqv)
  · exact hbc

theorem Matches.trans_eqv {R : Value → Value → Prop} {a b c : Value} (hab : h.Matches R a b)
    (hbc : b.eqv c = true) : h.Matches R a c :=
  (Matches.eqv_trans (Value.eqv_symm hbc) hab.symm).symm

theorem joined_forall₂ {R S : Value → Value → Prop} {as bs cs : List Value}
    (hab : List.Forall₂ R as bs) (hbc : List.Forall₂ S bs cs) :
    List.Forall₂ (Joined R S) as cs := by
  induction hab generalizing cs with
  | nil =>
      cases hbc
      exact .nil
  | cons hxy _ ih =>
      cases hbc with
      | cons hyz hbc => exact .cons (Or.inr (Or.inr ⟨_, hxy, hyz⟩)) (ih hbc)

theorem Matches.trans {R S : Value → Value → Prop} {a b c : Value} (hab : h.Matches R a b)
    (hbc : h.Matches S b c) : h.Matches (Joined R S) a c := by
  have hR : ∀ x y, R x y → Joined R S x y := fun _ _ => Or.inl
  have hS : ∀ x y, S x y → Joined R S x y := fun _ _ hxy => Or.inr (Or.inl hxy)
  rcases matches_iff.1 hbc with ⟨y, z, rfl, rfl, hyz⟩ | ⟨y, z, rfl, rfl, hyz⟩ |
    ⟨y, z, rfl, rfl, hyz⟩ | heqv
  · rcases matches_iff.1 hab with ⟨x, y, rfl, heq, hxy⟩ | ⟨_, _, _, heq, _⟩ | ⟨_, _, _, heq, _⟩ | heqv
    · cases heq
      rcases hxy with rfl | ⟨hfirst, hrest⟩
      · exact hbc.mono hS
      rcases hyz with rfl | ⟨hfirst', hrest'⟩
      · exact hab.mono hR
      exact Or.inr ⟨Or.inr (Or.inr ⟨_, hfirst, hfirst'⟩), Or.inr (Or.inr ⟨_, hrest, hrest'⟩)⟩
    · cases heq
    · cases heq
    · exact (Matches.eqv_trans heqv hbc).mono hS
  · rcases matches_iff.1 hab with ⟨_, _, _, heq, _⟩ | ⟨x, y, rfl, heq, hxy⟩ | ⟨_, _, _, heq, _⟩ | heqv
    · cases heq
    · cases heq
      rcases hxy with rfl | hxy
      · exact hbc.mono hS
      rcases hyz with rfl | hyz
      · exact hab.mono hR
      exact Or.inr (joined_forall₂ hxy hyz)
    · cases heq
    · exact (Matches.eqv_trans heqv hbc).mono hS
  · rcases matches_iff.1 hab with ⟨_, _, _, heq, _⟩ | ⟨_, _, _, heq, _⟩ | ⟨x, y, rfl, heq, hxy⟩ | heqv
    · cases heq
    · cases heq
    · cases heq
      exact hxy.trans hyz
    · exact (Matches.eqv_trans heqv hbc).mono hS
  · exact (hab.trans_eqv heqv).mono hR

theorem bisimilar_of_eqv {a b : Value} (hab : a.eqv b = true) : h.Bisimilar a b := by
  refine ⟨fun x y => x = a ∧ y = b, ?_, rfl, rfl⟩
  rintro x y ⟨rfl, rfl⟩
  exact matches_of_eqv hab

theorem Bisimilar.symm {a b : Value} (hab : h.Bisimilar a b) : h.Bisimilar b a := by
  obtain ⟨R, hR, hab⟩ := hab
  exact ⟨fun x y => R y x, fun x y hxy => (hR y x hxy).symm, hab⟩

theorem Bisimilar.trans {a b c : Value} (hab : h.Bisimilar a b) (hbc : h.Bisimilar b c) :
    h.Bisimilar a c := by
  obtain ⟨R, hR, hab⟩ := hab
  obtain ⟨S, hS, hbc⟩ := hbc
  refine ⟨Joined R S, ?_, Or.inr (Or.inr ⟨b, hab, hbc⟩)⟩
  rintro x z (hxz | hxz | ⟨y, hxy, hyz⟩)
  · exact (hR x z hxz).mono fun _ _ => Or.inl
  · exact (hS x z hxz).mono fun _ _ h => Or.inr (Or.inl h)
  · exact (hR x y hxy).trans (hS y z hyz)

/-- No NaN is the value or inside it. -/
def FreeOfNaN (h : Heap) (v : Value) : Prop :=
  ∀ x : Flonum, h.Reaches v (.number x) → x.isNaN = false

theorem FreeOfNaN.eqv_self {v : Value} (hv : h.FreeOfNaN v) : v.eqv v = true :=
  Value.eqv_self fun x hx => hv x (hx ▸ .refl)

/-- Structural equality is equality of the unfolded values, sharing and cycles whatever they are.
The comparison ends in whatever order it takes the values, and its answer does not depend on the
order. Among values without a NaN structural equality is an equivalence, which holds between the
same objects. -/
theorem equal_is_structural (hc : h.Closed) {a b : Value} (ha : h.Has a) (hb : h.Has b) :
    (Acc (fun next c => h.Round c next) (.start a b) ∧
      ∀ c, Relation.ReflTransGen h.Round (.start a b) c →
        ((∃ next, h.Round c next) ∨ ∃ answer, c.Answers h answer) ∧
        ∀ answer, c.Answers h answer → answer = h.equal a b) ∧
    (h.equal a b = true ↔
      ∃ R : Value → Value → Prop, (∀ x y, R x y → h.Matches R x y) ∧ R a b) ∧
    (h.FreeOfNaN a → h.same .equal a a = true) ∧
    (h.same .equal a b = true → h.same .equal b a = true) ∧
    (∀ c, h.Has c → h.same .equal a b = true → h.same .equal b c = true →
      h.same .equal a c = true) ∧
    (h.same .eqv a b = true → h.same .equal a b = true) ∧
    (h.FreeOfNaN a → h.same .eq a b = true → h.same .eqv a b = true) := by
  have hequal := fun {x y} hx hy => equal_iff_bisimilar (a := x) (b := y) hc hx hy
  refine ⟨⟨(Comparison.within_start ha hb).ends hc, fun c hrun => ⟨?_, ?_⟩⟩, hequal ha hb,
    ?_, ?_, ?_, ?_, ?_⟩
  · exact c.exists_round_or_answers h
  · intro answer hanswer
    have hiff := Comparison.Gives.iff_bisimilar ⟨c, hrun, hanswer⟩
    exact Bool.eq_iff_iff.2 (hiff.trans (hequal ha hb).symm)
  · exact fun hfree => (hequal ha ha).2 (bisimilar_of_eqv hfree.eqv_self)
  · exact fun hab => (hequal hb ha).2 ((hequal ha hb).1 hab).symm
  · intro c hc hab hbc
    exact (hequal ha hc).2 (((hequal ha hb).1 hab).trans ((hequal hb hc).1 hbc))
  · exact fun hab => (hequal ha hb).2 (bisimilar_of_eqv hab)
  · intro hfree heq
    obtain rfl := of_decide_eq_true heq
    exact hfree.eqv_self

/-- A ring of one pair and a ring of two pairs unfold to the same endless list. -/
theorem equal_rings :
    let ring : Heap := { pairs := #[⟨.number (.float 1), .pair ⟨0⟩⟩,
      ⟨.number (.float 1), .pair ⟨2⟩⟩, ⟨.number (.float 1), .pair ⟨1⟩⟩] }
    ring.Closed ∧ ring.Has (.pair ⟨0⟩) ∧ ring.Has (.pair ⟨1⟩) ∧
      ring.equal (.pair ⟨0⟩) (.pair ⟨1⟩) = true ∧ ring.same .equal (.pair ⟨1⟩) (.pair ⟨0⟩) = true := by
  intro ring
  have hclosed : ring.Closed := by
    constructor <;> simp [ring, Has]
  have hstructural := equal_is_structural hclosed (a := .pair ⟨0⟩) (b := .pair ⟨1⟩)
    (by decide) (by decide)
  have hequal : ring.equal (.pair ⟨0⟩) (.pair ⟨1⟩) = true := by
    refine hstructural.2.1.2 ⟨fun x y => x = .number (.float 1) ∧ y = .number (.float 1) ∨
      x = .pair ⟨0⟩ ∧ y = .pair ⟨1⟩ ∨ x = .pair ⟨0⟩ ∧ y = .pair ⟨2⟩, ?_, ?_⟩
    · rintro x y (⟨rfl, rfl⟩ | ⟨rfl, rfl⟩ | ⟨rfl, rfl⟩)
      · exact matches_of_eqv (by decide +kernel)
      · exact Or.inr ⟨by simp [pair, ring], by simp [pair, ring]⟩
      · exact Or.inr ⟨by simp [pair, ring], by simp [pair, ring]⟩
    · exact Or.inr (Or.inl ⟨rfl, rfl⟩)
  exact ⟨hclosed, by decide, by decide, hequal, hstructural.2.2.2.1 hequal⟩

end Heap

end Scheme
