import Mathlib.Logic.Relation
import Scheme.Heap.Reach
import Scheme.Proofs.UnfoldedText
/-!
# What a value contains

A pair contains its two fields and a vector its elements; a value reaches what it contains, what
that contains, and so on. In a heap without dangling references the search of `Heap.reaches` finds
exactly what a value reaches: its budget is the number of containers, and no container is opened
twice.
-/

namespace Scheme

namespace Heap

instance (h : Heap) : DecidablePred h.Has
  | .pair ref => inferInstanceAs (Decidable (ref.index < h.pairs.size))
  | .vector ref => inferInstanceAs (Decidable (ref.index < h.vectors.size))
  | .string ref => inferInstanceAs (Decidable (ref.index < h.strings.size))
  | .closure ref | .transformer ref => inferInstanceAs (Decidable (ref.index < h.closures.size))
  | .continuation ref => inferInstanceAs (Decidable (ref.index < h.continuations.size))
  | .nil | .boolean _ | .number _ | .character _ | .symbol _ | .primitive _ | .inputPort _
  | .outputPort _ | .endOfFile => inferInstanceAs (Decidable True)

/-- No cell refers to a cell that is not there, and every scope is younger than its parent. -/
structure Closed (h : Heap) : Prop where
  pairs : ∀ p ∈ h.pairs, h.Has p.first ∧ h.Has p.rest
  vectors : ∀ cells ∈ h.vectors, ∀ v ∈ cells, h.Has v
  bindings : ∀ s ∈ h.scopes, ∀ (name : String) (v : Value),
    s.bindings[name]? = some v → h.Has v
  parents : ∀ (i : Nat) (s : Scope), h.scopes[i]? = some s →
    ∀ parent, s.parent = some parent → parent.index < i
  closures : ∀ c ∈ h.closures, h.Has c.body ∧ c.scope.index < h.scopes.size
  continuations : ∀ k ∈ h.continuations, h.Has k.slot

/-- The second value is a field or an element of the first. -/
inductive Contains (h : Heap) : Value → Value → Prop where
  | first (ref : Ref .pair) : Contains h (.pair ref) (h.pair ref).first
  | rest (ref : Ref .pair) : Contains h (.pair ref) (h.pair ref).rest
  | element {ref : Ref .vector} {v : Value} (hv : v ∈ h.vector ref) : Contains h (.vector ref) v

/-- The second value is the first or inside it. -/
def Reaches (h : Heap) : Value → Value → Prop :=
  Relation.ReflTransGen h.Contains

/-- A container that contains itself, directly or through others, is inside the value. -/
def ReachesCycle (h : Heap) (v : Value) : Prop :=
  ∃ w, h.Reaches v w ∧ Relation.TransGen h.Contains w w

/-- Whatever contains something has a key. -/
theorem Contains.exists_key {h : Heap} {v w : Value} (hvw : h.Contains v w) :
    ∃ key, containerKey? v = some key := by
  cases hvw <;> exact ⟨_, rfl⟩

theorem Contains.of_pair {h : Heap} {ref : Ref .pair} {w : Value}
    (hw : h.Contains (.pair ref) w) : w = (h.pair ref).first ∨ w = (h.pair ref).rest := by
  cases hw with
  | first => exact Or.inl rfl
  | rest => exact Or.inr rfl

theorem Contains.of_vector {h : Heap} {ref : Ref .vector} {w : Value}
    (hw : h.Contains (.vector ref) w) : w ∈ h.vector ref := by
  cases hw with
  | element hv => exact hv

variable {h : Heap}

theorem Closed.has_pair (hc : h.Closed) (ref : Ref .pair) :
    h.Has (h.pair ref).first ∧ h.Has (h.pair ref).rest := by
  unfold pair
  cases hp : h.pairs[ref.index]? with
  | none => exact ⟨trivial, trivial⟩
  | some p => exact hc.pairs p (Array.mem_of_getElem? hp)

theorem Closed.has_element (hc : h.Closed) {ref : Ref .vector} {v : Value}
    (hv : v ∈ h.vector ref) : h.Has v := by
  unfold vector at hv
  cases hcells : h.vectors[ref.index]? with
  | none => simp [hcells] at hv
  | some cells =>
      rw [hcells] at hv
      exact hc.vectors cells (Array.mem_of_getElem? hcells) v hv

theorem Closed.has_contained (hc : h.Closed) {v w : Value} (hvw : h.Contains v w) : h.Has w := by
  cases hvw with
  | first ref => exact (hc.has_pair ref).1
  | rest ref => exact (hc.has_pair ref).2
  | element hw => exact hc.has_element hw

/-! ## Searching -/

/-- The containers met are there, and the budget covers those not met. -/
structure Affords (h : Heap) (met : Std.TreeSet Nat) (budget : Nat) : Prop where
  valid : ∀ key, met.contains key = true → key ∈ h.validKeys
  covers : h.containers ≤ met.size + budget

theorem affords_empty (h : Heap) : h.Affords {} (h.pairs.size + h.vectors.size) where
  valid key hkey := by simp at hkey
  covers := by simp [containers]

theorem Affords.valid_insert {met : Std.TreeSet Nat} {budget : Nat} (ha : h.Affords met budget)
    {v : Value} {key : Nat} (hv : h.Has v) (hkey : containerKey? v = some key) :
    ∀ other, (met.insert key).contains other = true → other ∈ h.validKeys := by
  intro other hother
  rw [Std.TreeSet.contains_insert, Bool.or_eq_true] at hother
  rcases hother with heq | hold
  · rw [← Std.LawfulEqCmp.eq_of_compare (beq_iff_eq.1 heq)]
    exact mem_validKeys_of_has hv hkey
  · exact ha.valid other hold

/-- A container that has not been met is paid for. -/
theorem Affords.pos {met : Std.TreeSet Nat} {budget : Nat} (ha : h.Affords met budget)
    {v : Value} {key : Nat} (hv : h.Has v) (hkey : containerKey? v = some key)
    (hnew : ¬met.contains key = true) : 0 < budget := by
  have hle := size_le_of_subset (ha.valid_insert hv hkey)
  have hcovers := ha.covers
  rw [Std.TreeSet.size_insert, if_neg (by simpa using hnew), length_validKeys] at hle
  omega

theorem Affords.insert {met : Std.TreeSet Nat} {budget : Nat} (ha : h.Affords met (budget + 1))
    {v : Value} {key : Nat} (hv : h.Has v) (hkey : containerKey? v = some key)
    (hnew : ¬met.contains key = true) : h.Affords (met.insert key) budget where
  valid := ha.valid_insert hv hkey
  covers := by
    have hcovers := ha.covers
    rw [Std.TreeSet.size_insert, if_neg (by simpa using hnew)]
    omega

/-- A set of values that holds all those waiting but not the target, and that nothing leaves
except through a container met before. -/
structure Wall (h : Heap) (target : Value) (met : Std.TreeSet Nat) (waiting : List Value)
    (inside : Value → Prop) : Prop where
  waiting : ∀ v ∈ waiting, inside v
  target : ¬inside target
  leaves : ∀ v, inside v → (∀ w, h.Contains v w → inside w) ∨
    ∃ key, containerKey? v = some key ∧ met.contains key = true

/-- A value belongs inside when all it contains does, or when it has been met before. -/
theorem Wall.add {target v : Value} {met met' : Std.TreeSet Nat} {waiting waiting' : List Value}
    {inside : Value → Prop} (hwall : h.Wall target met' waiting' inside) (hne : v ≠ target)
    (hmet : ∀ key, met'.contains key = true →
      met.contains key = true ∨ containerKey? v = some key)
    (hwaiting : ∀ w ∈ waiting, w ∈ waiting')
    (hv : (∀ w, h.Contains v w → w ∈ waiting') ∨
      ∃ key, containerKey? v = some key ∧ met.contains key = true) :
    h.Wall target met (v :: waiting) fun w => w = v ∨ inside w := by
  have hself : (∀ w, h.Contains v w → w = v ∨ inside w) ∨
      ∃ key, containerKey? v = some key ∧ met.contains key = true :=
    hv.imp_left fun hall w hw => Or.inr (hwall.waiting w (hall w hw))
  refine ⟨?_, not_or.2 ⟨Ne.symm hne, hwall.target⟩, ?_⟩
  · intro w hw
    rcases List.mem_cons.1 hw with rfl | hw
    · exact Or.inl rfl
    · exact Or.inr (hwall.waiting w (hwaiting w hw))
  · rintro w (rfl | hw)
    · exact hself
    · rcases hwall.leaves w hw with hall | ⟨key, hkey, hcontains⟩
      · exact Or.inl fun x hx => Or.inr (hall x hx)
      · rcases hmet key hcontains with hold | hown
        · exact Or.inr ⟨key, hkey, hold⟩
        · cases containerKey?_inj hkey hown
          exact hself

theorem contains_insert_key {met : Std.TreeSet Nat} {v : Value} {key : Nat}
    (hkey : containerKey? v = some key) (other : Nat)
    (hother : (met.insert key).contains other = true) :
    met.contains other = true ∨ containerKey? v = some other := by
  rw [Std.TreeSet.contains_insert, Bool.or_eq_true] at hother
  rcases hother with heq | hold
  · rw [Std.LawfulEqCmp.eq_of_compare (beq_iff_eq.1 heq)] at hkey
    exact Or.inr hkey
  · exact Or.inl hold

/-- A search that finds nothing has walled the target off. -/
theorem exists_wall (hc : h.Closed) {target : Value} {budget : Nat} {met : Std.TreeSet Nat}
    {waiting : List Value} (ha : h.Affords met budget) (hhas : ∀ v ∈ waiting, h.Has v)
    (hnot : h.reachesFrom target budget met waiting = false) :
    ∃ inside, h.Wall target met waiting inside := by
  fun_induction reachesFrom h target budget met waiting with
  | case1 => exact ⟨fun _ => False, by simp, id, fun _ hv => hv.elim⟩
  | case2 => simp at hnot
  | case3 budget met waiting ref key hmet hne ih | case6 budget met waiting ref key hmet hne ih =>
      obtain ⟨inside, hwall⟩ := ih ha (fun v hv => hhas v (List.mem_cons_of_mem _ hv)) hnot
      exact ⟨_, hwall.add hne (fun _ => Or.inl) (fun _ => id) (Or.inr ⟨key, rfl, hmet⟩)⟩
  | case4 met waiting ref key hnew hne | case7 met waiting ref key hnew hne =>
      have := ha.pos (hhas _ (List.mem_cons_self ..)) rfl hnew
      omega
  | case5 met waiting ref key hnew budget p hne ih =>
      have hself := hhas _ (List.mem_cons_self ..)
      obtain ⟨hfirst, hrest⟩ := hc.has_pair ref
      obtain ⟨inside, hwall⟩ := ih (ha.insert hself rfl hnew)
        (by simpa [hfirst, hrest, p] using fun v hv => hhas v (List.mem_cons_of_mem _ hv)) hnot
      refine ⟨_, hwall.add hne (contains_insert_key rfl) ?_ (Or.inl ?_)⟩
      · exact fun w hw => List.mem_cons_of_mem _ (List.mem_cons_of_mem _ hw)
      · intro w hw
        rcases hw.of_pair with rfl | rfl <;> simp [p]
  | case8 met waiting ref key hnew budget hne ih =>
      have hself := hhas _ (List.mem_cons_self ..)
      obtain ⟨inside, hwall⟩ := ih (ha.insert hself rfl hnew) (by
        intro v hv
        rcases List.mem_append.1 hv with hv | hv
        · exact hc.has_element (Array.mem_toList_iff.1 hv)
        · exact hhas v (List.mem_cons_of_mem _ hv)) hnot
      refine ⟨_, hwall.add hne (contains_insert_key rfl) ?_ (Or.inl ?_)⟩
      · exact fun w hw => List.mem_append_right _ hw
      · exact fun w hw => List.mem_append_left _ (Array.mem_toList_iff.2 hw.of_vector)
  | case9 budget met v waiting hne hpair hvector ih =>
      obtain ⟨inside, hwall⟩ := ih ha (fun v hv => hhas v (List.mem_cons_of_mem _ hv)) hnot
      refine ⟨_, hwall.add hne (fun _ => Or.inl) (fun _ => id) (Or.inl ?_)⟩
      intro w hw
      cases hw with
      | first ref | rest ref => exact absurd rfl (hpair ref)
      | element => exact absurd rfl (hvector _)

theorem Wall.not_reaches {target v : Value} {waiting : List Value} {inside : Value → Prop}
    (hwall : h.Wall target {} waiting inside) (hv : v ∈ waiting) : ¬h.Reaches v target := by
  intro hreaches
  refine hwall.target ?_
  refine Relation.ReflTransGen.head_induction_on (motive := fun v _ => inside v → inside target)
    hreaches id ?_ (hwall.waiting v hv)
  intro v w hvw _ ih hinside
  rcases hwall.leaves v hinside with hall | ⟨key, -, hempty⟩
  · exact ih (hall w hvw)
  · simp at hempty

/-- What the search finds is inside one of the values waiting. -/
theorem exists_reaches_of_reachesFrom {target : Value} {budget : Nat} {met : Std.TreeSet Nat}
    {waiting : List Value} (hfound : h.reachesFrom target budget met waiting = true) :
    ∃ v ∈ waiting, h.Reaches v target := by
  fun_induction reachesFrom h target budget met waiting with
  | case1 | case4 | case7 => simp at hfound
  | case2 budget met waiting => exact ⟨target, List.mem_cons_self .., .refl⟩
  | case3 _ _ _ _ _ _ _ ih | case6 _ _ _ _ _ _ _ ih | case9 _ _ _ _ _ _ _ ih =>
      obtain ⟨v, hv, hreaches⟩ := ih hfound
      exact ⟨v, List.mem_cons_of_mem _ hv, hreaches⟩
  | case5 met waiting ref key hnew budget p hne ih =>
      obtain ⟨v, hv, hreaches⟩ := ih hfound
      simp only [List.mem_cons] at hv
      rcases hv with rfl | rfl | hv
      · exact ⟨_, List.mem_cons_self .., .head (.first ref) hreaches⟩
      · exact ⟨_, List.mem_cons_self .., .head (.rest ref) hreaches⟩
      · exact ⟨v, List.mem_cons_of_mem _ hv, hreaches⟩
  | case8 met waiting ref key hnew budget hne ih =>
      obtain ⟨v, hv, hreaches⟩ := ih hfound
      rcases List.mem_append.1 hv with hv | hv
      · exact ⟨_, List.mem_cons_self .., .head (.element (Array.mem_toList_iff.1 hv)) hreaches⟩
      · exact ⟨v, List.mem_cons_of_mem _ hv, hreaches⟩

/-- The search finds exactly what a value reaches. -/
theorem reaches_iff (hc : h.Closed) {v : Value} (hv : h.Has v) (target : Value) :
    h.reaches v target = true ↔ h.Reaches v target := by
  constructor
  · intro hfound
    obtain ⟨w, hw, hreaches⟩ := exists_reaches_of_reachesFrom hfound
    rwa [List.mem_singleton.1 hw] at hreaches
  · intro hreaches
    by_contra hnot
    obtain ⟨inside, hwall⟩ := exists_wall hc h.affords_empty
      (fun w hw => List.mem_singleton.1 hw ▸ hv) (Bool.eq_false_iff.2 hnot)
    exact hwall.not_reaches (List.mem_singleton_self v) hreaches

end Heap

end Scheme
