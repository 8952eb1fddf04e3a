import Mathlib.Data.List.Perm.Subperm
import Scheme.Proofs.Moments
import Scheme.Proofs.SpineTraversals
/-!
# Proper lists

The elements of a list that ends are found by following its spine: as its pairs are all different,
there are not more of them than the heap has.
-/

namespace Scheme

theorem Items.unique {cell : Ref .pair → Pair → Prop}
    (hcell : ∀ r p q, cell r p → cell r q → p = q) {v : Value} {xs ys : List Value}
    (h : Items cell v xs) (h' : Items cell v ys) : xs = ys := by
  induction h generalizing ys with
  | nil =>
      cases h'
      rfl
  | cons hr _ ih =>
      cases h' with
      | cons hr' hrest' =>
          cases hcell _ _ _ hr hr'
          rw [ih hrest']

namespace Heap

/-- The value is a proper list of the elements. -/
def Lists (h : Heap) (v : Value) (xs : List Value) : Prop :=
  Items (fun r p => h.pairs[r.index]? = some p) v xs

variable {h : Heap} {v : Value} {xs : List Value}

theorem Lists.unique {ys : List Value} (hx : h.Lists v xs) (hy : h.Lists v ys) : xs = ys :=
  Items.unique (fun _ _ _ hp hq => Option.some.inj (hp.symm.trans hq)) hx hy

theorem Lists.exists_pair {x : Value} (hlists : h.Lists v (x :: xs)) :
    ∃ r rest, v = .pair r ∧ h.pair r = ⟨x, rest⟩ ∧ h.Lists rest xs := by
  cases hlists with
  | cons hcell hrest => exact ⟨_, _, rfl, pair_eq_of_getElem? hcell, hrest⟩

/-- The positions of the pairs of a list are different. -/
theorem Lists.exists_positions (hlists : h.Lists v xs) :
    ∃ positions : List Nat, positions.length = xs.length ∧ positions.Nodup ∧
      ∀ i ∈ positions, i < h.pairs.size ∧ ∃ ys, h.Lists (.pair ⟨i⟩) ys ∧ ys.length ≤ xs.length := by
  induction hlists with
  | nil => exact ⟨[], rfl, List.nodup_nil, by simp⟩
  | @cons r item rest items hcell hrest ih =>
      obtain ⟨positions, hlength, hnodup, hmem⟩ := ih
      have hlist : h.Lists (.pair r) (item :: items) := .cons hcell hrest
      refine ⟨r.index :: positions, congrArg (· + 1) hlength, List.nodup_cons.2 ⟨?_, hnodup⟩, ?_⟩
      · -- a pair that came twice would begin lists of two lengths
        intro hagain
        obtain ⟨-, ys, hys, hle⟩ := hmem _ hagain
        rw [← hlist.unique hys, List.length_cons] at hle
        omega
      · intro i hi
        rcases List.mem_cons.1 hi with rfl | hi
        · exact ⟨(Array.getElem?_eq_some_iff.1 hcell).1, _, hlist, Nat.le_refl _⟩
        · obtain ⟨hlt, ys, hys, hle⟩ := hmem i hi
          exact ⟨hlt, ys, hys, Nat.le_succ_of_le hle⟩

theorem Lists.length_le (hlists : h.Lists v xs) : xs.length ≤ h.pairs.size := by
  obtain ⟨positions, hlength, hnodup, hmem⟩ := hlists.exists_positions
  have hsubset : positions ⊆ List.range h.pairs.size :=
    fun i hi => List.mem_range.2 (hmem i hi).1
  have hle := (hnodup.subperm hsubset).length_le
  rwa [List.length_range, hlength] at hle

theorem Lists.follow_eq (hlists : h.Lists v xs) {budget : Nat} (hbudget : xs.length ≤ budget)
    (passed : List Value) : h.follow budget passed v = some (xs.reverse ++ passed, .nil) := by
  induction hlists generalizing budget passed with
  | nil => cases budget <;> rfl
  | @cons r item rest items hcell hrest ih =>
      rw [List.length_cons] at hbudget
      obtain ⟨budget, rfl⟩ : ∃ n, budget = n + 1 := ⟨budget - 1, by omega⟩
      simp only [follow, pair_eq_of_getElem? hcell]
      rw [ih (by omega), List.reverse_cons, List.append_assoc]
      rfl

theorem Lists.spine?_eq (hlists : h.Lists v xs) : h.spine? v = some (xs, .nil) := by
  simp [spine?, hlists.follow_eq hlists.length_le]

theorem Lists.endsAfter (hlists : h.Lists v xs) : h.EndsAfter v xs.length := by
  induction hlists with
  | nil => exact ⟨nofun, rfl⟩
  | @cons r item rest items hcell _ ih =>
      have hrest : h.rest (.pair r) = rest := congrArg Pair.rest (pair_eq_of_getElem? hcell)
      refine ⟨fun i hi => ?_, ?_⟩
      · cases i with
        | zero => rfl
        | succ i =>
            rw [Function.iterate_succ_apply, hrest]
            exact ih.pairs i (Nat.lt_of_succ_lt_succ hi)
      · rw [List.length_cons, Function.iterate_succ_apply, hrest]
        exact ih.last

theorem Lists.spineLength?_eq (hlists : h.Lists v xs) : h.spineLength? v = some xs.length :=
  hlists.endsAfter.spineLength?_eq hlists.length_le

end Heap

theorem World.elements_eq {w : World} {v : Value} {xs : List Value} (h : w.heap.Lists v xs) :
    World.elements v w = .value xs w := by
  simp only [World.elements, bind, Action.bind, World.spine, h.spine?_eq]
  rfl

theorem Items.lists {σ : Moment} {v : Value} {xs : List Value} (h : Items σ.Cell v xs) :
    σ.world.heap.Lists v xs :=
  h.mono fun _ _ hcell => hcell.2

end Scheme
