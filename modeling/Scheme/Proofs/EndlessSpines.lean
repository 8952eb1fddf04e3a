import Mathlib.Data.Finset.Card
import Scheme.Primitive.Lists
import Scheme.Proofs.Reachability
/-!
# Spines without an end

A spine has no end if following `rest` comes to a pair again and again. Of so many pairs along a
spine as there are pairs in the heap, and one more, two are the same, so that the spine runs in a
circle from there on: what passes more pairs than there are never ends.
-/

namespace Scheme.Heap

/-- Following `rest` from the value never comes to anything but a pair. -/
def Endless (h : Heap) (v : Value) : Prop :=
  ∀ n, (h.rest^[n] v).isPair = true

variable {h : Heap} {v : Value}

theorem has_rest (hc : h.Closed) (v : Value) : h.Has (h.rest v) := by
  cases v with
  | pair ref => exact (hc.has_pair ref).2
  | _ => trivial

theorem has_iterate_rest (hc : h.Closed) (hv : h.Has v) (n : Nat) : h.Has (h.rest^[n] v) := by
  cases n with
  | zero => exact hv
  | succ n =>
      rw [Function.iterate_succ_apply']
      exact has_rest hc _

/-- Of so many pairs two are the same. -/
theorem exists_repeated_pair (hc : h.Closed) (hv : h.Has v)
    (hpairs : ∀ n ≤ h.pairs.size, (h.rest^[n] v).isPair = true) :
    ∃ i j, i < j ∧ j ≤ h.pairs.size ∧ h.rest^[i] v = h.rest^[j] v := by
  have hcard : ((Finset.range h.pairs.size).image fun i => Value.pair ⟨i⟩).card <
      (Finset.range (h.pairs.size + 1)).card :=
    Nat.lt_of_le_of_lt Finset.card_image_le (by simp)
  have hmaps : ∀ n ∈ Finset.range (h.pairs.size + 1),
      h.rest^[n] v ∈ (Finset.range h.pairs.size).image fun i => Value.pair ⟨i⟩ := by
    intro n hn
    have hpair := hpairs n (Nat.lt_succ_iff.1 (Finset.mem_range.1 hn))
    have hhas := has_iterate_rest hc hv n
    cases heq : h.rest^[n] v with
    | pair ref =>
        rw [heq] at hhas
        exact Finset.mem_image.2 ⟨ref.index, Finset.mem_range.2 hhas, rfl⟩
    | _ =>
        rw [heq] at hpair
        cases hpair
  obtain ⟨i, hi, j, hj, hne, hsame⟩ := Finset.exists_ne_map_eq_of_card_lt_of_maps_to hcard hmaps
  have hi := Nat.lt_succ_iff.1 (Finset.mem_range.1 hi)
  have hj := Nat.lt_succ_iff.1 (Finset.mem_range.1 hj)
  rcases Nat.lt_or_gt_of_ne hne with hlt | hlt
  · exact ⟨i, j, hlt, hj, hsame⟩
  · exact ⟨j, i, hlt, hi, hsame.symm⟩

/-- A spine that comes to a pair again has no end. -/
theorem endless_of_return {i j : Nat} (hij : i < j) (hsame : h.rest^[i] v = h.rest^[j] v)
    (hpairs : ∀ n < j, (h.rest^[n] v).isPair = true) : h.Endless v := by
  intro n
  induction n using Nat.strong_induction_on with
  | _ n ih =>
      by_cases hn : n < j
      · exact hpairs n hn
      · have hback : h.rest^[n] v = h.rest^[n - j + i] v := by
          rw [show n = n - j + j by omega, Function.iterate_add_apply, ← hsame,
            ← Function.iterate_add_apply]
          congr 2
          omega
        rw [hback]
        exact ih _ (by omega)

/-- A spine that passes more pairs than there are has no end. -/
theorem endless_of_pairs (hc : h.Closed) (hv : h.Has v)
    (hpairs : ∀ n ≤ h.pairs.size, (h.rest^[n] v).isPair = true) : h.Endless v := by
  obtain ⟨i, j, hij, hj, hsame⟩ := exists_repeated_pair hc hv hpairs
  exact endless_of_return hij hsame fun n hn => hpairs n (by omega)

theorem isPair_of_follow {budget : Nat} {passed : List Value}
    (hfollow : h.follow budget passed v = none) :
    ∀ n ≤ budget, (h.rest^[n] v).isPair = true := by
  induction budget generalizing passed v with
  | zero =>
      intro n hn
      obtain rfl := Nat.le_zero.1 hn
      cases v <;> cases hfollow
      rfl
  | succ budget ih =>
      intro n hn
      cases v with
      | pair ref =>
          cases n with
          | zero => rfl
          | succ n =>
              rw [Function.iterate_succ_apply]
              exact ih hfollow n (by omega)
      | _ => cases hfollow

theorem isPair_of_findTail {test : Value → Bool} {budget : Nat}
    (hfind : h.findTail test budget v = none) : ∀ n ≤ budget, (h.rest^[n] v).isPair = true := by
  induction budget generalizing v with
  | zero =>
      intro n hn
      obtain rfl := Nat.le_zero.1 hn
      cases v with
      | pair ref => rfl
      | _ => simp [findTail] at hfind
  | succ budget ih =>
      intro n hn
      cases v with
      | pair ref =>
          cases n with
          | zero => rfl
          | succ n =>
              rw [Function.iterate_succ_apply]
              refine ih ?_ n (by omega)
              rw [findTail] at hfind
              split at hfind
              · cases hfind
              · exact hfind
      | _ => simp [findTail] at hfind

theorem endless_of_findTail (hc : h.Closed) (hv : h.Has v) {test : Value → Bool}
    (hfind : h.findTail test h.pairs.size v = none) : h.Endless v :=
  endless_of_pairs hc hv (isPair_of_findTail hfind)

/-- New cells do not lengthen a spine. -/
theorem iterate_rest_extend {h' : Heap} (hc : h.Closed) (hv : h.Has v) (hext : Extends h h')
    (n : Nat) : h'.rest^[n] v = h.rest^[n] v := by
  induction n with
  | zero => rfl
  | succ n ih =>
      rw [Function.iterate_succ_apply', Function.iterate_succ_apply', ih]
      have hhas := has_iterate_rest hc hv n
      cases heq : h.rest^[n] v with
      | pair ref =>
          rw [heq] at hhas
          have hp := Array.getElem?_eq_getElem (show ref.index < h.pairs.size from hhas)
          simp only [rest, pair, hp, hext.pairs _ _ hp]
      | _ => rfl

/-- A spine that was there before the new cells, and has no end with them. -/
theorem endless_of_spine? {h' : Heap} (hc : h.Closed) (hv : h.Has v) (hext : Extends h h')
    (hspine : h'.spine? v = none) : h.Endless v := by
  refine endless_of_pairs hc hv fun n hn => ?_
  rw [← iterate_rest_extend hc hv hext]
  have hle := hext.pairs_size
  exact isPair_of_follow (Option.map_eq_none_iff.1 hspine) n (by omega)

end Scheme.Heap
