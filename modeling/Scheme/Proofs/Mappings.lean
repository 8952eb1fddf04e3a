import Scheme.Proofs.Composition
import Scheme.Proofs.Expansions
import Scheme.Proofs.InPlaceExpansion
import Scheme.Proofs.TailCalls
/-!
# Mapping a procedure over lists

A procedure that is mapped over lists is called once for each position at which all of them still
have a pair, from the first position on. The calls are all that happens on the way: the mapping ends
with a list of what they came back with, or as the first of them that came back with no value.
-/

namespace Scheme

open Step

/-! ## Runs above one piece of work -/

namespace Step

theorem Comes.reaches {step : Step} {s : State} (h : step.Comes s) : step.Reaches (.next s) := by
  obtain ⟨n, hn, -⟩ := h
  exact ⟨n, hn⟩

variable {control : Control} {w w' : World} {outcome : Outcome}

/-- A run above other work that comes to an end has first come to the end of its own. -/
theorem Ends.of_onto {stack : List Pending} (h : (go control stack w).Ends outcome w') :
    ∃ outcome₁ w₁, (go control [] w).Ends outcome₁ w₁ := by
  obtain ⟨n, hn⟩ := h
  cases hrun : (go control [] w).steps n with
  | next s =>
      have habove : (go control stack w).steps n = _ := steps_onto hrun stack
      rw [hn] at habove
      cases habove
  | done outcome₁ w₁ => exact ⟨outcome₁, w₁, n, hrun⟩

theorem Ends.ne_unfinished (h : (go control [] w).Ends outcome w') : outcome ≠ .unfinished := by
  obtain ⟨n, hrun⟩ := h
  rcases exists_last hrun with hstart | ⟨m, s, -, hdone⟩
  · cases hstart
  · rintro rfl
    rcases State.done_cases hdone with htrap | ⟨v, hv, -⟩ | ⟨f, hf, -⟩
    · cases htrap
    · cases hv
    · cases hf

theorem Ends.onto_of_isTrap (h : (go control [] w).Ends outcome w') (htrap : outcome.isTrap = true)
    (stack : List Pending) : (go control stack w).Ends outcome w' := by
  obtain ⟨n, hrun⟩ := h
  rcases exists_last hrun with hstart | ⟨m, s, hs, hdone⟩
  · cases hstart
  · refine ⟨m + 1, ?_⟩
    have habove : (go control stack w).steps m = _ := steps_onto hs stack
    rw [steps_succ', habove]
    exact State.step_onto_trap hdone htrap stack

theorem ends_resume {v : Value} :
    (go (.resume v) [] w).Ends outcome w' ↔ outcome = .value v ∧ w' = w := by
  have hstop : (go (.resume v) [] w).Ends (.value v) w := ⟨1, rfl⟩
  refine ⟨fun h => h.unique hstop, ?_⟩
  rintro ⟨rfl, rfl⟩
  exact hstop

theorem ends_unwind {f : Fault} :
    (go (.unwind f) [] w).Ends outcome w' ↔ outcome = .fault f ∧ w' = w := by
  have hstop : (go (.unwind f) [] w).Ends (.fault f) w := ⟨1, rfl⟩
  refine ⟨fun h => h.unique hstop, ?_⟩
  rintro ⟨rfl, rfl⟩
  exact hstop

/-- How a run above one piece of work ends: as that goes on from the end of the run on its own. -/
theorem ends_above {p : Pending} : (go control [p] w).Ends outcome w' ↔
    ∃ outcome₁ w₁, (go control [] w).Ends outcome₁ w₁ ∧
      match outcome₁ with
      | .value v => (go (.resume v) [p] w₁).Ends outcome w'
      | .fault f => (go (.unwind f) [p] w₁).Ends outcome w'
      | outcome₁ => outcome = outcome₁ ∧ w' = w₁ := by
  constructor
  · intro h
    obtain ⟨outcome₁, w₁, hown⟩ := h.of_onto
    refine ⟨outcome₁, w₁, hown, ?_⟩
    cases outcome₁ with
    | value v => exact (hown.resumes [p]).reaches.ends_iff.1 h
    | fault f => exact (hown.unwinds [p]).reaches.ends_iff.1 h
    | trap t => exact h.unique (hown.onto_of_isTrap rfl [p])
    | unfinished => exact absurd rfl hown.ne_unfinished
  · rintro ⟨outcome₁, w₁, hown, hrest⟩
    cases outcome₁ with
    | value v => exact (hown.resumes [p]).reaches.ends hrest
    | fault f => exact (hown.unwinds [p]).reaches.ends hrest
    | trap t =>
        obtain ⟨rfl, rfl⟩ := hrest
        exact hown.onto_of_isTrap rfl [p]
    | unfinished => exact absurd rfl hown.ne_unfinished

end Step

/-! ## Calls in turn -/

/-- Calls of the procedure on the rows, one after the other, each in the world that the one before
has left: what they have come back with, or the outcome of the first that came back with no value,
after which there are no others. -/
inductive CallsInTurn (f : Value) :
    List (List Value) → World → Except Outcome (List Value) → World → Prop where
  | none (w : World) : CallsInTurn f [] w (.ok []) w
  | stopped {row : List Value} {rows : List (List Value)} {outcome : Outcome} {w w' : World}
      (hcall : (go (.apply f row) [] w).Ends outcome w') (hvalue : ∀ v, outcome ≠ .value v) :
      CallsInTurn f (row :: rows) w (.error outcome) w'
  | returned {row : List Value} {rows : List (List Value)} {v : Value}
      {result : Except Outcome (List Value)} {w w₁ w' : World}
      (hcall : (go (.apply f row) [] w).Ends (.value v) w₁)
      (hothers : CallsInTurn f rows w₁ result w') :
      CallsInTurn f (row :: rows) w (result.map (v :: ·)) w'

namespace CallsInTurn

variable {f : Value} {row : List Value} {rows : List (List Value)} {w w' : World}
  {result : Except Outcome (List Value)}

theorem none_iff : CallsInTurn f [] w result w' ↔ result = .ok [] ∧ w' = w := by
  constructor
  · intro h
    cases h
    exact ⟨rfl, rfl⟩
  · rintro ⟨rfl, rfl⟩
    exact .none w'

/-- Only the first call is known to be made. -/
theorem cons_iff : CallsInTurn f (row :: rows) w result w' ↔
    ∃ outcome w₁, (go (.apply f row) [] w).Ends outcome w₁ ∧
      match outcome with
      | .value v => ∃ result', CallsInTurn f rows w₁ result' w' ∧ result = result'.map (v :: ·)
      | outcome => result = .error outcome ∧ w' = w₁ := by
  constructor
  · intro h
    cases h with
    | @stopped _ _ outcome _ _ hcall hvalue =>
        refine ⟨outcome, w', hcall, ?_⟩
        cases outcome with
        | value v => exact absurd rfl (hvalue v)
        | _ => exact ⟨rfl, rfl⟩
    | returned hcall hothers => exact ⟨_, _, hcall, _, hothers, rfl⟩
  · rintro ⟨outcome, w₁, hcall, hrest⟩
    cases outcome with
    | value v =>
        obtain ⟨result', hothers, rfl⟩ := hrest
        exact .returned hcall hothers
    | _ =>
        obtain ⟨rfl, rfl⟩ := hrest
        exact .stopped hcall (by simp)

end CallsInTurn

/-! ## The rows of lists -/

namespace Heap

/-- The elements of the lists at a position. -/
def row (h : Heap) (lists : List Value) (i : Nat) : List Value :=
  lists.map fun l => h.first (h.rest^[i] l)

/-- The elements at so many positions from a first one on, row by row. -/
def rows (h : Heap) (lists : List Value) (start count : Nat) : List (List Value) :=
  (List.range' start count).map (h.row lists)

theorem rows_succ (h : Heap) (lists : List Value) (start count : Nat) :
    h.rows lists start (count + 1) = h.row lists start :: h.rows lists (start + 1) count := by
  rw [rows, List.range'_succ, List.map_cons, rows]

/-- The least number of pairs along any of the spines. -/
structure Shortest (h : Heap) (lists : List Value) (m : Nat) : Prop where
  least : ∀ l ∈ lists, ∀ n, h.EndsAfter l n → m ≤ n
  attained : ∃ l ∈ lists, h.EndsAfter l m

/-- The first pairs along the spines are in both heaps the same. -/
def SameSpines (h : Heap) (lists : List Value) (m : Nat) (h' : Heap) : Prop :=
  ∀ l ∈ lists, ∀ i < m, h'.first (h.rest^[i] l) = h.first (h.rest^[i] l) ∧
    h'.rest (h.rest^[i] l) = h.rest (h.rest^[i] l)

variable {h : Heap} {lists : List Value} {m : Nat}

theorem exists_shortest (hends : ∃ l ∈ lists, ∃ n, h.EndsAfter l n) : ∃ m, h.Shortest lists m := by
  classical
  have hsome : ∃ n, ∃ l ∈ lists, h.EndsAfter l n := by
    obtain ⟨l, hl, n, hn⟩ := hends
    exact ⟨n, l, hl, hn⟩
  exact ⟨Nat.find hsome, fun l hl n hn => Nat.find_min' hsome ⟨l, hl, hn⟩, Nat.find_spec hsome⟩

theorem Shortest.unique {n : Nat} (hm : h.Shortest lists m) (hn : h.Shortest lists n) : m = n := by
  obtain ⟨l, hl, hends⟩ := hm.attained
  obtain ⟨l', hl', hends'⟩ := hn.attained
  exact Nat.le_antisymm (hm.least l' hl' n hends') (hn.least l hl m hends)

theorem Shortest.pairs (hm : h.Shortest lists m) {l : Value} (hl : l ∈ lists) {i : Nat}
    (hi : i < m) : (h.rest^[i] l).isPair = true := by
  rcases h.endsAfter_or_endless l with ⟨n, hn⟩ | hendless
  · exact hn.pairs i (Nat.lt_of_lt_of_le hi (hm.least l hl n hn))
  · exact hendless i

theorem SameSpines.refl (h : Heap) (lists : List Value) (m : Nat) : h.SameSpines lists m h :=
  fun _ _ _ _ => ⟨rfl, rfl⟩

theorem SameSpines.row_eq {h' : Heap} (hsame : h.SameSpines lists m h') {i : Nat} (hi : i < m) :
    (lists.map h.rest^[i]).map h'.first = h.row lists i := by
  rw [List.map_map]
  exact List.map_congr_left fun l hl => (hsame l hl i hi).1

theorem SameSpines.rests_eq {h' : Heap} (hsame : h.SameSpines lists m h') {i : Nat} (hi : i < m) :
    (lists.map h.rest^[i]).map h'.rest = lists.map h.rest^[i + 1] := by
  rw [List.map_map]
  refine List.map_congr_left fun l hl => (hsame l hl i hi).2.trans ?_
  exact rest_iterate h l i

/-- In the later heap the value is a proper list of the elements, in new pairs. -/
def ListsAnew (h h' : Heap) (v : Value) (xs : List Value) : Prop :=
  Items (fun r p => h.pairs.size ≤ r.index ∧ h'.pairs[r.index]? = some p) v xs

theorem listsAnew_list (h : Heap) (items : List Value) :
    h.ListsAnew (h.list items).2 (h.list items).1 items := by
  have hitems : ∀ items, h.pairs.size ≤ (h.listStar items .nil).2.pairs.size ∧
      Items (fun r p => h.pairs.size ≤ r.index ∧
        (h.listStar items .nil).2.pairs[r.index]? = some p) (h.listStar items .nil).1 items := by
    intro items
    induction items with
    | nil => exact ⟨Nat.le_refl _, .nil⟩
    | cons item items ih =>
        rw [listStar_cons]
        refine ⟨Nat.le_trans ih.1 (by simp [cons]), .cons ⟨ih.1, Array.getElem?_push_size⟩ ?_⟩
        exact ih.2.mono fun r p hr => ⟨hr.1, (extends_cons _ _ _).pairs _ _ hr.2⟩
  exact (hitems items).2

end Heap

/-! ## The run of a mapping -/

/-- What a mapping ends with after its calls: a new list of what they came back with, if that is
gathered, or the empty list; or the outcome of the call that stopped it. -/
def mapped (collect : Bool) : Except Outcome (List Value) → World → Outcome × World
  | .ok vs, w =>
    let (v, heap) := w.heap.list (if collect then vs else [])
    (.value v, { w with heap })
  | .error outcome, w => (outcome, w)

section Run

variable {f : Value} {collect : Bool} {lists : List Value} {h : Heap} {m : Nat} {w w' : World}

/-- The results in the order in which a mapping has them pending. -/
def pendingResults (collect : Bool) (vs : List Value) : List Value :=
  if collect then vs.reverse else []

theorem pendingResults_concat (collect : Bool) (vs : List Value) (v : Value) :
    (if collect then v :: pendingResults collect vs else pendingResults collect vs) =
      pendingResults collect (vs ++ [v]) := by
  cases collect <;> simp [pendingResults]

/-- Where all lists still have a pair, the procedure is called on their elements there. -/
theorem mapping_call (hm : h.Shortest lists m) {j : Nat} (hj : j < m)
    (hsame : h.SameSpines lists m w.heap) (results : List Value) (stack : List Pending) :
    mapping f (lists.map h.rest^[j]) results collect stack w =
      go (.apply f (h.row lists j))
        (.mapping f (lists.map h.rest^[j + 1]) results collect :: stack) w := by
  obtain ⟨l, hl, -⟩ := hm.attained
  have hpairs : (!(lists.map h.rest^[j]).isEmpty && (lists.map h.rest^[j]).all Value.isPair) =
      true := by
    simp only [List.isEmpty_map, Bool.and_eq_true, Bool.not_eq_true', List.all_eq_true,
      List.forall_mem_map]
    exact ⟨List.isEmpty_eq_false_iff.2 (List.ne_nil_of_mem hl), fun l hl => hm.pairs hl hj⟩
  rw [mapping, if_pos hpairs, hsame.row_eq hj, hsame.rests_eq hj]

/-- Where one of the lists has ended, so has the mapping. -/
theorem mapping_end (hm : h.Shortest lists m) (collect : Bool) (vs : List Value) (stack : List Pending) :
    ∃ v w', mapped collect (.ok vs) w = (.value v, w') ∧
      mapping f (lists.map h.rest^[m]) (pendingResults collect vs) collect stack w =
        go (.resume v) stack w' := by
  obtain ⟨l, hl, hends⟩ := hm.attained
  have hpairs : ¬ (!(lists.map h.rest^[m]).isEmpty && (lists.map h.rest^[m]).all Value.isPair) =
      true := by
    simp only [Bool.and_eq_true, List.all_eq_true, List.forall_mem_map, not_and]
    intro _ hall
    have hpair := hall l hl
    rw [hends.last] at hpair
    cases hpair
  refine ⟨_, _, rfl, ?_⟩
  have hreversed : (pendingResults collect vs).reverse = if collect then vs else [] := by
    cases collect <;> simp [pendingResults]
  rw [mapping, if_neg hpairs, hreversed]
  rfl

/-- From a position on, the calls leave the spines as they are. -/
def LeavesSpines (f : Value) (h : Heap) (lists : List Value) (m j : Nat) (w : World) : Prop :=
  ∀ i, j + i < m → ∀ vs w', CallsInTurn f (h.rows lists j i) w (.ok vs) w' →
    h.SameSpines lists m w'.heap

theorem LeavesSpines.same {j : Nat} (hleaves : LeavesSpines f h lists m j w) (hj : j < m) :
    h.SameSpines lists m w.heap :=
  hleaves 0 hj [] w (.none w)

theorem LeavesSpines.next {j : Nat} (hleaves : LeavesSpines f h lists m j w) {v : Value}
    (hcall : (go (.apply f (h.row lists j)) [] w).Ends (.value v) w') :
    LeavesSpines f h lists m (j + 1) w' := by
  intro i hi vs w₁ hcalls
  refine hleaves (i + 1) (by omega) (v :: vs) w₁ ?_
  rw [Heap.rows_succ]
  exact .returned hcall hcalls

/-- After some calls that came back with values, the mapping goes on from there. -/
theorem reaches_mapping (hm : h.Shortest lists m) {i j : Nat} (hi : j + i ≤ m)
    (hleaves : LeavesSpines f h lists m j w) {vs : List Value}
    (hcalls : CallsInTurn f (h.rows lists j i) w (.ok vs) w') (collect : Bool)
    (us : List Value) (stack : List Pending) :
    (mapping f (lists.map h.rest^[j]) (pendingResults collect us) collect stack w).Reaches
      (mapping f (lists.map h.rest^[j + i]) (pendingResults collect (us ++ vs)) collect stack
        w') := by
  induction i generalizing j w us vs with
  | zero =>
      obtain ⟨hvs, rfl⟩ := CallsInTurn.none_iff.1 hcalls
      cases hvs
      exact .of_eq (by rw [List.append_nil]; rfl)
  | succ i ih =>
      rw [Heap.rows_succ] at hcalls
      obtain ⟨outcome, w₁, hcall, hrest⟩ := CallsInTurn.cons_iff.1 hcalls
      cases outcome with
      | value v =>
          obtain ⟨result, hothers, heq⟩ := hrest
          cases result with
          | error e => cases heq
          | ok vs' =>
              cases heq
              have hj : j < m := by omega
              have hnext := ih (by omega) (hleaves.next hcall) hothers (us ++ [v])
              rw [mapping_call hm hj (hleaves.same hj)]
              refine (hcall.resumes _).reaches.trans (Reaches.next ?_)
              rw [List.append_assoc, ← pendingResults_concat, Nat.add_assoc, Nat.add_comm 1] at hnext
              exact hnext
      | _ => cases hrest.1

/-- A mapping ends as its calls in turn make it end. -/
theorem ends_mapping (hm : h.Shortest lists m) {i j : Nat} (hi : j + i = m)
    (hleaves : LeavesSpines f h lists m j w) (us : List Value) {outcome : Outcome} :
    (mapping f (lists.map h.rest^[j]) (pendingResults collect us) collect [] w).Ends outcome w' ↔
      ∃ result w₁, CallsInTurn f (h.rows lists j i) w result w₁ ∧
        mapped collect (result.map (us ++ ·)) w₁ = (outcome, w') := by
  induction i generalizing j w us with
  | zero =>
      obtain rfl : j = m := hi
      obtain ⟨v, w₁, hmapped, hend⟩ := mapping_end (f := f) (w := w) hm collect us []
      rw [hend, ends_resume]
      constructor
      · rintro ⟨rfl, rfl⟩
        refine ⟨.ok [], w, .none w, ?_⟩
        simpa [Except.map] using hmapped
      · rintro ⟨result, w₂, hcalls, hresult⟩
        obtain ⟨rfl, rfl⟩ := CallsInTurn.none_iff.1 hcalls
        have hmapped' : mapped collect (.ok us) w₂ = (outcome, w') := by
          simpa [Except.map] using hresult
        rw [hmapped] at hmapped'
        cases hmapped'
        exact ⟨rfl, rfl⟩
  | succ i ih =>
      have hj : j < m := by omega
      have hresults : ∀ (v : Value) (result : Except Outcome (List Value)),
          (result.map (v :: ·)).map (us ++ ·) = result.map (us ++ [v] ++ ·) := by
        intro v result
        cases result <;> simp [Except.map]
      rw [mapping_call hm hj (hleaves.same hj), Heap.rows_succ, ends_above]
      constructor
      · rintro ⟨outcome₁, w₁, hcall, hrest⟩
        cases outcome₁ with
        | value v =>
            -- the result is pending when the next call is made
            have hgoes : (mapping f (lists.map h.rest^[j + 1])
                (if collect then v :: pendingResults collect us else pendingResults collect us)
                collect [] w₁).Ends outcome w' :=
              (Reaches.next (.of_eq rfl)).ends_iff.1 hrest
            rw [pendingResults_concat, ih (by omega) (hleaves.next hcall)] at hgoes
            obtain ⟨result, w₂, hothers, hmapped⟩ := hgoes
            exact ⟨_, w₂, .returned hcall hothers, (hresults v result).symm ▸ hmapped⟩
        | fault u =>
            obtain ⟨rfl, rfl⟩ := ends_unwind.1 ((Reaches.next (.of_eq rfl)).ends_iff.1 hrest)
            exact ⟨_, w', .stopped hcall (by simp), rfl⟩
        | trap t =>
            obtain ⟨rfl, rfl⟩ := hrest
            exact ⟨_, w', .stopped hcall (by simp), rfl⟩
        | unfinished => exact absurd rfl hcall.ne_unfinished
      · rintro ⟨result, w₂, hcalls, hmapped⟩
        obtain ⟨outcome₁, w₁, hcall, hrest⟩ := CallsInTurn.cons_iff.1 hcalls
        refine ⟨outcome₁, w₁, hcall, ?_⟩
        cases outcome₁ with
        | value v =>
            obtain ⟨result', hothers, rfl⟩ := hrest
            rw [hresults] at hmapped
            have hgoes := (ih (by omega) (hleaves.next hcall) (us ++ [v])).2
              ⟨result', w₂, hothers, hmapped⟩
            rw [← pendingResults_concat] at hgoes
            exact (Reaches.next (.of_eq rfl)).ends hgoes
        | fault u =>
            obtain ⟨rfl, rfl⟩ := hrest
            cases hmapped
            exact (Reaches.next (.of_eq rfl)).ends (ends_unwind.2 ⟨rfl, rfl⟩)
        | trap t =>
            obtain ⟨rfl, rfl⟩ := hrest
            cases hmapped
            exact ⟨rfl, rfl⟩
        | unfinished => exact absurd rfl hcall.ne_unfinished

end Run

/-- The primitives that map a procedure, and whether they gather results. -/
theorem Primitive.of_mapping_name : ∀ p ∈ table, ∀ collect : Bool,
    p.name = (if collect then "map" else "for-each") →
      p = ⟨p.name, .control (if collect then .map else .forEach), 1, none⟩ := by
  decide +kernel

theorem Step.apply_mapping {p : Primitive} (hp : p ∈ Primitive.table) {collect : Bool}
    (hname : p.name = if collect then "map" else "for-each") (f : Value) (lists : List Value)
    (stack : List Pending) (w : World) :
    State.step ⟨.apply (.primitive p) (f :: lists), stack, w⟩ =
      mapping f lists [] collect stack w := by
  have hp' := Primitive.of_mapping_name p hp collect hname
  have hcount : checkCount p (f :: lists) w = .value () w :=
    Primitive.checkCount_eq (by rw [hp']; simp [Primitive.takes]) w
  change Step.apply (.primitive p) (f :: lists) stack w = _
  rw [Step.apply, after, hcount, hp']
  cases collect <;> rfl

/-- A procedure that is mapped over lists, at least one of which has an end, is called on the
elements of all of them at one position after the other, as far as the shortest goes. While it
leaves the spines as they are, these calls in turn are what happens: the mapping ends in the world
that they leave, with a new list of what they came back with or with the empty list; or it ends as
the first call ends that comes back with no value, and no other call is made. Without lists there
is no call. -/
theorem Step.maps_in_order {p : Primitive} (hp : p ∈ Primitive.table) (collect : Bool)
    (hname : p.name = if collect then "map" else "for-each") (f : Value) (w : World) :
    (∀ stack, State.step ⟨.apply (.primitive p) [f], stack, w⟩ = go (.resume .nil) stack w) ∧
    ∀ lists, (∃ l ∈ lists, ∃ n, w.heap.EndsAfter l n) → ∃ m, w.heap.Shortest lists m ∧
      let run := fun stack => go (.apply (.primitive p) (f :: lists)) stack w
      let calls := CallsInTurn f (w.heap.rows lists 0 m) w
      (LeavesSpines f w.heap lists m 0 w →
        (∀ i < m, ∀ vs w₁, CallsInTurn f (w.heap.rows lists 0 i) w (.ok vs) w₁ → ∀ stack,
          (run stack).Reaches (go (.apply f (w.heap.row lists i))
            (.mapping f (lists.map w.heap.rest^[i + 1]) (pendingResults collect vs) collect ::
              stack) w₁)) ∧
        (∀ outcome w', (run []).Ends outcome w' ↔
          ∃ result w₁, calls result w₁ ∧ mapped collect result w₁ = (outcome, w')) ∧
        (∀ vs w₁, calls (.ok vs) w₁ → ∃ v w', mapped collect (.ok vs) w₁ = (.value v, w') ∧
          w₁.heap.ListsAnew w'.heap v (if collect then vs else []) ∧
          ∀ stack, (run stack).Comes ⟨.resume v, stack, w'⟩) ∧
        ∀ u w₁, calls (.error (.fault u)) w₁ →
          ∀ stack, (run stack).Comes ⟨.unwind u, stack, w₁⟩) := by
  have hstep := apply_mapping hp hname f
  refine ⟨fun stack => ?_, fun lists hfinite => ?_⟩
  · rw [hstep]
    rfl
  · obtain ⟨m, hm⟩ := Heap.exists_shortest hfinite
    refine ⟨m, hm, fun hleaves => ?_⟩
    have hbegin : ∀ stack, (go (.apply (.primitive p) (f :: lists)) stack w).Reaches
        (mapping f (lists.map w.heap.rest^[0]) (pendingResults collect []) collect stack w) := by
      intro stack
      refine Reaches.next (.of_eq ((hstep lists stack w).trans ?_))
      cases collect <;> simp [pendingResults]
    have hends : ∀ outcome w', (go (.apply (.primitive p) (f :: lists)) [] w).Ends outcome w' ↔
        ∃ result w₁, CallsInTurn f (w.heap.rows lists 0 m) w result w₁ ∧
          mapped collect result w₁ = (outcome, w') := by
      intro outcome w'
      have hnothing : ∀ result : Except Outcome (List Value), result.map ([] ++ ·) = result := by
        intro result
        cases result <;> rfl
      rw [(hbegin []).ends_iff, ends_mapping hm (Nat.zero_add m) hleaves]
      simp only [hnothing]
    refine ⟨fun i hi vs w₁ hcalls stack => ?_, hends, fun vs w₁ hcalls => ?_,
      fun u w₁ hcalls => Ends.unwinds ((hends _ _).2 ⟨_, w₁, hcalls, rfl⟩)⟩
    · have hreaches := reaches_mapping hm (by omega) hleaves hcalls collect [] stack
      rw [Nat.zero_add, List.nil_append] at hreaches
      have hsame := hleaves i (by omega) vs w₁ hcalls
      rw [mapping_call hm hi hsame] at hreaches
      exact (hbegin stack).trans hreaches
    · exact ⟨_, _, rfl, w₁.heap.listsAnew_list _,
        Ends.resumes ((hends _ _).2 ⟨_, w₁, hcalls, rfl⟩)⟩

/-- A world with a circle of one pair, and with a list of two elements. -/
def World.withCircle : World where
  heap := { pairs := #[⟨.boolean true, .pair ⟨0⟩⟩, ⟨.nil, .pair ⟨2⟩⟩, ⟨.boolean false, .nil⟩] }
  host := nowhere
  maxDepth := 1

/-- For instance pairs of the elements of a circle and of a list. -/
theorem Step.maps_along_circle :
    let w := World.withCircle
    let p : Primitive := ⟨"map", .control .map, 1, none⟩
    let lists : List Value := [.pair ⟨0⟩, .pair ⟨1⟩]
    let f : Value := .primitive .cons
    (p ∈ Primitive.table ∧ p.name = "map") ∧
    (∃ l ∈ lists, ∃ n, w.heap.EndsAfter l n) ∧ w.heap.Shortest lists 2 ∧
      LeavesSpines f w.heap lists 2 0 w ∧
      ∃ v w', (go (.apply (.primitive p) (f :: lists)) [] w).Ends (.value v) w' ∧
        w'.heap.Lists v [.pair ⟨3⟩, .pair ⟨4⟩] ∧
        w'.heap.pair ⟨3⟩ = ⟨.boolean true, .nil⟩ ∧
        w'.heap.pair ⟨4⟩ = ⟨.boolean true, .boolean false⟩ := by
  intro w p lists f
  have hends : w.heap.EndsAfter (.pair ⟨1⟩) 2 := ⟨by decide, rfl⟩
  have hendless : w.heap.Endless (.pair ⟨0⟩) := by
    intro n
    induction n with
    | zero => rfl
    | succ n ih => exact ih
  have hfinite : ∃ l ∈ lists, ∃ n, w.heap.EndsAfter l n := ⟨_, by simp [lists], 2, hends⟩
  have hshortest : w.heap.Shortest lists 2 := by
    refine ⟨fun l hl n hn => ?_, _, by simp [lists], hends⟩
    rcases List.mem_pair.1 hl with rfl | rfl
    · exact absurd hendless hn.not_endless
    · exact (hends.unique hn).le
  have hp : p ∈ Primitive.table := by decide +kernel
  obtain ⟨m, hm, hmaps⟩ := (maps_in_order hp true rfl f w).2 lists hfinite
  obtain rfl : 2 = m := hshortest.unique hm
  -- the first call makes pair 3, the second one pair 4
  have hfirst : ∃ w₁, (go (.apply f (w.heap.row lists 0)) [] w).Ends (.value (.pair ⟨3⟩)) w₁ ∧
      w.heap.SameSpines lists 2 w₁.heap ∧
      ∃ w₂, (go (.apply f (w.heap.row lists 1)) [] w₁).Ends (.value (.pair ⟨4⟩)) w₂ ∧
        w₂.heap.pairs[3]? = some ⟨.boolean true, .nil⟩ ∧
        w₂.heap.pairs[4]? = some ⟨.boolean true, .boolean false⟩ :=
    ⟨_, ⟨2, rfl⟩, by unfold Heap.SameSpines; decide, _, ⟨2, rfl⟩, rfl, rfl⟩
  obtain ⟨w₁, hcall, hsame, w₂, hcall', hthree, hfour⟩ := hfirst
  have hleaves : LeavesSpines f w.heap lists 2 0 w := by
    intro i hi vs w' hcalls
    rw [Nat.zero_add] at hi
    interval_cases i
    · obtain ⟨-, rfl⟩ := CallsInTurn.none_iff.1 hcalls
      exact .refl _ lists 2
    · rw [Heap.rows_succ] at hcalls
      obtain ⟨outcome, w'', hthis, hrest⟩ := CallsInTurn.cons_iff.1 hcalls
      obtain ⟨rfl, rfl⟩ := hcall.unique hthis
      obtain ⟨result, hothers, -⟩ := hrest
      obtain ⟨-, rfl⟩ := CallsInTurn.none_iff.1 hothers
      exact hsame
  obtain ⟨-, -, hreturns, -⟩ := hmaps hleaves
  have hcalls : CallsInTurn f (w.heap.rows lists 0 2) w (.ok [.pair ⟨3⟩, .pair ⟨4⟩]) w₂ := by
    rw [Heap.rows_succ, Heap.rows_succ]
    exact .returned hcall (.returned hcall' (.none w₂))
  obtain ⟨v, w', hmapped, hlist, hcomes⟩ := hreturns _ _ hcalls
  have hends' : (go (.apply (.primitive p) (f :: lists)) [] w).Ends (.value v) w' :=
    (hcomes []).reaches.ends ⟨1, rfl⟩
  refine ⟨⟨hp, rfl⟩, hfinite, hm, hleaves, v, w', hends', hlist.mono fun _ _ hr => hr.2, ?_⟩
  cases hmapped
  have hext := w₂.heap.extends_listStar [.pair ⟨3⟩, .pair ⟨4⟩] .nil
  exact ⟨Heap.pair_eq_of_getElem? (hext.1.pairs _ _ hthree),
    Heap.pair_eq_of_getElem? (hext.1.pairs _ _ hfour)⟩

end Scheme
