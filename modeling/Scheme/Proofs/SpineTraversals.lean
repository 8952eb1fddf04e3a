import Mathlib.Data.List.Iterate
import Mathlib.Data.Nat.Find
import Scheme.Interpreter
import Scheme.Proofs.EndlessSpines
/-!
# Traversals of spines

A spine passes some number of pairs and ends in another value, or it never ends. The two markers of
`Heap.chase` tell which: on a spine that ends they never stand on the same pair, and on one that
runs in a circle they meet as soon as the slower one has gone a multiple of the circle's length that
takes it into the circle. What counts pairs, what recognizes lists and what takes lists apart
therefore agree on every value.
-/

namespace Scheme

namespace Heap

/-- Following `rest` from the value comes to something else than a pair, after so many pairs. -/
structure EndsAfter (h : Heap) (v : Value) (n : Nat) : Prop where
  pairs : ∀ i < n, (h.rest^[i] v).isPair = true
  last : (h.rest^[n] v).isPair = false

variable {h : Heap} {v slow fast : Value} {n passed budget : Nat}

theorem EndsAfter.unique {m : Nat} (hm : h.EndsAfter v m) (hn : h.EndsAfter v n) : m = n := by
  rcases Nat.lt_trichotomy m n with hlt | heq | hlt
  · exact absurd (hn.pairs m hlt) (by simp [hm.last])
  · exact heq
  · exact absurd (hm.pairs n hlt) (by simp [hn.last])

theorem EndsAfter.not_endless (hn : h.EndsAfter v n) : ¬h.Endless v := by
  intro hendless
  have hpair := hendless n
  rw [hn.last] at hpair
  cases hpair

/-- Every spine has an end or has none. -/
theorem endsAfter_or_endless (h : Heap) (v : Value) : (∃ n, h.EndsAfter v n) ∨ h.Endless v := by
  by_cases hend : ∃ n, (h.rest^[n] v).isPair = false
  · refine Or.inl ⟨Nat.find hend, fun i hi => ?_, Nat.find_spec hend⟩
    exact Bool.not_eq_false _ ▸ Nat.find_min hend hi
  · exact Or.inr fun n => Bool.not_eq_false _ ▸ not_exists.1 hend n

/-- There are not more pairs along a spine that ends than in the heap. -/
theorem EndsAfter.le_size (hc : h.Closed) (hv : h.Has v) (hn : h.EndsAfter v n) :
    n ≤ h.pairs.size := by
  by_contra hlt
  exact hn.not_endless (endless_of_pairs hc hv fun i hi => hn.pairs i (by omega))

/-- The pairs along a spine that ends are all different. -/
theorem EndsAfter.iterate_ne (hn : h.EndsAfter v n) {i j : Nat} (hij : i < j) (hj : j ≤ n) :
    h.rest^[i] v ≠ h.rest^[j] v :=
  fun hsame => hn.not_endless (endless_of_return hij hsame fun m hm => hn.pairs m (by omega))

/-! ## Two markers -/

theorem rest_iterate (h : Heap) (v : Value) (n : Nat) : h.rest (h.rest^[n] v) = h.rest^[n + 1] v :=
  (Function.iterate_succ_apply' _ _ _).symm

theorem chase_beyond (hfast : fast.isPair = false) :
    h.chase (budget + 1) slow fast passed = some (.ended passed fast) := by
  unfold chase
  cases fast <;> first | rfl | cases hfast

theorem chase_last (hfast : fast.isPair = true) (hrest : (h.rest fast).isPair = false) :
    h.chase (budget + 1) slow fast passed = some (.ended (passed + 1) (h.rest fast)) := by
  unfold chase
  cases fast with
  | pair ref =>
      simp only [Heap.rest] at hrest ⊢
      split
      · rename_i hpair
        rw [hpair] at hrest
        cases hrest
      · rfl
  | _ => cases hfast

/-- One round of the chase. -/
theorem chase_round (hfast : fast.isPair = true) (hrest : (h.rest fast).isPair = true) :
    h.chase (budget + 1) slow fast passed =
      if (h.rest slow).isPair ∧ h.rest slow = h.rest (h.rest fast) then some .met
      else h.chase budget (h.rest slow) (h.rest (h.rest fast)) (passed + 2) := by
  cases fast with
  | pair ref =>
      cases hnext : h.rest (.pair ref) with
      | pair next =>
          have hnext : (h.pair ref).rest = .pair next := hnext
          simp only [chase, hnext]
          rfl
      | _ =>
          rw [hnext] at hrest
          cases hrest
  | _ => cases hfast

/-- On a spine that ends the faster marker comes to the end. -/
theorem EndsAfter.chase_eq (hn : h.EndsAfter v n) {k : Nat} (hk : 2 * k ≤ n)
    (hbudget : n < 2 * (k + budget)) :
    h.chase budget (h.rest^[k] v) (h.rest^[2 * k] v) (2 * k) =
      some (.ended n (h.rest^[n] v)) := by
  induction budget generalizing k with
  | zero => omega
  | succ budget ih =>
      rcases Nat.lt_trichotomy (2 * k + 1) n with hmore | hlast | hnone
      · have hapart : h.rest^[k + 1] v ≠ h.rest^[2 * k + 2] v :=
          hn.iterate_ne (by omega) (by omega)
        rw [chase_round (hn.pairs _ (by omega)) (by
          rw [rest_iterate]
          exact hn.pairs _ hmore)]
        simp only [rest_iterate]
        rw [if_neg fun hmet => hapart hmet.2]
        exact ih (k := k + 1) (by omega) (by omega)
      · subst hlast
        rw [chase_last (hn.pairs _ (by omega)) (by
          rw [rest_iterate]
          exact hn.last), rest_iterate]
      · obtain rfl : n = 2 * k := by omega
        exact chase_beyond hn.last

/-- The slower marker has gone a multiple of the circle's length, which takes it into the circle,
when the faster one has gone another. It has not come round to a pair for the second time then. -/
theorem Endless.exists_meeting (hc : h.Closed) (hv : h.Has v) (hendless : h.Endless v) :
    ∃ k, 0 < k ∧ k ≤ h.pairs.size ∧ h.rest^[k] v = h.rest^[2 * k] v := by
  obtain ⟨i, j, hij, hj, hsame⟩ := exists_repeated_pair hc hv fun n _ => hendless n
  have hround : ∀ n, i ≤ n → h.rest^[n + (j - i)] v = h.rest^[n] v := by
    intro n hn
    rw [show n + (j - i) = n - i + j by omega, Function.iterate_add_apply, ← hsame,
      ← Function.iterate_add_apply, Nat.sub_add_cancel hn]
  have hrounds : ∀ m n, i ≤ n → h.rest^[n + m * (j - i)] v = h.rest^[n] v := by
    intro m
    induction m with
    | zero => simp
    | succ m ih =>
        intro n hn
        rw [Nat.succ_mul, ← Nat.add_assoc, hround _ (by omega), ih n hn]
  have hmultiple : j / (j - i) * (j - i) = j - j % (j - i) := by
    have hdiv := Nat.div_add_mod' j (j - i)
    omega
  have hless : j % (j - i) < j - i := Nat.mod_lt _ (by omega)
  refine ⟨j / (j - i) * (j - i), by omega, by omega, ?_⟩
  rw [Nat.two_mul, hrounds _ _ (by omega)]

/-- On a spine without an end the markers meet. -/
theorem Endless.chase_eq (hendless : h.Endless v) {m : Nat}
    (hmeet : h.rest^[m] v = h.rest^[2 * m] v) {k : Nat} (hk : k < m) (hbudget : m ≤ k + budget) :
    h.chase budget (h.rest^[k] v) (h.rest^[2 * k] v) (2 * k) = some .met := by
  induction budget generalizing k with
  | zero => omega
  | succ budget ih =>
      rw [chase_round (hendless _) (by
        rw [rest_iterate]
        exact hendless _)]
      simp only [rest_iterate]
      split
      · rfl
      · rename_i hapart
        have hne : k + 1 ≠ m := by
          rintro rfl
          exact hapart ⟨hendless _, hmeet⟩
        exact ih (k := k + 1) (by omega) (by omega)

/-! ## Lengths and lists -/

theorem EndsAfter.chaseFrom_eq (hn : h.EndsAfter v n) (hsize : n ≤ h.pairs.size) :
    h.chaseFrom v = some (.ended n (h.rest^[n] v)) :=
  hn.chase_eq (k := 0) (by omega) (by omega)

theorem Endless.chaseFrom_eq (hc : h.Closed) (hv : h.Has v) (hendless : h.Endless v) :
    h.chaseFrom v = some .met := by
  obtain ⟨m, hm, hsize, hmeet⟩ := hendless.exists_meeting hc hv
  exact hendless.chase_eq hmeet (k := 0) hm (by omega)

theorem EndsAfter.spineLength?_eq (hn : h.EndsAfter v n) (hsize : n ≤ h.pairs.size) :
    h.spineLength? v = some n := by
  rw [spineLength?, hn.chaseFrom_eq hsize]

theorem Endless.spineLength?_eq (hc : h.Closed) (hv : h.Has v) (hendless : h.Endless v) :
    h.spineLength? v = none := by
  rw [spineLength?, hendless.chaseFrom_eq hc hv]

theorem EndsAfter.isList_eq (hn : h.EndsAfter v n) (hsize : n ≤ h.pairs.size) :
    h.isList v = (h.rest^[n] v).isNil := by
  rw [isList, hn.chaseFrom_eq hsize]
  cases h.rest^[n] v <;> rfl

theorem Endless.isList_eq (hc : h.Closed) (hv : h.Has v) (hendless : h.Endless v) :
    h.isList v = false := by
  rw [isList, hendless.chaseFrom_eq hc hv]

theorem spineLength?_eq_some_iff (hc : h.Closed) (hv : h.Has v) :
    h.spineLength? v = some n ↔ h.EndsAfter v n := by
  rcases h.endsAfter_or_endless v with ⟨m, hm⟩ | hendless
  · rw [hm.spineLength?_eq (hm.le_size hc hv), Option.some_inj]
    exact ⟨fun heq => heq ▸ hm, fun hn => hm.unique hn⟩
  · rw [hendless.spineLength?_eq hc hv]
    exact ⟨nofun, fun hn => absurd hendless hn.not_endless⟩

theorem spineLength?_eq_none_iff (hc : h.Closed) (hv : h.Has v) :
    h.spineLength? v = none ↔ h.Endless v := by
  refine ⟨fun hnone => ?_, fun hendless => hendless.spineLength?_eq hc hv⟩
  rcases h.endsAfter_or_endless v with ⟨n, hn⟩ | hendless
  · rw [hn.spineLength?_eq (hn.le_size hc hv)] at hnone
    cases hnone
  · exact hendless

theorem isNil_iff : v.isNil = true ↔ v = .nil := by
  cases v <;> simp [Value.isNil]

theorem isList_iff (hc : h.Closed) (hv : h.Has v) :
    h.isList v = true ↔ ∃ n, h.EndsAfter v n ∧ h.rest^[n] v = .nil := by
  rcases h.endsAfter_or_endless v with ⟨m, hm⟩ | hendless
  · rw [hm.isList_eq (hm.le_size hc hv), isNil_iff]
    exact ⟨fun heq => ⟨m, hm, heq⟩, fun ⟨n, hn, heq⟩ => hm.unique hn ▸ heq⟩
  · rw [hendless.isList_eq hc hv]
    exact ⟨nofun, fun ⟨n, hn, _⟩ => absurd hendless hn.not_endless⟩

/-! ## Elements -/

/-- The elements of the first so many pairs along a spine. -/
def along (h : Heap) (v : Value) (n : Nat) : List Value :=
  (List.iterate h.rest v n).map h.first

theorem EndsAfter.rest (hn : h.EndsAfter v (n + 1)) : h.EndsAfter (h.rest v) n where
  pairs i hi := hn.pairs (i + 1) (by omega)
  last := hn.last

theorem EndsAfter.follow_eq (hn : h.EndsAfter v n) {budget : Nat} (hbudget : n ≤ budget)
    (met : List Value) :
    h.follow budget met v = some ((h.along v n).reverse ++ met, h.rest^[n] v) := by
  induction n generalizing v budget met with
  | zero =>
      have hlast : v.isPair = false := hn.last
      cases budget <;> cases v <;> first | rfl | cases hlast
  | succ n ih =>
      obtain ⟨budget, rfl⟩ : ∃ b, budget = b + 1 := ⟨budget - 1, by omega⟩
      have hpair : v.isPair = true := hn.pairs 0 (by omega)
      cases v with
      | pair ref =>
          rw [follow, Function.iterate_succ_apply]
          refine (ih hn.rest (by omega) _).trans ?_
          simp [along, List.iterate, Heap.first, Heap.rest]
      | _ => cases hpair

theorem Endless.follow_eq (hendless : h.Endless v) (budget : Nat) (met : List Value) :
    h.follow budget met v = none := by
  induction budget generalizing v met with
  | zero =>
      have hpair : v.isPair = true := hendless 0
      cases v <;> first | rfl | cases hpair
  | succ budget ih =>
      have hpair : v.isPair = true := hendless 0
      have hrest : h.Endless (h.rest v) := fun n => hendless (n + 1)
      cases v with
      | pair ref => exact ih hrest _
      | _ => cases hpair

theorem EndsAfter.spine?_eq (hc : h.Closed) (hv : h.Has v) (hn : h.EndsAfter v n) :
    h.spine? v = some (h.along v n, h.rest^[n] v) := by
  simp [spine?, hn.follow_eq (hn.le_size hc hv)]

theorem Endless.spine?_eq (hendless : h.Endless v) : h.spine? v = none := by
  rw [spine?, hendless.follow_eq]
  rfl

end Heap

namespace World

variable {w : World} {v : Value} {n : Nat}

/-- The failure of what takes a proper list. -/
def notList (w : World) (v : Value) : Failure :=
  .wrongKind .properList (w.heap.written v)

/-- Taking a value apart along a spine that ends. -/
theorem elements_of_ends (hc : w.heap.Closed) (hv : w.heap.Has v) (hn : w.heap.EndsAfter v n) :
    elements v w =
      if w.heap.isList v then .value (w.heap.along v n) w else fail (w.notList v) w := by
  simp only [elements, bind, Action.bind, spine, hn.spine?_eq hc hv,
    hn.isList_eq (hn.le_size hc hv)]
  split <;> rfl

theorem elements_of_endless (hendless : w.heap.Endless v) : elements v w = .trap .endless w := by
  simp only [elements, bind, Action.bind, spine, hendless.spine?_eq]

theorem elements_eq_value_iff (hc : w.heap.Closed) (hv : w.heap.Has v) {xs : List Value}
    {w' : World} :
    elements v w = .value xs w' ↔
      w.heap.isList v = true ∧ (∃ n, w.heap.EndsAfter v n ∧ xs = w.heap.along v n) ∧ w' = w := by
  rcases w.heap.endsAfter_or_endless v with ⟨m, hm⟩ | hendless
  · rw [elements_of_ends hc hv hm]
    cases w.heap.isList v with
    | true =>
        simp only [if_true, Result.value.injEq, true_and]
        constructor
        · rintro ⟨rfl, rfl⟩
          exact ⟨⟨m, hm, rfl⟩, rfl⟩
        · rintro ⟨⟨n, hn, rfl⟩, rfl⟩
          rw [hm.unique hn]
          exact ⟨rfl, rfl⟩
    | false => simp [fail]
  · simp [elements_of_endless hendless, hendless.isList_eq hc hv]

theorem elements_eq_fault_iff (hc : w.heap.Closed) (hv : w.heap.Has v) {f : Fault} {w' : World} :
    elements v w = .fault f w' ↔
      (∃ n, w.heap.EndsAfter v n ∧ w.heap.rest^[n] v ≠ .nil) ∧ f = .failed (w.notList v) ∧
        w' = w.note (.failure (w.notList v)) := by
  rcases w.heap.endsAfter_or_endless v with ⟨m, hm⟩ | hendless
  · have hother : (∃ n, w.heap.EndsAfter v n ∧ w.heap.rest^[n] v ≠ .nil) ↔
        w.heap.isList v = false := by
      rw [hm.isList_eq (hm.le_size hc hv), ← Bool.not_eq_true, Heap.isNil_iff]
      exact ⟨fun ⟨n, hn, hne⟩ => hm.unique hn ▸ hne, fun hne => ⟨m, hm, hne⟩⟩
    rw [elements_of_ends hc hv hm, hother]
    cases w.heap.isList v with
    | true => simp
    | false => simp [fail, eq_comm]
  · rw [elements_of_endless hendless]
    exact ⟨nofun, fun ⟨⟨n, hn, _⟩, _⟩ => absurd hendless hn.not_endless⟩

/-- What a step makes of a value that it takes for a list: it goes on with the elements of a proper
list, unwinds at any other end of the spine, and gets nowhere on a spine without an end. -/
structure Consumes (w : World) (v : Value) (stack : List Pending) (step : Step)
    (use : List Value → Step) : Prop where
  accepts : w.heap.isList v = true → ∀ n, w.heap.EndsAfter v n → step = use (w.heap.along v n)
  refuses : w.heap.isList v = false → ∀ n, w.heap.EndsAfter v n →
    step = .go (.unwind (.failed (w.notList v))) stack (w.note (.failure (w.notList v)))
  endless : w.heap.Endless v → step = .done (.trap .endless) w

theorem consumes_elements (hc : w.heap.Closed) (hv : w.heap.Has v) (stack : List Pending)
    {step : Step} {use : List Value → World → Step}
    (hstep : step = .after (elements v) stack w use) : w.Consumes v stack step (use · w) where
  accepts hlist n hn := by simp only [hstep, Step.after, elements_of_ends hc hv hn, hlist, if_true]
  refuses hlist n hn := by
    simp only [hstep, Step.after, elements_of_ends hc hv hn, hlist, Bool.false_eq_true, if_false]
    rfl
  endless hendless := by simp only [hstep, Step.after, elements_of_endless hendless]

end World

/-- The primitives that tell lists from other values or take them apart. -/
theorem Primitive.of_list_name : ∀ p ∈ table,
    (p.name = "list?" → p = exactly 1 "list?" (.list .isList)) ∧
    (p.name = "length" → p = exactly 1 "length" (.list .length)) ∧
    (p.name = "apply" → p = ⟨"apply", .control .apply, 2, none⟩) ∧
    (p.name = "list->vector" → p = exactly 1 "list->vector" (.vector .ofList)) ∧
    (p.name = "list->string" → p = exactly 1 "list->string" (.string .ofList)) := by
  decide +kernel

/-- An action after another one is a step after a step. -/
theorem Step.answer_bind {α : Type} (x : Action α) (f : α → Action Value) (stack : List Pending)
    (w : World) :
    Step.answer (x >>= f) stack w = Step.after x stack w fun a w => Step.answer (f a) stack w := by
  change Step.answer (Action.bind x f) stack w = _
  unfold Step.answer Step.after Action.bind
  cases x w <;> rfl

theorem Step.apply_spreading (f : Value) (vs : List Value) (v : Value) (stack : List Pending)
    (w : World) :
    Step.apply (.primitive ⟨"apply", .control .apply, 2, none⟩) (f :: vs ++ [v]) stack w =
      Step.after (World.elements v) stack w fun xs w => .go (.apply f (vs ++ xs)) stack w := by
  have hcount : Step.checkCount ⟨"apply", .control .apply, 2, none⟩ (f :: vs ++ [v]) = pure () := by
    simp [Step.checkCount]
  have hlast : (f :: vs ++ [v]).getLastD .nil = v := by
    rw [List.getLastD_eq_getLast?, List.getLast?_concat, Option.getD_some]
  simp only [Step.apply, hcount, Step.control, hlast]
  simp [Step.after, pure, Action.pure]

/-- Counting the pairs of a spine, recognizing a list and taking a list apart come to an end and
agree on every value, as do the primitives that use them; only what takes a list apart does not get
past a spine without an end. -/
theorem World.traversals_agree {w : World} {v : Value} (hc : w.heap.Closed) (hv : w.heap.Has v) :
    (w.heap.chaseFrom v).isSome = true ∧
    (∀ n, w.heap.spineLength? v = some n ↔ w.heap.EndsAfter v n) ∧
    (w.heap.spineLength? v = none ↔ w.heap.Endless v) ∧
    (w.heap.isList v = true ↔ ∃ n, w.heap.EndsAfter v n ∧ w.heap.rest^[n] v = .nil) ∧
    (∀ xs w', World.elements v w = .value xs w' ↔
      w.heap.isList v = true ∧ (∃ n, w.heap.EndsAfter v n ∧ xs = w.heap.along v n) ∧ w' = w) ∧
    (∀ f w', World.elements v w = .fault f w' ↔
      (∃ n, w.heap.EndsAfter v n ∧ w.heap.rest^[n] v ≠ .nil) ∧ f = .failed (w.notList v) ∧
        w' = w.note (.failure (w.notList v))) ∧
    ∀ p ∈ Primitive.table, ∀ stack,
      (p.name = "list?" → Step.apply (.primitive p) [v] stack w =
        .go (.resume (.boolean (w.heap.isList v))) stack w) ∧
      (p.name = "length" → Step.apply (.primitive p) [v] stack w =
        match w.heap.spineLength? v with
        | some n => .go (.resume (.number (.ofNat n))) stack w
        | none => .go (.unwind (.failed .circularLength)) stack
            (w.note (.failure .circularLength))) ∧
      (p.name = "apply" → ∀ f vs,
        w.Consumes v stack (Step.apply (.primitive p) (f :: vs ++ [v]) stack w) fun xs =>
          .go (.apply f (vs ++ xs)) stack w) ∧
      (p.name = "list->vector" →
        w.Consumes v stack (Step.apply (.primitive p) [v] stack w) fun xs =>
          .answer (World.alter (·.addVector xs.toArray)) stack w) ∧
      (p.name = "list->string" →
        w.Consumes v stack (Step.apply (.primitive p) [v] stack w) fun xs =>
          .answer (StringOperation.ofValues xs) stack w) := by
  refine ⟨?_, fun n => Heap.spineLength?_eq_some_iff hc hv, Heap.spineLength?_eq_none_iff hc hv,
    Heap.isList_iff hc hv, fun xs w' => elements_eq_value_iff hc hv,
    fun f w' => elements_eq_fault_iff hc hv, fun p hp stack => ?_⟩
  · rcases w.heap.endsAfter_or_endless v with ⟨n, hn⟩ | hendless
    · rw [hn.chaseFrom_eq (hn.le_size hc hv), Option.isSome_some]
    · rw [hendless.chaseFrom_eq hc hv, Option.isSome_some]
  · obtain ⟨hlist, hlength, happly, hvector, hstring⟩ := Primitive.of_list_name p hp
    refine ⟨?_, ?_, ?_, ?_, ?_⟩
    · intro hname
      rw [hlist hname]
      rfl
    · intro hname
      rw [hlength hname]
      change Step.answer (World.look (·.spineLength? v) >>= _) stack w = _
      rw [Step.answer_bind, Step.after, World.look]
      cases w.heap.spineLength? v <;> rfl
    · intro hname f vs
      rw [happly hname]
      exact consumes_elements hc hv stack (Step.apply_spreading f vs v stack w)
    · intro hname
      rw [hvector hname]
      exact consumes_elements hc hv stack (Step.answer_bind (elements v) _ stack w)
    · intro hname
      rw [hstring hname]
      exact consumes_elements hc hv stack (Step.answer_bind (elements v) _ stack w)

/-- For instance a spine of one pair that leads into a circle of two, and a spine of three pairs
that ends in a boolean. -/
theorem World.traversals_of_circle :
    let w : World :=
      { heap := { pairs := #[⟨.nil, .pair ⟨1⟩⟩, ⟨.nil, .pair ⟨2⟩⟩, ⟨.nil, .pair ⟨1⟩⟩,
          ⟨.nil, .pair ⟨4⟩⟩, ⟨.nil, .pair ⟨5⟩⟩, ⟨.nil, .boolean true⟩] }
        host := World.nowhere
        maxDepth := 1 }
    (w.heap.Closed ∧ w.heap.Has (.pair ⟨0⟩) ∧ w.heap.Has (.pair ⟨3⟩)) ∧
      w.heap.spineLength? (.pair ⟨0⟩) = none ∧ w.heap.spineLength? (.pair ⟨3⟩) = some 3 ∧
      w.heap.isList (.pair ⟨3⟩) = false := by
  intro w
  have hclosed : w.heap.Closed := by
    constructor <;> simp [w, Heap.Has]
  obtain ⟨-, -, hendless, -⟩ := traversals_agree hclosed (v := .pair ⟨0⟩) (by decide)
  obtain ⟨-, hlength, -, hlist, -⟩ := traversals_agree hclosed (v := .pair ⟨3⟩) (by decide)
  have hends : w.heap.EndsAfter (.pair ⟨3⟩) 3 := ⟨by decide, rfl⟩
  refine ⟨⟨hclosed, by decide, by decide⟩, hendless.2 ?_, (hlength 3).2 hends, ?_⟩
  · exact Heap.endless_of_return (i := 1) (j := 3) (by decide) rfl (by decide)
  · rw [← Bool.not_eq_true, hlist]
    rintro ⟨n, hn, hnil⟩
    rw [← hends.unique hn] at hnil
    cases hnil

end Scheme
