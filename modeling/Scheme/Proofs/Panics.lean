import Scheme.Proofs.CodeRuns
import Scheme.Proofs.Printing
import Scheme.Proofs.SpineTraversals
import Scheme.Proofs.Traps
/-!
# Calls that panic

A call of a primitive with an admissible number of arguments panics in five cases only: a remainder
or a modulus by NaN, a least common multiple whose fold divides the smallest integer by minus one,
and a change of a vector or of a string at a position that is no number and shows it. In all other
cases it returns with a value or a failure, or goes on with an evaluation, unless it walks along an
argument whose spine has no end. What it reads and writes of strings and vectors is there, and its
arithmetic stays in range.
-/

namespace Scheme

/-! ## Positions -/

section

open Scheme.Action

variable {w : World}

theorem World.commits_both {α β : Type} {x : Action α} {y : Action β} {Q : α → Prop}
    {R : β → Prop} (hx : (x w).Commits w.heap fun a h => h = w.heap ∧ Q a)
    (hy : ∀ w', w'.heap = w.heap → (y w').Commits w.heap fun b h => h = w.heap ∧ R b) :
    (both x y w).Commits w.heap fun r h => h = w.heap ∧ Q r.1 ∧ R r.2 := by
  unfold both
  cases hfirst : x w with
  | trap t w' =>
      rw [hfirst] at hx
      exact hx
  | value a w' =>
      rw [hfirst] at hx
      have hsecond := hy w' hx.1
      simp only
      cases hlast : y w' with
      | value b w'' =>
          rw [hlast] at hsecond
          exact ⟨hsecond.1, hx.2, hsecond.2⟩
      | fault e w'' | trap t w'' =>
          rw [hlast] at hsecond
          exact hsecond
  | fault e w' =>
      rw [hfirst] at hx
      have hsecond := hy w' hx
      simp only
      cases hlast : y w' with
      | value b w'' =>
          rw [hlast] at hsecond
          exact hsecond.1
      | fault e w'' | trap t w'' =>
          rw [hlast] at hsecond
          exact hsecond

theorem StringOperation.commits_get {x y : Value} :
    (StringOperation.get.perform [x, y] w).Commits w.heap fun _ _ =>
      ∃ ref i, x = .string ref ∧ y.index? = some i ∧ i < (w.heap.string ref).size := by
  refine commits_bind World.commits_expect fun ref w₁ hw₁ hx => ?_
  rw [← hw₁]
  refine commits_bind World.commits_look fun chars w₂ hw₂ hchars => ?_
  rw [← hw₂] at hchars ⊢
  refine commits_bind World.commits_position fun i w₃ hw₃ hi => ?_
  refine ⟨ref, i, ?_, hi.1, hchars ▸ hi.2⟩
  cases x <;> cases hx
  rfl

theorem VectorOperation.commits_get {x y : Value} :
    (VectorOperation.get.perform [x, y] w).Commits w.heap fun _ _ =>
      ∃ ref i, x = .vector ref ∧ y.index? = some i ∧ i < (w.heap.vector ref).size := by
  refine commits_bind World.commits_expect fun ref w₁ hw₁ hx => ?_
  rw [← hw₁]
  refine commits_bind World.commits_look fun length w₂ hw₂ hlength => ?_
  rw [← hw₂] at hlength ⊢
  refine commits_bind World.commits_position fun i w₃ hw₃ hi => ?_
  refine ⟨ref, i, ?_, hi.1, hlength ▸ hi.2⟩
  cases x <;> cases hx
  rfl

theorem StringOperation.commits_substring {x y z : Value} :
    (StringOperation.substring.perform [x, y, z] w).Commits w.heap fun _ _ =>
      ∃ ref start stop, x = .string ref ∧ y.index? = some start ∧ z.index? = some stop ∧
        start ≤ stop ∧ stop ≤ (w.heap.string ref).size := by
  refine commits_bind World.commits_expect fun ref w₁ hw₁ hx => ?_
  rw [← hw₁]
  refine commits_bind (World.commits_both World.commits_index fun w' hw' =>
    hw' ▸ World.commits_index) fun r w₂ hw₂ hr => ?_
  obtain ⟨start, stop⟩ := r
  rw [← hw₂]
  refine commits_bind World.commits_look fun chars w₃ hw₃ hchars => ?_
  rw [← hw₃] at hchars ⊢
  by_cases hrange : start ≤ stop ∧ stop ≤ chars.size
  · simp only [hrange, and_self, if_true]
    refine ⟨ref, start, stop, ?_, hr.1, hr.2, hrange.1, hchars ▸ hrange.2⟩
    cases x <;> cases hx
    rfl
  · simp only [hrange, if_false]
    rfl

end

namespace Primitive

/-- A stretch of a string or vector, and the length of the whole. -/
structure Stretch where
  start : Nat
  stop : Nat
  length : Nat

/-- The stretch is inside the whole. -/
def Stretch.Inside (s : Stretch) : Prop :=
  s.start ≤ s.stop ∧ s.stop ≤ s.length

/-- The primitives that take positions. -/
def indexers : List String :=
  ["string-ref", "string-set!", "substring", "vector-ref", "vector-set!"]

/-- The stretch that the arguments of a primitive name. -/
def stretch? (p : Primitive) (h : Heap) (vs : List Value) : Option Stretch :=
  match p.name, vs with
  | "string-ref", [.string ref, position] | "string-set!", [.string ref, position, _] =>
    position.index?.map fun i => ⟨i, i + 1, (h.string ref).size⟩
  | "substring", [.string ref, start, stop] =>
    start.index?.bind fun i => stop.index?.map fun j => ⟨i, j, (h.string ref).size⟩
  | "vector-ref", [.vector ref, position] | "vector-set!", [.vector ref, position, _] =>
    position.index?.map fun i => ⟨i, i + 1, (h.vector ref).size⟩
  | _, _ => none

/-- The slice that a primitive takes of its name or of its arguments, given their number. -/
def slice? (p : Primitive) (count : Nat) : Option Stretch :=
  match p.operation with
  | .direct (.list (.path _)) => some ⟨1, p.name.length - 1, p.name.length⟩
  | .control .apply => some ⟨1, count - 1, count⟩
  | .control .map | .control .forEach => some ⟨1, count, count⟩
  | _ => none

theorem inside_least : ∀ p ∈ table, ∀ s ∈ p.slice? p.least,
    s.start ≤ s.stop ∧ s.stop ≤ s.length := by
  decide +kernel

/-- More arguments only make room. -/
theorem inside_of_takes {p : Primitive} (hp : p ∈ table) {count : Nat}
    (htakes : p.takes count = true) {s : Stretch} (hs : p.slice? count = some s) : s.Inside := by
  have hleast := inside_least p hp
  have hle : p.least ≤ count := of_decide_eq_true (Bool.and_eq_true_iff.1 htakes).1
  unfold slice? at hleast hs
  unfold Stretch.Inside
  split at hs
  case h_5 => cases hs
  all_goals
    rename_i hoperation
    simp only [hoperation] at hleast
    have hroom := hleast _ rfl
    cases hs
    simp only at hroom ⊢
    omega

theorem eq_of_indexer : ∀ p ∈ table, p.name ∈ indexers →
    p ∈ [exactly 2 "string-ref" (.string .get), exactly 3 "string-set!" (.string .set),
      exactly 3 "substring" (.string .substring), exactly 2 "vector-ref" (.vector .get),
      exactly 3 "vector-set!" (.vector .set)] := by
  decide +kernel

/-- A successful call keeps inside. -/
theorem inside_of_call {p : Primitive} (hp : p ∈ table) (hname : p.name ∈ indexers)
    {operation : DirectOperation} (hoperation : p.operation = .direct operation)
    (vs : List Value) (w : World) :
    (p.call operation vs w).Commits w.heap fun _ _ =>
      ∃ s, p.stretch? w.heap vs = some s ∧ s.Inside := by
  have hentry := eq_of_indexer p hp hname
  simp only [List.mem_cons, List.not_mem_nil, or_false] at hentry
  rcases hentry with rfl | rfl | rfl | rfl | rfl <;> cases hoperation <;>
    refine commits_call fun w' hw hlength => ?_ <;> rw [← hw]
  · obtain ⟨x, y, rfl⟩ := List.length_eq_two.1 hlength
    refine StringOperation.commits_get.imp fun _ _ hinside => ?_
    obtain ⟨ref, i, hx, hi, hlt⟩ := hinside
    subst hx
    exact ⟨⟨i, i + 1, _⟩, by simp [stretch?, exactly, hi], Nat.le_succ i, hlt⟩
  · obtain ⟨x, y, z, rfl⟩ := List.length_eq_three.1 hlength
    refine StringOperation.commits_set.imp fun _ _ hinside => ?_
    obtain ⟨ref, i, c, hx, hi, hz, hlt, _⟩ := hinside
    subst hx
    exact ⟨⟨i, i + 1, _⟩, by simp [stretch?, exactly, hi], Nat.le_succ i, hlt⟩
  · obtain ⟨x, y, z, rfl⟩ := List.length_eq_three.1 hlength
    refine StringOperation.commits_substring.imp fun _ _ hinside => ?_
    obtain ⟨ref, i, j, hx, hi, hj, hle, hlt⟩ := hinside
    subst hx
    exact ⟨⟨i, j, _⟩, by simp [stretch?, exactly, hi, hj], hle, hlt⟩
  · obtain ⟨x, y, rfl⟩ := List.length_eq_two.1 hlength
    refine VectorOperation.commits_get.imp fun _ _ hinside => ?_
    obtain ⟨ref, i, hx, hi, hlt⟩ := hinside
    subst hx
    exact ⟨⟨i, i + 1, _⟩, by simp [stretch?, exactly, hi], Nat.le_succ i, hlt⟩
  · obtain ⟨x, y, z, rfl⟩ := List.length_eq_three.1 hlength
    refine VectorOperation.commits_set.imp fun _ _ hinside => ?_
    obtain ⟨ref, i, hx, hi, hlt, _⟩ := hinside
    subst hx
    exact ⟨⟨i, i + 1, _⟩, by simp [stretch?, exactly, hi], Nat.le_succ i, hlt⟩

/-! ## Panics -/

/-- The calls that panic, by the name of the primitive and the arguments. -/
inductive Panics (h : Heap) : String → List Value → Prop where
  | remainder {a b : Flonum} (hb : b.isNaN = true) : Panics h "remainder" [.number a, .number b]
  | modulo {a b : Flonum} (hb : b.isNaN = true) : Panics h "modulo" [.number a, .number b]
  | lcm {vs : List Value} {ns : List Flonum} (hvs : vs = ns.map .number)
      (hoverflows : NumberOperation.Overflows ns) : Panics h "lcm" vs
  | vectorSet {ref : Ref .vector} {position v : Value} (hposition : position.isOf .number = false)
      (hshown : h.Reaches position (.vector ref)) :
      Panics h "vector-set!" [.vector ref, position, v]
  | stringSet {ref : Ref .string} {position : Value} {c : Char}
      (hposition : position.isOf .number = false) (hshown : h.Reaches position (.string ref)) :
      Panics h "string-set!" [.string ref, position, .character c]

/-- The names of the primitives that can panic. -/
def panicking : List String :=
  ["remainder", "modulo", "lcm", "vector-set!", "string-set!"]

theorem Panics.name_mem {h : Heap} {name : String} {vs : List Value} (hpanics : Panics h name vs) :
    name ∈ panicking := by
  cases hpanics <;> simp [panicking]

/-- A primitive whose operation has no trap of its own. -/
def isSafe (p : Primitive) : Bool :=
  match p.operation with
  | .direct operation => !operation.isRisky
  | .control _ => true

theorem safe_or_panicking : ∀ p ∈ table, p.isSafe = true ∧ p.name ∉ panicking ∨
    p ∈ [exactly 2 "remainder" (.number .remainder), exactly 2 "modulo" (.number .modulo),
      atLeast 0 "lcm" (.number .lcm), exactly 3 "vector-set!" (.vector .set),
      exactly 3 "string-set!" (.string .set)] := by
  decide +kernel

section

variable {p : Primitive} {vs : List Value} {w : World} {t : Trap}

theorem length_eq_of_takes {count : Nat} {name : String} {operation : DirectOperation}
    (htakes : (exactly count name operation).takes vs.length = true) : vs.length = count := by
  unfold takes exactly at htakes
  simp only [Bool.and_eq_true, decide_eq_true_eq, Option.all_some] at htakes
  exact Nat.le_antisymm htakes.2 htakes.1

/-- The primitives that can panic do so exactly when they end in a trap, and that is never the one
of a walk without an end. -/
theorem trap?_of_panicking (hc : w.heap.Closed) (hvs : ∀ v ∈ vs, w.heap.Has v)
    (hentry : p ∈ [exactly 2 "remainder" (.number .remainder), exactly 2 "modulo" (.number .modulo),
      atLeast 0 "lcm" (.number .lcm), exactly 3 "vector-set!" (.vector .set),
      exactly 3 "string-set!" (.string .set)]) (htakes : p.takes vs.length = true)
    {operation : DirectOperation} (hoperation : p.operation = .direct operation) :
    ∃ trap ≠ Trap.endless, ∀ t, (operation.perform vs w).trap? = some t ↔
      t = trap ∧ Panics w.heap p.name vs := by
  simp only [List.mem_cons, List.not_mem_nil, or_false] at hentry
  -- the cases of `Panics` are told apart by the name, which is a variable for that
  generalize hname : p.name = name
  rcases hentry with rfl | rfl | rfl | rfl | rfl <;> cases hoperation
  · obtain ⟨x, y, rfl⟩ := List.length_eq_two.1 (length_eq_of_takes htakes)
    refine ⟨.zeroDivisor, by simp, fun t => NumberOperation.trap?_remaining.trans
      (and_congr_right fun _ => ⟨?_, fun hpanics => ?_⟩)⟩
    · rintro ⟨a, b, rfl, rfl, hb⟩
      exact hname ▸ .remainder hb
    · cases hpanics with
      | remainder hb => exact ⟨_, _, rfl, rfl, hb⟩
      | _ => simp [exactly] at hname
  · obtain ⟨x, y, rfl⟩ := List.length_eq_two.1 (length_eq_of_takes htakes)
    refine ⟨.zeroDivisor, by simp, fun t => NumberOperation.trap?_remaining.trans
      (and_congr_right fun _ => ⟨?_, fun hpanics => ?_⟩)⟩
    · rintro ⟨a, b, rfl, rfl, hb⟩
      exact hname ▸ .modulo hb
    · cases hpanics with
      | modulo hb => exact ⟨_, _, rfl, rfl, hb⟩
      | _ => simp [exactly] at hname
  · refine ⟨.overflow, by simp, fun t => NumberOperation.trap?_lcm.trans
      (and_congr_right fun _ => ⟨?_, fun hpanics => ?_⟩)⟩
    · rintro ⟨ns, rfl, hoverflows⟩
      exact hname ▸ .lcm rfl hoverflows
    · cases hpanics with
      | lcm hvs hoverflows => exact ⟨_, hvs, hoverflows⟩
      | _ => simp [atLeast] at hname
  · obtain ⟨x, y, z, rfl⟩ := List.length_eq_three.1 (length_eq_of_takes htakes)
    refine ⟨.selfShown, by simp, fun t => (VectorOperation.trap?_set hc (hvs y (by simp))).trans
      (and_congr_right fun _ => ⟨?_, fun hpanics => ?_⟩)⟩
    · rintro ⟨ref, rfl, hposition, hshown⟩
      exact hname ▸ .vectorSet hposition hshown
    · cases hpanics with
      | vectorSet hposition hshown => exact ⟨_, rfl, hposition, hshown⟩
      | _ => simp [exactly] at hname
  · obtain ⟨x, y, z, rfl⟩ := List.length_eq_three.1 (length_eq_of_takes htakes)
    refine ⟨.selfShown, by simp, fun t => (StringOperation.trap?_set hc (hvs y (by simp))).trans
      (and_congr_right fun _ => ⟨?_, fun hpanics => ?_⟩)⟩
    · rintro ⟨ref, c, rfl, rfl, hposition, hshown⟩
      exact hname ▸ .stringSet hposition hshown
    · cases hpanics with
      | stringSet hposition hshown => exact ⟨_, _, rfl, rfl, hposition, hshown⟩
      | _ => simp [exactly] at hname

end

end Primitive

/-! ## Steps -/

namespace Step

/-- The run ends in a trap other than that of a walk without an end. -/
def Panics (step : Step) : Prop :=
  ∃ t w, step = .done (.trap t) w ∧ t ≠ .endless

/-- The run does not come to an end. -/
def Wanders (step : Step) : Prop :=
  ∃ w, step = .done (.trap .endless) w

/-- The run goes on. -/
def Proceeds (step : Step) : Prop :=
  ∃ s, step = .next s

/-- The run goes on with a value or a failure for the pending work. -/
def Returns (stack : List Pending) (step : Step) : Prop :=
  (∃ v w, step = go (.resume v) stack w) ∨ ∃ f w, step = go (.unwind f) stack w

variable {stack : List Pending} {w : World}

theorem proceeds_go (control : Control) (stack : List Pending) (w : World) :
    (go control stack w).Proceeds :=
  ⟨_, rfl⟩

theorem Returns.proceeds {step : Step} (hreturns : step.Returns stack) : step.Proceeds := by
  rcases hreturns with ⟨v, w, rfl⟩ | ⟨f, w, rfl⟩ <;> exact proceeds_go _ _ _

theorem Proceeds.not_panics {step : Step} (hproceeds : step.Proceeds) : ¬step.Panics := by
  obtain ⟨s, rfl⟩ := hproceeds
  rintro ⟨t, w, heq, -⟩
  cases heq

theorem Wanders.not_panics {step : Step} (hwanders : step.Wanders) : ¬step.Panics := by
  obtain ⟨w, rfl⟩ := hwanders
  rintro ⟨t, w, heq, hne⟩
  cases heq
  exact hne rfl

theorem Wanders.not_returns {step : Step} (hwanders : step.Wanders) : ¬step.Returns stack := by
  obtain ⟨w, rfl⟩ := hwanders
  intro hreturns
  obtain ⟨s, heq⟩ := hreturns.proceeds
  cases heq

/-- An action that ends in a trap ends the run, and one that does not hands on its result. -/
theorem answer_cases (x : Action Value) (stack : List Pending) (w : World) :
    (∃ t w', (x w).trap? = some t ∧ answer x stack w = .done (.trap t) w') ∨
      (x w).trap? = none ∧ (answer x stack w).Returns stack := by
  unfold answer after
  cases x w with
  | value v w' => exact Or.inr ⟨rfl, Or.inl ⟨v, w', rfl⟩⟩
  | fault f w' => exact Or.inr ⟨rfl, Or.inr ⟨f, w', rfl⟩⟩
  | trap t w' => exact Or.inl ⟨t, w', rfl, rfl⟩

theorem proceeds_after {α : Type} {x : Action α} (hx : x.Calm) {use : α → World → Step}
    (huse : ∀ a w, (use a w).Proceeds) : (after x stack w use).Proceeds := by
  have hcalm := hx w
  unfold after
  cases hresult : x w with
  | value a w' => exact huse a w'
  | fault f w' => exact proceeds_go _ _ _
  | trap t w' =>
      rw [hresult] at hcalm
      cases hcalm

theorem proceeds_answer {x : Action Value} (hx : x.Calm) : (answer x stack w).Proceeds :=
  proceeds_after hx fun _ _ => proceeds_go _ _ _

theorem proceeds_or_wanders_elements {v : Value} {use : List Value → World → Step}
    (huse : ∀ vs w, (use vs w).Proceeds) :
    (after (World.elements v) stack w use).Proceeds ∨
      (after (World.elements v) stack w use).Wanders ∧ w.heap.spine? v = none := by
  have hwalks := World.walks_elements v w
  unfold after
  cases hresult : World.elements v w with
  | value a w' => exact Or.inl (huse a w')
  | fault f w' => exact Or.inl (proceeds_go _ _ _)
  | trap t w' =>
      obtain ⟨rfl, hspine⟩ := hwalks t (by rw [hresult]; rfl)
      exact Or.inr ⟨⟨w', rfl⟩, hspine⟩

/-! ## Operations that go on with evaluations -/

theorem proceeds_mapping (procedure : Value) (lists results : List Value) (collect : Bool) :
    (mapping procedure lists results collect stack w).Proceeds := by
  unfold mapping
  split
  · exact proceeds_go _ _ _
  · exact proceeds_answer (Action.calm_alter _)

theorem calm_timed (result : Value) (memory clock : Nat) :
    Action.Calm (timed result memory clock) := by
  have hmeasure : ∀ amount unit, Action.Calm (measure amount unit) := by simp [measure]
  refine Action.calm_bind (fun _ => rfl) fun stop => ?_
  refine Action.calm_bind (fun _ => rfl) fun top => ?_
  refine Action.calm_bind (hmeasure _ _) fun time => ?_
  refine Action.calm_bind (hmeasure _ _) fun space => ?_
  exact Action.calm_bind (Action.calm_alter _) fun costs => Action.calm_alter _

theorem proceeds_timing (thunk : Value) (calls memory clock : Nat) (result : Value) :
    (timing thunk calls memory clock result stack w).Proceeds := by
  cases calls with
  | zero => exact proceeds_answer (calm_timed result memory clock)
  | succ calls => exact proceeds_go _ _ _

theorem proceeds_load (path : String) : (load path stack w).Proceeds := by
  unfold load
  simp only
  split
  · exact proceeds_answer (Action.calm_fail _)
  · exact proceeds_go _ _ _

theorem proceeds_expandOnce (x : Value) : (expandOnce x stack w).Proceeds := by
  unfold expandOnce
  split <;> exact proceeds_go _ _ _

/-- An operation that goes on with evaluations comes to them, unless it is an application whose
list of arguments has no end. -/
theorem proceeds_or_wanders_control (operation : ControlOperation) (vs : List Value) :
    (control operation vs stack w).Proceeds ∨
      operation = .apply ∧ (control operation vs stack w).Wanders ∧
        w.heap.spine? (vs.getLastD .nil) = none := by
  cases operation with
  | apply =>
      exact (proceeds_or_wanders_elements fun _ _ => proceeds_go _ _ _).imp_right fun h => ⟨rfl, h⟩
  | map | forEach => exact Or.inl (proceeds_mapping _ _ _ _)
  | callWithContinuation | eval => exact Or.inl (proceeds_go _ _ _)
  | force =>
      refine Or.inl ?_
      unfold control
      simp only
      split <;> exact proceeds_go _ _ _
  | expand => exact Or.inl (proceeds_expandOnce _)
  | timeCall =>
      exact Or.inl (proceeds_after (by simp) fun calls w => proceeds_timing _ _ _ _ _)
  | callWithInput => exact Or.inl (proceeds_after (by simp) fun _ _ => proceeds_go _ _ _)
  | callWithOutput => exact Or.inl (proceeds_after (by simp) fun _ _ => proceeds_go _ _ _)
  | load => exact Or.inl (proceeds_after (by simp) fun path w => proceeds_load path)

end Step

/-- The work that primitives leave for after an evaluation. -/
def Pending.isOfPrimitive : Pending → Bool
  | .mapping .. | .catching _ | .timing .. | .closingInput _ | .closingOutput _ => true
  | .expandingHead _ | .expansion _ _ none | .program _ | .loaded _ => true
  | _ => false

namespace Step

variable {pending : Pending} {stack : List Pending} {w : World}

/-- The work of a primitive after an evaluation goes on, unless it expands a form whose operands
have no end. -/
theorem proceeds_or_wanders_resume (hpending : pending.isOfPrimitive = true) (v : Value) :
    (resume v (pending :: stack) w).Proceeds ∨
      (resume v (pending :: stack) w).Wanders ∧
        ∃ form, pending = .expandingHead form ∧ w.heap.spine? (w.heap.rest form) = none := by
  cases pending with
  | mapping => exact Or.inl (proceeds_mapping _ _ _ _)
  | timing => exact Or.inl (proceeds_timing _ _ _ _ _)
  | expandingHead form =>
      unfold resume
      simp only
      split
      · refine (proceeds_or_wanders_elements fun _ _ => proceeds_go _ _ _).imp_right ?_
        exact fun h => ⟨h.1, _, rfl, h.2⟩
      · exact Or.inl (proceeds_go _ _ _)
  | expansion site transformer scope =>
      cases scope with
      | none => exact Or.inl (proceeds_go _ _ _)
      | some scope => cases hpending
  | catching | closingInput | closingOutput | program | loaded => exact Or.inl (proceeds_go _ _ _)
  | _ => cases hpending

theorem proceeds_unwind (hpending : pending.isOfPrimitive = true) (f : Fault) :
    (unwind f (pending :: stack) w).Proceeds := by
  cases pending with
  | catching k =>
      unfold unwind
      simp only
      split
      · split <;> exact proceeds_go _ _ _
      · exact proceeds_go _ _ _
  | answer => cases hpending
  | _ => exact proceeds_go _ _ _

theorem proceeds_advance (program : Program) (last : Value) :
    (advance program last stack w).Proceeds := by
  rw [advance_eq]
  unfold proceed
  split <;> exact proceeds_go _ _ _

end Step

/-! ## Calls -/

namespace Primitive

/-- The primitives that walk along a list. -/
def walkers : List String :=
  ["append", "reverse", "memq", "memv", "member", "assq", "assv", "assoc", "list->string",
    "list->vector", "apply"]

def walks (p : Primitive) : Bool :=
  match p.operation with
  | .direct operation => operation.walks
  | .control .apply => true
  | .control _ => false

theorem name_mem_walkers : ∀ p ∈ table, p.walks = true → p.name ∈ walkers := by
  decide +kernel

variable {p : Primitive} {vs : List Value} {stack : List Pending} {w : World}

theorem apply_direct (htakes : p.takes vs.length = true) {operation : DirectOperation}
    (hoperation : p.operation = .direct operation) :
    Step.apply (.primitive p) vs stack w = Step.answer (operation.perform vs) stack w := by
  simp only [Step.apply, Step.after, checkCount_eq htakes, hoperation]

theorem apply_control (htakes : p.takes vs.length = true) {operation : ControlOperation}
    (hoperation : p.operation = .control operation) :
    Step.apply (.primitive p) vs stack w = Step.control operation vs stack w := by
  simp only [Step.apply, Step.after, checkCount_eq htakes, hoperation]

/-- A primitive that cannot panic goes on, unless it walks along an argument without an end. -/
theorem proceeds_of_safe (hc : w.heap.Closed) (hvs : ∀ v ∈ vs, w.heap.Has v) (hp : p ∈ table)
    (hsafe : p.isSafe = true) (htakes : p.takes vs.length = true) :
    (Step.apply (.primitive p) vs stack w).Proceeds ∨
      (Step.apply (.primitive p) vs stack w).Wanders ∧ p.name ∈ walkers ∧
        ∃ v ∈ vs, w.heap.Endless v := by
  cases hoperation : p.operation with
  | direct operation =>
      rw [apply_direct htakes hoperation]
      rcases Step.answer_cases (operation.perform vs) stack w with ⟨t, w', ht, hend⟩ | ⟨-, hreturns⟩
      · have hrisky : operation.isRisky = false := by simpa [isSafe, hoperation] using hsafe
        obtain ⟨hwalks, rfl, hendless⟩ := DirectOperation.stuck_of_perform hc hvs hrisky ht
        exact Or.inr ⟨⟨w', hend⟩, name_mem_walkers p hp (by simpa [walks, hoperation] using hwalks),
          hendless⟩
      · exact Or.inl hreturns.proceeds
  | control operation =>
      rw [apply_control htakes hoperation]
      refine (Step.proceeds_or_wanders_control operation vs).imp_right ?_
      rintro ⟨rfl, hwanders, hspine⟩
      refine ⟨hwanders, name_mem_walkers p hp (by simp [walks, hoperation]), ?_⟩
      -- only the last argument of an application is walked along
      rw [List.getLastD_eq_getLast?, List.getLast?_eq_getElem?,
        ← List.getD_eq_getElem?_getD] at hspine
      exact Heap.exists_endless
        (Heap.endless_of_spine? hc (Heap.has_getD hvs _) (.refl _) hspine)

/-- A call with an admissible number of arguments panics as described, goes on, or walks along an
argument without an end. -/
theorem call_cases (hc : w.heap.Closed) (hvs : ∀ v ∈ vs, w.heap.Has v) (hp : p ∈ table)
    (htakes : p.takes vs.length = true) :
    Panics w.heap p.name vs ∧ (Step.apply (.primitive p) vs stack w).Panics ∨
      ¬Panics w.heap p.name vs ∧
        ((Step.apply (.primitive p) vs stack w).Proceeds ∨
          (Step.apply (.primitive p) vs stack w).Wanders ∧ p.name ∈ walkers ∧
            ∃ v ∈ vs, w.heap.Endless v) := by
  rcases safe_or_panicking p hp with ⟨hsafe, hname⟩ | hentry
  · exact Or.inr ⟨fun hpanics => hname hpanics.name_mem, proceeds_of_safe hc hvs hp hsafe htakes⟩
  · obtain ⟨operation, hoperation⟩ : ∃ operation, p.operation = .direct operation := by
      simp only [List.mem_cons, List.not_mem_nil, or_false] at hentry
      rcases hentry with rfl | rfl | rfl | rfl | rfl <;> exact ⟨_, rfl⟩
    obtain ⟨trap, hne, htrap⟩ := trap?_of_panicking hc hvs hentry htakes hoperation
    rw [apply_direct htakes hoperation]
    rcases Step.answer_cases (operation.perform vs) stack w with
      ⟨t, w', ht, hend⟩ | ⟨hnone, hreturns⟩
    · obtain ⟨rfl, hpanics⟩ := (htrap t).1 ht
      exact Or.inl ⟨hpanics, t, w', hend, hne⟩
    · refine Or.inr ⟨fun hpanics => ?_, Or.inl hreturns.proceeds⟩
      -- a call that is to panic would have ended in the trap
      have ht := (htrap trap).2 ⟨rfl, hpanics⟩
      rw [hnone] at ht
      cases ht

/-- A call that makes no evaluation of its own returns if it goes on. -/
theorem returns_of_proceeds (hp : p ∈ table) (hname : p.name ∉ evaluators)
    (hproceeds : (Step.apply (.primitive p) vs stack w).Proceeds) :
    (Step.apply (.primitive p) vs stack w).Returns stack := by
  obtain ⟨call, hcall, -⟩ := framed hp hname vs
  rw [hcall] at hproceeds ⊢
  rcases Step.answer_cases call stack w with ⟨t, w', -, hend⟩ | ⟨-, hreturns⟩
  · rw [hend] at hproceeds
    obtain ⟨s, heq⟩ := hproceeds
    cases heq
  · exact hreturns

theorem inside_of_returned (hp : p ∈ table) (hname : p.name ∈ indexers) {v : Value} {w' : World}
    (hvalue : Step.apply (.primitive p) vs stack w = Step.go (.resume v) stack w') :
    ∃ s, p.stretch? w.heap vs = some s ∧ s.Inside := by
  obtain ⟨operation, hoperation⟩ : ∃ operation, p.operation = .direct operation := by
    have hentry := eq_of_indexer p hp hname
    simp only [List.mem_cons, List.not_mem_nil, or_false] at hentry
    rcases hentry with rfl | rfl | rfl | rfl | rfl <;> exact ⟨_, rfl⟩
  have hinside := inside_of_call hp hname hoperation vs w
  rw [apply_eq hoperation, Step.answer, Step.after] at hvalue
  cases hresult : p.call operation vs w with
  | value v w' =>
      rw [hresult] at hinside
      exact hinside
  | fault f w' | trap t w' =>
      rw [hresult] at hvalue
      cases hvalue

/-- What a step that calls a primitive with pending work comes to. It panics as described. Otherwise
it goes on, unless it walks along an argument without an end, and then it returns to the pending
work or makes an evaluation of its own. Positions and slices are inside. -/
structure Behaves (p : Primitive) (vs : List Value) (stack : List Pending) (w : World)
    (step : Step) : Prop where
  panics : step.Panics ↔ Panics w.heap p.name vs
  otherwise : ¬Panics w.heap p.name vs → step.Proceeds ∨
    step.Wanders ∧ p.name ∈ walkers ∧ ∃ v ∈ vs, w.heap.Endless v
  returns : step.Proceeds → p.name ∉ evaluators → step.Returns stack
  positions : p.name ∈ indexers → ∀ v w', step = Step.go (.resume v) stack w' →
    ∃ s, p.stretch? w.heap vs = some s ∧ s.Inside
  slices : ∀ s, p.slice? vs.length = some s → s.Inside

theorem behaves_apply (hc : w.heap.Closed) (hvs : ∀ v ∈ vs, w.heap.Has v) (hp : p ∈ table)
    (htakes : p.takes vs.length = true) :
    p.Behaves vs stack w (Step.apply (.primitive p) vs stack w) where
  panics := by
    rcases call_cases hc hvs hp htakes with ⟨hpanics, hstep⟩ | ⟨hnot, hproceeds | ⟨hwanders, -⟩⟩
    · exact ⟨fun _ => hpanics, fun _ => hstep⟩
    · exact ⟨fun hstep => absurd hstep hproceeds.not_panics, fun hpanics => absurd hpanics hnot⟩
    · exact ⟨fun hstep => absurd hstep hwanders.not_panics, fun hpanics => absurd hpanics hnot⟩
  otherwise hnot := by
    rcases call_cases hc hvs hp htakes with ⟨hpanics, -⟩ | ⟨-, hcases⟩
    · exact absurd hpanics hnot
    · exact hcases
  returns hproceeds hname := returns_of_proceeds hp hname hproceeds
  positions hname _ _ hvalue := inside_of_returned hp hname hvalue
  slices _ hs := inside_of_takes hp htakes hs

end Primitive

theorem NumberOperation.commits_toTextIn (n : Float) (radix : Nat) (w : World) :
    (toTextIn n radix w).Commits w.heap fun _ _ => radix = 10 ∨ 2 ≤ radix ∧ radix ≤ 36 := by
  unfold toTextIn
  split
  · exact Or.inl ‹_›
  · split
    · rename_i hboth
      simp only [Number.isRadix, Bool.and_eq_true, decide_eq_true_eq] at hboth
      exact Or.inr hboth.1
    · rfl

/-- The panics of primitives are exactly those described. What primitives leave for after an
evaluation does not panic either. No remainder, quotient or sum of the arithmetic leaves the range
but where `lcm?` says so, and numerals are written in an admissible base. The printer comes upon
everything that a value reaches, so that a position shows a container exactly when it reaches it. -/
theorem Primitive.panics_exactly :
    (∀ p ∈ table, ∀ (vs : List Value) (stack : List Pending) (w : World),
      p.takes vs.length = true → w.heap.Closed → (∀ v ∈ vs, w.heap.Has v) →
        p.Behaves vs stack w (Step.apply (.primitive p) vs stack w)) ∧
    (∀ (pending : Pending) (stack : List Pending) (w : World), pending.isOfPrimitive = true →
      (∀ v, (Step.resume v (pending :: stack) w).Proceeds ∨
        (Step.resume v (pending :: stack) w).Wanders ∧
          ∃ form, pending = .expandingHead form ∧ w.heap.spine? (w.heap.rest form) = none) ∧
      ∀ f, (Step.unwind f (pending :: stack) w).Proceeds) ∧
    (∀ (program : Program) (last : Value) (stack : List Pending) (w : World),
      (Step.advance program last stack w).Proceeds) ∧
    (∀ a b : Int64, Number.checkedGcd a b = some (Number.gcd a b) ∧
      Number.checkedLcm a b = Number.lcm? a b ∧
      (b ≠ 0 → Number.checkedModulo a b = some (Number.modulo a b))) ∧
    (∀ (n : Float) (radix : Nat) (w : World), (NumberOperation.toTextIn n radix w).Commits w.heap
      fun _ _ => radix = 10 ∨ 2 ≤ radix ∧ radix ≤ 36) ∧
    ∀ (h : Heap) (style : Style) (v : Value), ∃ t, h.Prints style true (.value v) {} t ∧
      t.out = h.text style v ∧ ∀ x, x ∈ t.met ↔ h.Reaches v x := by
  refine ⟨fun p hp vs stack w htakes hc hvs => behaves_apply hc hvs hp htakes,
    fun pending stack w hpending => ⟨Step.proceeds_or_wanders_resume hpending,
      Step.proceeds_unwind hpending⟩,
    fun program last stack w => Step.proceeds_advance program last,
    fun a b => ⟨Number.checkedGcd_eq a b, Number.checkedLcm_eq a b, Number.checkedModulo_eq a⟩,
    NumberOperation.commits_toTextIn, fun h style v => ?_⟩
  obtain ⟨t, hprints, hout⟩ := h.exists_prints_text style v
  exact ⟨t, hprints, hout, fun _ => hprints.mem_met_iff⟩

/-- For instance a vector shows itself, so that a change of it at itself panics. -/
theorem Primitive.panics_of_vector_at_itself :
    let p := exactly 3 "vector-set!" (.vector .set)
    let vs : List Value := [.vector ⟨0⟩, .vector ⟨0⟩, .boolean true]
    let w : World := { heap := { vectors := #[#[.nil]] }, host := World.nowhere, maxDepth := 1 }
    (p ∈ table ∧ p.takes vs.length = true ∧ w.heap.Closed ∧ ∀ v ∈ vs, w.heap.Has v) ∧
      (Step.apply (.primitive p) vs [] w).Panics ∧
      ((Pending.catching ⟨0⟩).isOfPrimitive = true ∧
        (Step.unwind .cutShort [.catching ⟨0⟩] w).Proceeds) ∧
      ((-7 : Int64) ≠ 0 ∧ Number.checkedModulo 3 (-7) = some (Number.modulo 3 (-7))) := by
  intro p vs w
  have hp : p ∈ table := by decide +kernel
  have hclosed : w.heap.Closed := by
    constructor <;> simp [w, Heap.Has]
  have hvs : ∀ v ∈ vs, w.heap.Has v := by simp [vs, w, Heap.Has]
  have hbehaves := panics_exactly.1 p hp vs [] w (by decide) hclosed hvs
  exact ⟨⟨hp, by decide, hclosed, hvs⟩, hbehaves.panics.2 (.vectorSet rfl .refl),
    ⟨rfl, (panics_exactly.2.1 _ _ _ rfl).2 _⟩, by decide,
    (panics_exactly.2.2.2.1 _ _).2.2 (by decide)⟩

/-- A list without an end is not reversed: the walk along it goes on and on. -/
theorem Primitive.reverse_wanders {v : Value} {w : World} (hendless : w.heap.Endless v)
    (stack : List Pending) :
    (Step.apply (.primitive (exactly 1 "reverse" (.list .reverse))) [v] stack w).Wanders := by
  refine ⟨w, ?_⟩
  calc Step.apply (.primitive (exactly 1 "reverse" (.list .reverse))) [v] stack w
    _ = Step.answer (DirectOperation.perform (.list .reverse) [v]) stack w := apply_direct rfl rfl
    _ = .done (.trap .endless) w := by
        have hspine : World.spine v w = .trap .endless w := by
          rw [World.spine, hendless.spine?_eq]
        have hreverse : DirectOperation.perform (.list .reverse) [v] w = .trap .endless w := by
          simp only [DirectOperation.perform, ListOperation.perform, List.getD_cons_zero, bind,
            Action.bind, hspine]
        rw [Step.answer, Step.after, hreverse]

/-- Neither is it searched to the end for what is not in it. -/
theorem Primitive.search_wanders {sameness : Sameness} {x v : Value} {w : World}
    (hendless : w.heap.Endless v)
    (htest : ∀ n, w.heap.same sameness x (w.heap.first (w.heap.rest^[n] v)) = false) :
    DirectOperation.perform (.list (.member sameness)) [x, v] w = .trap .endless w := by
  suffices hfind : ∀ budget n,
      w.heap.findTail (w.heap.same sameness x) budget (w.heap.rest^[n] v) = none by
    have hnone := hfind w.heap.pairs.size 0
    rw [Function.iterate_zero, id] at hnone
    simp only [DirectOperation.perform, ListOperation.perform, ListOperation.search,
      List.getD_cons_zero, List.getD_cons_succ, hnone]
  intro budget
  induction budget with
  | zero =>
      intro n
      have hpair := hendless n
      have hfirst := htest n
      cases hv : w.heap.rest^[n] v <;> simp_all [Value.isPair, Heap.findTail, Heap.first]
  | succ budget ih =>
      intro n
      have hpair := hendless n
      have hfirst := htest n
      have hrest := ih (n + 1)
      rw [Function.iterate_succ_apply'] at hrest
      cases hv : w.heap.rest^[n] v <;>
        simp_all [Value.isPair, Heap.findTail, Heap.first, Heap.rest]

/-- The calls of primitives that walk along a circular list are none of those that panic, and they
return nothing either. -/
theorem Primitive.neither_panics_nor_returns :
    let circle : Value := .pair ⟨0⟩
    let w : World :=
      { heap := { pairs := #[⟨.boolean true, circle⟩] }, host := World.nowhere, maxDepth := 1 }
    let calls : List (Primitive × List Value) :=
      [(exactly 1 "reverse" (.list .reverse), [circle]),
        (exactly 2 "memq" (.list (.member .eq)), [.boolean false, circle])]
    w.heap.Closed ∧ ∀ call ∈ calls,
      (call.1 ∈ table ∧ call.1.takes call.2.length = true ∧ ∀ v ∈ call.2, w.heap.Has v) ∧
      ¬Panics w.heap call.1.name call.2 ∧
      ∀ stack, ¬(Step.apply (.primitive call.1) call.2 stack w).Panics ∧
        ¬(Step.apply (.primitive call.1) call.2 stack w).Returns stack := by
  intro circle w calls
  have hclosed : w.heap.Closed := by
    constructor <;> simp [w, circle, Heap.Has]
  have hrest : ∀ n, w.heap.rest^[n] circle = circle := by
    intro n
    induction n with
    | zero => rfl
    | succ n ih => exact ih
  have hendless : w.heap.Endless circle := fun n => by rw [hrest n]; rfl
  have hwanders : ∀ call ∈ calls, ∀ stack,
      (Step.apply (.primitive call.1) call.2 stack w).Wanders := by
    intro call hcall stack
    rcases List.mem_pair.1 hcall with rfl | rfl
    · exact reverse_wanders hendless stack
    · refine ⟨w, ?_⟩
      have hothers : ∀ n, w.heap.same .eq (.boolean false)
          (w.heap.first (w.heap.rest^[n] circle)) = false := fun n => by rw [hrest n]; rfl
      have hsearch : DirectOperation.perform (.list (.member .eq)) [.boolean false, circle] w =
          .trap .endless w := search_wanders hendless hothers
      calc Step.apply (.primitive (exactly 2 "memq" (.list (.member .eq)))) _ stack w
        _ = Step.answer (DirectOperation.perform (.list (.member .eq)) [.boolean false, circle])
              stack w := apply_direct rfl rfl
        _ = .done (.trap .endless) w := by rw [Step.answer, Step.after, hsearch]
  refine ⟨hclosed, fun call hcall => ⟨?_, ?_, fun stack => ?_⟩⟩
  · rcases List.mem_pair.1 hcall with rfl | rfl
    · exact ⟨by decide +kernel, rfl, by simp [w, circle, Heap.Has]⟩
    · exact ⟨by decide +kernel, rfl, by simp [w, circle, Heap.Has]⟩
  · have hnames : ∀ call ∈ calls, call.1.name ∉ panicking := by decide
    exact fun hpanics => hnames call hcall hpanics.name_mem
  · exact ⟨(hwanders call hcall stack).not_panics, (hwanders call hcall stack).not_returns⟩

end Scheme
