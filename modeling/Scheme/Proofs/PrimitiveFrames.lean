import Scheme.Primitive.Table
import Scheme.Proofs.MachinePolicies
/-!
# What primitives leave alone

A primitive that answers at once leaves every cell that it finds as it is, whether it succeeds or
not, apart from four: `set-car!`, `set-cdr!`, `string-set!` and `vector-set!`. Those make all their
checks first, so that they change nothing when they fail; when they succeed, they change the one
field, character or element that their arguments name. It follows that strings and vectors never
change their length, whatever is run.
-/

namespace Scheme

theorem Ref.eq_of_index {cell : Cell} {a b : Ref cell} (hindex : a.index = b.index) : a = b := by
  cases a
  cases b
  cases hindex
  rfl

namespace Heap

/-! ## Heaps that only grow -/

/-- Every cell of the first heap is the same in the second. -/
structure Grows (h h' : Heap) : Prop extends Extends h h' where
  scopes : ∀ (i : Nat) (s : Scope), h.scopes[i]? = some s → h'.scopes[i]? = some s
  closures : ∀ (i : Nat) (c : Closure), h.closures[i]? = some c → h'.closures[i]? = some c
  continuations : ∀ (i : Nat) (k : Continuation),
    h.continuations[i]? = some k → h'.continuations[i]? = some k

theorem Grows.refl (h : Heap) : Grows h h :=
  ⟨.refl h, fun _ _ => id, fun _ _ => id, fun _ _ => id⟩

theorem Grows.trans {h₁ h₂ h₃ : Heap} (h₁₂ : Grows h₁ h₂) (h₂₃ : Grows h₂ h₃) : Grows h₁ h₃ where
  toExtends := h₁₂.toExtends.trans h₂₃.toExtends
  scopes i s hs := h₂₃.scopes i s (h₁₂.scopes i s hs)
  closures i c hc := h₂₃.closures i c (h₁₂.closures i c hc)
  continuations i k hk := h₂₃.continuations i k (h₁₂.continuations i k hk)

/-- Heaps may grow in any way. -/
def growth : Policy where
  good _ := True
  leads := Grows
  admits _ _ := True
  refl := .refl
  trans := .trans
  mono _ _ := trivial
  atom _ := trivial
  fields _ _ := ⟨trivial, trivial⟩
  element _ _ _ := trivial
  cons {h first rest} _ _ _ :=
    ⟨trivial, ⟨extends_cons h first rest, fun _ _ => id, fun _ _ => id, fun _ _ => id⟩, trivial⟩
  addString {h} chars _ :=
    ⟨trivial, ⟨extends_addString h chars, fun _ _ => id, fun _ _ => id, fun _ _ => id⟩, trivial⟩
  addVector {h elements} _ _ :=
    ⟨trivial, ⟨extends_addVector h elements, fun _ _ => id, fun _ _ => id, fun _ _ => id⟩, trivial⟩

/-! ## One change at one place -/

/-- A field of a pair, a character of a string or an element of a vector. -/
inductive Place where
  | field (ref : Ref .pair) (side : Side)
  | character (ref : Ref .string) (i : Nat)
  | element (ref : Ref .vector) (i : Nat)

/-- What stands at a place, if there is such a place. -/
def at? (h : Heap) : Place → Option Value
  | .field ref .first => h.pairs[ref.index]?.map Pair.first
  | .field ref .rest => h.pairs[ref.index]?.map Pair.rest
  | .character ref i => (h.strings[ref.index]?.bind (·[i]?)).map .character
  | .element ref i => h.vectors[ref.index]?.bind (·[i]?)

/-- The two heaps are the same but for the value at one place. -/
structure Replaces (h h' : Heap) (place : Place) (v : Value) : Prop where
  here : h'.at? place = (h.at? place).map fun _ => v
  elsewhere : ∀ other, other ≠ place → h'.at? other = h.at? other
  pairCount : h'.pairs.size = h.pairs.size
  stringLengths : h'.strings.map Array.size = h.strings.map Array.size
  vectorLengths : h'.vectors.map Array.size = h.vectors.map Array.size
  scopes : h'.scopes = h.scopes
  closures : h'.closures = h.closures
  continuations : h'.continuations = h.continuations

/-- A pair with one field replaced. -/
def withSide (p : Pair) : Side → Value → Pair
  | .first, v => { p with first := v }
  | .rest, v => { p with rest := v }

theorem setPair_withSide (h : Heap) (ref : Ref .pair) (side : Side) (v : Value) :
    h.setPair ref (withSide (h.pair ref) side v) =
      { h with pairs := h.pairs.modify ref.index fun p => withSide p side v } := by
  rw [setPair]
  congr 1
  refine Array.ext_getElem? fun i => ?_
  rw [Array.getElem?_setIfInBounds, Array.getElem?_modify]
  split
  · rename_i hi
    subst hi
    cases hp : h.pairs[ref.index]? with
    | none => simp [Array.getElem?_eq_none_iff.1 hp]
    | some p =>
        rw [if_pos (Array.getElem?_eq_some_iff.1 hp).1, pair, hp]
        rfl
  · rfl

theorem replaces_setPair (h : Heap) (ref : Ref .pair) (side : Side) (v : Value) :
    h.Replaces (h.setPair ref (withSide (h.pair ref) side v)) (.field ref side) v := by
  rw [setPair_withSide]
  refine ⟨?_, ?_, Array.size_modify, rfl, rfl, rfl, rfl, rfl⟩
  · cases side <;> simp [at?, withSide, Function.comp_def, Array.getElem?_modify]
  · intro other hother
    cases other with
    | field ref' side' =>
        obtain ⟨i⟩ := ref
        obtain ⟨j⟩ := ref'
        by_cases hij : i = j
        · subst hij
          cases side <;> cases side' <;>
            simp_all [at?, withSide, Function.comp_def, Array.getElem?_modify]
        · cases side' <;> simp [at?, hij, Array.getElem?_modify]
    | _ => rfl

section

variable {α : Type} (xss : Array (Array α)) (i j : Nat) (a : α)

theorem size_modify_setIfInBounds :
    (xss.modify i (·.setIfInBounds j a)).map Array.size = xss.map Array.size := by
  refine Array.ext_getElem? fun k => ?_
  rw [Array.getElem?_map, Array.getElem?_map, Array.getElem?_modify]
  split
  · simp [Function.comp_def]
  · rfl

theorem getElem?_modify_here :
    (xss.modify i (·.setIfInBounds j a))[i]?.bind (·[j]?) =
      (xss[i]?.bind (·[j]?)).map fun _ => a := by
  cases hxs : xss[i]? with
  | none => simp [Array.getElem?_modify, hxs]
  | some xs =>
      by_cases hj : j < xs.size
      · simp [Array.getElem?_modify, hxs, hj]
      · simp [Array.getElem?_modify, hxs, Nat.not_lt.1 hj]

theorem getElem?_modify_elsewhere {k l : Nat} (hother : ¬(k = i ∧ l = j)) :
    (xss.modify i (·.setIfInBounds j a))[k]?.bind (·[l]?) = xss[k]?.bind (·[l]?) := by
  rw [Array.getElem?_modify]
  split
  · rename_i hik
    have hjl : j ≠ l := fun hjl => hother ⟨hik.symm, hjl.symm⟩
    cases hxs : xss[k]? with
    | none => rfl
    | some xs => simp [hjl]
  · rfl

end

theorem replaces_setChar (h : Heap) (ref : Ref .string) (i : Nat) (c : Char) :
    h.Replaces (h.setChar ref i c) (.character ref i) (.character c) := by
  refine ⟨?_, ?_, rfl, size_modify_setIfInBounds _ _ _ _, rfl, rfl, rfl, rfl⟩
  · simp [at?, setChar, getElem?_modify_here, Function.comp_def]
  · intro other hother
    cases other with
    | character ref' j =>
        refine congrArg (Option.map Value.character) (getElem?_modify_elsewhere _ _ _ _ ?_)
        rintro ⟨href, rfl⟩
        exact hother (by rw [Ref.eq_of_index href])
    | field ref' side => cases side <;> rfl
    | element => rfl

theorem replaces_setElement (h : Heap) (ref : Ref .vector) (i : Nat) (v : Value) :
    h.Replaces (h.setElement ref i v) (.element ref i) v := by
  refine ⟨getElem?_modify_here _ _ _ _, ?_, rfl, rfl, size_modify_setIfInBounds _ _ _ _, rfl, rfl,
    rfl⟩
  intro other hother
  cases other with
  | element ref' j =>
      refine getElem?_modify_elsewhere _ _ _ _ ?_
      rintro ⟨href, rfl⟩
      exact hother (by rw [Ref.eq_of_index href])
  | field ref' side => cases side <;> rfl
  | character => rfl

end Heap

/-! ## Actions that fail before they change anything -/

/-- The heap is as described after a value, and as before otherwise. -/
def Result.Commits {α : Type} (h : Heap) (Q : α → Heap → Prop) : Result α → Prop
  | .value a w => Q a w.heap
  | .fault _ w | .trap _ w => w.heap = h

theorem Result.Commits.imp {α : Type} {h : Heap} {Q R : α → Heap → Prop} {result : Result α}
    (hresult : result.Commits h Q) (hQ : ∀ a h', Q a h' → R a h') : result.Commits h R := by
  cases result with
  | value a w => exact hQ a w.heap hresult
  | fault f w | trap t w => exact hresult

namespace Action

variable {α β : Type} {w : World}

theorem commits_bind {x : Action α} {f : α → Action β} {Q : α → Prop} {R : β → Heap → Prop}
    (hx : (x w).Commits w.heap fun a h => h = w.heap ∧ Q a)
    (hf : ∀ a w', w'.heap = w.heap → Q a → (f a w').Commits w.heap R) :
    ((x >>= f) w).Commits w.heap R := by
  change (Action.bind x f w).Commits w.heap R
  unfold Action.bind
  cases hresult : x w with
  | value a w' =>
      rw [hresult] at hx
      exact hf a w' hx.1 hx.2
  | fault f w' | trap t w' =>
      rw [hresult] at hx
      exact hx

end Action

namespace World

variable {w : World}

theorem commits_expect {α : Type} {expected : Expected} {v : Value} {a : Option α} :
    (expect expected v a w).Commits w.heap fun b h => h = w.heap ∧ a = some b := by
  cases a with
  | none => rfl
  | some b => exact ⟨rfl, rfl⟩

theorem commits_look {α : Type} {f : Heap → α} :
    (look f w).Commits w.heap fun a h => h = w.heap ∧ a = f w.heap :=
  ⟨rfl, rfl⟩

end World

/-- The size or position that a number stands for. -/
def Value.index? : Value → Option Nat
  | .number n => Number.toIndex? n.toFloat
  | _ => none

namespace World

open Scheme.Action

variable {w : World}

theorem commits_index {v : Value} :
    (index v w).Commits w.heap fun i h => h = w.heap ∧ v.index? = some i := by
  refine commits_bind (Q := fun n => v.index? = Number.toIndex? n) ?_ fun n w' hw hv => ?_
  · refine commits_bind (f := fun n : Flonum => pure n.toFloat) commits_expect fun n w' hw hv => ?_
    refine ⟨hw, ?_⟩
    cases v <;> cases hv
    rfl
  · rw [hv, ← hw]
    exact commits_expect

theorem commits_position {v : Value} {length : Nat} :
    (position v length w).Commits w.heap fun i h =>
      h = w.heap ∧ v.index? = some i ∧ i < length := by
  refine commits_bind commits_index fun i w' hw hi => ?_
  split
  · exact ⟨hw, hi, ‹_›⟩
  · exact hw

theorem commits_positionIn {container v : Value} {length : Nat} :
    (positionIn container v length w).Commits w.heap fun i h =>
      h = w.heap ∧ v.index? = some i ∧ i < length := by
  cases v with
  | number n => exact commits_position
  | _ =>
      change Result.Commits w.heap _ (if _ then _ else _)
      split
      · exact rfl
      · exact commits_position

end World

/-! ## The four that change a cell -/

section

open Scheme.Action

variable {w : World} {vs : List Value}

theorem ListOperation.commits_set {side : Side} {x y : Value} :
    ((ListOperation.set side).perform [x, y] w).Commits w.heap fun _ h =>
      ∃ ref, x = .pair ref ∧ w.heap.Replaces h (.field ref side) y := by
  refine commits_bind World.commits_expect fun ref w' hw hx => ?_
  have hreplaces := w'.heap.replaces_setPair ref side y
  rw [hw] at hreplaces
  refine ⟨ref, ?_, ?_⟩
  · cases x <;> cases hx
    rfl
  · cases side <;> exact hw ▸ hreplaces

theorem StringOperation.commits_set {x y z : Value} :
    (StringOperation.set.perform [x, y, z] w).Commits w.heap fun _ h =>
      ∃ ref i c, x = .string ref ∧ y.index? = some i ∧ z = .character c ∧
        i < (w.heap.string ref).size ∧ w.heap.Replaces h (.character ref i) (.character c) := by
  refine commits_bind World.commits_expect fun c w₁ hw₁ hz => ?_
  rw [← hw₁]
  refine commits_bind World.commits_expect fun ref w₂ hw₂ hx => ?_
  rw [← hw₂]
  refine commits_bind World.commits_look fun length w₃ hw₃ hlength => ?_
  rw [← hw₃] at hlength ⊢
  refine commits_bind World.commits_positionIn fun i w₄ hw₄ hi => ?_
  refine ⟨ref, i, c, ?_, hi.1, ?_, ?_, ?_⟩
  · cases x <;> cases hx
    rfl
  · cases z <;> cases hz
    rfl
  · exact hlength ▸ hi.2
  · rw [← hw₄]
    exact w₄.heap.replaces_setChar ref i c

theorem VectorOperation.commits_set {x y z : Value} :
    (VectorOperation.set.perform [x, y, z] w).Commits w.heap fun _ h =>
      ∃ ref i, x = .vector ref ∧ y.index? = some i ∧ i < (w.heap.vector ref).size ∧
        w.heap.Replaces h (.element ref i) z := by
  refine commits_bind World.commits_expect fun ref w₁ hw₁ hx => ?_
  rw [← hw₁]
  refine commits_bind World.commits_look fun length w₂ hw₂ hlength => ?_
  rw [← hw₂] at hlength ⊢
  refine commits_bind World.commits_positionIn fun i w₃ hw₃ hi => ?_
  refine ⟨ref, i, ?_, hi.1, ?_, ?_⟩
  · cases x <;> cases hx
    rfl
  · exact hlength ▸ hi.2
  · rw [← hw₃]
    exact w₃.heap.replaces_setElement ref i z

end

namespace Heap

theorem isSome_at?_field {h : Heap} {ref : Ref .pair} (hhas : h.Has (.pair ref)) (side : Side) :
    (h.at? (.field ref side)).isSome := by
  have hlt : ref.index < h.pairs.size := hhas
  cases side <;> simp [at?, hlt]

theorem isSome_at?_character {h : Heap} {ref : Ref .string} {i : Nat}
    (hi : i < (h.string ref).size) : (h.at? (.character ref i)).isSome := by
  unfold Heap.string at hi
  cases hs : h.strings[ref.index]? with
  | none => simp [hs] at hi
  | some chars =>
      rw [hs, Option.getD_some] at hi
      simp [at?, hs, hi]

theorem isSome_at?_element {h : Heap} {ref : Ref .vector} {i : Nat}
    (hi : i < (h.vector ref).size) : (h.at? (.element ref i)).isSome := by
  unfold Heap.vector at hi
  cases hs : h.vectors[ref.index]? with
  | none => simp [hs] at hi
  | some cells =>
      rw [hs, Option.getD_some] at hi
      simp [at?, hs, hi]

end Heap

/-! ## Primitives -/

namespace Primitive

/-- The primitives that go on with evaluations of their own. -/
def evaluators : List String :=
  ["apply", "map", "for-each", "call-with-current-continuation", "force", "eval", "macro-expand",
    "time-call", "load", "call-with-input-file", "call-with-output-file"]

/-- The primitives that change a cell. -/
def mutators : List String :=
  ["set-car!", "set-cdr!", "vector-set!", "string-set!"]

/-- The place that the arguments of a primitive name, and the value that is to stand there. -/
def target? (p : Primitive) (vs : List Value) : Option (Heap.Place × Value) :=
  match p.name, vs with
  | "set-car!", [.pair ref, v] => some (.field ref .first, v)
  | "set-cdr!", [.pair ref, v] => some (.field ref .rest, v)
  | "vector-set!", [.vector ref, position, v] =>
    position.index?.map fun i => (.element ref i, v)
  | "string-set!", [.string ref, position, .character c] =>
    position.index?.map fun i => (.character ref i, .character c)
  | _, _ => none

/-- What becomes of a heap in a call: the cells it has are unchanged, apart from the one place that
a successful call of a mutator names. That place is there if the arguments are. -/
def Frame (p : Primitive) (vs : List Value) (h : Heap) : Result Value → Prop
  | .value _ w =>
    if p.name ∈ mutators then
      ∃ place v, p.target? vs = some (place, v) ∧ h.Replaces w.heap place v ∧
        ((∀ v ∈ vs, h.Has v) → (h.at? place).isSome)
    else h.Grows w.heap
  | .fault _ w | .trap _ w => h.Grows w.heap

/-- A primitive that answers at once and changes no cell. -/
def isPlain (p : Primitive) : Bool :=
  match p.operation with
  | .direct operation => !operation.isMutator
  | .control _ => false

theorem plain_or_mutator : ∀ p ∈ table, p.name ∉ evaluators →
    p.isPlain = true ∧ p.name ∉ mutators ∨
      p ∈ [exactly 2 "set-car!" (.list (.set .first)), exactly 2 "set-cdr!" (.list (.set .rest)),
        exactly 3 "vector-set!" (.vector .set), exactly 3 "string-set!" (.string .set)] := by
  decide +kernel

/-- A call of a primitive that answers at once. -/
def call (p : Primitive) (operation : DirectOperation) (vs : List Value) : Action Value := do
  Step.checkCount p vs
  operation.perform vs

theorem apply_eq {p : Primitive} {operation : DirectOperation}
    (hoperation : p.operation = .direct operation) (vs : List Value) (stack : List Pending)
    (w : World) :
    Step.apply (.primitive p) vs stack w = Step.answer (p.call operation vs) stack w := by
  simp only [Step.apply, Step.answer, Step.after, hoperation, call, bind, Action.bind]
  cases Step.checkCount p vs w <;> rfl

/-- A call that passes the check of its arguments' number has exactly so many. -/
theorem commits_call {count : Nat} {name : String} {operation : DirectOperation} {vs : List Value}
    {w : World} {Q : Value → Heap → Prop}
    (hperform : ∀ w', w'.heap = w.heap → vs.length = count →
      (operation.perform vs w').Commits w.heap Q) :
    ((exactly count name operation).call operation vs w).Commits w.heap Q := by
  refine Action.commits_bind (Q := fun _ => vs.length = count) ?_ fun _ w' hw hcount =>
    hperform w' hw hcount
  by_cases hcount : vs.length = count
  · rw [show Step.checkCount (exactly count name operation) vs = pure () by
      simp [Step.checkCount, exactly, hcount]]
    exact ⟨rfl, hcount⟩
  · rcases Nat.lt_or_gt_of_ne hcount with hless | hmore
    · simp only [Step.checkCount, exactly, hless, if_true]
      rfl
    · simp only [Step.checkCount, exactly, Nat.lt_asymm hmore, if_false, hmore, if_true]
      rfl

theorem frame_of_commits {p : Primitive} {vs : List Value} {h : Heap} {result : Result Value}
    (hname : p.name ∈ mutators)
    (hresult : result.Commits h fun _ h' => ∃ place v, p.target? vs = some (place, v) ∧
      h.Replaces h' place v ∧ ((∀ v ∈ vs, h.Has v) → (h.at? place).isSome)) :
    p.Frame vs h result := by
  cases result with
  | value a w => exact (if_pos hname).mpr hresult
  | fault f w | trap t w =>
      have hheap : w.heap = h := hresult
      exact hheap ▸ .refl _

theorem frame_plain {p : Primitive} {operation : DirectOperation}
    (hplain : operation.isMutator = false) (hname : p.name ∉ mutators) (vs : List Value)
    (w : World) : p.Frame vs w.heap (p.call operation vs w) := by
  have hcall : (p.call operation vs).Obeys Heap.growth w.heap fun _ _ => True :=
    .after_still (Step.still_checkCount p vs) fun _ =>
      DirectOperation.obeys_perform hplain fun _ _ => trivial
  have hresult := hcall w (.refl _) trivial
  cases hcalled : p.call operation vs w with
  | value a w' =>
      rw [hcalled] at hresult
      exact (if_neg hname).mpr hresult.2.1
  | fault f w' | trap t w' =>
      rw [hcalled] at hresult
      exact hresult.2

theorem frame_set {side : Side} {name : String} (hname : name ∈ mutators)
    (htarget : ∀ ref v, target? (exactly 2 name (.list (.set side))) [.pair ref, v] =
      some (.field ref side, v)) (vs : List Value) (w : World) :
    (exactly 2 name (.list (.set side))).Frame vs w.heap
      ((exactly 2 name (.list (.set side))).call (.list (.set side)) vs w) := by
  refine frame_of_commits hname (commits_call fun w' hw hlength => ?_)
  obtain ⟨x, y, rfl⟩ := List.length_eq_two.1 hlength
  rw [← hw]
  refine ListOperation.commits_set.imp fun _ h' ⟨ref, hx, hreplaces⟩ => ?_
  subst hx
  exact ⟨_, _, htarget ref y, hreplaces, fun hhas =>
    Heap.isSome_at?_field (hhas _ List.mem_cons_self) side⟩

theorem frame_setElement (vs : List Value) (w : World) :
    (exactly 3 "vector-set!" (.vector .set)).Frame vs w.heap
      ((exactly 3 "vector-set!" (.vector .set)).call (.vector .set) vs w) := by
  refine frame_of_commits (by decide) (commits_call fun w' hw hlength => ?_)
  obtain ⟨x, y, z, rfl⟩ := List.length_eq_three.1 hlength
  rw [← hw]
  refine VectorOperation.commits_set.imp fun _ h' ⟨ref, i, hx, hi, hlt, hreplaces⟩ => ?_
  subst hx
  exact ⟨.element ref i, z, by simp [target?, exactly, hi], hreplaces, fun _ =>
    Heap.isSome_at?_element hlt⟩

theorem frame_setChar (vs : List Value) (w : World) :
    (exactly 3 "string-set!" (.string .set)).Frame vs w.heap
      ((exactly 3 "string-set!" (.string .set)).call (.string .set) vs w) := by
  refine frame_of_commits (by decide) (commits_call fun w' hw hlength => ?_)
  obtain ⟨x, y, z, rfl⟩ := List.length_eq_three.1 hlength
  rw [← hw]
  refine StringOperation.commits_set.imp fun _ h' ⟨ref, i, c, hx, hi, hz, hlt, hreplaces⟩ => ?_
  subst hx
  subst hz
  exact ⟨.character ref i, .character c, by simp [target?, exactly, hi], hreplaces, fun _ =>
    Heap.isSome_at?_character hlt⟩

/-- Every primitive but those that go on with evaluations keeps to its frame. -/
theorem framed {p : Primitive} (hp : p ∈ table) (hname : p.name ∉ evaluators) (vs : List Value) :
    ∃ call : Action Value,
      (∀ stack w, Step.apply (.primitive p) vs stack w = Step.answer call stack w) ∧
      ∀ w, p.Frame vs w.heap (call w) := by
  rcases plain_or_mutator p hp hname with ⟨hplain, hother⟩ | hmutator
  · unfold isPlain at hplain
    split at hplain
    · rename_i operation hoperation
      exact ⟨p.call operation vs, apply_eq hoperation vs,
        frame_plain (by simpa using hplain) hother vs⟩
    · cases hplain
  · simp only [List.mem_cons, List.not_mem_nil, or_false] at hmutator
    rcases hmutator with rfl | rfl | rfl | rfl
    · exact ⟨_, apply_eq rfl vs, frame_set (by decide) (fun _ _ => rfl) vs⟩
    · exact ⟨_, apply_eq rfl vs, frame_set (by decide) (fun _ _ => rfl) vs⟩
    · exact ⟨_, apply_eq rfl vs, frame_setElement vs⟩
    · exact ⟨_, apply_eq rfl vs, frame_setChar vs⟩

end Primitive

/-! ## Lengths -/

namespace Heap

/-- Every string and every vector of the first heap is in the second, just as long. -/
structure SameLengths (h h' : Heap) : Prop where
  strings : ∀ i length : Nat,
    h.strings[i]?.map Array.size = some length → h'.strings[i]?.map Array.size = some length
  vectors : ∀ i length : Nat,
    h.vectors[i]?.map Array.size = some length → h'.vectors[i]?.map Array.size = some length

theorem SameLengths.of_eq {h h' : Heap} (hstrings : h'.strings = h.strings)
    (hvectors : h'.vectors = h.vectors) : SameLengths h h' :=
  ⟨fun _ _ hi => hstrings ▸ hi, fun _ _ hi => hvectors ▸ hi⟩

theorem SameLengths.trans {h₁ h₂ h₃ : Heap} (h₁₂ : SameLengths h₁ h₂) (h₂₃ : SameLengths h₂ h₃) :
    SameLengths h₁ h₃ where
  strings i length hi := h₂₃.strings i length (h₁₂.strings i length hi)
  vectors i length hi := h₂₃.vectors i length (h₁₂.vectors i length hi)

theorem sameLengths_addString (h : Heap) (chars : Array Char) :
    SameLengths h (h.addString chars).2 where
  strings i length hi := by
    obtain ⟨old, hold, hlength⟩ := Option.map_eq_some_iff.1 hi
    exact Option.map_eq_some_iff.2 ⟨old, getElem?_push_of_some _ hold, hlength⟩
  vectors _ _ := id

theorem sameLengths_addVector (h : Heap) (elements : Array Value) :
    SameLengths h (h.addVector elements).2 where
  strings _ _ := id
  vectors i length hi := by
    obtain ⟨old, hold, hlength⟩ := Option.map_eq_some_iff.1 hi
    exact Option.map_eq_some_iff.2 ⟨old, getElem?_push_of_some _ hold, hlength⟩

theorem sameLengths_setChar (h : Heap) (ref : Ref .string) (i : Nat) (c : Char) :
    SameLengths h (h.setChar ref i c) where
  strings j length hj := by
    rw [setChar, ← Array.getElem?_map, size_modify_setIfInBounds, Array.getElem?_map]
    exact hj
  vectors _ _ := id

theorem sameLengths_setElement (h : Heap) (ref : Ref .vector) (i : Nat) (v : Value) :
    SameLengths h (h.setElement ref i v) where
  strings _ _ := id
  vectors j length hj := by
    rw [setElement, ← Array.getElem?_map, size_modify_setIfInBounds, Array.getElem?_map]
    exact hj

/-- Lengths stay, and otherwise anything goes. -/
def lengths : MachinePolicy where
  good _ := True
  leads := SameLengths
  admits _ _ := True
  usable _ _ := True
  refl _ := .of_eq rfl rfl
  trans := .trans
  mono _ _ := trivial
  usableMono _ _ := trivial
  atom _ := trivial
  fields _ _ := ⟨trivial, trivial⟩
  element _ _ _ := trivial
  cons _ _ _ := ⟨trivial, .of_eq rfl rfl, trivial⟩
  addString {h} chars _ := ⟨trivial, h.sameLengths_addString chars, trivial⟩
  addVector {h elements} _ _ := ⟨trivial, h.sameLengths_addVector elements, trivial⟩
  global _ := trivial
  setPair _ _ _ _ := ⟨trivial, .of_eq rfl rfl⟩
  setChar {h} ref i c _ := ⟨trivial, h.sameLengths_setChar ref i c⟩
  setElement {h v} ref i _ _ := ⟨trivial, h.sameLengths_setElement ref i v⟩
  located _ _ _ := trivial
  assign _ _ _ _ := ⟨trivial, .of_eq rfl rfl⟩
  bind _ _ _ _ := ⟨trivial, .of_eq rfl rfl⟩
  nameClosure _ _ _ := ⟨trivial, .of_eq rfl rfl⟩
  addScope _ _ _ := ⟨trivial, .of_eq rfl rfl, trivial⟩
  code _ _ _ := Or.inl ⟨trivial, trivial⟩
  transformer := .rfl
  addClosure _ _ _ := ⟨trivial, .of_eq rfl rfl, trivial⟩
  slot _ _ := trivial
  addContinuation _ _ := ⟨trivial, .of_eq rfl rfl, trivial⟩
  setContinuation _ _ _ := ⟨trivial, .of_eq rfl rfl⟩

theorem admitted_lengths (h : Heap) (control : Control) : control.Admitted lengths h := by
  cases control <;> simp [Control.Admitted, lengths]

theorem pending_lengths (h : Heap) (p : Pending) : p.Admitted lengths h := by
  cases p <;> simp [Pending.Admitted, lengths]

end Heap

/-- The lengths of strings and vectors stay the same in the course of any run. -/
theorem Step.sameLengths_steps (step : Step) {m n : Nat} (hle : m ≤ n) :
    (step.steps m).outcome.2.heap.SameLengths (step.steps n).outcome.2.heap := by
  obtain ⟨k, rfl⟩ := Nat.exists_eq_add_of_le hle
  rw [steps_add]
  generalize step.steps m = step
  have hstep : step.Obeys Heap.lengths step.outcome.2.heap := by
    cases step with
    | next s =>
        exact ⟨trivial, .of_eq rfl rfl, Or.inl (Heap.admitted_lengths _ _),
          fun p _ => Heap.pending_lengths _ p⟩
    | done outcome w => exact ⟨trivial, .of_eq rfl rfl, fun _ _ => trivial⟩
  have hsteps := hstep.steps (fun _ _ _ => id) k
  cases hk : step.steps k with
  | next s | done outcome w =>
      rw [hk] at hsteps
      exact hsteps.2.1

/-- Primitives change nothing they are not meant to change, and nothing when they fail; so no run
changes the length of a string or of a vector. -/
theorem Primitive.frames_and_lengths :
    (∀ p ∈ Primitive.table, p.name ∉ Primitive.evaluators → ∀ vs : List Value,
      ∃ call : Action Value,
        (∀ stack w, Step.apply (.primitive p) vs stack w = Step.answer call stack w) ∧
        ∀ w, p.Frame vs w.heap (call w)) ∧
      ∀ (step : Step) (m n : Nat), m ≤ n →
        (step.steps m).outcome.2.heap.SameLengths (step.steps n).outcome.2.heap :=
  ⟨fun _ hp hname vs => framed hp hname vs, fun step _ _ hle => step.sameLengths_steps hle⟩

/-- For instance a change of the second element of the first vector. -/
theorem Primitive.frame_of_vector_set :
    let p := exactly 3 "vector-set!" (.vector .set)
    let vs : List Value := [.vector ⟨0⟩, .number (.ofNat 1), .boolean true]
    let w : World :=
      { heap := { vectors := #[#[.nil, .nil]] }, host := World.nowhere, maxDepth := 1 }
    (p ∈ table ∧ p.name ∉ evaluators) ∧
      (∃ call : Action Value,
        (∀ stack w, Step.apply (.primitive p) vs stack w = Step.answer call stack w) ∧
        ∀ w, p.Frame vs w.heap (call w)) ∧
      (0 ≤ 1 ∧ ((Step.go (.apply (.primitive p) vs) [] w).steps 0).outcome.2.heap.SameLengths
        ((Step.go (.apply (.primitive p) vs) [] w).steps 1).outcome.2.heap) := by
  have hp : exactly 3 "vector-set!" (.vector .set) ∈ table := by decide +kernel
  exact ⟨⟨hp, by decide⟩, frames_and_lengths.1 _ hp (by decide) _, by decide,
    frames_and_lengths.2 _ 0 1 (by decide)⟩

end Scheme
