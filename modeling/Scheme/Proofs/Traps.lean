import Scheme.Proofs.CheckedArithmetic
import Scheme.Proofs.ClosedHeaps
import Scheme.Proofs.EndlessSpines
import Scheme.Proofs.PrimitiveFrames
/-!
# Operations that end in a trap

Nearly all operations end with a value or a failure. The others are of two kinds. Those that walk
along a list do not come to an end on a spine without one. A remainder by NaN, a least common
multiple whose quotient does not fit, and a change of a string or a vector at a position that is no
number and shows the very container end in a trap of their own.
-/

namespace Scheme

/-- The trap that an action ended in. -/
def Result.trap? {α : Type} : Result α → Option Trap
  | .trap t _ => some t
  | .value _ _ | .fault _ _ => none

namespace Action

variable {α β : Type}

/-! ## Actions without traps -/

/-- The action ends with a value or a failure. -/
def Calm (x : Action α) : Prop :=
  ∀ w, (x w).trap? = none

@[simp] theorem calm_pure (a : α) : Calm (pure a : Action α) :=
  fun _ => rfl

@[simp] theorem calm_bind {x : Action α} {f : α → Action β} (hx : x.Calm)
    (hf : ∀ a, (f a).Calm) : Calm (x >>= f) := by
  intro w
  have hfirst := hx w
  change (Action.bind x f w).trap? = none
  unfold Action.bind
  cases hresult : x w with
  | value a w' => exact hf a w'
  | fault e w' => rfl
  | trap t w' =>
      rw [hresult] at hfirst
      cases hfirst

@[simp] theorem calm_map {x : Action α} (f : α → β) (hx : x.Calm) : Calm (f <$> x) :=
  calm_bind hx fun a => calm_pure (f a)

@[simp] theorem calm_ite {c : Prop} [Decidable c] {x y : Action α} (hx : x.Calm) (hy : y.Calm) :
    Calm (if c then x else y) := by
  split
  · exact hx
  · exact hy

@[simp] theorem calm_look (f : Heap → α) : Calm (World.look f) :=
  fun _ => rfl

@[simp] theorem calm_alter (f : Heap → α × Heap) : Calm (World.alter f) :=
  fun _ => rfl

@[simp] theorem calm_fail (cause : Failure) : Calm (World.fail cause : Action α) :=
  fun _ => rfl

@[simp] theorem calm_failWith (cause : Heap → Failure) :
    Calm (World.failWith cause : Action α) :=
  fun _ => rfl

@[simp] theorem calm_both {x : Action α} {y : Action β} (hx : x.Calm) (hy : y.Calm) :
    Calm (World.both x y) := by
  intro w
  have hfirst := hx w
  unfold World.both
  cases hresult : x w with
  | trap t w' =>
      rw [hresult] at hfirst
      cases hfirst
  | value a w' | fault e w' =>
      have hsecond := hy w'
      simp only
      cases hresult' : y w' with
      | trap t w'' =>
          rw [hresult'] at hsecond
          cases hsecond
      | _ => rfl

@[simp] theorem calm_mapM {f : α → Action β} (hf : ∀ a, (f a).Calm) (items : List α) :
    Calm (items.mapM f) := by
  induction items with
  | nil => exact calm_pure []
  | cons a items ih =>
      rw [List.mapM_cons]
      exact calm_bind (hf a) fun _ => calm_bind ih fun _ => calm_pure _

/-! ## Actions that may not come to an end -/

/-- The action ends with a value or a failure, unless the heap is as described and it walks along a
list without an end. -/
def Walks (P : Heap → Prop) (x : Action α) : Prop :=
  ∀ w t, (x w).trap? = some t → t = .endless ∧ P w.heap

theorem trap?_before_calm {x : Action α} {f : α → Action β} (hf : ∀ a, (f a).Calm) (w : World) :
    ((x >>= f) w).trap? = (x w).trap? := by
  change (Action.bind x f w).trap? = _
  unfold Action.bind
  cases x w with
  | value a w' => exact hf a w'
  | fault e w' | trap t w' => rfl

theorem Walks.bind {P : Heap → Prop} {x : Action α} {f : α → Action β} (hx : x.Walks P)
    (hf : ∀ a, (f a).Calm) : Walks P (x >>= f) :=
  fun w t ht => hx w t (trap?_before_calm hf w ▸ ht)

end Action

namespace World

open Scheme.Action

@[simp] theorem calm_expect {α : Type} (expected : Expected) (v : Value) (a : Option α) :
    Calm (expect expected v a) := by
  cases a with
  | some a => exact calm_pure a
  | none => exact fun _ => rfl

@[simp] theorem calm_flonum (v : Value) : Calm (flonum v) := calm_expect _ _ _
@[simp] theorem calm_number (v : Value) : Calm (number v) := by simp [number]
@[simp] theorem calm_character (v : Value) : Calm (character v) := calm_expect _ _ _
@[simp] theorem calm_symbol (v : Value) : Calm (symbol v) := calm_expect _ _ _
@[simp] theorem calm_string (v : Value) : Calm (string v) := calm_expect _ _ _
@[simp] theorem calm_vector (v : Value) : Calm (vector v) := calm_expect _ _ _
@[simp] theorem calm_pair (v : Value) : Calm (pair v) := calm_expect _ _ _
@[simp] theorem calm_inputPort (v : Value) : Calm (inputPort v) := calm_expect _ _ _
@[simp] theorem calm_outputPort (v : Value) : Calm (outputPort v) := calm_expect _ _ _
@[simp] theorem calm_index (v : Value) : Calm (index v) := by simp [index]
@[simp] theorem calm_textOf (v : Value) : Calm (textOf v) := by simp [textOf]

@[simp] theorem calm_withReader {α : Type} (ref : Ref .inputPort) (use : Reader → α × Reader) :
    Calm (withReader ref use) := by
  intro w
  rw [withReader]
  split <;> rfl

@[simp] theorem calm_receive (reading : Reading) : Calm (receive reading) := by
  intro w
  cases reading <;> rfl

@[simp] theorem calm_readDatum (ref : Ref .inputPort) : Calm (readDatum ref) := by
  simp [readDatum]

@[simp] theorem calm_readChar (ref : Ref .inputPort) : Calm (readChar ref) := by
  simp [readChar]

@[simp] theorem calm_peekChar (ref : Ref .inputPort) : Calm (peekChar ref) := by
  simp [peekChar]

@[simp] theorem calm_writeText (ref : Ref .outputPort) (text : String) :
    Calm (writeText ref text) := by
  intro w
  rw [writeText_eq]
  split
  · rfl
  · split <;> rfl

@[simp] theorem calm_openInput (name : Value) : Calm (openInput name) := by
  refine calm_bind (calm_textOf name) fun path w => ?_
  simp only
  split <;> rfl

@[simp] theorem calm_openOutput (name : Value) : Calm (openOutput name) := by
  refine calm_bind (calm_textOf name) fun path w => ?_
  simp only
  split <;> rfl

@[simp] theorem calm_allocationLength (procedure : String) (v : Value) :
    Calm (allocationLength procedure v) := by
  simp [allocationLength]

@[simp] theorem calm_position (v : Value) (length : Nat) : Calm (position v length) := by
  simp [position]

/-- Walking along a spine. -/
theorem walks_spine (v : Value) : Walks (fun h => h.spine? v = none) (spine v) := by
  intro w t ht
  unfold spine at ht
  cases hspine : w.heap.spine? v with
  | none =>
      rw [hspine] at ht
      exact ⟨(Option.some.inj ht).symm, hspine⟩
  | some r =>
      rw [hspine] at ht
      cases ht

theorem walks_elements (v : Value) : Walks (fun h => h.spine? v = none) (elements v) :=
  (walks_spine v).bind fun _ => by simp

end World

/-! ## Operations that may not come to an end -/

section

open Scheme.Action

variable {w : World} {vs : List Value} {t : Trap}

theorem Heap.not_endless_nil (h : Heap) : ¬h.Endless .nil :=
  fun hendless => by cases hendless 0

theorem Heap.has_getD {h : Heap} (hvs : ∀ v ∈ vs, h.Has v) (i : Nat) : h.Has (vs.getD i .nil) :=
  Policy.admits_getD (P := Heap.references.toPolicy) hvs i

theorem Heap.exists_endless {h : Heap} {i : Nat} (hendless : h.Endless (vs.getD i .nil)) :
    ∃ v ∈ vs, h.Endless v := by
  rw [List.getD_eq_getElem?_getD] at hendless
  cases hv : vs[i]? with
  | none =>
      rw [hv] at hendless
      exact absurd hendless h.not_endless_nil
  | some v =>
      rw [hv] at hendless
      exact ⟨v, List.mem_of_getElem? hv, hendless⟩

/-- The trap is that of walking along an argument without an end. -/
def Heap.Stuck (h : Heap) (vs : List Value) (t : Trap) : Prop :=
  t = .endless ∧ ∃ v ∈ vs, h.Endless v

theorem absurd_of_calm {x : Action Value} (hx : x.Calm) (ht : (x w).trap? = some t) {C : Prop} :
    C := by
  rw [hx w] at ht
  cases ht

/-- The operations that walk along a list. -/
def DirectOperation.walks : DirectOperation → Bool
  | .list .append | .list .reverse | .list (.member _) | .list (.association _) => true
  | .string .ofList | .vector .ofList => true
  | _ => false

theorem stuck_of_spine (hc : w.heap.Closed) (hvs : ∀ v ∈ vs, w.heap.Has v) {i : Nat}
    {x : Action Value} (hx : x.Walks fun h => h.spine? (vs.getD i .nil) = none)
    (ht : (x w).trap? = some t) : w.heap.Stuck vs t := by
  obtain ⟨hendless, hspine⟩ := hx w t ht
  exact ⟨hendless, Heap.exists_endless
    (Heap.endless_of_spine? hc (Heap.has_getD hvs i) (.refl _) hspine)⟩

namespace ListOperation

theorem walks_search (test : Heap → Value → Bool) (v : Value) :
    Walks (fun h => h.findTail (test h) h.pairs.size v = none) (search test v) := by
  intro w t ht
  unfold search at ht
  cases hfind : w.heap.findTail (test w.heap) w.heap.pairs.size v with
  | none =>
      rw [hfind] at ht
      exact ⟨(Option.some.inj ht).symm, hfind⟩
  | some found =>
      rw [hfind] at ht
      cases ht

theorem stuck_of_search (hc : w.heap.Closed) (hvs : ∀ v ∈ vs, w.heap.Has v) {i : Nat}
    {test : Heap → Value → Bool} {x : Action Value}
    (hx : x.Walks fun h => h.findTail (test h) h.pairs.size (vs.getD i .nil) = none)
    (ht : (x w).trap? = some t) : w.heap.Stuck vs t := by
  obtain ⟨hendless, hfind⟩ := hx w t ht
  exact ⟨hendless, Heap.exists_endless
    (Heap.endless_of_findTail hc (Heap.has_getD hvs i) hfind)⟩

/-- Appending walks along the lists as they were at the start. -/
theorem stuck_of_append {h : Heap} (hc : h.Closed) (hvs : ∀ v ∈ vs, h.Has v)
    (hext : h.Extends w.heap) {result : Value}
    (ht : (appendReversed result vs w).trap? = some t) : h.Stuck vs t := by
  induction vs generalizing w result with
  | nil => cases ht
  | cons v vs ih =>
      obtain ⟨hv, hvs⟩ := List.forall_mem_cons.1 hvs
      change (Action.bind (World.spine v) _ w).trap? = some t at ht
      unfold Action.bind World.spine at ht
      cases hspine : w.heap.spine? v with
      | none =>
          rw [hspine] at ht
          exact ⟨(Option.some.inj ht).symm, v, List.mem_cons_self,
            Heap.endless_of_spine? hc hv hext hspine⟩
      | some r =>
          rw [hspine] at ht
          -- the copy of this list is new, and the lists that are left are where they were
          have hgrown : h.Extends (w.heap.listStar r.1 result).2 :=
            hext.trans (Policy.makes_listStar (P := Heap.growth) trivial
              (fun _ _ => trivial) trivial).2.1.toExtends
          obtain ⟨hendless, x, hx, hwalk⟩ := ih hvs hgrown ht
          exact ⟨hendless, x, List.mem_cons_of_mem _ hx, hwalk⟩

theorem stuck_of_perform (hc : w.heap.Closed) (hvs : ∀ v ∈ vs, w.heap.Has v)
    {operation : ListOperation} (ht : (operation.perform vs w).trap? = some t) :
    (DirectOperation.list operation).walks = true ∧ w.heap.Stuck vs t := by
  cases operation with
  | append =>
      cases hreverse : vs.reverse with
      | nil =>
          have hperform : append.perform vs = pure .nil := by simp only [perform, hreverse]
          exact absurd_of_calm (hperform ▸ calm_pure _) ht
      | cons last others =>
          have hperform : append.perform vs = appendReversed last others := by
            simp only [perform, hreverse]
          have hmem : ∀ v ∈ others, v ∈ vs := by
            intro v hv
            have hv' : v ∈ vs.reverse := hreverse ▸ List.mem_cons_of_mem last hv
            exact List.mem_reverse.1 hv'
          rw [hperform] at ht
          obtain ⟨hendless, v, hv, hwalk⟩ :=
            stuck_of_append hc (fun v hv => hvs v (hmem v hv)) (.refl _) ht
          exact ⟨rfl, hendless, v, hmem v hv, hwalk⟩
  | reverse =>
      exact ⟨rfl, stuck_of_spine hc hvs ((World.walks_spine _).bind fun _ => calm_alter _) ht⟩
  | member sameness =>
      exact ⟨rfl, stuck_of_search (i := 1) hc hvs
        (walks_search (fun h item => h.same sameness (vs.getD 0 .nil) item) _) ht⟩
  | association sameness =>
      exact ⟨rfl, stuck_of_search (i := 1) hc hvs
        ((walks_search _ _).bind fun _ => calm_look _) ht⟩
  | listStar =>
      refine absurd_of_calm ?_ ht
      simp only [perform]
      split <;> simp
  | length =>
      refine absurd_of_calm (calm_bind (calm_look _) fun length => ?_) ht
      cases length <;> simp
  | set side =>
      refine absurd_of_calm (calm_bind (World.calm_pair _) fun ref => ?_) ht
      exact calm_alter _
  | _ => exact absurd_of_calm (by simp [perform]) ht

end ListOperation

namespace NumberOperation

@[simp] theorem calm_division (x y : Value) : Calm (division x y) := by
  simp [division]

@[simp] theorem calm_numbers (vs : List Value) : Calm (numbers vs) := by
  simp [numbers]

@[simp] theorem calm_radixOf (vs : List Value) : Calm (radixOf vs) := by
  unfold radixOf
  split <;> simp

@[simp] theorem calm_toTextIn (n : Float) (radix : Nat) : Calm (toTextIn n radix) := by
  simp [toTextIn]

/-- Only remainders and least common multiples are ever undefined. -/
theorem calm_perform {operation : NumberOperation} (hremainder : operation ≠ .remainder)
    (hmodulo : operation ≠ .modulo) (hlcm : operation ≠ .lcm) : Calm (operation.perform vs) := by
  cases operation with
  | remainder => exact absurd rfl hremainder
  | modulo => exact absurd rfl hmodulo
  | lcm => exact absurd rfl hlcm
  | atan =>
      simp only [perform]
      split <;> simp
  | _ => simp [perform]

end NumberOperation

theorem CharacterOperation.calm_perform (operation : CharacterOperation) :
    Calm (operation.perform vs) := by
  cases operation with
  | ofCode =>
      refine calm_bind (World.calm_index _) fun code => ?_
      split <;> simp
  | _ => simp [perform]

theorem StringOperation.calm_ofValues (values : List Value) : Calm (ofValues values) := by
  simp [ofValues]

theorem StringOperation.stuck_of_perform (hc : w.heap.Closed) (hvs : ∀ v ∈ vs, w.heap.Has v)
    {operation : StringOperation} (hset : operation ≠ .set)
    (ht : (operation.perform vs w).trap? = some t) :
    (DirectOperation.string operation).walks = true ∧ w.heap.Stuck vs t := by
  cases operation with
  | set => exact absurd rfl hset
  | ofList =>
      exact ⟨rfl, stuck_of_spine (i := 0) hc hvs ((World.walks_elements _).bind calm_ofValues) ht⟩
  | make =>
      refine absurd_of_calm ?_ ht
      simp only [perform]
      split <;> simp
  | get => exact absurd_of_calm (calm_bind (by simp) fun _ => by simp) ht
  | substring =>
      exact absurd_of_calm (calm_bind (by simp) fun _ => calm_bind (by simp) fun _ => by simp) ht
  | ofCharacters => exact absurd_of_calm (calm_ofValues _) ht
  | _ => exact absurd_of_calm (by simp [perform]) ht

theorem VectorOperation.stuck_of_perform (hc : w.heap.Closed) (hvs : ∀ v ∈ vs, w.heap.Has v)
    {operation : VectorOperation} (hset : operation ≠ .set)
    (ht : (operation.perform vs w).trap? = some t) :
    (DirectOperation.vector operation).walks = true ∧ w.heap.Stuck vs t := by
  cases operation with
  | set => exact absurd rfl hset
  | ofList =>
      exact ⟨rfl, stuck_of_spine (i := 0) hc hvs
        ((World.walks_elements _).bind fun _ => calm_alter _) ht⟩
  | get => exact absurd_of_calm (calm_bind (by simp) fun _ => by simp) ht
  | _ => exact absurd_of_calm (by simp [perform]) ht

namespace PortOperation

@[simp] theorem calm_inputOf (argument : Option Value) : Calm (inputOf argument) := by
  cases argument <;> simp [inputOf]

@[simp] theorem calm_outputOf (argument : Option Value) : Calm (outputOf argument) := by
  cases argument <;> simp [outputOf]

theorem calm_perform (operation : PortOperation) : Calm (operation.perform vs) := by
  cases operation with
  | closeInput => exact calm_bind (World.calm_inputPort _) fun _ _ => rfl
  | closeOutput => exact calm_bind (World.calm_outputPort _) fun _ _ => rfl
  | write | display => exact calm_bind (by simp) fun _ => by simp
  | _ => simp [perform]

end PortOperation

theorem DirectOperation.calm_leave (vs : List Value) : Calm (leave vs) := by
  cases vs with
  | nil => exact calm_bind (calm_pure 0) fun _ _ => rfl
  | cons x _ => exact calm_bind (by simp) fun _ _ => rfl

/-- The operations that can end in a trap of their own. -/
def DirectOperation.isRisky : DirectOperation → Bool
  | .number .remainder | .number .modulo | .number .lcm | .string .set | .vector .set => true
  | _ => false

/-- The other operations end with a value or a failure, unless they walk along an argument without
an end. -/
theorem DirectOperation.stuck_of_perform (hc : w.heap.Closed) (hvs : ∀ v ∈ vs, w.heap.Has v)
    {operation : DirectOperation} (hrisky : operation.isRisky = false)
    (ht : (operation.perform vs w).trap? = some t) :
    operation.walks = true ∧ w.heap.Stuck vs t := by
  cases operation with
  | list operation => exact ListOperation.stuck_of_perform hc hvs ht
  | number operation =>
      refine absurd_of_calm (NumberOperation.calm_perform ?_ ?_ ?_) ht
      all_goals
        rintro rfl
        cases hrisky
  | character operation => exact absurd_of_calm operation.calm_perform ht
  | string operation =>
      refine StringOperation.stuck_of_perform hc hvs ?_ ht
      rintro rfl
      cases hrisky
  | vector operation =>
      refine VectorOperation.stuck_of_perform hc hvs ?_ ht
      rintro rfl
      cases hrisky
  | port operation => exact absurd_of_calm operation.calm_perform ht
  | exit => exact absurd_of_calm (calm_leave vs) ht
  | _ => exact absurd_of_calm (by simp [perform]) ht

/-! ## Operations that can be undefined -/

theorem Action.trap?_bind {α β : Type} {x : Action α} {f : α → Action β} (hx : x.Calm) :
    ((x >>= f) w).trap? = some t ↔ ∃ a w', x w = .value a w' ∧ (f a w').trap? = some t := by
  have hfirst := hx w
  change (Action.bind x f w).trap? = some t ↔ _
  unfold Action.bind
  cases hresult : x w with
  | value a w' => simp
  | fault e w' => simp [Result.trap?]
  | trap t' w' =>
      rw [hresult] at hfirst
      cases hfirst

theorem Action.bind_eq_value {α β : Type} {x : Action α} {f : α → Action β} {b : β} {w' : World} :
    (x >>= f) w = .value b w' ↔ ∃ a w₁, x w = .value a w₁ ∧ f a w₁ = .value b w' := by
  change Action.bind x f w = .value b w' ↔ _
  unfold Action.bind
  cases hresult : x w <;> simp

theorem World.expect_eq_value {α : Type} {expected : Expected} {v : Value} {o : Option α} {a : α}
    {w' : World} : expect expected v o w = .value a w' ↔ o = some a ∧ w' = w := by
  cases o with
  | none => simp [expect, failWith, fail]
  | some b =>
      constructor
      · intro heq
        cases heq
        exact ⟨rfl, rfl⟩
      · rintro ⟨heq, rfl⟩
        cases heq
        rfl

theorem Action.trap?_expect {α β : Type} {expected : Expected} {v : Value} {o : Option α}
    {f : α → Action β} :
    ((World.expect expected v o >>= f) w).trap? = some t ↔
      ∃ a, o = some a ∧ (f a w).trap? = some t := by
  rw [trap?_bind (World.calm_expect expected v o)]
  simp only [World.expect_eq_value]
  constructor
  · rintro ⟨a, _, ⟨ha, rfl⟩, ht⟩
    exact ⟨a, ha, ht⟩
  · rintro ⟨a, ha, ht⟩
    exact ⟨a, w, ⟨ha, rfl⟩, ht⟩

theorem World.positionIn_eq {container v : Value} (hv : v.isOf .number = false) (length : Nat) :
    positionIn container v length w =
      if w.heap.reaches v container then .trap .selfShown w else position v length w := by
  cases v <;> first | rfl | cases hv

/-- A position that is no number is shown, and it must not show what is about to be changed. -/
theorem World.trap?_positionIn {container v : Value} {length : Nat} :
    (positionIn container v length w).trap? = some t ↔
      t = .selfShown ∧ v.isOf .number = false ∧ w.heap.reaches v container = true := by
  have hcalm := calm_position v length w
  cases hv : v.isOf .number with
  | true =>
      obtain ⟨n, rfl⟩ : ∃ n, v = .number n := by
        cases v <;> first | exact ⟨_, rfl⟩ | cases hv
      change (position (.number n) length w).trap? = some t ↔ _
      rw [hcalm]
      simp
  | false =>
      rw [positionIn_eq hv]
      cases hreaches : w.heap.reaches v container with
      | true =>
          rw [if_pos rfl]
          exact ⟨fun ht => ⟨(Option.some.inj ht).symm, rfl, rfl⟩, fun ht => congrArg some ht.1.symm⟩
      | false =>
          rw [if_neg (by simp), hcalm]
          simp

theorem World.flonum_cases (v : Value) (w : World) :
    (∃ n, v = .number n ∧ flonum v w = .value n w) ∨
      (∀ n, v ≠ .number n) ∧ ∃ f w', flonum v w = .fault f w' := by
  cases v with
  | number n => exact Or.inl ⟨n, rfl, rfl⟩
  | _ => exact Or.inr ⟨fun _ => nofun, _, _, rfl⟩

namespace NumberOperation

/-- Division takes two numbers. -/
theorem division_eq_value {x y : Value} {r : Flonum × Flonum} {w' : World} :
    division x y w = .value r w' ↔ x = .number r.1 ∧ y = .number r.2 ∧
      (Number.truncate r.2.toFloat == 0) = false ∧ w' = w := by
  change Action.bind (World.both (World.flonum x) (World.flonum y)) _ w = .value r w' ↔ _
  unfold Action.bind World.both
  rcases World.flonum_cases x w with ⟨a, rfl, hx⟩ | ⟨hx, f, w₁, hfault⟩
  · rw [hx]
    rcases World.flonum_cases y w with ⟨b, rfl, hy⟩ | ⟨hy, f, w₁, hfault⟩
    · simp only [hy]
      cases hzero : Number.truncate b.toFloat == 0 with
      | true =>
          rw [if_pos rfl]
          constructor
          · intro heq
            cases heq
          · rintro ⟨-, hb, hne, -⟩
            cases hb
            rw [hzero] at hne
            cases hne
      | false =>
          rw [if_neg (by simp)]
          constructor
          · intro heq
            cases heq
            exact ⟨rfl, rfl, hzero, rfl⟩
          · rintro ⟨ha, hb, -, rfl⟩
            cases ha
            cases hb
            rfl
    · simp only [hfault]
      exact ⟨nofun, fun h => absurd h.2.1 (hy _)⟩
  · rw [hfault]
    refine ⟨fun heq => ?_, fun h => absurd h.1 (hx _)⟩
    cases hy : World.flonum y w₁ <;> simp only [hy] at heq <;> cases heq

/-- A remainder by NaN, and no other, is undefined. -/
theorem trap?_remaining {rule : Int64 → Int64 → Int64} {x y : Value} :
    (remaining rule x y w).trap? = some t ↔
      t = .zeroDivisor ∧ ∃ a b, x = .number a ∧ y = .number b ∧ b.isNaN = true := by
  unfold remaining
  rw [Action.trap?_bind (calm_division x y)]
  constructor
  · rintro ⟨⟨a, b⟩, w', hvalue, ht⟩
    obtain ⟨rfl, rfl, htruncate, rfl⟩ := division_eq_value.1 hvalue
    cases hnan : b.isNaN with
    | true =>
        simp only [(Number.toInt64_of_isNaN hnan).2, if_true] at ht
        exact ⟨(Option.some.inj ht).symm, a, b, rfl, rfl, hnan⟩
    | false =>
        simp only [Number.toInt64_ne_zero hnan htruncate, if_false] at ht
        cases ht
  · rintro ⟨rfl, a, b, rfl, rfl, hnan⟩
    obtain ⟨htruncate, hzero⟩ := Number.toInt64_of_isNaN hnan
    refine ⟨(a, b), w, division_eq_value.2 ⟨rfl, rfl, htruncate, rfl⟩, ?_⟩
    simp only [hzero, if_true]
    rfl

/-- The fold of the least common multiples comes to a quotient of the smallest integer by minus
one. -/
def Overflows (ns : List Flonum) : Prop :=
  ∃ before n after, ns = before ++ n :: after ∧
    before.foldl (fun acc n => Number.wrappedLcm acc (Number.toInt64 n.toFloat)) 1 =
      Int64.minValue ∧
    Number.gcd Int64.minValue (Number.toInt64 n.toFloat) = -1

theorem foldlM_lcm?_eq_none_iff (ns : List Flonum) :
    ns.foldlM (fun acc n => Number.lcm? acc (Number.toInt64 n.toFloat)) 1 = none ↔
      Overflows ns := by
  rw [Number.foldlM_eq_none_iff (fun a (n : Flonum) => Number.lcm?_eq a (Number.toInt64 n.toFloat))]
  refine exists_congr fun before => exists_congr fun n => exists_congr fun after => ?_
  refine and_congr_right fun _ => ⟨?_, ?_⟩
  · rintro ⟨hmin, hgcd⟩
    rw [hmin] at hgcd
    exact ⟨hmin, hgcd⟩
  · rintro ⟨hmin, hgcd⟩
    rw [hmin]
    exact ⟨rfl, hgcd⟩

theorem numbers_map (ns : List Flonum) : numbers (ns.map .number) w = .value ns w := by
  induction ns with
  | nil => rfl
  | cons n ns ih =>
      unfold numbers at ih ⊢
      rw [List.map_cons, List.mapM_cons]
      exact Action.bind_eq_value.2 ⟨n, w, rfl, Action.bind_eq_value.2 ⟨ns, w, ih, rfl⟩⟩

theorem eq_map_of_numbers {ns : List Flonum} {w' : World} (hvalue : numbers vs w = .value ns w') :
    vs = ns.map .number ∧ w' = w := by
  induction vs generalizing ns w' with
  | nil =>
      cases hvalue
      exact ⟨rfl, rfl⟩
  | cons v vs ih =>
      unfold numbers at ih hvalue
      rw [List.mapM_cons] at hvalue
      obtain ⟨n, w₁, hfirst, hothers⟩ := Action.bind_eq_value.1 hvalue
      obtain ⟨hv, rfl⟩ := World.expect_eq_value.1 hfirst
      obtain ⟨others, w₂, hrest, hlast⟩ := Action.bind_eq_value.1 hothers
      obtain ⟨rfl, rfl⟩ := ih hrest
      cases hlast
      cases v <;> cases hv
      exact ⟨rfl, rfl⟩

/-- A least common multiple is undefined exactly when the fold comes to an undefined quotient. -/
theorem trap?_lcm :
    (NumberOperation.lcm.perform vs w).trap? = some t ↔
      t = .overflow ∧ ∃ ns : List Flonum, vs = ns.map .number ∧ Overflows ns := by
  change ((numbers vs >>= fun ns => lcmAll ns) w).trap? = some t ↔ _
  rw [Action.trap?_bind (calm_numbers vs)]
  have hall : ∀ ns, (lcmAll ns w).trap? = some t ↔ t = .overflow ∧ Overflows ns := by
    intro ns
    unfold lcmAll
    rw [← foldlM_lcm?_eq_none_iff]
    cases ns.foldlM (fun acc n => Number.lcm? acc (Number.toInt64 n.toFloat)) 1 with
    | none => exact ⟨fun ht => ⟨(Option.some.inj ht).symm, rfl⟩, fun ht => congrArg some ht.1.symm⟩
    | some n => exact ⟨nofun, fun ht => nomatch ht.2⟩
  constructor
  · rintro ⟨ns, w', hvalue, ht⟩
    obtain ⟨hvs, rfl⟩ := eq_map_of_numbers hvalue
    obtain ⟨ht, hoverflows⟩ := (hall ns).1 ht
    exact ⟨ht, ns, hvs, hoverflows⟩
  · rintro ⟨ht, ns, rfl, hoverflows⟩
    exact ⟨ns, w, numbers_map ns, (hall ns).2 ⟨ht, hoverflows⟩⟩

end NumberOperation

/-- A change of a vector is undefined exactly when the position, which is no number, shows the
vector. -/
theorem VectorOperation.trap?_set (hc : w.heap.Closed) {x y z : Value} (hy : w.heap.Has y) :
    (VectorOperation.set.perform [x, y, z] w).trap? = some t ↔
      t = .selfShown ∧ ∃ ref, x = .vector ref ∧ y.isOf .number = false ∧ w.heap.Reaches y x := by
  have hposition : ∀ (ref : Ref .vector) (length : Nat),
      ((World.positionIn x y length >>= fun i => World.alter fun h => (z, h.setElement ref i z))
        w).trap? = some t ↔ t = .selfShown ∧ y.isOf .number = false ∧ w.heap.Reaches y x := by
    intro ref length
    rw [trap?_before_calm fun _ => calm_alter _, World.trap?_positionIn, Heap.reaches_iff hc hy]
  refine Action.trap?_expect.trans ⟨?_, ?_⟩
  · rintro ⟨ref, hx, ht⟩
    obtain ⟨ht, hnumber, hreaches⟩ := (hposition ref (w.heap.vector ref).size).1 ht
    refine ⟨ht, ref, ?_, hnumber, hreaches⟩
    cases x <;> cases hx
    rfl
  · rintro ⟨ht, ref, rfl, hnumber, hreaches⟩
    exact ⟨ref, rfl, (hposition ref (w.heap.vector ref).size).2 ⟨ht, hnumber, hreaches⟩⟩

/-- A change of a string to a character is undefined exactly when the position, which is no number,
shows the string. -/
theorem StringOperation.trap?_set (hc : w.heap.Closed) {x y z : Value} (hy : w.heap.Has y) :
    (StringOperation.set.perform [x, y, z] w).trap? = some t ↔
      t = .selfShown ∧ ∃ ref c, x = .string ref ∧ z = .character c ∧ y.isOf .number = false ∧
        w.heap.Reaches y x := by
  have hposition : ∀ (ref : Ref .string) (c : Char) (length : Nat),
      ((World.positionIn x y length >>= fun i =>
        World.alter fun h => (Value.character c, h.setChar ref i c)) w).trap? = some t ↔
        t = .selfShown ∧ y.isOf .number = false ∧ w.heap.Reaches y x := by
    intro ref c length
    rw [trap?_before_calm fun _ => calm_alter _, World.trap?_positionIn, Heap.reaches_iff hc hy]
  refine Action.trap?_expect.trans ⟨?_, ?_⟩
  · rintro ⟨c, hz, ht⟩
    obtain ⟨ref, hx, ht⟩ := Action.trap?_expect.1 ht
    obtain ⟨ht, hnumber, hreaches⟩ := (hposition ref c (w.heap.string ref).size).1 ht
    refine ⟨ht, ref, c, ?_, ?_, hnumber, hreaches⟩
    · cases x <;> cases hx
      rfl
    · cases z <;> cases hz
      rfl
  · rintro ⟨ht, ref, c, rfl, rfl, hnumber, hreaches⟩
    refine ⟨c, rfl, Action.trap?_expect.2 ⟨ref, rfl, ?_⟩⟩
    exact (hposition ref c (w.heap.string ref).size).2 ⟨ht, hnumber, hreaches⟩

end

end Scheme
