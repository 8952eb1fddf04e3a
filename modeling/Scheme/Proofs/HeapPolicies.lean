import Scheme.Primitive.Direct
import Scheme.Proofs.PlainActions
import Scheme.Proofs.Reachability
/-!
# Policies for the heap

A policy says which heaps are in order, which changes from one to another are allowed, and which
values may be handled in a heap. It has to allow the allocation of cells that hold values it
admits, and to admit what such cells hold. Then every operation that answers at once keeps to it,
apart from the four that change a cell: given arguments it admits, an operation leaves a heap in
order that an allowed change leads to, and answers a value that the policy admits.
-/

namespace Scheme

/-- Whether a value refers to a cell of the heap. -/
def Value.refers : Value → Bool
  | .pair _ | .vector _ | .string _ | .closure _ | .transformer _ | .continuation _ => true
  | _ => false

/-- A rule about heaps, their changes, and the values handled. -/
structure Policy where
  /-- The heap is in order. -/
  good : Heap → Prop
  /-- The change is allowed. -/
  leads : Heap → Heap → Prop
  /-- The value may be handled in the heap. -/
  admits : Heap → Value → Prop
  refl : ∀ h, leads h h
  trans : ∀ {h₁ h₂ h₃}, leads h₁ h₂ → leads h₂ h₃ → leads h₁ h₃
  mono : ∀ {h h' v}, leads h h' → admits h v → admits h' v
  atom : ∀ {h v}, v.refers = false → admits h v
  fields : ∀ {h ref}, good h → admits h (.pair ref) →
    admits h (h.pair ref).first ∧ admits h (h.pair ref).rest
  element : ∀ {h ref v}, good h → admits h (.vector ref) → v ∈ h.vector ref → admits h v
  cons : ∀ {h first rest}, good h → admits h first → admits h rest →
    good (h.cons first rest).2 ∧ leads h (h.cons first rest).2 ∧
      admits (h.cons first rest).2 (h.cons first rest).1
  addString : ∀ {h} (chars : Array Char), good h →
    good (h.addString chars).2 ∧ leads h (h.addString chars).2 ∧
      admits (h.addString chars).2 (h.addString chars).1
  addVector : ∀ {h} {elements : Array Value}, good h → (∀ v ∈ elements, admits h v) →
    good (h.addVector elements).2 ∧ leads h (h.addVector elements).2 ∧
      admits (h.addVector elements).2 (h.addVector elements).1

namespace Policy

variable {P : Policy} {h : Heap} {v : Value}

/-- What comes out of an allocation. -/
def Makes (P : Policy) (h : Heap) (made : Value × Heap) : Prop :=
  P.good made.2 ∧ P.leads h made.2 ∧ P.admits made.2 made.1

theorem admits_getD {vs : List Value} (hvs : ∀ v ∈ vs, P.admits h v) (i : Nat) :
    P.admits h (vs.getD i .nil) := by
  rw [List.getD_eq_getElem?_getD]
  cases hv : vs[i]? with
  | none => exact P.atom rfl
  | some v => exact hvs v (List.mem_of_getElem? hv)

/-! ## Reading -/

theorem admits_first (hgood : P.good h) (hv : P.admits h v) : P.admits h (h.first v) := by
  cases v with
  | pair ref => exact (P.fields hgood hv).1
  | _ => exact P.atom rfl

theorem admits_rest (hgood : P.good h) (hv : P.admits h v) : P.admits h (h.rest v) := by
  cases v with
  | pair ref => exact (P.fields hgood hv).2
  | _ => exact P.atom rfl

theorem admits_side (hgood : P.good h) (side : Side) (hv : P.admits h v) :
    P.admits h (h.side side v) := by
  cases side with
  | first => exact admits_first hgood hv
  | rest => exact admits_rest hgood hv

theorem admits_path (hgood : P.good h) (sides : List Side) (hv : P.admits h v) :
    P.admits h (sides.foldl (fun v side => h.side side v) v) := by
  induction sides generalizing v with
  | nil => exact hv
  | cons side sides ih => exact ih (admits_side hgood side hv)

theorem admits_drop (hgood : P.good h) (count : Nat) (hv : P.admits h v) :
    P.admits h (h.drop count v) := by
  induction count generalizing v with
  | zero => exact hv
  | succ count ih =>
      cases v with
      | pair ref => exact ih (P.fields hgood hv).2
      | _ => exact P.atom rfl

theorem admits_follow (hgood : P.good h) {budget : Nat} {passed items : List Value} {last : Value}
    (hv : P.admits h v) (hpassed : ∀ x ∈ passed, P.admits h x)
    (hfollow : h.follow budget passed v = some (items, last)) :
    (∀ x ∈ items, P.admits h x) ∧ P.admits h last := by
  induction budget generalizing passed v with
  | zero =>
      cases v <;> cases hfollow <;> exact ⟨hpassed, hv⟩
  | succ budget ih =>
      cases v with
      | pair ref =>
          obtain ⟨hfirst, hrest⟩ := P.fields hgood hv
          exact ih hrest (List.forall_mem_cons.2 ⟨hfirst, hpassed⟩) hfollow
      | _ =>
          cases hfollow
          exact ⟨hpassed, hv⟩

theorem admits_spine? (hgood : P.good h) {items : List Value} {last : Value} (hv : P.admits h v)
    (hspine : h.spine? v = some (items, last)) :
    (∀ x ∈ items, P.admits h x) ∧ P.admits h last := by
  obtain ⟨⟨passed, last'⟩, hfollow, heq⟩ := Option.map_eq_some_iff.1 hspine
  cases heq
  simpa using admits_follow hgood hv (by simp) hfollow

theorem admits_findTail (hgood : P.good h) {test : Value → Bool} {budget : Nat} {found : Value}
    (hv : P.admits h v) (hfound : h.findTail test budget v = some found) : P.admits h found := by
  fun_induction Heap.findTail h test budget v with
  | case1 =>
      cases hfound
      exact hv
  | case2 => cases hfound
  | case3 ref _ _ _ ih => exact ih (P.fields hgood hv).2 hfound
  | case4 =>
      cases hfound
      exact P.atom rfl

/-! ## Allocation -/

theorem makes_consReversed (hgood : P.good h) {tail : Value} {items : List Value}
    (htail : P.admits h tail) (hitems : ∀ x ∈ items, P.admits h x) :
    P.Makes h (h.consReversed tail items) := by
  induction items generalizing h tail with
  | nil => exact ⟨hgood, P.refl h, htail⟩
  | cons item items ih =>
      obtain ⟨hitem, hitems⟩ := List.forall_mem_cons.1 hitems
      obtain ⟨hgood', hleads, hmade⟩ := P.cons hgood hitem htail
      obtain ⟨hlast, hleads', hadmits⟩ := ih hgood' hmade fun x hx => P.mono hleads (hitems x hx)
      exact ⟨hlast, P.trans hleads hleads', hadmits⟩

theorem makes_listStar (hgood : P.good h) {tail : Value} {items : List Value}
    (hitems : ∀ x ∈ items, P.admits h x) (htail : P.admits h tail) :
    P.Makes h (h.listStar items tail) :=
  makes_consReversed hgood htail (by simpa using hitems)

theorem makes_list (hgood : P.good h) {items : List Value} (hitems : ∀ x ∈ items, P.admits h x) :
    P.Makes h (h.list items) :=
  makes_listStar hgood hitems (P.atom rfl)

mutual

theorem makes_build {h : Heap} (hgood : P.good h) (d : Datum) : P.Makes h (h.build d) := by
  cases d with
  | string chars => exact P.addString _ hgood
  | vector elements =>
      obtain ⟨hgood', hleads, hall⟩ := makes_buildAll hgood elements
      have hall : ∀ v ∈ (h.buildAll elements).1.toArray, P.admits (h.buildAll elements).2 v := by
        simpa using hall
      obtain ⟨hlast, hleads', hadmits⟩ := P.addVector hgood' hall
      exact ⟨hlast, P.trans hleads hleads', hadmits⟩
  | pair first rest =>
      obtain ⟨hgood₁, hleads₁, hfirst⟩ := makes_build hgood first
      obtain ⟨hgood₂, hleads₂, hrest⟩ := makes_build hgood₁ rest
      obtain ⟨hgood₃, hleads₃, hadmits⟩ := P.cons hgood₂ (P.mono hleads₂ hfirst) hrest
      exact ⟨hgood₃, P.trans hleads₁ (P.trans hleads₂ hleads₃), hadmits⟩
  | _ => exact ⟨hgood, P.refl h, P.atom rfl⟩
termination_by structural d

theorem makes_buildAll {h : Heap} (hgood : P.good h) (ds : List Datum) :
    P.good (h.buildAll ds).2 ∧ P.leads h (h.buildAll ds).2 ∧
      ∀ v ∈ (h.buildAll ds).1, P.admits (h.buildAll ds).2 v := by
  cases ds with
  | nil => exact ⟨hgood, P.refl h, by simp [Heap.buildAll]⟩
  | cons d ds =>
      obtain ⟨hgood₁, hleads₁, hv⟩ := makes_build hgood d
      obtain ⟨hgood₂, hleads₂, hall⟩ := makes_buildAll hgood₁ ds
      exact ⟨hgood₂, P.trans hleads₁ hleads₂, List.forall_mem_cons.2 ⟨P.mono hleads₂ hv, hall⟩⟩
termination_by structural ds

end

end Policy

/-! ## Actions -/

/-- The result leaves a heap in order, after an allowed change, with a value as described. -/
def Result.Obeys {α : Type} (P : Policy) (h : Heap) (Q : Heap → α → Prop) : Result α → Prop
  | .value a w => P.good w.heap ∧ P.leads h w.heap ∧ Q w.heap a
  | .fault _ w | .trap _ w => P.good w.heap ∧ P.leads h w.heap

/-- The action keeps to the policy in every world that an allowed change from the heap leads to. -/
def Action.Obeys {α : Type} (P : Policy) (h : Heap) (x : Action α) (Q : Heap → α → Prop) : Prop :=
  ∀ w, P.leads h w.heap → P.good w.heap → (x w).Obeys P w.heap Q

namespace Action.Obeys

variable {α β : Type} {P : Policy} {h : Heap} {Q : Heap → α → Prop} {R : Heap → β → Prop}

theorem pure {a : α} (ha : ∀ h', P.leads h h' → Q h' a) :
    Obeys P h (Pure.pure a : Action α) Q :=
  fun _ hleads hgood => ⟨hgood, P.refl _, ha _ hleads⟩

theorem bind {x : Action α} {f : α → Action β} (hx : x.Obeys P h Q)
    (hf : ∀ h' a, P.leads h h' → P.good h' → Q h' a → (f a).Obeys P h' R) :
    Obeys P h (x >>= f) R := by
  intro w hleads hgood
  have hfirst := hx w hleads hgood
  change (Action.bind x f w).Obeys P w.heap R
  unfold Action.bind
  cases hresult : x w with
  | value a w' =>
      rw [hresult] at hfirst
      obtain ⟨hgood', hleads', ha⟩ := hfirst
      have hnext := hf w'.heap a (P.trans hleads hleads') hgood' ha w' (P.refl _) hgood'
      simp only
      cases hlast : f a w' with
      | value b w'' =>
          rw [hlast] at hnext
          exact ⟨hnext.1, P.trans hleads' hnext.2.1, hnext.2.2⟩
      | fault | trap =>
          rw [hlast] at hnext
          exact ⟨hnext.1, P.trans hleads' hnext.2⟩
  | fault | trap =>
      rw [hresult] at hfirst
      exact hfirst

theorem later {h' : Heap} {x : Action α} (hx : x.Obeys P h Q) (hleads : P.leads h h') :
    x.Obeys P h' Q :=
  fun w hw hgood => hx w (P.trans hleads hw) hgood

theorem ite {c : Prop} [Decidable c] {x y : Action α} (hx : c → x.Obeys P h Q)
    (hy : ¬c → y.Obeys P h Q) : Obeys P h (if c then x else y) Q := by
  split
  · exact hx ‹_›
  · exact hy ‹_›

theorem look {f : Heap → α} (hf : ∀ h', P.leads h h' → P.good h' → Q h' (f h')) :
    Obeys P h (World.look f) Q :=
  fun _ hleads hgood => ⟨hgood, P.refl _, hf _ hleads hgood⟩

theorem alter {f : Heap → α × Heap}
    (hf : ∀ h', P.leads h h' → P.good h' →
      P.good (f h').2 ∧ P.leads h' (f h').2 ∧ Q (f h').2 (f h').1) :
    Obeys P h (World.alter f) Q :=
  fun _ hleads hgood => hf _ hleads hgood

theorem fail {cause : Failure} : Obeys P h (World.fail cause : Action α) Q :=
  fun _ _ hgood => ⟨hgood, P.refl _⟩

theorem failWith {cause : Heap → Failure} : Obeys P h (World.failWith cause : Action α) Q :=
  fun _ _ hgood => ⟨hgood, P.refl _⟩

theorem stop {t : Trap} : Obeys P h (World.stop t : Action α) Q :=
  fun _ _ hgood => ⟨hgood, P.refl _⟩

end Action.Obeys

/-! ## Actions that leave the heap alone -/

def Result.heap {α : Type} : Result α → Heap
  | .value _ w | .fault _ w | .trap _ w => w.heap

namespace Action

variable {α β : Type}

def Still (x : Action α) : Prop :=
  ∀ w, (x w).heap = w.heap

@[simp] theorem still_pure (a : α) : Still (pure a : Action α) :=
  fun _ => rfl

@[simp] theorem still_bind {x : Action α} {f : α → Action β} (hx : x.Still)
    (hf : ∀ a, (f a).Still) : Still (x >>= f) := by
  intro w
  have hfirst := hx w
  change (Action.bind x f w).heap = w.heap
  unfold Action.bind
  cases hresult : x w with
  | value a w' =>
      rw [hresult] at hfirst
      exact (hf a w').trans hfirst
  | fault | trap => rwa [hresult] at hfirst

@[simp] theorem still_map {x : Action α} (f : α → β) (hx : x.Still) : Still (f <$> x) :=
  still_bind hx fun a => still_pure (f a)

@[simp] theorem still_ite {c : Prop} [Decidable c] {x y : Action α} (hx : x.Still)
    (hy : y.Still) : Still (if c then x else y) := by
  split
  · exact hx
  · exact hy

@[simp] theorem still_look (f : Heap → α) : Still (World.look f) :=
  fun _ => rfl

@[simp] theorem still_fail (cause : Failure) : Still (World.fail cause : Action α) :=
  fun _ => rfl

@[simp] theorem still_failWith (cause : Heap → Failure) :
    Still (World.failWith cause : Action α) :=
  fun _ => rfl

@[simp] theorem still_stop (t : Trap) : Still (World.stop t : Action α) :=
  fun _ => rfl

@[simp] theorem still_both {x : Action α} {y : Action β} (hx : x.Still) (hy : y.Still) :
    Still (World.both x y) := by
  intro w
  have hfirst := hx w
  unfold World.both
  cases hresult : x w with
  | trap t w' => rwa [hresult] at hfirst
  | value a w' | fault e w' =>
      rw [hresult] at hfirst
      have hboth := (hy w').trans hfirst
      simp only
      cases hresult' : y w' <;> rwa [hresult'] at hboth

@[simp] theorem still_mapM {f : α → Action β} (hf : ∀ a, (f a).Still) (items : List α) :
    Still (items.mapM f) := by
  induction items with
  | nil => exact still_pure []
  | cons a items ih =>
      rw [List.mapM_cons]
      exact still_bind (hf a) fun _ => still_bind ih fun _ => still_pure _

end Action

namespace World

open Scheme.Action

@[simp] theorem still_expect {α : Type} (expected : Expected) (v : Value) (a : Option α) :
    Still (expect expected v a) := by
  cases a with
  | some a => exact still_pure a
  | none =>
      rw [expect]
      exact still_failWith _

@[simp] theorem still_flonum (v : Value) : Still (flonum v) := still_expect _ _ _
@[simp] theorem still_number (v : Value) : Still (number v) := by simp [number]
@[simp] theorem still_character (v : Value) : Still (character v) := still_expect _ _ _
@[simp] theorem still_symbol (v : Value) : Still (symbol v) := still_expect _ _ _
@[simp] theorem still_string (v : Value) : Still (string v) := still_expect _ _ _
@[simp] theorem still_vector (v : Value) : Still (vector v) := still_expect _ _ _
@[simp] theorem still_pair (v : Value) : Still (pair v) := still_expect _ _ _
@[simp] theorem still_inputPort (v : Value) : Still (inputPort v) := still_expect _ _ _
@[simp] theorem still_outputPort (v : Value) : Still (outputPort v) := still_expect _ _ _
@[simp] theorem still_index (v : Value) : Still (index v) := by simp [index]
@[simp] theorem still_textOf (v : Value) : Still (textOf v) := by simp [textOf]

@[simp] theorem heap_follow (f : Follower) (w : World) : (w.follow f).2.heap = w.heap :=
  rfl

@[simp] theorem heap_fileChanged (place : String) (w : World) :
    (w.fileChanged place).heap = w.heap := by
  have hfollowed : ∀ followers : List Follower,
      (followers.foldr (fun f (done : List Follower × World) =>
        if f.place = place then ((done.2.follow f).1 :: done.1, (done.2.follow f).2)
        else (f :: done.1, done.2)) ([], w)).2.heap = w.heap := by
    intro followers
    induction followers with
    | nil => rfl
    | cons f followers ih =>
        rw [List.foldr_cons]
        split
        · exact ih
        · exact ih
  unfold fileChanged
  split
  · exact hfollowed w.followers
  · rfl

@[simp] theorem heap_sinkChanged (sink : Sink) (w : World) : (w.sinkChanged sink).heap = w.heap := by
  cases sink with
  | file place position => exact heap_fileChanged place w
  | _ => rfl

@[simp] theorem heap_sent (ref : Ref .outputPort) (sink : Sink) (text : String) (w : World) :
    (w.sent ref sink text).heap = w.heap :=
  heap_sinkChanged _ _

@[simp] theorem heap_closeOutput (ref : Ref .outputPort) (w : World) :
    (w.closeOutput ref).heap = w.heap := by
  unfold closeOutput
  split
  · rfl
  · simp only
    split <;> rfl

@[simp] theorem still_withReader {α : Type} (ref : Ref .inputPort) (use : Reader → α × Reader) :
    Still (withReader ref use) := by
  intro w
  rw [withReader]
  split <;> rfl

@[simp] theorem still_readChar (ref : Ref .inputPort) : Still (readChar ref) := by
  simp [readChar]

@[simp] theorem still_peekChar (ref : Ref .inputPort) : Still (peekChar ref) := by
  simp [peekChar]

@[simp] theorem still_writeText (ref : Ref .outputPort) (text : String) :
    Still (writeText ref text) := by
  intro w
  rw [writeText_eq]
  split
  · rfl
  · split <;> exact heap_sent _ _ _ _

@[simp] theorem still_openInput (name : Value) : Still (openInput name) := by
  refine still_bind (still_textOf name) fun path w => ?_
  simp only
  split <;> rfl

@[simp] theorem still_openOutput (name : Value) : Still (openOutput name) := by
  refine still_bind (still_textOf name) fun path w => ?_
  simp only
  split
  · rfl
  · exact heap_sinkChanged _ _

@[simp] theorem still_spine (v : Value) : Still (spine v) := by
  intro w
  unfold spine
  split <;> rfl

@[simp] theorem still_elements (v : Value) : Still (elements v) := by
  simp [elements]

@[simp] theorem still_allocationLength (procedure : String) (v : Value) :
    Still (allocationLength procedure v) := by
  simp [allocationLength]

@[simp] theorem still_position (v : Value) (length : Nat) : Still (position v length) := by
  simp [position]

@[simp] theorem still_positionIn (container v : Value) (length : Nat) :
    Still (positionIn container v length) := by
  intro w
  cases v with
  | number n => exact still_position _ _ w
  | _ =>
      change Result.heap (if _ then _ else _) = _
      split
      · rfl
      · exact still_position _ _ w

end World

namespace Action.Obeys

variable {α β : Type} {P : Policy} {h : Heap} {Q : Heap → α → Prop} {R : Heap → β → Prop}

theorem still {x : Action α} (hx : x.Still)
    (hQ : ∀ h' a, P.leads h h' → P.good h' → Q h' a) : x.Obeys P h Q := by
  intro w hleads hgood
  have hheap := hx w
  cases hresult : x w with
  | value a w' =>
      rw [hresult] at hheap
      have hheap : w'.heap = w.heap := hheap
      exact ⟨hheap ▸ hgood, hheap ▸ P.refl _, hheap ▸ hQ w.heap a hleads hgood⟩
  | fault f w' | trap t w' =>
      rw [hresult] at hheap
      have hheap : w'.heap = w.heap := hheap
      exact ⟨hheap ▸ hgood, hheap ▸ P.refl _⟩

/-- What an action that leaves the heap alone is followed by. -/
theorem after_still {x : Action α} {f : α → Action β} (hx : x.Still)
    (hf : ∀ a, (f a).Obeys P h R) : Obeys P h (x >>= f) R :=
  bind (still (Q := fun _ _ => True) hx fun _ _ _ _ => trivial)
    fun _ a hleads _ _ => (hf a).later hleads

/-- An answer that refers to no cell, after an action that leaves the heap alone. -/
theorem atom_of {x : Action α} {f : α → Value} (hx : x.Still) (hf : ∀ a, (f a).refers = false) :
    Obeys P h (x >>= fun a => Pure.pure (f a)) P.admits :=
  after_still hx fun a => .pure fun _ _ => P.atom (hf a)

theorem after_expect {expected : Expected} {v : Value} {a : Option α} {f : α → Action β}
    (hf : ∀ b, a = some b → (f b).Obeys P h R) :
    Obeys P h (World.expect expected v a >>= f) R := by
  cases a with
  | none =>
      have hfail : Obeys P h (World.expect expected v (none : Option α)) fun _ _ => False := by
        rw [World.expect]
        exact failWith
      exact bind hfail fun _ _ _ _ hfalse => hfalse.elim
  | some b => exact hf b rfl

theorem after_vector {v : Value} {f : Ref .vector → Action β}
    (hf : ∀ ref, v = .vector ref → (f ref).Obeys P h R) :
    Obeys P h (World.vector v >>= f) R := by
  refine after_expect fun ref href => hf ref ?_
  cases v <;> cases href
  rfl

end Action.Obeys

/-! ## Direct operations -/

section Operations

open Scheme.Action

variable {P : Policy} {h : Heap} {v : Value} {vs : List Value}

theorem World.obeys_spine (hv : P.admits h v) :
    Obeys P h (World.spine v) fun h' r => (∀ x ∈ r.1, P.admits h' x) ∧ P.admits h' r.2 := by
  intro w hleads hgood
  unfold World.spine
  cases hspine : w.heap.spine? v with
  | none => exact ⟨hgood, P.refl _⟩
  | some r => exact ⟨hgood, P.refl _, Policy.admits_spine? hgood (P.mono hleads hv) hspine⟩

theorem World.obeys_elements (hv : P.admits h v) :
    Obeys P h (World.elements v) fun h' items => ∀ x ∈ items, P.admits h' x := by
  refine .bind (obeys_spine hv) fun h' r _ _ hr => ?_
  refine .ite (fun _ => .pure fun h'' hleads => ?_) fun _ => .failWith
  exact fun x hx => P.mono hleads (hr.1 x hx)

theorem World.obeys_receive (reading : Reading) : Obeys P h (World.receive reading) P.admits := by
  intro w _ hgood
  cases reading with
  | datum d => exact Policy.makes_build hgood d
  | endOfInput => exact ⟨hgood, P.refl _, P.atom rfl⟩
  | failed | cutShort => exact ⟨hgood, P.refl _⟩

namespace ListOperation

theorem obeys_appendReversed {result : Value} (hresult : P.admits h result)
    (hvs : ∀ v ∈ vs, P.admits h v) : Obeys P h (appendReversed result vs) P.admits := by
  induction vs generalizing h result with
  | nil => exact .pure fun _ hleads => P.mono hleads hresult
  | cons v vs ih =>
      obtain ⟨hv, hvs⟩ := List.forall_mem_cons.1 hvs
      refine .bind (World.obeys_spine hv) fun h₁ r hleads₁ _ hr => ?_
      refine .bind (Q := P.admits) (.alter fun h₂ hleads₂ hgood₂ => ?_)
        fun h₃ result hleads₃ _ hresult => ?_
      · refine Policy.makes_listStar hgood₂ (fun x hx => P.mono hleads₂ (hr.1 x hx)) ?_
        exact P.mono (P.trans hleads₁ hleads₂) hresult
      · exact ih hresult fun v hv => P.mono (P.trans hleads₁ hleads₃) (hvs v hv)

theorem obeys_search {test : Heap → Value → Bool} (hv : P.admits h v) :
    Obeys P h (search test v) P.admits := by
  intro w hleads hgood
  unfold search
  cases hfound : w.heap.findTail (test w.heap) w.heap.pairs.size v with
  | none => exact ⟨hgood, P.refl _⟩
  | some found => exact ⟨hgood, P.refl _, Policy.admits_findTail hgood (P.mono hleads hv) hfound⟩

theorem obeys_perform {operation : ListOperation} (hset : ∀ side, operation ≠ .set side)
    (hvs : ∀ v ∈ vs, P.admits h v) : Obeys P h (operation.perform vs) P.admits := by
  have hx := Policy.admits_getD hvs 0
  have hy := Policy.admits_getD hvs 1
  cases operation with
  | path sides => exact .look fun _ hleads hgood => Policy.admits_path hgood sides (P.mono hleads hx)
  | set side => exact absurd rfl (hset side)
  | cons => exact .alter fun _ hleads hgood => P.cons hgood (P.mono hleads hx) (P.mono hleads hy)
  | list =>
      exact .alter fun _ hleads hgood =>
        Policy.makes_list hgood fun v hv => P.mono hleads (hvs v hv)
  | listStar =>
      simp only [perform]
      cases hlast : vs.getLast? with
      | none => exact .pure fun _ _ => P.atom rfl
      | some last =>
          refine .alter fun _ hleads hgood => Policy.makes_listStar hgood ?_ ?_
          · exact fun v hv => P.mono hleads (hvs v (List.dropLast_subset _ hv))
          · exact P.mono hleads (hvs last (List.mem_of_getLast? hlast))
  | isList =>
      simp only [perform]
      exact .look fun _ _ _ => P.atom rfl
  | length =>
      refine .after_still (still_look _) fun length => ?_
      cases length with
      | some n => exact .pure fun _ _ => P.atom rfl
      | none => exact .fail
  | append =>
      simp only [perform]
      cases hreverse : vs.reverse with
      | nil => exact .pure fun _ _ => P.atom rfl
      | cons last others =>
          have hall : ∀ v ∈ last :: others, P.admits h v := by
            rw [← hreverse]
            exact fun v hv => hvs v (List.mem_reverse.1 hv)
          obtain ⟨hlast, hothers⟩ := List.forall_mem_cons.1 hall
          exact obeys_appendReversed hlast hothers
  | reverse =>
      refine .bind (World.obeys_spine hx) fun _ r _ _ hr => ?_
      refine .alter fun _ hleads hgood => Policy.makes_list hgood fun v hv => ?_
      exact P.mono hleads (hr.1 v (List.mem_reverse.1 hv))
  | tail =>
      refine .after_still (World.still_index _) fun count => ?_
      exact .look fun _ hleads hgood => Policy.admits_drop hgood count (P.mono hleads hx)
  | element =>
      refine .after_still (World.still_index _) fun count => ?_
      refine .look fun _ hleads hgood => Policy.admits_first hgood ?_
      exact Policy.admits_drop hgood count (P.mono hleads hx)
  | member sameness =>
      simp only [perform]
      exact obeys_search hy
  | association sameness =>
      refine .bind (obeys_search hy) fun _ found _ _ hfound => ?_
      refine .look fun h' hleads hgood => ?_
      have hfound := P.mono hleads hfound
      by_cases hpair : found.isPair = true
      · rw [if_pos hpair]
        exact Policy.admits_first hgood hfound
      · rw [if_neg hpair]
        exact hfound

end ListOperation

namespace NumberOperation

@[simp] theorem still_division (x y : Value) : Still (division x y) := by
  simp [division]

@[simp] theorem still_numbers (vs : List Value) : Still (numbers vs) := by
  simp [numbers]

@[simp] theorem still_radixOf (vs : List Value) : Still (radixOf vs) := by
  unfold radixOf
  split <;> simp

theorem obeys_remaining {rule : Int64 → Int64 → Int64} {x y : Value} :
    Obeys P h (remaining rule x y) P.admits := by
  refine .after_still (still_division x y) fun r => ?_
  exact .ite (fun _ => .stop) fun _ => .pure fun _ _ => P.atom rfl

theorem obeys_lcmAll {ns : List Flonum} : Obeys P h (lcmAll ns) P.admits := by
  unfold lcmAll
  split
  · exact .pure fun _ _ => P.atom rfl
  · exact .stop

theorem obeys_toTextIn {n : Float} {radix : Nat} : Obeys P h (toTextIn n radix) P.admits := by
  refine .ite (fun _ => ?_) fun _ => .ite (fun _ => ?_) fun _ => .fail
  · exact .alter fun _ _ hgood => P.addString _ hgood
  · exact .alter fun _ _ hgood => P.addString _ hgood

theorem obeys_perform {operation : NumberOperation} :
    Obeys P h (operation.perform vs) P.admits := by
  cases operation with
  | remainder | modulo => exact obeys_remaining
  | lcm => exact .after_still (still_numbers vs) fun ns => obeys_lcmAll
  | atan =>
      simp only [perform]
      split
      · refine .after_still (World.still_flonum _) fun a => ?_
        exact .atom_of (World.still_flonum _) fun _ => rfl
      · exact .atom_of (World.still_flonum _) fun _ => rfl
  | isExact => exact .pure fun _ _ => P.atom rfl
  | toText =>
      refine .after_still (still_radixOf vs) fun radix => ?_
      exact .after_still (World.still_number _) fun n => obeys_toTextIn
  | ofText =>
      refine .after_still (still_radixOf vs) fun radix => ?_
      refine .atom_of (World.still_textOf _) fun text => ?_
      simp only [ofTextIn]
      split <;> rfl
  | _ => exact .atom_of (by simp) fun _ => rfl

end NumberOperation

theorem CharacterOperation.obeys_perform {operation : CharacterOperation} :
    Obeys P h (operation.perform vs) P.admits := by
  cases operation with
  | ofCode =>
      refine .after_still (World.still_index _) fun code => ?_
      split
      · exact .pure fun _ _ => P.atom rfl
      · exact .failWith
  | _ => exact .atom_of (by simp) fun _ => rfl

namespace StringOperation

theorem obeys_ofValues : Obeys P h (ofValues vs) P.admits := by
  refine .after_still (by simp) fun chars => ?_
  exact .alter fun _ _ hgood => P.addString _ hgood

theorem obeys_perform {operation : StringOperation} (hset : operation ≠ .set)
    (hvs : ∀ v ∈ vs, P.admits h v) : Obeys P h (operation.perform vs) P.admits := by
  have hx := Policy.admits_getD hvs 0
  cases operation with
  | compare relation foldCase =>
      refine .after_still (by simp) fun r => ?_
      exact .look fun _ _ _ => P.atom rfl
  | make =>
      have hfilled : ∀ fill : Char, Obeys P h (do
          let length ← World.allocationLength "make-string" (vs.getD 0 .nil)
          World.alter (·.addString (Array.replicate length fill))) P.admits := by
        intro fill
        refine .after_still (World.still_allocationLength _ _) fun length => ?_
        exact .alter fun _ _ hgood => P.addString _ hgood
      simp only [perform]
      split
      · exact .after_still (World.still_character _) hfilled
      · exact .after_still (still_pure _) hfilled
  | ofCharacters => exact obeys_ofValues
  | length =>
      refine .after_still (World.still_string _) fun ref => ?_
      exact .look fun _ _ _ => P.atom rfl
  | get =>
      refine .after_still (World.still_string _) fun ref => ?_
      refine .after_still (still_look _) fun chars => ?_
      exact .atom_of (World.still_position _ _) fun _ => rfl
  | set => exact absurd rfl hset
  | substring =>
      refine .after_still (World.still_string _) fun ref => ?_
      refine .after_still (by simp) fun r => ?_
      refine .after_still (still_look _) fun chars => ?_
      refine .ite (fun _ => ?_) fun _ => .failWith
      exact .alter fun _ _ hgood => P.addString _ hgood
  | append =>
      simp only [perform]
      exact .alter fun _ _ hgood => P.addString _ hgood
  | toList =>
      refine .after_still (World.still_string _) fun ref => ?_
      refine .alter fun _ _ hgood => Policy.makes_list hgood fun v hv => ?_
      obtain ⟨c, -, rfl⟩ := List.mem_map.1 hv
      exact P.atom rfl
  | ofList => exact .after_still (World.still_elements _) fun items => obeys_ofValues
  | ofSymbol =>
      refine .after_still (World.still_symbol _) fun s => ?_
      exact .alter fun _ _ hgood => P.addString _ hgood
  | toSymbol => exact .atom_of (World.still_textOf _) fun _ => rfl

end StringOperation

theorem VectorOperation.obeys_perform {operation : VectorOperation} (hset : operation ≠ .set)
    (hvs : ∀ v ∈ vs, P.admits h v) : Obeys P h (operation.perform vs) P.admits := by
  have hx := Policy.admits_getD hvs 0
  have hy := Policy.admits_getD hvs 1
  cases operation with
  | make =>
      refine .after_still (World.still_allocationLength _ _) fun length => ?_
      refine .alter fun _ hleads hgood => P.addVector hgood fun v hv => ?_
      rw [(Array.mem_replicate.1 hv).2]
      exact P.mono hleads hy
  | ofElements =>
      refine .alter fun _ hleads hgood => P.addVector hgood fun v hv => ?_
      exact P.mono hleads (hvs v (List.mem_toArray.1 hv))
  | length =>
      refine .after_still (World.still_vector _) fun ref => ?_
      exact .look fun _ _ _ => P.atom rfl
  | get =>
      refine .after_vector fun ref href => ?_
      rw [href] at hx
      refine .after_still (still_look _) fun length => ?_
      refine .after_still (World.still_position _ _) fun i => ?_
      refine .look fun h' hleads hgood => ?_
      rw [Array.getD_eq_getD_getElem?]
      cases helement : (h'.vector ref)[i]? with
      | none => exact P.atom rfl
      | some v => exact P.element hgood (P.mono hleads hx) (Array.mem_of_getElem? helement)
  | set => exact absurd rfl hset
  | toList =>
      refine .after_vector fun ref href => ?_
      rw [href] at hx
      refine .alter fun _ hleads hgood => Policy.makes_list hgood fun v hv => ?_
      exact P.element hgood (P.mono hleads hx) (Array.mem_toList_iff.1 hv)
  | ofList =>
      refine .bind (World.obeys_elements hx) fun _ items _ _ hitems => ?_
      refine .alter fun _ hleads hgood => P.addVector hgood fun v hv => ?_
      exact P.mono hleads (hitems v (List.mem_toArray.1 hv))

namespace PortOperation

@[simp] theorem still_inputOf (argument : Option Value) : Still (inputOf argument) := by
  cases argument <;> simp [inputOf]

@[simp] theorem still_outputOf (argument : Option Value) : Still (outputOf argument) := by
  cases argument <;> simp [outputOf]

theorem obeys_emit {style : Style} {port : Option Value} (hv : P.admits h v) :
    Obeys P h (emit style v port) P.admits := by
  refine .after_still (still_outputOf port) fun ref => ?_
  refine .after_still (still_look _) fun text => ?_
  refine .after_still (World.still_writeText ref text) fun _ => ?_
  exact .pure fun _ hleads => P.mono hleads hv

theorem obeys_perform {operation : PortOperation} (hvs : ∀ v ∈ vs, P.admits h v) :
    Obeys P h (operation.perform vs) P.admits := by
  have hx := Policy.admits_getD hvs 0
  cases operation with
  | currentInput | currentOutput => exact .pure fun _ _ => P.atom rfl
  | openInput | openOutput => exact .atom_of (by simp) fun _ => rfl
  | closeInput =>
      refine .after_still (World.still_inputPort _) fun ref => ?_
      exact fun w _ hgood => ⟨hgood, P.refl _, P.atom rfl⟩
  | closeOutput =>
      refine .after_still (World.still_outputPort _) fun ref => ?_
      intro w _ hgood
      have hheap := World.heap_closeOutput ref w
      exact ⟨hheap ▸ hgood, hheap ▸ P.refl _, P.atom rfl⟩
  | read =>
      refine .after_still (still_inputOf _) fun ref => ?_
      exact .after_still (World.still_withReader ref _) fun reading => World.obeys_receive reading
  | readChar | peekChar =>
      refine .after_still (still_inputOf _) fun ref => ?_
      refine .atom_of (World.still_withReader ref _) fun c => ?_
      cases c <;> rfl
  | write | display => exact obeys_emit hx
  | newline =>
      refine .after_still (still_outputOf _) fun ref => ?_
      exact .atom_of (World.still_writeText ref _) fun _ => rfl

end PortOperation

namespace DirectOperation

/-- The operations that change a cell. -/
def isMutator : DirectOperation → Bool
  | .list (.set _) | .string .set | .vector .set => true
  | _ => false

theorem obeys_leave : Obeys P h (leave vs) P.admits := by
  have hexit : ∀ code : Int, Obeys P h
      (fun w => .fault (.exit code) { w with host := w.host.exit code } : Action Value) P.admits :=
    fun _ _ _ hgood => ⟨hgood, P.refl _⟩
  cases vs with
  | nil => exact .after_still (still_pure 0) hexit
  | cons x _ =>
      refine .after_still (World.still_number x) fun n => ?_
      exact .after_still (still_pure _) hexit

/-- Every operation that changes no cell keeps to the policy. -/
theorem obeys_perform {operation : DirectOperation} (hoperation : operation.isMutator = false)
    (hvs : ∀ v ∈ vs, P.admits h v) : Obeys P h (operation.perform vs) P.admits := by
  cases operation with
  | not | test => exact .pure fun _ _ => P.atom rfl
  | same =>
      simp only [perform]
      exact .look fun _ _ _ => P.atom rfl
  | error =>
      simp only [perform]
      exact .failWith
  | exit => exact obeys_leave
  | list operation =>
      refine ListOperation.obeys_perform (fun side hside => ?_) hvs
      subst hside
      cases hoperation
  | number operation => exact NumberOperation.obeys_perform
  | character operation => exact CharacterOperation.obeys_perform
  | string operation =>
      refine StringOperation.obeys_perform (fun hside => ?_) hvs
      subst hside
      cases hoperation
  | vector operation =>
      refine VectorOperation.obeys_perform (fun hside => ?_) hvs
      subst hside
      cases hoperation
  | port operation => exact PortOperation.obeys_perform hvs

end DirectOperation

end Operations

end Scheme
