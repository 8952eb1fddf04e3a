import Mathlib.Tactic.SplitIfs
import Scheme.Proofs.LineBreaks
import Scheme.Proofs.Runs
import Scheme.Proofs.Transitions
/-!
# Ports are only used up

Whatever the machine does, a port gets nothing back: reading takes from what is left of an input
port, closing takes all of it, and no port that has been closed is opened again. The exception is a
file that changes while it is read, whose port has more to read afterwards; a port is detached if no
file is read through it in this way.
-/

namespace Scheme

open Step

/-! ## Readers -/

namespace Cursor

theorem size_next (c : Cursor) : c.next.2.size ≤ c.size := by
  unfold next
  split
  · simp [size, pushedSize]
  · split <;> simp_all [size]

theorem size_peek (c : Cursor) : c.peek.2.size ≤ c.size := by
  unfold peek
  fun_cases next c <;> simp_all [size, pushBack, pushedSize, Nat.add_comm]

theorem abandoned_next (c : Cursor) : c.next.2.abandoned = c.abandoned := by
  unfold next
  split
  · rfl
  · split <;> rfl

end Cursor

namespace Reader

theorem isClosed_turn (stage : Stage) (r : Reader) : (r.turn stage).2.isClosed = r.isClosed := by
  have htoken : r.token.2.cursor.abandoned = r.cursor.abandoned := by
    unfold token
    split
    · rfl
    · exact abandoned_token r.cursor
  simp only [turn, isClosed, Cursor.isClosed, report, htoken]

/-- Reading does not close. -/
theorem isClosed_read (r : Reader) : r.read.2.isClosed = r.isClosed := by
  have hturns : ∀ {stage r r' reading}, Turns stage r reading r' → r'.isClosed = r.isClosed := by
    intro stage r r' reading h
    induction h with
    | @done stage r => exact isClosed_turn stage r
    | @more stage _ r _ _ _ _ ih => exact ih.trans (isClosed_turn stage r)
  exact hturns r.turns_read

theorem size_close (r : Reader) : r.close.size = 0 :=
  rfl

/-- The second reader has no more before it than the first, and it is closed if that is. -/
structure Drains (r r' : Reader) : Prop where
  size_le : r'.size ≤ r.size
  closed : r.isClosed = true → r'.isClosed = true

namespace Drains

theorem refl (r : Reader) : r.Drains r :=
  ⟨Nat.le_refl _, id⟩

theorem trans {r₁ r₂ r₃ : Reader} (h : r₁.Drains r₂) (h' : r₂.Drains r₃) : r₁.Drains r₃ :=
  ⟨Nat.le_trans h'.size_le h.size_le, h'.closed ∘ h.closed⟩

end Drains

theorem drains_read (r : Reader) : r.Drains r.read.2 :=
  ⟨r.turns_read.size_le, fun hclosed => (isClosed_read r).trans hclosed⟩

theorem drains_readChar (r : Reader) : r.Drains r.readChar.2 where
  size_le := Nat.add_le_add_left r.cursor.size_next _
  closed hclosed := (congrArg Option.isSome r.cursor.abandoned_next).trans hclosed

theorem drains_peekChar (r : Reader) : r.Drains r.peekChar.2 where
  size_le := Nat.add_le_add_left r.cursor.size_peek _
  closed hclosed := (congrArg Option.isSome r.cursor.abandoned_next).trans hclosed

theorem drains_close (r : Reader) : r.Drains r.close :=
  ⟨Nat.zero_le _, fun _ => rfl⟩

theorem Drains.drained {r r' : Reader} (h : r.Drains r') : r.Drains r'.drain.2 :=
  ⟨h.size_le, h.closed⟩

end Reader

/-! ## Worlds -/

namespace World

/-- The input port is there, and no file that may still change is read through it. -/
structure Detached (ref : Ref .inputPort) (w : World) : Prop where
  port : ref.index < w.inputs.size
  alone : ∀ f ∈ w.followers, f.port ≠ ref

/-- From one world to the other ports are used up: no port goes away, detached input ports stay
detached and get nothing back, and no closed output port is opened. -/
structure Drains (w w' : World) : Prop where
  input : ∀ ref, w.Detached ref → w'.Detached ref ∧ (w.reader ref).Drains (w'.reader ref)
  output : ∀ i : Nat, w.outputs[i]? = some none → w'.outputs[i]? = some none
  inputs : w.inputs.size ≤ w'.inputs.size
  outputs : w.outputs.size ≤ w'.outputs.size

namespace Drains

theorem refl (w : World) : w.Drains w :=
  ⟨fun _ hw => ⟨hw, .refl _⟩, fun _ hi => hi, Nat.le_refl _, Nat.le_refl _⟩

theorem trans {w₁ w₂ w₃ : World} (h : w₁.Drains w₂) (h' : w₂.Drains w₃) : w₁.Drains w₃ where
  input ref hw := by
    obtain ⟨hw₂, hdrained⟩ := h.input ref hw
    obtain ⟨hw₃, hdrained'⟩ := h'.input ref hw₂
    exact ⟨hw₃, hdrained.trans hdrained'⟩
  output i hi := h'.output i (h.output i hi)
  inputs := Nat.le_trans h.inputs h'.inputs
  outputs := Nat.le_trans h.outputs h'.outputs

/-- What has nothing to do with ports. -/
theorem aside {w w' : World} (hinputs : w'.inputs = w.inputs) (houtputs : w'.outputs = w.outputs)
    (hfollowers : w'.followers = w.followers) : w.Drains w' where
  input ref hw := by
    have hreader : w'.reader ref = w.reader ref := by rw [reader, reader, hinputs]
    exact ⟨⟨hinputs ▸ hw.port, hfollowers ▸ hw.alone⟩, hreader ▸ .refl _⟩
  output i hi := houtputs ▸ hi
  inputs := Nat.le_of_eq (congrArg Array.size hinputs.symm)
  outputs := Nat.le_of_eq (congrArg Array.size houtputs.symm)

/-- What has nothing to do with input ports. -/
theorem aside_output {w w' : World} (hinputs : w'.inputs = w.inputs)
    (hfollowers : w'.followers = w.followers) (hsize : w.outputs.size ≤ w'.outputs.size)
    (houtput : ∀ i : Nat, w.outputs[i]? = some none → w'.outputs[i]? = some none) :
    w.Drains w' where
  input ref hw := by
    have hreader : w'.reader ref = w.reader ref := by rw [reader, reader, hinputs]
    exact ⟨⟨hinputs ▸ hw.port, hfollowers ▸ hw.alone⟩, hreader ▸ .refl _⟩
  output := houtput
  inputs := Nat.le_of_eq (congrArg Array.size hinputs.symm)
  outputs := hsize

end Drains

end World

/-- On the way to the result ports are only used up. -/
def Result.Drains {α : Type} (w : World) : Result α → Prop
  | .value _ w' | .fault _ w' | .trap _ w' => w.Drains w'

theorem Result.Drains.trans {α : Type} {w w' : World} (h : w.Drains w') {r : Result α}
    (hr : r.Drains w') : r.Drains w := by
  cases r <;> exact World.Drains.trans h hr

namespace Action

variable {α β : Type}

/-- The action gives no port anything back. -/
def Drains (a : Action α) : Prop :=
  ∀ w, (a w).Drains w

@[simp] theorem drains_pure (a : α) : Drains (pure a : Action α) :=
  fun w => .refl w

@[simp] theorem drains_bind {x : Action α} {f : α → Action β} (hx : x.Drains)
    (hf : ∀ a, (f a).Drains) : Drains (x >>= f) := by
  intro w
  have hfirst := hx w
  change (Action.bind x f w).Drains w
  unfold Action.bind
  cases hresult : x w with
  | value a w' =>
      rw [hresult] at hfirst
      exact (hf a w').trans hfirst
  | fault f w' => rwa [hresult] at hfirst
  | trap t w' => rwa [hresult] at hfirst

@[simp] theorem drains_map {x : Action α} (f : α → β) (hx : x.Drains) : Drains (f <$> x) :=
  drains_bind hx fun a => drains_pure (f a)

@[simp] theorem drains_ite {c : Prop} [Decidable c] {x y : Action α} (hx : x.Drains)
    (hy : y.Drains) : Drains (if c then x else y) := by
  split
  · exact hx
  · exact hy

@[simp] theorem drains_look (f : Heap → α) : Drains (World.look f) :=
  fun w => .refl w

@[simp] theorem drains_alter (f : Heap → α × Heap) : Drains (World.alter f) :=
  fun _ => .aside rfl rfl rfl

@[simp] theorem drains_fail (cause : Failure) : Drains (World.fail cause : Action α) :=
  fun _ => .aside rfl rfl rfl

@[simp] theorem drains_failWith (cause : Heap → Failure) :
    Drains (World.failWith cause : Action α) :=
  fun _ => .aside rfl rfl rfl

@[simp] theorem drains_stop (t : Trap) : Drains (World.stop t : Action α) :=
  fun w => .refl w

@[simp] theorem drains_both {x : Action α} {y : Action β} (hx : x.Drains) (hy : y.Drains) :
    Drains (World.both x y) := by
  intro w
  have hfirst := hx w
  unfold World.both
  cases hresult : x w with
  | trap t w' => rwa [hresult] at hfirst
  | value a w' | fault e w' =>
      rw [hresult] at hfirst
      have hboth := (hy w').trans hfirst
      simp only
      cases hresult' : y w' <;> rwa [hresult'] at hboth

@[simp] theorem drains_mapM {f : α → Action β} (hf : ∀ a, (f a).Drains) (items : List α) :
    Drains (items.mapM f) := by
  induction items with
  | nil => exact drains_pure []
  | cons a items ih =>
      rw [List.mapM_cons]
      exact drains_bind (hf a) fun _ => drains_bind ih fun _ => drains_pure _

end Action

/-! ## Arguments -/

namespace World

@[simp] theorem drains_expect {α : Type} (expected : Expected) (v : Value) (a : Option α) :
    Action.Drains (expect expected v a) := by
  cases a with
  | some a => exact Action.drains_pure a
  | none =>
      rw [expect]
      exact Action.drains_failWith _

@[simp] theorem drains_flonum (v : Value) : Action.Drains (flonum v) := drains_expect _ _ _
@[simp] theorem drains_number (v : Value) : Action.Drains (number v) := by simp [number]
@[simp] theorem drains_character (v : Value) : Action.Drains (character v) := drains_expect _ _ _
@[simp] theorem drains_symbol (v : Value) : Action.Drains (symbol v) := drains_expect _ _ _
@[simp] theorem drains_string (v : Value) : Action.Drains (string v) := drains_expect _ _ _
@[simp] theorem drains_vector (v : Value) : Action.Drains (vector v) := drains_expect _ _ _
@[simp] theorem drains_pair (v : Value) : Action.Drains (pair v) := drains_expect _ _ _
@[simp] theorem drains_inputPort (v : Value) : Action.Drains (inputPort v) := drains_expect _ _ _
@[simp] theorem drains_outputPort (v : Value) : Action.Drains (outputPort v) := drains_expect _ _ _
@[simp] theorem drains_index (v : Value) : Action.Drains (index v) := by simp [index]
@[simp] theorem drains_textOf (v : Value) : Action.Drains (textOf v) := by simp [textOf]

end World

/-! ## Ports -/

namespace World

namespace Drains

variable {w : World}

theorem setInput {ref : Ref .inputPort} {r : Reader} (hr : (w.reader ref).Drains r) :
    w.Drains { w with inputs := w.inputs.setIfInBounds ref.index r } where
  input ref' hw := by
    refine ⟨⟨by simpa using hw.port, hw.alone⟩, ?_⟩
    by_cases href : ref.index = ref'.index
    · obtain rfl : ref = ref' := congrArg Ref.mk href
      simpa [reader, hw.port] using hr
    · simpa [reader, href] using Reader.Drains.refl _
  output _ hi := hi
  inputs := by simp
  outputs := Nat.le_refl _

theorem closeInput (ref : Ref .inputPort) (w : World) : w.Drains (w.closeInput ref) where
  input ref' hw := by
    refine ⟨⟨by simpa [World.closeInput] using hw.port, fun f hf => ?_⟩, ?_⟩
    · exact hw.alone f (List.mem_filter.1 hf).1
    · simp only [World.closeInput, reader, Array.getElem?_modify]
      split
      · simpa [hw.port] using Reader.drains_close _
      · exact .refl _
  output _ hi := hi
  inputs := by simp [World.closeInput]
  outputs := Nat.le_refl _

theorem addInput (place : String) (bytes : List UInt8) (w : World) :
    w.Drains (w.addInput place bytes).2 where
  input ref hw := by
    have hnew : ref.index ≠ w.inputs.size := Nat.ne_of_lt hw.port
    refine ⟨⟨by simpa [World.addInput] using Nat.lt_succ_of_lt hw.port, fun f hf => ?_⟩, ?_⟩
    · simp only [World.addInput] at hf
      split at hf
      · rcases List.mem_cons.1 hf with rfl | hf
        · exact fun heq => hnew (congrArg Ref.index heq).symm
        · exact hw.alone f hf
      · exact hw.alone f hf
    · simpa [World.addInput, reader, Array.getElem?_push, hnew] using Reader.Drains.refl _
  output _ hi := hi
  inputs := by simp [World.addInput]
  outputs := Nat.le_refl _

end Drains

/-- A port that follows its file leaves the others as they are. -/
theorem reader_follow {f : Follower} {ref : Ref .inputPort} (hf : f.port ≠ ref) (w : World) :
    (w.follow f).2.reader ref = w.reader ref := by
  have hindex : f.port.index ≠ ref.index := fun hindex => hf (congrArg Ref.mk hindex)
  simp only [follow, provide, reader, Array.getElem?_modify, if_neg hindex]

/-- Where files are followed, no other port changes. -/
private theorem foldr_follow_others (place : String) (followers : List Follower) (w : World) :
    let step (f : Follower) (done : List Follower × World) : List Follower × World :=
      if f.place = place then
        let (f, w) := done.2.follow f
        (f :: done.1, w)
      else (f :: done.1, done.2)
    let changed := followers.foldr step ([], w)
    changed.1.map Follower.port = followers.map Follower.port ∧
      changed.2.inputs.size = w.inputs.size ∧ changed.2.outputs = w.outputs ∧
      ∀ ref, (∀ f ∈ followers, f.port ≠ ref) → changed.2.reader ref = w.reader ref := by
  intro step
  induction followers with
  | nil => simp
  | cons f followers ih =>
      obtain ⟨hports, hsize, houtputs, hreader⟩ := ih
      simp only [List.foldr_cons, step]
      split
      · refine ⟨?_, Array.size_modify.trans hsize, houtputs, fun ref halone => ?_⟩
        · exact congrArg (f.port :: ·) hports
        · obtain ⟨hf, halone⟩ := List.forall_mem_cons.1 halone
          exact (reader_follow hf _).trans (hreader ref halone)
      · refine ⟨congrArg (f.port :: ·) hports, hsize, houtputs, fun ref halone => ?_⟩
        exact hreader ref (List.forall_mem_cons.1 halone).2

/-- A change of a file shows at no port but those that read the file. -/
theorem fileChanged_others (place : String) (w : World) :
    (w.fileChanged place).followers.map Follower.port = w.followers.map Follower.port ∧
      (w.fileChanged place).inputs.size = w.inputs.size ∧
      (w.fileChanged place).outputs = w.outputs ∧
      ∀ ref, (∀ f ∈ w.followers, f.port ≠ ref) →
        (w.fileChanged place).reader ref = w.reader ref := by
  simp only [World.fileChanged]
  split
  · exact foldr_follow_others place w.followers w
  · exact ⟨rfl, rfl, rfl, fun _ _ => rfl⟩

theorem outputs_sinkChanged (sink : Sink) (w : World) :
    (w.sinkChanged sink).outputs = w.outputs := by
  cases sink with
  | file place position => exact (w.fileChanged_others place).2.2.1
  | _ => rfl

/-- A change of a file has no effect on a detached port. -/
theorem Detached.fileChanged {ref : Ref .inputPort} {w : World} (hw : w.Detached ref)
    (place : String) :
    (w.fileChanged place).Detached ref ∧ (w.fileChanged place).reader ref = w.reader ref := by
  obtain ⟨hports, hsize, -, hreader⟩ := w.fileChanged_others place
  refine ⟨⟨hsize ▸ hw.port, fun f hf heq => ?_⟩, hreader ref hw.alone⟩
  have hmem : ref ∈ w.followers.map Follower.port :=
    hports ▸ List.mem_map.2 ⟨f, hf, heq⟩
  obtain ⟨f', hf', heq'⟩ := List.mem_map.1 hmem
  exact hw.alone f' hf' heq'

namespace Drains

theorem sinkChanged (sink : Sink) (w : World) : w.Drains (w.sinkChanged sink) := by
  cases sink with
  | file place position =>
      obtain ⟨-, hsize, houtputs, -⟩ := w.fileChanged_others place
      refine ⟨fun ref hw => ?_, fun i hi => ?_, Nat.le_of_eq hsize.symm, ?_⟩
      · obtain ⟨hdetached, hreader⟩ := hw.fileChanged place
        exact ⟨hdetached, hreader ▸ .refl _⟩
      · exact (congrArg (·[i]?) houtputs).trans hi
      · exact Nat.le_of_eq (congrArg Array.size houtputs.symm)
  | _ => exact .refl w

/-- An open output port may write somewhere else. -/
theorem setOutput {ref : Ref .outputPort} {earlier : Sink} {w : World}
    (hopen : w.sink ref = some earlier) (sink : Sink) (host : Host) :
    w.Drains { w with outputs := w.outputs.setIfInBounds ref.index (some sink), host } := by
  refine .aside_output rfl rfl (by simp) fun i hi => ?_
  have hne : ref.index ≠ i := by
    rintro rfl
    simp [World.sink, hi] at hopen
  simpa [hne] using hi

theorem sent {ref : Ref .outputPort} {earlier : Sink} {w : World}
    (hopen : w.sink ref = some earlier) (sink : Sink) (text : String) :
    w.Drains (w.sent ref sink text) :=
  (setOutput hopen _ _).trans (.sinkChanged _ _)

theorem shutOutput (ref : Ref .outputPort) (w : World) :
    w.Drains { w with outputs := w.outputs.setIfInBounds ref.index none } := by
  refine .aside_output rfl rfl (by simp) fun i hi => ?_
  rw [Array.getElem?_setIfInBounds]
  split
  · rename_i heq
    obtain ⟨hlt, -⟩ := Array.getElem?_eq_some_iff.1 hi
    simp [heq, hlt]
  · exact hi

theorem closeOutput (ref : Ref .outputPort) (w : World) : w.Drains (w.closeOutput ref) := by
  unfold World.closeOutput
  split
  · exact .refl w
  · simp only
    split
    · exact .shutOutput ref w
    · exact (shutOutput ref w).trans (.aside rfl rfl rfl)

theorem addOutput (sink : Sink) (host : Host) (w : World) :
    w.Drains { w with outputs := w.outputs.push (some sink), host } := by
  refine .aside_output rfl rfl (by simp) fun i hi => ?_
  obtain ⟨hlt, -⟩ := Array.getElem?_eq_some_iff.1 hi
  simpa [Array.getElem?_push, Nat.ne_of_lt hlt] using hi

end Drains

theorem drains_withReader {α : Type} (ref : Ref .inputPort) {use : Reader → α × Reader}
    (huse : ∀ r : Reader, r.Drains (use r).2) : Action.Drains (withReader ref use) := by
  intro w
  rw [withReader]
  split
  · exact Action.drains_fail _ w
  · have hnote : w.Drains (w.noteAll (use (w.reader ref)).2.drain.1) := .aside rfl rfl rfl
    exact hnote.trans (.setInput (huse (w.reader ref)).drained)

@[simp] theorem drains_receive (reading : Reading) : Action.Drains (receive reading) := by
  intro w
  cases reading <;> exact .aside rfl rfl rfl

@[simp] theorem drains_readDatum (ref : Ref .inputPort) : Action.Drains (readDatum ref) :=
  Action.drains_bind (drains_withReader ref Reader.drains_read) drains_receive

@[simp] theorem drains_readChar (ref : Ref .inputPort) : Action.Drains (readChar ref) :=
  Action.drains_bind (drains_withReader ref Reader.drains_readChar) fun _ => Action.drains_pure _

@[simp] theorem drains_peekChar (ref : Ref .inputPort) : Action.Drains (peekChar ref) :=
  Action.drains_bind (drains_withReader ref Reader.drains_peekChar) fun _ => Action.drains_pure _

@[simp] theorem drains_writeText (ref : Ref .outputPort) (text : String) :
    Action.Drains (writeText ref text) := by
  intro w
  rw [writeText_eq]
  split
  · exact Action.drains_fail _ w
  · rename_i sink hopen
    have hsent : w.Drains (w.sent ref sink text) := .sent hopen sink text
    split
    · exact hsent
    · exact (Action.drains_fail _ _).trans hsent

@[simp] theorem drains_openInput (name : Value) : Action.Drains (openInput name) := by
  refine Action.drains_bind (drains_textOf name) fun path w => ?_
  have hwant : w.Drains { w with host := w.host.want path } := .aside rfl rfl rfl
  simp only
  split
  · exact .aside rfl rfl rfl
  · exact hwant.trans (.addInput _ _ _)

@[simp] theorem drains_openOutput (name : Value) : Action.Drains (openOutput name) := by
  refine Action.drains_bind (drains_textOf name) fun path w => ?_
  simp only
  split
  · exact .aside rfl rfl rfl
  · rename_i sink host _
    exact (Drains.addOutput sink host w).trans (.sinkChanged sink _)

end World

/-! ## Scopes and lists -/

open Scheme.Action

namespace World

@[simp] theorem drains_lookup (name : Symbol) (ref : Ref .scope) :
    Action.Drains (lookup name ref) := by
  intro w
  unfold lookup
  split <;> exact .aside rfl rfl rfl

@[simp] theorem drains_assign (name : Symbol) (v : Value) (ref : Ref .scope) :
    Action.Drains (assign name v ref) := by
  intro w
  unfold assign
  split <;> exact .aside rfl rfl rfl

@[simp] theorem drains_parametersFrom (whole : Value) (budget : Nat) (names : List Symbol)
    (v : Value) : Action.Drains (parametersFrom whole budget names v) := by
  induction budget generalizing names v with
  | zero => cases v <;> simp [parametersFrom]
  | succ budget ih => cases v <;> simp [parametersFrom, ih]

@[simp] theorem drains_parameters (v : Value) : Action.Drains (parameters v) :=
  fun w => drains_parametersFrom v w.heap.pairs.size [] v w

theorem Drains.enter (p : Parameters) (arguments : List Value) (parent : Ref .scope) (w : World) :
    w.Drains (w.enter p arguments parent).2 := by
  simp only [World.enter]
  split <;> exact .aside rfl rfl rfl

@[simp] theorem drains_spine (v : Value) : Action.Drains (spine v) := by
  intro w
  unfold spine
  split <;> exact .refl w

@[simp] theorem drains_elements (v : Value) : Action.Drains (elements v) := by
  simp [elements]

end World

/-! ## Direct operations -/

namespace World

@[simp] theorem drains_allocationLength (procedure : String) (v : Value) :
    Action.Drains (allocationLength procedure v) := by
  simp [allocationLength]

@[simp] theorem drains_position (v : Value) (length : Nat) : Action.Drains (position v length) := by
  simp [position]

@[simp] theorem drains_positionIn (container v : Value) (length : Nat) :
    Action.Drains (positionIn container v length) := by
  intro w
  cases v with
  | number n => exact drains_position _ _ w
  | _ =>
      change Result.Drains w (if _ then _ else _)
      split
      · exact Drains.refl w
      · exact drains_position _ _ w

end World

@[simp] theorem ListOperation.drains_appendReversed (result : Value) (lists : List Value) :
    Action.Drains (appendReversed result lists) := by
  induction lists generalizing result with
  | nil => exact drains_pure result
  | cons v lists ih => simp [appendReversed, ih]

@[simp] theorem ListOperation.drains_search (test : Heap → Value → Bool) (v : Value) :
    Action.Drains (search test v) := by
  intro w
  unfold search
  split <;> exact .refl w

@[simp] theorem ListOperation.drains_perform (operation : ListOperation) (arguments : List Value) :
    Action.Drains (operation.perform arguments) := by
  cases operation with
  | listStar | append =>
      simp only [perform]
      split <;> simp
  | length =>
      refine drains_bind (drains_look _) fun length => ?_
      cases length <;> simp
  | _ => simp [perform]

@[simp] theorem NumberOperation.drains_division (x y : Value) : Action.Drains (division x y) := by
  simp [division]

@[simp] theorem NumberOperation.drains_lcmAll (ns : List Flonum) : Action.Drains (lcmAll ns) := by
  unfold lcmAll
  split <;> simp

@[simp] theorem NumberOperation.drains_radixOf (arguments : List Value) :
    Action.Drains (radixOf arguments) := by
  unfold radixOf
  split <;> simp

@[simp] theorem NumberOperation.drains_toTextIn (n : Float) (radix : Nat) :
    Action.Drains (toTextIn n radix) := by
  simp [toTextIn]

@[simp] theorem NumberOperation.drains_perform (operation : NumberOperation)
    (arguments : List Value) : Action.Drains (operation.perform arguments) := by
  cases operation with
  | atan =>
      simp only [perform]
      split <;> simp
  | _ => simp [perform, numbers, remaining]

@[simp] theorem CharacterOperation.drains_perform (operation : CharacterOperation)
    (arguments : List Value) : Action.Drains (operation.perform arguments) := by
  cases operation with
  | ofCode =>
      refine drains_bind (World.drains_index _) fun code => ?_
      split <;> simp
  | _ => simp [perform]

@[simp] theorem StringOperation.drains_ofValues (values : List Value) :
    Action.Drains (ofValues values) := by
  simp [ofValues]

@[simp] theorem StringOperation.drains_perform (operation : StringOperation)
    (arguments : List Value) : Action.Drains (operation.perform arguments) := by
  cases operation with
  | make =>
      simp only [perform]
      split <;> simp
  | get => exact drains_bind (by simp) fun _ => by simp
  | set => exact drains_bind (by simp) fun _ => drains_bind (by simp) fun _ => by simp
  | substring => exact drains_bind (by simp) fun _ => drains_bind (by simp) fun _ => by simp
  | _ => simp [perform]

@[simp] theorem VectorOperation.drains_perform (operation : VectorOperation)
    (arguments : List Value) : Action.Drains (operation.perform arguments) := by
  cases operation with
  | get | set => exact drains_bind (by simp) fun _ => by simp
  | _ => simp [perform]

namespace PortOperation

@[simp] theorem drains_inputOf (argument : Option Value) : Action.Drains (inputOf argument) := by
  cases argument <;> simp [inputOf]

@[simp] theorem drains_outputOf (argument : Option Value) : Action.Drains (outputOf argument) := by
  cases argument <;> simp [outputOf]

@[simp] theorem drains_perform (operation : PortOperation) (arguments : List Value) :
    Action.Drains (operation.perform arguments) := by
  cases operation with
  | closeInput =>
      exact drains_bind (World.drains_inputPort _) fun ref w => World.Drains.closeInput ref w
  | closeOutput =>
      exact drains_bind (World.drains_outputPort _) fun ref w => World.Drains.closeOutput ref w
  | write | display => exact drains_bind (by simp) fun _ => by simp
  | _ => simp [perform]

end PortOperation

namespace DirectOperation

@[simp] theorem drains_leave (arguments : List Value) : Action.Drains (leave arguments) := by
  have hexit : ∀ code : Int, Action.Drains
      (fun w => .fault (.exit code) { w with host := w.host.exit code } : Action Value) :=
    fun _ _ => .aside rfl rfl rfl
  cases arguments with
  | nil => exact drains_bind (drains_pure 0) hexit
  | cons x _ => exact drains_bind (by simp) fun _ => drains_bind (drains_pure _) hexit

/-- No direct operation gives a port anything back. -/
@[simp] theorem drains_perform (operation : DirectOperation) (arguments : List Value) :
    Action.Drains (operation.perform arguments) := by
  cases operation <;> simp [perform]

end DirectOperation

/-! ## Steps -/

namespace Step

/-- The step gives no port anything back. -/
def Drains (w : World) : Step → Prop
  | .next s => w.Drains s.world
  | .done _ w' => w.Drains w'

theorem Drains.trans {w w' : World} (h : w.Drains w') {step : Step} (hstep : step.Drains w') :
    step.Drains w := by
  cases step <;> exact World.Drains.trans h hstep

variable (stack : List Pending) (w : World)

theorem drains_after {α : Type} {action : Action α} (haction : action.Drains)
    {use : α → World → Step} (huse : ∀ a w', (use a w').Drains w') :
    (after action stack w use).Drains w := by
  have hfirst := haction w
  unfold after
  cases hresult : action w with
  | value a w' =>
      rw [hresult] at hfirst
      exact (huse a w').trans hfirst
  | fault f w' => rwa [hresult] at hfirst
  | trap t w' => rwa [hresult] at hfirst

theorem drains_answer {action : Action Value} (haction : action.Drains) :
    (answer action stack w).Drains w :=
  drains_after stack w haction fun _ w' => .refl w'

variable (scope : Ref .scope)

theorem drains_sequence (body : Value) : (sequence body scope stack w).Drains w := by
  simp only [sequence]
  split <;> exact .refl w

theorem drains_chosen (clause result : Value) : (chosen clause result scope stack w).Drains w := by
  simp only [chosen]
  split_ifs <;> exact .aside rfl rfl rfl

theorem drains_clauses (all : Value) : (clauses all scope stack w).Drains w := by
  cases all with
  | pair ref =>
      simp only [clauses]
      split
      · exact drains_chosen stack w scope _ _
      · exact .refl w
  | _ => exact .refl w

theorem drains_abstraction (parameters body : Value) :
    (abstraction parameters body scope).Drains := by
  simp [abstraction]

theorem drains_special (form : SpecialForm) (operands : Value) :
    (special form operands scope stack w).Drains w := by
  cases form with
  | sequence => exact drains_sequence stack w scope operands
  | clauses => exact drains_clauses stack w scope operands
  | definition =>
      simp only [special]
      split
      · exact drains_after stack w (World.drains_symbol _) fun _ w' =>
          drains_after stack w' (drains_abstraction scope _ _) fun _ _ => .aside rfl rfl rfl
      · exact drains_after stack w (World.drains_symbol _) fun _ w' => .refl w'
  | assignment => exact drains_after stack w (World.drains_symbol _) fun _ w' => .refl w'
  | abstraction | transformer =>
      exact drains_after stack w (drains_abstraction scope _ _) fun _ w' => .refl w'
  | quotation | branch => exact .refl w

theorem drains_reduce (x : Value) : (reduce x scope stack w).Drains w := by
  fun_cases reduce x scope stack w with
  | case1 name => exact drains_answer stack w (World.drains_lookup name scope)
  | case2 => exact drains_special stack w scope _ _
  | _ => exact .refl w

theorem drains_eval (x : Value) : (Step.eval x scope stack w).Drains w := by
  unfold Step.eval
  split
  · exact .aside rfl rfl rfl
  · exact drains_answer stack w (drains_fail _)

theorem drains_operands (procedure : Value) (evaluated : List Value) (rest all : Value) :
    (operands procedure evaluated rest all scope stack w).Drains w := by
  cases rest with
  | nil =>
      cases procedure with
      | closure ref => exact World.Drains.enter _ _ _ w
      | _ => exact .refl w
  | pair ref => exact .refl w
  | _ => exact drains_answer stack w (drains_failWith _)

theorem drains_expand (site : Ref .pair) (transformer : Ref .closure) (operands : Value)
    (scope : Option (Ref .scope)) : (expand site transformer operands scope stack w).Drains w :=
  drains_after stack w (World.drains_elements operands) fun _ w' => World.Drains.enter _ _ _ w'

theorem drains_replace (site : Ref .pair) (transformer : Ref .closure)
    (scope : Option (Ref .scope)) (v : Value) :
    (replace site transformer scope v stack w).Drains w := by
  have hreplacement : ∀ w : World, w.Drains { (replacement v w).2 with
      heap := (replacement v w).2.heap.setPair site (replacement v w).1 } := by
    intro w
    cases v <;> exact .aside rfl rfl rfl
  have htraced : w.Drains (if w.tracing then
      w.note (.expanded (w.heap.closure transformer).name (w.heap.written v)) else w) := by
    split <;> exact .aside rfl rfl rfl
  cases scope <;> exact htraced.trans (hreplacement _)

theorem drains_mapping (procedure : Value) (lists results : List Value) (collect : Bool) :
    (mapping procedure lists results collect stack w).Drains w := by
  simp only [mapping]
  split
  · exact .refl w
  · exact drains_answer stack w (drains_alter _)

theorem drains_timed (result : Value) (memory clock : Nat) :
    (timed result memory clock).Drains := by
  refine drains_bind (fun _ => .aside rfl rfl rfl) fun stop => ?_
  refine drains_bind (fun _ => .aside rfl rfl rfl) fun top => ?_
  refine drains_bind (by simp [measure]) fun _ => drains_bind (by simp [measure]) fun _ => by simp

theorem drains_timing (thunk : Value) (calls memory clock : Nat) (result : Value) :
    (timing thunk calls memory clock result stack w).Drains w := by
  cases calls with
  | zero => exact drains_answer stack w (drains_timed result memory clock)
  | succ calls => exact .refl w

theorem drains_load (path : String) : (load path stack w).Drains w := by
  simp only [load]
  split
  · have hwant : w.Drains { w with host := w.host.want path } := .aside rfl rfl rfl
    exact (drains_answer stack _ (drains_fail _)).trans hwant
  · have hwant : w.Drains (({ w with host := w.host.want path } : World).note (.loading path)) :=
      .aside rfl rfl rfl
    exact hwant.trans (.addInput _ _ _)

theorem drains_expandOnce (x : Value) : (expandOnce x stack w).Drains w := by
  unfold expandOnce
  split <;> exact .refl w

theorem drains_control (operation : ControlOperation) (arguments : List Value) :
    (control operation arguments stack w).Drains w := by
  cases operation with
  | apply => exact drains_after stack w (World.drains_elements _) fun _ w' => .refl w'
  | map | forEach => exact drains_mapping stack w _ _ _ _
  | callWithContinuation => exact .aside rfl rfl rfl
  | force =>
      simp only [control]
      split <;> exact .refl w
  | eval => exact .refl w
  | expand => exact drains_expandOnce stack w _
  | timeCall =>
      refine drains_after stack w (by simp) fun calls w' => ?_
      have hread : w'.Drains { w' with host := (w'.host.readMemory.2.readClock).2 } :=
        .aside rfl rfl rfl
      exact (drains_timing stack _ _ _ _ _ _).trans hread
  | callWithInput => exact drains_after stack w (World.drains_openInput _) fun _ w' => .refl w'
  | callWithOutput => exact drains_after stack w (World.drains_openOutput _) fun _ w' => .refl w'
  | load =>
      exact drains_after stack w (World.drains_textOf _) fun path w' => drains_load stack w' path

theorem drains_checkCount (p : Primitive) (arguments : List Value) :
    (checkCount p arguments).Drains := by
  unfold checkCount
  cases p.most <;> simp

theorem drains_throw (k : Ref .continuation) (v : Value) : (throw k v).Drains := by
  intro w
  simp only [throw]
  split <;> exact .aside rfl rfl rfl

theorem drains_apply (procedure : Value) (arguments : List Value) :
    (apply procedure arguments stack w).Drains w := by
  cases procedure with
  | primitive p =>
      refine drains_after stack w (drains_checkCount p arguments) fun _ w' => ?_
      split
      · exact drains_answer stack w' (DirectOperation.drains_perform _ arguments)
      · exact drains_control stack w' _ arguments
  | closure ref | transformer ref => exact World.Drains.enter _ _ _ w
  | continuation k => exact drains_answer stack w (drains_throw k _)
  | _ => exact drains_answer stack w (drains_failWith _)

theorem drains_advance (program : Program) (last : Value) :
    (advance program last stack w).Drains w := by
  have hread : w.Drains (readProgram program w).2.2 := by
    cases program with
    | text reader => exact .aside rfl rfl rfl
    | file port =>
        have hnote : w.Drains (w.noteAll (w.reader port).read.2.drain.1) := .aside rfl rfl rfl
        exact hnote.trans (.setInput (w.reader port).drains_read.drained)
  rw [advance_eq]
  refine Drains.trans hread ?_
  unfold proceed
  split <;> exact .aside rfl rfl rfl

theorem drains_printAndPrompt (text : String) : (printAndPrompt text stack w).Drains w :=
  drains_after stack w (World.drains_writeText _ text) fun _ w' => .refl w'

theorem drains_prompt : (Step.prompt stack w).Drains w := by
  refine drains_after stack w (World.drains_writeText _ _) fun _ w₁ => ?_
  have hread := World.drains_readDatum .standardInput w₁
  split
  all_goals
    rename_i hresult
    rw [hresult] at hread
  · exact hread
  · exact hread
  · exact hread
  · exact (drains_printAndPrompt stack _ _).trans hread
  · exact hread

theorem drains_printValue (v : Value) : (printValue v stack w).Drains w :=
  drains_after stack w (World.drains_writeText _ _) fun _ w' => drains_printAndPrompt stack w' _

theorem drains_resume (v : Value) : (Step.resume v stack w).Drains w := by
  cases stack with
  | nil => exact .refl w
  | cons p stack =>
      cases p with
      | operator site rest scope =>
          cases v with
          | transformer ref => exact drains_expand stack w site ref rest (some scope)
          | _ => exact drains_operands stack w scope _ [] rest rest
      | operand procedure evaluated rest all scope =>
          exact drains_operands stack w scope procedure (v :: evaluated) rest all
      | expansion site transformer scope => exact drains_replace stack w site transformer scope v
      | sequence body scope => exact drains_sequence stack w scope _
      | assignment name scope => exact drains_answer stack w (World.drains_assign name v scope)
      | clause clause others scope =>
          simp only [Step.resume]
          split
          · exact drains_chosen stack w scope clause v
          · exact drains_clauses stack w scope others
      | mapping procedure lists results collect => exact drains_mapping stack w procedure lists _ _
      | timing thunk calls memory clock => exact drains_timing stack w thunk calls memory clock v
      | closingInput port | loaded port => exact .closeInput port w
      | closingOutput port => exact World.Drains.closeOutput port w
      | expandingHead x =>
          cases v with
          | transformer ref =>
              cases x with
              | pair site => exact drains_expand stack w site ref _ none
              | _ => exact .refl w
          | _ => exact .refl w
      | answer => exact drains_printValue stack w v
      | _ => exact .aside rfl rfl rfl

theorem drains_unwind (f : Fault) : (Step.unwind f stack w).Drains w := by
  cases stack with
  | nil => exact .refl w
  | cons p stack =>
      cases p with
      | catching k =>
          cases f with
          | escape token =>
              simp only [Step.unwind]
              split <;> exact .aside rfl rfl rfl
          | _ => exact .aside rfl rfl rfl
      | closingInput port | loaded port => exact .closeInput port w
      | closingOutput port => exact World.Drains.closeOutput port w
      | answer =>
          cases f with
          | exit code => exact .refl w
          | _ => exact drains_printAndPrompt stack w _
      | _ => exact .aside rfl rfl rfl

end Step

/-- No step gives a port anything back. -/
theorem State.drains_step (s : State) : s.step.Drains s.world := by
  obtain ⟨control, stack, w⟩ := s
  cases control with
  | eval x scope => exact drains_eval stack w scope x
  | reduce x scope => exact drains_reduce stack w scope x
  | apply procedure arguments => exact drains_apply stack w procedure arguments
  | resume v => exact drains_resume stack w v
  | unwind f => exact drains_unwind stack w f
  | advance program last => exact drains_advance stack w program last
  | prompt => exact drains_prompt stack w

/-- Nor does any number of steps. -/
theorem Step.Drains.steps {w : World} {step : Step} (h : step.Drains w) (n : Nat) :
    (step.steps n).Drains w := by
  induction n with
  | zero => exact h
  | succ n ih =>
      rw [steps_succ']
      cases hn : step.steps n with
      | next s =>
          rw [hn] at ih
          exact s.drains_step.trans ih
      | done outcome w' => rwa [hn] at ih

theorem Step.Ends.drains {s : State} {outcome : Outcome} {w : World}
    (h : (Step.next s).Ends outcome w) : s.world.Drains w := by
  obtain ⟨n, hn⟩ := h
  have hstart : (Step.next s).Drains s.world := .refl s.world
  have hsteps := hstart.steps n
  rwa [hn] at hsteps

theorem Step.drains_steps (step : Step) (n : Nat) :
    step.outcome.2.Drains (step.steps n).outcome.2 := by
  have hstart : step.Drains step.outcome.2 := by cases step <;> exact .refl _
  have hsteps := hstart.steps n
  cases hn : step.steps n with
  | next s | done outcome w' => rwa [hn] at hsteps

/-! ## Requests -/

namespace Request

theorem drains_start (request : Request) (w : World) : (request.start w).Drains w := by
  cases request with
  | load path => exact drains_load [] w path
  | expandOnce x => exact drains_expandOnce [] w x
  | _ => exact .refl w

/-- Nor does anything that an interpreter is asked. -/
theorem drains_answer (request : Request) (w : World) : w.Drains (request.answer w).2 := by
  rw [request.answer_eq]
  generalize stepBound = bound
  have hsteps := (request.drains_start w).steps bound
  cases hend : (request.start w).steps bound with
  | next s | done outcome w' => rwa [hend] at hsteps

end Request

end Scheme
