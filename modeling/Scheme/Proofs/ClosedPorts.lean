import Scheme.Proofs.Composition
import Scheme.Proofs.DrainedPorts
import Scheme.Proofs.InPlaceExpansion
/-!
# Closed ports

A port is closed for good: nothing is left of what an input port had before it, nothing is added to
it any more, and whatever reads from the port or writes to it fails and changes nothing. A procedure
that is called with a port on a file has the port for the time of the call only. The work that
closes it is pending below the call and nothing gets past it, neither a value nor a fault.
-/

namespace Scheme

open Step

/-- One step more, which leaves what waits below. -/
theorem Step.Comes.next {step : Step} {s s' : State} (h : step.Comes s) (hnext : s.step = .next s')
    (hbelow : s'.stack <:+ s.stack) : step.Comes s' := by
  obtain ⟨n, hn, habove⟩ := h
  have hn' : step.steps (n + 1) = .next s' := by
    rw [steps_succ', hn]
    exact hnext
  refine ⟨n + 1, hn', fun i hi => ?_⟩
  rcases Nat.lt_or_eq_of_le hi with hlt | rfl
  · obtain ⟨s₁, hs₁, hsuffix⟩ := habove i (Nat.le_of_lt_succ hlt)
    exact ⟨s₁, hs₁, hbelow.trans hsuffix⟩
  · exact ⟨s', hn', List.suffix_refl _⟩

/-- A port of either kind. -/
inductive Port where
  | input (ref : Ref .inputPort)
  | output (ref : Ref .outputPort)

namespace Port

def value : Port → Value
  | input ref => .inputPort ref
  | output ref => .outputPort ref

/-- The work that closes the port. -/
def closing : Port → Pending
  | input ref => .closingInput ref
  | output ref => .closingOutput ref

/-- The operation that closes the port. -/
def closer : Port → PortOperation
  | input _ => .closeInput
  | output _ => .closeOutput

def close : Port → World → World
  | input ref => World.closeInput ref
  | output ref => World.closeOutput ref

/-- Why the port cannot be used once it is closed. -/
def refusal : Port → Failure
  | input _ => .inputClosed
  | output _ => .outputClosed

def IsIn (w : World) : Port → Prop
  | input ref => ref.index < w.inputs.size
  | output ref => ref.index < w.outputs.size

def IsOpen (w : World) : Port → Prop
  | input ref => ref.index < w.inputs.size ∧ (w.reader ref).isClosed = false
  | output ref => ∃ sink, w.sink ref = some sink

/-- The port is closed, and nothing is left before it. -/
def IsShut (w : World) : Port → Prop
  | input ref => w.Detached ref ∧ (w.reader ref).isClosed = true ∧ (w.reader ref).size = 0
  | output ref => w.outputs[ref.index]? = some none

variable {port : Port} {w w' : World}

theorem IsOpen.isIn (h : port.IsOpen w) : port.IsIn w := by
  cases port with
  | input ref => exact h.1
  | output ref =>
      obtain ⟨sink, hsink⟩ := h
      by_contra hle
      simp [World.sink, Array.getElem?_eq_none (Nat.le_of_not_lt hle)] at hsink

theorem isShut_close (h : port.IsIn w) : port.IsShut (port.close w) := by
  cases port with
  | input ref =>
      have hlt : ref.index < w.inputs.size := h
      have hreader : (w.closeInput ref).reader ref = (w.reader ref).close := by
        simp [World.reader, World.closeInput, hlt, Array.getElem_modify]
      refine ⟨⟨?_, fun f hf => ?_⟩, ?_, ?_⟩
      · exact Nat.lt_of_lt_of_eq hlt Array.size_modify.symm
      · simpa using (List.mem_filter.1 hf).2
      · exact (congrArg Reader.isClosed hreader).trans rfl
      · exact (congrArg Reader.size hreader).trans (Reader.size_close _)
  | output ref =>
      have hlt : ref.index < w.outputs.size := h
      change (w.closeOutput ref).outputs[ref.index]? = some none
      unfold World.closeOutput
      split
      · rename_i hsink
        simpa [World.sink, hlt] using hsink
      · simp only
        split <;> simp [World.note, hlt]

theorem IsIn.later (h : port.IsIn w) (hdrains : w.Drains w') : port.IsIn w' := by
  cases port with
  | input ref => exact Nat.lt_of_lt_of_le h hdrains.inputs
  | output ref => exact Nat.lt_of_lt_of_le h hdrains.outputs

theorem IsShut.later (h : port.IsShut w) (hdrains : w.Drains w') : port.IsShut w' := by
  cases port with
  | input ref =>
      obtain ⟨hdetached, hclosed, hsize⟩ := h
      obtain ⟨hdetached', hspent⟩ := hdrains.input ref hdetached
      exact ⟨hdetached', hspent.closed hclosed, Nat.eq_zero_of_le_zero (hsize ▸ hspent.size_le)⟩
  | output ref => exact hdrains.output ref.index h

theorem IsIn.isShut_steps (h : port.IsIn w) (control : Control) (stack : List Pending) (n : Nat) :
    port.IsShut ((go control stack (port.close w)).steps n).outcome.2 :=
  (isShut_close h).later (drains_steps (go control stack (port.close w)) n)

theorem step_resume_closing (port : Port) (v : Value) (stack : List Pending) (w : World) :
    State.step ⟨.resume v, port.closing :: stack, w⟩ = go (.resume v) stack (port.close w) := by
  cases port <;> rfl

theorem step_unwind_closing (port : Port) (f : Fault) (stack : List Pending) (w : World) :
    State.step ⟨.unwind f, port.closing :: stack, w⟩ = go (.unwind f) stack (port.close w) := by
  cases port <;> rfl

end Port

/-! ## What is done with a port -/

/-- The operation on the arguments reads from the port or writes to it. Where no port is given it
is the current one. -/
inductive PortOperation.Uses : PortOperation → List Value → Port → Prop where
  | reading {operation : PortOperation} (h : operation ∈ [.read, .readChar, .peekChar])
      (given : Option (Ref .inputPort)) :
      Uses operation (given.map .inputPort).toList (.input (given.getD .standardInput))
  | writing {operation : PortOperation} (h : operation ∈ [.write, .display]) (v : Value)
      (given : Option (Ref .outputPort)) :
      Uses operation (v :: (given.map .outputPort).toList) (.output (given.getD .standardOutput))
  | ending (given : Option (Ref .outputPort)) :
      Uses .newline (given.map .outputPort).toList (.output (given.getD .standardOutput))

/-- The operation opens the port on the file of that name, for a call. -/
inductive ControlOperation.Lends (name : Value) (w : World) :
    ControlOperation → Port → World → Prop where
  | input {ref : Ref .inputPort} {w' : World} (h : World.openInput name w = .value ref w') :
      Lends name w .callWithInput (.input ref) w'
  | output {ref : Ref .outputPort} {w' : World} (h : World.openOutput name w = .value ref w') :
      Lends name w .callWithOutput (.output ref) w'

/-- How many arguments the primitives may have that use, close or lend a port. -/
theorem Primitive.takes_for_port : ∀ p ∈ table,
    (∀ operation ∈ [.read, .readChar, .peekChar, .newline],
      p.operation = .direct (.port operation) → p.takes 0 = true ∧ p.takes 1 = true) ∧
    (∀ operation ∈ [.write, .display],
      p.operation = .direct (.port operation) → p.takes 1 = true ∧ p.takes 2 = true) ∧
    (∀ operation ∈ [.closeInput, .closeOutput],
      p.operation = .direct (.port operation) → p.takes 1 = true) ∧
    ∀ operation ∈ [.callWithInput, .callWithOutput],
      p.operation = .control operation → p.takes 2 = true := by
  decide +kernel

namespace World

variable {w : World}

/-- What begins with reading from a closed port goes no further. -/
theorem withReader_of_closed {α β : Type} {ref : Ref .inputPort}
    (h : (w.reader ref).isClosed = true) (use : Reader → α × Reader) (f : α → Action β) :
    (withReader ref use >>= f) w =
      .fault (.failed .inputClosed) (w.note (.failure .inputClosed)) := by
  have hread : withReader ref use w =
      .fault (.failed .inputClosed) (w.note (.failure .inputClosed)) := by
    rw [withReader]
    simp only [h, if_true]
    rfl
  change Action.bind (withReader ref use) f w = _
  rw [Action.bind, hread]

/-- What begins with writing to a closed port goes no further. -/
theorem writeText_of_closed {β : Type} {ref : Ref .outputPort} (h : w.sink ref = none)
    (text : String) (f : Unit → Action β) :
    (writeText ref text >>= f) w =
      .fault (.failed .outputClosed) (w.note (.failure .outputClosed)) := by
  have hwrite : writeText ref text w =
      .fault (.failed .outputClosed) (w.note (.failure .outputClosed)) := by
    rw [writeText_eq, h]
    rfl
  change Action.bind (writeText ref text) f w = _
  rw [Action.bind, hwrite]

end World

namespace PortOperation.Uses

variable {operation : PortOperation} {arguments : List Value} {port : Port}

/-- Operations that read begin with the reader of the port. -/
theorem perform_reading (hreads : operation ∈ [.read, .readChar, .peekChar])
    (given : Option (Ref .inputPort)) :
    ∃ (α : Type) (use : Reader → α × Reader) (f : α → Action Value),
      operation.perform (given.map .inputPort).toList =
        World.withReader (given.getD .standardInput) use >>= f := by
  simp only [List.mem_cons, List.not_mem_nil, or_false] at hreads
  rcases hreads with rfl | rfl | rfl
  · exact ⟨_, Reader.read, World.receive, by cases given <;> rfl⟩
  · exact ⟨_, Reader.readChar, fun c => pure (World.characterValue c), by cases given <;> rfl⟩
  · exact ⟨_, Reader.peekChar, fun c => pure (World.characterValue c), by cases given <;> rfl⟩

/-- Operations that write a value begin with its text. -/
theorem perform_writing (hwrites : operation ∈ [.write, .display]) (v : Value)
    (given : Option (Ref .outputPort)) (w : World) :
    ∃ text, operation.perform (v :: (given.map .outputPort).toList) w =
      (World.writeText (given.getD .standardOutput) text >>= fun _ => pure v : Action Value) w := by
  simp only [List.mem_cons, List.not_mem_nil, or_false] at hwrites
  rcases hwrites with rfl | rfl
  · exact ⟨w.heap.text .written v, by cases given <;> rfl⟩
  · exact ⟨w.heap.text .displayed v, by cases given <;> rfl⟩

/-- What uses a port that has been closed fails and changes nothing. -/
theorem perform_eq (huses : operation.Uses arguments port) {w : World} (hshut : port.IsShut w) :
    operation.perform arguments w =
      .fault (.failed port.refusal) (w.note (.failure port.refusal)) := by
  cases huses with
  | reading hreads given =>
      obtain ⟨α, use, f, hperform⟩ := perform_reading hreads given
      rw [hperform]
      exact World.withReader_of_closed hshut.2.1 use f
  | writing hwrites v given =>
      obtain ⟨text, hperform⟩ := perform_writing hwrites v given w
      rw [hperform]
      exact World.writeText_of_closed (congrArg Option.join hshut) text _
  | ending given =>
      have hperform : perform .newline (given.map Value.outputPort).toList =
          World.writeText (given.getD .standardOutput) "\n" >>=
            fun _ => pure (.boolean true) := by
        cases given <;> rfl
      rw [hperform]
      exact World.writeText_of_closed (congrArg Option.join hshut) "\n" _

/-- All primitives for the operation may have so many arguments. -/
theorem takes (huses : operation.Uses arguments port) {p : Primitive} (hp : p ∈ Primitive.table)
    (hoperation : p.operation = .direct (.port operation)) :
    p.takes arguments.length = true := by
  obtain ⟨hreads, hwrites, -⟩ := Primitive.takes_for_port p hp
  cases huses with
  | reading h given =>
      have hmem : operation ∈ [.read, .readChar, .peekChar, .newline] := List.mem_append_left [_] h
      have htakes := hreads operation hmem hoperation
      cases given
      · exact htakes.1
      · exact htakes.2
  | writing h v given =>
      have htakes := hwrites operation h hoperation
      cases given
      · exact htakes.1
      · exact htakes.2
  | ending given =>
      have htakes := hreads .newline (by decide) hoperation
      cases given
      · exact htakes.1
      · exact htakes.2

end PortOperation.Uses

/-- What uses the port fails, whatever waits for it, and leaves nothing but an entry in the log. -/
def Port.Refuses (port : Port) (w : World) : Prop :=
  ∀ p ∈ Primitive.table, ∀ (operation : PortOperation) (arguments : List Value),
    p.operation = .direct (.port operation) → operation.Uses arguments port →
    ∀ stack, State.step ⟨.apply (.primitive p) arguments, stack, w⟩ =
      go (.unwind (.failed port.refusal)) stack (w.note (.failure port.refusal))

theorem Port.IsShut.refuses {port : Port} {w : World} (h : port.IsShut w) : port.Refuses w := by
  intro p hp operation arguments hoperation huses stack
  have hcount := Primitive.checkCount_eq (huses.takes hp hoperation) w
  have hperform : (DirectOperation.port operation).perform arguments w =
      .fault (.failed port.refusal) (w.note (.failure port.refusal)) := huses.perform_eq h
  change apply (.primitive p) arguments stack w = _
  simp only [apply, after, hcount, hoperation, answer, hperform]

/-! ## Later worlds -/

/-- The worlds that an interpreter comes to: those of the states on the way of a run, those that
requests leave, and what a program makes of them in between, which touches no port but that it may
supply standard input, as long as that is open, with more to read. -/
inductive World.Later (w : World) : World → Prop where
  | now : w.Later w
  | run {step : Step} (h : w.Later step.outcome.2) (n : Nat) : w.Later (step.steps n).outcome.2
  | answer {w' : World} (h : w.Later w') (request : Request) : w.Later (request.answer w').2
  | change {w₁ w₂ : World} (h : w.Later w₁) (hinputs : w₂.inputs = w₁.inputs)
      (houtputs : w₂.outputs = w₁.outputs) (hfollowers : w₂.followers = w₁.followers) : w.Later w₂
  | supply {w' : World} (h : w.Later w') (hopen : (w'.reader .standardInput).isClosed = false)
      (events : List Event) : w.Later (w'.provide .standardInput events)

namespace Port.IsShut

variable {port : Port} {w w' : World}

theorem provide (h : port.IsShut w) (hopen : (w.reader .standardInput).isClosed = false)
    (events : List Event) : port.IsShut (w.provide .standardInput events) := by
  cases port with
  | input ref =>
      obtain ⟨⟨hlt, halone⟩, hclosed, hsize⟩ := h
      have hne : (0 : Nat) ≠ ref.index := by
        intro hindex
        obtain rfl : Ref.standardInput = ref := congrArg Ref.mk hindex
        simp [hclosed] at hopen
      have hreader : (w.provide .standardInput events).reader ref = w.reader ref := by
        simp [World.provide, World.reader, Ref.standardInput, Array.getElem?_modify, hne]
      exact ⟨⟨Nat.lt_of_lt_of_eq hlt Array.size_modify.symm, halone⟩, hreader ▸ hclosed,
        hreader ▸ hsize⟩
  | output ref => exact h

/-- A port that is closed stays closed. -/
theorem forever (h : port.IsShut w) (hlater : w.Later w') : port.IsShut w' := by
  induction hlater with
  | now => exact h
  | run _ n ih => exact ih.later (drains_steps _ n)
  | answer _ request ih => exact ih.later (request.drains_answer _)
  | change _ hinputs houtputs hfollowers ih => exact ih.later (.aside hinputs houtputs hfollowers)
  | supply _ hopen events ih => exact ih.provide hopen events

end Port.IsShut

/-! ## Lent ports -/

namespace ControlOperation.Lends

variable {operation : ControlOperation} {name callback : Value} {port : Port} {w w' : World}

/-- A port that is lent is open. -/
theorem isOpen (h : operation.Lends name w port w') : port.IsOpen w' := by
  cases h with
  | input hopen =>
      obtain ⟨path, w₀, -, hopen⟩ := Action.bind_eq_value.1 hopen
      simp only at hopen
      split at hopen
      · cases hopen
      · cases hopen
        exact ⟨by simp [World.addInput], by simp [World.addInput, World.reader]; rfl⟩
  | output hopen =>
      obtain ⟨path, w₀, -, hopen⟩ := Action.bind_eq_value.1 hopen
      simp only at hopen
      split at hopen
      · cases hopen
      · rename_i sink host _
        cases hopen
        refine ⟨sink, ?_⟩
        simp [World.sink, World.outputs_sinkChanged]

/-- The procedure is called above the work that closes the port. -/
theorem step_apply (h : operation.Lends name w port w') {p : Primitive}
    (hp : p ∈ Primitive.table) (hoperation : p.operation = .control operation)
    (callback : Value) (stack : List Pending) :
    State.step ⟨.apply (.primitive p) [name, callback], stack, w⟩ =
      go (.apply callback [port.value]) (port.closing :: stack) w' := by
  obtain ⟨-, -, -, htakes⟩ := Primitive.takes_for_port p hp
  have hcount : checkCount p [name, callback] w = .value () w := by
    refine Primitive.checkCount_eq (htakes operation ?_ hoperation) w
    cases h <;> simp
  change Step.apply (.primitive p) [name, callback] stack w = _
  cases h with
  | input hopen =>
      simp only [Step.apply, Step.control, after, hcount, hoperation, List.getD_cons_zero, hopen]
      rfl
  | output hopen =>
      simp only [Step.apply, Step.control, after, hcount, hoperation, List.getD_cons_zero, hopen]
      rfl

end ControlOperation.Lends

namespace Port

variable {port : Port} {control : Control} {stack : List Pending} {w : World}

/-- In every state of the run the work that closes the port is still pending above the stack, or
the port is closed. Only a trap stops the run before. -/
def ClosesBefore (port : Port) (stack : List Pending) (run : Step) : Prop :=
  ∀ n, (∃ s, run.steps n = .next s ∧ (port.closing :: stack) <:+ s.stack) ∨
    (∃ outcome w, run.steps n = .done outcome w ∧ outcome.isTrap = true) ∨
    port.IsShut (run.steps n).outcome.2

theorem closesBefore (h : port.IsIn w) (control : Control) (stack : List Pending) :
    port.ClosesBefore stack (go control (port.closing :: stack) w) := by
  intro n
  cases hrun : (go control [] w).steps n with
  | next s =>
      exact Or.inl ⟨_, steps_onto hrun (port.closing :: stack), List.suffix_append s.stack _⟩
  | done outcome w₁ =>
      rcases exists_last hrun with hstart | ⟨m, s, hs, hdone⟩
      · cases hstart
      -- the run without the work below is over after one more step
      have hlt : m < n := by
        by_contra hle
        rw [steps_eq_done_of_le (Nat.le_of_not_lt hle) hrun] at hs
        cases hs
      obtain ⟨k, rfl⟩ := Nat.exists_eq_add_of_lt hlt
      have habove := steps_onto hs (port.closing :: stack)
      have hthere : port.IsIn s.world := by
        have hdrains := drains_steps (go control [] w) m
        rw [hs] at hdrains
        exact h.later hdrains
      have hmoment : (go control (port.closing :: stack) w).steps (m + k + 1) =
          steps k (State.step { s with stack := s.stack ++ port.closing :: stack }) := by
        have hlast : (go control (port.closing :: stack) w).steps (m + 1) =
            State.step { s with stack := s.stack ++ port.closing :: stack } := by
          rw [steps_succ']
          exact congrArg advanced habove
        rw [Nat.add_right_comm, steps_add, hlast]
      rcases State.done_cases hdone with htrap | ⟨v, -, rfl⟩ | ⟨f, -, rfl⟩
      · rw [State.step_onto_trap hdone htrap, steps_done] at hmoment
        exact Or.inr (Or.inl ⟨outcome, w₁, hmoment, htrap⟩)
      · rw [hmoment.trans (congrArg (steps k) (port.step_resume_closing v stack w₁))]
        exact Or.inr (Or.inr (hthere.isShut_steps _ stack k))
      · rw [hmoment.trans (congrArg (steps k) (port.step_unwind_closing f stack w₁))]
        exact Or.inr (Or.inr (hthere.isShut_steps _ stack k))

theorem step_apply_closer {p : Primitive} (hp : p ∈ Primitive.table)
    (hoperation : p.operation = .direct (.port port.closer)) (stack : List Pending) (w : World) :
    State.step ⟨.apply (.primitive p) [port.value], stack, w⟩ =
      go (.resume (.boolean true)) stack (port.close w) := by
  obtain ⟨-, -, htakes, -⟩ := Primitive.takes_for_port p hp
  have hcount : checkCount p [port.value] w = .value () w := by
    refine Primitive.checkCount_eq (htakes port.closer ?_ hoperation) w
    cases port <;> simp [closer]
  change Step.apply (.primitive p) [port.value] stack w = _
  simp only [Step.apply, after, hcount, hoperation]
  cases port <;> rfl

/-- What the procedure returns or fails with comes back to the stack once the port is closed. -/
theorem comes_back {outcome : Outcome} {w' : World} (h : (go control [] w).Ends outcome w')
    (stack : List Pending) :
    let run := go control (port.closing :: stack) w
    (∃ v, outcome = .value v ∧ run.Comes ⟨.resume v, stack, port.close w'⟩) ∨
      (∃ f, outcome = .fault f ∧ run.Comes ⟨.unwind f, stack, port.close w'⟩) ∨
      outcome.isTrap = true := by
  intro run
  by_cases htrap : outcome.isTrap = true
  · exact Or.inr (Or.inr htrap)
  · rcases h.comes (Bool.eq_false_iff.2 htrap) (port.closing :: stack) with
      ⟨v, hv, hcomes⟩ | ⟨f, hf, hcomes⟩
    · exact Or.inl ⟨v, hv, hcomes.next (port.step_resume_closing v stack w') ⟨[_], rfl⟩⟩
    · exact Or.inr (Or.inl ⟨f, hf, hcomes.next (port.step_unwind_closing f stack w') ⟨[_], rfl⟩⟩)

end Port

/-- A port is closed whenever the call that it was opened for returns, in whatever way, and every
port that is closed is closed for good. -/
theorem Port.closed_for_good :
    (∀ {p : Primitive} {operation : ControlOperation} {name : Value} {port : Port} {w w₁ : World},
      p ∈ Primitive.table → p.operation = .control operation → operation.Lends name w port w₁ →
      ∀ (callback : Value) (stack : List Pending),
        let run := go (.apply callback [port.value]) (port.closing :: stack) w₁
        State.step ⟨.apply (.primitive p) [name, callback], stack, w⟩ = run ∧ port.IsOpen w₁ ∧
        port.ClosesBefore stack run ∧
        ∀ {outcome : Outcome} {w₂ : World},
          (go (.apply callback [port.value]) [] w₁).Ends outcome w₂ →
          port.IsShut (port.close w₂) ∧
          ((∃ v, outcome = .value v ∧ run.Comes ⟨.resume v, stack, port.close w₂⟩) ∨
            (∃ f, outcome = .fault f ∧ run.Comes ⟨.unwind f, stack, port.close w₂⟩) ∨
            outcome.isTrap = true)) ∧
    (∀ {p : Primitive} {port : Port} {w : World},
      p ∈ Primitive.table → p.operation = .direct (.port port.closer) → port.IsIn w → ∀ stack,
        State.step ⟨.apply (.primitive p) [port.value], stack, w⟩ =
          go (.resume (.boolean true)) stack (port.close w) ∧ port.IsShut (port.close w)) ∧
    (∀ {port : Port} {w w' : World}, port.IsShut w → w.Later w' →
      port.IsShut w' ∧ port.Refuses w') ∧
    (∀ ref, (input ref).refusal.message = "Input port is closed") ∧
    ∀ ref, (output ref).refusal.message = "Output port is closed" := by
  refine ⟨fun hp hoperation hlends callback stack => ?_, fun hp hoperation hw stack => ?_,
    fun hshut hlater => ?_, fun _ => rfl, fun _ => rfl⟩
  · have hopen := hlends.isOpen
    refine ⟨hlends.step_apply hp hoperation callback stack, hopen,
      closesBefore hopen.isIn _ stack, fun hends => ⟨?_, comes_back hends stack⟩⟩
    exact isShut_close (hopen.isIn.later hends.drains)
  · exact ⟨step_apply_closer hp hoperation stack _, isShut_close hw⟩
  · have hshut' := hshut.forever hlater
    exact ⟨hshut', hshut'.refuses⟩

/-- A host that has a file of one character. -/
def Host.withDigit : Host :=
  { rules := .byName, files := ({} : Files).insert "f" (.file ⟨#[55]⟩) }

/-- An interpreter that can name that file. -/
def World.withDigit : World :=
  { heap := { strings := #[#['f']] }, host := .withDigit, maxDepth := 1 }

theorem World.openInput_withDigit :
    openInput (.string ⟨0⟩) withDigit = .value ⟨0⟩
      (({ withDigit with host := Host.withDigit.want "f" } : World).addInput "f" [55]).2 := by
  have hbytes : Host.withDigit.bytesAt "f" = [55] := by decide +kernel
  rw [← hbytes]
  rfl

/-- For instance a port on a file of one character, which is read. -/
theorem Port.closed_after_reading :
    let lends : Primitive := ⟨"call-with-input-file", .control .callWithInput, 2, some 2⟩
    let reads : Value := .primitive (.between 0 1 "read-char" (.port .readChar))
    let closes := Primitive.exactly 1 "close-input-port" (.port .closeInput)
    let w₁ := (({ World.withDigit with
      host := Host.withDigit.want "f" } : World).addInput "f" [55]).2
    let run := go (.apply reads [.inputPort ⟨0⟩]) [.closingInput ⟨0⟩] w₁
    (lends ∈ Primitive.table ∧
      ControlOperation.Lends (.string ⟨0⟩) .withDigit .callWithInput (.input ⟨0⟩) w₁ ∧
      State.step ⟨.apply (.primitive lends) [.string ⟨0⟩, reads], [], .withDigit⟩ = run) ∧
    (closes ∈ Primitive.table ∧ (input ⟨0⟩).IsIn w₁ ∧
      State.step ⟨.apply (.primitive closes) [.inputPort ⟨0⟩], [], w₁⟩ =
        go (.resume (.boolean true)) [] (w₁.closeInput ⟨0⟩)) ∧
    ∃ w₂, (go (.apply reads [.inputPort ⟨0⟩]) [] w₁).Ends (.value (.character '7')) w₂ ∧
      (input ⟨0⟩).IsShut (w₂.closeInput ⟨0⟩) ∧
      (w₂.closeInput ⟨0⟩).Later (run.steps 2).outcome.2 ∧
      (input ⟨0⟩).Refuses (run.steps 2).outcome.2 := by
  intro lends reads closes w₁ run
  have hlends : lends ∈ Primitive.table := by decide +kernel
  have hcloses : closes ∈ Primitive.table := by decide +kernel
  have hopens : ControlOperation.Lends (.string ⟨0⟩) .withDigit .callWithInput (.input ⟨0⟩) w₁ :=
    .input World.openInput_withDigit
  obtain ⟨hcall, hopen, -, hreturns⟩ := closed_for_good.1 hlends rfl hopens reads []
  have hcloser : closes.operation = .direct (.port (input ⟨0⟩).closer) := rfl
  obtain ⟨hclose, -⟩ := closed_for_good.2.1 hcloses hcloser hopen.isIn []
  have hends : (go (.apply reads [.inputPort ⟨0⟩]) [] w₁).Ends (.value (.character '7'))
      ((go (.apply reads [.inputPort ⟨0⟩]) [] w₁).steps 2).outcome.2 := ⟨2, rfl⟩
  obtain ⟨hshut, -⟩ := hreturns hends
  have hlater : World.Later (World.closeInput ⟨0⟩ _) (run.steps 2).outcome.2 := .now
  exact ⟨⟨hlends, hopens, hcall⟩, ⟨hcloses, hopen.isIn, hclose⟩, _, hends, hshut, hlater,
    (closed_for_good.2.2.1 hshut hlater).2⟩

end Scheme
