import Scheme.Proofs.PlainActions
/-!
# Plain steps

Most of what the machine does is plain: it pushes pending work onto whatever stack there is, on
whatever level, leaves the continuations alone and sends nothing to one of them. The exceptions
are the entry into a level and the pending work that marks a level, a receiver or a session.
-/

namespace Scheme

/-- Work that waits for a value and lets every fault pass, as it does on any level. -/
def Pending.isPlain : Pending → Bool
  | .leave | .catching _ | .answer => false
  | _ => true

/-- Neither on the way to a continuation nor in a session. -/
def Control.isPlain : Control → Bool
  | .unwind f => !f.isEscape
  | .prompt => false
  | _ => true

/-- What a fault does to the world when it passes pending work. -/
def Pending.release : Pending → World → World
  | .closingInput port | .loaded port => World.closeInput port
  | .closingOutput port => World.closeOutput port
  | _ => id

/-- The procedure that captures its continuation. -/
def Value.isCapturing : Value → Bool
  | .primitive p => p.operation = .control .callWithContinuation
  | _ => false

namespace Step

/-- The step on another level and under another limit. -/
def onLevel (depth limit : Nat) : Step → Step
  | .next s => .next { s with world := s.world.onLevel depth limit }
  | .done outcome w => .done outcome (w.onLevel depth limit)

/-- The step on another level, under another limit and after other entries in the log. -/
def elsewhere (depth limit : Nat) (earlier : Array Entry) : Step → Step
  | .next s => .next { s with world := s.world.elsewhere depth limit earlier }
  | .done outcome w => .done outcome (w.elsewhere depth limit earlier)

theorem elsewhere_empty (depth limit : Nat) (step : Step) :
    step.elsewhere depth limit #[] = step.onLevel depth limit := by
  cases step <;> simp only [elsewhere, onLevel, World.elsewhere_empty]

/-- The step with more pending work below. -/
def onto (base : List Pending) : Step → Step
  | .next s => .next { s with stack := s.stack ++ base }
  | .done outcome w => .done outcome w

/-- The machine goes on with control and pushed work that are allowed, or stops by a trap; the
continuations are as they were in the world. -/
def Leads (allowed : Control → List Pending → Prop) (w : World) : Step → Prop
  | .next s => allowed s.control s.stack ∧ w.SameTokens s.world
  | .done outcome w' => (∃ t, outcome = .trap t) ∧ w.SameTokens w'

theorem Leads.trans {allowed : Control → List Pending → Prop} {w w' : World}
    (h : w.SameTokens w') {step : Step} (hstep : step.Leads allowed w') :
    step.Leads allowed w := by
  cases step with
  | next s => exact ⟨hstep.1, h.trans hstep.2⟩
  | done outcome w'' => exact ⟨hstep.1, h.trans hstep.2⟩

/-- The stack, the level and the log are nothing to the code, which leads only to what is
allowed. -/
structure Uniform (allowed : Control → List Pending → Prop)
    (code : List Pending → World → Step) : Prop where
  elsewhere : ∀ stack w d m l,
    code stack (w.elsewhere d m l) = ((code [] w).elsewhere d m l).onto stack
  leads : ∀ w, (code [] w).Leads allowed w

theorem place_of_elsewhere {code : List Pending → World → Step}
    (h : ∀ stack w d m l, code stack (w.elsewhere d m l) = ((code [] w).elsewhere d m l).onto stack)
    (stack : List Pending) (w : World) (d m : Nat) :
    code stack (w.onLevel d m) = ((code [] w).onLevel d m).onto stack := by
  rw [← World.elsewhere_empty, h, elsewhere_empty]

theorem Uniform.place {allowed : Control → List Pending → Prop}
    {code : List Pending → World → Step} (h : Uniform allowed code) (stack : List Pending)
    (w : World) (d m : Nat) :
    code stack (w.onLevel d m) = ((code [] w).onLevel d m).onto stack :=
  place_of_elsewhere h.elsewhere stack w d m

/-- Plain control, and nothing but plain work on the stack. -/
def Plainly (control : Control) (pushed : List Pending) : Prop :=
  control.isPlain = true ∧ ∀ p ∈ pushed, p.isPlain = true

abbrev Plain (code : List Pending → World → Step) : Prop :=
  Uniform Plainly code

theorem Uniform.after {allowed : Control → List Pending → Prop} {α : Type} {action : Action α}
    {use : α → List Pending → World → Step}
    (hallowed : ∀ control pushed, Plainly control pushed → allowed control pushed)
    (haction : action.Plain) (huse : ∀ a, Uniform allowed (use a)) :
    Uniform allowed (fun stack w => after action stack w fun a w => use a stack w) := by
  constructor
  · intro stack w d m l
    simp only [Step.after]
    rw [haction.elsewhere]
    cases action w with
    | value a w' => exact (huse a).elsewhere stack w' d m l
    | fault f w' => rfl
    | trap t w' => rfl
  · intro w
    have hkeeps := haction.keeps w
    simp only [Step.after]
    cases hresult : action w with
    | value a w' =>
        rw [hresult] at hkeeps
        exact ((huse a).leads w').trans hkeeps
    | fault f w' =>
        rw [hresult] at hkeeps
        refine ⟨hallowed _ _ ⟨?_, by simp⟩, hkeeps.2⟩
        simp [Control.isPlain, hkeeps.1]
    | trap t w' =>
        rw [hresult] at hkeeps
        exact ⟨⟨t, rfl⟩, hkeeps⟩

/-- In each world the code may do what another plain code does. -/
theorem Plain.of_eq {code : List Pending → World → Step}
    (h : ∀ w : World, ∃ code', Plain code' ∧
      ∀ stack d m l, code stack (w.elsewhere d m l) = code' stack (w.elsewhere d m l)) :
    Plain code := by
  constructor
  · intro stack w d m l
    obtain ⟨code', hplain, heq⟩ := h w
    have hself := heq [] w.depth w.maxDepth #[]
    rw [World.elsewhere_self] at hself
    rw [heq, hplain.elsewhere, hself]
  · intro w
    obtain ⟨code', hplain, heq⟩ := h w
    have hself := heq [] w.depth w.maxDepth #[]
    rw [World.elsewhere_self] at hself
    rw [hself]
    exact hplain.leads w

theorem Plain.jump (control : Control) (hcontrol : control.isPlain = true) :
    Plain (go control) :=
  ⟨fun _ _ _ _ _ => rfl, fun w => ⟨⟨hcontrol, by simp⟩, .refl w⟩⟩

theorem Plain.push (control : Control) (p : Pending) (hcontrol : control.isPlain = true)
    (hp : p.isPlain = true) : Plain (fun stack w => go control (p :: stack) w) :=
  ⟨fun _ _ _ _ _ => rfl, fun w => ⟨⟨hcontrol, by simpa using hp⟩, .refl w⟩⟩

theorem Plain.changing {code : List Pending → World → Step} {change : World → World}
    (hchange : World.PlainChange change) (hcode : Plain code) :
    Plain (fun stack w => code stack (change w)) where
  elsewhere stack w d m l := by rw [hchange.elsewhere, hcode.elsewhere]
  leads w := (hcode.leads (change w)).trans (hchange.sameTokens w)

theorem Plain.after {α : Type} {action : Action α} {use : α → List Pending → World → Step}
    (haction : action.Plain) (huse : ∀ a, Plain (use a)) :
    Plain (fun stack w => after action stack w fun a w => use a stack w) :=
  Uniform.after (fun _ _ => id) haction huse

theorem Plain.answer {action : Action Value} (haction : action.Plain) :
    Plain (answer action) :=
  Plain.after haction fun v => Plain.jump (.resume v) rfl

theorem Plain.altering {α : Type} {f : Heap → α × Heap}
    {code : α → List Pending → World → Step}
    (hf : ∀ h, (f h).2.continuations = h.continuations) (hcode : ∀ a, Plain (code a)) :
    Plain (fun stack w => code (f w.heap).1 stack { w with heap := (f w.heap).2 }) :=
  Plain.after (Action.Plain.alter hf) hcode

/-! ## Forms -/

variable (scope : Ref .scope)

theorem plain_sequence (body : Value) : Plain (sequence body scope) := by
  refine Plain.of_eq fun w => ?_
  by_cases hmore : (w.heap.rest body).isPair = true
  · exact ⟨_, Plain.push (.eval (w.heap.first body) scope) (.sequence body scope) rfl rfl,
      fun _ _ _ _ => if_pos hmore⟩
  · exact ⟨_, Plain.jump (.reduce (w.heap.first body) scope) rfl, fun _ _ _ _ => if_neg hmore⟩

/-- Goes on with an expression made of new cells. -/
theorem plain_reduceNew (make : Heap → Value × Heap)
    (hmake : ∀ h, (make h).2.continuations = h.continuations) :
    Plain (fun stack w =>
      go (.reduce (make w.heap).1 scope) stack { w with heap := (make w.heap).2 }) :=
  Plain.altering hmake fun x => Plain.jump (.reduce x scope) rfl

theorem plain_chosen (clause result : Value) : Plain (chosen clause result scope) := by
  refine Plain.of_eq fun w => ?_
  by_cases hnil : (w.heap.rest clause).isNil = true
  · exact ⟨_, Plain.jump (.resume result) rfl, fun _ _ _ _ => if_pos hnil⟩
  · by_cases harrow : w.heap.first (w.heap.rest clause) = .symbol .arrow
    · refine ⟨_, plain_reduceNew scope (fun h =>
        (h.list [.symbol .quote, result]).2.list
          [w.heap.second (w.heap.rest clause), (h.list [.symbol .quote, result]).1]) ?_, ?_⟩
      · simp
      · exact fun _ _ _ _ => (if_neg hnil).trans (if_pos harrow)
    · refine ⟨_, plain_reduceNew scope (fun h =>
        h.cons (.symbol .begin) (w.heap.rest clause)) ?_, ?_⟩
      · simp
      · exact fun _ _ _ _ => (if_neg hnil).trans (if_neg harrow)

theorem plain_clauses (all : Value) : Plain (clauses all scope) := by
  cases all with
  | pair ref =>
      refine Plain.of_eq fun w => ?_
      by_cases helse : w.heap.first (w.heap.pair ref).first = .symbol .else_
      · exact ⟨_, plain_chosen scope (w.heap.pair ref).first (.boolean true),
          fun _ _ _ _ => if_pos helse⟩
      · exact ⟨_, Plain.push (.eval (w.heap.first (w.heap.pair ref).first) scope)
          (.clause (w.heap.pair ref).first (w.heap.pair ref).rest scope) rfl rfl,
          fun _ _ _ _ => if_neg helse⟩
  | _ => exact Plain.jump (.resume (.boolean false)) rfl

theorem plain_abstraction (parameters body : Value) :
    (abstraction parameters body scope).Plain :=
  (World.plain_parameters parameters).bind fun p =>
    Action.Plain.alter fun h => h.continuations_close p body scope

theorem plain_define (name : Symbol) (v : Value) : Plain (define name v scope) :=
  Plain.altering (f := fun h => ((), h.define scope name v))
    (fun h => h.continuations_define scope name v) fun _ => Plain.jump (.resume (.symbol name)) rfl

theorem plain_defineProcedure (target body : Value) :
    Plain (defineProcedure target body scope) := by
  refine Plain.of_eq fun w => ⟨_, Plain.after (World.plain_symbol (w.heap.first target)) fun name =>
    Plain.after (plain_abstraction scope (w.heap.rest target) body) fun ref =>
      plain_define scope name (.closure ref), ?_⟩
  intro stack d m l
  rfl

theorem plain_special (form : SpecialForm) (operands : Value) :
    Plain (special form operands scope) := by
  refine Plain.of_eq fun w => ?_
  cases form with
  | quotation => exact ⟨_, Plain.jump (.resume (w.heap.first operands)) rfl, fun _ _ _ _ => rfl⟩
  | sequence => exact ⟨_, plain_sequence scope operands, fun _ _ _ _ => rfl⟩
  | definition =>
      by_cases hpair : (w.heap.first operands).isPair = true
      · exact ⟨_, plain_defineProcedure scope (w.heap.first operands) (w.heap.rest operands),
          fun _ _ _ _ => if_pos hpair⟩
      · refine ⟨_, Plain.after (World.plain_symbol (w.heap.first operands)) fun name =>
          Plain.of_eq fun w => ⟨_, Plain.push (.eval (w.heap.second operands) scope)
            (.definition name scope) rfl rfl, fun _ _ _ _ => ?_⟩, fun _ _ _ _ => if_neg hpair⟩
        rfl
  | assignment =>
      refine ⟨_, Plain.after (World.plain_symbol (w.heap.first operands)) fun name =>
        Plain.of_eq fun w => ⟨_, Plain.push (.eval (w.heap.second operands) scope)
          (.assignment name scope) rfl rfl, fun _ _ _ _ => ?_⟩, fun _ _ _ _ => rfl⟩
      rfl
  | branch =>
      exact ⟨_, Plain.push (.eval (w.heap.first operands) scope) (.branch operands scope) rfl rfl,
        fun _ _ _ _ => rfl⟩
  | clauses => exact ⟨_, plain_clauses scope operands, fun _ _ _ _ => rfl⟩
  | abstraction =>
      exact ⟨_, Plain.after
        (plain_abstraction scope (w.heap.first operands) (w.heap.rest operands)) fun ref =>
          Plain.jump (.resume (.closure ref)) rfl, fun _ _ _ _ => rfl⟩
  | transformer =>
      exact ⟨_, Plain.after
        (plain_abstraction scope (w.heap.first operands) (w.heap.rest operands)) fun ref =>
          Plain.jump (.resume (.transformer ref)) rfl, fun _ _ _ _ => rfl⟩

theorem plain_reduce (x : Value) : Plain (reduce x scope) := by
  cases x with
  | symbol name => exact Plain.answer (World.plain_lookup name scope)
  | pair site =>
      refine Plain.of_eq fun w => ?_
      have hcall := Plain.push (.eval (w.heap.pair site).first scope)
        (.operator site (w.heap.pair site).rest scope) rfl rfl
      cases hfirst : (w.heap.pair site).first with
      | symbol head =>
          rw [hfirst] at hcall
          cases hform : SpecialForm.ofSymbol? head with
          | some form =>
              refine ⟨_, plain_special scope form (w.heap.pair site).rest, fun _ _ _ _ => ?_⟩
              simp only [reduce, World.heap_elsewhere, hfirst, hform]
          | none =>
              refine ⟨_, hcall, fun _ _ _ _ => ?_⟩
              simp only [reduce, World.heap_elsewhere, hfirst, hform]
      | _ =>
          rw [hfirst] at hcall
          refine ⟨_, hcall, fun _ _ _ _ => ?_⟩
          simp only [reduce, World.heap_elsewhere, hfirst]
  | _ => exact Plain.jump (.resume _) rfl

/-- A scope for a call is made in the same way everywhere. -/
theorem plain_entering (p : Parameters) (arguments : List Value) (parent : Ref .scope)
    {code : Ref .scope → List Pending → World → Step} (hcode : ∀ scope, Plain (code scope)) :
    Plain (fun stack w =>
      code (w.enter p arguments parent).1 stack (w.enter p arguments parent).2) := by
  refine Plain.of_eq fun w => ?_
  have hextend := Plain.altering (fun h => h.continuations_extend p arguments parent) hcode
  by_cases haccepts : p.accepts arguments.length = true
  · refine ⟨_, hextend, fun _ _ _ _ => ?_⟩
    simp only [World.enter, haccepts, if_true]
  · refine ⟨_, Plain.changing (World.plainChange_note
      (.argumentCount p.text (w.heap.writtenList arguments))) hextend, fun _ _ _ _ => ?_⟩
    simp only [World.enter, haccepts, Bool.false_eq_true, if_false]
    rfl

theorem plain_call (procedure : Value) (arguments : List Value) :
    Plain (call procedure arguments) := by
  cases procedure with
  | closure ref =>
      refine Plain.of_eq fun w => ⟨_, plain_entering (w.heap.closure ref).parameters arguments
        (w.heap.closure ref).scope fun scope =>
          Plain.jump (.reduce (w.heap.closure ref).body scope) rfl, fun _ _ _ _ => ?_⟩
      rfl
  | _ => exact Plain.jump (.apply _ arguments) rfl

theorem plain_operands (procedure : Value) (evaluated : List Value) (rest all : Value) :
    Plain (operands procedure evaluated rest all scope) := by
  cases rest with
  | nil => exact plain_call procedure evaluated.reverse
  | pair ref =>
      refine Plain.of_eq fun w => ⟨_, Plain.push (.eval (w.heap.pair ref).first scope)
        (.operand procedure evaluated (w.heap.pair ref).rest all scope) rfl rfl, fun _ _ _ _ => ?_⟩
      rfl
  | _ => exact Plain.answer (Action.Plain.failWith _)

theorem plain_expand (site : Ref .pair) (transformer : Ref .closure) (operands : Value)
    (scope : Option (Ref .scope)) : Plain (expand site transformer operands scope) := by
  refine Plain.after (World.plain_elements operands) fun arguments => Plain.of_eq fun w =>
    ⟨_, plain_entering (w.heap.closure transformer).parameters arguments
      (w.heap.closure transformer).scope fun inner =>
        Plain.push (.eval (w.heap.closure transformer).body inner)
          (.expansion site transformer scope) rfl rfl, fun _ _ _ _ => ?_⟩
  rfl

theorem plain_replacement (v : Value) {code : Pair → List Pending → World → Step}
    (hcode : ∀ p, Plain (code p)) :
    Plain (fun stack w => code (replacement v w).1 stack (replacement v w).2) := by
  have hbegin := Plain.altering (fun h => h.continuations_list [v]) fun rest =>
    hcode ⟨.symbol .begin, rest⟩
  cases v with
  | pair ref => exact Plain.of_eq fun w => ⟨_, hcode (w.heap.pair ref), fun _ _ _ _ => rfl⟩
  | _ => exact hbegin

theorem plain_replace (site : Ref .pair) (transformer : Ref .closure)
    (scope : Option (Ref .scope)) (v : Value) : Plain (replace site transformer scope v) := by
  have hset : ∀ p : Pair, World.PlainChange fun w =>
      { w with heap := w.heap.setPair site p } :=
    fun _ => ⟨fun _ _ _ _ => rfl, fun _ => ⟨rfl, rfl⟩⟩
  have hplace (control : Control) (hcontrol : control.isPlain = true) : Plain (fun stack w =>
      go control stack { (replacement v w).2 with
        heap := (replacement v w).2.heap.setPair site (replacement v w).1 }) :=
    plain_replacement v fun p => Plain.changing (hset p) (Plain.jump control hcontrol)
  have htraced (control : Control) (hcontrol : control.isPlain = true) : Plain (fun stack w =>
      let w :=
        if w.tracing then
          w.note (.expanded (w.heap.closure transformer).name (w.heap.written v))
        else w
      go control stack { (replacement v w).2 with
        heap := (replacement v w).2.heap.setPair site (replacement v w).1 }) := by
    refine Plain.of_eq fun w => ?_
    by_cases htracing : w.tracing = true
    · refine ⟨_, Plain.changing (World.plainChange_note (.expanded
        (w.heap.closure transformer).name (w.heap.written v))) (hplace control hcontrol),
        fun _ _ _ _ => ?_⟩
      simp only [World.tracing_elsewhere, htracing, if_true, World.heap_elsewhere]
    · refine ⟨_, hplace control hcontrol, fun _ _ _ _ => ?_⟩
      simp only [World.tracing_elsewhere, htracing, Bool.false_eq_true, if_false]
  cases scope with
  | some scope => exact htraced (.reduce (.pair site) scope) rfl
  | none => exact htraced (.resume (.pair site)) rfl

/-! ## Calls -/

theorem plain_mapping (procedure : Value) (lists results : List Value) (collect : Bool) :
    Plain (mapping procedure lists results collect) := by
  refine Plain.of_eq fun w => ?_
  by_cases hmore : (!lists.isEmpty && lists.all Value.isPair) = true
  · exact ⟨_, Plain.push (.apply procedure (lists.map w.heap.first))
      (.mapping procedure (lists.map w.heap.rest) results collect) rfl rfl,
      fun _ _ _ _ => if_pos hmore⟩
  · exact ⟨_, Plain.answer (Action.Plain.alter fun h => h.continuations_list results.reverse),
      fun _ _ _ _ => if_neg hmore⟩

theorem plain_measure (amount : Nat) (unit : String) : (measure amount unit).Plain :=
  (Action.Plain.addString _).bind fun _ => Action.Plain.alter fun h => h.continuations_list _

theorem plain_timed (result : Value) (memory clock : Nat) : (timed result memory clock).Plain := by
  refine Action.Plain.bind ⟨fun _ _ _ _ => rfl, fun _ => ⟨rfl, rfl⟩⟩ fun stop => ?_
  refine Action.Plain.bind ⟨fun _ _ _ _ => rfl, fun _ => ⟨rfl, rfl⟩⟩ fun top => ?_
  exact (plain_measure _ _).bind fun _ => (plain_measure _ _).bind fun _ =>
    (Action.Plain.alter fun h => h.continuations_list _).bind fun _ =>
      Action.Plain.alter fun h => h.continuations_list _

theorem plain_timing (thunk : Value) (calls memory clock : Nat) (result : Value) :
    Plain (timing thunk calls memory clock result) := by
  cases calls with
  | zero => exact Plain.answer (plain_timed result memory clock)
  | succ calls => exact Plain.push (.apply thunk []) (.timing thunk calls memory clock) rfl rfl

theorem plain_startTiming (thunk : Value) (calls : Nat) : Plain (startTiming thunk calls) := by
  have hread : World.PlainChange fun w =>
      { w with host := (w.host.readMemory.2.readClock).2 } :=
    ⟨fun _ _ _ _ => rfl, fun _ => ⟨rfl, rfl⟩⟩
  exact Plain.of_eq fun w => ⟨_, Plain.changing hread (plain_timing thunk calls
    w.host.readMemory.1 (w.host.readMemory.2.readClock).1 (.boolean false)), fun _ _ _ _ => rfl⟩

theorem plain_load (path : String) : Plain (load path) := by
  refine Plain.of_eq fun w => ?_
  cases hopen : (w.host.want path).openInput path with
  | error reason =>
      refine ⟨_, Plain.changing (World.plainChange_want path)
        (Plain.answer (Action.Plain.fail (.cannotLoad path reason))), fun _ _ _ _ => ?_⟩
      simp only [load, World.host_elsewhere, hopen]
  | ok file =>
      have hadd := ((World.plainChange_addInput file.1 file.2).comp
        (World.plainChange_note (.loading path))).comp (World.plainChange_want path)
      refine ⟨_, Plain.changing hadd (Plain.push (.advance (.file ⟨w.inputs.size⟩) .nil)
        (.loaded ⟨w.inputs.size⟩) rfl rfl), fun _ _ _ _ => ?_⟩
      simp only [load, World.host_elsewhere, hopen]
      rfl

theorem plain_expandOnce (x : Value) : Plain (expandOnce x) := by
  refine Plain.of_eq fun w => ?_
  by_cases hpair : x.isPair = true
  · exact ⟨_, Plain.push (.eval (w.heap.first x) .global) (.expandingHead x) rfl rfl,
      fun _ _ _ _ => if_pos hpair⟩
  · exact ⟨_, Plain.jump (.resume x) rfl, fun _ _ _ _ => if_neg hpair⟩

theorem plain_control (operation : ControlOperation) (arguments : List Value)
    (hcapture : operation ≠ .callWithContinuation) : Plain (control operation arguments) := by
  cases operation with
  | apply =>
      exact Plain.after (World.plain_elements _) fun last =>
        Plain.jump (.apply _ (arguments.tail.dropLast ++ last)) rfl
  | map => exact plain_mapping _ _ _ _
  | forEach => exact plain_mapping _ _ _ _
  | callWithContinuation => exact absurd rfl hcapture
  | force =>
      refine Plain.of_eq fun w => ?_
      by_cases hprocedure : (arguments.getD 0 .nil).isProcedure = true
      · exact ⟨_, Plain.jump (.apply (arguments.getD 0 .nil) []) rfl,
          fun _ _ _ _ => if_pos hprocedure⟩
      · exact ⟨_, Plain.jump (.resume (arguments.getD 0 .nil)) rfl,
          fun _ _ _ _ => if_neg hprocedure⟩
  | eval => exact Plain.jump (.eval _ .global) rfl
  | expand => exact plain_expandOnce _
  | timeCall =>
      exact Plain.after (Action.Plain.ite (World.plain_index _) (Action.Plain.pure 1)) fun calls =>
        plain_startTiming _ calls
  | callWithInput =>
      exact Plain.after (World.plain_openInput _) fun port =>
        Plain.push (.apply _ [.inputPort port]) (.closingInput port) rfl rfl
  | callWithOutput =>
      exact Plain.after (World.plain_openOutput _) fun port =>
        Plain.push (.apply _ [.outputPort port]) (.closingOutput port) rfl rfl
  | load => exact Plain.after (World.plain_textOf _) plain_load

theorem plain_checkCount (p : Primitive) (arguments : List Value) :
    (checkCount p arguments).Plain := by
  refine Action.Plain.ite (Action.Plain.failWith _) ?_
  cases p.most with
  | none => exact Action.Plain.pure ()
  | some most => exact Action.Plain.ite (Action.Plain.failWith _) (Action.Plain.pure ())

theorem plain_apply {procedure : Value} (arguments : List Value)
    (hcapture : procedure.isCapturing = false) (hthrow : ∀ k, procedure ≠ .continuation k) :
    Plain (apply procedure arguments) := by
  cases procedure with
  | primitive p =>
      refine Plain.after (plain_checkCount p arguments) fun _ => ?_
      cases hoperation : p.operation with
      | direct operation => exact Plain.answer (operation.plain_perform arguments)
      | control operation =>
          refine plain_control operation arguments ?_
          rintro rfl
          simp [Value.isCapturing, hoperation] at hcapture
  | closure ref | transformer ref =>
      exact Plain.of_eq fun w => ⟨_, plain_entering (w.heap.closure ref).parameters arguments
        (w.heap.closure ref).scope fun scope =>
          Plain.jump (.eval (w.heap.closure ref).body scope) rfl, fun _ _ _ _ => rfl⟩
  | continuation k => exact absurd rfl (hthrow k)
  | _ => exact Plain.answer (Action.Plain.failWith _)

/-! ## Programs -/

theorem plain_readProgram (program : Program)
    {code : Reading → Program → List Pending → World → Step}
    (hcode : ∀ reading program, Plain (code reading program)) :
    Plain (fun stack w =>
      code (readProgram program w).1 (readProgram program w).2.1 stack
        (readProgram program w).2.2) := by
  cases program with
  | text reader =>
      exact Plain.changing (World.plainChange_noteAll _) (hcode _ _)
  | file port =>
      have hread : ∀ (entries : List Entry) (reader : Reader), World.PlainChange fun w =>
          { w.noteAll entries with
            inputs := (w.noteAll entries).inputs.setIfInBounds port.index reader } :=
        fun _ _ => ⟨fun w d m l => by rw [w.noteAll_elsewhere]; rfl, fun _ => ⟨rfl, rfl⟩⟩
      exact Plain.of_eq fun w => ⟨_, Plain.changing
        (hread (w.reader port).read.2.drain.1 (w.reader port).read.2.drain.2)
        (hcode (w.reader port).read.1 (.file port)), fun _ _ _ _ => rfl⟩

/-- What a program does with what was read of it. -/
def proceed (last : Value) (reading : Reading) (program : Program) (stack : List Pending)
    (world : World) : Step :=
  match reading with
  | .datum d =>
    let (x, heap) := world.heap.build d
    go (.eval x .global) (.program program :: stack) { world with heap }
  | .endOfInput => go (.resume last) stack world
  | .failed cause => go (.unwind (.failed cause)) stack world
  | .cutShort => go (.unwind .cutShort) stack world

theorem advance_eq (program : Program) (last : Value) (stack : List Pending) (w : World) :
    advance program last stack w =
      proceed last (readProgram program w).1 (readProgram program w).2.1 stack
        (readProgram program w).2.2 := by
  unfold advance proceed
  rfl

theorem plain_proceed (last : Value) (reading : Reading) (program : Program) :
    Plain (proceed last reading program) := by
  cases reading with
  | datum d =>
      exact Plain.altering (fun h => h.continuations_build d) fun x =>
        Plain.push (.eval x .global) (.program program) rfl rfl
  | endOfInput => exact Plain.jump (.resume last) rfl
  | failed cause => exact Plain.jump (.unwind (.failed cause)) rfl
  | cutShort => exact Plain.jump (.unwind .cutShort) rfl

theorem plain_advance (program : Program) (last : Value) : Plain (advance program last) := by
  have hread := plain_readProgram program fun reading program => plain_proceed last reading program
  exact Plain.of_eq fun w => ⟨_, hread, fun stack d m l => advance_eq program last stack _⟩

/-! ## Pending work -/

theorem plain_resume (v : Value) {p : Pending} (hp : p.isPlain = true) :
    Plain (fun stack w => resume v (p :: stack) w) := by
  cases p with
  | leave | catching _ | answer => simp [Pending.isPlain] at hp
  | operator site rest scope =>
      cases v with
      | transformer ref => exact plain_expand site ref rest (some scope)
      | _ => exact plain_operands scope _ [] rest rest
  | operand procedure evaluated rest all scope =>
      exact plain_operands scope procedure (v :: evaluated) rest all
  | expansion site transformer scope => exact plain_replace site transformer scope v
  | sequence body scope =>
      exact Plain.of_eq fun w => ⟨_, plain_sequence scope (w.heap.rest body), fun _ _ _ _ => rfl⟩
  | assignment name scope => exact Plain.answer (World.plain_assign name v scope)
  | definition name scope => exact plain_define scope name v
  | branch arms scope =>
      exact Plain.of_eq fun w => ⟨_, Plain.jump
        (.reduce (if v.isTrue then w.heap.second arms else w.heap.third arms) scope) rfl,
        fun _ _ _ _ => rfl⟩
  | clause clause others scope =>
      refine Plain.of_eq fun w => ?_
      by_cases htrue : v.isTrue = true
      · exact ⟨_, plain_chosen scope clause v, fun _ _ _ _ => if_pos htrue⟩
      · exact ⟨_, plain_clauses scope others, fun _ _ _ _ => if_neg htrue⟩
  | mapping procedure lists results collect => exact plain_mapping procedure lists _ collect
  | timing thunk calls memory clock => exact plain_timing thunk calls memory clock v
  | closingInput port =>
      have hclose := Plain.changing (World.plainChange_closeInput port)
        (Plain.jump (.resume v) rfl)
      exact hclose
  | closingOutput port =>
      have hclose := Plain.changing (World.plainChange_closeOutput port)
        (Plain.jump (.resume v) rfl)
      exact hclose
  | expandingHead x =>
      have hplain := Plain.jump (.resume x) rfl
      cases v with
      | transformer ref =>
          cases x with
          | pair site =>
              exact Plain.of_eq fun w => ⟨_, plain_expand site ref (w.heap.rest (.pair site)) none,
                fun _ _ _ _ => rfl⟩
          | _ => exact hplain
      | _ => exact hplain
  | program program => exact Plain.jump (.advance program v) rfl
  | loaded port =>
      have hclose := Plain.changing (World.plainChange_closeInput port)
        (Plain.jump (.resume (.boolean true)) rfl)
      exact hclose

theorem plainChange_release (p : Pending) : World.PlainChange p.release := by
  cases p with
  | closingInput port | loaded port => exact World.plainChange_closeInput port
  | closingOutput port => exact World.plainChange_closeOutput port
  | _ => exact ⟨fun _ _ _ _ => rfl, fun w => .refl w⟩

theorem unwind_plain (f : Fault) {p : Pending} (hp : p.isPlain = true) (stack : List Pending)
    (w : World) : unwind f (p :: stack) w = go (.unwind f) stack (p.release w) := by
  cases p with
  | leave | catching _ | answer => simp [Pending.isPlain] at hp
  | _ => rfl

end Step

end Scheme
