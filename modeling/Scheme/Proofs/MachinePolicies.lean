import Scheme.Proofs.HeapPolicies
import Scheme.Proofs.PlainSteps
import Scheme.Proofs.Runs
/-!
# Policies for the machine

A policy for the whole machine also has to allow the changes of cells, and it says which scopes may
be used. A state keeps to it if its heap is in order and it admits all values that the machine
works with, in the control state and in the pending work. Every step leads from such a state to
such a state by an allowed change of the heap, and so does every run.

A procedure may have code or a scope that the policy keeps from others. The step that calls it then
enters that code, and what comes of it is left open.
-/

namespace Scheme

/-- A rule about heaps that the machine keeps to. -/
structure MachinePolicy extends Policy where
  /-- The scope may be used in the heap. -/
  usable : Heap → Ref .scope → Prop
  usableMono : ∀ {h h' s}, leads h h' → usable h s → usable h' s
  global : ∀ {h}, good h → usable h .global
  setPair : ∀ {h p} (ref : Ref .pair), good h → admits h p.first → admits h p.rest →
    good (h.setPair ref p) ∧ leads h (h.setPair ref p)
  setChar : ∀ {h} (ref : Ref .string) (i : Nat) (c : Char), good h →
    good (h.setChar ref i c) ∧ leads h (h.setChar ref i c)
  setElement : ∀ {h v} (ref : Ref .vector) (i : Nat), good h → admits h v →
    good (h.setElement ref i v) ∧ leads h (h.setElement ref i v)
  located : ∀ {h s s' v} {name : Symbol}, good h → usable h s →
    h.locate? name s = some (s', v) → admits h v
  assign : ∀ {h s s' old v} {name : Symbol}, good h → usable h s →
    h.locate? name s = some (s', old) → admits h v →
    good (h.bind s' name v) ∧ leads h (h.bind s' name v)
  bind : ∀ {h v} {s : Ref .scope} (name : Symbol), good h → usable h s → admits h v →
    good (h.bind s name v) ∧ leads h (h.bind s name v)
  nameClosure : ∀ {h} (ref : Ref .closure) (name : Symbol), good h →
    good (h.nameClosure ref name) ∧ leads h (h.nameClosure ref name)
  addScope : ∀ {h} {bindings : Std.TreeMap String Value} {parent : Ref .scope}, good h →
    (∀ (name : String) (v : Value), bindings[name]? = some v → admits h v) → usable h parent →
    good (h.addScope ⟨bindings, some parent⟩).2 ∧
      leads h (h.addScope ⟨bindings, some parent⟩).2 ∧
      usable (h.addScope ⟨bindings, some parent⟩).2 (h.addScope ⟨bindings, some parent⟩).1
  /-- The code is run in the scope, but not by others. -/
  enters : Heap → Value → Ref .scope → Prop := fun _ _ _ => False
  code : ∀ {h ref vs}, good h → admits h (.closure ref) → (∀ v ∈ vs, admits h v) →
    admits h (h.closure ref).body ∧ usable h (h.closure ref).scope ∨
      let made := h.extend (h.closure ref).parameters vs (h.closure ref).scope
      good made.2 ∧ leads h made.2 ∧
        (admits made.2 (h.closure ref).body ∧ usable made.2 made.1 ∨
          enters made.2 (h.closure ref).body made.1)
  transformer : ∀ {h ref}, admits h (.transformer ref) ↔ admits h (.closure ref)
  addClosure : ∀ {h c}, good h → admits h c.body → usable h c.scope →
    good (h.addClosure c).2 ∧ leads h (h.addClosure c).2 ∧
      admits (h.addClosure c).2 (.closure (h.addClosure c).1)
  slot : ∀ {h} (k : Ref .continuation), good h → admits h (h.continuation k).slot
  addContinuation : ∀ {h} {k : Continuation}, good h → admits h k.slot →
    good (h.addContinuation k).2 ∧ leads h (h.addContinuation k).2 ∧
      admits (h.addContinuation k).2 (.continuation (h.addContinuation k).1)
  setContinuation : ∀ {h} {k : Continuation} (ref : Ref .continuation), good h → admits h k.slot →
    good (h.setContinuation ref k) ∧ leads h (h.setContinuation ref k)

section

open Scheme.Action

variable {P : MachinePolicy} {h : Heap} {v : Value} {vs : List Value}

/-! ## Direct operations -/

theorem Action.Obeys.after_pair {β : Type} {R : Heap → β → Prop} {f : Ref .pair → Action β}
    (hf : ∀ ref, v = .pair ref → (f ref).Obeys P.toPolicy h R) :
    Obeys P.toPolicy h (World.pair v >>= f) R := by
  refine .after_expect fun ref href => hf ref ?_
  cases v <;> cases href
  rfl

theorem ListOperation.obeys_set {side : Side} (hvs : ∀ v ∈ vs, P.admits h v) :
    Obeys P.toPolicy h ((ListOperation.set side).perform vs) P.admits := by
  have hx := Policy.admits_getD hvs 0
  have hy := Policy.admits_getD hvs 1
  refine .after_pair fun ref href => ?_
  rw [href] at hx
  refine .alter fun h' hleads hgood => ?_
  obtain ⟨hfirst, hrest⟩ := P.fields hgood (P.mono hleads hx)
  have hy := P.mono hleads hy
  cases side with
  | first =>
      obtain ⟨hgood', hleads'⟩ := P.setPair (p := ⟨vs.getD 1 .nil, _⟩) ref hgood hy hrest
      exact ⟨hgood', hleads', P.mono hleads' hy⟩
  | rest =>
      obtain ⟨hgood', hleads'⟩ := P.setPair (p := ⟨_, vs.getD 1 .nil⟩) ref hgood hfirst hy
      exact ⟨hgood', hleads', P.mono hleads' hy⟩

theorem StringOperation.obeys_set : Obeys P.toPolicy h (StringOperation.set.perform vs) P.admits := by
  refine .after_still (World.still_character _) fun c => ?_
  refine .after_still (World.still_string _) fun ref => ?_
  refine .after_still (still_look _) fun length => ?_
  refine .after_still (World.still_positionIn _ _ _) fun i => ?_
  refine .alter fun h' hleads hgood => ?_
  obtain ⟨hgood', hleads'⟩ := P.setChar ref i c hgood
  exact ⟨hgood', hleads', P.atom rfl⟩

theorem VectorOperation.obeys_set (hvs : ∀ v ∈ vs, P.admits h v) :
    Obeys P.toPolicy h (VectorOperation.set.perform vs) P.admits := by
  have hz := Policy.admits_getD hvs 2
  refine .after_still (World.still_vector _) fun ref => ?_
  refine .after_still (still_look _) fun length => ?_
  refine .after_still (World.still_positionIn _ _ _) fun i => ?_
  refine .alter fun h' hleads hgood => ?_
  have hz := P.mono hleads hz
  obtain ⟨hgood', hleads'⟩ := P.setElement ref i hgood hz
  exact ⟨hgood', hleads', P.mono hleads' hz⟩

theorem DirectOperation.obeys (operation : DirectOperation) (hvs : ∀ v ∈ vs, P.admits h v) :
    Obeys P.toPolicy h (operation.perform vs) P.admits := by
  cases hmutator : operation.isMutator with
  | false => exact obeys_perform hmutator hvs
  | true =>
      unfold isMutator at hmutator
      split at hmutator
      · exact ListOperation.obeys_set hvs
      · exact StringOperation.obeys_set
      · exact VectorOperation.obeys_set hvs
      · cases hmutator

/-! ## Scopes -/

theorem World.obeys_lookup {name : Symbol} {s : Ref .scope} (hs : P.usable h s) :
    Obeys P.toPolicy h (World.lookup name s) P.admits := by
  intro w hleads hgood
  unfold World.lookup
  cases hlocate : w.heap.locate? name s with
  | none => exact ⟨hgood, P.refl _⟩
  | some r => exact ⟨hgood, P.refl _, P.located hgood (P.usableMono hleads hs) hlocate⟩

theorem World.obeys_assign {name : Symbol} {s : Ref .scope} (hs : P.usable h s)
    (hv : P.admits h v) : Obeys P.toPolicy h (World.assign name v s) P.admits := by
  intro w hleads hgood
  unfold World.assign
  cases hlocate : w.heap.locate? name s with
  | none => exact ⟨hgood, P.refl _⟩
  | some r =>
      obtain ⟨hgood', hleads'⟩ := P.assign hgood (P.usableMono hleads hs) hlocate (P.mono hleads hv)
      exact ⟨hgood', hleads', P.mono (P.trans hleads hleads') hv⟩

@[simp] theorem World.still_parametersFrom (whole : Value) (budget : Nat) (names : List Symbol)
    (v : Value) : Still (parametersFrom whole budget names v) := by
  induction budget generalizing names v with
  | zero => cases v <;> simp [parametersFrom]
  | succ budget ih => cases v <;> simp [parametersFrom, ih]

@[simp] theorem World.still_parameters (v : Value) : Still (parameters v) :=
  fun w => still_parametersFrom v w.heap.pairs.size [] v w

namespace Policy

variable {P : Policy}

/-- All variables have values that the policy admits. -/
def AdmitsBindings (P : Policy) (h : Heap) (bindings : Std.TreeMap String Value) : Prop :=
  ∀ (name : String) (v : Value), bindings[name]? = some v → P.admits h v

theorem AdmitsBindings.insert {bindings : Std.TreeMap String Value}
    (hbindings : P.AdmitsBindings h bindings) (name : String) (hv : P.admits h v) :
    P.AdmitsBindings h (bindings.insert name v) := by
  intro other value hvalue
  rw [Std.TreeMap.getElem?_insert] at hvalue
  split at hvalue
  · cases hvalue
    exact hv
  · exact hbindings other value hvalue

theorem admits_bindFixed (names : List Symbol) {bindings : Std.TreeMap String Value}
    (hbindings : P.AdmitsBindings h bindings) (hvs : ∀ v ∈ vs, P.admits h v) :
    P.AdmitsBindings h (Heap.bindFixed bindings names vs).1 ∧
      ∀ v ∈ (Heap.bindFixed bindings names vs).2, P.admits h v := by
  fun_induction Heap.bindFixed bindings names vs with
  | case1 => exact ⟨hbindings, hvs⟩
  | case2 bindings name names ih => exact ih (hbindings.insert name.name (P.atom rfl)) hvs
  | case3 bindings name names a vs ih =>
      obtain ⟨ha, hvs⟩ := List.forall_mem_cons.1 hvs
      exact ih (hbindings.insert name.name ha) hvs

/-- The scope of a call comes out as a scope does that is made with such variables. -/
theorem makes_extend {Q : Heap → Ref .scope → Prop} (hgood : P.good h) (p : Parameters)
    {parent : Ref .scope} (hvs : ∀ v ∈ vs, P.admits h v)
    (hadd : ∀ h' bindings, P.good h' → P.leads h h' → P.AdmitsBindings h' bindings →
      let made := h'.addScope ⟨bindings, some parent⟩
      P.good made.2 ∧ P.leads h' made.2 ∧ Q made.2 made.1) :
    let made := h.extend p vs parent
    P.good made.2 ∧ P.leads h made.2 ∧ Q made.2 made.1 := by
  have hempty : P.AdmitsBindings h {} := fun name v hv => by simp at hv
  obtain ⟨hbindings, hothers⟩ := admits_bindFixed p.fixed hempty hvs
  unfold Heap.extend
  cases p.rest with
  | none => exact hadd _ _ hgood (P.refl h) hbindings
  | some rest =>
      obtain ⟨hgood', hleads, hlist⟩ := makes_list hgood hothers
      have hbindings' : P.AdmitsBindings _ _ :=
        fun name v hv => P.mono hleads (hbindings name v hv)
      obtain ⟨hgood'', hleads', hmade⟩ := hadd _ _ hgood' hleads (hbindings'.insert rest.name hlist)
      exact ⟨hgood'', P.trans hleads hleads', hmade⟩

end Policy

namespace MachinePolicy

/-- What comes out of making a scope. -/
def Opens (P : MachinePolicy) (h : Heap) (made : Ref .scope × Heap) : Prop :=
  P.good made.2 ∧ P.leads h made.2 ∧ P.usable made.2 made.1

theorem opens_extend (hgood : P.good h) (p : Parameters) {parent : Ref .scope}
    (hvs : ∀ v ∈ vs, P.admits h v) (hparent : P.usable h parent) :
    P.Opens h (h.extend p vs parent) :=
  Policy.makes_extend hgood p hvs fun _ _ hgood' hleads hbindings =>
    P.addScope hgood' hbindings (P.usableMono hleads hparent)

theorem makes_close (hgood : P.good h) (p : Parameters) {body : Value} {s : Ref .scope}
    (hbody : P.admits h body) (hs : P.usable h s) :
    P.good (h.close p body s).2 ∧ P.leads h (h.close p body s).2 ∧
      P.admits (h.close p body s).2 (.closure (h.close p body s).1) := by
  have hsequence : ∀ body, P.admits h body →
      let made := h.cons (.symbol .begin) body
      P.good (made.2.addClosure ⟨p, made.1, s, none⟩).2 ∧
        P.leads h (made.2.addClosure ⟨p, made.1, s, none⟩).2 ∧
        P.admits (made.2.addClosure ⟨p, made.1, s, none⟩).2
          (.closure (made.2.addClosure ⟨p, made.1, s, none⟩).1) := by
    intro body hbody made
    obtain ⟨hgood', hleads, hmade⟩ := P.cons hgood (P.atom (v := .symbol .begin) rfl) hbody
    obtain ⟨hgood'', hleads', hclosure⟩ := P.addClosure (c := ⟨p, made.1, s, none⟩) hgood' hmade
      (P.usableMono hleads hs)
    exact ⟨hgood'', P.trans hleads hleads', hclosure⟩
  unfold Heap.close
  cases body with
  | pair ref =>
      simp only
      split
      · exact P.addClosure (c := ⟨p, (h.pair ref).first, s, none⟩) hgood (P.fields hgood hbody).1 hs
      · exact hsequence (.pair ref) hbody
  | _ => exact hsequence _ hbody

theorem keeps_define (hgood : P.good h) {s : Ref .scope} (hs : P.usable h s) (name : Symbol)
    (hv : P.admits h v) : P.good (h.define s name v) ∧ P.leads h (h.define s name v) := by
  have hnamed : ∀ ref, P.good ((h.nameClosure ref name).bind s name v) ∧
      P.leads h ((h.nameClosure ref name).bind s name v) := by
    intro ref
    obtain ⟨hgood', hleads⟩ := P.nameClosure ref name hgood
    obtain ⟨hgood'', hleads'⟩ := P.bind name hgood' (P.usableMono hleads hs) (P.mono hleads hv)
    exact ⟨hgood'', P.trans hleads hleads'⟩
  cases v with
  | closure ref | transformer ref => exact hnamed ref
  | _ => exact P.bind name hgood hs hv

end MachinePolicy

/-! ## States -/

/-- The policy admits what the machine does next. -/
def Control.Admitted (P : MachinePolicy) (h : Heap) : Control → Prop
  | .eval x scope | .reduce x scope => P.admits h x ∧ P.usable h scope
  | .apply procedure arguments => P.admits h procedure ∧ ∀ v ∈ arguments, P.admits h v
  | .resume v | .advance _ v => P.admits h v
  | .unwind _ | .prompt => True

/-- Besides that, the machine may enter code that is not run by others. -/
def Control.Allowed (P : MachinePolicy) (h : Heap) (control : Control) : Prop :=
  control.Admitted P h ∨
    ∃ x scope, (control = .eval x scope ∨ control = .reduce x scope) ∧ P.enters h x scope

/-- The policy admits what waits. -/
def Pending.Admitted (P : MachinePolicy) (h : Heap) : Pending → Prop
  | .operator site operands scope =>
    P.admits h (.pair site) ∧ P.admits h operands ∧ P.usable h scope
  | .operand procedure evaluated rest _ scope =>
    P.admits h procedure ∧ (∀ v ∈ evaluated, P.admits h v) ∧ P.admits h rest ∧ P.usable h scope
  | .expansion site _ scope => P.admits h (.pair site) ∧ ∀ s ∈ scope, P.usable h s
  | .sequence body scope => P.admits h body ∧ P.usable h scope
  | .assignment _ scope | .definition _ scope => P.usable h scope
  | .branch arms scope => P.admits h arms ∧ P.usable h scope
  | .clause tried others scope => P.admits h tried ∧ P.admits h others ∧ P.usable h scope
  | .mapping procedure lists results _ =>
    P.admits h procedure ∧ (∀ v ∈ lists, P.admits h v) ∧ ∀ v ∈ results, P.admits h v
  | .timing thunk _ _ _ => P.admits h thunk
  | .expandingHead form => P.admits h form
  | .leave | .catching _ | .closingInput _ | .closingOutput _ | .program _ | .loaded _
  | .answer => True

/-- The policy admits all that waits. -/
def MachinePolicy.AdmitsStack (P : MachinePolicy) (h : Heap) (stack : List Pending) : Prop :=
  ∀ p ∈ stack, p.Admitted P h

theorem Pending.Admitted.imp {p : Pending} {h h' : Heap} (hp : p.Admitted P h)
    (hone : ∀ {v}, P.admits h v → P.admits h' v) (hscope : ∀ {s}, P.usable h s → P.usable h' s) :
    p.Admitted P h' := by
  have hall : ∀ {vs : List Value}, (∀ v ∈ vs, P.admits h v) → ∀ v ∈ vs, P.admits h' v :=
    fun hvs v hv => hone (hvs v hv)
  cases p with
  | operator => exact ⟨hone hp.1, hone hp.2.1, hscope hp.2.2⟩
  | operand => exact ⟨hone hp.1, hall hp.2.1, hone hp.2.2.1, hscope hp.2.2.2⟩
  | expansion => exact ⟨hone hp.1, fun s hs => hscope (hp.2 s hs)⟩
  | sequence | branch => exact ⟨hone hp.1, hscope hp.2⟩
  | assignment | definition => exact hscope hp
  | clause => exact ⟨hone hp.1, hone hp.2.1, hscope hp.2.2⟩
  | mapping => exact ⟨hone hp.1, hall hp.2.1, hall hp.2.2⟩
  | timing | expandingHead => exact hone hp
  | _ => trivial

theorem Pending.Admitted.mono {p : Pending} {h h' : Heap} (hp : p.Admitted P h)
    (hleads : P.leads h h') : p.Admitted P h' :=
  hp.imp (P.mono hleads) (P.usableMono hleads)

theorem MachinePolicy.AdmitsStack.mono {stack : List Pending} {h' : Heap}
    (hstack : P.AdmitsStack h stack) (hleads : P.leads h h') : P.AdmitsStack h' stack :=
  fun p hp => (hstack p hp).mono hleads

/-- The step keeps to the policy. -/
def Step.Obeys (P : MachinePolicy) (h : Heap) : Step → Prop
  | .next s => P.good s.world.heap ∧ P.leads h s.world.heap ∧
      s.control.Allowed P s.world.heap ∧ P.AdmitsStack s.world.heap s.stack
  | .done outcome w => P.good w.heap ∧ P.leads h w.heap ∧
      ∀ v, outcome = .value v → P.admits w.heap v

theorem Step.Obeys.trans {h' : Heap} {step : Step} (hstep : step.Obeys P h')
    (hleads : P.leads h h') : step.Obeys P h := by
  cases step with
  | next s => exact ⟨hstep.1, P.trans hleads hstep.2.1, hstep.2.2⟩
  | done outcome w => exact ⟨hstep.1, P.trans hleads hstep.2.1, hstep.2.2⟩

end

/-- The policy allows the machine to go on from here. -/
structure Step.Ready (P : MachinePolicy) (w : World) (stack : List Pending) : Prop where
  good : P.good w.heap
  waiting : P.AdmitsStack w.heap stack

namespace Step

open Scheme.Action MachinePolicy

variable {P : MachinePolicy} {stack : List Pending} {w : World} {scope : Ref .scope} {v : Value}

theorem Ready.change {w' : World} (hready : Ready P w stack) (hgood : P.good w'.heap)
    (hleads : P.leads w.heap w'.heap) : Ready P w' stack :=
  ⟨hgood, hready.waiting.mono hleads⟩

theorem Ready.push {p : Pending} (hready : Ready P w stack) (hp : p.Admitted P w.heap) :
    Ready P w (p :: stack) :=
  ⟨hready.good, List.forall_mem_cons.2 ⟨hp, hready.waiting⟩⟩

theorem Ready.pop {p : Pending} (hready : Ready P w (p :: stack)) :
    p.Admitted P w.heap ∧ Ready P w stack := by
  obtain ⟨hp, hstack⟩ := List.forall_mem_cons.1 hready.waiting
  exact ⟨hp, hready.good, hstack⟩

theorem obeys_jump {h : Heap} {control : Control} (hleads : P.leads h w.heap)
    (hready : Ready P w stack) (hcontrol : control.Admitted P w.heap) :
    (go control stack w).Obeys P h :=
  ⟨hready.good, hleads, Or.inl hcontrol, hready.waiting⟩

/-- The machine goes on in the same heap. -/
theorem obeys_go {control : Control} (hready : Ready P w stack)
    (hcontrol : control.Admitted P w.heap) : (go control stack w).Obeys P w.heap :=
  obeys_jump (P.refl _) hready hcontrol

theorem obeys_after {α : Type} {Q : Heap → α → Prop} {action : Action α}
    {use : α → World → Step} (hready : Ready P w stack)
    (haction : action.Obeys P.toPolicy w.heap Q)
    (huse : ∀ a w', Ready P w' stack → P.leads w.heap w'.heap → Q w'.heap a →
      (use a w').Obeys P w'.heap) :
    (after action stack w use).Obeys P w.heap := by
  have hfirst := haction w (P.refl _) hready.good
  unfold after
  cases hresult : action w with
  | value a w' =>
      rw [hresult] at hfirst
      obtain ⟨hgood, hleads, ha⟩ := hfirst
      exact (huse a w' (hready.change hgood hleads) hleads ha).trans hleads
  | fault f w' =>
      rw [hresult] at hfirst
      obtain ⟨hgood, hleads⟩ := hfirst
      exact obeys_jump hleads (hready.change hgood hleads) trivial
  | trap t w' =>
      rw [hresult] at hfirst
      exact ⟨hfirst.1, hfirst.2, fun _ hv => by cases hv⟩

/-- The machine goes on after an action that leaves the heap alone. -/
theorem obeys_after_still {α : Type} {action : Action α} {use : α → World → Step}
    (hready : Ready P w stack) (haction : action.Still)
    (huse : ∀ a w', Ready P w' stack → P.leads w.heap w'.heap → (use a w').Obeys P w'.heap) :
    (after action stack w use).Obeys P w.heap := by
  refine obeys_after (Q := fun _ _ => True) hready ?_ fun a w' hready' hleads _ =>
    huse a w' hready' hleads
  exact .still haction fun _ _ _ _ => trivial

theorem obeys_answer {action : Action Value} (hready : Ready P w stack)
    (haction : action.Obeys P.toPolicy w.heap P.admits) :
    (answer action stack w).Obeys P w.heap :=
  obeys_after hready haction fun _ _ hready' _ hv => obeys_go hready' hv

/-! ## Forms -/

theorem obeys_sequence {body : Value} (hready : Ready P w stack) (hbody : P.admits w.heap body)
    (hscope : P.usable w.heap scope) : (sequence body scope stack w).Obeys P w.heap := by
  have hfirst := Policy.admits_first hready.good hbody
  simp only [sequence]
  split
  · exact obeys_go (hready.push ⟨hbody, hscope⟩) ⟨hfirst, hscope⟩
  · exact obeys_go hready ⟨hfirst, hscope⟩

/-- The machine goes on with an expression that it has made. -/
theorem obeys_reduce_made {made : Value × Heap} (hready : Ready P w stack)
    (hmade : P.Makes w.heap made) (hscope : P.usable w.heap scope) :
    (go (.reduce made.1 scope) stack { w with heap := made.2 }).Obeys P w.heap := by
  obtain ⟨hgood, hleads, hadmits⟩ := hmade
  have hready' : Ready P { w with heap := made.2 } stack := hready.change hgood hleads
  exact obeys_jump hleads hready' ⟨hadmits, P.usableMono hleads hscope⟩

theorem obeys_chosen {clause result : Value} (hready : Ready P w stack)
    (hclause : P.admits w.heap clause) (hresult : P.admits w.heap result)
    (hscope : P.usable w.heap scope) : (chosen clause result scope stack w).Obeys P w.heap := by
  have hbody := Policy.admits_rest hready.good hclause
  simp only [chosen]
  split_ifs
  · exact obeys_go hready hresult
  · have hreceiver := Policy.admits_first hready.good (Policy.admits_rest hready.good hbody)
    have hitems : ∀ x ∈ [.symbol .quote, result], P.admits w.heap x := by
      simpa using ⟨P.atom rfl, hresult⟩
    obtain ⟨hgood₁, hleads₁, hquoted⟩ := Policy.makes_list hready.good hitems
    have hparts : ∀ x ∈ [w.heap.second (w.heap.rest clause),
        (w.heap.list [.symbol .quote, result]).1],
        P.admits (w.heap.list [.symbol .quote, result]).2 x := by
      simpa using ⟨P.mono hleads₁ hreceiver, hquoted⟩
    obtain ⟨hgood₂, hleads₂, hcall⟩ := Policy.makes_list hgood₁ hparts
    exact obeys_reduce_made hready ⟨hgood₂, P.trans hleads₁ hleads₂, hcall⟩ hscope
  · exact obeys_reduce_made hready (P.cons hready.good (P.atom rfl) hbody) hscope

theorem obeys_clauses {all : Value} (hready : Ready P w stack) (hall : P.admits w.heap all)
    (hscope : P.usable w.heap scope) : (clauses all scope stack w).Obeys P w.heap := by
  cases all with
  | pair ref =>
      obtain ⟨hclause, hothers⟩ := P.fields hready.good hall
      simp only [clauses]
      split
      · exact obeys_chosen hready hclause (P.atom rfl) hscope
      · refine obeys_go (hready.push ⟨hclause, hothers, hscope⟩) ⟨?_, hscope⟩
        exact Policy.admits_first hready.good hclause
  | _ => exact obeys_go hready (P.atom rfl)

theorem obeys_abstraction {h : Heap} {parameters body : Value} (hbody : P.admits h body)
    (hscope : P.usable h scope) :
    Action.Obeys P.toPolicy h (abstraction parameters body scope) fun h' ref =>
      P.admits h' (.closure ref) := by
  refine .after_still (World.still_parameters parameters) fun p => .alter fun h' hleads hgood => ?_
  exact makes_close hgood p (P.mono hleads hbody) (P.usableMono hleads hscope)

theorem obeys_define {name : Symbol} (hready : Ready P w stack) (hscope : P.usable w.heap scope)
    (hv : P.admits w.heap v) : (define name v scope stack w).Obeys P w.heap := by
  obtain ⟨hgood, hleads⟩ := keeps_define hready.good hscope name hv
  have hready' : Ready P { w with heap := w.heap.define scope name v } stack :=
    hready.change hgood hleads
  exact obeys_jump hleads hready' (P.atom rfl)

theorem obeys_special {form : SpecialForm} {operands : Value} (hready : Ready P w stack)
    (hoperands : P.admits w.heap operands) (hscope : P.usable w.heap scope) :
    (special form operands scope stack w).Obeys P w.heap := by
  have hfirst := Policy.admits_first hready.good hoperands
  have hbody := Policy.admits_rest hready.good hoperands
  have hsecond : ∀ {w' : World}, Ready P w' stack → P.leads w.heap w'.heap →
      P.admits w'.heap (w'.heap.second operands) := by
    intro w' hready' hleads
    have hoperands' := P.mono hleads hoperands
    exact Policy.admits_first hready'.good (Policy.admits_rest hready'.good hoperands')
  cases form with
  | quotation => exact obeys_go hready hfirst
  | sequence => exact obeys_sequence hready hoperands hscope
  | clauses => exact obeys_clauses hready hoperands hscope
  | branch => exact obeys_go (hready.push ⟨hoperands, hscope⟩) ⟨hfirst, hscope⟩
  | definition =>
      simp only [special]
      split
      · refine obeys_after_still hready (World.still_symbol _) fun name w₁ hready₁ hleads₁ => ?_
        refine obeys_after hready₁ (obeys_abstraction (P.mono hleads₁ hbody)
          (P.usableMono hleads₁ hscope)) fun ref w₂ hready₂ hleads₂ href => ?_
        exact obeys_define hready₂ (P.usableMono (P.trans hleads₁ hleads₂) hscope) href
      · refine obeys_after_still hready (World.still_symbol _) fun name w₁ hready₁ hleads₁ => ?_
        have hscope₁ := P.usableMono hleads₁ hscope
        exact obeys_go (hready₁.push hscope₁) ⟨hsecond hready₁ hleads₁, hscope₁⟩
  | assignment =>
      refine obeys_after_still hready (World.still_symbol _) fun name w₁ hready₁ hleads₁ => ?_
      have hscope₁ := P.usableMono hleads₁ hscope
      exact obeys_go (hready₁.push hscope₁) ⟨hsecond hready₁ hleads₁, hscope₁⟩
  | abstraction =>
      refine obeys_after hready (obeys_abstraction hbody hscope) fun ref w₁ hready₁ _ href => ?_
      exact obeys_go hready₁ href
  | transformer =>
      refine obeys_after hready (obeys_abstraction hbody hscope) fun ref w₁ hready₁ _ href => ?_
      exact obeys_go hready₁ (P.transformer.2 href)

theorem obeys_reduce {x : Value} (hready : Ready P w stack) (hx : P.admits w.heap x)
    (hscope : P.usable w.heap scope) : (reduce x scope stack w).Obeys P w.heap := by
  have hcall : ∀ site, P.admits w.heap (.pair site) →
      (go (.eval (w.heap.pair site).first scope)
        (.operator site (w.heap.pair site).rest scope :: stack) w).Obeys P w.heap := by
    intro site hsite
    obtain ⟨hfirst, hrest⟩ := P.fields hready.good hsite
    exact obeys_go (hready.push ⟨hsite, hrest, hscope⟩) ⟨hfirst, hscope⟩
  cases x with
  | symbol name => exact obeys_answer hready (World.obeys_lookup hscope)
  | pair site =>
      simp only [reduce]
      split
      · split
        · exact obeys_special hready (P.fields hready.good hx).2 hscope
        · rename_i hhead _ _
          exact hhead ▸ hcall site hx
      · exact hcall site hx
  | _ => exact obeys_go hready hx

theorem obeys_eval {x : Value} (hready : Ready P w stack) (hx : P.admits w.heap x)
    (hscope : P.usable w.heap scope) : (Step.eval x scope stack w).Obeys P w.heap := by
  unfold Step.eval
  split
  · have hready' : Ready P { w with depth := w.depth + 1 } stack := ⟨hready.good, hready.waiting⟩
    exact obeys_go (hready'.push trivial) ⟨hx, hscope⟩
  · exact obeys_answer hready .fail

theorem extend_eq_enter (w : World) (p : Parameters) (vs : List Value) (parent : Ref .scope) :
    w.heap.extend p vs parent = ((w.enter p vs parent).1, (w.enter p vs parent).2.heap) := by
  simp only [World.enter]
  split <;> rfl

/-- What comes out of entering the scope of a call. -/
theorem opens_enter {ref : Ref .closure} {vs : List Value} (hready : Ready P w stack)
    (href : P.admits w.heap (.closure ref)) (hvs : ∀ v ∈ vs, P.admits w.heap v) :
    let c := w.heap.closure ref
    let made := w.enter c.parameters vs c.scope
    Ready P made.2 stack ∧ P.leads w.heap made.2.heap ∧
      (P.admits made.2.heap c.body ∧ P.usable made.2.heap made.1 ∨
        P.enters made.2.heap c.body made.1) := by
  intro c
  have heq := extend_eq_enter w c.parameters vs c.scope
  rcases P.code hready.good href hvs with ⟨hbody, hscope⟩ | hentered
  · have hopens := opens_extend hready.good c.parameters hvs hscope
    rw [heq] at hopens
    obtain ⟨hgood, hleads, husable⟩ := hopens
    exact ⟨hready.change hgood hleads, hleads, Or.inl ⟨P.mono hleads hbody, husable⟩⟩
  · rw [heq] at hentered
    obtain ⟨hgood, hleads, hcode⟩ := hentered
    exact ⟨hready.change hgood hleads, hleads, hcode⟩

/-- The machine goes on with the code of a procedure. -/
theorem obeys_entered {h : Heap} {control : Control} {x : Value} (hleads : P.leads h w.heap)
    (hready : Ready P w stack) (hcontrol : control = .eval x scope ∨ control = .reduce x scope)
    (hcode : P.admits w.heap x ∧ P.usable w.heap scope ∨ P.enters w.heap x scope) :
    (go control stack w).Obeys P h := by
  refine ⟨hready.good, hleads, ?_, hready.waiting⟩
  rcases hcode with hcode | hcode
  · rcases hcontrol with rfl | rfl <;> exact Or.inl hcode
  · exact Or.inr ⟨x, scope, hcontrol, hcode⟩

theorem obeys_call {procedure : Value} {vs : List Value} (hready : Ready P w stack)
    (hprocedure : P.admits w.heap procedure) (hvs : ∀ v ∈ vs, P.admits w.heap v) :
    (call procedure vs stack w).Obeys P w.heap := by
  cases procedure with
  | closure ref =>
      obtain ⟨hready', hleads, hcode⟩ := opens_enter hready hprocedure hvs
      exact obeys_entered hleads hready' (Or.inr rfl) hcode
  | _ => exact obeys_go hready ⟨hprocedure, hvs⟩

theorem obeys_operands {procedure : Value} {evaluated : List Value} {rest all : Value}
    (hready : Ready P w stack) (hprocedure : P.admits w.heap procedure)
    (hevaluated : ∀ v ∈ evaluated, P.admits w.heap v) (hrest : P.admits w.heap rest)
    (hscope : P.usable w.heap scope) :
    (operands procedure evaluated rest all scope stack w).Obeys P w.heap := by
  cases rest with
  | nil => exact obeys_call hready hprocedure (by simpa using hevaluated)
  | pair ref =>
      obtain ⟨hfirst, hothers⟩ := P.fields hready.good hrest
      exact obeys_go (hready.push ⟨hprocedure, hevaluated, hothers, hscope⟩) ⟨hfirst, hscope⟩
  | _ => exact obeys_answer hready .failWith

theorem obeys_expand {site : Ref .pair} {transformer : Ref .closure} {operands : Value}
    {inner : Option (Ref .scope)} (hready : Ready P w stack) (hsite : P.admits w.heap (.pair site))
    (htransformer : P.admits w.heap (.transformer transformer))
    (hoperands : P.admits w.heap operands) (hinner : ∀ s ∈ inner, P.usable w.heap s) :
    (expand site transformer operands inner stack w).Obeys P w.heap := by
  refine obeys_after hready (World.obeys_elements hoperands) fun vs w₁ hready₁ hleads₁ hvs => ?_
  obtain ⟨hready₂, hleads₂, hcode⟩ := opens_enter hready₁
    (P.transformer.1 (P.mono hleads₁ htransformer)) hvs
  have hleads := P.trans hleads₁ hleads₂
  refine obeys_entered hleads₂ (hready₂.push ⟨?_, ?_⟩) (Or.inl rfl) hcode
  · exact P.mono hleads hsite
  · exact fun s hs => P.usableMono hleads (hinner s hs)

theorem makes_replacement (hready : Ready P w stack) (hv : P.admits w.heap v) :
    let made := replacement v w
    Ready P made.2 stack ∧ P.leads w.heap made.2.heap ∧ P.admits made.2.heap made.1.first ∧
      P.admits made.2.heap made.1.rest := by
  have hwrapped : ∀ v, P.admits w.heap v →
      let made := w.heap.list [v]
      Ready P { w with heap := made.2 } stack ∧ P.leads w.heap made.2 ∧
        P.admits made.2 (.symbol .begin) ∧ P.admits made.2 made.1 := by
    intro v hv made
    have hitems : ∀ x ∈ [v], P.admits w.heap x := by simpa using hv
    obtain ⟨hgood, hleads, hlist⟩ := Policy.makes_list hready.good hitems
    exact ⟨hready.change hgood hleads, hleads, P.atom rfl, hlist⟩
  cases v with
  | pair ref => exact ⟨hready, P.refl _, P.fields hready.good hv⟩
  | _ => exact hwrapped _ hv

theorem obeys_replace {site : Ref .pair} {transformer : Ref .closure}
    {inner : Option (Ref .scope)} (hready : Ready P w stack) (hsite : P.admits w.heap (.pair site))
    (hinner : ∀ s ∈ inner, P.usable w.heap s) (hv : P.admits w.heap v) :
    (replace site transformer inner v stack w).Obeys P w.heap := by
  simp only [replace]
  generalize htraced : (if w.tracing then _ else w) = w₀
  have hheap : w₀.heap = w.heap := by
    rw [← htraced]
    split <;> rfl
  have hready₀ : Ready P w₀ stack := hready.change (hheap ▸ hready.good) (hheap ▸ P.refl _)
  rw [← hheap] at hsite hinner hv ⊢
  obtain ⟨hready₁, hleads₁, hfirst, hrest⟩ := makes_replacement hready₀ hv
  obtain ⟨hgood₂, hleads₂⟩ := P.setPair site hready₁.good hfirst hrest
  have hready₂ : Ready P { (replacement v w₀).2 with
      heap := (replacement v w₀).2.heap.setPair site (replacement v w₀).1 } stack :=
    hready₁.change hgood₂ hleads₂
  have hleads := P.trans hleads₁ hleads₂
  have hsite' := P.mono hleads hsite
  cases inner with
  | some s => exact obeys_jump hleads hready₂ ⟨hsite', P.usableMono hleads (hinner s rfl)⟩
  | none => exact obeys_jump hleads hready₂ hsite'

/-! ## Calls -/

theorem obeys_mapping {procedure : Value} {lists results : List Value} {collect : Bool}
    (hready : Ready P w stack) (hprocedure : P.admits w.heap procedure)
    (hlists : ∀ v ∈ lists, P.admits w.heap v) (hresults : ∀ v ∈ results, P.admits w.heap v) :
    (mapping procedure lists results collect stack w).Obeys P w.heap := by
  simp only [mapping]
  split
  · have hfirsts : ∀ v ∈ lists.map w.heap.first, P.admits w.heap v := by
      simpa using fun v hv => Policy.admits_first hready.good (hlists v hv)
    have hrests : ∀ v ∈ lists.map w.heap.rest, P.admits w.heap v := by
      simpa using fun v hv => Policy.admits_rest hready.good (hlists v hv)
    exact obeys_go (hready.push ⟨hprocedure, hrests, hresults⟩) ⟨hprocedure, hfirsts⟩
  · refine obeys_answer hready (.alter fun h' hleads hgood => Policy.makes_list hgood ?_)
    simpa using fun v hv => P.mono hleads (hresults v hv)

theorem obeys_measure {h : Heap} (amount : Nat) (unit : String) :
    Action.Obeys P.toPolicy h (measure amount unit) P.admits := by
  refine .bind (Q := P.admits) (.alter fun h' _ hgood => P.addString _ hgood)
    fun h₁ v _ _ hv => .alter fun h₂ hleads hgood => Policy.makes_list hgood ?_
  simpa using ⟨P.atom rfl, P.mono hleads hv⟩

theorem obeys_timed {h : Heap} (hv : P.admits h v) (memory clock : Nat) :
    Action.Obeys P.toPolicy h (timed v memory clock) P.admits := by
  refine .after_still (fun _ => rfl) fun stop => .after_still (fun _ => rfl) fun top => ?_
  refine .bind (obeys_measure _ _) fun h₁ time hleads₁ _ htime => ?_
  refine .bind (obeys_measure _ _) fun h₂ space hleads₂ _ hspace => ?_
  refine .bind (Q := P.admits) (.alter fun h' hleads hgood => Policy.makes_list hgood ?_)
    fun h₃ costs hleads₃ _ hcosts => .alter fun h' hleads hgood => Policy.makes_list hgood ?_
  · simpa using ⟨P.mono (P.trans hleads₂ hleads) htime, P.mono hleads hspace⟩
  · have hv' := P.mono (P.trans hleads₁ (P.trans hleads₂ (P.trans hleads₃ hleads))) hv
    simpa using ⟨hv', P.mono hleads hcosts⟩

theorem obeys_timing {thunk : Value} {calls memory clock : Nat} (hready : Ready P w stack)
    (hthunk : P.admits w.heap thunk) (hv : P.admits w.heap v) :
    (timing thunk calls memory clock v stack w).Obeys P w.heap := by
  cases calls with
  | zero => exact obeys_answer hready (obeys_timed hv memory clock)
  | succ calls => exact obeys_go (hready.push hthunk) ⟨hthunk, by simp⟩

theorem obeys_startTiming {thunk : Value} {calls : Nat} (hready : Ready P w stack)
    (hthunk : P.admits w.heap thunk) : (startTiming thunk calls stack w).Obeys P w.heap := by
  simp only [startTiming]
  generalize w.host.readMemory.2.readClock.2 = host
  have hread : Ready P { w with host } stack := ⟨hready.good, hready.waiting⟩
  exact obeys_timing (w := { w with host }) hread hthunk (P.atom rfl)

theorem obeys_callWithContinuation {receiver : Value} (hready : Ready P w stack)
    (hreceiver : P.admits w.heap receiver) :
    (callWithContinuation receiver stack w).Obeys P w.heap := by
  obtain ⟨hgood, hleads, hk⟩ := P.addContinuation (k := ⟨w.lastToken + 1, .nil, true⟩) hready.good
    (P.atom rfl)
  have hready' : Ready P { w with
      heap := (w.heap.addContinuation ⟨w.lastToken + 1, .nil, true⟩).2
      lastToken := w.lastToken + 1 } stack := hready.change hgood hleads
  refine obeys_jump hleads (hready'.push trivial) ⟨P.mono hleads hreceiver, fun v hv => ?_⟩
  rw [List.mem_singleton.1 hv]
  exact hk

theorem obeys_load {path : String} (hready : Ready P w stack) :
    (load path stack w).Obeys P w.heap := by
  have hwant : Ready P { w with host := w.host.want path } stack := ⟨hready.good, hready.waiting⟩
  simp only [load]
  split
  · exact obeys_answer hwant .fail
  · have hadded : ∀ place bytes, Ready P
        ((({ w with host := w.host.want path } : World).note (.loading path)).addInput
          place bytes).2 stack :=
      fun _ _ => ⟨hready.good, hready.waiting⟩
    exact obeys_go ((hadded _ _).push trivial) (P.atom rfl)

theorem obeys_expandOnce {x : Value} (hready : Ready P w stack) (hx : P.admits w.heap x) :
    (expandOnce x stack w).Obeys P w.heap := by
  unfold expandOnce
  split
  · exact obeys_go (hready.push hx) ⟨Policy.admits_first hready.good hx, P.global hready.good⟩
  · exact obeys_go hready hx

theorem obeys_control {operation : ControlOperation} {vs : List Value} (hready : Ready P w stack)
    (hvs : ∀ v ∈ vs, P.admits w.heap v) : (control operation vs stack w).Obeys P w.heap := by
  have hx := Policy.admits_getD hvs 0
  have hy := Policy.admits_getD hvs 1
  have htail : ∀ v ∈ vs.tail, P.admits w.heap v := fun v hv => hvs v (List.mem_of_mem_tail hv)
  cases operation with
  | apply =>
      have hlast : P.admits w.heap (vs.getLastD .nil) := by
        cases hlast : vs.getLast? with
        | none => simpa [List.getLastD_eq_getLast?, hlast] using P.atom rfl
        | some v => simpa [List.getLastD_eq_getLast?, hlast] using hvs v (List.mem_of_getLast? hlast)
      refine obeys_after hready (World.obeys_elements hlast) fun others w' hready' hleads hothers => ?_
      refine obeys_go hready' ⟨P.mono hleads hx, fun v hv => ?_⟩
      rcases List.mem_append.1 hv with hv | hv
      · exact P.mono hleads (htail v (List.dropLast_subset _ hv))
      · exact hothers v hv
  | map | forEach => exact obeys_mapping hready hx htail (by simp)
  | callWithContinuation => exact obeys_callWithContinuation hready hx
  | force =>
      simp only [control]
      split
      · exact obeys_go hready ⟨hx, by simp⟩
      · exact obeys_go hready hx
  | eval => exact obeys_go hready ⟨hx, P.global hready.good⟩
  | expand => exact obeys_expandOnce hready hx
  | timeCall =>
      have hcalls : Still (if vs.length = 2 then World.index (vs.getD 1 .nil) else pure 1) :=
        still_ite (World.still_index _) (still_pure 1)
      refine obeys_after_still hready hcalls fun calls w' hready' hleads => ?_
      exact obeys_startTiming hready' (P.mono hleads hx)
  | callWithInput =>
      refine obeys_after_still hready (World.still_openInput _) fun port w' hready' hleads => ?_
      exact obeys_go (hready'.push trivial) ⟨P.mono hleads hy, by simpa using P.atom rfl⟩
  | callWithOutput =>
      refine obeys_after_still hready (World.still_openOutput _) fun port w' hready' hleads => ?_
      exact obeys_go (hready'.push trivial) ⟨P.mono hleads hy, by simpa using P.atom rfl⟩
  | load =>
      refine obeys_after_still hready (World.still_textOf _) fun path w' hready' _ => ?_
      exact obeys_load hready'

@[simp] theorem still_checkCount (p : Primitive) (vs : List Value) : Still (checkCount p vs) := by
  unfold checkCount
  cases p.most <;> simp

theorem obeys_throw {h : Heap} {k : Ref .continuation} (hv : P.admits h v) :
    Action.Obeys P.toPolicy h (throw k v) P.admits := by
  intro w hleads hgood
  unfold throw
  simp only
  split
  · exact P.setContinuation (k := { w.heap.continuation k with slot := v }) k hgood
      (P.mono hleads hv)
  · exact ⟨hgood, P.refl _⟩

theorem obeys_apply {procedure : Value} {vs : List Value} (hready : Ready P w stack)
    (hprocedure : P.admits w.heap procedure) (hvs : ∀ v ∈ vs, P.admits w.heap v) :
    (apply procedure vs stack w).Obeys P w.heap := by
  have henter : ∀ ref, P.admits w.heap (.closure ref) →
      let made := w.enter (w.heap.closure ref).parameters vs (w.heap.closure ref).scope
      (go (.eval (w.heap.closure ref).body made.1) stack made.2).Obeys P w.heap := by
    intro ref href made
    obtain ⟨hready', hleads, hcode⟩ := opens_enter hready href hvs
    exact obeys_entered hleads hready' (Or.inl rfl) hcode
  cases procedure with
  | primitive p =>
      refine obeys_after_still hready (still_checkCount p vs) fun _ w' hready' hleads => ?_
      have hvs' : ∀ v ∈ vs, P.admits w'.heap v := fun v hv => P.mono hleads (hvs v hv)
      split
      · exact obeys_answer hready' (DirectOperation.obeys _ hvs')
      · exact obeys_control hready' hvs'
  | closure ref => exact henter ref hprocedure
  | transformer ref => exact henter ref (P.transformer.1 hprocedure)
  | continuation k =>
      refine obeys_answer hready (obeys_throw ?_)
      cases vs with
      | nil => exact P.atom rfl
      | cons v vs => exact hvs v List.mem_cons_self
  | _ => exact obeys_answer hready .failWith

/-! ## Programs and sessions -/

theorem obeys_advance {program : Program} {last : Value} (hready : Ready P w stack)
    (hlast : P.admits w.heap last) : (advance program last stack w).Obeys P w.heap := by
  have hheap : (readProgram program w).2.2.heap = w.heap := by
    cases program <;> rfl
  rw [advance_eq]
  generalize (readProgram program w).2.2 = w' at hheap ⊢
  rw [← hheap] at hlast ⊢
  have hready' : Ready P w' stack := hready.change (hheap ▸ hready.good) (hheap ▸ P.refl _)
  unfold proceed
  split
  · rename_i d _
    obtain ⟨hgood, hleads, hbuilt⟩ := Policy.makes_build hready'.good d
    have hmade : Ready P { w' with heap := (w'.heap.build d).2 } stack :=
      hready'.change hgood hleads
    exact obeys_jump hleads (hmade.push trivial) ⟨hbuilt, P.global hgood⟩
  · exact obeys_go hready' hlast
  · exact obeys_go hready' trivial
  · exact obeys_go hready' trivial

theorem obeys_printAndPrompt {text : String} (hready : Ready P w stack) :
    (printAndPrompt text stack w).Obeys P w.heap :=
  obeys_after_still hready (World.still_writeText _ _) fun _ _ hready' _ => obeys_go hready' trivial

theorem obeys_prompt (hready : Ready P w stack) : (Step.prompt stack w).Obeys P w.heap := by
  refine obeys_after_still hready (World.still_writeText _ _) fun _ w₁ hready₁ _ => ?_
  have hread : Action.Obeys P.toPolicy w₁.heap (World.readDatum .standardInput) P.admits :=
    .after_still (World.still_withReader _ _) World.obeys_receive
  have hread := hread w₁ (P.refl _) hready₁.good
  split
  all_goals
    rename_i hresult
    rw [hresult] at hread
  · exact obeys_jump hread.2.1 (hready₁.change hread.1 hread.2.1) (P.atom rfl)
  · have hready₂ := hready₁.change hread.1 hread.2.1
    refine obeys_jump hread.2.1 (hready₂.push trivial) ⟨hread.2.2, P.global hread.1⟩
  · exact obeys_jump hread.2 (hready₁.change hread.1 hread.2) (P.atom rfl)
  · exact (obeys_printAndPrompt (hready₁.change hread.1 hread.2)).trans hread.2
  · exact ⟨hread.1, hread.2, fun _ hv => by cases hv⟩

theorem obeys_printValue (hready : Ready P w stack) : (printValue v stack w).Obeys P w.heap :=
  obeys_after_still hready (World.still_writeText _ _) fun _ _ hready' _ =>
    obeys_printAndPrompt hready'

/-! ## Pending work -/

theorem Ready.deactivate (hready : Ready P w stack) (k : Ref .continuation) :
    Ready P (w.deactivate k) stack ∧ P.leads w.heap (w.deactivate k).heap := by
  obtain ⟨hgood, hleads⟩ := P.setContinuation (k := { w.heap.continuation k with active := false })
    k hready.good (P.slot k hready.good)
  exact ⟨hready.change hgood hleads, hleads⟩

theorem Ready.closeOutput (hready : Ready P w stack) (port : Ref .outputPort) :
    Ready P (w.closeOutput port) stack := by
  have hheap := World.heap_closeOutput port w
  exact hready.change (hheap ▸ hready.good) (hheap ▸ P.refl _)

theorem obeys_resume (hready : Ready P w stack) (hv : P.admits w.heap v) :
    (Step.resume v stack w).Obeys P w.heap := by
  cases stack with
  | nil =>
      refine ⟨hready.good, P.refl _, fun v' hv' => ?_⟩
      cases hv'
      exact hv
  | cons p stack =>
      replace hready := hready.pop
      obtain ⟨hp, hready⟩ := hready
      cases p with
      | leave =>
          have hready' : Ready P w.leave stack := ⟨hready.good, hready.waiting⟩
          exact obeys_go hready' hv
      | operator site rest scope =>
          obtain ⟨hsite, hrest, hscope⟩ := hp
          cases v with
          | transformer ref => exact obeys_expand hready hsite hv hrest (by simpa using hscope)
          | _ => exact obeys_operands hready hv (by simp) hrest hscope
      | operand procedure evaluated rest all scope =>
          obtain ⟨hprocedure, hevaluated, hrest, hscope⟩ := hp
          exact obeys_operands hready hprocedure (List.forall_mem_cons.2 ⟨hv, hevaluated⟩) hrest
            hscope
      | expansion site transformer scope => exact obeys_replace hready hp.1 hp.2 hv
      | sequence body scope =>
          exact obeys_sequence hready (Policy.admits_rest hready.good hp.1) hp.2
      | assignment name scope => exact obeys_answer hready (World.obeys_assign hp hv)
      | definition name scope => exact obeys_define hready hp hv
      | branch arms scope =>
          have hrest := Policy.admits_rest hready.good hp.1
          have harm : P.admits w.heap
              (if v.isTrue then w.heap.second arms else w.heap.third arms) := by
            split
            · exact Policy.admits_first hready.good hrest
            · exact Policy.admits_first hready.good (Policy.admits_rest hready.good hrest)
          exact obeys_go hready ⟨harm, hp.2⟩
      | clause tried others scope =>
          obtain ⟨htried, hothers, hscope⟩ := hp
          simp only [Step.resume]
          split
          · exact obeys_chosen hready htried hv hscope
          · exact obeys_clauses hready hothers hscope
      | mapping procedure lists results collect =>
          obtain ⟨hprocedure, hlists, hresults⟩ := hp
          refine obeys_mapping hready hprocedure hlists ?_
          split
          · exact List.forall_mem_cons.2 ⟨hv, hresults⟩
          · exact hresults
      | catching k =>
          obtain ⟨hready', hleads⟩ := hready.deactivate k
          exact obeys_jump hleads hready' (P.mono hleads hv)
      | timing thunk calls memory clock => exact obeys_timing hready hp hv
      | closingInput port =>
          have hready' : Ready P (w.closeInput port) stack := ⟨hready.good, hready.waiting⟩
          exact obeys_go hready' hv
      | closingOutput port =>
          have hready' := hready.closeOutput port
          rw [← World.heap_closeOutput port w] at hv ⊢
          exact obeys_go hready' hv
      | expandingHead x =>
          cases v with
          | transformer ref =>
              cases x with
              | pair site =>
                  exact obeys_expand hready hp hv (P.fields hready.good hp).2 (by simp)
              | _ => exact obeys_go hready hp
          | _ => exact obeys_go hready hp
      | program program => exact obeys_go hready hv
      | loaded port =>
          have hready' : Ready P (w.closeInput port) stack := ⟨hready.good, hready.waiting⟩
          exact obeys_go hready' (P.atom rfl)
      | answer => exact obeys_printValue hready

theorem obeys_unwind {f : Fault} (hready : Ready P w stack) :
    (Step.unwind f stack w).Obeys P w.heap := by
  cases stack with
  | nil => exact ⟨hready.good, P.refl _, fun _ hv => by cases hv⟩
  | cons p stack =>
      replace hready := hready.pop.2
      cases p with
      | leave =>
          have hready' : Ready P w.leave stack := ⟨hready.good, hready.waiting⟩
          exact obeys_go hready' trivial
      | catching k =>
          obtain ⟨hready₁, hleads₁⟩ := hready.deactivate k
          cases f with
          | escape token =>
              simp only [Step.unwind]
              split
              · have hslot := P.slot k hready₁.good
                obtain ⟨hgood₂, hleads₂⟩ := P.setContinuation
                  (k := { (w.deactivate k).heap.continuation k with slot := .nil }) k hready₁.good
                  (P.atom rfl)
                have hready₂ : Ready P ((w.deactivate k).takeSlot k).2 stack :=
                  hready₁.change hgood₂ hleads₂
                exact obeys_jump (P.trans hleads₁ hleads₂) hready₂ (P.mono hleads₂ hslot)
              · exact obeys_jump hleads₁ hready₁ trivial
          | _ => exact obeys_jump hleads₁ hready₁ trivial
      | closingInput port | loaded port =>
          have hready' : Ready P (w.closeInput port) stack := ⟨hready.good, hready.waiting⟩
          exact obeys_go hready' trivial
      | closingOutput port =>
          have hready' := hready.closeOutput port
          rw [← World.heap_closeOutput port w]
          exact obeys_go hready' trivial
      | answer =>
          cases f with
          | exit code => exact obeys_go hready trivial
          | _ => exact obeys_printAndPrompt hready
      | _ => exact obeys_go hready trivial

end Step

/-! ## Steps and runs -/

variable {P : MachinePolicy}

/-- Every step keeps to a policy that its state keeps to. -/
theorem State.obeys_step {s : State} (hready : Step.Ready P s.world s.stack)
    (hcontrol : s.control.Admitted P s.world.heap) : s.step.Obeys P s.world.heap := by
  obtain ⟨control, stack, w⟩ := s
  cases control with
  | eval x scope => exact Step.obeys_eval hready hcontrol.1 hcontrol.2
  | reduce x scope => exact Step.obeys_reduce hready hcontrol.1 hcontrol.2
  | apply procedure arguments => exact Step.obeys_apply hready hcontrol.1 hcontrol.2
  | resume v => exact Step.obeys_resume hready hcontrol
  | unwind f => exact Step.obeys_unwind hready
  | advance program last => exact Step.obeys_advance hready hcontrol
  | prompt => exact Step.obeys_prompt hready

/-- So does every run, if there is no code that is not run by others. -/
theorem Step.Obeys.steps (hshared : ∀ h x scope, ¬ P.enters h x scope) {h : Heap} {step : Step}
    (hstep : step.Obeys P h) (n : Nat) : (step.steps n).Obeys P h := by
  induction n with
  | zero => exact hstep
  | succ n ih =>
      rw [steps_succ']
      cases hn : step.steps n with
      | next s =>
          rw [hn] at ih
          obtain ⟨hgood, hleads, hcontrol | ⟨x, scope, -, henters⟩, hstack⟩ := ih
          · exact (State.obeys_step ⟨hgood, hstack⟩ hcontrol).trans hleads
          · exact absurd henters (hshared _ x scope)
      | done outcome w => rwa [hn] at ih

end Scheme
