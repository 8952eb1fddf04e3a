import Scheme.Proofs.Levels
import Scheme.Proofs.Panics
import Scheme.Proofs.ProperLists
/-!
# Escapes

An escape leaves the work between a call of a continuation and the call that captured it. It passes
one piece of pending work after the other, without evaluating anything: levels end, other receivers
are spent, files are closed. The value travels in the slot of the continuation, which nothing else
can fill on the way, and the call that captured the continuation returns it.
-/

namespace Scheme

open Step

/-! ## Passing pending work -/

/-- What a fault does to the world when it passes pending work of any kind. -/
def Pending.passed : Pending → World → World
  | .leave => World.leave
  | .catching k => World.deactivate k
  | p => p.release

/-- The world after a fault has passed the pending work. -/
def World.passing (passed : List Pending) (w : World) : World :=
  passed.foldl (fun w p => p.passed w) w

@[simp] theorem World.passing_cons (p : Pending) (passed : List Pending) (w : World) :
    w.passing (p :: passed) = (p.passed w).passing passed :=
  rfl

theorem World.passing_append (passed more : List Pending) (w : World) :
    w.passing (passed ++ more) = (w.passing passed).passing more :=
  List.foldl_append

/-- The input port that is open as long as the work is pending. -/
def Pending.input? : Pending → Option (Ref .inputPort)
  | .closingInput port | .loaded port => some port
  | _ => none

/-- The output port that is open as long as the work is pending. -/
def Pending.output? : Pending → Option (Ref .outputPort)
  | .closingOutput port => some port
  | _ => none

namespace World

/-- The same data and bindings, and nothing different outside the interpreter. -/
structure SameData (w w' : World) : Prop where
  pairs : w'.heap.pairs = w.heap.pairs
  strings : w'.heap.strings = w.heap.strings
  vectors : w'.heap.vectors = w.heap.vectors
  scopes : w'.heap.scopes = w.heap.scopes
  closures : w'.heap.closures = w.heap.closures
  host : w'.host = w.host
  lastToken : w'.lastToken = w.lastToken
  maxDepth : w'.maxDepth = w.maxDepth
  tracing : w'.tracing = w.tracing

theorem SameData.refl (w : World) : w.SameData w :=
  ⟨rfl, rfl, rfl, rfl, rfl, rfl, rfl, rfl, rfl⟩

theorem SameData.trans {w₁ w₂ w₃ : World} (h : w₁.SameData w₂) (h' : w₂.SameData w₃) :
    w₁.SameData w₃ where
  pairs := h'.pairs.trans h.pairs
  strings := h'.strings.trans h.strings
  vectors := h'.vectors.trans h.vectors
  scopes := h'.scopes.trans h.scopes
  closures := h'.closures.trans h.closures
  host := h'.host.trans h.host
  lastToken := h'.lastToken.trans h.lastToken
  maxDepth := h'.maxDepth.trans h.maxDepth
  tracing := h'.tracing.trans h.tracing

/-- The second world is the first one without the extents of the pending work: its receivers are
spent, its files are closed and its levels have ended. -/
structure Unwound (passed : List Pending) (w w' : World) : Prop where
  data : w.SameData w'
  continuation : ∀ k, w'.heap.continuation k =
    if k ∈ receivers passed then { w.heap.continuation k with active := false }
    else w.heap.continuation k
  closedInput : ∀ port, (∃ p ∈ passed, p.input? = some port) → (w'.reader port).isClosed = true
  input : ∀ port, (∀ p ∈ passed, p.input? ≠ some port) → w'.reader port = w.reader port
  closedOutput : ∀ port, (∃ p ∈ passed, p.output? = some port) → w'.sink port = none
  output : ∀ port, (∀ p ∈ passed, p.output? ≠ some port) → w'.sink port = w.sink port
  followers : w'.followers = w.followers.filter fun f => ∀ p ∈ passed, p.input? ≠ some f.port
  depth : w'.depth = w.depth - levels passed
  /-- A file that cannot be closed in order leaves an entry. -/
  log : ∃ reasons : List String, w'.log = w.log ++ (reasons.map Entry.flushFailed).toArray

theorem Unwound.nil (w : World) : w.Unwound [] w where
  data := .refl w
  continuation k := by simp [receivers]
  closedInput := by simp
  input := by simp
  closedOutput := by simp
  output := by simp
  followers := by simp
  depth := by simp [levels]
  log := ⟨[], by simp⟩

theorem Unwound.trans {passed more : List Pending} {w₁ w₂ w₃ : World} (h : w₁.Unwound passed w₂)
    (h' : w₂.Unwound more w₃) : w₁.Unwound (passed ++ more) w₃ where
  data := h.data.trans h'.data
  continuation k := by
    rw [h'.continuation, h.continuation, receivers_append]
    by_cases hk : k ∈ receivers passed <;> by_cases hk' : k ∈ receivers more <;> simp [hk, hk']
  closedInput port hport := by
    by_cases hmore : ∃ p ∈ more, p.input? = some port
    · exact h'.closedInput port hmore
    · rw [h'.input port fun p hp heq => hmore ⟨p, hp, heq⟩]
      obtain ⟨p, hp, heq⟩ := hport
      rcases List.mem_append.1 hp with hp | hp
      · exact h.closedInput port ⟨p, hp, heq⟩
      · exact absurd ⟨p, hp, heq⟩ hmore
  input port hport := by
    rw [h'.input port fun p hp => hport p (by simp [hp]),
      h.input port fun p hp => hport p (by simp [hp])]
  closedOutput port hport := by
    by_cases hmore : ∃ p ∈ more, p.output? = some port
    · exact h'.closedOutput port hmore
    · rw [h'.output port fun p hp heq => hmore ⟨p, hp, heq⟩]
      obtain ⟨p, hp, heq⟩ := hport
      rcases List.mem_append.1 hp with hp | hp
      · exact h.closedOutput port ⟨p, hp, heq⟩
      · exact absurd ⟨p, hp, heq⟩ hmore
  output port hport := by
    rw [h'.output port fun p hp => hport p (by simp [hp]),
      h.output port fun p hp => hport p (by simp [hp])]
  followers := by
    rw [h'.followers, h.followers, List.filter_filter]
    congr 1
    funext f
    simp only [List.mem_append, ← Bool.decide_and, or_imp, forall_and, and_comm]
  depth := by
    rw [h'.depth, h.depth, levels_append, Nat.sub_sub]
  log := by
    obtain ⟨reasons, hlog⟩ := h.log
    obtain ⟨reasons', hlog'⟩ := h'.log
    exact ⟨reasons ++ reasons', by simp [hlog', hlog]⟩

/-- Work that keeps no port open changes nothing about ports and the log. -/
theorem unwound_of_no_port {p : Pending} {w w' : World} (hinput : p.input? = none)
    (houtput : p.output? = none) (hinputs : w'.inputs = w.inputs)
    (houtputs : w'.outputs = w.outputs) (hfollowers : w'.followers = w.followers)
    (hlog : w'.log = w.log) (hdata : w.SameData w')
    (hcontinuation : ∀ k, w'.heap.continuation k =
      if k ∈ receivers [p] then { w.heap.continuation k with active := false }
      else w.heap.continuation k)
    (hdepth : w'.depth = w.depth - levels [p]) : w.Unwound [p] w' where
  data := hdata
  continuation := hcontinuation
  closedInput := by simp [hinput]
  input port _ := by rw [reader, reader, hinputs]
  closedOutput := by simp [houtput]
  output port _ := by rw [sink, sink, houtputs]
  followers := by simp [hinput, hfollowers]
  depth := hdepth
  log := ⟨[], by simp [hlog]⟩

theorem unwound_deactivate (k : Ref .continuation) (w : World) :
    w.Unwound [.catching k] (w.deactivate k) := by
  refine unwound_of_no_port rfl rfl rfl rfl rfl rfl ⟨rfl, rfl, rfl, rfl, rfl, rfl, rfl, rfl, rfl⟩
    (fun k' => ?_) rfl
  by_cases hk : k' = k
  · subst hk
    rcases Nat.lt_or_ge k'.index w.heap.continuations.size with hlt | hge
    · simp [receivers, deactivate, Heap.continuation_setContinuation_self hlt]
    · simp [receivers, deactivate, Heap.setContinuation_of_size_le hge,
        Heap.continuation_of_size_le hge]
  · simp [receivers, hk, continuation_deactivate_of_ne hk]

theorem unwound_closeInput {p : Pending} {port : Ref .inputPort}
    (hp : p = .closingInput port ∨ p = .loaded port) (w : World) :
    w.Unwound [p] (w.closeInput port) := by
  have hinput : p.input? = some port := by rcases hp with rfl | rfl <;> rfl
  have houtput : p.output? = none := by rcases hp with rfl | rfl <;> rfl
  have hplain : ∀ q ∈ [p], q.isPlain = true := by
    rcases hp with rfl | rfl <;> simp [Pending.isPlain]
  constructor
  · exact ⟨rfl, rfl, rfl, rfl, rfl, rfl, rfl, rfl, rfl⟩
  · intro k
    simp [receivers_of_isPlain hplain, closeInput]
  · intro other hother
    obtain rfl : port = other := by simpa [hinput] using hother
    simp only [reader, closeInput, Array.getElem?_modify, if_true]
    cases w.inputs[port.index]? <;> rfl
  · intro other hother
    have hne : port ≠ other := by simpa [hinput] using hother
    have hindex : port.index ≠ other.index := fun heq => hne (Ref.eq_of_index heq)
    simp [reader, closeInput, Array.getElem?_modify, hindex]
  · simp [houtput]
  · exact fun _ _ => rfl
  · simp [closeInput, hinput, eq_comm]
  · simp [levels_of_isPlain hplain, closeInput]
  · exact ⟨[], by simp [closeInput]⟩

theorem Unwound.noting {passed : List Pending} {w w' : World} (h : w.Unwound passed w')
    (reason : String) : w.Unwound passed (w'.note (.flushFailed reason)) := by
  obtain ⟨reasons, hlog⟩ := h.log
  refine { h with
    data := h.data.trans ⟨rfl, rfl, rfl, rfl, rfl, rfl, rfl, rfl, rfl⟩
    log := ⟨reasons ++ [reason], ?_⟩ }
  simp [note, hlog]

theorem unwound_closeOutput (port : Ref .outputPort) (w : World) :
    w.Unwound [.closingOutput port] (w.closeOutput port) := by
  have hclosed : w.Unwound [.closingOutput port]
      { w with outputs := w.outputs.setIfInBounds port.index none } := by
    constructor
    · exact ⟨rfl, rfl, rfl, rfl, rfl, rfl, rfl, rfl, rfl⟩
    · simp [receivers]
    · simp [Pending.input?]
    · exact fun _ _ => rfl
    · intro other hother
      obtain rfl : port = other := by simpa [Pending.output?] using hother
      simp only [sink, Array.getElem?_setIfInBounds, if_true]
      split <;> rfl
    · intro other hother
      have hne : port ≠ other := by simpa [Pending.output?] using hother
      have hindex : port.index ≠ other.index := fun heq => hne (Ref.eq_of_index heq)
      simp [sink, hindex]
    · simp [Pending.input?]
    · rfl
    · exact ⟨[], by simp⟩
  unfold closeOutput
  cases hsink : w.sink port with
  | none =>
      refine { hclosed with data := .refl w, closedOutput := ?_, output := fun _ _ => rfl }
      intro other hother
      obtain rfl : port = other := by simpa [Pending.output?] using hother
      exact hsink
  | some sink =>
      simp only
      split
      · exact hclosed
      · exact hclosed.noting _

/-- What passing one piece of work does to the world. -/
theorem unwound_passed {p : Pending} (hp : p ≠ .answer) (w : World) :
    w.Unwound [p] (p.passed w) := by
  cases p with
  | leave =>
      exact unwound_of_no_port rfl rfl rfl rfl rfl rfl
        ⟨rfl, rfl, rfl, rfl, rfl, rfl, rfl, rfl, rfl⟩ (fun k => by simp [receivers]; rfl) rfl
  | catching k => exact unwound_deactivate k w
  | closingInput port => exact unwound_closeInput (Or.inl rfl) w
  | loaded port => exact unwound_closeInput (Or.inr rfl) w
  | closingOutput port => exact unwound_closeOutput port w
  | answer => exact absurd rfl hp
  | _ =>
      exact unwound_of_no_port rfl rfl rfl rfl rfl rfl (.refl w) (fun k => by simp [receivers]; rfl)
        rfl

/-- What passing pending work does to the world. -/
theorem unwound_passing {passed : List Pending} (hanswer : .answer ∉ passed) (w : World) :
    w.Unwound passed (w.passing passed) := by
  induction passed generalizing w with
  | nil => exact .nil w
  | cons p passed ih =>
      have hp : p ≠ .answer := fun heq => hanswer (by simp [heq])
      exact (unwound_passed hp w).trans (ih (fun hmem => hanswer (by simp [hmem])) _)

end World

/-! ## The way of an escape -/

/-- A fault passes work that is neither its receiver nor a session. -/
theorem Step.unwind_passed {p : Pending} {w : World} {f : Fault} (hanswer : p ≠ .answer)
    (hreceiver : ∀ k, p = .catching k → f ≠ .escape (w.heap.continuation k).token)
    (stack : List Pending) : Step.unwind f (p :: stack) w = go (.unwind f) stack (p.passed w) := by
  cases p with
  | answer => exact absurd rfl hanswer
  | catching k =>
      have hne := hreceiver k rfl
      cases f with
      | escape token =>
          have htoken : token ≠ (w.heap.continuation k).token := fun heq => hne (by rw [heq])
          simp [Step.unwind, w.token_deactivate k, htoken, Pending.passed]
      | _ => rfl
  | _ => rfl

/-- An escape arrives at its receiver. -/
theorem Step.unwind_received (k : Ref .continuation) (stack : List Pending) (w : World) :
    Step.unwind (.escape (w.heap.continuation k).token) (.catching k :: stack) w =
      go (.resume ((w.deactivate k).takeSlot k).1) stack ((w.deactivate k).takeSlot k).2 := by
  simp [Step.unwind, w.token_deactivate k]

theorem World.token_passed {p : Pending} (hp : p ≠ .answer) (w : World) (k : Ref .continuation) :
    ((p.passed w).heap.continuation k).token = (w.heap.continuation k).token := by
  rw [(w.unwound_passed hp).continuation]
  split <;> rfl

/-- An escape on its way past work in which it has no receiver. -/
theorem Step.steps_unwind {token : Nat} {above : List Pending} (hanswer : .answer ∉ above)
    {w : World} (hreceiver : ∀ k ∈ receivers above, (w.heap.continuation k).token ≠ token)
    (rest : List Pending) {i : Nat} (hi : i ≤ above.length) :
    (go (.unwind (.escape token)) (above ++ rest) w).steps i =
      go (.unwind (.escape token)) (above.drop i ++ rest) (w.passing (above.take i)) := by
  induction above generalizing w i with
  | nil =>
      obtain rfl : i = 0 := by simpa using hi
      rfl
  | cons p above ih =>
      cases i with
      | zero => rfl
      | succ i =>
          have hp : p ≠ .answer := fun heq => hanswer (by simp [heq])
          have hpass : State.step ⟨.unwind (.escape token), p :: (above ++ rest), w⟩ =
              go (.unwind (.escape token)) (above ++ rest) (p.passed w) := by
            refine Step.unwind_passed hp ?_ _
            rintro k rfl heq
            exact hreceiver k (by simp [receivers]) (Fault.escape.inj heq).symm
          rw [List.cons_append, go, steps_next, hpass]
          refine ih (fun hmem => hanswer (by simp [hmem])) ?_ (by simpa using hi)
          intro k hk
          rw [World.token_passed hp]
          refine hreceiver k ?_
          rw [show p :: above = [p] ++ above from rfl, receivers_append]
          exact List.mem_append_right _ hk

/-! ## Values on their way -/

theorem Heap.setContinuation_comm {k k' : Ref .continuation} (hne : k' ≠ k) (h : Heap)
    (c c' : Continuation) : (h.setContinuation k c).setContinuation k' c' =
      (h.setContinuation k' c').setContinuation k c := by
  have hindex : k.index ≠ k'.index := fun heq => hne (Ref.eq_of_index heq.symm)
  simp only [setContinuation, Array.setIfInBounds_comm _ _ hindex]

theorem Heap.setContinuation_setContinuation (h : Heap) (k : Ref .continuation)
    (c c' : Continuation) :
    (h.setContinuation k c).setContinuation k c' = h.setContinuation k c' := by
  simp only [setContinuation, Array.setIfInBounds_setIfInBounds]

namespace World

variable {k : Ref .continuation}

theorem deactivate_putSlot {k' : Ref .continuation} (hne : k' ≠ k) (v : Value) (w : World) :
    (w.putSlot k v).deactivate k' = (w.deactivate k').putSlot k v := by
  simp only [deactivate, putSlot, Heap.continuation_setContinuation_of_ne hne,
    Heap.continuation_setContinuation_of_ne hne.symm, Heap.setContinuation_comm hne]

theorem passed_putSlot {p : Pending} (hp : p ≠ .catching k) (v : Value) (w : World) :
    p.passed (w.putSlot k v) = (p.passed w).putSlot k v := by
  cases p with
  | catching k' => exact deactivate_putSlot (fun heq => hp (by rw [heq])) v w
  | closingOutput port =>
      simp only [Pending.passed, Pending.release, closeOutput]
      rw [show (w.putSlot k v).sink port = w.sink port from rfl]
      cases w.sink port with
      | none => rfl
      | some sink =>
          simp only [show (w.putSlot k v).host = w.host from rfl]
          cases w.host.flush sink <;> rfl
  | _ => rfl

/-- A value on its way passes pending work with the escape. -/
theorem passing_putSlot {passed : List Pending} (hk : k ∉ receivers passed) (v : Value)
    (w : World) : (w.putSlot k v).passing passed = (w.passing passed).putSlot k v := by
  induction passed generalizing w with
  | nil => rfl
  | cons p passed ih =>
      rw [show p :: passed = [p] ++ passed from rfl, receivers_append, List.mem_append, not_or,
        mem_receivers, List.mem_singleton] at hk
      rw [passing_cons, passed_putSlot (Ne.symm hk.1), ih hk.2, passing_cons]

/-- The receiver takes the value that was sent, and only the end of its extent remains. -/
theorem takeSlot_putSlot {w : World} (hk : k.index < w.heap.continuations.size)
    (hslot : (w.heap.continuation k).slot = .nil) (v : Value) :
    ((w.putSlot k v).deactivate k).takeSlot k = (v, w.deactivate k) := by
  simp only [takeSlot, deactivate, putSlot, Heap.continuation_setContinuation_self hk,
    Heap.setContinuation_setContinuation, ← hslot]

theorem slot_deactivate (k k' : Ref .continuation) (w : World) :
    ((w.deactivate k).heap.continuation k').slot = (w.heap.continuation k').slot := by
  rw [(w.unwound_deactivate k).continuation]
  split <;> rfl

theorem slot_takeSlot (k k' : Ref .continuation) (w : World) :
    ((w.takeSlot k).2.heap.continuation k').slot =
      if k' = k then .nil else (w.heap.continuation k').slot := by
  split
  · rename_i heq
    subst heq
    rcases Nat.lt_or_ge k'.index w.heap.continuations.size with hlt | hge
    · simp [takeSlot, Heap.continuation_setContinuation_self hlt]
    · simp [takeSlot, Heap.setContinuation_of_size_le hge, Heap.continuation_of_size_le hge]
  · rename_i hne
    simp [takeSlot, Heap.continuation_setContinuation_of_ne hne]

/-- No value is on its way. -/
def Emptied (w : World) : Prop :=
  ∀ k, (w.heap.continuation k).slot = .nil

theorem SameTokens.emptied {w w' : World} (h : w.SameTokens w') (hw : w.Emptied) : w'.Emptied := by
  intro k
  rw [h.continuation k]
  exact hw k

end World

/-- A value is on its way to a receiver only while an escape to it is. -/
def State.Posted (s : State) : Prop :=
  ∀ k, (s.world.heap.continuation k).slot ≠ .nil →
    s.control = .unwind (.escape (s.world.heap.continuation k).token) ∧ k ∈ receivers s.stack

namespace State

theorem Posted.of_emptied {s : State} (h : s.world.Emptied) : s.Posted :=
  fun k hk => absurd (h k) hk

theorem Posted.emptied {s : State} (h : s.Posted)
    (hcontrol : ∀ token, s.control ≠ .unwind (.escape token)) : s.world.Emptied := by
  intro k
  by_contra hk
  exact hcontrol _ (h k hk).1

/-- A step while no escape is under way. -/
theorem Posted.step_of_emptied {s s' : State} (hs : s.Sound) (hempty : s.world.Emptied)
    (hnext : s.step = .next s') : s'.Posted := by
  have hmoves := s.moves_step
  rw [hnext] at hmoves
  generalize hstep : Step.next s' = step at hmoves
  cases hmoves with
  | @plain control popped stack w step hpopped hleads
  | @session control popped stack w step hpopped hleads =>
      cases step with
      | next s₀ =>
          obtain rfl := Step.next.inj hstep
          exact .of_emptied (hleads.2.emptied hempty)
      | done outcome w' => cases hstep
  | value v w => cases hstep
  | fault f w => cases hstep
  | @pass f p stack w hp =>
      obtain rfl := Step.next.inj hstep
      exact .of_emptied (((plainChange_release p).sameTokens w).emptied hempty)
  | @enter x scope stack w hdepth | @leave control stack w hcontrol
  | @refuse x scope stack w hdepth =>
      obtain rfl := Step.next.inj hstep
      exact .of_emptied (World.SameTokens.emptied ⟨rfl, rfl⟩ hempty)
  | capture control receiver stack w =>
      obtain rfl := Step.next.inj hstep
      refine .of_emptied fun k => ?_
      have hadd := w.heap.continuation_addContinuation ⟨w.lastToken + 1, .nil, true⟩ k
      refine (congrArg Continuation.slot hadd).trans ?_
      split
      · rfl
      · exact hempty k
  | @throw control k v stack w hactive =>
      obtain rfl := Step.next.inj hstep
      intro k' hk'
      obtain rfl : k' = k := by
        by_contra hne
        refine hk' ?_
        simp only [World.putSlot, Heap.continuation_setContinuation_of_ne hne]
        exact hempty k'
      exact ⟨by simp only [w.token_putSlot], (hs.active k').1 hactive⟩
  | deliver v k stack w =>
      obtain rfl := Step.next.inj hstep
      exact .of_emptied fun k' => (w.slot_deactivate k k').trans (hempty k')
  | receive k stack w =>
      obtain rfl := Step.next.inj hstep
      refine .of_emptied fun k' => ?_
      rw [World.slot_takeSlot, w.slot_deactivate, hempty k', ite_self]
  | @forward f k stack w hf =>
      obtain rfl := Step.next.inj hstep
      exact .of_emptied fun k' => (w.slot_deactivate k k').trans (hempty k')

/-- A step of an escape takes the value along or hands it over. -/
theorem Posted.step_of_escape {token : Nat} {stack : List Pending} {w : World} {s' : State}
    (hs : Sound ⟨.unwind (.escape token), stack, w⟩)
    (hposted : Posted ⟨.unwind (.escape token), stack, w⟩)
    (hnext : Step.unwind (.escape token) stack w = .next s') : s'.Posted := by
  obtain ⟨target, htarget, -⟩ := hs.target token rfl
  cases stack with
  | nil => simp [receivers] at htarget
  | cons p stack =>
      have hanswer : p ≠ .answer := by
        rintro rfl
        rw [hs.nil_of_answer] at htarget
        simp [receivers] at htarget
      by_cases hreceiver : ∃ k, p = .catching k ∧ (w.heap.continuation k).token = token
      · obtain ⟨k, rfl, rfl⟩ := hreceiver
        rw [Step.unwind_received] at hnext
        obtain rfl := Step.next.inj hnext
        refine .of_emptied fun k' => ?_
        rw [World.slot_takeSlot, w.slot_deactivate]
        split
        · rfl
        · -- Another value on its way would go to the same receiver.
          rename_i hne
          by_contra hslot
          obtain ⟨hcontrol, hk'⟩ := hposted k' hslot
          refine hne (hs.distinct k' hk' k (by simp [receivers]) ?_)
          exact (Fault.escape.inj (Control.unwind.inj hcontrol)).symm
      · rw [Step.unwind_passed hanswer fun k hk heq =>
          hreceiver ⟨k, hk, (Fault.escape.inj heq).symm⟩] at hnext
        obtain rfl := Step.next.inj hnext
        intro k' hslot
        have hsame : ((p.passed w).heap.continuation k').slot = (w.heap.continuation k').slot := by
          rw [(w.unwound_passed hanswer).continuation]
          split <;> rfl
        obtain ⟨hcontrol, hk'⟩ := hposted k' (hsame ▸ hslot)
        refine ⟨by rw [World.token_passed hanswer]; exact hcontrol, ?_⟩
        rw [mem_receivers, List.mem_cons] at hk'
        rcases hk' with heq | hmem
        · have htoken := Fault.escape.inj (Control.unwind.inj hcontrol)
          exact absurd ⟨k', heq.symm, htoken.symm⟩ hreceiver
        · exact mem_receivers.2 hmem

theorem Posted.step {s s' : State} (hs : s.Sound) (hposted : s.Posted)
    (hnext : s.step = .next s') : s'.Posted := by
  by_cases hescape : ∃ token, s.control = .unwind (.escape token)
  · obtain ⟨token, hcontrol⟩ := hescape
    obtain ⟨control, stack, w⟩ := s
    cases hcontrol
    exact Posted.step_of_escape hs hposted hnext
  · have hempty := hposted.emptied fun token hcontrol => hescape ⟨token, hcontrol⟩
    exact .step_of_emptied hs hempty hnext

theorem Posted.steps {s s' : State} (hs : s.Sound) (hposted : s.Posted) (n : Nat)
    (hrun : (Step.next s).steps n = .next s') : s'.Posted := by
  induction n generalizing s with
  | zero =>
      obtain rfl := Step.next.inj hrun
      exact hposted
  | succ n ih =>
      rw [Step.steps_next] at hrun
      cases hnext : s.step with
      | next s₁ =>
          rw [hnext] at hrun
          exact ih (hs.step hnext) (hposted.step hs hnext) hrun
      | done outcome w =>
          rw [hnext, Step.steps_done] at hrun
          cases hrun

end State

/-! ### Between requests -/

/-- What has stopped has stopped at once, or by a last step. -/
theorem Step.exists_last {step : Step} {n : Nat} {outcome : Outcome} {w : World}
    (h : step.steps n = .done outcome w) :
    step = .done outcome w ∨ ∃ m s, step.steps m = .next s ∧ s.step = .done outcome w := by
  induction n with
  | zero => exact Or.inl h
  | succ n ih =>
      rw [steps_succ'] at h
      cases hlast : step.steps n with
      | next s =>
          rw [hlast] at h
          exact Or.inr ⟨n, s, hlast, h⟩
      | done outcome' w' =>
          rw [hlast] at h
          cases h
          exact ih hlast

namespace Request

theorem sameTokens_start (request : Request) {w : World} {s : State}
    (hstart : request.start w = .next s) : w.SameTokens s.world ∧ receivers s.stack = [] := by
  have hplain : ∀ {code : List Pending → World → Step}, Plain code → code [] w = .next s →
      w.SameTokens s.world ∧ receivers s.stack = [] := by
    intro code hcode hnext
    have hleads := hcode.leads w
    rw [hnext] at hleads
    exact ⟨hleads.2, receivers_of_isPlain hleads.1.2⟩
  cases request with
  | load path => exact hplain (plain_load path) hstart
  | expandOnce x => exact hplain (plain_expandOnce x) hstart
  | _ =>
      obtain rfl := Step.next.inj hstart
      exact ⟨.refl w, rfl⟩

/-- The run of a request from a world in which no value is on its way. -/
theorem posted_of_emptied (request : Request) {w : World} (hw : w.Settled) (hempty : w.Emptied)
    {n : Nat} {s : State} (hrun : (request.start w).steps n = .next s) : s.Posted := by
  obtain ⟨s₀, hstart⟩ := steps_eq_next_of_le (Nat.zero_le n) hrun
  rw [steps_zero] at hstart
  rw [hstart] at hrun
  have hposted : s₀.Posted := .of_emptied ((request.sameTokens_start hstart).1.emptied hempty)
  exact hposted.steps (request.sound_start hw hstart).1 n hrun

theorem emptied_of_done (request : Request) {w w' : World} (hw : w.Settled) (hempty : w.Emptied)
    {n : Nat} {outcome : Outcome} (hrun : (request.start w).steps n = .done outcome w')
    (htrap : outcome.isTrap = false) : w'.Emptied := by
  rcases Step.exists_last hrun with hstart | ⟨m, s, hs, hdone⟩
  · simp [request.start_done hstart] at htrap
  · have hposted := request.posted_of_emptied hw hempty hs
    have hlast : s.world = w' ∧ s.stack = [] := by
      rcases State.done_cases hdone with heq | ⟨v, -, rfl⟩ | ⟨f, -, rfl⟩
      · simp [heq] at htrap
      · exact ⟨rfl, rfl⟩
      · exact ⟨rfl, rfl⟩
    intro k
    by_contra hslot
    have hk := (hposted k (by rwa [hlast.1])).2
    simp [hlast.2, receivers] at hk

end Request

/-- Between requests no value is on its way. -/
theorem World.Reachable.emptied {w : World} (hw : w.Reachable) : w.Emptied := by
  induction hw with
  | bare host => exact fun _ => rfl
  | @new host v w hprelude =>
      have hanswer : (Request.interpret Prelude.text).answer (.bare World.nowhere) =
          (.value v, w) := hprelude
      have hend := Request.ends_of_answer hanswer (by simp)
      have hempty : w.Emptied :=
        Request.emptied_of_done _ (World.settled_bare _) (fun _ => rfl) hend rfl
      intro k
      rw [World.heap_new host hprelude]
      exact hempty k
  | answer request hw hanswer htrap hfinished ih =>
      exact request.emptied_of_done hw.settled ih (Request.ends_of_answer hanswer hfinished) htrap
  | change hw hchange ih => exact hchange.emptied ih

/-! ## Where a continuation was captured -/

/-- A call that captures the continuation begins after `m` steps, with the work that waits below it,
and is under way at all moments from then on up to the one after `n` steps. -/
structure Step.Captures (start : Step) (k : Ref .continuation) (below : List Pending)
    (m n : Nat) : Prop where
  earlier : m < n
  capture : ∃ s receiver, start.steps m = .next s ∧
    s.step = callWithContinuation receiver below s.world ∧
      k = ⟨s.world.heap.continuations.size⟩
  since : ∀ i, m < i → i ≤ n → ∃ s, start.steps i = .next s ∧ .catching k :: below <:+ s.stack

theorem suffix_of_not_mem {α : Type} {a : α} {tail pushed stack : List α} (ha : a ∉ pushed)
    (h : a :: tail <:+ pushed ++ stack) : a :: tail <:+ stack := by
  obtain ⟨before, heq⟩ := h
  obtain ⟨more, hpushed, htail⟩ | ⟨more, -, hstack⟩ := List.append_eq_append_iff.1 heq
  · cases more with
    | nil => exact ⟨[], by simpa using htail⟩
    | cons b more =>
        rw [List.cons_append, List.cons.injEq] at htail
        exact absurd (by simp [hpushed, htail.1]) ha
  · exact ⟨more, hstack.symm⟩

/-- Receivers on the stack after a step were there before it, or it is the step that captures. -/
theorem State.step_receiver {s s' : State} (hnext : s.step = .next s') {k : Ref .continuation}
    {below : List Pending} (hk : .catching k :: below <:+ s'.stack) :
    .catching k :: below <:+ s.stack ∨
      ∃ receiver, s.step = callWithContinuation receiver below s.world ∧
        k = ⟨s.world.heap.continuations.size⟩ := by
  have hmoves := s.moves_step
  rw [hnext] at hmoves
  generalize hstep : Step.next s' = step at hmoves
  have hshift : ∀ (popped pushed : List Pending) {stack : List Pending}, .catching k ∉ pushed →
      s.stack = popped ++ stack → s'.stack = pushed ++ stack →
      .catching k :: below <:+ s.stack := by
    intro popped pushed stack hpushed hs hs'
    rw [hs'] at hk
    rw [hs]
    exact (suffix_of_not_mem hpushed hk).trans (List.suffix_append popped stack)
  cases hmoves with
  | @plain control popped stack w step hpopped hleads =>
      cases step with
      | next s₀ =>
          obtain rfl := Step.next.inj hstep
          refine Or.inl (hshift popped _ (fun hmem => ?_) rfl rfl)
          simpa [Pending.isPlain] using hleads.1.2 _ hmem
      | done outcome w' => cases hstep
  | @session control popped stack w step hpopped hleads =>
      cases step with
      | next s₀ =>
          obtain rfl := Step.next.inj hstep
          refine Or.inl (hshift popped _ (fun hmem => ?_) rfl rfl)
          rcases hleads.1 with hplainly | ⟨-, hpushed⟩ | ⟨-, hpushed⟩
          · simpa [Pending.isPlain] using hplainly.2 _ hmem
          · simp [hpushed] at hmem
          · simp [hpushed] at hmem
      | done outcome w' => cases hstep
  | value v w => cases hstep
  | fault f w => cases hstep
  | @pass f p stack w hp =>
      obtain rfl := Step.next.inj hstep
      exact Or.inl (hshift [p] [] (by simp) rfl rfl)
  | @enter x scope stack w hdepth =>
      obtain rfl := Step.next.inj hstep
      exact Or.inl (hshift [] [.leave] (by simp) rfl rfl)
  | @refuse x scope stack w hdepth | @throw control k' v stack w hactive =>
      obtain rfl := Step.next.inj hstep
      exact Or.inl hk
  | @leave control stack w hcontrol =>
      obtain rfl := Step.next.inj hstep
      exact Or.inl (hshift [.leave] [] (by simp) rfl rfl)
  | @deliver v k' stack w | @receive k' stack w | @forward f k' stack w hf =>
      obtain rfl := Step.next.inj hstep
      exact Or.inl (hshift [.catching k'] [] (by simp) rfl rfl)
  | capture control receiver stack w =>
      rw [hstep] at hnext
      obtain rfl := Step.next.inj hstep
      rcases List.suffix_cons_iff.1 hk with heq | hbelow
      · obtain ⟨hsame, rfl⟩ := List.cons.inj heq
        exact Or.inr ⟨receiver, hnext, Pending.catching.inj hsame⟩
      · exact Or.inl hbelow

/-- Every receiver on the stack waits for a call that began earlier in the run. -/
theorem Step.exists_captures {start : Step}
    (hstart : ∀ s, start = .next s → receivers s.stack = []) {n : Nat} {s : State}
    (hrun : start.steps n = .next s) {k : Ref .continuation} {below : List Pending}
    (hk : .catching k :: below <:+ s.stack) : ∃ m, start.Captures k below m n := by
  induction n generalizing s with
  | zero =>
      have hmem := mem_receivers.2 (hk.subset (List.mem_cons_self ..))
      simp [hstart s hrun] at hmem
  | succ n ih =>
      obtain ⟨s₁, hs₁⟩ := steps_eq_next_of_le (Nat.le_succ n) hrun
      have hnext : s₁.step = .next s := by rwa [steps_succ', hs₁] at hrun
      rcases State.step_receiver hnext hk with hbefore | ⟨receiver, hcapture, hfresh⟩
      · obtain ⟨m, hcaptures⟩ := ih hs₁ hbefore
        refine ⟨m, Nat.lt_succ_of_lt hcaptures.earlier, hcaptures.capture, fun i hmi hi => ?_⟩
        rcases Nat.lt_or_eq_of_le hi with hlt | rfl
        · exact hcaptures.since i hmi (Nat.le_of_lt_succ hlt)
        · exact ⟨s, hrun, hk⟩
      · refine ⟨n, Nat.lt_succ_self n, ⟨s₁, receiver, hs₁, hcapture, hfresh⟩, fun i hni hi => ?_⟩
        obtain rfl : i = n + 1 := by omega
        exact ⟨s, hrun, hk⟩

/-! ## Invocations -/

/-- The machine is about to invoke the continuation with the arguments: in a call whose last operand
has its value, through `apply`, `map`, `for-each` or `force`, or in whatever other way it comes to
apply it. -/
inductive State.Invokes (k : Ref .continuation) : List Value → State → Prop where
  | applied (arguments : List Value) (stack : List Pending) (w : World) :
      Invokes k arguments ⟨.apply (.continuation k) arguments, stack, w⟩
  | call (evaluated : List Value) (v all : Value) (scope : Ref .scope) (stack : List Pending)
      (w : World) : Invokes k (evaluated.reverse ++ [v])
        ⟨.resume v, .operand (.continuation k) evaluated .nil all scope :: stack, w⟩
  | callWithout (site : Ref .pair) (scope : Ref .scope) (stack : List Pending) (w : World) :
      Invokes k [] ⟨.resume (.continuation k), .operator site .nil scope :: stack, w⟩
  | apply {p : Primitive} (hp : p.operation = .control .apply) {others xs : List Value}
      {last : Value} {w : World}
      (htakes : p.takes (.continuation k :: (others ++ [last])).length = true)
      (hlast : w.heap.Lists last xs) (stack : List Pending) : Invokes k (others ++ xs)
        ⟨.apply (.primitive p) (.continuation k :: (others ++ [last])), stack, w⟩
  | mapping {p : Primitive} (hp : p.operation = .control .map ∨ p.operation = .control .forEach)
      {lists : List Value} (htakes : p.takes (.continuation k :: lists).length = true)
      (hlists : lists ≠ []) (hpairs : ∀ v ∈ lists, v.isPair = true) (stack : List Pending)
      (w : World) : Invokes k (lists.map w.heap.first)
        ⟨.apply (.primitive p) (.continuation k :: lists), stack, w⟩
  | force {p : Primitive} (hp : p.operation = .control .force) (htakes : p.takes 1 = true)
      (stack : List Pending) (w : World) :
      Invokes k [] ⟨.apply (.primitive p) [.continuation k], stack, w⟩

/-- Whichever way it is, after a step at most the continuation is applied, in the same world. -/
theorem State.Invokes.steps {k : Ref .continuation} {arguments : List Value} {s : State}
    (h : s.Invokes k arguments) : ∃ i ≤ 1, ∃ stack,
      (Step.next s).steps i = go (.apply (.continuation k) arguments) stack s.world := by
  have hfirst : ∀ procedure vs stack w,
      (Step.next ⟨.apply procedure vs, stack, w⟩).steps 1 = Step.apply procedure vs stack w :=
    fun _ _ _ _ => rfl
  cases h with
  | applied arguments stack w => exact ⟨0, Nat.zero_le 1, stack, rfl⟩
  | call evaluated v all scope stack w =>
      refine ⟨1, Nat.le_refl 1, stack, ?_⟩
      rw [← List.reverse_cons]
      rfl
  | callWithout site scope stack w => exact ⟨1, Nat.le_refl 1, stack, rfl⟩
  | @apply p hp others xs last w htakes hlast stack =>
      refine ⟨1, Nat.le_refl 1, stack, ?_⟩
      rw [hfirst, Primitive.apply_control htakes hp]
      have hgetLast : (.continuation k :: (others ++ [last])).getLastD Value.nil = last := by
        rw [← List.cons_append, List.getLastD_eq_getLast?, List.getLast?_concat, Option.getD_some]
      simp only [Step.control, hgetLast, Step.after, World.elements_eq hlast]
      simp
  | @mapping p hp lists htakes hlists hpairs stack w =>
      have hall : (!lists.isEmpty && lists.all Value.isPair) = true := by
        simpa [hlists] using hpairs
      have hround : ∀ collect, Step.mapping (.continuation k) lists [] collect stack w =
          go (.apply (.continuation k) (lists.map w.heap.first))
            (.mapping (.continuation k) (lists.map w.heap.rest) [] collect :: stack) w := by
        intro collect
        simp only [Step.mapping, hall, if_true]
      rcases hp with hp | hp
      · exact ⟨1, Nat.le_refl 1, _, ((hfirst ..).trans (Primitive.apply_control htakes hp)).trans
          (hround true)⟩
      · exact ⟨1, Nat.le_refl 1, _, ((hfirst ..).trans (Primitive.apply_control htakes hp)).trans
          (hround false)⟩
  | @force p hp htakes stack w =>
      refine ⟨1, Nat.le_refl 1, stack, ?_⟩
      rw [hfirst, Primitive.apply_control htakes hp]
      rfl

theorem Heap.lt_of_active {h : Heap} {k : Ref .continuation}
    (hactive : (h.continuation k).active = true) : k.index < h.continuations.size := by
  by_contra hge
  simp [continuation_of_size_le (Nat.le_of_not_lt hge)] at hactive

/-- Throwing to an active continuation starts an escape to it. -/
theorem Step.apply_active {k : Ref .continuation} {w : World}
    (hactive : (w.heap.continuation k).active = true) (arguments : List Value)
    (stack : List Pending) : Step.apply (.continuation k) arguments stack w =
      go (.unwind (.escape (w.heap.continuation k).token)) stack
        (w.putSlot k (arguments.headD .nil)) := by
  simp [Step.apply, answer, after, Step.throw, hactive, World.putSlot]

/-- What an escape does from the throw on, step by step. -/
theorem State.Sound.escape {k : Ref .continuation} {arguments : List Value} {stack : List Pending}
    {w : World} (hs : Sound ⟨.apply (.continuation k) arguments, stack, w⟩) (hempty : w.Emptied)
    (hactive : (w.heap.continuation k).active = true) :
    ∃ above below, stack = above ++ .catching k :: below ∧
      (∀ i ≤ above.length, ∃ w', w.SameData w' ∧
        (Step.apply (.continuation k) arguments stack w).steps i =
          go (.unwind (.escape (w.heap.continuation k).token))
            (above.drop i ++ .catching k :: below) w') ∧
      ∃ w', w.Unwound (above ++ [.catching k]) w' ∧
        (Step.apply (.continuation k) arguments stack w).steps (above.length + 1) =
          go (.resume (arguments.headD .nil)) below w' := by
  obtain ⟨above, below, rfl⟩ := List.append_of_mem (mem_receivers.1 ((hs.active k).1 hactive))
  have hreceivers : receivers (above ++ .catching k :: below) =
      receivers above ++ k :: receivers below := receivers_append above _
  have hk : k ∉ receivers above := by
    have hnodup := hs.nodup
    rw [hreceivers] at hnodup
    exact fun hmem => List.disjoint_of_nodup_append hnodup hmem (List.mem_cons_self ..)
  have hanswer : .answer ∉ above := by
    have hbottom := hs.bottom
    rw [List.dropLast_append_of_ne_nil (by simp)] at hbottom
    exact fun hmem => hbottom (List.mem_append_left _ hmem)
  have htokens : ∀ k' ∈ receivers above,
      ((w.putSlot k (arguments.headD .nil)).heap.continuation k').token ≠
        (w.heap.continuation k).token := by
    intro k' hk' heq
    rw [w.token_putSlot] at heq
    have hsame := hs.distinct k' (by rw [hreceivers]; simp [hk']) k (by rw [hreceivers]; simp) heq
    exact hk (hsame ▸ hk')
  rw [Step.apply_active hactive]
  refine ⟨above, below, rfl, fun i hi => ?_, ?_⟩
  · have hpassed : .answer ∉ above.take i := fun hmem => hanswer (List.mem_of_mem_take hmem)
    have hput : w.SameData (w.putSlot k (arguments.headD .nil)) :=
      ⟨rfl, rfl, rfl, rfl, rfl, rfl, rfl, rfl, rfl⟩
    exact ⟨_, hput.trans (World.unwound_passing hpassed _).data,
      Step.steps_unwind hanswer htokens _ hi⟩
  · refine ⟨w.passing (above ++ [.catching k]), World.unwound_passing (by simp [hanswer]) w, ?_⟩
    rw [Step.steps_succ', Step.steps_unwind hanswer htokens _ (Nat.le_refl _), List.drop_length,
      List.take_length, World.passing_putSlot hk]
    have hkept : (w.passing above).heap.continuation k = w.heap.continuation k := by
      rw [(World.unwound_passing hanswer w).continuation, if_neg hk]
    have hreceived := Step.unwind_received k below
      ((w.passing above).putSlot k (arguments.headD .nil))
    rw [World.token_putSlot, hkept, World.takeSlot_putSlot (Heap.lt_of_active (hkept ▸ hactive))
      (hkept ▸ hempty k)] at hreceived
    rw [World.passing_append]
    exact hreceived

/-- An invocation of an active continuation makes the call that captured it return the first
argument, or nil if there is none, whatever lies between. On the way there nothing is evaluated and
no data or binding changes; what lies between has left its extents when the value arrives, and
nothing else has changed. -/
theorem Request.escape_returns {w : World} (hw : w.Reachable) (request : Request) {n : Nat}
    {s : State} (hrun : (request.start w).steps n = .next s) {k : Ref .continuation}
    {arguments : List Value} (hinvokes : s.Invokes k arguments)
    (hactive : (s.world.heap.continuation k).active = true) :
    ∃ m n' above below, n ≤ n' ∧ n' ≤ n + 1 ∧ (request.start w).Captures k below m n' ∧
      (request.start w).steps n' =
        go (.apply (.continuation k) arguments) (above ++ .catching k :: below) s.world ∧
      (∀ i ≤ above.length, ∃ w', s.world.SameData w' ∧ (request.start w).steps (n' + 1 + i) =
        go (.unwind (.escape (s.world.heap.continuation k).token))
          (above.drop i ++ .catching k :: below) w') ∧
      ∃ w', s.world.Unwound (above ++ [.catching k]) w' ∧
        (request.start w).steps (n' + 1 + (above.length + 1)) =
          go (.resume (arguments.headD .nil)) below w' := by
  obtain ⟨i, hi, stack, hthrow⟩ := hinvokes.steps
  rw [← hrun, ← Step.steps_add] at hthrow
  have hempty := (request.posted_of_emptied hw.settled hw.emptied hthrow).emptied (by simp)
  obtain ⟨above, below, rfl, hway, hend⟩ :=
    (request.sound_of_reachable hw hthrow).1.escape hempty hactive
  obtain ⟨m, hcaptures⟩ := Step.exists_captures
    (fun s₀ hs₀ => (request.sameTokens_start hs₀).2) hthrow (List.suffix_append above _)
  have hstep : ∀ j, (request.start w).steps (n + i + 1 + j) =
      (Step.apply (.continuation k) arguments (above ++ .catching k :: below) s.world).steps j := by
    intro j
    rw [Step.steps_add, Step.steps_succ', hthrow]
    rfl
  simp only [← hstep] at hway hend
  exact ⟨m, n + i, above, below, Nat.le_add_right n i, by omega, hcaptures, hthrow, hway, hend⟩

/-- A continuation is captured, another one inside its extent, and the first one is invoked with the
second one. -/
theorem Request.escape_returns_inner_continuation :
    let capture : Value := .primitive .capture
    let start := (Request.apply capture [capture]).start (.bare World.nowhere)
    ∃ s, Primitive.capture ∈ Primitive.table ∧ World.Reachable (.bare World.nowhere) ∧
      start.steps 2 = .next s ∧
      s.Invokes ⟨0⟩ [.continuation ⟨1⟩] ∧ (s.world.heap.continuation ⟨0⟩).active = true ∧
      ∃ m n' above below w', start.Captures ⟨0⟩ below m n' ∧
        s.world.Unwound (above ++ [.catching ⟨0⟩]) w' ∧
        start.steps (n' + 1 + (above.length + 1)) = go (.resume (.continuation ⟨1⟩)) below w' := by
  intro capture start
  have hw := World.Reachable.bare World.nowhere
  refine ⟨_, Primitive.capture_mem_table, hw, rfl, .applied _ _ _, rfl, ?_⟩
  obtain ⟨m, n', above, below, -, -, hcaptures, -, -, w', hunwound, hreturn⟩ :=
    escape_returns hw (.apply capture [capture]) (n := 2) rfl
      (.applied (k := ⟨0⟩) [.continuation ⟨1⟩] _ _) rfl
  exact ⟨m, n', above, below, w', hcaptures, hunwound, hreturn⟩

end Scheme
