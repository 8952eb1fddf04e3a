import Scheme.Proofs.Runs
import Scheme.Proofs.Transitions
/-!
# The extents of continuations

A continuation is active exactly while its receiver is on the stack. The stack holds each receiver
once, and the tokens of receivers are distinct, so that an escape finds the one it is meant for
before it could leave the evaluation or reach the session that waits for it.
-/

namespace Scheme

open Step

/-- The continuations whose receivers are on the stack. -/
def receivers : List Pending → List (Ref .continuation)
  | [] => []
  | .catching k :: stack => k :: receivers stack
  | _ :: stack => receivers stack

theorem receivers_append (above below : List Pending) :
    receivers (above ++ below) = receivers above ++ receivers below := by
  induction above with
  | nil => rfl
  | cons p above ih => cases p <;> simp [receivers, ih]

theorem receivers_of_isPlain {pushed : List Pending} (h : ∀ p ∈ pushed, p.isPlain = true) :
    receivers pushed = [] := by
  induction pushed with
  | nil => rfl
  | cons p pushed ih =>
      have hp := h p (List.mem_cons_self ..)
      have hrest := ih fun q hq => h q (List.mem_cons_of_mem _ hq)
      cases p <;> simp_all [receivers, Pending.isPlain]

theorem mem_receivers {k : Ref .continuation} {stack : List Pending} :
    k ∈ receivers stack ↔ .catching k ∈ stack := by
  induction stack with
  | nil => simp [receivers]
  | cons p stack ih => cases p <;> simp [receivers, ih]

/-- The invariant that ties the continuations in the heap to the stack. -/
structure State.Sound (s : State) : Prop where
  active : ∀ k, (s.world.heap.continuation k).active = true ↔ k ∈ receivers s.stack
  nodup : (receivers s.stack).Nodup
  issued : ∀ k ∈ receivers s.stack, (s.world.heap.continuation k).token ≤ s.world.lastToken
  distinct : ∀ k ∈ receivers s.stack, ∀ k' ∈ receivers s.stack,
    (s.world.heap.continuation k).token = (s.world.heap.continuation k').token → k = k'
  /-- An escape under way has its receiver on the stack. -/
  target : ∀ token, s.control = .unwind (.escape token) →
    ∃ k ∈ receivers s.stack, (s.world.heap.continuation k).token = token
  /-- A session waits at the bottom of the stack, and prompts on an empty one. -/
  bottom : .answer ∉ s.stack.dropLast
  prompting : s.control = .prompt → s.stack = []

theorem World.SameTokens.continuation {w w' : World} (h : w.SameTokens w')
    (k : Ref .continuation) : w'.heap.continuation k = w.heap.continuation k := by
  rw [Heap.continuation, Heap.continuation, h.continuations]

/-- The invariant depends on the continuations and their receivers only. -/
theorem State.Sound.of_same {s s' : State} (hs : s.Sound)
    (hreceivers : receivers s'.stack = receivers s.stack) (htokens : s.world.SameTokens s'.world)
    (htarget : ∀ token, s'.control = .unwind (.escape token) →
      s.control = .unwind (.escape token))
    (hbottom : .answer ∉ s'.stack.dropLast) (hprompting : s'.control = .prompt → s'.stack = []) :
    s'.Sound where
  active k := by rw [htokens.continuation, hreceivers, hs.active]
  nodup := by rw [hreceivers]; exact hs.nodup
  issued k hk := by
    rw [hreceivers] at hk
    rw [htokens.continuation, htokens.lastToken]
    exact hs.issued k hk
  distinct k hk k' hk' htoken := by
    rw [hreceivers] at hk hk'
    rw [htokens.continuation, htokens.continuation] at htoken
    exact hs.distinct k hk k' hk' htoken
  target token hcontrol := by
    obtain ⟨k, hk, htoken⟩ := hs.target token (htarget token hcontrol)
    exact ⟨k, by rwa [hreceivers], by rwa [htokens.continuation]⟩
  bottom := hbottom
  prompting := hprompting

/-! ## The bottom of the stack -/

private theorem answer_not_mem_dropLast_append (pushed : List Pending) {stack : List Pending}
    (hpushed : .answer ∉ pushed) (hstack : .answer ∉ stack.dropLast) :
    .answer ∉ (pushed ++ stack).dropLast := by
  cases stack with
  | nil =>
      rw [List.append_nil]
      exact fun hmem => hpushed (List.dropLast_subset _ hmem)
  | cons p stack =>
      rw [List.dropLast_append_of_ne_nil (by simp)]
      simp only [List.mem_append, not_or]
      exact ⟨hpushed, hstack⟩

private theorem answer_not_mem_dropLast_of_append (popped : List Pending) {stack : List Pending}
    (h : .answer ∉ (popped ++ stack).dropLast) : .answer ∉ stack.dropLast := by
  cases stack with
  | nil => simp
  | cons p stack =>
      rw [List.dropLast_append_of_ne_nil (by simp)] at h
      exact fun hmem => h (List.mem_append_right _ hmem)

private theorem answer_not_mem_of_isPlain {pushed : List Pending}
    (h : ∀ p ∈ pushed, p.isPlain = true) : .answer ∉ pushed := by
  intro hmem
  simpa [Pending.isPlain] using h _ hmem

theorem State.Sound.nil_of_answer {control : Control} {stack : List Pending} {w : World}
    (h : State.Sound ⟨control, .answer :: stack, w⟩) : stack = [] := by
  cases stack with
  | nil => rfl
  | cons p stack => exact absurd (List.mem_cons_self ..) h.bottom

/-! ## Steps -/

/-- A step to pushed work without receivers, from a stack without some. -/
theorem State.Sound.shift (popped pushed : List Pending) {control control' : Control}
    {stack : List Pending} {w w' : World} (hs : State.Sound ⟨control, popped ++ stack, w⟩)
    (hpopped : receivers popped = []) (hpushed : receivers pushed = [])
    (hanswer : .answer ∉ pushed) (htokens : w.SameTokens w')
    (htarget : ∀ token, control' = .unwind (.escape token) → control = .unwind (.escape token))
    (hprompting : control' ≠ .prompt) : State.Sound ⟨control', pushed ++ stack, w'⟩ := by
  apply hs.of_same
  · simp only [receivers_append, hpopped, hpushed]
  · exact htokens
  · exact htarget
  · exact answer_not_mem_dropLast_append pushed hanswer
      (answer_not_mem_dropLast_of_append _ hs.bottom)
  · exact fun hprompt => absurd hprompt hprompting

private theorem ne_of_isPlain {control : Control} (h : control.isPlain = true) :
    control ≠ .prompt ∧ ∀ token, control ≠ .unwind (.escape token) := by
  constructor
  · rintro rfl
    simp [Control.isPlain] at h
  · rintro token rfl
    simp [Control.isPlain, Fault.isEscape] at h

theorem State.Sound.plain {control : Control} {popped stack : List Pending} {w : World}
    {s' : State} (hs : State.Sound ⟨control, popped ++ stack, w⟩)
    (hpopped : ∀ p ∈ popped, p.isPlain = true)
    (hnext : (Step.next s').Leads Plainly w) :
    State.Sound ⟨s'.control, s'.stack ++ stack, s'.world⟩ := by
  obtain ⟨⟨hcontrol, hpushed⟩, htokens⟩ := hnext
  obtain ⟨hprompt, hescape⟩ := ne_of_isPlain hcontrol
  exact State.Sound.shift _ _ hs (receivers_of_isPlain hpopped) (receivers_of_isPlain hpushed)
    (answer_not_mem_of_isPlain hpushed) htokens
    (fun token htoken => absurd htoken (hescape token)) hprompt

/-- In a session nothing else is on the stack. -/
theorem State.Sound.session {control : Control} {popped stack : List Pending} {w : World}
    {s' : State} (hs : State.Sound ⟨control, popped ++ stack, w⟩)
    (hpopped : control = .prompt ∧ popped = [] ∨ popped = [.answer])
    (hnext : (Step.next s').Leads Conversing w) :
    State.Sound ⟨s'.control, s'.stack ++ stack, s'.world⟩ := by
  have hnone : receivers popped = [] := by
    rcases hpopped with ⟨-, rfl⟩ | rfl <;> rfl
  have hstack : stack = [] := by
    rcases hpopped with ⟨rfl, rfl⟩ | rfl
    · exact hs.prompting rfl
    · exact hs.nil_of_answer
  obtain ⟨hallowed, htokens⟩ := hnext
  rcases hallowed with ⟨hcontrol, hpushed⟩ | ⟨hcontrol, hpushed⟩ | ⟨hcontrol, hpushed⟩
  · obtain ⟨hprompt, hescape⟩ := ne_of_isPlain hcontrol
    exact State.Sound.shift _ _ hs hnone (receivers_of_isPlain hpushed)
      (answer_not_mem_of_isPlain hpushed) htokens
      (fun token htoken => absurd htoken (hescape token)) hprompt
  · subst hstack
    apply hs.of_same
    · simp [hpushed, hnone, receivers]
    · exact htokens
    · simp [hcontrol]
    · simp [hpushed]
    · simp [hpushed]
  · obtain ⟨hprompt, hescape⟩ := ne_of_isPlain hcontrol
    subst hstack
    apply hs.of_same
    · simp [hpushed, hnone, receivers]
    · exact htokens
    · exact fun token htoken => absurd htoken (hescape token)
    · simp [hpushed]
    · exact fun hcontrol => absurd hcontrol hprompt

/-- A receiver leaves the stack and its continuation is spent. -/
theorem State.Sound.retire {control control' : Control} {k : Ref .continuation}
    {stack : List Pending} {w w' : World}
    (hs : State.Sound ⟨control, .catching k :: stack, w⟩)
    (hself : (w'.heap.continuation k).active = false)
    (hothers : ∀ k', k' ≠ k → w'.heap.continuation k' = w.heap.continuation k')
    (hlast : w'.lastToken = w.lastToken)
    (htarget : ∀ token, control' = .unwind (.escape token) →
      ∃ k' ∈ receivers stack, (w.heap.continuation k').token = token)
    (hprompting : control' ≠ .prompt) : State.Sound ⟨control', stack, w'⟩ := by
  have hfresh : k ∉ receivers stack := (List.nodup_cons.1 hs.nodup).1
  have hne : ∀ k' ∈ receivers stack, k' ≠ k := by
    rintro k' hk' rfl
    exact hfresh hk'
  have hmem : ∀ k' ∈ receivers stack, k' ∈ receivers (.catching k :: stack) :=
    fun k' hk' => List.mem_cons_of_mem _ hk'
  constructor
  · intro k'
    by_cases hk' : k' = k
    · subst hk'
      simp [hself, hfresh]
    · have hactive := hs.active k'
      simp only [receivers, List.mem_cons, hk', false_or] at hactive
      simp only [hothers k' hk', hactive]
  · exact (List.nodup_cons.1 hs.nodup).2
  · intro k' hk'
    simp only [hothers k' (hne k' hk'), hlast]
    exact hs.issued k' (hmem k' hk')
  · intro k₁ hk₁ k₂ hk₂ htoken
    simp only [hothers k₁ (hne k₁ hk₁), hothers k₂ (hne k₂ hk₂)] at htoken
    exact hs.distinct k₁ (hmem k₁ hk₁) k₂ (hmem k₂ hk₂) htoken
  · intro token hcontrol
    obtain ⟨k', hk', htoken⟩ := htarget token hcontrol
    refine ⟨k', hk', ?_⟩
    simp only [hothers k' (hne k' hk'), htoken]
  · exact answer_not_mem_dropLast_of_append [.catching k] hs.bottom
  · exact fun hcontrol => absurd hcontrol hprompting

/-! ### Continuations that come and go -/

namespace World

theorem active_deactivate (k : Ref .continuation) (w : World) :
    ((w.deactivate k).heap.continuation k).active = false := by
  rcases Nat.lt_or_ge k.index w.heap.continuations.size with hk | hk
  · rw [deactivate, Heap.continuation_setContinuation_self hk]
  · rw [deactivate, Heap.setContinuation_of_size_le hk, Heap.continuation_of_size_le hk]

theorem continuation_deactivate_of_ne {k k' : Ref .continuation} (hne : k' ≠ k) (w : World) :
    (w.deactivate k).heap.continuation k' = w.heap.continuation k' :=
  Heap.continuation_setContinuation_of_ne hne _

theorem active_takeSlot (k k' : Ref .continuation) (w : World) :
    ((w.takeSlot k).2.heap.continuation k').active = (w.heap.continuation k').active := by
  by_cases hne : k' = k
  · subst hne
    rcases Nat.lt_or_ge k'.index w.heap.continuations.size with hk | hk
    · rw [takeSlot, Heap.continuation_setContinuation_self hk]
    · rw [takeSlot, Heap.setContinuation_of_size_le hk]
  · rw [takeSlot, Heap.continuation_setContinuation_of_ne hne]

theorem active_putSlot (k k' : Ref .continuation) (v : Value) (w : World) :
    ((w.putSlot k v).heap.continuation k').active = (w.heap.continuation k').active := by
  by_cases hne : k' = k
  · subst hne
    rcases Nat.lt_or_ge k'.index w.heap.continuations.size with hk | hk
    · rw [putSlot, Heap.continuation_setContinuation_self hk]
    · rw [putSlot, Heap.setContinuation_of_size_le hk]
  · rw [putSlot, Heap.continuation_setContinuation_of_ne hne]

theorem token_putSlot (k k' : Ref .continuation) (v : Value) (w : World) :
    ((w.putSlot k v).heap.continuation k').token = (w.heap.continuation k').token := by
  by_cases hne : k' = k
  · subst hne
    rcases Nat.lt_or_ge k'.index w.heap.continuations.size with hk | hk
    · rw [putSlot, Heap.continuation_setContinuation_self hk]
    · rw [putSlot, Heap.setContinuation_of_size_le hk]
  · rw [putSlot, Heap.continuation_setContinuation_of_ne hne]

end World

theorem Heap.continuation_addContinuation (h : Heap) (c : Continuation) (k : Ref .continuation) :
    (h.addContinuation c).2.continuation k =
      if k = ⟨h.continuations.size⟩ then c else h.continuation k := by
  by_cases hk : k = ⟨h.continuations.size⟩
  · subst hk
    simp [continuation, addContinuation]
  · have hindex : k.index ≠ h.continuations.size := fun heq => hk (congrArg Ref.mk heq)
    simp [continuation, addContinuation, hk, Array.getElem?_push, hindex]

/-- A new continuation is active, and its receiver is on top of the stack. -/
theorem State.Sound.admit {control control' : Control} {k : Ref .continuation}
    {stack : List Pending} {w w' : World} (hs : State.Sound ⟨control, stack, w⟩)
    (hfresh : (w.heap.continuation k).active = false)
    (hself : w'.heap.continuation k = ⟨w.lastToken + 1, .nil, true⟩)
    (hothers : ∀ k', k' ≠ k → w'.heap.continuation k' = w.heap.continuation k')
    (hlast : w'.lastToken = w.lastToken + 1) (hcontrol : control'.isPlain = true) :
    State.Sound ⟨control', .catching k :: stack, w'⟩ := by
  obtain ⟨hprompt, hescape⟩ := ne_of_isPlain hcontrol
  have hnew : k ∉ receivers stack := by
    intro hmem
    have hactive := (hs.active k).2 hmem
    simp [hfresh] at hactive
  have hne : ∀ k' ∈ receivers stack, k' ≠ k := by
    rintro k' hk' rfl
    exact hnew hk'
  have htoken : ∀ k' ∈ receivers stack,
      (w'.heap.continuation k').token < (w'.heap.continuation k).token := by
    intro k' hk'
    rw [hothers k' (hne k' hk'), hself]
    exact Nat.lt_succ_of_le (hs.issued k' hk')
  constructor
  · intro k'
    by_cases hk' : k' = k
    · simp [hself, hk', receivers]
    · simp only [hothers k' hk', receivers, List.mem_cons, hk', false_or]
      exact hs.active k'
  · exact List.nodup_cons.2 ⟨hnew, hs.nodup⟩
  · simp only [receivers, List.mem_cons, forall_eq_or_imp, hself, hlast]
    refine ⟨Nat.le_refl _, ?_⟩
    intro k' hk'
    have hless := htoken k' hk'
    rw [hself] at hless
    exact Nat.le_of_lt hless
  · intro k₁ hk₁ k₂ hk₂ hsame
    simp only [receivers, List.mem_cons] at hk₁ hk₂
    rcases hk₁ with rfl | hk₁
    · rcases hk₂ with rfl | hk₂
      · rfl
      · exact absurd hsame (Nat.ne_of_gt (htoken k₂ hk₂))
    · rcases hk₂ with rfl | hk₂
      · exact absurd hsame (Nat.ne_of_lt (htoken k₁ hk₁))
      · simp only [hothers k₁ (hne k₁ hk₁), hothers k₂ (hne k₂ hk₂)] at hsame
        exact hs.distinct k₁ hk₁ k₂ hk₂ hsame
  · exact fun token hcontrol => absurd hcontrol (hescape token)
  · exact answer_not_mem_dropLast_append [.catching k] (by simp) hs.bottom
  · exact fun hcontrol => absurd hcontrol hprompt

theorem State.Sound.capture {control : Control} {stack : List Pending} {w : World}
    (hs : State.Sound ⟨control, stack, w⟩) (receiver : Value) {s' : State}
    (hnext : callWithContinuation receiver stack w = .next s') : s'.Sound := by
  obtain rfl := Step.next.inj hnext
  have hcontinuation := w.heap.continuation_addContinuation ⟨w.lastToken + 1, .nil, true⟩
  refine hs.admit ?_ ?_ ?_ rfl rfl
  · simp [Heap.continuation_of_size_le]
  · exact (hcontinuation _).trans (if_pos rfl)
  · exact fun k' hk' => (hcontinuation k').trans (if_neg hk')

/-- An escape is on its way to a receiver that is there. -/
theorem State.Sound.throw {control : Control} {stack : List Pending} {w : World}
    {k : Ref .continuation} (hs : State.Sound ⟨control, stack, w⟩)
    (hactive : (w.heap.continuation k).active = true) (v : Value) :
    State.Sound ⟨.unwind (.escape (w.heap.continuation k).token), stack, w.putSlot k v⟩ where
  active k' := by
    simp only [w.active_putSlot]
    exact hs.active k'
  nodup := hs.nodup
  issued k' hk' := by
    simp only [w.token_putSlot]
    exact hs.issued k' hk'
  distinct k₁ hk₁ k₂ hk₂ htoken := by
    simp only [w.token_putSlot] at htoken
    exact hs.distinct k₁ hk₁ k₂ hk₂ htoken
  target token htoken := by
    refine ⟨k, (hs.active k).1 hactive, ?_⟩
    simp only [w.token_putSlot]
    exact Fault.escape.inj (Control.unwind.inj htoken)
  bottom := hs.bottom
  prompting := by simp

/-- An escape that passes a receiver has its own further down. -/
theorem State.Sound.forward {f : Fault} {k : Ref .continuation} {stack : List Pending} {w : World}
    (hs : State.Sound ⟨.unwind f, .catching k :: stack, w⟩)
    (hf : f ≠ .escape (w.heap.continuation k).token) :
    State.Sound ⟨.unwind f, stack, w.deactivate k⟩ := by
  refine hs.retire (w.active_deactivate k) (fun k' hk' => w.continuation_deactivate_of_ne hk') rfl
    ?_ (by simp)
  intro token hcontrol
  obtain ⟨k', hk', htoken⟩ := hs.target token hcontrol
  rcases List.mem_cons.1 hk' with rfl | hk'
  · refine absurd ?_ hf
    rw [htoken]
    exact Control.unwind.inj hcontrol
  · exact ⟨k', hk', htoken⟩

/-- Every step preserves the invariant. -/
theorem State.Sound.step {s s' : State} (hs : s.Sound) (hnext : s.step = .next s') :
    s'.Sound := by
  have hmoves := s.moves_step
  rw [hnext] at hmoves
  generalize hstep : Step.next s' = step at hmoves
  -- Only a capture, a throw and the three ways out of a call concern the receivers; all other moves
  -- shift work that has none.
  cases hmoves with
  | @plain control popped stack w step hpopped hleads =>
      cases step with
      | next s₀ =>
          obtain rfl := Step.next.inj hstep
          exact hs.plain hpopped hleads
      | done outcome w' => cases hstep
  | @pass f p stack w hp =>
      obtain rfl := Step.next.inj hstep
      exact State.Sound.shift [p] [] hs
        (receivers_of_isPlain (by simpa using hp)) rfl (by simp)
        ((plainChange_release p).sameTokens w) (fun _ => id) (by simp)
  | @enter x scope stack w hdepth =>
      obtain rfl := Step.next.inj hstep
      exact State.Sound.shift [] [.leave] hs rfl rfl (by simp)
        ⟨rfl, rfl⟩ (by simp) (by simp)
  | @refuse x scope stack w hdepth =>
      obtain rfl := Step.next.inj hstep
      exact State.Sound.shift [] [] hs rfl rfl (by simp)
        ⟨rfl, rfl⟩ (by simp) (by simp)
  | @leave control stack w hcontrol =>
      obtain rfl := Step.next.inj hstep
      refine State.Sound.shift [.leave] [] hs rfl rfl (by simp)
        ⟨rfl, rfl⟩ (fun _ => id) ?_
      rcases hcontrol with ⟨v, rfl⟩ | ⟨f, rfl⟩ <;> simp
  | capture control receiver stack w => exact hs.capture receiver hstep.symm
  | throw control k v stack hactive =>
      obtain rfl := Step.next.inj hstep
      exact hs.throw hactive v
  | deliver v k stack w =>
      obtain rfl := Step.next.inj hstep
      exact hs.retire (w.active_deactivate k)
        (fun k' hk' => w.continuation_deactivate_of_ne hk') rfl (by simp) (by simp)
  | receive k stack w =>
      obtain rfl := Step.next.inj hstep
      refine hs.retire ?_ ?_ rfl (by simp) (by simp)
      · rw [World.active_takeSlot, World.active_deactivate]
      · intro k' hk'
        rw [World.takeSlot, Heap.continuation_setContinuation_of_ne hk']
        exact w.continuation_deactivate_of_ne hk'
  | forward stack hf =>
      obtain rfl := Step.next.inj hstep
      exact hs.forward hf
  | @session control popped stack w step hpopped hleads =>
      cases step with
      | next s₀ =>
          obtain rfl := Step.next.inj hstep
          exact hs.session hpopped hleads
      | done outcome w' => cases hstep
  | value v w => cases hstep
  | fault f w => cases hstep

/-! ## Spent continuations stay spent -/

/-- The second world has all continuations of the first, and none that was spent is active. -/
def World.Spends (w w' : World) : Prop :=
  ∀ k : Ref .continuation, k.index < w.heap.continuations.size →
    k.index < w'.heap.continuations.size ∧
      ((w.heap.continuation k).active = false → (w'.heap.continuation k).active = false)

namespace World

theorem Spends.refl (w : World) : w.Spends w :=
  fun _ hk => ⟨hk, id⟩

theorem Spends.trans {w₁ w₂ w₃ : World} (h : w₁.Spends w₂) (h' : w₂.Spends w₃) : w₁.Spends w₃ := by
  intro k hk
  obtain ⟨hk₂, hspent₂⟩ := h k hk
  obtain ⟨hk₃, hspent₃⟩ := h' k hk₂
  exact ⟨hk₃, fun hspent => hspent₃ (hspent₂ hspent)⟩

theorem SameTokens.spends {w w' : World} (h : w.SameTokens w') : w.Spends w' := by
  intro k hk
  rw [h.continuation k, h.continuations]
  exact ⟨hk, id⟩

theorem spends_deactivate (k : Ref .continuation) (w : World) : w.Spends (w.deactivate k) := by
  intro k' hk'
  refine ⟨by simpa [deactivate, Heap.setContinuation] using hk', fun hspent => ?_⟩
  by_cases hne : k' = k
  · rw [hne]
    exact w.active_deactivate k
  · rwa [w.continuation_deactivate_of_ne hne]

theorem spends_takeSlot (k : Ref .continuation) (w : World) : w.Spends (w.takeSlot k).2 := by
  intro k' hk'
  refine ⟨by simpa [takeSlot, Heap.setContinuation] using hk', fun hspent => ?_⟩
  rwa [w.active_takeSlot]

theorem spends_putSlot (k : Ref .continuation) (v : Value) (w : World) :
    w.Spends (w.putSlot k v) := by
  intro k' hk'
  refine ⟨by simpa [putSlot, Heap.setContinuation] using hk', fun hspent => ?_⟩
  rwa [w.active_putSlot]

theorem spends_addContinuation (c : Continuation) (token : Nat) (w : World) :
    w.Spends { w with heap := (w.heap.addContinuation c).2, lastToken := token } := by
  intro k hk
  have hne : k ≠ ⟨w.heap.continuations.size⟩ := by
    rintro rfl
    exact Nat.lt_irrefl _ hk
  refine ⟨by simp [Heap.addContinuation]; omega, fun hspent => ?_⟩
  simpa only [Heap.continuation_addContinuation, if_neg hne] using hspent

end World

theorem State.spends_step {s s' : State} (hnext : s.step = .next s') :
    s.world.Spends s'.world := by
  have hmoves := s.moves_step
  rw [hnext] at hmoves
  generalize hstep : Step.next s' = step at hmoves
  cases hmoves with
  | @plain control popped stack w step hpopped hleads =>
      cases step with
      | next s₀ =>
          obtain rfl := Step.next.inj hstep
          exact hleads.2.spends
      | done outcome w' => cases hstep
  | @session control popped stack w step hpopped hleads =>
      cases step with
      | next s₀ =>
          obtain rfl := Step.next.inj hstep
          exact hleads.2.spends
      | done outcome w' => cases hstep
  | value v w => cases hstep
  | fault f w => cases hstep
  | @pass f p stack w hp =>
      obtain rfl := Step.next.inj hstep
      exact ((plainChange_release p).sameTokens w).spends
  | @enter x scope stack w hdepth | @leave control stack w hcontrol
  | @refuse x scope stack w hdepth =>
      obtain rfl := Step.next.inj hstep
      exact World.SameTokens.spends ⟨rfl, rfl⟩
  | capture control receiver stack w =>
      obtain rfl := Step.next.inj hstep
      exact w.spends_addContinuation _ _
  | @throw control k v stack w hactive =>
      obtain rfl := Step.next.inj hstep
      exact w.spends_putSlot k v
  | deliver v k stack w =>
      obtain rfl := Step.next.inj hstep
      exact w.spends_deactivate k
  | receive k stack w =>
      obtain rfl := Step.next.inj hstep
      exact (w.spends_deactivate k).trans ((w.deactivate k).spends_takeSlot k)
  | @forward f k stack w hf =>
      obtain rfl := Step.next.inj hstep
      exact w.spends_deactivate k

/-! ## Runs -/

/-- Along a run the invariant holds and spent continuations stay spent. -/
theorem State.Sound.steps {s s' : State} (hs : s.Sound) (n : Nat)
    (hrun : (Step.next s).steps n = .next s') : s'.Sound ∧ s.world.Spends s'.world := by
  induction n generalizing s with
  | zero =>
      obtain rfl := Step.next.inj hrun
      exact ⟨hs, .refl _⟩
  | succ n ih =>
      rw [Step.steps_next] at hrun
      cases hnext : s.step with
      | next s₁ =>
          rw [hnext] at hrun
          obtain ⟨hsound, hspends⟩ := ih (hs.step hnext) hrun
          exact ⟨hsound, (State.spends_step hnext).trans hspends⟩
      | done outcome w =>
          rw [hnext, Step.steps_done] at hrun
          cases hrun

/-- No continuation is active. -/
def World.Settled (w : World) : Prop :=
  ∀ k, (w.heap.continuation k).active = false

theorem World.SameTokens.settled {w w' : World} (h : w.SameTokens w') (hw : w.Settled) :
    w'.Settled := by
  intro k
  rw [h.continuation k]
  exact hw k

theorem State.Sound.settled {control : Control} {w : World}
    (hs : State.Sound ⟨control, [], w⟩) : w.Settled := by
  intro k
  have hactive := hs.active k
  simpa [receivers] using hactive

theorem World.Settled.sound {control : Control} {w : World} (hw : w.Settled)
    (hcontrol : ∀ token, control ≠ .unwind (.escape token)) : State.Sound ⟨control, [], w⟩ where
  active k := by simp [receivers, hw k]
  nodup := List.nodup_nil
  issued := by simp [receivers]
  distinct := by simp [receivers]
  target token htoken := absurd htoken (hcontrol token)
  bottom := by simp
  prompting _ := rfl

def Outcome.isTrap : Outcome → Bool
  | .trap _ => true
  | _ => false

/-- A machine that stops without a trap has left all extents. -/
theorem State.Sound.done {s : State} (hs : s.Sound) {outcome : Outcome} {w : World}
    (hdone : s.step = .done outcome w) :
    (∀ token, outcome ≠ .fault (.escape token)) ∧ (outcome.isTrap = false → w.Settled) := by
  have hmoves := s.moves_step
  rw [hdone] at hmoves
  generalize hstep : Step.done outcome w = step at hmoves
  cases hmoves with
  | @plain control popped stack w₀ step hpopped hleads =>
      cases step with
      | next s₀ => cases hstep
      | done outcome' w' =>
          cases hstep
          obtain ⟨⟨t, rfl⟩, -⟩ := hleads
          simp [Outcome.isTrap]
  | @session control popped stack w₀ step hpopped hleads =>
      cases step with
      | next s₀ => cases hstep
      | done outcome' w' =>
          cases hstep
          obtain ⟨⟨t, rfl⟩, -⟩ := hleads
          simp [Outcome.isTrap]
  | value v w₀ =>
      cases hstep
      exact ⟨by simp, fun _ => hs.settled⟩
  | fault f w₀ =>
      cases hstep
      refine ⟨?_, fun _ => hs.settled⟩
      rintro token ⟨⟩
      obtain ⟨k, hk, -⟩ := hs.target token rfl
      simp [receivers] at hk
  | pass | enter | refuse | leave | capture | throw | deliver | receive | forward => cases hstep

/-- A settled world in which a request starts. -/
theorem Request.sound_start (request : Request) {w : World} (hw : w.Settled) {s : State}
    (hstart : request.start w = .next s) : s.Sound ∧ w.Spends s.world := by
  have hplain : ∀ {code : List Pending → World → Step}, Plain code → code [] w = .next s →
      s.Sound ∧ w.Spends s.world := by
    intro code hcode hnext
    have hleads := hcode.leads w
    rw [hnext] at hleads
    have hquiet : State.Sound ⟨.resume .nil, [] ++ [], w⟩ := hw.sound (by simp)
    have hsound := hquiet.plain (by simp) hleads
    simp only [List.append_nil] at hsound
    exact ⟨hsound, hleads.2.spends⟩
  cases request with
  | load path => exact hplain (plain_load path) hstart
  | expandOnce x => exact hplain (plain_expandOnce x) hstart
  | _ =>
      obtain rfl := Step.next.inj hstart
      exact ⟨hw.sound (by simp), .refl w⟩

/-- A request that is refused at once stops by a trap. -/
theorem Request.start_done (request : Request) {w w' : World} {outcome : Outcome}
    (hstart : request.start w = .done outcome w') : outcome.isTrap = true := by
  have hplain : ∀ {code : List Pending → World → Step}, Plain code →
      code [] w = .done outcome w' → outcome.isTrap = true := by
    intro code hcode hdone
    have hleads := hcode.leads w
    rw [hdone] at hleads
    obtain ⟨⟨t, rfl⟩, -⟩ := hleads
    rfl
  cases request with
  | load path => exact hplain (plain_load path) hstart
  | expandOnce x => exact hplain (plain_expandOnce x) hstart
  | _ => cases hstart

/-- How the run of a request can stop. -/
theorem Request.done_of_settled (request : Request) {w w' : World} (hw : w.Settled) {n : Nat}
    {outcome : Outcome} (hrun : (request.start w).steps n = .done outcome w') :
    (∀ token, outcome ≠ .fault (.escape token)) ∧ (outcome.isTrap = false → w'.Settled) := by
  induction n generalizing outcome w' with
  | zero =>
      have htrap := request.start_done hrun
      refine ⟨?_, by simp [htrap]⟩
      rintro token rfl
      simp [Outcome.isTrap] at htrap
  | succ n ih =>
      rw [Step.steps_succ'] at hrun
      cases hlast : (request.start w).steps n with
      | done outcome' w'' =>
          rw [hlast] at hrun
          cases hrun
          exact ih hlast
      | next s =>
          rw [hlast] at hrun
          cases hstart : request.start w with
          | next s₀ =>
              rw [hstart] at hlast
              exact ((request.sound_start hw hstart).1.steps n hlast).1.done hrun
          | done outcome' w'' =>
              rw [hstart, Step.steps_done] at hlast
              cases hlast

/-! ## Reachable worlds -/

/-- The worlds an interpreter can be in between two requests. -/
inductive World.Reachable : World → Prop where
  | bare (host : Host) : Reachable (.bare host)
  /-- There is an interpreter with the prelude once the prelude has been evaluated. -/
  | new (host : Host) {v : Value} {w : World}
      (hprelude : (World.bare World.nowhere).interpret Prelude.text = (.value v, w)) :
      Reachable (.new host)
  /-- After a trap there is no interpreter left that could be asked. -/
  | answer {w w' : World} (request : Request) {outcome : Outcome} (hw : w.Reachable)
      (hanswer : request.answer w = (outcome, w')) (htrap : outcome.isTrap = false)
      (hfinished : outcome ≠ .unfinished) : Reachable w'
  /-- What else a program does with an interpreter leaves its continuations alone. -/
  | change {w w' : World} (hw : w.Reachable) (hchange : w.SameTokens w') : Reachable w'

/-- An answer in time is the end of the run. -/
theorem Request.ends_of_answer {request : Request} {w w' : World} {outcome : Outcome}
    (hanswer : request.answer w = (outcome, w')) (hfinished : outcome ≠ .unfinished) :
    (request.start w).steps stepBound = .done outcome w' := by
  rw [Request.answer_eq] at hanswer
  cases hend : (request.start w).steps stepBound with
  | next s =>
      rw [hend] at hanswer
      exact absurd (Prod.mk.inj hanswer).1.symm hfinished
  | done outcome' w'' =>
      rw [hend] at hanswer
      obtain ⟨rfl, rfl⟩ := Prod.mk.inj hanswer
      rfl

theorem Request.settled_of_answer {request : Request} {w w' : World} {outcome : Outcome}
    (hw : w.Settled) (hanswer : request.answer w = (outcome, w')) (htrap : outcome.isTrap = false)
    (hfinished : outcome ≠ .unfinished) : w'.Settled :=
  (request.done_of_settled hw (ends_of_answer hanswer hfinished)).2 htrap

theorem World.settled_bare (host : Host) : (bare host).Settled :=
  fun _ => rfl

theorem World.heap_new (host : Host) {outcome : Outcome} {w : World}
    (hprelude : (bare nowhere).interpret Prelude.text = (outcome, w)) :
    (new host).heap = w.heap := by
  have hnew : (new host).heap = prelude := by
    unfold new
    dsimp only
  rw [hnew, prelude, hprelude]
  rfl

theorem World.Reachable.settled {w : World} (hw : w.Reachable) : w.Settled := by
  induction hw with
  | bare host => exact World.settled_bare host
  | @new host v w hprelude =>
      have hanswer : (Request.interpret Prelude.text).answer (.bare World.nowhere) =
          (.value v, w) := hprelude
      have hsettled : w.Settled :=
        Request.settled_of_answer (World.settled_bare _) hanswer rfl (by simp)
      intro k
      rw [World.heap_new host hprelude]
      exact hsettled k
  | answer request hw hanswer htrap hfinished ih =>
      exact Request.settled_of_answer ih hanswer htrap hfinished
  | change hw hchange ih => exact hchange.settled ih

theorem apply_spent {k : Ref .continuation} {w : World}
    (hspent : (w.heap.continuation k).active = false) (arguments : List Value)
    (stack : List Pending) :
    Step.apply (.continuation k) arguments stack w =
      answer (World.failWith fun h => .spentContinuation (h.written (arguments.headD .nil)))
        stack w := by
  simp [Step.apply, answer, after, Step.throw, hspent]

/-- What holds of continuations at every moment. -/
structure State.Scoped (s : State) : Prop where
  /-- The active ones are those whose calls have not returned, and each call is there once. -/
  active : ∀ k, (s.world.heap.continuation k).active = true ↔ .catching k ∈ s.stack
  once : (receivers s.stack).Nodup
  distinct : ∀ k k', (s.world.heap.continuation k).active = true →
    (s.world.heap.continuation k').active = true →
    (s.world.heap.continuation k).token = (s.world.heap.continuation k').token → k = k'
  /-- An escape finds the call that it is meant for, and no session before it. -/
  escape : ∀ token, s.control = .unwind (.escape token) →
    ∃ above k below, s.stack = above ++ .catching k :: below ∧ .answer ∉ above ∧
      (s.world.heap.continuation k).token = token
  /-- An invocation after the call has returned fails. -/
  spent : ∀ k arguments, s.control = .apply (.continuation k) arguments → .catching k ∉ s.stack →
    ∃ cause, s.step = go (.unwind (.failed cause)) s.stack (s.world.note (.failure cause)) ∧
      cause.message = "Continuation invoked after its extent ended: " ++
        s.world.heap.written (arguments.headD .nil)

theorem State.Sound.scoped {s : State} (hs : s.Sound) : s.Scoped where
  active k := by rw [hs.active, mem_receivers]
  once := hs.nodup
  distinct k k' hk hk' htoken := hs.distinct k ((hs.active k).1 hk) k' ((hs.active k').1 hk') htoken
  escape token hcontrol := by
    -- A session can only be at the bottom, so it is not among the work above the receiver.
    obtain ⟨k, hk, htoken⟩ := hs.target token hcontrol
    obtain ⟨above, below, hstack⟩ := List.append_of_mem (mem_receivers.1 hk)
    refine ⟨above, k, below, hstack, ?_, htoken⟩
    intro hanswer
    have hbottom := hs.bottom
    rw [hstack, List.dropLast_append_of_ne_nil (by simp)] at hbottom
    exact hbottom (List.mem_append_left _ hanswer)
  spent k arguments hcontrol hreturned := by
    have hspent : (s.world.heap.continuation k).active = false := by
      rw [← Bool.not_eq_true, hs.active, mem_receivers]
      exact hreturned
    refine ⟨.spentContinuation (s.world.heap.written (arguments.headD .nil)), ?_, rfl⟩
    obtain ⟨control, stack, w⟩ := s
    obtain rfl : control = .apply (.continuation k) arguments := hcontrol
    exact apply_spent hspent arguments stack

/-- The run of a request up to a moment. -/
theorem Request.sound_of_reachable {w : World} (hw : w.Reachable) (request : Request) {n : Nat}
    {s : State} (hrun : (request.start w).steps n = .next s) : s.Sound ∧ w.Spends s.world := by
  cases hstart : request.start w with
  | next s₀ =>
      obtain ⟨hsound, hspends⟩ := request.sound_start hw.settled hstart
      rw [hstart] at hrun
      obtain ⟨hsound', hspends'⟩ := hsound.steps n hrun
      exact ⟨hsound', hspends.trans hspends'⟩
  | done outcome w' =>
      rw [hstart, Step.steps_done] at hrun
      cases hrun

/-- Whatever is asked of an interpreter, at every moment the active continuations are those whose
calls have not returned; a spent one stays spent, also through later requests; and no escape is
ever the answer. -/
theorem Request.escapes_stay_in_extents {w : World} (hw : w.Reachable) (request : Request) :
    (∀ n s, (request.start w).steps n = .next s →
      s.Scoped ∧ w.Spends s.world ∧
        ∀ n' s', (request.start w).steps (n + n') = .next s' → s.world.Spends s'.world) ∧
    (∀ n outcome w', (request.start w).steps n = .done outcome w' →
      (∀ token, outcome ≠ .fault (.escape token)) ∧ (outcome.isTrap = false → w'.Settled)) ∧
    (∀ token, (request.answer w).1 ≠ .fault (.escape token)) ∧ w.Settled := by
  have hdone : ∀ n outcome w', (request.start w).steps n = .done outcome w' →
      (∀ token, outcome ≠ .fault (.escape token)) ∧ (outcome.isTrap = false → w'.Settled) :=
    fun n outcome w' hend => request.done_of_settled hw.settled hend
  refine ⟨?_, hdone, ?_, hw.settled⟩
  · intro n s hrun
    obtain ⟨hsound, hspends⟩ := request.sound_of_reachable hw hrun
    refine ⟨hsound.scoped, hspends, fun n' s' hrun' => ?_⟩
    rw [Step.steps_add, hrun] at hrun'
    exact (hsound.steps n' hrun').2
  · intro token hanswer
    have hfinished : (request.answer w).1 ≠ .unfinished := by simp [hanswer]
    have hend := ends_of_answer (Prod.eta (request.answer w)).symm hfinished
    exact (hdone _ _ _ hend).1 token hanswer

/-- Two calls are under way when one continuation is thrown to from the extent of the other, which
is spent by the time the value arrives. -/
theorem Request.escape_from_inner_extent :
    let capture : Value := .primitive .capture
    let start := (Request.apply capture [capture]).start (.bare World.nowhere)
    ∃ s s' w', (Primitive.capture ∈ Primitive.table ∧ World.Reachable (.bare World.nowhere)) ∧
      start.steps 2 = .next s ∧ s.Scoped ∧ s.stack = [.catching ⟨1⟩, .catching ⟨0⟩] ∧
      start.steps (2 + 3) = .next s' ∧ s'.Scoped ∧ s'.stack = [] ∧ s.world.Spends s'.world ∧
      (s'.world.heap.continuation ⟨1⟩).active = false ∧
      start.steps 6 = .done (.value (.continuation ⟨1⟩)) w' ∧ w'.Settled := by
  intro capture start
  have hw := World.Reachable.bare World.nowhere
  obtain ⟨hmoments, hends, -, -⟩ := escapes_stay_in_extents hw (.apply capture [capture])
  obtain ⟨hscoped, -, hspends⟩ := hmoments 2 _ rfl
  exact ⟨_, _, _, ⟨Primitive.capture_mem_table, hw⟩, rfl, hscoped, rfl, rfl,
    (hmoments (2 + 3) _ rfl).1, rfl, hspends 3 _ rfl, rfl, rfl, (hends 6 _ _ rfl).2 rfl⟩

end Scheme
