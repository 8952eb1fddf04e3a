import Scheme.Proofs.Levels
import Scheme.Proofs.StandardInput
/-!
# How a session comes to its end

A session over the current ports begins a round for each datum that it reads. Every round takes up
some of standard input, and nothing that is evaluated in between gives any back, so there is an end
to the rounds, as long as standard input stays open. Once it is closed, every attempt to read fails
in the same way, the failure is shown, and the session asks again without an end.
-/

namespace Scheme

open Step

/-! ## Rounds -/

namespace Step

/-- A session is about to ask for the next datum. -/
def isPrompt : Step → Bool
  | .next ⟨.prompt, [], _⟩ => true
  | _ => false

/-- The rounds of a session that begin within so many steps. -/
def rounds : Nat → Step → Nat
  | 0, _ => 0
  | n + 1, step => (if step.isPrompt then 1 else 0) + rounds n step.advanced

theorem rounds_add (m n : Nat) (step : Step) :
    step.rounds (m + n) = step.rounds m + (step.steps m).rounds n := by
  induction m generalizing step with
  | zero => simp [rounds]
  | succ m ih => rw [Nat.add_right_comm, rounds, rounds, ih, steps_succ, Nat.add_assoc]

theorem rounds_le {m n : Nat} (hle : m ≤ n) (step : Step) : step.rounds m ≤ step.rounds n := by
  obtain ⟨k, rfl⟩ := Nat.exists_eq_add_of_le hle
  rw [rounds_add]
  exact Nat.le_add_right _ _

/-- One round, and those that begin after it. -/
theorem rounds_le_succ {step : Step} {n bound : Nat} (hfirst : step.rounds n = 1)
    (hrest : ∀ k, (step.steps n).rounds k ≤ bound) (m : Nat) : step.rounds m ≤ bound + 1 := by
  rcases Nat.le_total m n with hle | hle
  · have hearly := rounds_le hle step
    omega
  · obtain ⟨k, rfl⟩ := Nat.exists_eq_add_of_le hle
    have hlate := hrest k
    rw [rounds_add]
    omega

@[simp] theorem rounds_done (n : Nat) (outcome : Outcome) (w : World) :
    (Step.done outcome w).rounds n = 0 := by
  induction n with
  | zero => rfl
  | succ n ih => exact (Nat.zero_add _).trans ih

theorem rounds_of_done {step : Step} {outcome : Outcome} {w : World}
    (hprompt : step.isPrompt = false) (hdone : step.advanced = .done outcome w) (n : Nat) :
    step.rounds n = 0 := by
  cases n with
  | zero => rfl
  | succ n => simp [rounds, hprompt, hdone]

theorem isPrompt_onto (p : Pending) (step : Step) : (step.onto [p]).isPrompt = false := by
  cases step with
  | done outcome w => rfl
  | next s =>
      obtain ⟨control, stack, w⟩ := s
      cases stack <;> cases control <;> rfl

/-- As long as work is pending below, no round begins. -/
theorem rounds_onto {step : Step} {n : Nat} {s : State} (hrun : step.steps n = .next s)
    (p : Pending) : (step.onto [p]).rounds (n + 1) = 0 := by
  induction n generalizing s with
  | zero => simp [rounds, isPrompt_onto]
  | succ n ih =>
      obtain ⟨s', hs'⟩ := steps_eq_next_of_le (Nat.le_succ n) hrun
      have hlast := isPrompt_onto p (.next s)
      rw [rounds_add, ih hs', steps_onto hrun]
      simpa [rounds, onto] using hlast

/-- A run that ends with a value or a fault comes back with it to the work below, and no round of
a session begins before. -/
theorem comes_back {control : Control} {w w' : World} {outcome : Outcome}
    (hends : (go control [] w).Ends outcome w') (htrap : outcome.isTrap = false) (p : Pending) :
    ∃ n, (go control [p] w).rounds (n + 1) = 0 ∧
      ((∃ v, outcome = .value v ∧ (go control [p] w).steps n = go (.resume v) [p] w') ∨
        ∃ f, outcome = .fault f ∧ (go control [p] w).steps n = go (.unwind f) [p] w') := by
  obtain ⟨n, hrun⟩ := hends
  induction n with
  | zero => cases hrun
  | succ n ih =>
      rw [steps_succ'] at hrun
      cases hlast : (go control [] w).steps n with
      | done outcome' w'' =>
          rw [hlast] at hrun
          exact ih (hlast.trans hrun)
      | next s =>
          rw [hlast] at hrun
          have habove := steps_onto hlast [p]
          refine ⟨n, rounds_onto hlast p, ?_⟩
          rcases State.done_cases hrun with heq | ⟨v, hv, rfl⟩ | ⟨f, hf, rfl⟩
          · simp [heq] at htrap
          · exact Or.inl ⟨v, hv, habove⟩
          · exact Or.inr ⟨f, hf, habove⟩

end Step

/-! ## Reading and writing -/

namespace World

variable {w : World}

/-- A step that begins with writing a text: the text is written, which leaves standard input as it
is, or the attempt fails. -/
theorem Attached.after_writeText (hw : w.Attached) {text : String} {use : Unit → World → Step}
    {P : Step → Prop}
    (hvalue : ∀ w', World.writeText .standardOutput text w = .value () w' → w'.Attached →
      w'.reader .standardInput = w.reader .standardInput → P (use () w'))
    (hfault : ∀ cause w', World.writeText .standardOutput text w = .fault (.failed cause) w' →
      P (go (.unwind (.failed cause)) [] w')) :
    P (after (World.writeText .standardOutput text) [] w use) := by
  have hwrite := writeText_eq .standardOutput text w
  unfold after
  split at hwrite
  · simp only [hwrite]
    exact hfault _ _ hwrite
  · rename_i sink _
    obtain ⟨hattached, hreader⟩ := hw.sent .standardOutput sink text
    split at hwrite
    · simp only [hwrite]
      exact hvalue _ hwrite hattached hreader
    · simp only [hwrite]
      exact hfault _ _ hwrite

/-- What is read from standard input while it is open. -/
theorem Attached.readDatum (hw : w.Attached)
    (hopen : (w.reader .standardInput).isClosed = false) :
    ∃ w', World.readDatum .standardInput w = receive (w.reader .standardInput).read.1 w' ∧
      w'.Attached ∧ (w'.reader .standardInput).isClosed = false ∧
      (w'.reader .standardInput).size = (w.reader .standardInput).read.2.size := by
  let r := (w.reader .standardInput).read.2
  let w' : World := { w.noteAll r.drain.1 with inputs := w.inputs.setIfInBounds 0 r.drain.2 }
  have hread : withReader .standardInput Reader.read w =
      .value (w.reader .standardInput).read.1 w' := by
    rw [withReader, hopen]
    rfl
  have hreader : w'.reader .standardInput = r.drain.2 := by
    simp [w', reader, Ref.standardInput, hw.port]
  refine ⟨w', ?_, ⟨by simpa [w'] using hw.port, hw.alone⟩, ?_, ?_⟩
  · change Action.bind (withReader .standardInput Reader.read) receive w = _
    rw [Action.bind, hread]
  · rw [hreader]
    exact (Reader.isClosed_read _).trans hopen
  · rw [hreader]
    rfl

/-! ## One round -/

/-- How a session ends in the round that begins in a world. -/
inductive Parts (w : World) : Outcome → World → Prop where
  /-- There is nothing more to read, or only the beginning of a datum. -/
  | ended {w₁ w₂ : World} (hprompt : World.writeText .standardOutput "> " w = .value () w₁)
      (hread : World.readDatum .standardInput w₁ = .value .endOfFile w₂ ∨
        World.readDatum .standardInput w₁ = .fault .cutShort w₂) : Parts w (.value .nil) w₂
  /-- An evaluation has told it to exit. -/
  | exited {x : Value} {w₁ w₂ : World} {code : Int}
      (hread : (go .prompt [] w).steps 1 = go (.eval x .global) [.answer] w₁)
      (hexit : (go (.eval x .global) [] w₁).Ends (.fault (.exit code)) w₂) :
      Parts w (.fault (.exit code)) w₂
  /-- A text could not be written. -/
  | unwritten {text : String} {w₁ w₂ : World} {cause : Failure}
      (hwrite : World.writeText .standardOutput text w₁ = .fault (.failed cause) w₂) :
      Parts w (.fault (.failed cause)) w₂

/-- The round is over: another one begins, with less to read, or the session ends. -/
inductive Concludes (w : World) : Step → Prop where
  | again {w' : World} (hw' : w'.Attached) (hopen : (w'.reader .standardInput).isClosed = false)
      (hless : (w'.reader .standardInput).size < (w.reader .standardInput).size) :
      Concludes w (go .prompt [] w')
  | last {step : Step} {outcome : Outcome} {w' : World} (hprompt : step.isPrompt = false)
      (hdone : step.advanced = .done outcome w') (hparts : w.Parts outcome w') : Concludes w step

theorem concludes_printAndPrompt {w₁ : World} (hw₁ : w₁.Attached)
    (hopen : (w₁.reader .standardInput).isClosed = false)
    (hless : (w₁.reader .standardInput).size < (w.reader .standardInput).size) (text : String) :
    w.Concludes (printAndPrompt text [] w₁) := by
  refine hw₁.after_writeText (fun w₂ _ hw₂ hreader => ?_) fun _ _ hwrite =>
    .last rfl rfl (.unwritten hwrite)
  exact .again hw₂ (by rwa [hreader]) (by rwa [hreader])

theorem concludes_printValue {w₁ : World} (hw₁ : w₁.Attached)
    (hopen : (w₁.reader .standardInput).isClosed = false)
    (hless : (w₁.reader .standardInput).size < (w.reader .standardInput).size) (v : Value) :
    w.Concludes (printValue v [] w₁) := by
  refine hw₁.after_writeText (fun w₂ _ hw₂ hreader => ?_) fun _ _ hwrite =>
    .last rfl rfl (.unwritten hwrite)
  exact concludes_printAndPrompt hw₂ (by rwa [hreader]) (by rwa [hreader]) "\n"

/-- What a session begins with what it reads: it evaluates a datum, or the round is over. -/
theorem Attached.prompt (hw : w.Attached) (hopen : (w.reader .standardInput).isClosed = false) :
    w.Concludes (Step.prompt [] w) ∨
    ∃ x w₁, Step.prompt [] w = go (.eval x .global) [.answer] w₁ ∧ w₁.Attached ∧
      (w₁.reader .standardInput).size < (w.reader .standardInput).size := by
  refine hw.after_writeText (P := fun step => w.Concludes step ∨ ∃ x w₁,
    step = go (.eval x .global) [.answer] w₁ ∧ w₁.Attached ∧
      (w₁.reader .standardInput).size < (w.reader .standardInput).size)
    (fun w₁ hwrite hw₁ hreader => ?_) fun _ _ hwrite => Or.inl (.last rfl rfl (.unwritten hwrite))
  rw [← hreader] at hopen
  obtain ⟨w₂, hread, hw₂, hopen₂, hsize⟩ := hw₁.readDatum hopen
  have hless : (w₁.reader .standardInput).read.1 ≠ .endOfInput →
      (w₂.reader .standardInput).size < (w.reader .standardInput).size := by
    intro hmore
    rw [hsize, ← hreader]
    exact Reader.size_of_read rfl hmore
  cases hreading : (w₁.reader .standardInput).read.1 with
  | endOfInput =>
      rw [hreading] at hread
      simp only [hread, receive]
      exact Or.inl (.last rfl rfl (.ended hwrite (Or.inl hread)))
  | cutShort =>
      rw [hreading] at hread
      simp only [hread, receive]
      exact Or.inl (.last rfl rfl (.ended hwrite (Or.inr hread)))
  | failed cause =>
      rw [hreading] at hread hless
      simp only [hread, receive]
      exact Or.inl (concludes_printAndPrompt hw₂ hopen₂ (hless (by simp)) _)
  | datum d =>
      rw [hreading] at hread hless
      have hbuild : World.readDatum .standardInput w₁ = .value (w₂.heap.build d).1
        { w₂ with heap := (w₂.heap.build d).2 } := hread
      by_cases hend : (w₂.heap.build d).1 = .endOfFile
      · rw [hend] at hbuild
        simp only [hbuild]
        exact Or.inl (.last rfl rfl (.ended hwrite (Or.inl hbuild)))
      · refine Or.inr ⟨(w₂.heap.build d).1, { w₂ with heap := (w₂.heap.build d).2 }, ?_,
          ⟨hw₂.port, hw₂.alone⟩, hless (by simp)⟩
        simp only [hbuild]

/-- A round comes to its end if the evaluation in it does and leaves standard input open. -/
theorem Attached.round (hw : w.Attached) (hopen : (w.reader .standardInput).isClosed = false)
    (heval : ∀ x w₁, (go .prompt [] w).steps 1 = go (.eval x .global) [.answer] w₁ →
      ∃ outcome w₂, (go (.eval x .global) [] w₁).Ends outcome w₂ ∧ outcome.isTrap = false ∧
        ((w₂.reader .standardInput).isClosed = false ∨ ∃ code, outcome = .fault (.exit code))) :
    ∃ n, (go .prompt [] w).rounds n = 1 ∧ w.Concludes ((go .prompt [] w).steps n) := by
  rcases hw.prompt hopen with hover | ⟨x, w₁, hstep, hw₁, hless⟩
  · exact ⟨1, rfl, hover⟩
  · have hfirst : (go .prompt [] w).steps 1 = go (.eval x .global) [.answer] w₁ := hstep
    obtain ⟨outcome, w₂, hends, htrap, hopen₂⟩ := heval x w₁ hfirst
    obtain ⟨hw₂, hle⟩ := hends.onward hw₁
    have hsmaller := Nat.lt_of_le_of_lt hle hless
    obtain ⟨n, hnone, hback⟩ := comes_back hends htrap .answer
    have hrounds : (go .prompt [] w).rounds (1 + (n + 1)) = 1 := by
      rw [rounds_add, hfirst, hnone]
      rfl
    refine ⟨1 + (n + 1), hrounds, ?_⟩
    rw [steps_add, hfirst, steps_succ']
    rcases hback with ⟨v, rfl, hback⟩ | ⟨f, rfl, hback⟩
    · rw [hback]
      refine concludes_printValue hw₂ ?_ hsmaller v
      simpa using hopen₂
    · rw [hback]
      cases f with
      | exit code => exact .last rfl rfl (.exited hfirst hends)
      | _ =>
          refine concludes_printAndPrompt hw₂ ?_ hsmaller _
          simpa using hopen₂

/-- Interpreters begin with their standard input attached and keep it through all that they are
asked. A session on standard input that is open: if every evaluation of a datum that it reads comes
to a value or a fault, and leaves standard input open unless it exits, then the session ends: where
the input does, by an exit, or because a text cannot be written. A round begins at most once for
each event of the input, and once more. -/
theorem Attached.session_ends (host : Host) (w : World) :
    ((bare host).Attached ∧ (new host).Attached) ∧
    (w.Attached → ∀ request : Request, (request.answer w).2.Attached) ∧
    (w.Attached → (w.reader .standardInput).isClosed = false →
      (∀ n x w₁, (go .prompt [] w).steps n = go (.eval x .global) [.answer] w₁ →
        ∃ outcome w₂, (go (.eval x .global) [] w₁).Ends outcome w₂ ∧ outcome.isTrap = false ∧
          ((w₂.reader .standardInput).isClosed = false ∨
            ∃ code, outcome = .fault (.exit code))) →
      (∃ n last outcome w', (go .prompt [] w).steps n = go .prompt [] last ∧
        last.Parts outcome w' ∧ (go .prompt [] w).Ends outcome w') ∧
      ∀ n, (go .prompt [] w).rounds n ≤ (w.reader .standardInput).size + 1) := by
  refine ⟨⟨attached_bare host, attached_new host⟩, fun hw request => hw.answer request,
    fun hw hopen hevals => ?_⟩
  -- by how much there is to read, which every round but the last lessens
  induction hsize : (w.reader .standardInput).size using Nat.strongRecOn generalizing w with
  | ind size ih =>
      subst hsize
      obtain ⟨n, hfirst, hover⟩ := hw.round hopen (hevals 1)
      generalize hstep : (go .prompt [] w).steps n = step at hover
      cases hover with
      | @again w' hw' hopen' hless =>
          have hevals' := fun k x w₁ (hk : (go .prompt [] w').steps k = _) =>
            hevals (n + k) x w₁ (by rw [steps_add, hstep, hk])
          obtain ⟨⟨k, last, outcome, w'', hlast, hparts, hends⟩, hrounds⟩ :=
            ih _ hless _ hw' hopen' hevals' rfl
          refine ⟨⟨n + k, last, outcome, w'', by rw [steps_add, hstep, hlast], hparts, ?_⟩, ?_⟩
          · obtain ⟨j, hj⟩ := hends
            exact ⟨n + j, by rw [steps_add, hstep, hj]⟩
          · refine rounds_le_succ hfirst fun k => ?_
            rw [hstep]
            exact Nat.le_trans (hrounds k) hless
      | @last _ outcome w' hprompt hdone hparts =>
          refine ⟨⟨0, w, outcome, w', rfl, hparts, n + 1, by rw [steps_succ', hstep, hdone]⟩, ?_⟩
          refine rounds_le_succ hfirst fun k => ?_
          rw [hstep, rounds_of_done hprompt hdone]
          exact Nat.zero_le _

/-- A session that reads one datum and comes to the end of its input, after which standard input is
attached as before. -/
theorem Attached.session_ends_boolean :
    let w := bare { nowhere with input := Event.ofText ['#', 't'] }
    w.Attached ∧ (w.reader .standardInput).isClosed = false ∧ (w.reader .standardInput).size = 2 ∧
    (∃ x w₁, (go .prompt [] w).steps 1 = go (.eval x .global) [.answer] w₁) ∧
    (∃ last w' : World, last.Parts (.value .nil) w' ∧
      (go .prompt [] w).Ends (.value .nil) w') ∧
    (∀ n, (go .prompt [] w).rounds n ≤ 3) ∧ (Request.converse.answer w).2.Attached := by
  intro w
  have hends : ∃ w', (go .prompt [] w).steps 7 = .done (.value .nil) w' := ⟨_, rfl⟩
  obtain ⟨w', hends⟩ := hends
  have hevals : ∀ n x w₁, (go .prompt [] w).steps n = go (.eval x .global) [.answer] w₁ →
      ∃ outcome w₂, (go (.eval x .global) [] w₁).Ends outcome w₂ ∧ outcome.isTrap = false ∧
        ((w₂.reader .standardInput).isClosed = false ∨ ∃ code, outcome = .fault (.exit code)) := by
    intro n x w₁ hn
    match n with
    | 1 =>
        cases hn
        exact ⟨.value (.boolean true), _, ⟨4, rfl⟩, rfl, Or.inl rfl⟩
    | 0 | 2 | 3 | 4 | 5 | 6 => cases hn
    | n + 7 =>
        rw [steps_eq_done_of_le (Nat.le_add_left 7 n) hends] at hn
        cases hn
  obtain ⟨⟨n, last, outcome, w'', -, hparts, hends'⟩, hrounds⟩ :=
    (session_ends nowhere w).2.2 (attached_bare _) rfl hevals
  have hafter := (session_ends nowhere w).2.1 (attached_bare _) .converse
  obtain ⟨rfl, rfl⟩ := hends'.unique ⟨7, hends⟩
  exact ⟨attached_bare _, rfl, rfl, ⟨_, _, rfl⟩, ⟨last, _, hparts, hends'⟩, hrounds, hafter⟩

end World

/-! ## A session without an end -/

namespace Step

/-- A session is about to evaluate a datum. -/
def reads : Step → Bool
  | .next ⟨.eval _ _, [.answer], _⟩ => true
  | _ => false

/-- The step with nothing else to do. -/
def alone : Step → Step
  | .next s => .next { s with stack := [] }
  | .done outcome w => .done outcome w

def hasValue : Step → Bool
  | .done (.value _) _ => true
  | _ => false

theorem eq_of_isPrompt {step : Step} (h : step.isPrompt = true) : ∃ w, step = go .prompt [] w := by
  unfold isPrompt at h
  split at h
  · exact ⟨_, rfl⟩
  · cases h

theorem exists_of_hasValue {step : Step} {n : Nat} (h : (step.steps n).hasValue = true) :
    ∃ v w, step.Ends (.value v) w := by
  unfold hasValue at h
  split at h
  · rename_i v w hdone
    exact ⟨v, w, n, hdone⟩
  · cases h

end Step

namespace World

variable {w : World}

theorem writeText_console (hconsole : w.sink .standardOutput = some .console) (text : String) :
    ∃ w', writeText .standardOutput text w = .value () w' ∧ w'.inputs = w.inputs ∧
      w'.sink .standardOutput = some .console := by
  refine ⟨w.sent .standardOutput .console text, ?_, rfl, ?_⟩
  · rw [writeText_eq, hconsole]
    rfl
  · simp only [sink, Ref.standardOutput, Option.join_eq_some_iff] at hconsole
    obtain ⟨hoccupied, -⟩ := Array.getElem?_eq_some_iff.1 hconsole
    simp [sent, sinkChanged, Host.write, sink, Ref.standardOutput, hoccupied]

/-- Where standard input is closed and the console takes every text, rounds follow on rounds. -/
theorem prompts_forever (hclosed : (w.reader .standardInput).isClosed = true)
    (hconsole : w.sink .standardOutput = some .console) (n : Nat) :
    ∃ w', (go .prompt [] w).steps n = go .prompt [] w' := by
  induction n generalizing w with
  | zero => exact ⟨w, rfl⟩
  | succ n ih =>
      obtain ⟨w₁, hwrite, hinputs, hconsole₁⟩ := writeText_console hconsole "> "
      have hclosed₁ : (w₁.reader .standardInput).isClosed = true := by rwa [reader, hinputs]
      have hread : readDatum .standardInput w₁ =
          .fault (.failed .inputClosed) (w₁.note (.failure .inputClosed)) := by
        change Action.bind (withReader .standardInput Reader.read) receive w₁ = _
        rw [Action.bind, withReader, hclosed₁]
        rfl
      obtain ⟨w₂, hshow, hinputs₂, hconsole₂⟩ := writeText_console
        (w := w₁.note (.failure .inputClosed)) hconsole₁
        ("Error: " ++ (Fault.failed .inputClosed).message ++ "\n")
      have hstep : (go .prompt [] w).advanced = go .prompt [] w₂ := by
        change Step.prompt [] w = _
        simp only [Step.prompt, after, hwrite, hread, printAndPrompt, hshow]
      have hclosed₂ : (w₂.reader .standardInput).isClosed = true := by rwa [reader, hinputs₂]
      rw [steps_succ, hstep]
      exact ih hclosed₂ hconsole₂

deriving instance DecidableEq for Sink

/-- A text that closes the port it is read from. -/
def closing : World :=
  bare { nowhere with
    input := Event.ofText "(close-input-port (current-input-port))".toList }

/-- The steps of the first round, and of its evaluation alone. -/
theorem closing_steps :
    (∀ n < 19, n ≠ 1 → ((go .prompt [] closing).steps n).reads = false) ∧
    (((go .prompt [] closing).steps 1).alone.steps 18).hasValue = true ∧
    ((go .prompt [] closing).steps 19).isPrompt = true ∧
    (((go .prompt [] closing).steps 19).outcome.2.reader .standardInput).isClosed = true ∧
    ((go .prompt [] closing).steps 19).outcome.2.sink .standardOutput = some .console := by
  decide +kernel

/-- All that is read is evaluated to a value, and the session never ends. -/
theorem session_without_end :
    (∀ n x w₁, (go .prompt [] closing).steps n = go (.eval x .global) [.answer] w₁ →
      ∃ v w₂, (go (.eval x .global) [] w₁).Ends (.value v) w₂) ∧
    ∀ n, ∃ s, (go .prompt [] closing).steps n = .next s := by
  obtain ⟨hothers, hvalue, hprompt, hclosed, hconsole⟩ := closing_steps
  obtain ⟨w, hw⟩ := eq_of_isPrompt hprompt
  rw [hw] at hclosed hconsole
  have hforever : ∀ n, 19 ≤ n → ∃ w', (go .prompt [] closing).steps n = go .prompt [] w' := by
    intro n hle
    obtain ⟨k, rfl⟩ := Nat.exists_eq_add_of_le hle
    rw [steps_add, hw]
    exact prompts_forever hclosed hconsole k
  constructor
  · intro n x w₁ hn
    by_cases hlate : 19 ≤ n
    · obtain ⟨w', hw'⟩ := hforever n hlate
      cases hw'.symm.trans hn
    · by_cases hfirst : n = 1
      · subst hfirst
        rw [hn] at hvalue
        exact exists_of_hasValue hvalue
      · have hnone := hothers n (Nat.lt_of_not_le hlate) hfirst
        rw [hn] at hnone
        cases hnone
  · intro n
    obtain ⟨w', hw'⟩ := hforever (max n 19) (Nat.le_max_right n 19)
    exact steps_eq_next_of_le (Nat.le_max_left n 19) hw'

end World

end Scheme
