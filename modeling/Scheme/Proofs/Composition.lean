import Scheme.Proofs.Levels
import Scheme.Proofs.LineBreaks
import Scheme.Proofs.Logs
/-!
# Programs on lines of their own

Two texts with a line break between them are one program: the first text as if it were alone, and,
if all its evaluations succeed, the second. The two runs are compared step by step.
-/

namespace Scheme

open Step

/-- A step that ends in a trap does so above other work too. -/
theorem State.step_onto_trap {s : State} {outcome : Outcome} {w : World}
    (hdone : s.step = .done outcome w) (htrap : outcome.isTrap = true) (base : List Pending) :
    State.step { s with stack := s.stack ++ base } = .done outcome w := by
  have hdeep : ¬ s.TooDeep := fun hdeep => by
    rw [hdeep.step] at hdone
    cases hdone
  have hself := State.step_shifted hdeep (Nat.le_refl _) [] (Or.inl rfl)
  have hbase := State.step_shifted hdeep (Nat.le_refl _) base
    (Or.inr (State.not_final_of_trap hdone htrap))
  have hshifted : s.shifted [] s.world.maxDepth = s := by simp [State.shifted, World.underLimit]
  rw [hshifted, hdone] at hself
  rw [hdone] at hbase
  exact hbase.trans hself.symm

/-- A text that is read to its end without a failure. -/
def Reader.Ends (r : Reader) : Prop :=
  ∃ data r₁, r.readAll = (data, .endOfInput, r₁)

theorem Reader.Ends.drained {r : Reader} (h : r.Ends) : r.drain.2.Ends := by
  obtain ⟨data, r₁, hread⟩ := h
  rw [readAll_eq_drain, Prod.mk.injEq, Prod.mk.injEq] at hread
  exact ⟨data, _, Prod.ext hread.1 (Prod.ext hread.2.1 rfl)⟩

/-- What the two runs have in common while the first text is read: all but the readers. -/
inductive Along (y : List Char) (reports : List Entry) : State → State → Prop where
  | reading {r r' : Reader} (hahead : r.Ahead y reports r') (hends : r.Ends) (last : Value)
      (w : World) :
      Along y reports ⟨.advance (.text r) last, [], w⟩ ⟨.advance (.text r') last, [], w⟩
  | evaluating {r r' : Reader} (hahead : r.Ahead y reports r') (hends : r.Ends)
      (control : Control) (stack : List Pending) (w : World) :
      Along y reports ⟨control, stack ++ [.program (.text r)], w⟩
        ⟨control, stack ++ [.program (.text r')], w⟩
  | failing (f : Fault) (w : World) : Along y reports ⟨.unwind f, [], w⟩ ⟨.unwind f, [], w⟩

variable {y : List Char} {reports : List Entry}

theorem State.step_advance (r : Reader) (last : Value) (w : World) :
    State.step ⟨.advance (.text r) last, [], w⟩ = proceed last r.read.1 (.text r.read.2.drain.2) []
      (w.noteAll r.read.2.cursor.entries) :=
  advance_eq (.text r) last [] w

/-- One step while the first text is read, up to its end. -/
theorem Along.step {s s' s₁ : State} (h : Along y reports s s') (hnext : s.step = .next s₁) :
    (∃ s₁', s'.step = .next s₁' ∧ Along y reports s₁ s₁') ∨
      ∃ v w entries, s₁ = ⟨.resume v, [], w.noteAll entries⟩ ∧
        s'.step = State.step ⟨.advance (.text (.resuming y entries)) v, [], w⟩ ∧
        (.hashAtEnd ∈ entries → .hashAtEnd ∈ reports) := by
  cases h with
  | @reading r r' hahead hends last w =>
      have hhere := State.step_advance r last w
      have hthere := State.step_advance r' last w
      rw [hnext] at hhere
      obtain ⟨data, r₁, hall⟩ := hends
      rcases Reader.read_of_readAll hall with ⟨-, hread, -⟩ | ⟨d, others, r₂, -, hread, hothers⟩
      · obtain ⟨hsame, hhash⟩ := hahead.read_end hread
        rw [hread] at hhere
        refine Or.inr ⟨last, w, r₁.cursor.entries, Step.next.inj hhere, ?_, hhash⟩
        rw [hthere, hsame, State.step_advance]
      · obtain ⟨r₂', hread', hahead'⟩ := hahead.read_found hread rfl
        rw [hread] at hhere
        rw [hread', hahead'.entries] at hthere
        obtain rfl := Step.next.inj hhere
        have hends : r₂.Ends := ⟨others, r₁, hothers⟩
        exact Or.inl ⟨_, hthere, .evaluating hahead'.drained hends.drained _ [] _⟩
  | @evaluating r r' hahead hends control stack w =>
      refine Or.inl ?_
      cases hinner : State.step ⟨control, stack, w⟩ with
      | next t =>
          have hhere := State.step_onto hinner [.program (.text r)]
          have hthere := State.step_onto hinner [.program (.text r')]
          rw [hnext] at hhere
          obtain rfl := Step.next.inj hhere
          exact ⟨_, hthere, .evaluating hahead hends t.control t.stack t.world⟩
      | done outcome w' =>
          rcases State.done_cases hinner with htrap | ⟨v, -, heq⟩ | ⟨f, -, heq⟩
          · have hhere := State.step_onto_trap hinner htrap [.program (.text r)]
            rw [hnext] at hhere
            cases hhere
          · cases heq
            cases hnext
            exact ⟨_, rfl, .reading hahead hends v w⟩
          · cases heq
            cases hnext
            exact ⟨_, rfl, .failing f w⟩
  | failing f w => cases hnext

theorem Along.step_done {s s' : State} {outcome : Outcome} {w : World}
    (h : Along y reports s s') (hdone : s.step = .done outcome w) :
    s'.step = .done outcome w := by
  cases h with
  | @reading r r' hahead hends last w₀ =>
      rw [State.step_advance] at hdone
      cases hreading : r.read.1 <;> rw [hreading] at hdone <;> cases hdone
  | @evaluating r r' hahead hends control stack w₀ =>
      cases hinner : State.step ⟨control, stack, w₀⟩ with
      | next t =>
          have hhere := State.step_onto hinner [.program (.text r)]
          rw [hdone] at hhere
          cases hhere
      | done outcome' w' =>
          rcases State.done_cases hinner with htrap | ⟨v, -, heq⟩ | ⟨f, -, heq⟩
          · have hhere := State.step_onto_trap hinner htrap [.program (.text r)]
            have hthere := State.step_onto_trap hinner htrap [.program (.text r')]
            exact hthere.trans (hhere.symm.trans hdone)
          · cases heq
            cases hdone
          · cases heq
            cases hdone
  | failing f w₀ => exact hdone

/-! ## Runs -/

/-- The run has come to a value. -/
def Step.Succeeds (step : Step) : Prop :=
  ∃ v w, step = go (.resume v) [] w ∨ step = .done (.value v) w

theorem Step.Succeeds.advanced {step : Step} (h : step.Succeeds) : step.advanced.Succeeds := by
  obtain ⟨v, w, rfl | rfl⟩ := h
  · exact ⟨v, w, Or.inr rfl⟩
  · exact ⟨v, w, Or.inr rfl⟩

/-- What is to be seen of a run at a moment: what is done next, unless a program is read, how the
run has ended, and the world. -/
def Step.moment : Step → Option Control × Outcome × World
  | .next ⟨.advance _ _, _, w⟩ => (none, .unfinished, w)
  | .next ⟨control, _, w⟩ => (some control, .unfinished, w)
  | .done outcome w => (none, outcome, w)

/-- Two runs at the same moment, while the first text is read or after it has failed. -/
inductive Mirrors (y : List Char) (reports : List Entry) : Step → Step → Prop where
  | next {s s' : State} (h : Along y reports s s') : Mirrors y reports (.next s) (.next s')
  | done (outcome : Outcome) (w : World) : Mirrors y reports (.done outcome w) (.done outcome w)

theorem Mirrors.moment_eq {first both : Step} (h : Mirrors y reports first both) :
    both.moment = first.moment := by
  cases h with
  | done => rfl
  | next h =>
      cases h with
      | evaluating _ _ control => cases control <;> rfl
      | reading | failing => rfl

theorem Mirrors.steps {first both : Step} (h : Mirrors y reports first both) {n : Nat}
    (hopen : ¬ (first.steps n).Succeeds) : Mirrors y reports (first.steps n) (both.steps n) := by
  induction n with
  | zero => exact h
  | succ n ih =>
      rw [steps_succ'] at hopen
      have hbefore := ih fun hsucceeds => hopen hsucceeds.advanced
      rw [steps_succ', steps_succ']
      generalize first.steps n = a at hopen hbefore
      generalize both.steps n = b at hbefore
      cases hbefore with
      | done outcome w => exact .done outcome w
      | @next s s' h =>
          change ¬ s.step.Succeeds at hopen
          change Mirrors y reports s.step s'.step
          cases hstep : s.step with
          | done outcome w =>
              rw [h.step_done hstep]
              exact .done outcome w
          | next s₁ =>
              rcases h.step hstep with ⟨s₁', hstep', h'⟩ | ⟨v, w, entries, rfl, -⟩
              · rw [hstep']
                exact .next h'
              · exact absurd ⟨v, _, Or.inl hstep⟩ hopen

/-- Where the first text has come to a value, the run of the two reads on. -/
theorem Mirrors.reads_on {first both : Step} (h : Mirrors y reports first both) {n : Nat}
    {v : Value} {w₁ : World} (hvalue : first.steps (n + 1) = go (.resume v) [] w₁) :
    ∃ w entries, w₁ = w.noteAll entries ∧
      both.steps (n + 1) = State.step ⟨.advance (.text (.resuming y entries)) v, [], w⟩ ∧
      (.hashAtEnd ∈ entries → .hashAtEnd ∈ reports) := by
  have hopen : ¬ (first.steps n).Succeeds := by
    rintro ⟨u, w, heq | heq⟩ <;> rw [steps_succ', heq] at hvalue <;> cases hvalue
  have hbefore := h.steps hopen
  rw [steps_succ'] at hvalue ⊢
  generalize first.steps n = a at hvalue hbefore
  generalize both.steps n = b at hbefore
  cases hbefore with
  | done outcome w => cases hvalue
  | @next s s' h =>
      rcases h.step hvalue with ⟨s₁', -, h'⟩ | ⟨u, w, entries, heq, hstep, hhash⟩
      · generalize hs₁ : State.mk (.resume v) [] w₁ = s₁ at h'
        cases h' with
        | evaluating _ _ _ stack => simp at hs₁
        | reading | failing => cases hs₁
      · cases heq
        exact ⟨w, entries, rfl, hstep, hhash⟩

/-- A world with entries noted is the world without a log after its log and the entries. -/
theorem World.noteAll_eq_logged (w : World) (entries : List Entry) :
    w.noteAll entries = World.logged (w.log ++ entries.toArray) { w with log := #[] } := by
  simp [World.noteAll, World.logged]

theorem World.noteAll_append (w : World) (entries others : List Entry) :
    w.noteAll (entries ++ others) = (w.noteAll entries).noteAll others := by
  simp [World.noteAll]

/-- Reading on with a second text is reading it with the reports of the first already made. -/
theorem State.step_resuming (s₂ : List Char) (entries : List Entry) (v : Value) (w : World) :
    State.step ⟨.advance (.text (.resuming ('\n' :: s₂) entries)) v, [], w⟩ =
      State.step ⟨.advance (.text (.ofText s₂)) v, [], w.noteAll (entries.map .atLineBreak)⟩ := by
  rw [State.step_advance, State.step_advance, Reader.read_resuming_lineBreak, Reader.resuming,
    Reader.read_prefaced]
  simp only [Reader.prefaced, World.noteAll_append]
  rfl

/-- The value so far matters only to a text without data. -/
theorem State.step_last {s₂ : List Char} (v : Value) (w : World) :
    ((Reader.ofText s₂).read.1 ≠ .endOfInput →
      State.step ⟨.advance (.text (.ofText s₂)) v, [], w⟩ =
        State.step ⟨.advance (.text (.ofText s₂)) .nil, [], w⟩) ∧
    ((Reader.ofText s₂).read.1 = .endOfInput →
      State.step ⟨.advance (.text (.ofText s₂)) v, [], w⟩ =
        go (.resume v) [] (w.noteAll (Reader.ofText s₂).read.2.cursor.entries)) := by
  rw [State.step_advance, State.step_advance]
  constructor
  · intro hdata
    cases hreading : (Reader.ofText s₂).read.1 with
    | endOfInput => exact absurd hreading hdata
    | _ => rfl
  · intro hend
    rw [hend]
    rfl

/-- The log after the first text, alone and before a line break: of what the last reading reported,
the mark at the end of the input is reported as a mark before the line break. -/
def LogAtLineBreak (reports : List Entry) (log log' : Array Entry) : Prop :=
  ∃ (earlier : Array Entry) (entries : List Entry),
    log = earlier ++ entries.toArray ∧ log' = earlier ++ (entries.map .atLineBreak).toArray ∧
      (.hashAtEnd ∈ entries → .hashAtEnd ∈ reports)

/-- From the value of the first text on, the run of the two texts is the run of the second in the
world that the first leaves. -/
theorem Mirrors.goes_on {s₂ : List Char} {first both : Step}
    (h : Mirrors ('\n' :: s₂) reports first both) {n : Nat} {v : Value} {w₁ : World}
    (hvalue : first.steps (n + 1) = go (.resume v) [] w₁) :
    ∃ log, LogAtLineBreak reports w₁.log log ∧
      ((Reader.ofText s₂).read.1 ≠ .endOfInput → ∀ k, ∃ step : Step,
        (go (.advance (.text (.ofText s₂)) .nil) [] w₁).steps (k + 1) = step.logged w₁.log ∧
        both.steps (n + 1 + k) = step.logged log) ∧
      ((Reader.ofText s₂).read.1 = .endOfInput → ∃ w₂ : World,
        (go (.advance (.text (.ofText s₂)) .nil) [] w₁).steps 1 =
          go (.resume .nil) [] (w₂.logged w₁.log) ∧
        both.steps (n + 1) = go (.resume v) [] (w₂.logged log)) := by
  obtain ⟨w₀, entries, rfl, hreads, hhash⟩ := h.reads_on hvalue
  rw [State.step_resuming] at hreads
  -- what both runs add to the log they add to an empty log as well
  let bare : World := { w₀ with log := #[] }
  have hlog : (w₀.noteAll entries).log = w₀.log ++ entries.toArray := by simp [World.noteAll]
  have hhere := w₀.noteAll_eq_logged entries
  have hthere := w₀.noteAll_eq_logged (entries.map .atLineBreak)
  refine ⟨w₀.log ++ (entries.map .atLineBreak).toArray, ⟨w₀.log, entries, hlog, rfl, hhash⟩, ?_, ?_⟩
  · intro hdata k
    refine ⟨(State.step ⟨.advance (.text (.ofText s₂)) .nil, [], bare⟩).steps k, ?_, ?_⟩
    · rw [hlog, ← steps_logged, ← State.step_logged, go, steps_next, hhere]
      rfl
    · rw [steps_add, hreads, (State.step_last v _).1 hdata, ← steps_logged, ← State.step_logged,
        hthere]
      rfl
  · intro hend
    have hnoted (earlier : Array Entry) (more : List Entry) :=
      (World.plainChange_noteAll more).logged bare earlier
    refine ⟨bare.noteAll (Reader.ofText s₂).read.2.cursor.entries, ?_, ?_⟩
    · rw [go, steps_next, steps_zero, (State.step_last .nil _).2 hend, hlog, hhere, hnoted]
    · rw [hreads, (State.step_last v _).2 hend, hthere, hnoted]

/-- Two texts with a line break between them. If the end of the first cuts off no string and no
character, the tokens are those of the first and then those of the second. If moreover the first
is read to its end without a failure, the data are those of the first, and then all that a reader
on the second answers. As long as the first text has not come to a value, its run and that of the
two texts are the same at every moment, also if it fails; from there on the run of the two texts is
the run of the second in the world that the first leaves. -/
theorem source_composes_at_line_break (s₁ s₂ : String)
    (hunbroken : Unbroken (Cursor.ofText s₁.toList).tokens.2.entries) :
    let both := s₁ ++ "\n" ++ s₂
    (Cursor.ofText both.toList).tokens.1 =
      (Cursor.ofText s₁.toList).tokens.1 ++ (Cursor.ofText s₂.toList).tokens.1 ∧
    ∀ data r₁, (Reader.ofText s₁.toList).readAll = (data, .endOfInput, r₁) →
      (Reader.ofText both.toList).readAll =
        (data ++ (Reader.ofText s₂.toList).readAll.1, (Reader.ofText s₂.toList).readAll.2.1,
          (Reader.ofText s₂.toList).readAll.2.2.prefaced (r₁.cursor.entries.map .atLineBreak)) ∧
      ∀ w,
        (∀ n, ¬ (((Request.interpret s₁).start w).steps n).Succeeds →
          (((Request.interpret both).start w).steps n).moment =
            (((Request.interpret s₁).start w).steps n).moment) ∧
        ∀ n v w₁, ((Request.interpret s₁).start w).steps (n + 1) = go (.resume v) [] w₁ →
          ∃ log, LogAtLineBreak (Cursor.ofText s₁.toList).tokens.2.entries w₁.log log ∧
            ((Reader.ofText s₂.toList).read.1 ≠ .endOfInput → ∀ k, ∃ step : Step,
              ((Request.interpret s₂).start w₁).steps (k + 1) = step.logged w₁.log ∧
              ((Request.interpret both).start w).steps (n + 1 + k) = step.logged log) ∧
            ((Reader.ofText s₂.toList).read.1 = .endOfInput → ∃ w₂ : World,
              ((Request.interpret s₂).start w₁).steps 1 =
                go (.resume .nil) [] (w₂.logged w₁.log) ∧
              ((Request.interpret both).start w).steps (n + 1) =
                go (.resume v) [] (w₂.logged log)) := by
  intro both
  have hboth : both.toList = s₁.toList ++ '\n' :: s₂.toList := by simp [both]
  have hbreak : s₁.toList = [] ∨ Breaks s₁.toList ('\n' :: s₂.toList) := Or.inr (Or.inr rfl)
  obtain ⟨tokens₁, entries₁, hlexes₁⟩ := Lexes.total s₁.toList
  obtain ⟨tokens₂, entries₂, hlexes₂⟩ := Lexes.total s₂.toList
  obtain ⟨htokens₁, hreports⟩ := (standsAt_ofText s₁.toList).tokens hlexes₁
  rw [show (Cursor.ofText s₁.toList).entries = [] from rfl, List.nil_append] at hreports
  rw [hreports] at hunbroken ⊢
  have hahead := Reader.ahead_ofText hbreak hlexes₁ hunbroken
  refine ⟨?_, fun data r₁ hread => ⟨?_, fun w => ?_⟩⟩
  · have hlexes := hlexes₁.across hlexes₂.lineBreak hbreak hunbroken
    rw [hboth, ((standsAt_ofText _).tokens hlexes).1, htokens₁,
      ((standsAt_ofText _).tokens hlexes₂).1]
  · rw [hboth, (hahead.readAll_end hread).1,
      Reader.readAll_congr (Reader.read_resuming_lineBreak s₂.toList r₁.cursor.entries),
      Reader.resuming, Reader.readAll_prefaced]
  · have hmirrors : Mirrors ('\n' :: s₂.toList) entries₁ ((Request.interpret s₁).start w)
        ((Request.interpret both).start w) := by
      rw [Request.start, Request.start, hboth]
      exact .next (.reading hahead ⟨data, r₁, hread⟩ .nil w)
    exact ⟨fun n hopen => (hmirrors.steps hopen).moment_eq, fun n v w₁ => hmirrors.goes_on⟩

/-- A first text that ends in a mark, in an interpreter that knows the primitives only. -/
theorem source_composes_after_mark :
    Unbroken (Cursor.ofText "#t #".toList).tokens.2.entries ∧
    (Cursor.ofText "#t #\n#f".toList).tokens.1 = [.boolean true, .boolean false] ∧
    ∃ (w₁ : World) (log : Array Entry) (step : Step),
      ((Request.interpret "#t #").start (World.bare World.nowhere)).steps 6 =
        go (.resume (.boolean true)) [] w₁ ∧ w₁.log = #[.hashAtEnd] ∧
      LogAtLineBreak [.hashAtEnd] w₁.log log ∧
      ((Request.interpret "#f").start w₁).steps 7 = step.logged w₁.log ∧
      ((Request.interpret "#t #\n#f").start (World.bare World.nowhere)).steps 12 =
        step.logged log := by
  have htrue : (scan .between (Event.ofText "#t #".toList)).Gives (.boolean true) [] " #".toList :=
    ⟨rfl, rfl, rfl⟩
  have hmark : (scan .between (Event.ofText " #".toList)).Gives .endOfInput [.hashAtEnd] [] :=
    ⟨rfl, rfl, rfl⟩
  have hfalse : (scan .between (Event.ofText "#f".toList)).Gives (.boolean false) [] [] :=
    ⟨rfl, rfl, rfl⟩
  have hend : (scan .between (Event.ofText [])).Gives .endOfInput [] [] := ⟨rfl, rfl, rfl⟩
  obtain ⟨htokens₁, hentries₁⟩ :=
    (standsAt_ofText "#t #".toList).tokens (.more htrue (by simp) (.done hmark))
  have hunbroken : Unbroken (Cursor.ofText "#t #".toList).tokens.2.entries := by
    rw [hentries₁]
    exact ⟨by simp [Cursor.ofText], by simp [Cursor.ofText]⟩
  have hvalue : ∃ w₁, ((Request.interpret "#t #").start (World.bare World.nowhere)).steps 6 =
      go (.resume (.boolean true)) [] w₁ ∧ w₁.log = #[.hashAtEnd] := ⟨_, rfl, rfl⟩
  obtain ⟨w₁, hvalue, hlog₁⟩ := hvalue
  obtain ⟨htokens, hrest⟩ := source_composes_at_line_break "#t #" "#f" hunbroken
  obtain ⟨-, hruns⟩ := hrest [.boolean true] _ rfl
  obtain ⟨log, hlog, hgoes, -⟩ := (hruns _).2 5 (.boolean true) w₁ hvalue
  have hdata : (Reader.ofText "#f".toList).read.1 ≠ .endOfInput := by
    intro hend
    cases hend
  obtain ⟨step, hstep, hboth⟩ := hgoes hdata 6
  rw [hentries₁] at hlog
  rw [htokens₁, ((standsAt_ofText _).tokens (.more hfalse (by simp) (.done hend))).1] at htokens
  exact ⟨hunbroken, htokens, w₁, log, step, hvalue, hlog₁, hlog, hstep, hboth⟩

end Scheme
