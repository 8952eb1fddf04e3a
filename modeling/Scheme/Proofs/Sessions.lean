import Scheme.Proofs.Composition
import Scheme.Session
/-!
# Sessions of lines

A session gathers lines until they hold complete data, and evaluates them together. A line break is
no place where a token goes on, so what it evaluates, part by part, is what a reader on all the
lines reads.
-/

namespace Scheme

open Step

/-! ## What a program that comes to a value has read -/

/-- The step with which the evaluation of a datum begins. -/
def Step.evaluation (d : Datum) (stack : List Pending) (w : World) : Step :=
  go (.eval (w.heap.build d).1 .global) stack { w with heap := (w.heap.build d).2 }

/-- A reader answers the data, up to the end, and each is evaluated to a value before the next is
read. -/
inductive Evaluates : Reader → Value → World → List Datum → Value → World → Prop where
  | done {r r' : Reader} (last : Value) (w : World) (hread : r.read = (.endOfInput, r')) :
      Evaluates r last w [] last (w.noteAll r'.cursor.entries)
  | datum {r r' : Reader} {last u v : Value} {w w₁ w' : World} {d : Datum} {data : List Datum}
      (hread : r.read = (.datum d, r'))
      (heval : (evaluation d [] (w.noteAll r'.cursor.entries)).Ends (.value u) w₁)
      (hrest : Evaluates r'.drain.2 u w₁ data v w') : Evaluates r last w (d :: data) v w'

/-- A program that comes to a value has evaluated the datum before to a value. -/
theorem State.value_above_program {s : State} {program : Program} {n : Nat} {v : Value} {w' : World}
    (h : (Step.next { s with stack := s.stack ++ [.program program] }).steps n =
      .done (.value v) w') :
    ∃ u w₁ k, k < n ∧ (Step.next s).Ends (.value u) w₁ ∧
      (go (.advance program u) [] w₁).steps k = .done (.value v) w' := by
  induction n generalizing s with
  | zero => cases h
  | succ n ih =>
      rw [steps_next] at h
      cases hinner : s.step with
      | next t =>
          rw [State.step_onto hinner] at h
          obtain ⟨u, w₁, k, hk, ⟨m, hends⟩, hrest⟩ := ih h
          exact ⟨u, w₁, k, by omega, ⟨m + 1, by rw [steps_next, hinner, hends]⟩, hrest⟩
      | done outcome w =>
          rcases State.done_cases hinner with htrap | ⟨u, rfl, rfl⟩ | ⟨f, rfl, rfl⟩
          · rw [State.step_onto_trap hinner htrap, steps_done] at h
            cases h
            simp [Outcome.isTrap] at htrap
          · exact ⟨u, w, n, by omega, ⟨1, rfl⟩, h⟩
          · -- the fault passes the program and ends the run
            have hends : (go (.unwind f) [] w).Ends (.fault f) w := ⟨1, rfl⟩
            have hvalue : (go (.unwind f) [] w).Ends (.value v) w' := ⟨n, h⟩
            cases (hends.unique hvalue).1

theorem Evaluates.of_steps {r : Reader} {last v : Value} {w w' : World} {n : Nat}
    (h : (go (.advance (.text r) last) [] w).steps n = .done (.value v) w') :
    ∃ data r₁, Evaluates r last w data v w' ∧ r.readAll = (data, .endOfInput, r₁) := by
  induction n using Nat.strongRecOn generalizing r last w with
  | _ n ih =>
      cases n with
      | zero => cases h
      | succ n =>
          rw [go, steps_next, State.step_advance] at h
          cases hread : r.read with
          | mk reading r' =>
              rw [hread] at h
              cases reading with
              | datum d =>
                  obtain ⟨u, w₁, k, hk, heval, hrest⟩ := State.value_above_program (s := ⟨_, [], _⟩) h
                  obtain ⟨data, r₁, hevaluates, hall⟩ := ih k (by omega) hrest
                  refine ⟨d :: data, r₁.prefaced r'.cursor.entries,
                    .datum hread heval hevaluates, ?_⟩
                  rw [Reader.readAll_of_datum hread, Reader.readAll_eq_drain, hall]
              | endOfInput =>
                  have hends : (go (.resume last) [] (w.noteAll r'.cursor.entries)).Ends
                      (.value last) (w.noteAll r'.cursor.entries) := ⟨1, rfl⟩
                  have hvalue : (go (.resume last) [] (w.noteAll r'.cursor.entries)).Ends
                      (.value v) w' := ⟨n, h⟩
                  obtain ⟨hlast, rfl⟩ := hends.unique hvalue
                  obtain rfl := Outcome.value.inj hlast
                  exact ⟨[], r', .done last w hread, Reader.readAll_of_last hread (by simp)⟩
              | failed cause =>
                  have hends : (go (.unwind (.failed cause)) [] (w.noteAll r'.cursor.entries)).Ends
                      (.fault (.failed cause)) (w.noteAll r'.cursor.entries) := ⟨1, rfl⟩
                  cases (hends.unique ⟨n, h⟩).1
              | cutShort =>
                  have hends : (go (.unwind .cutShort) [] (w.noteAll r'.cursor.entries)).Ends
                      (.fault .cutShort) (w.noteAll r'.cursor.entries) := ⟨1, rfl⟩
                  cases (hends.unique ⟨n, h⟩).1

/-- What an evaluation of a text that comes to a value has evaluated. -/
theorem World.evaluates_of_interpret {text : String} {w w' : World} {v : Value}
    (h : w.interpret text = (.value v, w')) :
    Evaluates (.ofText text.toList) .nil w (Reader.ofText text.toList).readAll.1 v w' ∧
      (Reader.ofText text.toList).readAll.2.1 = .endOfInput := by
  have hanswer : (Request.interpret text).answer w = w.interpret text := rfl
  have hends := Request.ends_of_answer (hanswer.trans h) (by simp)
  obtain ⟨data, r₁, hevaluates, hall⟩ := Evaluates.of_steps hends
  rw [hall]
  exact ⟨hevaluates, rfl⟩

/-! ## Sessions -/

namespace World

/-- A session in which every evaluation comes to a value: the lines that come in, what is evaluated
together, and what is still pending where the input ends. -/
inductive Feeds (prompts : Bool) : Intake → List Char → World → List (List Char) →
    List (List Char) → List Char → World → Prop where
  | ended {intake : Intake} (pending : List Char) (w : World)
      (hend : ∀ line next, intake.nextLine = some (line, next) →
        typedLine line = .error (.value .nil)) :
      Feeds prompts intake pending w [] [] pending (w.prompt prompts pending)
  | gathered {intake next : Intake} {line : List UInt8} {pending text : List Char} {w w' : World}
      {lines chunks : List (List Char)} {last : List Char}
      (hline : intake.nextLine = some (line, next)) (htext : typedLine line = .ok text)
      (hopen : isComplete (pending ++ text ++ ['\n']) = false)
      (hrest : Feeds prompts next (pending ++ text ++ ['\n']) (w.prompt prompts pending) lines
        chunks last w') :
      Feeds prompts intake pending w (text :: lines) chunks last w'
  | evaluated {intake next next' : Intake} {line : List UInt8} {pending text : List Char}
      {w w₁ w' : World} {v : Value} {lines chunks : List (List Char)} {last : List Char}
      (hline : intake.nextLine = some (line, next)) (htext : typedLine line = .ok text)
      (hcomplete : isComplete (pending ++ text ++ ['\n']) = true)
      (hrun : (w.prompt prompts pending).interpretSharing
        (String.ofList (pending ++ text ++ ['\n'])) next = (.value v, next', w₁))
      (hrest : Feeds prompts next' [] (w₁.print (w₁.heap.written v ++ "\n")) lines chunks last w') :
      Feeds prompts intake pending w (text :: lines) ((pending ++ text ++ ['\n']) :: chunks) last w'

theorem Feeds.converse {prompts : Bool} {intake : Intake} {pending : List Char} {w w' : World}
    {lines chunks : List (List Char)} {last : List Char}
    (h : Feeds prompts intake pending w lines chunks last w') :
    w.converseByLine prompts intake pending = (.value .nil, w') := by
  induction h with
  | ended pending w hend =>
      rw [converseByLine]
      split
      · rfl
      · rename_i line next hline
        simp only [hend line next hline]
  | gathered hline htext hopen hrest ih =>
      rw [converseByLine]
      split
      · rename_i hline'
        cases hline.symm.trans hline'
      · rename_i line next hline'
        cases hline.symm.trans hline'
        simp only [htext, hopen, Bool.false_eq_true, if_false]
        exact ih
  | evaluated hline htext hcomplete hrun hrest ih =>
      rw [converseByLine]
      split
      · rename_i hline'
        cases hline.symm.trans hline'
      · rename_i line next hline'
        cases hline.symm.trans hline'
        simp only [htext, hcomplete, if_true]
        split
        · rename_i hrun'
          cases hrun.symm.trans hrun'
          exact ih
        · rename_i hrun'
          cases hrun.symm.trans hrun'
        · rename_i hrun'
          cases hrun.symm.trans hrun'
        · rename_i hvalue _ _ hrun'
          cases hrun.symm.trans hrun'
          exact (hvalue _ rfl).elim

/-- A text of whole lines that is read to its end, and the text that comes after it. -/
theorem readAll_of_chunk {chunk rest : List Char} (hchunk : chunk.getLast? = some '\n')
    (hstring : .unclosedString ∉ (Cursor.ofText chunk).tokens.2.entries)
    (hcomplete : isComplete chunk = true) {data : List Datum} {r : Reader}
    (hread : (Reader.ofText (chunk ++ rest)).readAll = (data, .endOfInput, r)) :
    (Reader.ofText chunk).readAll.2.1 = .endOfInput ∧ ∃ r',
      (Reader.ofText rest).readAll = ((Reader.ofText rest).readAll.1, .endOfInput, r') ∧
      data = (Reader.ofText chunk).readAll.1 ++ (Reader.ofText rest).readAll.1 := by
  obtain ⟨tokens, entries, hlexes⟩ := Lexes.total chunk
  rw [((standsAt_ofText chunk).tokens hlexes).2] at hstring
  have hunbroken := hlexes.unbroken (Or.inr hchunk) (by simpa [Cursor.ofText] using hstring)
  have hahead := Reader.ahead_ofText (Or.inr (Or.inl hchunk)) hlexes hunbroken (y := rest)
  cases hall : (Reader.ofText chunk).readAll with
  | mk found others =>
      obtain ⟨last, r₁⟩ := others
      cases last with
      | datum d => exact absurd rfl (Reader.last_ne_datum hall d)
      | cutShort => simp [isComplete, hall] at hcomplete
      | failed cause =>
          have hfailed := hahead.readAll_failed hall
          rw [hread] at hfailed
          cases hfailed
      | endOfInput =>
          have hboth := (hahead.readAll_end hall).1
          rw [hread, Reader.resuming, Reader.readAll_prefaced, Prod.mk.injEq, Prod.mk.injEq]
            at hboth
          obtain ⟨hdata, hlast, -⟩ := hboth
          exact ⟨rfl, (Reader.ofText rest).readAll.2.2, Prod.ext rfl (Prod.ext hlast.symm rfl), hdata⟩

/-- No line ends inside of a string. -/
def NoBreakInString (text : List Char) : Prop :=
  ∀ before after, text = before ++ '\n' :: after →
    .unclosedString ∉ (Cursor.ofText (before ++ ['\n'])).tokens.2.entries

/-- What comes after whole lines has no line that ends inside of a string either. -/
theorem NoBreakInString.after {chunk rest : List Char} (h : NoBreakInString (chunk ++ rest))
    (hchunk : chunk.getLast? = some '\n')
    (hstring : .unclosedString ∉ (Cursor.ofText chunk).tokens.2.entries) :
    NoBreakInString rest := by
  intro before after hrest
  have hwhole := h (chunk ++ before) after (by rw [hrest, List.append_assoc])
  obtain ⟨tokens, entries, hlexes⟩ := Lexes.total chunk
  obtain ⟨tokens', entries', hlexes'⟩ := Lexes.total (before ++ ['\n'])
  rw [((standsAt_ofText chunk).tokens hlexes).2] at hstring
  have hunbroken := hlexes.unbroken (Or.inr hchunk) (by simpa [Cursor.ofText] using hstring)
  have hboth := hlexes.across hlexes' (Or.inr (Or.inl hchunk)) hunbroken
  rw [← List.append_assoc] at hboth
  rw [((standsAt_ofText _).tokens hboth).2] at hwhole
  rw [((standsAt_ofText _).tokens hlexes').2]
  simp only [Cursor.ofText, List.nil_append, List.mem_append, not_or] at hwhole ⊢
  exact hwhole.2

/-- Sharing the input is evaluating in a world that has it. -/
theorem interpret_of_sharing {text : String} {intake next : Intake} {w w' : World} {v : Value}
    (h : w.interpretSharing text intake = (.value v, next, w')) :
    ∃ w₁ w₂ v, World.interpret text w₁ = (.value v, w₂) := by
  unfold interpretSharing at h
  by_cases hclosed : (w.reader .standardInput).isClosed = true
  · simp only [hclosed, if_true, Prod.mk.injEq] at h
    exact ⟨w, _, v, Prod.ext h.1 rfl⟩
  · simp only [hclosed, Bool.false_eq_true, if_false, Prod.mk.injEq] at h
    exact ⟨_, _, v, Prod.ext h.1 rfl⟩

/-- What a session evaluates, from the lines that are pending on. -/
theorem Feeds.data {prompts : Bool} {intake : Intake} {pending : List Char} {w w' : World}
    {lines chunks : List (List Char)} {last : List Char}
    (h : Feeds prompts intake pending w lines chunks last w')
    (hpending : pending = [] ∨ isComplete pending = false) {data : List Datum} {r : Reader}
    (hread : (Reader.ofText (pending ++ lines.flatMap (· ++ ['\n']))).readAll =
      (data, .endOfInput, r))
    (hstrings : NoBreakInString (pending ++ lines.flatMap (· ++ ['\n']))) :
    chunks.flatMap (fun chunk => (Reader.ofText chunk).readAll.1) = data ∧
      (∀ chunk ∈ chunks, (Reader.ofText chunk).readAll.2.1 = .endOfInput ∧
        ∃ w₁ w₂ v, World.interpret (String.ofList chunk) w₁ = (.value v, w₂)) ∧
      last = [] ∧ chunks.flatten = pending ++ lines.flatMap (· ++ ['\n']) := by
  induction h generalizing data r with
  | ended pending w hend =>
      simp only [List.flatMap_nil, List.append_nil] at hread ⊢
      rcases hpending with rfl | hopen
      · cases hread
        simp
      · simp [isComplete, hread] at hopen
  | @gathered intake next line pending text w w' lines chunks last hline htext hopen hrest ih =>
      have hwhole : pending ++ (text :: lines).flatMap (· ++ ['\n']) =
          pending ++ text ++ ['\n'] ++ lines.flatMap (· ++ ['\n']) := by simp
      rw [hwhole] at hread hstrings ⊢
      exact ih (Or.inr hopen) hread hstrings
  | @evaluated intake next next' line pending text w w₁ w' v lines chunks last hline htext hcomplete
      hrun hrest ih =>
      have hwhole : pending ++ (text :: lines).flatMap (· ++ ['\n']) =
          pending ++ text ++ ['\n'] ++ lines.flatMap (· ++ ['\n']) := by simp
      rw [hwhole] at hread hstrings ⊢
      have hchunk : (pending ++ text ++ ['\n']).getLast? = some '\n' := by simp
      have hstring := hstrings (pending ++ text) (lines.flatMap (· ++ ['\n'])) (by simp)
      obtain ⟨hends, r', hothers, rfl⟩ := readAll_of_chunk hchunk hstring hcomplete hread
      obtain ⟨hdata, hall, hlast, hflatten⟩ :=
        ih (Or.inl rfl) hothers (hstrings.after hchunk hstring)
      refine ⟨?_, ?_, hlast, ?_⟩
      · rw [List.flatMap_cons, hdata]
      · exact List.forall_mem_cons.2 ⟨⟨hends, interpret_of_sharing hrun⟩, hall⟩
      · rw [List.flatten_cons, hflatten, List.nil_append]

/-- A session in which every evaluation comes to a value, and whose lines together are read as data
without a failure, no line ending inside of a string. What it evaluates, part by part, is all the
lines, and the data that are read and evaluated are those of the whole; no part is cut short, and
nothing is pending where the input ends. -/
theorem session_reads_whole_text {prompts : Bool} {intake : Intake} {w w' : World}
    {lines chunks : List (List Char)} {last : List Char}
    (h : Feeds prompts intake [] w lines chunks last w') {data : List Datum} {r : Reader}
    (hread : (Reader.ofText (lines.flatMap (· ++ ['\n']))).readAll = (data, .endOfInput, r))
    (hstrings : NoBreakInString (lines.flatMap (· ++ ['\n']))) :
    w.converseByLine prompts intake [] = (.value .nil, w') ∧
    chunks.flatten = lines.flatMap (· ++ ['\n']) ∧
    chunks.flatMap (fun chunk => (Reader.ofText chunk).readAll.1) = data ∧
    (∀ chunk ∈ chunks, (Reader.ofText chunk).readAll.2.1 = .endOfInput ∧
      ∃ w₁ w₂ v, World.interpret (String.ofList chunk) w₁ = (.value v, w₂) ∧
        Evaluates (.ofText chunk) .nil w₁ (Reader.ofText chunk).readAll.1 v w₂) ∧
    last = [] := by
  obtain ⟨hdata, hall, hlast, hflatten⟩ := h.data (Or.inl rfl) hread hstrings
  refine ⟨h.converse, hflatten, hdata, fun chunk hchunk => ?_, hlast⟩
  obtain ⟨hends, w₁, w₂, v, hinterpret⟩ := hall chunk hchunk
  have hevaluates := (evaluates_of_interpret hinterpret).1
  rw [String.toList_ofList] at hevaluates
  exact ⟨hends, w₁, w₂, v, hinterpret, hevaluates⟩

/-- An evaluation that shares the input, from the steps that it takes. -/
theorem interpretSharing_of_steps {text : String} {intake : Intake} {w w₂ : World}
    {outcome : Outcome} {n : Nat} (hopen : (w.reader .standardInput).isClosed = false)
    (hn : n ≤ stepBound)
    (hsteps : ((Request.interpret text).start (w.provide .standardInput
      ((w.reader .standardInput).cursor.upcoming ++ intake.lines.flatMap Prod.snd))).steps n =
        .done outcome w₂) :
    w.interpretSharing text intake = (outcome, w₂.reclaim intake intake.lines) := by
  have hanswer := Request.answer_eq (.interpret text) (w.provide .standardInput
    ((w.reader .standardInput).cursor.upcoming ++ intake.lines.flatMap Prod.snd))
  rw [steps_eq_done_of_le hn hsteps] at hanswer
  have hinterpret : World.interpret text (w.provide .standardInput
    ((w.reader .standardInput).cursor.upcoming ++ intake.lines.flatMap Prod.snd)) = (outcome, w₂) :=
    hanswer
  simp only [interpretSharing, hopen, Bool.false_eq_true, if_false, hinterpret]

/-- A mark on one line and what it quotes on the next. -/
theorem session_reads_quotation :
    ∃ w', Feeds false { rest := [39, 10, 35, 116, 10] } [] (.bare nowhere) [['\x27'], ['#', 't']]
        [['\x27', '\n', '#', 't', '\n']] [] w' ∧
      (Reader.ofText ['\x27', '\n', '#', 't', '\n']).readAll.1 =
        [.list [.symbol .quote, .boolean true]] ∧
      NoBreakInString ['\x27', '\n', '#', 't', '\n'] ∧
      converseByLine false { rest := [39, 10, 35, 116, 10] } [] (.bare nowhere) =
        (.value .nil, w') := by
  have hfirst : Intake.nextLine { rest := [39, 10, 35, 116, 10] } =
      some ([39, 10], { ready := [35, 116, 10], rest := [] }) := rfl
  have hsecond : Intake.nextLine { ready := [35, 116, 10], rest := [] } =
      some ([35, 116, 10], { rest := [] }) := rfl
  have hrun : ∃ next w₁, (World.bare nowhere).interpretSharing
      (String.ofList ['\x27', '\n', '#', 't', '\n']) { rest := [] } =
        (.value (.boolean true), next, w₁) ∧ next.nextLine = none :=
    ⟨_, _, interpretSharing_of_steps rfl (by decide : 7 ≤ stepBound) rfl, rfl⟩
  have hfeeds : ∃ w', Feeds false { rest := [39, 10, 35, 116, 10] } [] (.bare nowhere)
      [['\x27'], ['#', 't']] [['\x27', '\n', '#', 't', '\n']] [] w' := by
    obtain ⟨next, w₁, hrun, hnone⟩ := hrun
    exact ⟨_, .gathered hfirst rfl rfl
      (.evaluated hsecond rfl rfl hrun (.ended [] _ (by simp [hnone])))⟩
  obtain ⟨w', hfeeds⟩ := hfeeds
  have hstrings : NoBreakInString ['\x27', '\n', '#', 't', '\n'] := by
    have hquote : (scan .between (Event.ofText ['\x27', '\n'])).Gives .quote [] ['\n'] :=
      ⟨rfl, rfl, rfl⟩
    have hquote' : (scan .between (Event.ofText ['\x27', '\n', '#', 't', '\n'])).Gives .quote []
        ['\n', '#', 't', '\n'] := ⟨rfl, rfl, rfl⟩
    have htrue : (scan .between (Event.ofText ['\n', '#', 't', '\n'])).Gives (.boolean true) []
        ['\n'] := ⟨rfl, rfl, rfl⟩
    have hend : (scan .between (Event.ofText ['\n'])).Gives .endOfInput [] [] := ⟨rfl, rfl, rfl⟩
    have hlexes := Lexes.more hquote (by simp) (.done hend)
    have hlexes' := Lexes.more hquote' (by simp) (.more htrue (by simp) (.done hend))
    intro before after hsplit
    rcases before with _ | ⟨a, _ | ⟨b, _ | ⟨c, _ | ⟨d, _ | ⟨e, before⟩⟩⟩⟩⟩ <;> simp at hsplit
    · obtain ⟨rfl, -⟩ := hsplit
      rw [List.singleton_append, ((standsAt_ofText _).tokens hlexes).2]
      simp [Cursor.ofText]
    · obtain ⟨rfl, rfl, rfl, rfl, -⟩ := hsplit
      rw [show ['\x27', '\n', '#', 't'] ++ ['\n'] = ['\x27', '\n', '#', 't', '\n'] from rfl,
        ((standsAt_ofText _).tokens hlexes').2]
      simp [Cursor.ofText]
  obtain ⟨hconverse, -⟩ := session_reads_whole_text hfeeds rfl hstrings
  exact ⟨w', hfeeds, rfl, hstrings, hconverse⟩

end World

end Scheme
