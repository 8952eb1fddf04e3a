import Mathlib.Logic.ExistsUnique
import Scheme.Proofs.LineBuffers
/-!
# Tapes

A source of bytes holds a fixed sequence of answers: the characters of its lines, one end of file in
place of each line that encodes no text, and the end of file ever after. A cursor on the source
answers like a head that moves along this sequence. The answer that was taken back is the one behind
the head, and looking at the next answer does not move it. So does a buffer that takes in line after
line, since it answers like the cursor.
-/

namespace Scheme

/-! ## Sources -/

namespace Source

/-- What a line answers. -/
inductive LineAnswers (line : List UInt8) : List (Option Char) → Prop where
  | text {text : List Char} (h : line = text.flatMap String.utf8EncodeChar) :
    LineAnswers line (text.map some)
  | undecodable (h : ∀ text : List Char, line ≠ text.flatMap String.utf8EncodeChar) :
    LineAnswers line [none]

/-- What a source answers, line by line. Only its last line may lack the line feed. -/
inductive Answers : List UInt8 → List (Option Char) → Prop where
  | nil : Answers [] []
  | last {line : List UInt8} {answers : List (Option Char)} (hne : line ≠ []) (hfeed : 10 ∉ line)
    (hline : LineAnswers line answers) : Answers line answers
  | line {line rest : List UInt8} {answers others : List (Option Char)} (hfeed : 10 ∉ line)
    (hline : LineAnswers (line ++ [10]) answers) (hrest : Answers rest others) :
    Answers (line ++ 10 :: rest) (answers ++ others)

end Source

/-- What reading the event answers. -/
def Event.answer : Event → Option Char
  | .char c => some c
  | .undecodable => none

namespace Source

variable {line bytes : List UInt8} {answers : List (Option Char)}

theorem map_answer_ofText (text : List Char) :
    (Event.ofText text).map Event.answer = text.map some := by
  simp [Event.ofText, Event.answer]

theorem lineAnswers_iff :
    LineAnswers line answers ↔ answers = (Event.ofLine line).map Event.answer := by
  cases hdecode : Text.decode? line with
  | some text =>
      have hline := Text.decode?_eq_some.1 hdecode
      rw [Event.ofLine, hdecode]
      simp only [map_answer_ofText]
      constructor
      · rintro (h | h)
        · have hsame := hdecode.symm.trans (Text.decode?_eq_some.2 h)
          rw [Option.some.inj hsame]
        · exact absurd hline (h text)
      · rintro rfl
        exact .text hline
  | none =>
      have hnot : ∀ text : List Char, line ≠ text.flatMap String.utf8EncodeChar := fun text h => by
        cases hdecode.symm.trans (Text.decode?_eq_some.2 h)
      rw [Event.ofLine, hdecode]
      constructor
      · rintro (h | h)
        · exact absurd h (hnot _)
        · rfl
      · rintro rfl
        exact .undecodable hnot

theorem ofBytes_line (hfeed : 10 ∉ line) (rest : List UInt8) :
    Event.ofBytes (line ++ 10 :: rest) = Event.ofLine (line ++ [10]) ++ Event.ofBytes rest := by
  rw [Event.ofBytes, Event.splitLines_append hfeed, Event.splitLines]
  simp [Event.ofBytes]

theorem ofBytes_last (hne : line ≠ []) (hfeed : 10 ∉ line) :
    Event.ofBytes line = Event.ofLine line := by
  have hsplit : Event.splitLines [] line = [line] := by
    rw [← List.append_nil line, Event.splitLines_append hfeed]
    simp [Event.splitLines, hne]
  rw [Event.ofBytes, hsplit, List.flatMap_singleton]

theorem answers_ofBytes (bytes : List UInt8) :
    Answers bytes ((Event.ofBytes bytes).map Event.answer) := by
  by_cases hfeed : 10 ∈ bytes
  · obtain ⟨line, rest, hbytes, hnot⟩ := List.eq_append_cons_of_mem hfeed
    have hshorter : rest.length < bytes.length := by
      simp only [hbytes, List.length_append, List.length_cons]
      omega
    rw [hbytes, ofBytes_line hnot, List.map_append]
    exact .line hnot (lineAnswers_iff.2 rfl) (answers_ofBytes rest)
  · by_cases hne : bytes = []
    · exact hne ▸ .nil
    · rw [ofBytes_last hne hfeed]
      exact .last hne hfeed (lineAnswers_iff.2 rfl)
termination_by bytes.length

/-- A source has one sequence of answers. -/
theorem answers_iff : Answers bytes answers ↔ answers = (Event.ofBytes bytes).map Event.answer := by
  refine ⟨fun h => ?_, fun h => h ▸ answers_ofBytes bytes⟩
  induction h with
  | nil => rfl
  | last hne hfeed hline => rw [ofBytes_last hne hfeed, lineAnswers_iff.1 hline]
  | line hfeed hline _ ih => rw [ofBytes_line hfeed, lineAnswers_iff.1 hline, ih, List.map_append]

end Source

/-! ## Heads on a tape -/

/-- A sequence of answers, and where the head stands. -/
structure Tape where
  answers : Nat → Option Char
  position : Nat := 0

/-- What the user of a source does with it. -/
inductive SourceUse where
  | next
  | peek
  /-- Takes the answer back. -/
  | pushBack (answer : Option Char)
  | close
deriving DecidableEq

/-- The answers from the beginning, and the end of file after them. -/
def Tape.ofList (answers : List (Option Char)) : Tape where
  answers i := answers.getD i none

/-- The head moves on with each answer, and back when an answer is taken back. What is ahead of it
when the source is closed is lost. -/
def Tape.perform (t : Tape) : SourceUse → Option (Option Char) × Tape
  | .next => (some (t.answers t.position), { t with position := t.position + 1 })
  | .peek => (some (t.answers t.position), t)
  | .pushBack _ => (none, { t with position := t.position - 1 })
  | .close => (none, { t with answers := fun i => if i < t.position then t.answers i else none })

def Cursor.perform (c : Cursor) : SourceUse → Option (Option Char) × Cursor
  | .next => (some c.next.1, c.next.2)
  | .peek => (some c.peek.1, c.peek.2)
  | .pushBack answer => (none, c.pushBack answer)
  | .close => (none, c.close)

def LineBuffer.perform (b : LineBuffer) : SourceUse → Option (Option Char) × LineBuffer
  | .next => (some b.next.1, b.next.2)
  | .peek => (some b.peek.1, b.peek.2)
  | .pushBack answer => (none, b.pushBack answer)
  | .close => (none, b.close)

/-- Whenever a use of the buffer fills the slot, it is free. -/
def LineBuffer.SlotFree (b : LineBuffer) : List SourceUse → Prop
  | [] => True
  | .next :: uses => SlotFree b.next.2 uses
  | .peek :: uses => b.next.2.pushed = none ∧ SlotFree b.peek.2 uses
  | .pushBack answer :: uses => b.pushed = none ∧ SlotFree (b.pushBack answer) uses
  | .close :: uses => SlotFree b.close uses

namespace SourceUse

/-- The uses in turn, each with its answer if it has one. -/
def trace {σ : Type} (perform : σ → SourceUse → Option (Option Char) × σ) (s : σ) :
    List SourceUse → List (SourceUse × Option (Option Char))
  | [] => []
  | use :: uses => (use, (perform s use).1) :: trace perform (perform s use).2 uses

/-- Only the answer may be taken back that `next` has just given; `given` is this answer. -/
def Fits (given : Option (Option Char)) : SourceUse → Prop
  | .pushBack answer => given = some answer
  | _ => True

/-- The answer that may be taken back after the use; to close the source is not to read from it. -/
def leaves (given answer : Option (Option Char)) : SourceUse → Option (Option Char)
  | .next => answer
  | .close => given
  | .peek | .pushBack _ => none

end SourceUse

namespace Cursor

/-- Each answer that is taken back is the one just given. -/
def Proper (given : Option (Option Char)) (c : Cursor) : List SourceUse → Prop
  | [] => True
  | use :: uses =>
    use.Fits given ∧ Proper (use.leaves given (c.perform use).1) (c.perform use).2 uses

/-- The cursor whose slot the use fills. -/
def filled (c : Cursor) : SourceUse → Option Cursor
  | .pushBack _ => some c
  | .peek => some c.next.2
  | .next | .close => none

/-- What is to come, and the end of file after it. -/
def answer (c : Cursor) (i : Nat) : Option Char :=
  (c.pushed.toList ++ c.upcoming.map Event.answer).getD i none

variable {c : Cursor} {t : Tape} {given : Option (Option Char)}

theorem pushed_next (c : Cursor) : c.next.2.pushed = none := by
  fun_cases next c with
  | case1 => rfl
  | case2 | case3 | case4 => assumption

/-- The next answer, and what is to come after it. -/
theorem answer_next (c : Cursor) :
    c.next.1 = c.answer 0 ∧ ∀ i, c.next.2.answer i = c.answer (i + 1) := by
  unfold answer
  fun_cases next c <;> simp_all [Event.answer]

theorem answer_pushBack (hfree : c.pushed = none) (a : Option Char) :
    (c.pushBack a).answer 0 = a ∧ ∀ i, (c.pushBack a).answer (i + 1) = c.answer i := by
  simp [answer, pushBack, hfree]

theorem answer_close (c : Cursor) (i : Nat) : c.close.answer i = none := by
  simp [answer, close]

/-- Looking at the next answer leaves all that is to come. -/
theorem answer_peek (c : Cursor) : c.peek.1 = c.answer 0 ∧ ∀ i, c.peek.2.answer i = c.answer i := by
  obtain ⟨hnext, hrest⟩ := c.answer_next
  obtain ⟨hfirst, hothers⟩ := answer_pushBack c.pushed_next c.next.1
  refine ⟨hnext, fun i => ?_⟩
  cases i with
  | zero => exact hfirst.trans hnext
  | succ i => exact (hothers i).trans (hrest i)

/-- The answer looked at is the next one, and with it the cursor comes to where it would be. -/
theorem next_peek (c : Cursor) : c.peek.2.next = c.next := by
  have hsame : ({ c.next.2 with pushed := none } : Cursor) = c.next.2 := by
    rw [← c.pushed_next]
  exact Prod.ext rfl hsame

theorem peek_peek (c : Cursor) : c.peek.2.peek = c.peek := by
  rw [peek, next_peek]
  rfl

/-! ## Along the tape -/

/-- The head stands where the cursor does, and the answer that may be taken back is behind it. -/
structure Follows (c : Cursor) (t : Tape) (given : Option (Option Char)) : Prop where
  ahead : ∀ i, c.answer i = t.answers (t.position + i)
  given : ∀ a, given = some a → c.pushed = none ∧ 0 < t.position ∧ t.answers (t.position - 1) = a

theorem follows_ofBytes (bytes : List UInt8) :
    (ofBytes bytes).Follows (.ofList ((Event.ofBytes bytes).map Event.answer)) none where
  ahead i := by simp [answer, ofBytes, Tape.ofList]
  given a ha := by cases ha

theorem Follows.next (h : c.Follows t given) :
    c.next.1 = t.answers t.position ∧
      c.next.2.Follows { t with position := t.position + 1 } (some c.next.1) := by
  obtain ⟨hnext, hrest⟩ := c.answer_next
  have hanswer : c.next.1 = t.answers t.position := hnext.trans (h.ahead 0)
  refine ⟨hanswer, fun i => ?_, fun a ha => ?_⟩
  · rw [hrest, h.ahead, Nat.add_right_comm, Nat.add_assoc]
  · cases ha
    exact ⟨c.pushed_next, Nat.succ_pos _, hanswer.symm⟩

theorem Follows.peek (h : c.Follows t given) :
    c.peek.1 = t.answers t.position ∧ c.peek.2.Follows t none := by
  obtain ⟨hnext, hrest⟩ := c.answer_peek
  exact ⟨hnext.trans (h.ahead 0), fun i => (hrest i).trans (h.ahead i), fun a ha => by cases ha⟩

theorem Follows.pushBack {a : Option Char} (h : c.Follows t (some a)) :
    (c.pushBack a).Follows { t with position := t.position - 1 } none := by
  obtain ⟨hfree, hpos, hbehind⟩ := h.given a rfl
  obtain ⟨hfirst, hothers⟩ := answer_pushBack hfree a
  refine ⟨fun i => ?_, fun a ha => by cases ha⟩
  cases i with
  | zero => exact hfirst.trans hbehind.symm
  | succ i =>
      have hindex : t.position - 1 + (i + 1) = t.position + i := by omega
      rw [hothers, h.ahead, hindex]

theorem Follows.close (h : c.Follows t given) : c.close.Follows (t.perform .close).2 given where
  ahead i := by
    rw [answer_close]
    exact (if_neg (Nat.not_lt.2 (Nat.le_add_right _ _))).symm
  given a ha := by
    obtain ⟨-, hpos, hbehind⟩ := h.given a ha
    refine ⟨rfl, hpos, ?_⟩
    simp only [Tape.perform]
    rw [if_pos (by omega), hbehind]

/-- Every use answers as the head does, moves the cursor with it, and finds the slot free that it
fills. -/
theorem Follows.perform {use : SourceUse} (h : c.Follows t given) (hfits : use.Fits given) :
    (c.perform use).1 = (t.perform use).1 ∧
      (c.perform use).2.Follows (t.perform use).2 (use.leaves given (c.perform use).1) ∧
      ∀ c', c.filled use = some c' → c'.pushed = none := by
  cases use with
  | next => exact ⟨congrArg some h.next.1, h.next.2, fun c' hc' => by cases hc'⟩
  | peek =>
      refine ⟨congrArg some h.peek.1, h.peek.2, fun c' hc' => ?_⟩
      cases hc'
      exact c.pushed_next
  | pushBack a =>
      obtain rfl : given = some a := hfits
      refine ⟨rfl, h.pushBack, fun c' hc' => ?_⟩
      cases hc'
      exact (h.given a rfl).1
  | close => exact ⟨rfl, h.close, fun c' hc' => by cases hc'⟩

/-- Whenever a use fills the slot, it is free. -/
def SlotFree (c : Cursor) : List SourceUse → Prop
  | [] => True
  | use :: uses =>
      (∀ c', c.filled use = some c' → c'.pushed = none) ∧ SlotFree (c.perform use).2 uses

theorem Follows.trace {uses : List SourceUse} (h : c.Follows t given)
    (huses : c.Proper given uses) :
    SourceUse.trace Cursor.perform c uses = SourceUse.trace Tape.perform t uses ∧
      c.SlotFree uses := by
  induction uses generalizing c t given with
  | nil => exact ⟨rfl, trivial⟩
  | cons use uses ih =>
      obtain ⟨hanswer, hfollows, hfree⟩ := h.perform huses.1
      obtain ⟨htrace, hslots⟩ := ih hfollows huses.2
      exact ⟨by rw [SourceUse.trace, SourceUse.trace, hanswer, htrace], hfree, hslots⟩

/-! ## Line by line -/

/-- The buffer answers like the cursor, and their slots are the same. -/
theorem Holds.perform {b : LineBuffer} (h : c.Holds b) (use : SourceUse) :
    (b.perform use).1 = (c.perform use).1 ∧ (c.perform use).2.Holds (b.perform use).2 := by
  cases use with
  | next => exact ⟨congrArg some h.next.1, h.next.2⟩
  | peek => exact ⟨congrArg some h.peek.1, h.peek.2⟩
  | pushBack answer => exact ⟨rfl, h.pushBack answer⟩
  | close => exact ⟨rfl, h.close⟩

theorem Holds.trace {b : LineBuffer} (h : c.Holds b) (uses : List SourceUse) :
    SourceUse.trace LineBuffer.perform b uses = SourceUse.trace Cursor.perform c uses := by
  induction uses generalizing c b with
  | nil => rfl
  | cons use uses ih =>
      obtain ⟨hanswer, hholds⟩ := h.perform use
      rw [SourceUse.trace, SourceUse.trace, hanswer, ih hholds]

/-- The slots of the two are filled at the same time. -/
theorem Holds.slotFree {b : LineBuffer} {uses : List SourceUse} (h : c.Holds b)
    (hfree : c.SlotFree uses) : b.SlotFree uses := by
  induction uses generalizing c b with
  | nil => trivial
  | cons use uses ih =>
      obtain ⟨hslot, hothers⟩ := hfree
      have hrest := ih (h.perform use).2 hothers
      cases use with
      | next | close => exact hrest
      | peek => exact ⟨h.next.2.pushed.symm.trans (hslot _ rfl), hrest⟩
      | pushBack answer => exact ⟨h.pushed.symm.trans (hslot _ rfl), hrest⟩

/-! ## Looking ahead -/

/-- Uses that are proper are proper without those that only look at the next answer. -/
theorem Follows.proper_without {c' : Cursor} {given' : Option (Option Char)} {uses : List SourceUse}
    (h : c.Follows t given) (h' : c'.Follows t given')
    (hgiven : ∀ a, given = some a → given' = some a) (huses : c.Proper given uses) :
    c'.Proper given' (uses.filter (· ≠ .peek)) := by
  induction uses generalizing c c' t given given' with
  | nil => trivial
  | cons use uses ih =>
      obtain ⟨hfits, hproper⟩ := huses
      cases use with
      | next =>
          have hsame : c'.next.1 = c.next.1 := h'.next.1.trans h.next.1.symm
          refine ⟨trivial, ih h.next.2 h'.next.2 (fun _ ha => ?_) hproper⟩
          exact (congrArg some hsame).trans ha
      | peek => exact ih h.peek.2 h' (fun _ ha => by cases ha) hproper
      | pushBack a =>
          obtain rfl : given = some a := hfits
          obtain rfl : given' = some a := hgiven a rfl
          exact ⟨rfl, ih h.pushBack h'.pushBack (fun _ ha => by cases ha) hproper⟩
      | close => exact ⟨trivial, ih h.close h'.close hgiven hproper⟩

theorem Tape.trace_without (t : Tape) (uses : List SourceUse) :
    SourceUse.trace Tape.perform t (uses.filter (· ≠ .peek)) =
      (SourceUse.trace Tape.perform t uses).filter (·.1 ≠ .peek) := by
  induction uses generalizing t with
  | nil => rfl
  | cons use uses ih =>
      cases use with
      | peek => exact ih t
      | next | pushBack | close => exact congrArg (List.cons _) (ih _)

/-- A cursor on a source answers like a head on the tape of its answers, and like a buffer that
takes in one line after the other. Neither fills a slot that is taken; and without the looks at the
next answer, all other answers are the same. -/
theorem answers_along_tape (bytes : List UInt8) :
    (∃! answers, Source.Answers bytes answers) ∧
    (∀ c : Cursor, c.peek.2.peek = c.peek ∧ c.peek.2.next = c.next) ∧
    (∀ b : LineBuffer, b.peek.2.peek = b.peek ∧ b.peek.2.next = b.next) ∧
    (∀ uses, SourceUse.trace LineBuffer.perform (.ofBytes bytes) uses =
      SourceUse.trace perform (ofBytes bytes) uses) ∧
    ∀ answers uses, Source.Answers bytes answers → (ofBytes bytes).Proper none uses →
      SourceUse.trace perform (ofBytes bytes) uses =
        SourceUse.trace Tape.perform (.ofList answers) uses ∧
      (ofBytes bytes).SlotFree uses ∧ (LineBuffer.ofBytes bytes).SlotFree uses ∧
      SourceUse.trace perform (ofBytes bytes) (uses.filter (· ≠ .peek)) =
        (SourceUse.trace perform (ofBytes bytes) uses).filter (·.1 ≠ .peek) := by
  refine ⟨⟨_, Source.answers_ofBytes bytes, fun _ => Source.answers_iff.1⟩,
    fun c => ⟨c.peek_peek, c.next_peek⟩, fun b => ⟨b.peek_peek, b.next_peek⟩,
    (holds_ofBytes bytes).trace, fun answers uses hanswers huses => ?_⟩
  obtain rfl := Source.answers_iff.1 hanswers
  have hfollows := follows_ofBytes bytes
  obtain ⟨htrace, hslots⟩ := hfollows.trace huses
  have hwithout := hfollows.proper_without hfollows (fun _ => id) huses
  refine ⟨htrace, hslots, (holds_ofBytes bytes).slotFree hslots, ?_⟩
  rw [(hfollows.trace hwithout).1, Tape.trace_without, htrace]

/-- A line that encodes no text between two that do; the end of file that it answers is taken back,
looked at and read. Then the source is closed. -/
theorem answers_along_tape_of_three_lines :
    let bytes : List UInt8 := [0x61, 0x0a, 0xff, 0x0a, 0xc3, 0xa9, 0x0a]
    let uses : List SourceUse := [.next, .next, .pushBack (some '\n'), .peek, .next, .next,
      .pushBack none, .peek, .peek, .next, .next, .close, .pushBack (some 'é'), .next, .next]
    ∃ answers, Source.Answers bytes answers ∧ (ofBytes bytes).Proper none uses ∧
      SourceUse.trace perform (ofBytes bytes) uses =
        SourceUse.trace Tape.perform (.ofList answers) uses ∧
      (ofBytes bytes).SlotFree uses ∧ (LineBuffer.ofBytes bytes).SlotFree uses ∧
      SourceUse.trace perform (ofBytes bytes) (uses.filter (· ≠ .peek)) =
        (SourceUse.trace perform (ofBytes bytes) uses).filter (·.1 ≠ .peek) := by
  intro bytes uses
  have huses : (ofBytes bytes).Proper none uses := by
    simp only [uses, Proper, SourceUse.Fits, true_and, and_true]
    exact ⟨rfl, rfl, rfl⟩
  have hanswers : Source.Answers bytes [some 'a', some '\n', none, some 'é', some '\n'] :=
    Source.answers_iff.2 rfl
  exact ⟨_, hanswers, huses, (answers_along_tape bytes).2.2.2.2 _ uses hanswers huses⟩

end Cursor

end Scheme
