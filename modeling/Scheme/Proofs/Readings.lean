import Scheme.Datum.Reader
import Scheme.Proofs.Lexing
/-!
# Turns of a reader

A reader takes a token at each turn, and each turn uses up some of the source or ends a construct.
So the budgets of the reader are never used up, and reading is the same as taking turns until there
is an answer. What has been reported before is nothing to it.
-/

namespace Scheme

/-! ## One turn -/

/-- The constructs that are open. -/
def Stage.size : Stage → Nat
  | .datum stack => stack.length
  | .closing _ _ _ outer => outer.length + 1

/-- An answer that a token brings, as opposed to the end of the input. -/
def Reading.isFound : Reading → Bool
  | .datum _ | .failed _ => true
  | .endOfInput | .cutShort => false

namespace Stage

theorem size_deliver {d : Datum} {stack : List Opened} {stage : Stage}
    (h : deliver d stack = .more stage) : stage.size ≤ stack.length := by
  fun_induction deliver d stack with
  | case1 => cases h
  | case2 | case3 =>
      cases h
      exact Nat.le_refl _
  | case4 _ _ _ ih => exact Nat.le_succ_of_le (ih h)

theorem size_finish {shape : Shape} {read : List Datum} {tail : Datum} {outer : List Opened}
    {stage : Stage} (h : finish shape read tail outer = .more stage) :
    stage.size ≤ outer.length := by
  cases shape with
  | list => exact size_deliver h
  | vector =>
      simp only [finish] at h
      split at h
      · exact size_deliver h
      · cases h

theorem size_start {stack : List Opened} {token : Token} {stage : Stage}
    (h : (start stack token).1 = .more stage) : stage.size ≤ stack.length + 1 := by
  cases token with
  | opening | vectorOpening | quote | backquote | comma | commaAt =>
      cases h
      exact Nat.le_refl _
  | boolean | number | character | string | symbol => exact Nat.le_succ_of_le (size_deliver h)
  | closing =>
      simp only [start] at h
      split at h
      · have hle := size_finish h
        simp only [List.length_cons]
        omega
      · cases h
        exact Nat.le_succ _
  | dot =>
      simp only [start] at h
      split at h <;> cases h <;> simp [size]
  | endOfInput =>
      simp only [start] at h
      split at h <;> cases h

theorem deliver_done {d : Datum} {stack : List Opened} {reading : Reading}
    (h : deliver d stack = .done reading) : reading.isFound = true := by
  fun_induction deliver d stack with
  | case1 =>
      cases h
      rfl
  | case2 | case3 => cases h
  | case4 _ _ _ ih => exact ih h

theorem finish_done {shape : Shape} {read : List Datum} {tail : Datum} {outer : List Opened}
    {reading : Reading} (h : finish shape read tail outer = .done reading) :
    reading.isFound = true := by
  cases shape with
  | list => exact deliver_done h
  | vector =>
      simp only [finish] at h
      split at h
      · exact deliver_done h
      · cases h
        rfl

theorem start_done {stack : List Opened} {token : Token} {reading : Reading}
    (h : (start stack token).1 = .done reading) (htoken : token ≠ .endOfInput) :
    reading.isFound = true := by
  cases token with
  | opening | vectorOpening | quote | backquote | comma | commaAt => cases h
  | boolean | number | character | string | symbol => exact deliver_done h
  | closing =>
      simp only [start] at h
      split at h
      · exact finish_done h
      · cases h
  | dot =>
      simp only [start] at h
      split at h <;> cases h
  | endOfInput => exact absurd rfl htoken

theorem noHash_start (stack : List Opened) (token : Token) :
    .hashAtEnd ∉ (start stack token).2 := by
  unfold start
  split
  case h_12 | h_13 | h_14 => split <;> simp
  all_goals simp

/-- What a token can bring: it is used up, or it ends a construct and is taken back. -/
structure Absorbs (stage : Stage) (token : Token)
    (absorbed : Progress × Option Token × List Entry) : Prop where
  back : absorbed.2.1 = none ∨ absorbed.2.1 = some token
  noHash : .hashAtEnd ∉ absorbed.2.2
  found : ∀ reading, absorbed.1 = .done reading → reading.isFound = true
  size : ∀ next, absorbed.1 = .more next →
    next.size + (if absorbed.2.1.isSome then 2 else 0) < stage.size + 2

theorem absorbs_of_ne (stage : Stage) {token : Token} (htoken : token ≠ .endOfInput) :
    stage.Absorbs token (stage.absorb token) := by
  cases stage with
  | datum stack =>
      exact ⟨Or.inl rfl, noHash_start stack token, fun _ h => start_done h htoken,
        fun _ h => Nat.lt_succ_of_le (size_start h)⟩
  | closing shape read tail outer =>
      have hfound : ∀ reading, finish shape read tail outer = .done reading →
          reading.isFound = true := fun _ => finish_done
      have hsize : ∀ next, finish shape read tail outer = .more next →
          next.size + 2 < outer.length + 1 + 2 := fun _ h => by
        have hle := size_finish h
        omega
      cases token with
      | endOfInput => exact absurd rfl htoken
      | closing =>
          exact ⟨Or.inl rfl, by simp [absorb, close], hfound,
            fun next h => Nat.lt_of_le_of_lt (Nat.le_add_right _ _) (hsize next h)⟩
      | _ => exact ⟨Or.inr rfl, by simp [absorb, close], hfound, hsize⟩

theorem absorb_endOfInput (stage : Stage) :
    stage = .datum [] ∧ stage.absorb .endOfInput = (.done .endOfInput, none, []) ∨
      stage.absorb .endOfInput = (.done .cutShort, none, []) := by
  cases stage with
  | datum stack =>
      cases stack with
      | nil => exact Or.inl ⟨rfl, rfl⟩
      | cons => exact Or.inr rfl
  | closing => exact Or.inr rfl

end Stage

namespace Reader

/-- How much a reader has to come; a token that was taken back counts. -/
def size (r : Reader) : Nat :=
  (if r.pushed.isSome then 1 else 0) + r.cursor.size

theorem size_token (r : Reader) :
    r.token.2.pushed = none ∧ r.token.2.size ≤ r.size ∧
      (r.token.1 ≠ .endOfInput → r.token.2.size < r.size) := by
  unfold Reader.token
  split
  · rename_i hpushed
    simp [size, hpushed]
  · rename_i hpushed
    have hcursor := r.cursor.size_token
    simp only [size, hpushed]
    exact ⟨trivial, by simpa using hcursor⟩

/-- What the next token brings, and the reader after it. -/
def turn (stage : Stage) (r : Reader) : Progress × Reader :=
  let absorbed := stage.absorb r.token.1
  (absorbed.1, { r.token.2.report absorbed.2.2 with pushed := absorbed.2.1 })

theorem size_turn (stage : Stage) (r : Reader) : (r.turn stage).2.size =
    (if (stage.absorb r.token.1).2.1.isSome then 1 else 0) + r.token.2.size := by
  have hsize : r.token.2.size = r.token.2.cursor.size := by simp [size, r.size_token.1]
  rw [hsize]
  rfl

/-- The end of the input ends the turns. -/
theorem token_ne_of_turn {stage next : Stage} {r : Reader} (h : (r.turn stage).1 = .more next) :
    r.token.1 ≠ .endOfInput := by
  intro htoken
  simp only [turn, htoken] at h
  rcases stage.absorb_endOfInput with ⟨-, habsorb⟩ | habsorb <;> simp [habsorb] at h

/-- A turn uses up some of the source, or a construct ends. -/
theorem turn_shortens {stage next : Stage} {r : Reader} (h : (r.turn stage).1 = .more next) :
    2 * (r.turn stage).2.size + next.size < 2 * r.size + stage.size := by
  have htoken := token_ne_of_turn h
  have hless := r.size_token.2.2 htoken
  have hnext := (stage.absorbs_of_ne htoken).size next h
  rw [size_turn]
  split at hnext <;> simp_all <;> omega

/-! ## Turns up to an answer -/

/-- Turns from a stage lead to an answer. -/
inductive Turns : Stage → Reader → Reading → Reader → Prop where
  | done {stage : Stage} {r : Reader} {reading : Reading}
      (h : (r.turn stage).1 = .done reading) :
      Turns stage r reading ((r.turn stage).2.report reading.entries)
  | more {stage next : Stage} {r r' : Reader} {reading : Reading}
      (h : (r.turn stage).1 = .more next) (hrest : Turns next (r.turn stage).2 reading r') :
      Turns stage r reading r'

theorem Turns.unique {stage : Stage} {r r₁ r₂ : Reader} {reading₁ reading₂ : Reading}
    (h₁ : Turns stage r reading₁ r₁) (h₂ : Turns stage r reading₂ r₂) :
    reading₁ = reading₂ ∧ r₁ = r₂ := by
  induction h₁ with
  | done h =>
      cases h₂ with
      | done h' =>
          cases h.symm.trans h'
          exact ⟨rfl, rfl⟩
      | more h' => cases h.symm.trans h'
  | more h hrest ih =>
      cases h₂ with
      | done h' => cases h.symm.trans h'
      | more h' hrest' =>
          cases h.symm.trans h'
          exact ih hrest'

/-- Turns depend on the reader by its next token only. -/
theorem Turns.congr {stage : Stage} {r r' r₁ : Reader} {reading : Reading}
    (h : Turns stage r reading r₁) (htoken : r.token = r'.token) : Turns stage r' reading r₁ := by
  have hturn : r.turn stage = r'.turn stage := by simp only [turn, htoken]
  cases h with
  | done hdone =>
      rw [hturn] at hdone ⊢
      exact .done hdone
  | more hmore hrest =>
      rw [hturn] at hmore hrest
      exact .more hmore hrest

theorem assemble_succ (budget : Nat) (stage : Stage) (r : Reader) :
    assemble (budget + 1) stage r =
      match (r.turn stage).1 with
      | .more next => assemble budget next (r.turn stage).2
      | .done reading => (reading, (r.turn stage).2.report reading.entries) :=
  rfl

/-- A budget that covers the source is not used up. -/
theorem turns_assemble {stage : Stage} {r : Reader} {budget : Nat}
    (h : 2 * r.size + stage.size < budget) :
    Turns stage r (assemble budget stage r).1 (assemble budget stage r).2 := by
  induction budget generalizing stage r with
  | zero => exact absurd h (Nat.not_lt_zero _)
  | succ budget ih =>
      rw [assemble_succ]
      cases hturn : (r.turn stage).1 with
      | more next =>
          have hless := turn_shortens hturn
          exact .more hturn (ih (by omega))
      | done reading => exact .done hturn

theorem size_lt_budget (r : Reader) : 2 * r.size + 3 < r.budget := by
  have hpushed : ∀ pushed, pushedSize pushed ≤ 1 := by
    intro pushed
    unfold pushedSize
    split <;> simp
  have hcursor := hpushed r.cursor.pushed
  simp only [size, budget, Cursor.size]
  split <;> omega

theorem turns_read (r : Reader) : Turns (.datum []) r r.read.1 r.read.2 := by
  have hbudget := r.size_lt_budget
  exact turns_assemble (by simp only [Stage.size, List.length_nil]; omega)

theorem Turns.read_eq {r r' : Reader} {reading : Reading} (h : Turns (.datum []) r reading r') :
    r.read = (reading, r') := by
  obtain ⟨hreading, hr⟩ := r.turns_read.unique h
  exact Prod.ext hreading hr

/-- Reading does not lengthen the source. -/
theorem Turns.size_le {stage : Stage} {r r' : Reader} {reading : Reading}
    (h : Turns stage r reading r') : r'.size ≤ r.size := by
  have hturn : ∀ stage (r : Reader), (r.turn stage).2.size ≤ r.size := by
    intro stage r
    rw [size_turn]
    by_cases htoken : r.token.1 = .endOfInput
    · have hle := r.size_token.2.1
      rcases stage.absorb_endOfInput with ⟨-, habsorb⟩ | habsorb <;> simp [htoken, habsorb, hle]
    · have hless := r.size_token.2.2 htoken
      split <;> omega
  induction h with
  | done h => exact hturn _ _
  | more h hrest ih => exact Nat.le_trans ih (hturn _ _)

/-- An answer other than the end of the input takes up some of the source. -/
theorem size_of_read {r r' : Reader} {reading : Reading} (h : r.read = (reading, r'))
    (hmore : reading ≠ .endOfInput) : r'.size < r.size := by
  have hturns : Turns (.datum []) r reading r' := by simpa only [h] using r.turns_read
  -- the first token is not taken back
  have hfirst : r.token.1 ≠ .endOfInput → (r.turn (.datum [])).2.size < r.size := by
    intro htoken
    have hless := r.size_token.2.2 htoken
    rw [size_turn]
    simpa [Stage.absorb] using hless
  cases hturns with
  | done hdone =>
      refine hfirst ?_
      intro htoken
      have hend : reading = .endOfInput := by
        simpa [turn, htoken, Stage.absorb, Stage.start] using hdone.symm
      exact hmore hend
  | more hmore hrest => exact Nat.lt_of_le_of_lt hrest.size_le (hfirst (token_ne_of_turn hmore))

/-! ## All data -/

theorem readAllWithin_eq {r : Reader} {bound bound' : Nat} (h : r.size < bound)
    (h' : r.size < bound') : readAllWithin bound r = readAllWithin bound' r := by
  induction bound generalizing r bound' with
  | zero => exact absurd h (Nat.not_lt_zero _)
  | succ bound ih =>
      cases bound' with
      | zero => exact absurd h' (Nat.not_lt_zero _)
      | succ bound' =>
          simp only [readAllWithin]
          cases hread : r.read with
          | mk reading r' =>
              cases reading with
              | datum d =>
                  have hless := size_of_read hread (by simp)
                  have hothers : readAllWithin bound r' = readAllWithin bound' r' :=
                    ih (by omega) (by omega)
                  simp only [hothers]
              | _ => rfl

theorem readAll_of_datum {r r' : Reader} {d : Datum} (h : r.read = (.datum d, r')) :
    r.readAll = (d :: r'.readAll.1, r'.readAll.2) := by
  have hbudget := r.size_lt_budget
  have hbudget' := r'.size_lt_budget
  have hless := size_of_read h (by simp)
  unfold readAll
  obtain ⟨bound, hbound⟩ : ∃ bound, r.budget = bound + 1 := ⟨r.budget - 1, by omega⟩
  have hothers : readAllWithin bound r' = readAllWithin r'.budget r' :=
    readAllWithin_eq (by omega) (by omega)
  simp only [hbound, readAllWithin, h, hothers]

theorem readAll_of_last {r r' : Reader} {last : Reading} (h : r.read = (last, r'))
    (hlast : ∀ d, last ≠ .datum d) : r.readAll = ([], last, r') := by
  have hbudget := r.size_lt_budget
  unfold readAll
  obtain ⟨bound, hbound⟩ : ∃ bound, r.budget = bound + 1 := ⟨r.budget - 1, by omega⟩
  rw [hbound, readAllWithin, h]
  cases last with
  | datum d => exact absurd rfl (hlast d)
  | _ => rfl

/-- What the first answer is, from all data. -/
theorem read_of_readAll {r r' : Reader} {data : List Datum} {last : Reading}
    (h : r.readAll = (data, last, r')) :
    (data = [] ∧ r.read = (last, r') ∧ ∀ d, last ≠ .datum d) ∨
      ∃ d others r₁, data = d :: others ∧ r.read = (.datum d, r₁) ∧
        r₁.readAll = (others, last, r') := by
  cases hread : r.read with
  | mk reading r₁ =>
      by_cases hdatum : ∃ d, reading = .datum d
      · obtain ⟨d, rfl⟩ := hdatum
        rw [readAll_of_datum hread, Prod.mk.injEq] at h
        exact Or.inr ⟨d, r₁.readAll.1, r₁, h.1.symm, rfl, Prod.ext rfl h.2⟩
      · have hlast : ∀ d, reading ≠ .datum d := fun d hd => hdatum ⟨d, hd⟩
        rw [readAll_of_last hread hlast] at h
        cases h
        exact Or.inl ⟨rfl, rfl, hlast⟩

theorem last_ne_datum {r r' : Reader} {data : List Datum} {last : Reading}
    (h : r.readAll = (data, last, r')) (d : Datum) : last ≠ .datum d := by
  induction data generalizing r with
  | nil =>
      rcases read_of_readAll h with ⟨-, -, hne⟩ | ⟨d', others, r₁, hcons, -⟩
      · exact hne d
      · cases hcons
  | cons d' data ih =>
      rcases read_of_readAll h with ⟨hnil, -⟩ | ⟨d', others, r₁, hcons, -, hothers⟩
      · cases hnil
      · cases hcons
        exact ih hothers

theorem readAll_congr {r r' : Reader} (h : r.read = r'.read) : r.readAll = r'.readAll := by
  cases hread : r'.read with
  | mk reading r₁ =>
      rw [hread] at h
      by_cases hdatum : ∃ d, reading = .datum d
      · obtain ⟨d, rfl⟩ := hdatum
        rw [readAll_of_datum h, readAll_of_datum hread]
      · have hlast : ∀ d, reading ≠ .datum d := fun d hd => hdatum ⟨d, hd⟩
        rw [readAll_of_last h hlast, readAll_of_last hread hlast]

/-! ## Earlier reports -/

/-- The reader after earlier reports. -/
def prefaced (earlier : List Entry) (r : Reader) : Reader :=
  { r with cursor := { r.cursor with entries := earlier ++ r.cursor.entries } }

theorem token_prefaced (earlier : List Entry) (r : Reader) :
    (r.prefaced earlier).token = (r.token.1, r.token.2.prefaced earlier) := by
  unfold Reader.token
  cases hpushed : r.pushed with
  | some token => simp only [prefaced, hpushed]
  | none =>
      simp only [prefaced, hpushed, Cursor.token]
      cases r.cursor.pushed with
      | none => simp [Cursor.token.settle]
      | some answer => cases answer <;> simp [Cursor.token.settle]

theorem turn_prefaced (earlier : List Entry) (stage : Stage) (r : Reader) :
    (r.prefaced earlier).turn stage = ((r.turn stage).1, (r.turn stage).2.prefaced earlier) := by
  simp only [turn, token_prefaced]
  simp [prefaced, report]

theorem Turns.prefaced {stage : Stage} {r r' : Reader} {reading : Reading}
    (h : Turns stage r reading r') (earlier : List Entry) :
    Turns stage (r.prefaced earlier) reading (r'.prefaced earlier) := by
  induction h with
  | @done stage r reading h =>
      have hturn := r.turn_prefaced earlier stage
      have hdone : ((r.prefaced earlier).turn stage).1 = .done reading := by rw [hturn, h]
      have hreport : ((r.prefaced earlier).turn stage).2.report reading.entries =
          ((r.turn stage).2.report reading.entries).prefaced earlier := by
        rw [hturn]
        simp [Reader.prefaced, report]
      exact hreport ▸ .done hdone
  | @more stage next r r' reading h hrest ih =>
      have hturn := r.turn_prefaced earlier stage
      have hmore : ((r.prefaced earlier).turn stage).1 = .more next := by rw [hturn, h]
      refine .more hmore ?_
      rw [hturn]
      exact ih

theorem read_prefaced (earlier : List Entry) (r : Reader) :
    (r.prefaced earlier).read = (r.read.1, r.read.2.prefaced earlier) :=
  (r.turns_read.prefaced earlier).read_eq

theorem readAll_prefaced (earlier : List Entry) (r : Reader) :
    (r.prefaced earlier).readAll =
      (r.readAll.1, r.readAll.2.1, r.readAll.2.2.prefaced earlier) := by
  cases hread : r.read with
  | mk reading r' =>
      have hprefaced := r.read_prefaced earlier
      rw [hread] at hprefaced
      by_cases hdatum : ∃ d, reading = .datum d
      · obtain ⟨d, rfl⟩ := hdatum
        have hless := size_of_read hread (by simp)
        rw [readAll_of_datum hread, readAll_of_datum hprefaced, readAll_prefaced earlier r']
      · have hlast : ∀ d, reading ≠ .datum d := fun d hd => hdatum ⟨d, hd⟩
        rw [readAll_of_last hread hlast, readAll_of_last hprefaced hlast]
termination_by r.size

/-- What was reported is nothing to what is read next. -/
theorem readAll_eq_drain (r : Reader) :
    r.readAll = (r.drain.2.readAll.1, r.drain.2.readAll.2.1,
      r.drain.2.readAll.2.2.prefaced r.cursor.entries) := by
  have hself : r.drain.2.prefaced r.cursor.entries = r := by simp [drain, prefaced]
  rw [← readAll_prefaced, hself]

end Reader

end Scheme
