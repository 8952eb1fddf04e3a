import Scheme.Proofs.PrimitiveFrames
/-!
# What overwrites a pair

A pair is overwritten in two ways only: by `set-car!` or `set-cdr!` on it, and by an expansion that
has begun at it. An expansion begins when the pair is evaluated while another value than the name of
a special form is its first field, or when `macro-expand` is applied to it. A pair that holds a
special form, and at which no expansion is under way, is therefore left alone by everything that
does not name it, through however many evaluations.
-/

namespace Scheme

open Step

/-- Work at the end of which the pair may be overwritten. -/
def Pending.concerns (site : Ref .pair) : Pending → Bool
  | .operator ref _ _ | .expansion ref _ _ => ref = site
  | .expandingHead form => form = .pair site
  | _ => false

/-- A primitive that overwrites its first argument, or expands it. -/
def Primitive.overwrites (p : Primitive) : Bool :=
  match p.operation with
  | .direct (.list (.set _)) | .control .expand => true
  | _ => false

/-- The machine is about to apply such a primitive to the pair. -/
def Control.overwrites (site : Ref .pair) : Control → Bool
  | .apply (.primitive p) arguments => p.overwrites && arguments.getD 0 .nil = .pair site
  | _ => false

/-- The pair holds a special form. -/
def Pair.isSpecial (p : Pair) : Bool :=
  match p.first with
  | .symbol head => (SpecialForm.ofSymbol? head).isSome
  | _ => false

theorem Pair.exists_form {cell : Pair} (hspecial : cell.isSpecial = true) :
    ∃ head form, cell.first = .symbol head ∧ SpecialForm.ofSymbol? head = some form := by
  unfold Pair.isSpecial at hspecial
  split at hspecial
  · rename_i head hhead
    obtain ⟨form, hform⟩ := Option.isSome_iff_exists.1 hspecial
    exact ⟨head, form, hhead, hform⟩
  · cases hspecial

/-- Heaps in which a pair is what it is. -/
def Heap.holding (site : Ref .pair) (cell : Pair) : Policy where
  good h := h.pairs[site.index]? = some cell
  leads _ _ := True
  admits _ _ := True
  refl _ := trivial
  trans _ _ := trivial
  mono _ _ := trivial
  atom _ := trivial
  fields _ _ := ⟨trivial, trivial⟩
  element _ _ _ := trivial
  cons hgood _ _ := ⟨getElem?_push_of_some _ hgood, trivial, trivial⟩
  addString _ hgood := ⟨hgood, trivial, trivial⟩
  addVector hgood _ := ⟨hgood, trivial, trivial⟩

/-- The pair is what it is, and none of the work that waits concerns it. -/
structure Step.Spared (site : Ref .pair) (cell : Pair) (w : World) (stack : List Pending) :
    Prop where
  holds : w.heap.pairs[site.index]? = some cell
  waiting : ∀ p ∈ stack, p.concerns site = false

/-- So it is after the step. -/
def Step.Spares (site : Ref .pair) (cell : Pair) : Step → Prop
  | .next s => Spared site cell s.world s.stack
  | .done _ w => w.heap.pairs[site.index]? = some cell

namespace Step

variable {site : Ref .pair} {cell : Pair} {w w' : World} {stack : List Pending}
  {scope : Ref .scope} {v : Value}

theorem Spared.push {p : Pending} (hs : Spared site cell w stack) (hp : p.concerns site = false) :
    Spared site cell w (p :: stack) :=
  ⟨hs.holds, List.forall_mem_cons.2 ⟨hp, hs.waiting⟩⟩

theorem Spared.pop {p : Pending} (hs : Spared site cell w (p :: stack)) :
    p.concerns site = false ∧ Spared site cell w stack := by
  obtain ⟨hp, hstack⟩ := List.forall_mem_cons.1 hs.waiting
  exact ⟨hp, hs.holds, hstack⟩

theorem Spared.change (hs : Spared site cell w stack)
    (hholds : w'.heap.pairs[site.index]? = some cell) : Spared site cell w' stack :=
  ⟨hholds, hs.waiting⟩

theorem spares_go (hs : Spared site cell w stack) (control : Control) :
    (go control stack w).Spares site cell :=
  hs

theorem spares_after {α : Type} {action : Action α} {use : α → World → Step}
    (hs : Spared site cell w stack)
    (haction : action.Obeys (Heap.holding site cell) w.heap fun _ _ => True)
    (huse : ∀ a w', Spared site cell w' stack → (use a w').Spares site cell) :
    (after action stack w use).Spares site cell := by
  have hfirst := haction w trivial hs.holds
  unfold after
  cases hresult : action w with
  | value a w' =>
      rw [hresult] at hfirst
      exact huse a w' (hs.change hfirst.1)
  | fault f w' =>
      rw [hresult] at hfirst
      exact spares_go (hs.change hfirst.1) _
  | trap t w' =>
      rw [hresult] at hfirst
      exact hfirst.1

theorem spares_after_still {α : Type} {action : Action α} {use : α → World → Step}
    (hs : Spared site cell w stack) (haction : action.Still)
    (huse : ∀ a w', Spared site cell w' stack → (use a w').Spares site cell) :
    (after action stack w use).Spares site cell :=
  spares_after hs (.still haction fun _ _ _ _ => trivial) huse

theorem spares_answer {action : Action Value} (hs : Spared site cell w stack)
    (haction : action.Obeys (Heap.holding site cell) w.heap fun _ _ => True) :
    (answer action stack w).Spares site cell :=
  spares_after hs haction fun _ _ hs' => spares_go hs' _

theorem spares_answer_still {action : Action Value} (hs : Spared site cell w stack)
    (haction : action.Still) : (answer action stack w).Spares site cell :=
  spares_after_still hs haction fun _ _ hs' => spares_go hs' _

/-! ## Forms -/

theorem Spared.list (hs : Spared site cell w stack) (items : List Value) :
    Spared site cell { w with heap := (w.heap.list items).2 } stack :=
  hs.change (Policy.makes_list (P := Heap.holding site cell) hs.holds fun _ _ => trivial).1

theorem Spared.cons (hs : Spared site cell w stack) (first rest : Value) :
    Spared site cell { w with heap := (w.heap.cons first rest).2 } stack :=
  hs.change (Heap.getElem?_push_of_some _ hs.holds)

theorem spares_sequence {body : Value} (hs : Spared site cell w stack) :
    (sequence body scope stack w).Spares site cell := by
  simp only [sequence]
  split
  · exact spares_go (hs.push rfl) _
  · exact spares_go hs _

theorem spares_chosen {clause result : Value} (hs : Spared site cell w stack) :
    (chosen clause result scope stack w).Spares site cell := by
  simp only [chosen]
  split_ifs
  · exact spares_go hs _
  · exact spares_go ((hs.list [.symbol .quote, result]).list _) _
  · exact spares_go (hs.cons _ _) _

theorem spares_clauses {all : Value} (hs : Spared site cell w stack) :
    (clauses all scope stack w).Spares site cell := by
  cases all with
  | pair ref =>
      simp only [clauses]
      split
      · exact spares_chosen hs
      · exact spares_go (hs.push rfl) _
  | _ => exact spares_go hs _

theorem obeys_abstraction_holding {h : Heap} {parameters body : Value} :
    (abstraction parameters body scope).Obeys (Heap.holding site cell) h fun _ _ => True := by
  refine .after_still (World.still_parameters parameters) fun p => .alter fun h' _ hgood => ?_
  refine ⟨?_, trivial, trivial⟩
  have hgood : h'.pairs[site.index]? = some cell := hgood
  change (h'.close p body scope).2.pairs[site.index]? = some cell
  unfold Heap.close
  cases body with
  | pair ref =>
      simp only
      split
      · exact hgood
      · exact Heap.getElem?_push_of_some _ hgood
  | _ => exact Heap.getElem?_push_of_some _ hgood

theorem Spared.define (hs : Spared site cell w stack) (scope : Ref .scope) (name : Symbol)
    (v : Value) : Spared site cell { w with heap := w.heap.define scope name v } stack := by
  refine hs.change ?_
  cases v <;> exact hs.holds

theorem spares_special {form : SpecialForm} {operands : Value} (hs : Spared site cell w stack) :
    (special form operands scope stack w).Spares site cell := by
  cases form with
  | quotation => exact spares_go hs _
  | sequence => exact spares_sequence hs
  | clauses => exact spares_clauses hs
  | branch => exact spares_go (hs.push rfl) _
  | definition =>
      simp only [special]
      split
      · refine spares_after_still hs (World.still_symbol _) fun name w₁ hs₁ => ?_
        refine spares_after hs₁ obeys_abstraction_holding fun ref w₂ hs₂ => ?_
        exact spares_go (hs₂.define scope name _) _
      · refine spares_after_still hs (World.still_symbol _) fun name w₁ hs₁ => ?_
        exact spares_go (hs₁.push rfl) _
  | assignment =>
      refine spares_after_still hs (World.still_symbol _) fun name w₁ hs₁ => ?_
      exact spares_go (hs₁.push rfl) _
  | abstraction | transformer =>
      exact spares_after hs obeys_abstraction_holding fun ref w₁ hs₁ => spares_go hs₁ _

theorem still_lookup (name : Symbol) (scope : Ref .scope) : (World.lookup name scope).Still := by
  intro w
  unfold World.lookup
  split <;> rfl

theorem reduce_special {form : SpecialForm} {head : Symbol}
    (hholds : w.heap.pairs[site.index]? = some cell) (hhead : cell.first = .symbol head)
    (hform : SpecialForm.ofSymbol? head = some form) :
    reduce (.pair site) scope stack w = special form cell.rest scope stack w := by
  have hcell : w.heap.pair site = cell := by rw [Heap.pair, hholds, Option.getD_some]
  simp only [reduce, hcell, hhead, hform]

/-- The pair itself is entered as the special form that it holds; any other begins its own call. -/
theorem spares_reduce {x : Value} (hs : Spared site cell w stack)
    (hspecial : cell.isSpecial = true) :
    (reduce x scope stack w).Spares site cell := by
  cases x with
  | symbol name => exact spares_answer_still hs (still_lookup name scope)
  | pair ref =>
      by_cases href : ref = site
      · obtain ⟨head, form, hhead, hform⟩ := Pair.exists_form hspecial
        rw [href, reduce_special hs.holds hhead hform]
        exact spares_special hs
      · have hcall : ∀ head, (go (.eval head scope)
            (.operator ref (w.heap.pair ref).rest scope :: stack) w).Spares site cell :=
          fun head => spares_go (hs.push (by simp [Pending.concerns, href])) _
        simp only [reduce]
        split
        · split
          · exact spares_special hs
          · exact hcall _
        · exact hcall _
  | _ => exact spares_go hs _

theorem spares_eval {x : Value} (hs : Spared site cell w stack) :
    (Step.eval x scope stack w).Spares site cell := by
  unfold Step.eval
  split
  · have hdeeper : Spared site cell { w with depth := w.depth + 1 } stack := hs.change hs.holds
    exact spares_go (hdeeper.push rfl) _
  · exact spares_answer_still hs (by simp)

/-! ## Calls and expansions -/

theorem Spared.enter (hs : Spared site cell w stack) (p : Parameters) (vs : List Value)
    (parent : Ref .scope) : Spared site cell (w.enter p vs parent).2 stack := by
  have hextend : (w.heap.extend p vs parent).2.pairs[site.index]? = some cell := by
    unfold Heap.extend
    cases p.rest with
    | none => exact hs.holds
    | some rest =>
        exact (Policy.makes_list (P := Heap.holding site cell) hs.holds fun _ _ => trivial).1
  refine hs.change ?_
  simp only [World.enter]
  split <;> exact hextend

theorem spares_call {procedure : Value} {vs : List Value} (hs : Spared site cell w stack) :
    (call procedure vs stack w).Spares site cell := by
  cases procedure with
  | closure ref => exact spares_go (hs.enter _ vs _) _
  | _ => exact spares_go hs _

theorem spares_operands {procedure : Value} {evaluated : List Value} {rest all : Value}
    (hs : Spared site cell w stack) :
    (operands procedure evaluated rest all scope stack w).Spares site cell := by
  cases rest with
  | nil => exact spares_call hs
  | pair ref => exact spares_go (hs.push rfl) _
  | _ => exact spares_answer_still hs (by simp)

theorem spares_expand {ref : Ref .pair} {transformer : Ref .closure} {operands : Value}
    {inner : Option (Ref .scope)} (hs : Spared site cell w stack) (href : ref ≠ site) :
    (expand ref transformer operands inner stack w).Spares site cell := by
  refine spares_after_still hs (by simp) fun vs w₁ hs₁ => ?_
  exact spares_go ((hs₁.enter _ vs _).push (by simp [Pending.concerns, href])) _

theorem Spared.replacement (hs : Spared site cell w stack) (v : Value) :
    Spared site cell (replacement v w).2 stack := by
  have hlist : ∀ v, Spared site cell { w with heap := (w.heap.list [v]).2 } stack :=
    fun v => hs.list [v]
  cases v with
  | pair ref => exact hs
  | _ => exact hlist _

theorem Spared.setPair {ref : Ref .pair} (hs : Spared site cell w stack) (href : ref ≠ site)
    (p : Pair) : Spared site cell { w with heap := w.heap.setPair ref p } stack := by
  have hindex : ref.index ≠ site.index := fun heq => href (Ref.eq_of_index heq)
  refine hs.change ?_
  simpa [Heap.setPair, hindex] using hs.holds

theorem spares_replace {ref : Ref .pair} {transformer : Ref .closure}
    {inner : Option (Ref .scope)} (hs : Spared site cell w stack) (href : ref ≠ site) :
    (replace ref transformer inner v stack w).Spares site cell := by
  simp only [replace]
  generalize htraced : (if w.tracing then _ else w) = w₀
  have hs₀ : Spared site cell w₀ stack := by
    rw [← htraced]
    split <;> exact hs.change hs.holds
  have hs₁ := (hs₀.replacement v).setPair href (Step.replacement v w₀).1
  cases inner with
  | some scope => exact spares_go hs₁ _
  | none => exact spares_go hs₁ _

theorem obeys_list_holding {h : Heap} {items : List Value} :
    (World.alter (·.list items)).Obeys (Heap.holding site cell) h fun _ _ => True :=
  .alter fun _ _ hgood =>
    ⟨(Policy.makes_list (P := Heap.holding site cell) hgood fun _ _ => trivial).1, trivial, trivial⟩

theorem spares_mapping {procedure : Value} {lists results : List Value} {collect : Bool}
    (hs : Spared site cell w stack) :
    (mapping procedure lists results collect stack w).Spares site cell := by
  simp only [mapping]
  split
  · exact spares_go (hs.push rfl) _
  · exact spares_answer hs obeys_list_holding

theorem obeys_measure_holding {h : Heap} (amount : Nat) (unit : String) :
    (measure amount unit).Obeys (Heap.holding site cell) h fun _ _ => True :=
  .bind (Q := fun _ _ => True) (.alter fun _ _ hgood => ⟨hgood, trivial, trivial⟩)
    fun _ _ _ _ _ => obeys_list_holding

theorem obeys_timed_holding {h : Heap} (memory clock : Nat) :
    (timed v memory clock).Obeys (Heap.holding site cell) h fun _ _ => True := by
  refine .after_still (fun _ => rfl) fun stop => .after_still (fun _ => rfl) fun top => ?_
  refine .bind (obeys_measure_holding _ _) fun _ time _ _ _ => ?_
  refine .bind (obeys_measure_holding _ _) fun _ space _ _ _ => ?_
  exact .bind (Q := fun _ _ => True) obeys_list_holding fun _ _ _ _ _ => obeys_list_holding

theorem spares_timing {thunk : Value} {calls memory clock : Nat} (hs : Spared site cell w stack) :
    (timing thunk calls memory clock v stack w).Spares site cell := by
  cases calls with
  | zero => exact spares_answer hs (obeys_timed_holding memory clock)
  | succ calls => exact spares_go (hs.push rfl) _

theorem spares_load {path : String} (hs : Spared site cell w stack) :
    (load path stack w).Spares site cell := by
  simp only [load]
  split
  · exact spares_answer_still (hs.change hs.holds) (by simp)
  · exact Spared.push (hs.change hs.holds) rfl

theorem spares_expandOnce {x : Value} (hs : Spared site cell w stack) (hx : x ≠ .pair site) :
    (expandOnce x stack w).Spares site cell := by
  unfold expandOnce
  split
  · exact spares_go (hs.push (by simp [Pending.concerns, hx])) _
  · exact spares_go hs _

theorem spares_control {operation : ControlOperation} {vs : List Value}
    (hs : Spared site cell w stack)
    (hexpand : operation = .expand → vs.getD 0 .nil ≠ .pair site) :
    (control operation vs stack w).Spares site cell := by
  cases operation with
  | apply => exact spares_after_still hs (by simp) fun _ _ hs' => spares_go hs' _
  | map | forEach => exact spares_mapping hs
  | callWithContinuation => exact Spared.push (hs.change hs.holds) rfl
  | force =>
      simp only [control]
      split <;> exact spares_go hs _
  | eval => exact spares_go hs _
  | expand => exact spares_expandOnce hs (hexpand rfl)
  | timeCall =>
      refine spares_after_still hs ?_ fun calls w' hs' => ?_
      · exact Action.still_ite (World.still_index _) (Action.still_pure 1)
      · exact spares_timing (hs'.change hs'.holds)
  | callWithInput =>
      exact spares_after_still hs (World.still_openInput _) fun _ _ hs' => hs'.push rfl
  | callWithOutput =>
      exact spares_after_still hs (World.still_openOutput _) fun _ _ hs' => hs'.push rfl
  | load => exact spares_after_still hs (World.still_textOf _) fun _ _ hs' => spares_load hs'

/-! ## Applications -/

/-- An operation that answers at once leaves the pair alone, unless it changes a field of it. -/
theorem obeys_perform_holding {operation : DirectOperation} {vs : List Value} {h : Heap}
    (hset : ∀ side, operation = .list (.set side) → vs.getD 0 .nil ≠ .pair site) :
    (operation.perform vs).Obeys (Heap.holding site cell) h fun _ _ => True := by
  cases hmutator : operation.isMutator with
  | false => exact DirectOperation.obeys_perform hmutator fun _ _ => trivial
  | true =>
      unfold DirectOperation.isMutator at hmutator
      split at hmutator
      · rename_i side
        have hother := hset side rfl
        refine .after_expect fun ref href => .alter fun h' _ hgood => ?_
        have hindex : ref.index ≠ site.index := by
          intro heq
          refine hother ?_
          cases hv : vs.getD 0 .nil <;> rw [hv] at href <;> cases href
          rw [Ref.eq_of_index heq]
        have hgood : h'.pairs[site.index]? = some cell := hgood
        have hkept : ∀ p, (h'.setPair ref p).pairs[site.index]? = some cell := by
          intro p
          simpa [Heap.setPair, hindex] using hgood
        cases side <;> exact ⟨hkept _, trivial, trivial⟩
      · refine .after_still (World.still_character _) fun c => ?_
        refine .after_still (World.still_string _) fun ref => ?_
        refine .after_still (Action.still_look _) fun length => ?_
        refine .after_still (World.still_positionIn _ _ _) fun i => ?_
        exact .alter fun _ _ hgood => ⟨hgood, trivial, trivial⟩
      · refine .after_still (World.still_vector _) fun ref => ?_
        refine .after_still (Action.still_look _) fun length => ?_
        refine .after_still (World.still_positionIn _ _ _) fun i => ?_
        exact .alter fun _ _ hgood => ⟨hgood, trivial, trivial⟩
      · cases hmutator

theorem spares_apply {procedure : Value} {vs : List Value} (hs : Spared site cell w stack)
    (hother : Control.overwrites site (.apply procedure vs) = false) :
    (apply procedure vs stack w).Spares site cell := by
  cases procedure with
  | primitive p =>
      have hfirst : p.overwrites = true → vs.getD 0 .nil ≠ .pair site := by
        intro hp heq
        simp only [Control.overwrites, hp, heq] at hother
        simp at hother
      refine spares_after_still hs (still_checkCount p vs) fun _ w' hs' => ?_
      split
      · rename_i operation hoperation
        refine spares_answer hs' (obeys_perform_holding ?_)
        rintro side rfl
        exact hfirst (by simp only [Primitive.overwrites, hoperation])
      · rename_i operation hoperation
        refine spares_control hs' ?_
        rintro rfl
        exact hfirst (by simp only [Primitive.overwrites, hoperation])
  | closure ref | transformer ref => exact spares_go (hs.enter _ vs _) _
  | continuation k =>
      refine spares_answer hs fun w _ hgood => ?_
      unfold throw
      simp only
      split
      · exact ⟨hgood, trivial⟩
      · exact ⟨hgood, trivial⟩
  | _ => exact spares_answer_still hs (by simp)

/-! ## Programs and sessions -/

theorem spares_advance {program : Program} {last : Value} (hs : Spared site cell w stack) :
    (advance program last stack w).Spares site cell := by
  have hheap : (readProgram program w).2.2.heap = w.heap := by
    cases program <;> rfl
  rw [advance_eq]
  have hs' : Spared site cell (readProgram program w).2.2 stack := hs.change (hheap ▸ hs.holds)
  unfold proceed
  split
  · rename_i d _
    have hbuilt := Policy.makes_build (P := Heap.holding site cell) hs'.holds d
    exact Spared.push (hs'.change hbuilt.1) rfl
  · exact spares_go hs' _
  · exact spares_go hs' _
  · exact spares_go hs' _

theorem spares_printAndPrompt {text : String} (hs : Spared site cell w stack) :
    (printAndPrompt text stack w).Spares site cell :=
  spares_after_still hs (World.still_writeText _ _) fun _ _ hs' => spares_go hs' _

theorem spares_prompt (hs : Spared site cell w stack) :
    (Step.prompt stack w).Spares site cell := by
  refine spares_after_still hs (World.still_writeText _ _) fun _ w₁ hs₁ => ?_
  have hread : (World.readDatum .standardInput).Obeys (Heap.holding site cell) w₁.heap
      (Heap.holding site cell).admits :=
    .after_still (World.still_withReader _ _) World.obeys_receive
  have hread := hread w₁ trivial hs₁.holds
  split
  all_goals
    rename_i hresult
    rw [hresult] at hread
  · exact spares_go (hs₁.change hread.1) _
  · exact Spared.push (hs₁.change hread.1) rfl
  · exact spares_go (hs₁.change hread.1) _
  · exact spares_printAndPrompt (hs₁.change hread.1)
  · exact hread.1

theorem spares_printValue (hs : Spared site cell w stack) :
    (printValue v stack w).Spares site cell :=
  spares_after_still hs (World.still_writeText _ _) fun _ _ hs' => spares_printAndPrompt hs'

/-! ## Pending work -/

theorem spares_resume (hs : Spared site cell w stack) :
    (Step.resume v stack w).Spares site cell := by
  cases stack with
  | nil => exact hs.holds
  | cons p stack =>
      replace hs := hs.pop
      obtain ⟨hp, hs⟩ := hs
      cases p with
      | leave | catching k | closingInput port | loaded port => exact hs.change hs.holds
      | closingOutput port =>
          exact hs.change (by rw [World.heap_closeOutput]; exact hs.holds)
      | operator ref rest scope =>
          have href : ref ≠ site := by simpa [Pending.concerns] using hp
          cases v with
          | transformer c => exact spares_expand hs href
          | _ => exact spares_operands hs
      | operand procedure evaluated rest all scope => exact spares_operands hs
      | expansion ref transformer scope =>
          exact spares_replace hs (by simpa [Pending.concerns] using hp)
      | sequence body scope => exact spares_sequence hs
      | assignment name scope =>
          refine spares_answer hs fun w _ hgood => ?_
          unfold World.assign
          split
          · exact ⟨hgood, trivial, trivial⟩
          · exact ⟨hgood, trivial⟩
      | definition name scope => exact spares_go (hs.define scope name v) _
      | branch arms scope => exact spares_go hs _
      | clause tried others scope =>
          simp only [Step.resume]
          split
          · exact spares_chosen hs
          · exact spares_clauses hs
      | mapping procedure lists results collect => exact spares_mapping hs
      | timing thunk calls memory clock => exact spares_timing hs
      | expandingHead x =>
          cases v with
          | transformer c =>
              cases x with
              | pair ref => exact spares_expand hs (by simpa [Pending.concerns] using hp)
              | _ => exact spares_go hs _
          | _ => exact spares_go hs _
      | program program => exact spares_go hs _
      | answer => exact spares_printValue hs

theorem spares_unwind {f : Fault} (hs : Spared site cell w stack) :
    (Step.unwind f stack w).Spares site cell := by
  cases stack with
  | nil => exact hs.holds
  | cons p stack =>
      replace hs := hs.pop.2
      cases p with
      | leave | closingInput port | loaded port => exact hs.change hs.holds
      | closingOutput port =>
          exact hs.change (by rw [World.heap_closeOutput]; exact hs.holds)
      | catching k =>
          cases f with
          | escape token =>
              simp only [Step.unwind]
              split <;> exact hs.change hs.holds
          | _ => exact hs.change hs.holds
      | answer =>
          cases f with
          | exit code => exact spares_go hs _
          | _ => exact spares_printAndPrompt hs
      | _ => exact spares_go hs _

end Step

/-! ## Steps and runs -/

variable {site : Ref .pair} {cell : Pair}

/-- A step that does not name the pair leaves it alone if it holds a special form. -/
theorem State.spares_step {s : State} (hs : Step.Spared site cell s.world s.stack)
    (hspecial : cell.isSpecial = true) (hother : s.control.overwrites site = false) :
    s.step.Spares site cell := by
  obtain ⟨control, stack, w⟩ := s
  cases control with
  | eval x scope => exact Step.spares_eval hs
  | reduce x scope => exact Step.spares_reduce hs hspecial
  | apply procedure arguments => exact Step.spares_apply hs hother
  | resume v => exact Step.spares_resume hs
  | unwind f => exact Step.spares_unwind hs
  | advance program last => exact Step.spares_advance hs
  | prompt => exact Step.spares_prompt hs

/-- So does a run none of whose steps names it. -/
theorem Step.Spares.steps {step : Step} (hstep : step.Spares site cell)
    (hspecial : cell.isSpecial = true) {n : Nat}
    (hother : ∀ i < n, ∀ s, step.steps i = .next s → s.control.overwrites site = false) :
    (step.steps n).Spares site cell := by
  induction n with
  | zero => exact hstep
  | succ n ih =>
      have hn := ih fun i hi => hother i (Nat.lt_succ_of_lt hi)
      rw [steps_succ']
      cases hlast : step.steps n with
      | next s =>
          rw [hlast] at hn
          exact State.spares_step hn hspecial (hother n (Nat.lt_succ_self n) s hlast)
      | done outcome w => rwa [hlast] at hn

end Scheme
