import Scheme.Proofs.ForceStretches
import Scheme.Proofs.ForcedPromises
/-!
# An expression that forces its own promise

The expression of this promise forces the promise itself, the first time that it is evaluated. That
force comes to the result, in the midst of the evaluation that was begun before.
-/

namespace Scheme

open Step

/-- The first evaluation forces `p` again, and every other one comes to a number. An assignment has
the value that is assigned. -/
def nestedText : Datum :=
  .form "if" [.name "done", .number 5, .form "force" [.form "set!" [.name "done", .name "p"]]]

/-- The expression has this text in the heap. -/
def Heap.IsNested (h : Heap) (e : Value) : Prop :=
  ∃ again assignment : Ref .pair,
    h.Lists e [.symbol ⟨"if"⟩, .symbol ⟨"done"⟩, .number (.float 5), .pair again] ∧
    h.Lists (.pair again) [.symbol ⟨"force"⟩, .pair assignment] ∧
    h.Lists (.pair assignment) [.symbol ⟨"set!"⟩, .symbol ⟨"done"⟩, .symbol ⟨"p"⟩]

namespace Promise

variable {P : Promise} {own : Ref .scope → Prop} {K : Heap → Prop} {may : Ref .closure → Prop}
  {w : World} {h h' : Heap} {f s : Ref .scope} {v last : Value} {J : Heap → Prop} {R : State → Prop}
  {stack : List Pending} {settled : Option Value}

/-- The promise with its code, as it is once a promise has been forced. -/
structure Works (P : Promise) (h : Heap) : Prop where
  code : P.code.Unfolded h
  call : Items h.HasPair (.pair P.code.call) [.symbol ⟨"proc"⟩]
  procedure : ∃ name,
    h.closures[P.procedure.index]? = some ⟨⟨[], none⟩, .pair P.code.check, P.flags, name⟩
  thunk : ∃ name, h.closures[P.thunk.index]? = some ⟨⟨[], none⟩, P.expression, P.scope, name⟩
  expression : h.IsNested P.expression

theorem Works.adds (hworks : P.Works h) (hle : h.Adds own h') : P.Works h' := by
  obtain ⟨hcode, hcall, ⟨name, hprocedure⟩, ⟨name', hthunk⟩, again, assignment, he, hagain,
    hassignment⟩ := hworks
  exact ⟨hcode.adds hle, hcall.mono hle.pairs, ⟨name, hle.closures _ _ hprocedure⟩,
    ⟨name', hle.closures _ _ hthunk⟩, again, assignment, he.mono hle.pairs, hagain.mono hle.pairs,
    hassignment.mono hle.pairs⟩

/-- The scope that the expression is evaluated in binds the promise, and whether an evaluation has
begun. -/
structure Marks (P : Promise) (last : Value) (h : Heap) : Prop where
  scope : ∃ bindings, h.scopes[P.scope.index]? = some ⟨bindings, some .global⟩ ∧
    ∀ name : String, bindings[name]? =
      List.lookup name [("done", last), ("p", .closure P.procedure)]
  older : 0 < P.scope.index
  force : h.locate? ⟨"force"⟩ .global = some (.global, .primitive .force)

theorem Marks.adds (hmarks : P.Marks last h) (hle : h.Adds (fun _ => False) h') :
    P.Marks last h' := by
  obtain ⟨⟨bindings, hscope, hnames⟩, holder, hforce⟩ := hmarks
  exact ⟨⟨bindings, hle.scopes _ _ id hscope, hnames⟩, holder, hle.locate?_global id hforce⟩

/-- A scope of an evaluation. -/
def Evaluating (P : Promise) (h : Heap) (s : Ref .scope) : Prop :=
  h.scopes[s.index]? = some ⟨{}, some P.scope⟩ ∧ P.scope.index < s.index

theorem Marks.locate? {name : Symbol} (hmarks : P.Marks last h) (hs : P.Evaluating h s)
    (hv : List.lookup name.name [("done", last), ("p", .closure P.procedure)] = some v) :
    h.locate? name s = some (P.scope, v) := by
  obtain ⟨bindings, hscope, hnames⟩ := hmarks.scope
  exact Heap.locate?_within hs.1 rfl hs.2 (by simp)
    (Heap.locate?_here hscope ((hnames _).trans hv))

theorem Marks.locate?_force (hmarks : P.Marks last h) (hs : P.Evaluating h s) :
    h.locate? ⟨"force"⟩ s = some (.global, .primitive .force) := by
  obtain ⟨bindings, hscope, hnames⟩ := hmarks.scope
  exact Heap.locate?_within hs.1 rfl hs.2 (by simp)
    (Heap.locate?_within hscope rfl hmarks.older (hnames _) hmarks.force)

/-- The mark is set. -/
theorem Marks.bind (hmarks : P.Marks last h) (v : Value) :
    P.Marks v (h.bind P.scope ⟨"done"⟩ v) := by
  obtain ⟨⟨bindings, hscope, hnames⟩, holder, hforce⟩ := hmarks
  have hne : Ref.global ≠ P.scope := by
    intro heq
    rw [← heq] at holder
    exact Nat.lt_irrefl _ holder
  have hbind : h.Adds (· = P.scope) (h.bind P.scope ⟨"done"⟩ v) := h.adds_bind (· = P.scope) rfl _ v
  refine ⟨⟨bindings.insert "done" v, ?_, fun name => ?_⟩, holder,
    hbind.locate?_global hne hforce⟩
  · simp [Heap.bind, Array.getElem?_modify, hscope]
  · rw [Heap.getElem?_insert_eq_lookup hnames]
    simp only [List.lookup_cons]
    cases name == "done" <;> rfl

/-- The first evaluation sets the mark and forces the promise. -/
theorem goes_again (he : w.heap.IsNested P.expression) (hmarks : P.Marks (.boolean false) w.heap)
    (hs : P.Evaluating w.heap s) (hw : K w.heap)
    (hw' : K (w.heap.bind P.scope ⟨"done"⟩ (.closure P.procedure)))
    (hroom : w.depth + 1 < w.maxDepth)
    (h : State.Goes (State.Quiet K may) stack (fun _ => False) R
      ⟨.apply (.primitive .force) [.closure P.procedure], stack,
        { w with heap := w.heap.bind P.scope ⟨"done"⟩ (.closure P.procedure) }⟩) :
    State.Goes (State.Quiet K may) stack (fun _ => False) R ⟨.reduce P.expression s, stack, w⟩ := by
  obtain ⟨again, assignment, he, hagain, hassignment⟩ := he
  obtain ⟨_, _, heq, hagain, hoperands⟩ := hagain.exists_pair
  cases heq
  obtain ⟨r, _, rfl, hr, hnil⟩ := hoperands.exists_pair
  cases hnil
  have hdeep : ¬ w.maxDepth ≤ w.depth := by omega
  refine State.goes_test [] he (by simp) hw hdeep (hmarks.locate? hs rfl) ?_
  refine State.goes_combination hagain rfl hw (.rebase (State.goes_variable [] (by simp) hw hdeep
    (hmarks.locate?_force hs) ?_))
  refine State.goes_operands (by simp) hr hw (.rebase (State.goes_eval [] (by simp) hw hdeep
    fun _ => ?_))
  refine State.goes_assignment hassignment hw (.rebase (State.goes_variable [] (by simp) hw
    (Nat.not_le_of_lt hroom) (hmarks.locate? hs rfl) ?_))
  refine State.goes_assigned (hmarks.locate? hs rfl) hw (State.goes_leave hw' ?_)
  refine .step (State.quiet_resume hw' fun c below h => by cases h) rfl (.rebase h)

/-- Any other evaluation comes to the number. -/
theorem goes_done (he : w.heap.IsNested P.expression) (hmarks : P.Marks last w.heap)
    (hlast : last.isTrue = true) (hs : P.Evaluating w.heap s) (hw : K w.heap)
    (hroom : w.depth < w.maxDepth) (h : R ⟨.resume (.number (.float 5)), [], w⟩) :
    State.Goes (State.Quiet K may) [] (fun _ => False) R ⟨.reduce P.expression s, [], w⟩ := by
  obtain ⟨again, assignment, he, -⟩ := he
  refine State.goes_test [] he (by simp) hw (Nat.not_le_of_lt hroom) (hmarks.locate? hs rfl) ?_
  rw [if_pos hlast]
  exact .step (State.quiet_reduce hw) rfl (.arrived h)

/-! ## A force within a force -/

/-- The scopes of the variables of the promise, and of its mark. -/
def Own (P : Promise) (s : Ref .scope) : Prop :=
  s = P.flags ∨ s = P.scope

/-- The global scope is not one of them. -/
theorem Stands.not_own_global (hst : P.Stands settled h) (hscope : 0 < P.scope.index) :
    ¬ P.Own .global := by
  have hflags : 0 < P.flags.index := by
    have holder := hst.older
    omega
  rintro (heq | heq)
  · exact Nat.ne_of_lt hflags (congrArg Ref.index heq)
  · exact Nat.ne_of_lt hscope (congrArg Ref.index heq)

/-- The promise has no result, and its mark has this value. -/
structure Open (P : Promise) (last : Value) (h : Heap) : Prop where
  works : P.Works h
  unsettled : P.Variables (.closure P.thunk) none h
  marks : P.Marks last h
  apart : P.scope ≠ P.outer ∧ P.scope ≠ P.flags

theorem Open.adds (hopen : P.Open last h) (hle : h.Adds (fun _ => False) h') : P.Open last h' :=
  ⟨hopen.works.adds hle, hopen.unsettled.adds hle id id, hopen.marks.adds hle, hopen.apart⟩

theorem Open.bind (hopen : P.Open last h) (v : Value) :
    P.Open v (h.bind P.scope ⟨"done"⟩ v) := by
  have hbind : h.Adds (· = P.scope) (h.bind P.scope ⟨"done"⟩ v) :=
    h.adds_bind (· = P.scope) rfl _ v
  exact ⟨hopen.works.adds hbind, hopen.unsettled.adds hbind hopen.apart.1.symm hopen.apart.2.symm,
    hopen.marks.bind v, hopen.apart⟩

/-- A new scope is another than those of the promise. -/
theorem Open.not_own (hopen : P.Open last h) : ¬ P.Own ⟨h.scopes.size⟩ := by
  obtain ⟨_, hflags, -⟩ := hopen.unsettled.flags
  obtain ⟨_, hscope, -⟩ := hopen.marks.scope
  rintro (heq | heq)
  · exact Nat.ne_of_lt (Array.getElem?_eq_some_iff.1 hflags).1 (congrArg Ref.index heq).symm
  · exact Nat.ne_of_lt (Array.getElem?_eq_some_iff.1 hscope).1 (congrArg Ref.index heq).symm

/-- The heap in an evaluation of the expression. -/
def evaluated (P : Promise) (h : Heap) : Heap :=
  ((P.called h).addScope ⟨{}, some P.scope⟩).2

theorem adds_evaluated (own : Ref .scope → Prop) (P : Promise) (h : Heap) :
    h.Adds own (P.evaluated h) :=
  (P.adds_called own h).trans (Heap.adds_addScope own _ _)

theorem Open.evaluating (hopen : P.Open last h) :
    P.Evaluating (P.evaluated h) ⟨(P.called h).scopes.size⟩ := by
  obtain ⟨_, hscope, -⟩ := (hopen.marks.adds (P.adds_called _ _)).scope
  exact ⟨Array.getElem?_push_size, (Array.getElem?_eq_some_iff.1 hscope).1⟩

/-- The work that waits for the value of the expression, without the end of its level. -/
def awaiting (h : Heap) (all : Value) : List Pending :=
  [.operand (.closure ⟨h.closures.size⟩) [] .nil all ⟨h.scopes.size⟩, .leave]

section Nested

variable (hopen : P.Open last w.heap) (hK : ∀ h', w.heap.Adds P.Own h' → K h')
  (hroom : w.depth + 2 < w.maxDepth)

include hopen hK hroom

/-- A force comes to an evaluation of the expression. -/
theorem Open.goes_to_expression (h : ∀ all, State.Goes (State.Quiet K fun _ => True) []
      (fun _ => False) R ⟨.reduce P.expression ⟨(P.called w.heap).scopes.size⟩,
        .leave :: awaiting w.heap all,
        { w with depth := w.depth + 2, heap := P.evaluated w.heap }⟩) :
    State.Goes (State.Quiet K fun _ => True) [] (fun _ => False) R
      ⟨.apply (.primitive .force) [.closure P.procedure], [], w⟩ := by
  have hle := P.adds_called (fun _ => False) w.heap
  obtain ⟨name, hprocedure⟩ := hopen.works.procedure
  obtain ⟨name', hthunk⟩ := (hopen.works.adds hle).thunk
  refine goes_to_call hprocedure trivial hK hopen.works.code hopen.unsettled (by omega) ?_
  intro all
  exact .rebase (goes_evaluating (hopen.works.adds hle).call (hopen.adds hle).unsettled
    (hopen.unsettled.entered.adds (Heap.adds_addClosure (fun _ => False) _ _) id) hthunk trivial
    (hK _ (P.adds_called _ _)) hroom (.rebase (h all)))

/-- When the expression has come to a value, there is a result. -/
theorem Open.goes_from_expression (all : Value) (hle : (P.evaluated w.heap).Adds P.Own h)
    (hvariables : P.Variables (.closure P.thunk) settled h) :
    State.Goes (State.Quiet K fun _ => True) [] (fun _ => False)
      (State.Arrives P.Own w (settled.getD v)
        (P.Variables (.closure P.thunk) (some (settled.getD v))))
      ⟨.resume v, .leave :: awaiting w.heap all, { w with depth := w.depth + 2, heap := h }⟩ := by
  have hle' : (P.called w.heap).Adds P.Own h := (Heap.adds_addScope _ _ _).trans hle
  have hall := (P.adds_called P.Own w.heap).trans hle'
  refine State.goes_leave (hK _ hall) (goes_from_call hall hopen.works.code hvariables
    (((hopen.unsettled.entered.adds (Heap.adds_addClosure P.Own _ _) hopen.not_own)).adds hle'
      hopen.not_own) ⟨none, hle'.closures _ _ Array.getElem?_push_size⟩ trivial (Or.inl rfl) hK
        hroom)

/-- When an evaluation has begun, a force comes to the number. -/
theorem Open.goes_marked (hlast : last.isTrue = true) :
    State.Goes (State.Quiet K fun _ => True) [] (fun _ => False)
      (State.Arrives P.Own w (.number (.float 5))
        (P.Variables (.closure P.thunk) (some (.number (.float 5)))))
      ⟨.apply (.primitive .force) [.closure P.procedure], [], w⟩ := by
  have hle : ∀ own, w.heap.Adds own (P.evaluated w.heap) := fun own => P.adds_evaluated own _
  have hopen' := hopen.adds (hle _)
  refine hopen.goes_to_expression hK hroom fun all => ?_
  have hdone : State.Goes (State.Quiet K fun _ => True) [] (fun _ => False)
      (· = ⟨.resume (.number (.float 5)), [], { w with
        depth := w.depth + 2, heap := P.evaluated w.heap }⟩)
      ⟨.reduce P.expression ⟨(P.called w.heap).scopes.size⟩, [],
        { w with depth := w.depth + 2, heap := P.evaluated w.heap }⟩ :=
    goes_done hopen'.works.expression hopen'.marks hlast hopen.evaluating (hK _ (hle _))
      hroom rfl
  refine hdone.above (.leave :: awaiting w.heap all) ?_
  rintro s rfl
  exact hopen.goes_from_expression hK hroom all (.refl _ _) hopen'.unsettled

end Nested

/-- The first force makes another one on its way, and both come to the number. -/
theorem Open.exists_nested (hopen : P.Open (.boolean false) w.heap)
    (hK : ∀ h', w.heap.Adds P.Own h' → K h') (hroom : w.depth + 4 < w.maxDepth) :
    let start : State := ⟨.apply (.primitive .force) [.closure P.procedure], [], w⟩
    ∃ m k h', m < k ∧ (Step.next start).Forced P.procedure m (.number (.float 5)) ∧
      State.Through (State.Quiet K fun _ => True) k start
        ⟨.resume (.number (.float 5)), [], { w with heap := h' }⟩ ∧
      w.heap.Adds P.Own h' ∧ P.Variables (.closure P.thunk) (some (.number (.float 5))) h' := by
  intro start
  have hle : ∀ own, w.heap.Adds own (P.evaluated w.heap) := fun own => P.adds_evaluated own _
  have hopen' := hopen.adds (hle _)
  let h₁ := (P.evaluated w.heap).bind P.scope ⟨"done"⟩ (.closure P.procedure)
  have hle₁ : (P.evaluated w.heap).Adds P.Own h₁ := Heap.adds_bind _ _ (Or.inr rfl) _ _
  let w₁ : World := { w with depth := w.depth + 2, heap := h₁ }
  -- up to the force within
  have hfirst : State.Goes (State.Quiet K fun _ => True) [] (fun _ => False) (fun s => ∃ all, s =
      ⟨.apply (.primitive .force) [.closure P.procedure], .leave :: awaiting w.heap all, w₁⟩)
      ⟨.apply (.primitive .force) [.closure P.procedure], [], w⟩ :=
    hopen.goes_to_expression hK (by omega) fun all => .rebase (goes_again hopen'.works.expression
      hopen'.marks hopen.evaluating (hK _ (hle _)) (hK _ ((hle _).trans hle₁))
      (Nat.lt_of_succ_lt hroom) (.arrived ⟨all, rfl⟩))
  obtain ⟨k₁, _, hthrough₁, all, rfl⟩ := hfirst.exists_through
  -- the force within, for which the mark is set
  obtain ⟨k₂, _, hthrough₂, h₂, rfl, hle₂, hvariables₂⟩ :=
    (Open.goes_marked (w := w₁) (hopen'.bind _)
      (fun h' hle' => hK h' (((hle _).trans hle₁).trans hle')) hroom rfl).exists_through
  -- and on from its value
  obtain ⟨k₃, _, hthrough₃, h₃, rfl, hle₃, hvariables₃⟩ :=
    (hopen.goes_from_expression (w := w) (v := .number (.float 5)) hK (by omega) all
      (hle₁.trans hle₂) hvariables₂).exists_through
  have hlast : 0 < k₃ := by
    cases hthrough₃ with
    | next => exact Nat.succ_pos _
  refine ⟨k₁ + k₂, k₁ + k₂ + k₃, h₃, Nat.lt_add_of_pos_right hlast,
    ⟨k₁, _, _, k₂, _, hthrough₁.steps, ⟨rfl, rfl⟩, hthrough₂.steps, rfl⟩, ?_, hle₃, hvariables₃⟩
  exact (hthrough₁.trans (hthrough₂.onto (.leave :: awaiting w.heap all))).trans hthrough₃

end Promise

end Scheme
