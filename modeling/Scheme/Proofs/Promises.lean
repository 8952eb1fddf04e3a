import Scheme.Proofs.LocalBindings
import Scheme.Proofs.Seclusion
import Scheme.Proofs.Stretches
/-!
# Promises

A promise is a procedure over two variables that nobody else sees: whether there is a result, and
the result. They lie in a secluded scope, next to the procedure that evaluates the expression. A
promise that has a result answers it. Otherwise the expression is evaluated, and its value becomes
the result, unless there has come to be one in the meantime.
-/

namespace Scheme

open Step

/-! ## Code -/

/-- Where the parts of the code of promises lie: the local bindings of the two variables, the test
that is the body of a promise, the local binding of the value within, the call that gives the value,
and the test after it. -/
structure PromiseCode where
  outer : Ref .pair
  check : Ref .pair
  inner : Ref .pair
  call : Ref .pair
  recheck : Ref .pair

namespace PromiseCode

/-- A test of whether there is a result, which answers the result if there is one. -/
def Tests (cell : Ref .pair → Pair → Prop) (test other : Ref .pair) : Prop :=
  Items cell (.pair test)
    [.symbol ⟨"if"⟩, .symbol ⟨"result-ready?"⟩, .symbol ⟨"result"⟩, .pair other]

/-- The value becomes the result. -/
structure Settles (cell : Ref .pair → Pair → Prop) (settle flag result : Ref .pair) : Prop where
  forms : Items cell (.pair settle) [.symbol .begin, .pair flag, .pair result, .symbol ⟨"result"⟩]
  flag : Items cell (.pair flag) [.symbol ⟨"set!"⟩, .symbol ⟨"result-ready?"⟩, .boolean true]
  result : Items cell (.pair result) [.symbol ⟨"set!"⟩, .symbol ⟨"result"⟩, .symbol ⟨"x"⟩]

/-- The code of a promise lies in such cells, except for the local binding. -/
structure Lies (c : PromiseCode) (cell : Ref .pair → Pair → Prop) : Prop where
  check : Tests cell c.check c.inner
  call : Items cell (.pair c.call) [.symbol ⟨"proc"⟩]
  recheck : ∃ settle flag result, Tests cell c.recheck settle ∧ Settles cell settle flag result

theorem Lies.mono {c : PromiseCode} {cell cell' : Ref .pair → Pair → Prop}
    (hcells : ∀ r p, cell r p → cell' r p) (h : c.Lies cell) : c.Lies cell' := by
  obtain ⟨hcheck, hcall, settle, flag, result, hrecheck, hforms, hflag, hresult⟩ := h
  exact ⟨hcheck.mono hcells, hcall.mono hcells, settle, flag, result, hrecheck.mono hcells,
    hforms.mono hcells, hflag.mono hcells, hresult.mono hcells⟩

/-- The local binding has been replaced by a call of an abstraction. -/
def Expanded (c : PromiseCode) (cell : Ref .pair → Pair → Prop) : Prop :=
  ∃ head operands names, cell c.inner ⟨.pair head, operands⟩ ∧ Items cell operands [.pair c.call] ∧
    Items cell (.pair head) [.symbol ⟨"lambda"⟩, names, .pair c.recheck] ∧
    Items cell names [.symbol ⟨"x"⟩]

theorem Expanded.mono {c : PromiseCode} {cell cell' : Ref .pair → Pair → Prop}
    (hcells : ∀ r p, cell r p → cell' r p) (h : c.Expanded cell) : c.Expanded cell' := by
  obtain ⟨head, operands, names, hinner, hoperands, hhead, hnames⟩ := h
  exact ⟨head, operands, names, hcells _ _ hinner, hoperands.mono hcells, hhead.mono hcells,
    hnames.mono hcells⟩

end PromiseCode

namespace Moment

variable {σ : Moment} {c : PromiseCode}

/-- The code of promises is as it was written, or its local binding has been replaced. -/
structure IsPromise (σ : Moment) (c : PromiseCode) : Prop where
  lies : c.Lies σ.Cell
  inner : σ.Bound c.inner [("x", .pair c.call)] [.pair c.recheck]

theorem Abstracted.expanded (h : σ.Abstracted c.inner [("x", .pair c.call)] [.pair c.recheck]) :
    c.Expanded σ.Cell := by
  obtain ⟨head, operands, inner, names, forms, hr, hoperands, hhead, hinner, hnames, hforms⟩ :=
    h.form
  exact ⟨head, operands, names, hr, hoperands, .cons hhead (.cons hinner hforms), hnames⟩

end Moment

/-! ## Scopes -/

namespace Heap

variable {h : Heap} {s parent : Ref .scope} {t : Scope} {name : Symbol} {v : Value}

/-- Other scopes than the one that binds the name stay as they are. -/
theorem getElem?_bind_of_ne {owner : Ref .scope} (hne : s ≠ owner) :
    (h.bind owner name v).scopes[s.index]? = h.scopes[s.index]? := by
  have hindex : owner.index ≠ s.index := fun heq => hne (by cases s; exact congrArg Ref.mk heq.symm)
  rw [bind, Array.getElem?_modify, if_neg hindex]

theorem locate?_here (ht : h.scopes[s.index]? = some t) (hv : t.bindings[name.name]? = some v) :
    h.locate? name s = some (s, v) := by
  simp [locate?, locateWithin, scope, ht, hv]

/-- What a scope does not bind is found where its parent finds it. -/
theorem locate?_within {found : Ref .scope × Value} (ht : h.scopes[s.index]? = some t)
    (hparent : t.parent = some parent) (holder : parent.index < s.index)
    (hname : t.bindings[name.name]? = none) (hfound : h.locate? name parent = some found) :
    h.locate? name s = some found := by
  simp only [locate?, locateWithin, scope, ht, Option.getD_some, hname, hparent]
  exact locateWithin_mono (fun _ _ hs => hs) (by omega) hfound

end Heap

/-- A promise that has been made: its code, the scopes around its procedure, and the procedure that
evaluates the expression. -/
structure Promise where
  code : PromiseCode
  frame : Ref .scope
  outer : Ref .scope
  flags : Ref .scope
  thunk : Ref .closure
  procedure : Ref .closure
  expression : Value
  scope : Ref .scope

namespace Promise

/-- What the promise keeps from others. -/
def seclusion (P : Promise) : Seclusion where
  outer := P.outer
  frame := P.frame
  free := ⟨"let"⟩
  hidden := P.thunk
  entrance := some ⟨P.procedure, .pair P.code.check, P.flags⟩

/-- What it keeps from others until it is handed to them. -/
def unseen (P : Promise) : Seclusion :=
  { P.seclusion with entrance := none }

/-- The values of the two variables. -/
def entries (settled : Option Value) : Environment :=
  [("result-ready?", .boolean settled.isSome), ("result", settled.getD (.boolean false))]

/-- The scopes around the procedure of the promise: one binds what is called for the value, and the
one within it the two variables. -/
structure Variables (P : Promise) (proc : Value) (settled : Option Value) (h : Heap) : Prop where
  outer : ∃ bindings, h.scopes[P.outer.index]? = some ⟨bindings, some P.frame⟩ ∧
    ∀ name : String, bindings[name]? = List.lookup name [("proc", proc)]
  flags : ∃ bindings, h.scopes[P.flags.index]? = some ⟨bindings, some P.outer⟩ ∧
    ∀ name : String, bindings[name]? = List.lookup name (entries settled)
  older : 0 < P.frame.index ∧ P.frame.index < P.outer.index ∧ P.outer.index < P.flags.index

/-- The promise has been made, and it has this result, if any. -/
structure Stands (P : Promise) (settled : Option Value) (h : Heap) : Prop
    extends P.Variables (.closure P.thunk) settled h where
  secluded : P.seclusion.Secludes h
  thunk : ∃ name, h.closures[P.thunk.index]? = some ⟨⟨[], none⟩, P.expression, P.scope, name⟩
  around : P.seclusion.Opens h P.scope

/-- Scopes keep their parents, and closures their code. Inside, only the two variables change. -/
structure Leads (P : Promise) (h h' : Heap) : Prop extends h.Follows h' where
  inside : ∀ s t, h.Inside P.outer s → s ≠ P.flags → h.scopes[s.index]? = some t →
    h'.scopes[s.index]? = some t

/-- The scope is that of a call of the promise. -/
def Entered (P : Promise) (h : Heap) (f : Ref .scope) : Prop :=
  h.scopes[f.index]? = some ⟨{}, some P.flags⟩ ∧ P.flags.index < f.index

/-- The closure holds the test after the evaluation, for a call of the promise. -/
structure Rechecks (P : Promise) (h : Heap) (g : Ref .closure) (f : Ref .scope) : Prop where
  closure : ∃ name, h.closures[g.index]? = some ⟨⟨[⟨"x"⟩], none⟩, .pair P.code.recheck, f, name⟩
  entered : P.Entered h f
  fresh : g ≠ P.procedure ∧ g ≠ P.thunk

variable {P : Promise} {h h' h'' : Heap} {proc : Value} {settled : Option Value} {f : Ref .scope}
  {v : Value} {found : Ref .scope × Value} {name : Symbol}

theorem Leads.refl (P : Promise) (h : Heap) : P.Leads h h :=
  ⟨.refl h, fun _ _ _ _ ht => ht⟩

theorem Leads.trans (h₁ : P.Leads h h') (h₂ : P.Leads h' h'') : P.Leads h h'' :=
  ⟨h₁.toFollows.trans h₂.toFollows, fun s t hs hne ht =>
    h₂.inside s t (hs.mono h₁.toFollows) hne (h₁.inside s t hs hne ht)⟩

theorem Leads.of_spares (hle : h.Spares P.outer h') : P.Leads h h' :=
  ⟨hle.toFollows, fun s t hs _ ht => hle.inside s t hs ht⟩

theorem Stands.inside_flags (hst : P.Stands settled h) : h.Inside P.outer P.flags := by
  obtain ⟨bindings, hflags, -⟩ := hst.flags
  exact .within hflags .here

theorem Entered.inside (hst : P.Stands settled h) (hf : P.Entered h f) : h.Inside P.outer f :=
  .within hf.1 hst.inside_flags

theorem Entered.mono (hf : P.Entered h f) (hst : P.Stands settled h) (hle : P.Leads h h') :
    P.Entered h' f := by
  refine ⟨hle.inside f _ (hf.inside hst) ?_ hf.1, hf.2⟩
  rintro rfl
  exact Nat.lt_irrefl _ hf.2

theorem Rechecks.mono {g : Ref .closure} (hg : P.Rechecks h g f) (hst : P.Stands settled h)
    (hle : P.Leads h h') : P.Rechecks h' g f := by
  obtain ⟨name, hclosure⟩ := hg.closure
  exact ⟨hle.code _ _ hclosure, hg.entered.mono hst hle, hg.fresh⟩

/-- What leaves the inside as it is leaves the promise as it is. -/
theorem Stands.spares (hst : P.Stands settled h) (hs : P.seclusion.Secludes h')
    (hle : h.Spares P.outer h') : P.Stands settled h' := by
  obtain ⟨⟨⟨bindings, houter, hproc⟩, ⟨bindings', hflags, hvariables⟩, holder⟩, -, ⟨name, hthunk⟩,
    haround⟩ := id hst
  exact ⟨⟨⟨bindings, hle.inside _ _ .here houter, hproc⟩,
    ⟨bindings', hle.inside _ _ hst.inside_flags hflags, hvariables⟩, holder⟩, hs,
    hle.code _ _ hthunk, haround.mono hle.toFollows⟩

/-- The scope of the variables tells whether there is a result, and which. -/
theorem Stands.settled_eq {settled' : Option Value} (hst : P.Stands settled h)
    (hst' : P.Stands settled' h') (hsame : ∀ t, h.scopes[P.flags.index]? = some t →
      h'.scopes[P.flags.index]? = some t) : settled = settled' := by
  obtain ⟨bindings, hflags, hvariables⟩ := hst.flags
  obtain ⟨bindings', hflags', hvariables₁⟩ := hst'.flags
  cases Option.some.inj ((hsame _ hflags).symm.trans hflags')
  have hready : settled.isSome = settled'.isSome := by
    simpa [entries] using (hvariables "result-ready?").symm.trans (hvariables₁ "result-ready?")
  have hresult : settled.getD (.boolean false) = settled'.getD (.boolean false) :=
    Option.some.inj ((hvariables "result").symm.trans (hvariables₁ "result"))
  cases settled <;> cases settled' <;> simp_all

theorem Stands.unique {settled' : Option Value} (hst : P.Stands settled h)
    (hst' : P.Stands settled' h) : settled = settled' :=
  hst.settled_eq hst' fun _ => id

theorem Stands.shows_expression (hst : P.Stands settled h) :
    P.seclusion.Shows h P.expression := by
  obtain ⟨name, hthunk⟩ := hst.thunk
  exact hst.secluded.code _ (Array.mem_of_getElem? hthunk)

theorem Stands.procedure_ne (hst : P.Stands settled h) : P.procedure ≠ P.thunk := by
  intro heq
  obtain ⟨-, name, hprocedure⟩ := hst.secluded.entrance _ rfl
  obtain ⟨name', hthunk⟩ := hst.thunk
  change h.closures[P.procedure.index]? = some ⟨_, _, P.flags, name⟩ at hprocedure
  rw [heq, hthunk] at hprocedure
  have hscope : P.scope = P.flags := congrArg Closure.scope (Option.some.inj hprocedure)
  exact hst.around.1.not_inside (hscope ▸ hst.inside_flags)

/-! ## What is found in a scope inside -/

namespace Variables

variable (hvariables : P.Variables proc settled h)
include hvariables

theorem locate?_variable (hv : (entries settled).lookup name.name = some v) :
    h.locate? name P.flags = some (P.flags, v) := by
  obtain ⟨bindings, hflags, hentries⟩ := hvariables.flags
  exact Heap.locate?_here hflags ((hentries _).trans hv)

/-- The two variables hide nothing else. -/
theorem locate?_outer (hname : (entries settled).lookup name.name = none)
    (hfound : h.locate? name P.outer = some found) : h.locate? name P.flags = some found := by
  obtain ⟨bindings, hflags, hentries⟩ := hvariables.flags
  exact Heap.locate?_within hflags rfl hvariables.older.2.2 ((hentries _).trans hname) hfound

theorem locate?_proc : h.locate? ⟨"proc"⟩ P.flags = some (P.outer, proc) := by
  obtain ⟨bindings, houter, hproc⟩ := hvariables.outer
  exact hvariables.locate?_outer rfl (Heap.locate?_here houter (hproc _))

/-- The name of local bindings has the meaning inside that it has around. -/
theorem locate?_let {t : Scope} (hframe : h.scopes[P.frame.index]? = some t)
    (hparent : t.parent = some .global) (hfree : t.bindings["let"]? = none)
    (hfound : h.locate? ⟨"let"⟩ .global = some found) : h.locate? ⟨"let"⟩ P.flags = some found := by
  obtain ⟨bindings, houter, hproc⟩ := hvariables.outer
  refine hvariables.locate?_outer rfl
    (Heap.locate?_within houter rfl hvariables.older.2.1 (hproc _) ?_)
  exact Heap.locate?_within hframe hparent hvariables.older.1 hfree hfound

end Variables

/-- The name of local bindings has its global meaning inside. -/
theorem Stands.locate?_let (hst : P.Stands settled h)
    (hfound : h.locate? ⟨"let"⟩ .global = some found) : h.locate? ⟨"let"⟩ P.flags = some found := by
  obtain ⟨t, hframe, hparent, hfree⟩ := hst.secluded.frame
  exact hst.toVariables.locate?_let hframe hparent hfree hfound

theorem Entered.locate? (hf : P.Entered h f) (hfound : h.locate? name P.flags = some found) :
    h.locate? name f = some found :=
  Heap.locate?_within hf.1 rfl hf.2 (by simp) hfound

/-! ## A result -/

/-- The value becomes the result of the promise. -/
def settle (P : Promise) (h : Heap) (v : Value) : Heap :=
  (h.bind P.flags ⟨"result-ready?"⟩ (.boolean true)).bind P.flags ⟨"result"⟩ v

theorem leads_bind (h : Heap) (name : Symbol) (v : Value) : P.Leads h (h.bind P.flags name v) := by
  exact ⟨h.follows_bind _ name v, fun s t _ hne ht => (Heap.getElem?_bind_of_ne hne).trans ht⟩

theorem leads_settle (h : Heap) (v : Value) : P.Leads h (P.settle h v) :=
  (leads_bind h _ _).trans (leads_bind _ _ _)

namespace Variables

/-- The first of the two assignments leaves the other variable. -/
theorem locate?_half (hvariables : P.Variables proc none h) :
    (h.bind P.flags ⟨"result-ready?"⟩ (.boolean true)).locate? ⟨"result"⟩ P.flags =
      some (P.flags, .boolean false) := by
  obtain ⟨bindings, hflags, hentries⟩ := hvariables.flags
  refine Heap.locate?_here
    (t := ⟨bindings.insert "result-ready?" (.boolean true), some P.outer⟩) ?_ ?_
  · simp [Heap.bind, Array.getElem?_modify, hflags]
  · exact (Heap.getElem?_insert_eq_lookup hentries _ _ _)

theorem flags_ne (hvariables : P.Variables proc settled h) :
    P.flags ≠ P.frame ∧ P.flags ≠ P.outer := by
  have holder := hvariables.older
  constructor <;> (intro heq; rw [heq] at holder; omega)

/-- A promise without a result takes the value as its result. -/
theorem settle (hvariables : P.Variables proc none h) (v : Value) :
    P.Variables proc (some v) (P.settle h v) := by
  obtain ⟨⟨bindings, houter, hproc⟩, ⟨bindings', hflags, hentries⟩, holder⟩ := id hvariables
  have hne := hvariables.flags_ne.2.symm
  refine ⟨⟨bindings, (Heap.getElem?_bind_of_ne hne).trans ((Heap.getElem?_bind_of_ne hne).trans
    houter), hproc⟩, ⟨(bindings'.insert "result-ready?" (.boolean true)).insert "result" v, ?_,
    fun other => ?_⟩, holder⟩
  · simp [Promise.settle, Heap.bind, Array.getElem?_modify, hflags]
  · rw [Heap.getElem?_insert_eq_lookup (Heap.getElem?_insert_eq_lookup hentries _ _)]
    simp only [entries, List.lookup_cons]
    by_cases hresult : other = "result"
    · simp [hresult]
    · rw [beq_eq_false_iff_ne.2 hresult]
      cases other == "result-ready?" <;> rfl

end Variables

theorem Stands.settle (hst : P.Stands none h) (hv : P.seclusion.Shows h v) :
    P.Stands (some v) (P.settle h v) := by
  obtain ⟨name, hthunk⟩ := hst.thunk
  have hle : P.Leads h (P.settle h v) := leads_settle h v
  have hframe := hst.toVariables.flags_ne.1
  have hready : P.seclusion.Secludes (h.bind P.flags ⟨"result-ready?"⟩ (.boolean true)) :=
    hst.secluded.bind trivial fun heq => absurd heq hframe
  exact ⟨hst.toVariables.settle v,
    hready.bind (hv.mono (h.follows_bind _ _ _)) fun heq => absurd heq hframe, hle.code _ _ hthunk,
    hst.around.mono hle.toFollows⟩

end Promise

end Scheme
