import Scheme.Proofs.CodeRuns
import Scheme.Proofs.Definitions
import Scheme.Proofs.NestedScopes
import Scheme.Proofs.ProperLists
import Scheme.Proofs.TailCalls
/-!
# A loop over a list

A closure that calls itself in tail position for the rest of a list needs three levels, whatever
the length of the list.
-/

namespace Scheme

open Step

/-! ## Evaluations within a few levels -/

section Rules

variable {k : Nat} {x v : Value} {scope : Ref .scope} {w w' : World} {s : Symbol}

theorem EvaluatesWithin.of_reduce
    (h : (Focus.reduce ⟨x, scope, w⟩ [] 0 k).Ends (.value v) (w'.onLevel 0 k)) :
    EvaluatesWithin (k + 1) x scope w v w' := by
  obtain ⟨w₁, hends, rfl⟩ := (Focus.Iterates.refl ⟨x, scope, w⟩).ends
    (h.fits ⟨by simp, by simp⟩) h
  exact hends

theorem EvaluatesWithin.variable {owner : Ref .scope}
    (h : w.heap.locate? s scope = some (owner, v)) :
    EvaluatesWithin (k + 1) (.symbol s) scope w v w := by
  refine .of_reduce ⟨2, ?_⟩
  have hstep : State.step ⟨.reduce (.symbol s) scope, [], w.onLevel 0 k⟩ =
      go (.resume v) [] (w.onLevel 0 k) := by
    simp only [State.step, Step.reduce, answer, after, World.lookup, World.heap_onLevel, h]
  exact congrArg (steps 1) hstep

theorem Focus.ends_quoted (hx : w.heap.Lists x [.symbol .quote, v]) :
    (Focus.reduce ⟨x, scope, w⟩ [] 0 k).Ends (.value v) (w.onLevel 0 k) := by
  obtain ⟨site, operands, rfl, hcell, hoperands⟩ := hx.exists_pair
  obtain ⟨r, rest, rfl, hquoted, -⟩ := hoperands.exists_pair
  refine ⟨2, ?_⟩
  have hstep : State.step ⟨.reduce (.pair site) scope, [], w.onLevel 0 k⟩ =
      go (.resume v) [] (w.onLevel 0 k) := by
    simp only [State.step, Step.reduce, World.heap_onLevel, hcell]
    change special .quotation (.pair r) scope [] (w.onLevel 0 k) = _
    simp only [special, World.heap_onLevel, Heap.first, hquoted]
  exact congrArg (steps 1) hstep

theorem OperandsWithin.of_lists {rest : Value} {forms vs : List Value}
    (hrest : w.heap.Lists rest forms)
    (hforms : List.Forall₂ (fun x v => EvaluatesWithin k x scope w v w) forms vs) :
    OperandsWithin k scope rest w vs w := by
  induction hforms generalizing rest with
  | nil =>
      cases hrest
      exact .nil
  | @cons x v xs vs hfirst _ ih =>
      obtain ⟨r, others, rfl, hcell, hothers⟩ := hrest.exists_pair
      have hhere : EvaluatesWithin k (w.heap.pair r).first scope w v w := by rwa [hcell]
      refine .cons hhere ?_
      rw [hcell]
      exact ih hothers

/-- A call of a primitive that only looks. -/
theorem EvaluatesWithin.looks {p : Primitive} {owner : Ref .scope} {forms vs : List Value}
    (hx : w.heap.Lists x (.symbol s :: forms)) (hs : SpecialForm.ofSymbol? s = none)
    (hp : w.heap.locate? s scope = some (owner, .primitive p))
    (hforms : List.Forall₂ (fun x v => EvaluatesWithin (k + 1) x scope w v w) forms vs)
    (hv : p.look? w.heap vs = some v) : EvaluatesWithin (k + 2) x scope w v w := by
  obtain ⟨site, rest, rfl, hcell, hrest⟩ := hx.exists_pair
  have hspecial : (w.heap.pair site).isSpecial = false := by simp [Pair.isSpecial, hcell, hs]
  have hhead : EvaluatesWithin (k + 1) (w.heap.pair site).first scope w (.primitive p) w := by
    rw [hcell]
    exact .variable hp
  have hoperands : OperandsWithin (k + 1) scope (w.heap.pair site).rest w vs w := by
    rw [hcell]
    exact .of_lists hrest hforms
  have happly : Step.apply (.primitive p) vs [] (w.onLevel 0 (k + 1)) =
      go (.resume v) [] (w.onLevel 0 (k + 1)) := by
    unfold Primitive.look? at hv
    split at hv
    · next htakes =>
        cases hoperation : p.operation with
        | control operation =>
            rw [hoperation] at hv
            cases hv
        | direct operation =>
            rw [hoperation] at hv
            have hperform : operation.perform vs (w.onLevel 0 (k + 1)) = _ :=
              DirectOperation.perform_of_look? hv
            simp only [Step.apply, after, Primitive.checkCount_eq htakes, hoperation, answer,
              hperform]
    · cases hv
  refine .of_reduce (Reaches.ends (reaches_call (by omega) [] hspecial hhead rfl hoperands) ?_)
  exact ⟨2, congrArg (steps 1) happly⟩

end Rules

/-! ## The loop -/

/-- What the loop does with a list. -/
def loopBody : Datum :=
  .form "if" [.form "null?" [.name "l"], .quoted "done", .form "loop" [.form "cdr" [.name "l"]]]

/-- The definition of the loop. -/
def loopText : Datum :=
  .form "define" [.list [.name "loop", .name "l"], loopBody]

example : (Reader.ofText "(define (loop l) (if (null? l) 'done (loop (cdr l))))".toList).read.1 =
    .datum loopText := by
  cbv

/-- The names in the loop. -/
def loopNames (c : Ref .closure) : Environment :=
  [("loop", .closure c), ("null?", .primitive .isNull), ("cdr", .primitive .cdr)]

/-- The loop has been defined as this closure. -/
structure World.DefinesLoop (w : World) (c : Ref .closure) : Prop where
  names : ∀ name v, (loopNames c).lookup name = some v →
    w.heap.binding? .global ⟨name⟩ = some v
  closure : ∃ body name, w.heap.closures[c.index]? = some ⟨⟨[⟨"l"⟩], none⟩, body, .global, name⟩ ∧
    w.heap.Denotes body loopBody

/-- The scope is the one of a call of the loop with this list. -/
structure World.InLoop (w : World) (c : Ref .closure) (scope : Ref .scope) (l : Value) : Prop
    extends World.DefinesLoop w c where
  list : w.heap.locate? ⟨"l"⟩ scope = some (scope, l)
  visible : ∀ name v, (loopNames c).lookup name = some v →
    w.heap.locate? ⟨name⟩ scope = some (.global, v)

namespace Heap

variable {h : Heap}

theorem scopes_pos_of_binding {n : Symbol} {v : Value} (hv : h.binding? .global n = some v) :
    0 < h.scopes.size := by
  refine Nat.pos_of_ne_zero fun hsize => ?_
  have hnone : h.scopes[0]? = none := by simp [hsize]
  simp [binding?, scope, Ref.global, hnone] at hv

/-- The elements of a list of data. -/
theorem Denotes.lists {v : Value} {ds : List Datum} (hv : h.Denotes v (.list ds)) :
    ∃ xs, h.Lists v xs ∧ List.Forall₂ h.Denotes xs ds := by
  induction ds generalizing v with
  | nil =>
      obtain rfl : v = .nil := hv
      exact ⟨[], .nil, .nil⟩
  | cons d ds ih =>
      obtain ⟨r, p, rfl, hcell, hfirst, hrest⟩ := hv
      obtain ⟨xs, hxs, hall⟩ := ih hrest
      exact ⟨p.first :: xs, .cons hcell hxs, .cons hfirst hall⟩

/-- The expressions in the body of the loop. -/
theorem Denotes.loop_forms {body : Value} (hbody : h.Denotes body loopBody) :
    ∃ test done again rest, h.Lists body [.symbol ⟨"if"⟩, test, done, again] ∧
      h.Lists test [.symbol ⟨"null?"⟩, .symbol ⟨"l"⟩] ∧
      h.Lists done [.symbol .quote, .symbol ⟨"done"⟩] ∧
      h.Lists again [.symbol ⟨"loop"⟩, rest] ∧
      h.Lists rest [.symbol ⟨"cdr"⟩, .symbol ⟨"l"⟩] := by
  have hlists : ∀ {v : Value} {head : String} {operands : List Datum},
      h.Denotes v (.form head operands) → ∃ xs, h.Lists v (.symbol ⟨head⟩ :: xs) ∧
        List.Forall₂ h.Denotes xs operands := by
    intro v head operands hv
    obtain ⟨xs, hxs, hall⟩ := Denotes.lists (show h.Denotes v (.list (.name head :: operands)) from hv)
    obtain ⟨x, xs, hhead, hrest, rfl⟩ := List.forall₂_cons_right_iff.1 hall
    obtain rfl : x = .symbol ⟨head⟩ := hhead
    exact ⟨xs, hxs, hrest⟩
  obtain ⟨xs, hxs, hforms⟩ := hlists hbody
  simp only [List.forall₂_cons_right_iff, List.forall₂_nil_right_iff] at hforms
  obtain ⟨test, _, htest, ⟨done, _, hdone, ⟨again, _, hagain, rfl, rfl⟩, rfl⟩, rfl⟩ := hforms
  obtain ⟨ys, hys, htest⟩ := hlists htest
  obtain ⟨zs, hzs, hdone⟩ := hlists hdone
  obtain ⟨us, hus, hagain⟩ := hlists hagain
  simp only [List.forall₂_cons_right_iff, List.forall₂_nil_right_iff] at htest hdone hagain
  obtain ⟨_, _, rfl, rfl, rfl⟩ := htest
  obtain ⟨_, _, rfl, rfl, rfl⟩ := hdone
  obtain ⟨rest, _, hrest, rfl, rfl⟩ := hagain
  obtain ⟨vs, hvs, hrest⟩ := hlists hrest
  simp only [List.forall₂_cons_right_iff, List.forall₂_nil_right_iff] at hrest
  obtain ⟨_, _, rfl, rfl, rfl⟩ := hrest
  exact ⟨test, done, again, rest, hxs, hys, hzs, hus, hvs⟩

theorem Lists.first_eq {v x : Value} {xs : List Value} (hv : h.Lists v (x :: xs)) :
    h.first v = x := by
  obtain ⟨r, rest, rfl, hcell, -⟩ := hv.exists_pair
  simp only [first, hcell]

theorem Lists.rest {v x : Value} {xs : List Value} (hv : h.Lists v (x :: xs)) :
    h.Lists (h.rest v) xs := by
  obtain ⟨r, rest, rfl, hcell, hrest⟩ := hv.exists_pair
  simpa only [Heap.rest, hcell] using hrest

end Heap

namespace World

variable {w : World} {c : Ref .closure}

/-- Makes the scope of a call of the loop. -/
def enterLoop (w : World) (l : Value) : Ref .scope × World :=
  w.enter ⟨[⟨"l"⟩], none⟩ [l] .global

theorem enterLoop_eq (w : World) (l : Value) :
    w.enterLoop l = (⟨w.heap.scopes.size⟩, { w with heap := { w.heap with
      scopes := w.heap.scopes.push ⟨.insert {} "l" l, some .global⟩ } }) :=
  rfl

/-- A call of the loop changes nothing but for the scope that it makes. -/
theorem DefinesLoop.enter (hloop : w.DefinesLoop c) (l : Value) :
    (w.enterLoop l).2.InLoop c (w.enterLoop l).1 l := by
  have hsize : 0 < w.heap.scopes.size :=
    Heap.scopes_pos_of_binding (hloop.names "cdr" (.primitive .cdr) rfl)
  rw [enterLoop_eq]
  have hold : ∀ s, Heap.scope { w.heap with scopes := w.heap.scopes.push s } .global =
      w.heap.scope .global := by
    intro s
    simp only [Heap.scope, Ref.global, Array.getElem?_push]
    rw [if_neg (by omega)]
  have hnew : ∀ s, Heap.scope { w.heap with scopes := w.heap.scopes.push s }
      ⟨w.heap.scopes.size⟩ = s := by
    intro s
    simp [Heap.scope]
  refine ⟨⟨fun name v hv => ?_, ?_⟩, ?_, fun name v hv => ?_⟩
  · have hbinding := hloop.names name v hv
    rwa [Heap.binding?, ← hold ⟨.insert {} "l" l, some .global⟩] at hbinding
  · obtain ⟨body, name, hclosure, hbody⟩ := hloop.closure
    exact ⟨body, name, hclosure, hbody.extend ⟨fun _ _ => id, fun _ _ => id, fun _ _ => id⟩⟩
  · simp [Heap.locate?, Heap.locateWithin, hnew]
  · have hne : "l" ≠ name := by
      rintro rfl
      cases hv
    have hglobal : Heap.binding? { w.heap with
        scopes := w.heap.scopes.push ⟨.insert {} "l" l, some .global⟩ } .global ⟨name⟩ = some v := by
      have hbinding := hloop.names name v hv
      rwa [Heap.binding?, ← hold ⟨.insert {} "l" l, some .global⟩] at hbinding
    have hfound := Heap.locate?_of_binding hglobal
    simp only [Heap.locate?, Heap.locateWithin, hnew, Std.TreeMap.getElem?_insert, hne,
      Std.compare_eq_iff_eq, if_false]
    exact Heap.locateWithin_mono (fun _ _ => id) hsize hfound

variable {scope : Ref .scope} {l : Value} {k : Nat}

theorem DefinesLoop.closure_eq (hloop : w.DefinesLoop c) :
    ∃ body name, w.heap.closure c = ⟨⟨[⟨"l"⟩], none⟩, body, .global, name⟩ ∧
      w.heap.Denotes body loopBody := by
  obtain ⟨body, name, hclosure, hbody⟩ := hloop.closure
  exact ⟨body, name, by simp [Heap.closure, hclosure], hbody⟩

theorem DefinesLoop.calls {x operand : Value} {w₁ : World} {owner : Ref .scope}
    (hx : w.heap.Lists x [.symbol ⟨"loop"⟩, operand])
    (hc : w.heap.locate? ⟨"loop"⟩ scope = some (owner, .closure c))
    (hoperand : EvaluatesWithin (k + 1) operand scope w l w₁) (hloop : w₁.DefinesLoop c) :
    Focus.Calls (k + 1) ⟨x, scope, w⟩
      ⟨(w₁.heap.closure c).body, (w₁.enterLoop l).1, (w₁.enterLoop l).2⟩ := by
  obtain ⟨site, rest, rfl, hcell, hrest⟩ := hx.exists_pair
  obtain ⟨r, others, rfl, hoperands, hothers⟩ := hrest.exists_pair
  have hspecial : (w.heap.pair site).isSpecial = false := by rw [hcell]; rfl
  have hhead : EvaluatesWithin (k + 1) (w.heap.pair site).first scope w (.closure c) w := by
    rw [hcell]
    exact .variable hc
  have hvalues : OperandsWithin (k + 1) scope (w.heap.pair site).rest w [l] w₁ := by
    cases hothers
    have hfirst : EvaluatesWithin (k + 1) (w.heap.pair r).first scope w l w₁ := by rwa [hoperands]
    have hnil : OperandsWithin (k + 1) scope (w.heap.pair r).rest w₁ [] w₁ := by
      rw [hoperands]
      exact .nil
    rw [hcell]
    exact .cons hfirst hnil
  obtain ⟨body, name, hclosure, -⟩ := hloop.closure_eq
  exact .closure hspecial hhead hvalues (by rw [hclosure]; rfl)

/-- The loop tests its list and goes on with one of two expressions in tail position. -/
theorem InLoop.branches (hloop : w.InLoop c scope l) {b : Bool}
    (hb : Primitive.look? .isNull w.heap [l] = some (.boolean b)) :
    ∃ done again rest,
      Focus.Tail (k + 2) ⟨(w.heap.closure c).body, scope, w⟩
        ⟨if b then done else again, scope, w⟩ ∧
      w.heap.Lists done [.symbol .quote, .symbol ⟨"done"⟩] ∧
      w.heap.Lists again [.symbol ⟨"loop"⟩, rest] ∧
      w.heap.Lists rest [.symbol ⟨"cdr"⟩, .symbol ⟨"l"⟩] := by
  obtain ⟨body, name, hclosure, hcode⟩ := hloop.closure_eq
  obtain ⟨test, done, again, rest, hforms, htest, hdone, hagain, hrest⟩ := hcode.loop_forms
  obtain ⟨site, operands, rfl, hcell, hoperands⟩ := hforms.exists_pair
  have hvariable : EvaluatesWithin (k + 1) (.symbol ⟨"l"⟩) scope w l w := .variable hloop.list
  have htested : EvaluatesWithin (k + 2) (w.heap.first operands) scope w (.boolean b) w := by
    rw [hoperands.first_eq]
    exact .looks htest rfl (hloop.visible "null?" _ rfl) (.cons hvariable .nil) hb
  have htail := Focus.Tail.branch hcell htested
  have hsecond : w.heap.second operands = done := hoperands.rest.first_eq
  have hthird : w.heap.third operands = again := hoperands.rest.rest.first_eq
  rw [hsecond, hthird] at htail
  have hforms : (if (Value.boolean b).isTrue then done else again) = if b then done else again := by
    cases b <;> rfl
  rw [hforms] at htail
  rw [hclosure]
  exact ⟨done, again, rest, htail, hdone, hagain, hrest⟩

/-- With each element of the list the loop comes to its body once more, and in the end to the
expression of its answer. -/
theorem InLoop.iterates {items : List Value} (hloop : w.InLoop c scope l)
    (hl : w.heap.Lists l items) :
    ∃ f, Focus.Iterates (k + 2) items.length ⟨(w.heap.closure c).body, scope, w⟩ f ∧
      f.world.DefinesLoop c ∧
      (f.reduce [] 0 (k + 2)).Ends (.value (.symbol ⟨"done"⟩)) (f.world.onLevel 0 (k + 2)) := by
  induction items generalizing l scope w with
  | nil =>
      obtain rfl : l = .nil := by
        cases hl
        rfl
      obtain ⟨done, again, rest, htail, hdone, -⟩ := hloop.branches (k := k) (b := true) rfl
      exact ⟨_, .tail htail (.refl _), hloop.toDefinesLoop, Focus.ends_quoted hdone⟩
  | cons item items ih =>
      obtain ⟨r, others, rfl, hcell, hothers⟩ := hl.exists_pair
      obtain ⟨done, again, rest, htail, -, hagain, hrest⟩ :=
        hloop.branches (k := k) (b := false) rfl
      have hvariable : EvaluatesWithin (k + 1) (.symbol ⟨"l"⟩) scope w (.pair r) w :=
        .variable hloop.list
      have hlook : Primitive.look? .cdr w.heap [.pair r] = some others := by
        have hfields : Primitive.look? .cdr w.heap [.pair r] = some (w.heap.pair r).rest := rfl
        rw [hfields, hcell]
      have hoperand : EvaluatesWithin (k + 2) rest scope w others w :=
        .looks hrest rfl (hloop.visible "cdr" _ rfl) (.cons hvariable .nil) hlook
      have hcall := hloop.calls hagain (hloop.visible "loop" _ rfl) hoperand
      obtain ⟨f, hiterates, hdefines, hends⟩ := ih (hloop.enter others) hothers
      exact ⟨f, .tail htail (.call hcall hiterates), hdefines, hends⟩

/-- A heap with the closure of the loop under its name. -/
theorem DefinesLoop.of_define {h : Heap} {body : Value} (hheap : w.heap = (h.addClosure
      ⟨⟨[⟨"l"⟩], none⟩, body, .global, none⟩).2.define .global ⟨"loop"⟩ (.closure ⟨h.closures.size⟩))
    (hbody : h.Denotes body loopBody)
    (hnull : h.binding? .global ⟨"null?"⟩ = some (.primitive .isNull))
    (hcdr : h.binding? .global ⟨"cdr"⟩ = some (.primitive .cdr)) :
    w.DefinesLoop ⟨h.closures.size⟩ where
  names name v hv := by
    have hsize : 0 < h.scopes.size := Heap.scopes_pos_of_binding hnull
    have hrebinds := Heap.rebinds_define (f := .global) (h := (h.addClosure
      ⟨⟨[⟨"l"⟩], none⟩, body, .global, none⟩).2) hsize ⟨"loop"⟩ (.closure ⟨h.closures.size⟩)
    rw [← hheap] at hrebinds
    simp only [loopNames, List.lookup_cons, List.lookup_nil] at hv
    split at hv
    · next hname =>
        cases hv
        rw [beq_iff_eq.1 hname]
        exact hrebinds.binding?_here
    · split at hv
      · next hname =>
          cases hv
          rw [beq_iff_eq.1 hname, hrebinds.binding?_elsewhere (by simp)]
          exact hnull
      · split at hv
        · next hname =>
            cases hv
            rw [beq_iff_eq.1 hname, hrebinds.binding?_elsewhere (by simp)]
            exact hcdr
        · cases hv
  closure := by
    refine ⟨body, some ⟨"loop"⟩, ?_, ?_⟩
    · have hnamed : (h.addClosure ⟨⟨[⟨"l"⟩], none⟩, body, .global, none⟩).2.nameClosure
          ⟨h.closures.size⟩ ⟨"loop"⟩ = _ := Heap.nameClosure_last rfl rfl _
      simp only [hheap, Heap.define, hnamed, Heap.bind, Array.getElem?_push_size]
    · rw [hheap]
      exact hbody.extend ⟨fun _ _ => id, fun _ _ => id, fun _ _ => id⟩

/-- The definition of the loop takes one level. -/
theorem exists_definesLoop {x : Value} (hx : w.heap.Denotes x loopText)
    (hnull : w.heap.binding? .global ⟨"null?"⟩ = some (.primitive .isNull))
    (hcdr : w.heap.binding? .global ⟨"cdr"⟩ = some (.primitive .cdr)) :
    ∃ w' c, EvaluatesWithin 1 x .global w (.symbol ⟨"loop"⟩) w' ∧ w'.DefinesLoop c := by
  obtain ⟨site, ⟨_, _⟩, rfl, hsite, hdefine, r, ⟨target, forms⟩, rfl, hr, htarget, hforms⟩ := hx
  cases hdefine
  obtain ⟨t, ⟨_, parameters⟩, rfl, ht, hname, hparameters⟩ := htarget
  cases hname
  obtain ⟨h', body, hclose, -, hscopes, -, hbody⟩ :=
    Heap.exists_close (show w.heap.Denotes forms (.list [loopBody]) from hforms) ⟨[⟨"l"⟩], none⟩
  have hbinding : ∀ n, h'.binding? .global n = w.heap.binding? .global n := by
    intro n
    simp only [Heap.binding?, Heap.scope, hscopes]
  have hparameters' : World.parameters parameters w = .value ⟨[⟨"l"⟩], none⟩ w :=
    World.parametersFrom_of_denotes hparameters rfl
      (Nat.pos_of_ne_zero fun hzero => by simp [hzero] at hsite) []
  have habstraction : abstraction parameters forms .global w = .value ⟨h'.closures.size⟩
      { w with heap := (h'.addClosure ⟨⟨[⟨"l"⟩], none⟩, body, .global, none⟩).2 } := by
    simp only [abstraction, bind, Action.bind, hparameters', World.alter, hclose]
    rfl
  let w' : World := { w with heap := (h'.addClosure
    ⟨⟨[⟨"l"⟩], none⟩, body, .global, none⟩).2.define .global ⟨"loop"⟩ (.closure ⟨h'.closures.size⟩) }
  have hreduce : State.step ⟨.reduce (.pair site) .global, [], w.onLevel 0 0⟩ =
      go (.resume (.symbol ⟨"loop"⟩)) [] (w'.onLevel 0 0) := by
    have hthere := (plain_abstraction .global parameters forms).onLevel w 0 0
    rw [habstraction] at hthere
    simp only [State.step, Step.reduce, World.heap_onLevel, Heap.pair_eq_of_getElem? hsite]
    change special .definition (.pair r) .global [] (w.onLevel 0 0) = _
    simp only [special, World.heap_onLevel, Heap.first, Heap.rest, Heap.pair_eq_of_getElem? hr,
      Value.isPair, if_true, defineProcedure, Heap.pair_eq_of_getElem? ht, after, World.symbol,
      World.expect, pure, Action.pure, hthere, Result.onLevel]
    rfl
  exact ⟨w', _, .of_reduce ⟨2, congrArg (steps 1) hreduce⟩,
    .of_define rfl hbody ((hbinding _).trans hnull) ((hbinding _).trans hcdr)⟩

/-- A call of the loop on a list takes one level more than its operand, and three at least. -/
theorem DefinesLoop.evaluates {x operand : Value} {items : List Value} {w₁ : World}
    (hloop : w.DefinesLoop c) (hx : w.heap.Lists x [.symbol ⟨"loop"⟩, operand])
    (hoperand : EvaluatesWithin (k + 2) operand .global w l w₁) (hloop₁ : w₁.DefinesLoop c)
    (hl : w₁.heap.Lists l items) :
    ∃ w', EvaluatesWithin (k + 3) x .global w (.symbol ⟨"done"⟩) w' ∧ w'.DefinesLoop c := by
  have hcall := hloop₁.calls hx (Heap.locate?_of_binding (hloop.names "loop" _ rfl)) hoperand
  obtain ⟨f, hiterates, hdefines, hends⟩ := (hloop₁.enter l).iterates (k := k) hl
  obtain ⟨w', hwhole, rfl⟩ := (Focus.Iterates.call hcall hiterates).ends
    (hends.fits ⟨by simp, by simp⟩) hends
  exact ⟨f.world, hwhole, hdefines⟩

end World

/-- Closures that call each other in tail position, however often, do so on one level: each call is
reduced on the first level and above nothing but its end, and a limit of one more than what each
iteration needs is enough for the run to come to its result. The loop over a list needs three levels
for every list. -/
theorem Focus.tail_calls_stay_on_level :
    (∀ k n f f', Focus.Iterates k n f f' →
      (go (.eval f.form f.scope) [] (f.world.onLevel 0 (k + 1))).Reaches
        (f'.reduce [.leave] 1 (k + 1)) ∧
      ∀ outcome w, ¬ (f'.reduce [] 0 k).Deepens → (f'.reduce [] 0 k).Ends outcome w →
        ∃ w', (go (.eval f.form f.scope) [] (f.world.onLevel 0 (k + 1))).Ends outcome w' ∧
          outcome.SameWorld (w.underLimit (k + 1)) w') ∧
    ∀ w x, w.heap.Denotes x loopText →
      w.heap.binding? .global ⟨"null?"⟩ = some (.primitive .isNull) →
      w.heap.binding? .global ⟨"cdr"⟩ = some (.primitive .cdr) →
      ∃ w₁ c, EvaluatesWithin 1 x .global w (.symbol ⟨"loop"⟩) w₁ ∧ w₁.DefinesLoop c ∧
        ∀ w₂ call operand l items w₃, w₂.DefinesLoop c →
          w₂.heap.Lists call [.symbol ⟨"loop"⟩, operand] →
          EvaluatesWithin 2 operand .global w₂ l w₃ → w₃.DefinesLoop c → w₃.heap.Lists l items →
          ∃ w₄, EvaluatesWithin 3 call .global w₂ (.symbol ⟨"done"⟩) w₄ ∧ w₄.DefinesLoop c := by
  refine ⟨fun k n f f' hiterates => ⟨hiterates.eval_reaches, fun outcome w hfits hends =>
    hiterates.ends hfits hends⟩, fun w x hx hnull hcdr => ?_⟩
  obtain ⟨w₁, c, hdefinition, hloop⟩ := World.exists_definesLoop hx hnull hcdr
  exact ⟨w₁, c, hdefinition, hloop, fun w₂ call operand l items w₃ hloop₂ hcall hoperand hloop₃ hl =>
    hloop₂.evaluates (k := 0) hcall hoperand hloop₃ hl⟩

/-- A world with the definition of the loop in pair 0 and with the form `(loop '(#t #f))` in
pair 17. -/
def World.withLoop : World where
  heap :=
    { pairs := #[
        ⟨.symbol ⟨"define"⟩, .pair ⟨1⟩⟩, ⟨.pair ⟨2⟩, .pair ⟨4⟩⟩, ⟨.symbol ⟨"loop"⟩, .pair ⟨3⟩⟩,
        ⟨.symbol ⟨"l"⟩, .nil⟩, ⟨.pair ⟨5⟩, .nil⟩,
        -- the body
        ⟨.symbol ⟨"if"⟩, .pair ⟨6⟩⟩, ⟨.pair ⟨9⟩, .pair ⟨7⟩⟩, ⟨.pair ⟨11⟩, .pair ⟨8⟩⟩,
        ⟨.pair ⟨13⟩, .nil⟩, ⟨.symbol ⟨"null?"⟩, .pair ⟨10⟩⟩, ⟨.symbol ⟨"l"⟩, .nil⟩,
        ⟨.symbol .quote, .pair ⟨12⟩⟩, ⟨.symbol ⟨"done"⟩, .nil⟩,
        ⟨.symbol ⟨"loop"⟩, .pair ⟨14⟩⟩, ⟨.pair ⟨15⟩, .nil⟩,
        ⟨.symbol ⟨"cdr"⟩, .pair ⟨16⟩⟩, ⟨.symbol ⟨"l"⟩, .nil⟩,
        -- the call
        ⟨.symbol ⟨"loop"⟩, .pair ⟨18⟩⟩, ⟨.pair ⟨19⟩, .nil⟩, ⟨.symbol .quote, .pair ⟨20⟩⟩,
        ⟨.pair ⟨21⟩, .nil⟩, ⟨.boolean true, .pair ⟨22⟩⟩, ⟨.boolean false, .nil⟩]
      scopes := #[⟨.insert (.insert {} "null?" (.primitive .isNull)) "cdr" (.primitive .cdr), none⟩] }
  host := nowhere
  maxDepth := defaultMaxDepth

/-- A call of the loop on a list of two elements: three calls, all on the first level. -/
theorem Focus.loop_of_two_stays_on_level :
    let w := World.withLoop
    (w.heap.Denotes (.pair ⟨0⟩) loopText ∧
      w.heap.binding? .global ⟨"null?"⟩ = some (.primitive .isNull) ∧
      w.heap.binding? .global ⟨"cdr"⟩ = some (.primitive .cdr)) ∧
    ∃ w₁ c, EvaluatesWithin 1 (.pair ⟨0⟩) .global w (.symbol ⟨"loop"⟩) w₁ ∧ w₁.DefinesLoop c ∧
      (∃ f, Focus.Iterates 2 3 ⟨.pair ⟨17⟩, .global, w₁⟩ f ∧ ¬ (f.reduce [] 0 2).Deepens ∧
        (go (.eval (.pair ⟨17⟩) .global) [] (w₁.onLevel 0 3)).Reaches (f.reduce [.leave] 1 3) ∧
        ∃ w', (go (.eval (.pair ⟨17⟩) .global) [] (w₁.onLevel 0 3)).Ends
          (.value (.symbol ⟨"done"⟩)) w') ∧
      ∃ w₂, EvaluatesWithin 3 (.pair ⟨17⟩) .global w₁ (.symbol ⟨"done"⟩) w₂ := by
  intro w
  have hparameter : w.heap.Denotes (.pair ⟨3⟩) (.list [.name "l"]) := ⟨_, _, rfl, rfl, rfl, rfl⟩
  have htest : w.heap.Denotes (.pair ⟨9⟩) (.form "null?" [.name "l"]) :=
    ⟨_, _, rfl, rfl, rfl, _, _, rfl, rfl, rfl, rfl⟩
  have hdone : w.heap.Denotes (.pair ⟨11⟩) (.quoted "done") :=
    ⟨_, _, rfl, rfl, rfl, _, _, rfl, rfl, rfl, rfl⟩
  have hrest : w.heap.Denotes (.pair ⟨15⟩) (.form "cdr" [.name "l"]) :=
    ⟨_, _, rfl, rfl, rfl, _, _, rfl, rfl, rfl, rfl⟩
  have hagain : w.heap.Denotes (.pair ⟨13⟩) (.form "loop" [.form "cdr" [.name "l"]]) :=
    ⟨_, _, rfl, rfl, rfl, _, _, rfl, rfl, hrest, rfl⟩
  have hbody : w.heap.Denotes (.pair ⟨5⟩) loopBody :=
    ⟨_, _, rfl, rfl, rfl, _, _, rfl, rfl, htest, _, _, rfl, rfl, hdone, _, _, rfl, rfl, hagain, rfl⟩
  have htext : w.heap.Denotes (.pair ⟨0⟩) loopText :=
    ⟨_, _, rfl, rfl, rfl, _, _, rfl, rfl, ⟨_, _, rfl, rfl, rfl, hparameter⟩, _, _, rfl, rfl, hbody,
      rfl⟩
  have hnull : w.heap.binding? .global ⟨"null?"⟩ = some (.primitive .isNull) := rfl
  have hcdr : w.heap.binding? .global ⟨"cdr"⟩ = some (.primitive .cdr) := rfl
  obtain ⟨htails, hloops⟩ := tail_calls_stay_on_level
  obtain ⟨w₁, c, hdefinition, hloop, hcalls⟩ := hloops w (.pair ⟨0⟩) htext hnull hcdr
  have hpairs : w₁.heap.pairs = w.heap.pairs := by
    have hconcrete : ∃ w', (go (.eval (.pair ⟨0⟩) .global) [] (w.onLevel 0 1)).Ends
        (.value (.symbol ⟨"loop"⟩)) w' ∧ w'.heap.pairs = w.heap.pairs := ⟨_, ⟨4, rfl⟩, rfl⟩
    obtain ⟨w', hends, hpairs⟩ := hconcrete
    rw [← (Ends.unique hdefinition hends).2] at hpairs
    exact hpairs
  have hlists : ∀ {v : Value} {xs : List Value}, w.heap.Lists v xs → w₁.heap.Lists v xs := by
    intro v xs hv
    exact hv.mono fun r p hcell => by rwa [hpairs]
  have hcall : w₁.heap.Lists (.pair ⟨17⟩) [.symbol ⟨"loop"⟩, .pair ⟨19⟩] :=
    hlists (.cons rfl (.cons rfl .nil))
  have hquoted : w₁.heap.Lists (.pair ⟨19⟩) [.symbol .quote, .pair ⟨21⟩] :=
    hlists (.cons rfl (.cons rfl .nil))
  have hitems : w₁.heap.Lists (.pair ⟨21⟩) [.boolean true, .boolean false] :=
    hlists (.cons rfl (.cons rfl .nil))
  have hoperand : EvaluatesWithin 2 (.pair ⟨19⟩) .global w₁ (.pair ⟨21⟩) w₁ :=
    .of_reduce (ends_quoted hquoted)
  obtain ⟨f, hiterates, -, hends⟩ := (hloop.enter (.pair ⟨21⟩)).iterates (k := 0) hitems
  have hfits : ¬ (f.reduce [] 0 2).Deepens := hends.fits ⟨by simp, by simp⟩
  have hthree : Focus.Iterates 2 3 ⟨.pair ⟨17⟩, .global, w₁⟩ f :=
    .call (hloop.calls hcall (Heap.locate?_of_binding (hloop.names "loop" _ rfl)) hoperand) hiterates
  obtain ⟨w₂, hvalue, -⟩ := hcalls w₁ (.pair ⟨17⟩) (.pair ⟨19⟩) (.pair ⟨21⟩) _ w₁ hloop hcall
    hoperand hloop hitems
  obtain ⟨hreaches, hresult⟩ := htails 2 3 _ f hthree
  obtain ⟨w', hwhole, -⟩ := hresult _ _ hfits hends
  exact ⟨⟨htext, hnull, hcdr⟩, w₁, c, hdefinition, hloop, ⟨f, hthree, hfits, hreaches, w', hwhole⟩,
    w₂, hvalue⟩

end Scheme
