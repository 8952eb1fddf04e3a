import Scheme.Proofs.PromiseForms
/-!
# Promises in a new interpreter

In a new interpreter, the code that makes promises lies in the heap as it was written.
-/

namespace Scheme

namespace World

/-- The pairs of the prelude that are replaced when they are evaluated. -/
def IsPending (r : Ref .pair) : Prop :=
  (∃ p, prelude.pairs[r.index]? = some p ∧ (p.isConjunction = true ∨ p.isTemplate = true)) ∨
    ∃ d ∈ Prelude.bindingForms, prelude.Denotes (.pair r) d

theorem areCalls_isPending : AreCalls IsPending where
  all _ p hp hcall := Or.inl ⟨p, hp, hcall⟩
  only _ := id

/-- The closure for delayed expressions. -/
theorem closure_delay : ∃ body name,
    prelude.closures[8]? = some ⟨⟨[⟨"exp"⟩], none⟩, body, .global, name⟩ ∧
      prelude.Denotes body delayText :=
  closure_prelude (c := ⟨8⟩) (by simp [Prelude.texts])

end World

namespace Moment

/-- A new interpreter that has read a form, while its code is as it was written. -/
abbrev begun (host : Host) (d : Datum) : Moment :=
  reading World.IsPending host d

variable {v : Value}

theorem exists_items_begun (host : Host) (d : Datum) (ds : List Datum)
    (hv : World.prelude.Denotes v (.list ds)) (hds : (Datum.list ds).isSpine = true) :
    ∃ xs, Items (begun host d).Cell v xs ∧ List.Forall₂ World.prelude.Denotes xs ds :=
  exists_items World.areCalls_isPending host d ds hv hds

/-- The test of a promise, with what comes after it. -/
theorem exists_tests (host : Host) (d : Datum) {test : Ref .pair} {otherwise : Datum}
    (h : World.prelude.Denotes (.pair test) (resultText otherwise))
    (hspine : (resultText otherwise).isSpine = true) : ∃ x,
      World.prelude.Denotes x otherwise ∧ Items (begun host d).Cell (.pair test)
        [.symbol ⟨"if"⟩, .symbol ⟨"result-ready?"⟩, .symbol ⟨"result"⟩, x] := by
  obtain ⟨xs, hxs, hall⟩ := exists_items_begun host d [_, _, _, _] h hspine
  simp only [List.forall₂_cons_right_iff, List.forall₂_nil_right_iff] at hall
  obtain ⟨_, _, rfl, ⟨_, _, rfl, ⟨_, _, rfl, ⟨x, _, hx, rfl, rfl⟩, rfl⟩, rfl⟩, rfl⟩ := hall
  exact ⟨x, hx, hxs⟩

/-- An assignment, with what is assigned. -/
theorem exists_assignment (host : Host) (d : Datum) {name : String} {text : Datum}
    (h : World.prelude.Denotes v (.form "set!" [.name name, text]))
    (hspine : (Datum.form "set!" [.name name, text]).isSpine = true) : ∃ r x, v = .pair r ∧
      World.prelude.Denotes x text ∧
      Items (begun host d).Cell (.pair r) [.symbol ⟨"set!"⟩, .symbol ⟨name⟩, x] := by
  obtain ⟨xs, hxs, hall⟩ := exists_items_begun host d [_, _, _] h hspine
  simp only [List.forall₂_cons_right_iff, List.forall₂_nil_right_iff] at hall
  obtain ⟨_, _, rfl, ⟨_, _, rfl, ⟨x, _, hx, rfl, rfl⟩, rfl⟩, rfl⟩ := hall
  obtain ⟨r, _, rfl, -⟩ := h
  exact ⟨r, x, rfl, hx, hxs⟩

/-- The value becomes the result. -/
theorem exists_settles (host : Host) (d : Datum)
    (h : World.prelude.Denotes v (.form "begin"
    [.form "set!" [.name "result-ready?", .boolean true], .form "set!" [.name "result", .name "x"],
      .name "result"])) : ∃ settle flag result, v = .pair settle ∧
      PromiseCode.Settles (begun host d).Cell settle flag result := by
  obtain ⟨xs, hxs, hall⟩ := exists_items_begun host d [_, _, _, _] h (by decide)
  simp only [List.forall₂_cons_right_iff, List.forall₂_nil_right_iff] at hall
  obtain ⟨_, _, rfl, ⟨flag, _, hflag, ⟨result, _, hresult, ⟨_, _, rfl, rfl, rfl⟩, rfl⟩, rfl⟩,
    rfl⟩ := hall
  obtain ⟨flag, _, rfl, rfl, hflag⟩ := exists_assignment host d hflag (by decide)
  obtain ⟨result, _, rfl, rfl, hresult⟩ := exists_assignment host d hresult (by decide)
  obtain ⟨settle, _, rfl, -⟩ := h
  exact ⟨settle, flag, result, rfl, hxs, hflag, hresult⟩

/-- A pair that denotes one of the local bindings of the prelude is to be replaced. -/
theorem exists_bindings_begun (host : Host) (d : Datum) {parts : List (String × Datum)}
    {text : Datum} (h : World.prelude.Denotes v (.bindings parts text))
    (hform : .bindings parts text ∈ Prelude.bindingForms)
    (hplain : parts.all (fun p => p.1 != "quasiquote" && !p.2.isName "quasiquote") = true)
    (hspine : (Datum.list [.list (parts.map fun p => .list [.name p.1, p.2]), text]).isSpine = true)
    (hwritten : (Datum.list (parts.map fun p => .list [.name p.1, p.2])).everywhere
      Datum.isWritten = true) :
    ∃ site, ∃ bindings : List (String × Value), ∃ x, v = .pair site ∧
      (begun host d).LetCall site bindings [x] ∧
      List.Forall₂ (fun b p => b.1 = p.1 ∧ LaidOut (begun host d).Lies b.2 p.2) bindings parts ∧
      World.prelude.Denotes x text := by
  obtain ⟨site, _, rfl, -⟩ := id h
  obtain ⟨bindings, x, hcall, hparts, hx⟩ := exists_bindings World.areCalls_isPending host d
    (Or.inr ⟨_, hform, h⟩) h hplain hspine hwritten
  exact ⟨site, bindings, x, rfl, hcall, hparts, hx⟩

/-- The local binding of the value, around the test that makes it the result. -/
theorem exists_value (host : Host) (d : Datum) (h : World.prelude.Denotes v valueText) :
    ∃ inner call recheck, v = .pair inner ∧
      (begun host d).LetCall inner [("x", .pair call)] [.pair recheck] ∧
      Items (begun host d).Cell (.pair call) [.symbol ⟨"proc"⟩] ∧
      ∃ settle flag result, PromiseCode.Tests (begun host d).Cell recheck settle ∧
        PromiseCode.Settles (begun host d).Cell settle flag result := by
  obtain ⟨inner, bindings, x, rfl, hcall, hparts, hx⟩ := exists_bindings_begun host d h
    (by simp [Prelude.bindingForms, valueText]) (by decide) (by decide) (by decide)
  simp only [List.forall₂_cons_right_iff, List.forall₂_nil_right_iff] at hparts
  obtain ⟨⟨_, proc⟩, _, ⟨rfl, hproc⟩, rfl, rfl⟩ := hparts
  obtain ⟨recheck, _, rfl, -⟩ := id hx
  obtain ⟨_, hsettle, htests⟩ := exists_tests host d hx (by decide)
  obtain ⟨settle, flag, result, rfl, hsettles⟩ := exists_settles host d hsettle
  obtain ⟨call, ⟨_, _⟩, rfl, hcell, rfl, rfl⟩ := hproc
  exact ⟨inner, call, recheck, rfl, hcall, .cons (hcell.cell (by decide)) .nil, settle, flag, result,
    htests, hsettles⟩

/-- The local bindings of the variables of a promise, around its procedure. -/
theorem exists_maker (host : Host) (d : Datum) (h : World.prelude.Denotes v makerText) :
    ∃ c : PromiseCode, v = .pair c.outer ∧ (begun host d).Makes c ∧ (begun host d).IsPromise c := by
  obtain ⟨outer, bindings, x, rfl, hcall, hparts, hx⟩ := exists_bindings_begun host d h
    (by simp [Prelude.bindingForms, makerText]) (by decide) (by decide) (by decide)
  simp only [List.forall₂_cons_right_iff, List.forall₂_nil_right_iff] at hparts
  obtain ⟨⟨_, _⟩, _, ⟨rfl, rfl⟩, ⟨⟨_, _⟩, _, ⟨rfl, rfl⟩, rfl, rfl⟩, rfl⟩ := hparts
  obtain ⟨l, _, rfl, -⟩ := id hx
  obtain ⟨xs, hxs, hall⟩ := exists_items_begun host d [_, _, _] hx (by decide)
  simp only [List.forall₂_cons_right_iff, List.forall₂_nil_right_iff] at hall
  obtain ⟨_, _, rfl, ⟨_, _, rfl, ⟨_, _, htest, rfl, rfl⟩, rfl⟩, rfl⟩ := hall
  obtain ⟨check, _, rfl, -⟩ := id htest
  obtain ⟨_, hvalue, htests⟩ := exists_tests host d htest (by decide)
  obtain ⟨inner, call, recheck, rfl, hinner, hproc, hrecheck⟩ := exists_value host d hvalue
  cases hxs with
  | cons hl hrest =>
  cases hrest with
  | cons hlist hrest =>
  cases hrest with
  | cons hforms hnil =>
  cases hnil
  exact ⟨⟨outer, check, inner, call, recheck⟩, rfl,
    ⟨l, _, Or.inl hcall, ⟨_, .nil, hl, hlist, .nil⟩, hforms⟩, ⟨htests, hproc, hrecheck⟩,
    Or.inl hinner⟩

/-- A new interpreter makes promises of delayed expressions. -/
theorem exists_hasPromises (host : Host) (d : Datum) : ∃ c, (begun host d).HasPromises c := by
  obtain ⟨body, name, hclosure, hbody⟩ := World.closure_delay
  obtain ⟨xs, hxs, hall⟩ := exists_items_begun host d [_, _, _] hbody
    (by decide +kernel)
  simp only [List.forall₂_cons_right_iff, List.forall₂_nil_right_iff] at hall
  obtain ⟨_, _, rfl, ⟨definition, _, hdefinition, ⟨_, _, htemplate, rfl, rfl⟩, rfl⟩, rfl⟩ := hall
  obtain ⟨ys, hys, hall⟩ := exists_items_begun host d [_, _, _] hdefinition
    (by decide +kernel)
  simp only [List.forall₂_cons_right_iff, List.forall₂_nil_right_iff] at hall
  obtain ⟨_, _, rfl, ⟨_, _, htarget, ⟨_, _, hmaker, rfl, rfl⟩, rfl⟩, rfl⟩ := hall
  obtain ⟨zs, hzs, hall⟩ := exists_items_begun host d [_, _] htarget (by decide)
  simp only [List.forall₂_cons_right_iff, List.forall₂_nil_right_iff] at hall
  obtain ⟨_, _, rfl, ⟨_, _, rfl, rfl, rfl⟩, rfl⟩ := hall
  obtain ⟨c, rfl, hmakes, hpromise⟩ := exists_maker host d hmaker
  obtain ⟨code, _, rfl, -⟩ := hbody
  obtain ⟨r, _, rfl, -⟩ := hdefinition
  obtain ⟨target, _, rfl, -⟩ := htarget
  obtain ⟨template, _, rfl, -⟩ := id htemplate
  have hdefines : (begun host d).Defines (.pair r) "make-promise" ["proc"] (.pair c.outer) := by
    cases hys with
    | cons hr hrest =>
    cases hrest with
    | cons hr₁ hrest =>
    cases hrest with
    | cons hr₂ hnil =>
    cases hnil
    cases hzs with
    | cons ht hlist => exact ⟨r, _, _, target, _, rfl, hr, hr₁, ht, hlist, hr₂⟩
  have hcontinues := continues_reading World.areCalls_isPending host d
  have hflat : (begun host d).Flat template promiseTemplate :=
    Or.inl (lies_of_prelude World.areCalls_isPending htemplate (by decide +kernel))
  exact ⟨c, hcontinues, isBinder_reading World.areCalls_isPending host d, ⟨code, .pair r, template,
    name, hcontinues.closures 8 _ hclosure, hxs, hdefines, hflat⟩, hmakes, hpromise⟩

end Moment

end Scheme
