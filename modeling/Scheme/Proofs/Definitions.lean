import Scheme.Proofs.CodeRuns
import Scheme.Proofs.Composition
/-!
# Programs of definitions

What a program leaves in the heap that defines names as other names and as transformers.
-/

namespace Scheme

open Step

/-! ## Data in a heap -/

/-- The number of pairs of a datum outside of vectors. -/
def Datum.pairCount : Datum → Nat
  | .pair first rest => first.pairCount + rest.pairCount + 1
  | _ => 0

namespace Heap

/-- Building a datum takes as many pairs as it has. -/
theorem pairCount_le_size (h : Heap) (d : Datum) :
    h.pairs.size + d.pairCount ≤ (h.build d).2.pairs.size := by
  induction d using Datum.rec (motive_2 := fun _ => True) generalizing h with
  | pair first rest ihfirst ihrest =>
      have hfirst := ihfirst h
      have hrest := ihrest (h.build first).2
      simp only [Datum.pairCount, build, cons, Array.size_push]
      omega
  | _ => first | exact (extends_build h _).pairs_size | trivial

end Heap

/-! ## Parameters -/

/-- The parameters that a datum lists. -/
def Datum.parameters? : Datum → Option Parameters
  | .nil => some ⟨[], none⟩
  | .symbol rest => some ⟨[], some rest⟩
  | .pair (.symbol name) rest => rest.parameters?.map fun p => ⟨name :: p.fixed, p.rest⟩
  | _ => none

theorem World.parametersFrom_of_denotes {w : World} {d : Datum} {whole v : Value} {p : Parameters}
    (hv : w.heap.Denotes v d) (hp : d.parameters? = some p) {budget : Nat}
    (hbudget : d.pairCount ≤ budget) (passed : List Symbol) :
    parametersFrom whole budget passed v w = .value ⟨passed.reverse ++ p.fixed, p.rest⟩ w := by
  induction d using Datum.parameters?.induct generalizing v p budget passed with
  | case1 =>
      cases hv
      cases hp
      rw [List.append_nil, parametersFrom]
      rfl
  | case2 rest =>
      cases hv
      cases hp
      rw [List.append_nil, parametersFrom]
      rfl
  | case3 name rest ih =>
      obtain ⟨r, ⟨_, tail⟩, rfl, hr, hname, hrest⟩ := hv
      cases hname
      obtain ⟨others, hothers, rfl⟩ := Option.map_eq_some_iff.1 hp
      simp only [Datum.pairCount] at hbudget
      obtain ⟨budget, rfl⟩ : ∃ n, budget = n + 1 := ⟨budget - 1, by omega⟩
      have hnext := ih hrest hothers (by omega : rest.pairCount ≤ budget) (name :: passed)
      rw [parametersFrom]
      simp only [bind, Action.bind, look, Heap.pair_eq_of_getElem? hr]
      change parametersFrom whole budget (name :: passed) _ w = _
      simpa using hnext
  | case4 d hnil hsymbol hpair =>
      rw [Datum.parameters?] at hp
      · cases hp
      all_goals assumption

/-! ## One definition -/

/-- The datum that defines a name. -/
def Datum.defining (name : Symbol) (x : Datum) : Datum :=
  .form "define" [.symbol name, x]

theorem Heap.Denotes.defining {h : Heap} {name : Symbol} {x : Datum} {v : Value}
    (hv : h.Denotes v (.defining name x)) :
    ∃ r rest, v = .pair r ∧ h.pair r = ⟨.symbol ⟨"define"⟩, rest⟩ ∧ h.first rest = .symbol name ∧
      h.second rest = h.third v ∧ h.Denotes (h.third v) x := by
  obtain ⟨r, ⟨_, _⟩, rfl, hr, hdefine, r₁, ⟨_, _⟩, rfl, hr₁, hname, r₂, ⟨y, _⟩, rfl, hr₂, hy, -⟩ := hv
  cases hdefine
  cases hname
  have hthird : h.third (.pair r) = y := by
    simp only [third, first, rest, pair_eq_of_getElem? hr, pair_eq_of_getElem? hr₁,
      pair_eq_of_getElem? hr₂]
  rw [hthird]
  refine ⟨r, _, rfl, pair_eq_of_getElem? hr, ?_, ?_, hy⟩
  · simp only [first, pair_eq_of_getElem? hr₁]
  · simp only [second, first, rest, pair_eq_of_getElem? hr₁, pair_eq_of_getElem? hr₂]

/-- The definition of a name as what the machine makes of an expression in one step. -/
theorem Step.steps_definition {w : World} {r : Reader} {name : Symbol} {x : Datum}
    (hread : r.read.1 = .datum (.defining name x)) (hdepth : w.depth + 1 < w.maxDepth) {v : Value}
    {built h : Heap} (hbuilt : (w.heap.build (.defining name x)).2 = built)
    (hreduce : ∀ stack d log,
      reduce (built.third (w.heap.build (.defining name x)).1) .global stack
        { w with heap := built, depth := d, log } =
          go (.resume v) stack { w with heap := h, depth := d, log }) (last : Value) :
    (go (.advance (.text r) last) [] w).steps 9 =
      go (.advance (.text r.read.2.drain.2) (.symbol name)) []
        { w.noteAll r.read.2.cursor.entries with heap := h.define .global name v } := by
  subst hbuilt
  obtain ⟨site, rest, hsite, hpair, hfirst, hsecond, -⟩ :=
    (w.heap.denotes_build (.defining name x)).defining
  let program := Program.text r.read.2.drain.2
  let at_ (d : Nat) (heap : Heap) : World :=
    { w.noteAll r.read.2.cursor.entries with heap, depth := d }
  let built := (w.heap.build (.defining name x)).2
  let y := built.third (w.heap.build (.defining name x)).1
  have hadvance : State.step ⟨.advance (.text r) last, [], w⟩ =
      go (.eval (.pair site) .global) [.program program] (at_ w.depth built) := by
    rw [State.step_advance, hread, ← hsite]
    rfl
  have heval : State.step ⟨.eval (.pair site) .global, [.program program], at_ w.depth built⟩ =
      go (.reduce (.pair site) .global) [.leave, .program program] (at_ (w.depth + 1) built) :=
    if_pos (show w.depth < w.maxDepth by omega)
  have hform : State.step ⟨.reduce (.pair site) .global, [.leave, .program program],
      at_ (w.depth + 1) built⟩ =
      go (.eval y .global) [.definition name .global, .leave, .program program]
        (at_ (w.depth + 1) built) := by
    have hpair' : (at_ (w.depth + 1) built).heap.pair site = ⟨.symbol ⟨"define"⟩, rest⟩ := hpair
    have hfirst' : (at_ (w.depth + 1) built).heap.first rest = .symbol name := hfirst
    have hsecond' : (at_ (w.depth + 1) built).heap.second rest = y := hsecond
    simp only [State.step, reduce, hpair']
    change special .definition rest .global _ _ = _
    simp only [special, hfirst', Value.isPair]
    change go (.eval ((at_ (w.depth + 1) built).heap.second rest) .global) _ _ = _
    rw [hsecond']
  have heval' : State.step ⟨.eval y .global, [.definition name .global, .leave, .program program],
      at_ (w.depth + 1) built⟩ =
      go (.reduce y .global) [.leave, .definition name .global, .leave, .program program]
        (at_ (w.depth + 2) built) :=
    if_pos hdepth
  have hvalue : State.step ⟨.reduce y .global,
      [.leave, .definition name .global, .leave, .program program], at_ (w.depth + 2) built⟩ =
      go (.resume v) [.leave, .definition name .global, .leave, .program program]
        (at_ (w.depth + 2) h) :=
    hreduce _ _ _
  simp only [go] at hadvance heval hform heval' hvalue ⊢
  rw [steps_next, hadvance, steps_next, heval, steps_next, hform, steps_next, heval', steps_next,
    hvalue]
  rfl

/-! ## What a definition leaves -/

namespace Heap

mutual

/-- Data have no scopes and no closures. -/
theorem scopes_build (h : Heap) (d : Datum) :
    (h.build d).2.scopes = h.scopes ∧ (h.build d).2.closures = h.closures := by
  cases d with
  | vector elements => exact scopes_buildAll h elements
  | pair first rest =>
      have hfirst := scopes_build h first
      have hrest := scopes_build (h.build first).2 rest
      exact ⟨hrest.1.trans hfirst.1, hrest.2.trans hfirst.2⟩
  | _ => exact ⟨rfl, rfl⟩

theorem scopes_buildAll (h : Heap) (ds : List Datum) :
    (h.buildAll ds).2.scopes = h.scopes ∧ (h.buildAll ds).2.closures = h.closures := by
  cases ds with
  | nil => exact ⟨rfl, rfl⟩
  | cons d ds =>
      have hfirst := scopes_build h d
      have hrest := scopes_buildAll (h.build d).2 ds
      exact ⟨hrest.1.trans hfirst.1, hrest.2.trans hfirst.2⟩

end

end Heap

/-- The body of a procedure with these forms. -/
def Datum.asBody : Datum → Datum
  | .pair first .nil => first
  | forms => .pair (.symbol .begin) forms

/-- What is known of the global names and of the closures of a heap. -/
structure Heap.Knows (h : Heap) (env : Environment) (procedures : List (Parameters × Datum)) :
    Prop where
  scopes : ∃ bindings, h.scopes = #[Scope.mk bindings none] ∧ ∀ name, bindings[name]? = env.lookup name
  count : h.closures.size = procedures.length
  closures : ∀ (i : Nat) p d, procedures[i]? = some (p, d) → ∃ body name,
    h.closures[i]? = some ⟨p, body, .global, name⟩ ∧ h.Denotes body d

/-- What is known after a definition of a name as another name, or as a transformer. -/
def Datum.define? (known : Environment × List (Parameters × Datum)) :
    Datum → Option (Environment × List (Parameters × Datum))
  | .pair (.symbol head) (.pair (.symbol name) (.pair (.symbol other) .nil)) =>
    if head.name = "define" then
      match known.1.lookup other.name with
      | some (.primitive p) => some ((name.name, .primitive p) :: known.1, known.2)
      | _ => none
    else none
  | .pair (.symbol head) (.pair (.symbol name)
      (.pair (.pair (.symbol inner) (.pair parameters forms)) .nil)) =>
    if head.name = "define" ∧ inner.name = "macro" then
      parameters.parameters?.map fun p =>
        ((name.name, .transformer ⟨known.2.length⟩) :: known.1, known.2 ++ [(p, forms.asBody)])
    else none
  | _ => none

namespace Heap

theorem extends_bind (h : Heap) (ref : Ref .scope) (name : Symbol) (v : Value) :
    h.Extends (h.bind ref name v) :=
  ⟨fun _ _ => id, fun _ _ => id, fun _ _ => id⟩

/-- The body of a closure over several forms is a sequence of them. -/
theorem denotes_sequence {h : Heap} {forms : Datum} {v : Value} (hv : h.Denotes v forms) :
    (h.cons (.symbol .begin) v).2.Denotes (h.cons (.symbol .begin) v).1
      (.pair (.symbol .begin) forms) :=
  ⟨_, _, rfl, Array.getElem?_push_size, rfl, hv.extend (extends_cons _ _ _)⟩

/-- A closure over forms has a body of its own. -/
theorem exists_close {h : Heap} {forms : Datum} {v : Value} (hv : h.Denotes v forms)
    (p : Parameters) :
    ∃ h' body, h.close p v .global = h'.addClosure ⟨p, body, .global, none⟩ ∧ h.Extends h' ∧
      h'.scopes = h.scopes ∧ h'.closures = h.closures ∧ h'.Denotes body forms.asBody := by
  have hsequence := extends_cons h (.symbol .begin) v
  cases forms with
  | pair first rest =>
      obtain ⟨ref, q, rfl, hq, hfirst, hrest⟩ := hv
      by_cases hnil : q.rest.isNil = true
      · have hend : q.rest = .nil := by
          revert hnil
          cases q.rest <;> simp [Value.isNil]
        rw [hend] at hrest
        obtain rfl := hrest.eq_nil
        refine ⟨h, q.first, ?_, .refl h, rfl, rfl, hfirst⟩
        simp only [close, pair_eq_of_getElem? hq, hnil, if_true]
      · refine ⟨_, (h.cons (.symbol .begin) (.pair ref)).1, ?_, hsequence, rfl, rfl, ?_⟩
        · simp only [close, pair_eq_of_getElem? hq, hnil]
          rfl
        · have hasBody : (Datum.pair first rest).asBody = .pair (.symbol .begin) (.pair first rest) := by
            cases rest with
            | nil => exact absurd (by rw [show q.rest = .nil from hrest]; rfl) hnil
            | _ => rfl
          rw [hasBody]
          exact denotes_sequence ⟨ref, q, rfl, hq, hfirst, hrest⟩
  | _ =>
      refine ⟨_, (h.cons (.symbol .begin) v).1, ?_, hsequence, rfl, rfl, denotes_sequence hv⟩
      have hatom : ∀ ref, v ≠ .pair ref := by
        rintro ref rfl
        simp [Denotes] at hv
      cases v <;> first | rfl | exact absurd rfl (hatom _)

end Heap

namespace Heap.Knows

variable {h h' : Heap} {env : Environment} {procedures : List (Parameters × Datum)}

theorem locate?_eq (hknows : h.Knows env procedures) {name : String} {v : Value}
    (hname : env.lookup name = some v) : h.locate? ⟨name⟩ .global = some (.global, v) := by
  obtain ⟨bindings, hscopes, hbindings⟩ := hknows.scopes
  simp [locate?, locateWithin, scope, Ref.global, hscopes, hbindings, hname]

/-- One more name. -/
theorem bind (hknows : h.Knows env procedures) (name : Symbol) (v : Value) :
    (h.bind .global name v).Knows ((name.name, v) :: env) procedures where
  scopes := by
    obtain ⟨bindings, hscopes, hbindings⟩ := hknows.scopes
    refine ⟨bindings.insert name.name v, ?_, getElem?_insert_eq_lookup hbindings _ _⟩
    simp [Heap.bind, hscopes, Ref.global]
  count := hknows.count
  closures i p d hi := by
    obtain ⟨body, name', hclosure, hbody⟩ := hknows.closures i p d hi
    exact ⟨body, name', hclosure, hbody.extend (extends_bind h .global name v)⟩

/-- More pairs. -/
theorem extend (hknows : h.Knows env procedures) (hext : h.Extends h')
    (hscopes : h'.scopes = h.scopes) (hclosures : h'.closures = h.closures) :
    h'.Knows env procedures where
  scopes := hscopes ▸ hknows.scopes
  count := hclosures ▸ hknows.count
  closures i p d hi := by
    obtain ⟨body, name, hclosure, hbody⟩ := hknows.closures i p d hi
    exact ⟨body, name, hclosures ▸ hclosure, hbody.extend hext⟩

/-- One more closure. -/
theorem addClosure (hknows : h.Knows env procedures) {d : Datum} {body : Value}
    (hbody : h.Denotes body d) (p : Parameters) (name : Option Symbol) :
    ({ h with closures := h.closures.push ⟨p, body, .global, name⟩ } : Heap).Knows env
      (procedures ++ [(p, d)]) where
  scopes := hknows.scopes
  count := by simp [hknows.count]
  closures i p' d' hi := by
    have hpairs : h.Extends { h with closures := h.closures.push ⟨p, body, .global, name⟩ } :=
      ⟨fun _ _ => id, fun _ _ => id, fun _ _ => id⟩
    rw [List.getElem?_append] at hi
    split at hi
    · obtain ⟨body', name', hclosure, hbody'⟩ := hknows.closures i p' d' hi
      exact ⟨body', name', getElem?_push_of_some _ hclosure, hbody'.extend hpairs⟩
    · have hlast : i = h.closures.size := by
        have hlt := (List.getElem?_eq_some_iff.1 hi).1
        rw [List.length_singleton] at hlt
        have hcount := hknows.count
        omega
      subst hlast
      rw [hknows.count, Nat.sub_self] at hi
      cases hi
      exact ⟨body, name, Array.getElem?_push_size, hbody.extend hpairs⟩

end Heap.Knows

theorem Heap.Knows.build {h : Heap} {env : Environment} {procedures : List (Parameters × Datum)}
    (hknows : h.Knows env procedures) (d : Datum) : (h.build d).2.Knows env procedures :=
  hknows.extend (h.extends_build d) (h.scopes_build d).1 (h.scopes_build d).2

theorem Step.steps_alias {w : World} {r : Reader} {name other : Symbol}
    (hread : r.read.1 = .datum (.defining name (.symbol other)))
    (hdepth : w.depth + 1 < w.maxDepth) {owner : Ref .scope} {v : Value}
    (hv : (w.heap.build (.defining name (.symbol other))).2.locate? other .global =
      some (owner, v)) (last : Value) :
    (go (.advance (.text r) last) [] w).steps 9 =
      go (.advance (.text r.read.2.drain.2) (.symbol name)) []
        { w.noteAll r.read.2.cursor.entries with
          heap := (w.heap.build (.defining name (.symbol other))).2.define .global name v } := by
  obtain ⟨-, -, -, -, -, -, hother⟩ :=
    (w.heap.denotes_build (.defining name (.symbol other))).defining
  refine steps_definition hread hdepth rfl (fun stack d log => ?_) last
  rw [show _ = Value.symbol other from hother]
  simp only [reduce, answer, after, World.lookup, hv]

theorem Step.steps_transformer {w : World} {r : Reader} {name : Symbol} {parameters forms : Datum}
    {p : Parameters}
    (hread : r.read.1 = .datum (.defining name (.pair (.name "macro") (.pair parameters forms))))
    (hdepth : w.depth + 1 < w.maxDepth) (hp : parameters.parameters? = some p) (last : Value) :
    ∃ built body,
      built = (w.heap.build (.defining name (.pair (.name "macro") (.pair parameters forms)))).2 ∧
      built.Denotes body forms ∧
      (go (.advance (.text r) last) [] w).steps 9 =
        go (.advance (.text r.read.2.drain.2) (.symbol name)) []
          { w.noteAll r.read.2.cursor.entries with
            heap := (built.close p body .global).2.define .global name
              (.transformer (built.close p body .global).1) } := by
  have hsize := w.heap.pairCount_le_size
    (.defining name (.pair (.name "macro") (.pair parameters forms)))
  obtain ⟨-, -, -, -, -, -, hmacro⟩ :=
    (w.heap.denotes_build (.defining name (.pair (.name "macro") (.pair parameters forms)))).defining
  generalize hbuilt :
    (w.heap.build (.defining name (.pair (.name "macro") (.pair parameters forms)))).2 = built
    at hsize hmacro
  obtain ⟨x, ⟨_, _⟩, hx, hx', hmark, x₁, ⟨list, body⟩, rfl, hx₁, hlist, hbody⟩ := hmacro
  obtain rfl : _ = Value.symbol ⟨"macro"⟩ := hmark
  refine ⟨built, body, rfl, hbody, steps_definition hread hdepth hbuilt (fun stack d log => ?_) last⟩
  rw [hx]
  have hparameters : World.parameters list { w with heap := built, depth := d, log } = .value p _ :=
    World.parametersFrom_of_denotes (w := { w with heap := built, depth := d, log }) hlist hp (by
      simp only [Datum.defining, Datum.form, Datum.list, Datum.listStar, List.foldr, Datum.pairCount]
        at hsize
      exact Nat.le_trans (by omega) hsize) []
  simp only [reduce, Heap.pair_eq_of_getElem? hx']
  change special .transformer (.pair x₁) .global stack _ = _
  simp only [special, Heap.first, Heap.rest, Heap.pair_eq_of_getElem? hx₁, after, abstraction, bind,
    Action.bind, hparameters, World.alter]

/-- A definition is made in nine steps, and what is known of the heap is known after it. -/
theorem Step.steps_define? {w : World} {r : Reader} {d : Datum}
    {known known' : Environment × List (Parameters × Datum)} (hread : r.read.1 = .datum d)
    (hdepth : w.depth + 1 < w.maxDepth) (hknows : w.heap.Knows known.1 known.2)
    (hd : d.define? known = some known') (last : Value) :
    ∃ v w', (go (.advance (.text r) last) [] w).steps 9 =
        go (.advance (.text r.read.2.drain.2) v) [] w' ∧
      w'.heap.Knows known'.1 known'.2 ∧ w'.depth = w.depth ∧ w'.maxDepth = w.maxDepth := by
  obtain ⟨env, procedures⟩ := known
  unfold Datum.define? at hd
  split at hd
  · rename_i head name other
    split at hd
    · obtain ⟨head⟩ := head
      obtain rfl : head = "define" := by assumption
      split at hd
      · rename_i p hp
        cases hd
        have hbuilt := hknows.build (.defining name (.symbol other))
        exact ⟨_, _, steps_alias hread hdepth (hbuilt.locate?_eq hp) last,
          hbuilt.bind name (.primitive p), rfl, rfl⟩
      · cases hd
    · cases hd
  · rename_i head name inner parameters forms
    split at hd
    · rename_i hnames
      obtain ⟨head⟩ := head
      obtain ⟨inner⟩ := inner
      obtain ⟨rfl, rfl⟩ : head = "define" ∧ inner = "macro" := hnames
      obtain ⟨p, hp, rfl⟩ := Option.map_eq_some_iff.1 hd
      obtain ⟨built, body, rfl, hbody, hsteps⟩ := steps_transformer hread hdepth hp last
      refine ⟨_, _, hsteps, ?_, rfl, rfl⟩
      have hbuilt := hknows.build (.defining name (.pair (.name "macro") (.pair parameters forms)))
      obtain ⟨h', body', hclose, hext, hscopes, hclosures, hbody'⟩ := Heap.exists_close hbody p
      have hknows' := hbuilt.extend hext hscopes hclosures
      have hdefined := (hknows'.addClosure hbody' p (some name)).bind name
        (.transformer ⟨h'.closures.size⟩)
      rw [hclose]
      change ((h'.addClosure ⟨p, body', .global, none⟩).2.nameClosure ⟨h'.closures.size⟩ name |>.bind
        .global name (.transformer ⟨h'.closures.size⟩)).Knows _ _
      rw [Heap.nameClosure_last rfl rfl, ← hknows'.count]
      exact hdefined
    · cases hd
  · cases hd

/-! ## Programs -/

/-- A program of definitions comes to its end. -/
theorem Step.steps_definitions {data : List Datum} {w : World} {r r₁ : Reader}
    {known known' : Environment × List (Parameters × Datum)}
    (hread : r.readAll = (data, .endOfInput, r₁)) (hdepth : w.depth + 1 < w.maxDepth)
    (hknows : w.heap.Knows known.1 known.2) (hdata : data.foldlM Datum.define? known = some known')
    (last : Value) :
    ∃ v w', (go (.advance (.text r) last) [] w).steps (9 * data.length + 2) = .done (.value v) w' ∧
      w'.heap.Knows known'.1 known'.2 := by
  induction data generalizing w r r₁ known last with
  | nil =>
      cases hdata
      rcases Reader.read_of_readAll hread with ⟨-, hend, -⟩ | ⟨d, others, r₂, hcons, -⟩
      · refine ⟨last, w.noteAll r.read.2.cursor.entries, ?_, hknows⟩
        rw [go, steps_next, State.step_advance, hend]
        rfl
      · cases hcons
  | cons d data ih =>
      rcases Reader.read_of_readAll hread with ⟨hnil, -⟩ | ⟨d', others, r₂, hcons, hdatum, hothers⟩
      · cases hnil
      · cases hcons
        rw [List.foldlM_cons] at hdata
        obtain ⟨known₁, hd, hdata⟩ := Option.bind_eq_some_iff.1 hdata
        obtain ⟨v, w₁, hsteps, hknows₁, hdepth₁, hlimit₁⟩ :=
          steps_define? (congrArg Prod.fst hdatum) hdepth hknows hd last
        have hdrained : ∃ r₃, r.read.2.drain.2.readAll = (data, .endOfInput, r₃) := by
          rw [Reader.readAll_eq_drain, Prod.mk.injEq, Prod.mk.injEq] at hothers
          rw [hdatum]
          exact ⟨_, Prod.ext hothers.1 (Prod.ext hothers.2.1 rfl)⟩
        obtain ⟨r₃, hdrained⟩ := hdrained
        obtain ⟨v', w', hsteps', hknows'⟩ :=
          ih hdrained (by rw [hdepth₁, hlimit₁]; exact hdepth) hknows₁ hdata v
        refine ⟨v', w', ?_, hknows'⟩
        rw [show 9 * (d :: data).length + 2 = 9 + (9 * data.length + 2) by
          rw [List.length_cons]; omega, steps_add, hsteps, hsteps']

end Scheme
