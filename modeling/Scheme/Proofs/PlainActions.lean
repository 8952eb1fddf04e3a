import Scheme.Machine.Run
/-!
# Plain actions

An action is plain when the level of evaluation is nothing to it: it does the same on any level
and under any limit, whatever was logged before, it leaves the continuations alone, and it sends
nothing to one of them. All actions of the machine and all direct operations are plain, except the
throw to a continuation.
-/

namespace Scheme

/-! ## Levels -/

/-- The same world on another level of evaluation, under another limit. -/
def World.onLevel (depth limit : Nat) (w : World) : World :=
  { w with depth := depth, maxDepth := limit }

namespace World

variable (d m : Nat) (w : World)

@[simp] theorem heap_onLevel : (w.onLevel d m).heap = w.heap := rfl
@[simp] theorem inputs_onLevel : (w.onLevel d m).inputs = w.inputs := rfl
@[simp] theorem outputs_onLevel : (w.onLevel d m).outputs = w.outputs := rfl
@[simp] theorem followers_onLevel : (w.onLevel d m).followers = w.followers := rfl
@[simp] theorem host_onLevel : (w.onLevel d m).host = w.host := rfl
@[simp] theorem tracing_onLevel : (w.onLevel d m).tracing = w.tracing := rfl
@[simp] theorem lastToken_onLevel : (w.onLevel d m).lastToken = w.lastToken := rfl
@[simp] theorem depth_onLevel : (w.onLevel d m).depth = d := rfl
@[simp] theorem maxDepth_onLevel : (w.onLevel d m).maxDepth = m := rfl
@[simp] theorem onLevel_self : w.onLevel w.depth w.maxDepth = w := rfl

@[simp] theorem onLevel_onLevel (d' m' : Nat) : (w.onLevel d m).onLevel d' m' = w.onLevel d' m' :=
  rfl

theorem note_onLevel (entry : Entry) : (w.onLevel d m).note entry = (w.note entry).onLevel d m :=
  rfl

/-- The same world on another level, under another limit, after other entries in the log. -/
def elsewhere (depth limit : Nat) (earlier : Array Entry) (w : World) : World :=
  { w with depth, maxDepth := limit, log := earlier ++ w.log }

variable (l : Array Entry)

@[simp] theorem heap_elsewhere : (w.elsewhere d m l).heap = w.heap := rfl
@[simp] theorem outputs_elsewhere : (w.elsewhere d m l).outputs = w.outputs := rfl
@[simp] theorem followers_elsewhere : (w.elsewhere d m l).followers = w.followers := rfl
@[simp] theorem host_elsewhere : (w.elsewhere d m l).host = w.host := rfl
@[simp] theorem tracing_elsewhere : (w.elsewhere d m l).tracing = w.tracing := rfl

theorem elsewhere_empty : w.elsewhere d m #[] = w.onLevel d m := by
  rw [elsewhere, Array.empty_append]
  rfl

@[simp] theorem elsewhere_self : w.elsewhere w.depth w.maxDepth #[] = w := by
  rw [elsewhere_empty, onLevel_self]

theorem note_elsewhere (entry : Entry) :
    (w.elsewhere d m l).note entry = (w.note entry).elsewhere d m l := by
  simp only [note, elsewhere, Array.push_append]

theorem noteAll_elsewhere (entries : List Entry) :
    (w.elsewhere d m l).noteAll entries = (w.noteAll entries).elsewhere d m l := by
  simp [noteAll, elsewhere]

/-- The continuations, and the tokens given out, are the same in both worlds. -/
structure SameTokens (w w' : World) : Prop where
  continuations : w'.heap.continuations = w.heap.continuations
  lastToken : w'.lastToken = w.lastToken

theorem SameTokens.refl (w : World) : SameTokens w w :=
  ⟨rfl, rfl⟩

theorem SameTokens.trans {w₁ w₂ w₃ : World} (h : SameTokens w₁ w₂) (h' : SameTokens w₂ w₃) :
    SameTokens w₁ w₃ :=
  ⟨h'.continuations.trans h.continuations, h'.lastToken.trans h.lastToken⟩

end World

def Fault.isEscape : Fault → Bool
  | .escape _ => true
  | _ => false

namespace Result

variable {α : Type}

def onLevel (depth limit : Nat) : Result α → Result α
  | .value a w => .value a (w.onLevel depth limit)
  | .fault f w => .fault f (w.onLevel depth limit)
  | .trap t w => .trap t (w.onLevel depth limit)

def elsewhere (depth limit : Nat) (earlier : Array Entry) : Result α → Result α
  | .value a w => .value a (w.elsewhere depth limit earlier)
  | .fault f w => .fault f (w.elsewhere depth limit earlier)
  | .trap t w => .trap t (w.elsewhere depth limit earlier)

theorem elsewhere_empty (depth limit : Nat) (r : Result α) :
    r.elsewhere depth limit #[] = r.onLevel depth limit := by
  cases r <;> simp only [elsewhere, onLevel, World.elsewhere_empty]

/-- The continuations are as they were in the world, and none of them was thrown to. -/
def Keeps (w : World) : Result α → Prop
  | .value _ w' | .trap _ w' => w.SameTokens w'
  | .fault f w' => f.isEscape = false ∧ w.SameTokens w'

theorem Keeps.trans {w w' : World} (h : w.SameTokens w') {r : Result α} (hr : r.Keeps w') :
    r.Keeps w := by
  cases r with
  | value a w'' => exact h.trans hr
  | fault f w'' => exact ⟨hr.1, h.trans hr.2⟩
  | trap t w'' => exact h.trans hr

end Result

/-- The level and the log are nothing to the action, and it leaves the continuations alone. -/
structure Action.Plain {α : Type} (a : Action α) : Prop where
  elsewhere : ∀ w d m l, a (w.elsewhere d m l) = (a w).elsewhere d m l
  keeps : ∀ w, (a w).Keeps w

theorem Action.Plain.onLevel {α : Type} {a : Action α} (h : a.Plain) (w : World) (d m : Nat) :
    a (w.onLevel d m) = (a w).onLevel d m := by
  rw [← World.elsewhere_empty, h.elsewhere, Result.elsewhere_empty]

namespace Action

variable {α β : Type}

theorem Plain.pure (a : α) : Plain (Pure.pure a : Action α) :=
  ⟨fun _ _ _ _ => rfl, fun w => .refl w⟩

theorem Plain.bind {x : Action α} {f : α → Action β} (hx : Plain x) (hf : ∀ a, Plain (f a)) :
    Plain (x >>= f) := by
  constructor
  · intro w d m l
    change Action.bind x f (w.elsewhere d m l) = (Action.bind x f w).elsewhere d m l
    rw [Action.bind, Action.bind, hx.elsewhere w d m l]
    cases x w with
    | value a w' => exact (hf a).elsewhere w' d m l
    | fault e w' => rfl
    | trap t w' => rfl
  · intro w
    change (Action.bind x f w).Keeps w
    have hkeeps := hx.keeps w
    rw [Action.bind]
    cases hresult : x w with
    | value a w' =>
        rw [hresult] at hkeeps
        exact ((hf a).keeps w').trans hkeeps
    | fault e w' => rwa [hresult] at hkeeps
    | trap t w' => rwa [hresult] at hkeeps

theorem Plain.ite {c : Prop} [Decidable c] {x y : Action α} (hx : Plain x) (hy : Plain y) :
    Plain (if c then x else y) := by
  split
  · exact hx
  · exact hy

theorem Plain.look (f : Heap → α) : Plain (World.look f) :=
  ⟨fun _ _ _ _ => rfl, fun w => .refl w⟩

theorem Plain.alter {f : Heap → α × Heap}
    (hf : ∀ h, (f h).2.continuations = h.continuations) : Plain (World.alter f) :=
  ⟨fun _ _ _ _ => rfl, fun w => ⟨hf w.heap, rfl⟩⟩

theorem Plain.addString (chars : Heap → Array Char) :
    Plain (World.alter fun h => h.addString (chars h)) :=
  Plain.alter fun _ => rfl

theorem Plain.addVector (elements : Heap → Array Value) :
    Plain (World.alter fun h => h.addVector (elements h)) :=
  Plain.alter fun _ => rfl

theorem Plain.fail (cause : Failure) : Plain (World.fail cause : Action α) where
  elsewhere w d m l := congrArg (Result.fault _) (w.note_elsewhere d m l _)
  keeps _ := ⟨rfl, rfl, rfl⟩

theorem Plain.failWith (cause : Heap → Failure) : Plain (World.failWith cause : Action α) where
  elsewhere w d m l := (Plain.fail (cause w.heap)).elsewhere w d m l
  keeps _ := ⟨rfl, rfl, rfl⟩

theorem Plain.stop (t : Trap) : Plain (World.stop t : Action α) :=
  ⟨fun _ _ _ _ => rfl, fun w => .refl w⟩

theorem Plain.both {x : Action α} {y : Action β} (hx : Plain x) (hy : Plain y) :
    Plain (World.both x y) := by
  constructor
  · intro w d m l
    unfold World.both
    rw [hx.elsewhere w d m l]
    cases x w with
    | value a w' =>
        simp only [Result.elsewhere]
        rw [hy.elsewhere w' d m l]
        cases y w' <;> rfl
    | fault e w' =>
        simp only [Result.elsewhere]
        rw [hy.elsewhere w' d m l]
        cases y w' <;> rfl
    | trap t w' => rfl
  · intro w
    have hkeeps := hx.keeps w
    unfold World.both
    cases hresult : x w with
    | value a w' =>
        rw [hresult] at hkeeps
        have hkeeps' := (hy.keeps w').trans hkeeps
        simp only
        cases hresult' : y w' <;> rwa [hresult'] at hkeeps'
    | fault e w' =>
        rw [hresult] at hkeeps
        have hkeeps' := (hy.keeps w').trans hkeeps.2
        simp only
        cases hresult' : y w' with
        | value b w'' =>
            rw [hresult'] at hkeeps'
            exact ⟨hkeeps.1, hkeeps'⟩
        | fault e' w'' =>
            rw [hresult'] at hkeeps'
            exact ⟨hkeeps.1, hkeeps'.2⟩
        | trap t w'' => rwa [hresult'] at hkeeps'
    | trap t w' => rwa [hresult] at hkeeps

private theorem map_id {α : Type} (x : Action α) : id <$> x = x := by
  funext w
  change Action.bind x Action.pure w = x w
  unfold Action.bind
  cases x w <;> rfl

private theorem bind_assoc {α β γ : Type} (x : Action α) (f : α → Action β) (g : β → Action γ) :
    x >>= f >>= g = x >>= fun a => f a >>= g := by
  funext w
  change Action.bind (Action.bind x f) g w = Action.bind x (fun a => Action.bind (f a) g) w
  unfold Action.bind
  cases x w <;> rfl

instance : LawfulMonad Action :=
  LawfulMonad.mk' Action map_id (fun _ _ => rfl) bind_assoc

theorem Plain.mapM {f : α → Action β} (hf : ∀ a, Plain (f a)) (items : List α) :
    Plain (items.mapM f) := by
  induction items with
  | nil => exact Plain.pure []
  | cons a items ih =>
      rw [List.mapM_cons]
      exact (hf a).bind fun _ => ih.bind fun _ => Plain.pure _

end Action

/-! ## Cells of other kinds -/

namespace Heap

variable (h : Heap)

@[simp] theorem continuations_cons (first rest : Value) :
    (h.cons first rest).2.continuations = h.continuations :=
  rfl

@[simp] theorem continuations_consReversed (tail : Value) (items : List Value) :
    (h.consReversed tail items).2.continuations = h.continuations := by
  induction items generalizing h tail with
  | nil => rfl
  | cons item items ih => exact ih (h.cons item tail).2 (h.cons item tail).1

@[simp] theorem continuations_listStar (items : List Value) (tail : Value) :
    (h.listStar items tail).2.continuations = h.continuations :=
  h.continuations_consReversed tail items.reverse

@[simp] theorem continuations_list (items : List Value) :
    (h.list items).2.continuations = h.continuations :=
  h.continuations_listStar items .nil

@[simp] theorem continuations_define (ref : Ref .scope) (name : Symbol) (v : Value) :
    (h.define ref name v).continuations = h.continuations := by
  cases v <;> rfl

@[simp] theorem continuations_extend (p : Parameters) (arguments : List Value)
    (parent : Ref .scope) : (h.extend p arguments parent).2.continuations = h.continuations := by
  unfold extend
  simp only
  split
  · rfl
  · exact h.continuations_list _

@[simp] theorem continuations_close (p : Parameters) (body : Value) (scope : Ref .scope) :
    (h.close p body scope).2.continuations = h.continuations := by
  cases body with
  | pair ref =>
      simp only [close]
      split <;> rfl
  | _ => rfl

mutual

theorem continuations_build (h : Heap) (d : Datum) :
    (h.build d).2.continuations = h.continuations := by
  cases d with
  | vector elements => exact continuations_buildAll h elements
  | pair first rest =>
      exact (continuations_build (h.build first).2 rest).trans (continuations_build h first)
  | _ => rfl
termination_by structural d

theorem continuations_buildAll (h : Heap) (ds : List Datum) :
    (h.buildAll ds).2.continuations = h.continuations := by
  cases ds with
  | nil => rfl
  | cons d ds =>
      exact (continuations_buildAll (h.build d).2 ds).trans (continuations_build h d)
termination_by structural ds

end

end Heap

namespace World

open Scheme.Action

theorem plain_expect {α : Type} (expected : Expected) (v : Value) (a : Option α) :
    Plain (expect expected v a) := by
  cases a with
  | some a => exact Plain.pure a
  | none =>
      rw [expect]
      exact Plain.failWith _

theorem plain_flonum (v : Value) : Plain (flonum v) :=
  plain_expect ..

theorem plain_number (v : Value) : Plain (number v) :=
  (plain_flonum v).bind fun _ => Plain.pure _

theorem plain_character (v : Value) : Plain (character v) :=
  plain_expect ..

theorem plain_symbol (v : Value) : Plain (symbol v) :=
  plain_expect ..

theorem plain_string (v : Value) : Plain (string v) :=
  plain_expect ..

theorem plain_vector (v : Value) : Plain (vector v) :=
  plain_expect ..

theorem plain_pair (v : Value) : Plain (pair v) :=
  plain_expect ..

theorem plain_inputPort (v : Value) : Plain (inputPort v) :=
  plain_expect ..

theorem plain_outputPort (v : Value) : Plain (outputPort v) :=
  plain_expect ..

theorem plain_index (v : Value) : Plain (index v) :=
  (plain_number v).bind fun _ => plain_expect ..

theorem plain_textOf (v : Value) : Plain (textOf v) :=
  (plain_string v).bind fun _ => Plain.look _

/-! ## Scopes and lists -/

theorem plain_lookup (name : Symbol) (ref : Ref .scope) : Plain (lookup name ref) := by
  constructor
  · intro w d m l
    simp only [lookup, heap_elsewhere]
    cases w.heap.locate? name ref with
    | some found => rfl
    | none => exact (Plain.fail _).elsewhere w d m l
  · intro w
    simp only [lookup]
    cases w.heap.locate? name ref with
    | some found => exact .refl w
    | none => exact (Plain.fail _).keeps w

theorem plain_assign (name : Symbol) (v : Value) (ref : Ref .scope) :
    Plain (assign name v ref) := by
  constructor
  · intro w d m l
    simp only [assign, heap_elsewhere]
    cases w.heap.locate? name ref with
    | some found => rfl
    | none => exact (Plain.fail _).elsewhere w d m l
  · intro w
    simp only [assign]
    cases w.heap.locate? name ref with
    | some found => exact ⟨rfl, rfl⟩
    | none => exact (Plain.fail _).keeps w

theorem plain_parametersFrom (whole : Value) (budget : Nat) (names : List Symbol) (v : Value) :
    Plain (parametersFrom whole budget names v) := by
  induction budget generalizing names v with
  | zero =>
      cases v with
      | nil => exact Plain.pure _
      | symbol rest => exact Plain.pure _
      | pair ref => exact Plain.stop _
      | _ => exact Plain.failWith _
  | succ budget ih =>
      cases v with
      | nil => exact Plain.pure _
      | symbol rest => exact Plain.pure _
      | pair ref => exact (Plain.look _).bind fun _ => (plain_symbol _).bind fun _ => ih _ _
      | _ => exact Plain.failWith _

theorem plain_parameters (v : Value) : Plain (parameters v) :=
  ⟨fun w => (plain_parametersFrom v w.heap.pairs.size [] v).elsewhere w,
    fun w => (plain_parametersFrom v w.heap.pairs.size [] v).keeps w⟩

theorem plain_spine (v : Value) : Plain (spine v) := by
  constructor
  · intro w d m l
    simp only [spine, heap_elsewhere]
    cases w.heap.spine? v <;> rfl
  · intro w
    simp only [spine]
    cases w.heap.spine? v <;> exact .refl w

theorem plain_elements (v : Value) : Plain (elements v) :=
  (plain_spine v).bind fun _ => Plain.ite (Plain.pure _) (Plain.failWith _)

/-! ## Ports -/

theorem plain_withReader {α : Type} (ref : Ref .inputPort) (use : Reader → α × Reader) :
    Plain (withReader ref use) := by
  constructor
  · intro w d m l
    have hreader : (w.elsewhere d m l).reader ref = w.reader ref := rfl
    rw [withReader, withReader, hreader]
    by_cases hclosed : (w.reader ref).isClosed = true
    · rw [if_pos hclosed, if_pos hclosed]
      exact (Plain.fail _).elsewhere w d m l
    · rw [if_neg hclosed, if_neg hclosed]
      simp only [noteAll_elsewhere]
      rfl
  · intro w
    rw [withReader]
    split
    · exact (Plain.fail _).keeps w
    · exact ⟨rfl, rfl⟩

theorem plain_receive (reading : Reading) : Plain (receive reading) := by
  cases reading with
  | datum d => exact ⟨fun _ _ _ _ => rfl, fun w => ⟨w.heap.continuations_build d, rfl⟩⟩
  | endOfInput => exact ⟨fun _ _ _ _ => rfl, fun w => .refl w⟩
  | failed cause => exact ⟨fun _ _ _ _ => rfl, fun w => ⟨rfl, .refl w⟩⟩
  | cutShort => exact ⟨fun _ _ _ _ => rfl, fun w => ⟨rfl, .refl w⟩⟩

theorem plain_readDatum (ref : Ref .inputPort) : Plain (readDatum ref) :=
  (plain_withReader ref _).bind plain_receive

theorem plain_readChar (ref : Ref .inputPort) : Plain (readChar ref) :=
  (plain_withReader ref _).bind fun _ => Plain.pure _

theorem plain_peekChar (ref : Ref .inputPort) : Plain (peekChar ref) :=
  (plain_withReader ref _).bind fun _ => Plain.pure _

/-- A change to a world that has nothing to do with levels and continuations. -/
structure PlainChange (change : World → World) : Prop where
  elsewhere : ∀ w d m l, change (w.elsewhere d m l) = (change w).elsewhere d m l
  sameTokens : ∀ w : World, w.SameTokens (change w)

theorem PlainChange.onLevel {change : World → World} (h : PlainChange change) (w : World)
    (d m : Nat) : change (w.onLevel d m) = (change w).onLevel d m := by
  rw [← elsewhere_empty, h.elsewhere, elsewhere_empty]

theorem PlainChange.comp {f g : World → World} (hf : PlainChange f) (hg : PlainChange g) :
    PlainChange (fun w => f (g w)) where
  elsewhere w d m l := by rw [hg.elsewhere, hf.elsewhere]
  sameTokens w := (hg.sameTokens w).trans (hf.sameTokens (g w))

theorem plainChange_note (entry : Entry) : PlainChange (·.note entry) :=
  ⟨fun w d m l => w.note_elsewhere d m l entry, fun _ => ⟨rfl, rfl⟩⟩

theorem plainChange_noteAll (entries : List Entry) : PlainChange (·.noteAll entries) :=
  ⟨fun w d m l => w.noteAll_elsewhere d m l entries, fun _ => ⟨rfl, rfl⟩⟩

theorem plainChange_closeInput (ref : Ref .inputPort) : PlainChange (closeInput ref) :=
  ⟨fun _ _ _ _ => rfl, fun _ => ⟨rfl, rfl⟩⟩

theorem plainChange_closeOutput (ref : Ref .outputPort) : PlainChange (closeOutput ref) := by
  constructor
  · intro w d m l
    simp only [closeOutput, sink, outputs_elsewhere, host_elsewhere]
    split
    · rfl
    · split
      · rfl
      · exact note_elsewhere d m { w with outputs := w.outputs.setIfInBounds ref.index none } l _
  · intro w
    simp only [closeOutput]
    split
    · exact .refl w
    · split <;> exact ⟨rfl, rfl⟩

/-- What following a file does to the ports says nothing about levels and continuations. -/
private theorem foldr_follow (place : String) (d m : Nat) (l : Array Entry)
    (followers : List Follower) (w : World) :
    let step (f : Follower) (done : List Follower × World) : List Follower × World :=
      if f.place = place then
        let (f, w) := done.2.follow f
        (f :: done.1, w)
      else (f :: done.1, done.2)
    (followers.foldr step ([], w.elsewhere d m l) =
        ((followers.foldr step ([], w)).1, (followers.foldr step ([], w)).2.elsewhere d m l)) ∧
      w.SameTokens (followers.foldr step ([], w)).2 := by
  intro step
  induction followers with
  | nil => exact ⟨rfl, .refl w⟩
  | cons f followers ih =>
      obtain ⟨hlevel, htokens⟩ := ih
      rw [List.foldr_cons, List.foldr_cons, hlevel]
      by_cases hplace : f.place = place
      · simp only [step, if_pos hplace]
        exact ⟨rfl, htokens.trans ⟨rfl, rfl⟩⟩
      · simp only [step, if_neg hplace]
        exact ⟨trivial, htokens⟩

theorem plainChange_fileChanged (place : String) : PlainChange (fileChanged place) := by
  constructor
  · intro w d m l
    simp only [fileChanged, followers_elsewhere]
    split
    · rw [(foldr_follow place d m l w.followers w).1]
      rfl
    · rfl
  · intro w
    simp only [fileChanged]
    split
    · have htokens := (foldr_follow place 0 0 #[] w.followers w).2
      exact ⟨htokens.continuations, htokens.lastToken⟩
    · exact .refl w

theorem plainChange_sinkChanged (sink : Sink) : PlainChange (sinkChanged sink) := by
  cases sink with
  | file place position => exact plainChange_fileChanged place
  | _ => exact ⟨fun _ _ _ _ => rfl, fun w => .refl w⟩

/-- The world after a text has gone to the sink of a port. -/
def sent (ref : Ref .outputPort) (sink : Sink) (text : String) (w : World) : World :=
  let written := w.host.write sink text
  sinkChanged written.2.1
    { w with
      outputs := w.outputs.setIfInBounds ref.index (some written.2.1)
      host := written.2.2 }

theorem plainChange_sent (ref : Ref .outputPort) (sink : Sink) (text : String) :
    PlainChange (sent ref sink text) where
  elsewhere w d m l := by
    exact (plainChange_sinkChanged (w.host.write sink text).2.1).elsewhere
      { w with
        outputs := w.outputs.setIfInBounds ref.index (some (w.host.write sink text).2.1)
        host := (w.host.write sink text).2.2 } d m l
  sameTokens w := by
    have htokens := (plainChange_sinkChanged (w.host.write sink text).2.1).sameTokens
      { w with
        outputs := w.outputs.setIfInBounds ref.index (some (w.host.write sink text).2.1)
        host := (w.host.write sink text).2.2 }
    exact ⟨htokens.continuations, htokens.lastToken⟩

theorem writeText_eq (ref : Ref .outputPort) (text : String) (w : World) :
    writeText ref text w =
      match w.sink ref with
      | none => fail .outputClosed w
      | some sink =>
        match (w.host.write sink text).1 with
        | none => .value () (w.sent ref sink text)
        | some reason => fail (.writeFailed reason) (w.sent ref sink text) := by
  unfold writeText
  cases w.sink ref <;> rfl

theorem plain_writeText (ref : Ref .outputPort) (text : String) : Plain (writeText ref text) := by
  constructor
  · intro w d m l
    have hsink : (w.elsewhere d m l).sink ref = w.sink ref := rfl
    rw [writeText_eq, writeText_eq, hsink, host_elsewhere]
    cases w.sink ref with
    | none => exact (Plain.fail _).elsewhere w d m l
    | some sink =>
        simp only [(plainChange_sent ref sink text).elsewhere w d m l]
        cases (w.host.write sink text).1 with
        | none => rfl
        | some reason => exact (Plain.fail _).elsewhere _ d m l
  · intro w
    rw [writeText_eq]
    cases w.sink ref with
    | none => exact (Plain.fail _).keeps w
    | some sink =>
        have htokens := (plainChange_sent ref sink text).sameTokens w
        simp only
        cases (w.host.write sink text).1 with
        | none => exact htokens
        | some reason => exact ((Plain.fail _).keeps _).trans htokens

theorem plainChange_want (path : String) :
    PlainChange (fun w => { w with host := w.host.want path }) :=
  ⟨fun _ _ _ _ => rfl, fun _ => ⟨rfl, rfl⟩⟩

theorem plainChange_addInput (place : String) (bytes : List UInt8) :
    PlainChange (fun w => (w.addInput place bytes).2) :=
  ⟨fun _ _ _ _ => rfl, fun _ => ⟨rfl, rfl⟩⟩

theorem plain_openInput (name : Value) : Plain (openInput name) := by
  refine (plain_textOf name).bind fun path => ?_
  constructor
  · intro w d m l
    simp only [host_elsewhere]
    cases (w.host.want path).openInput path with
    | error reason => exact (Plain.fail _).elsewhere { w with host := _ } d m l
    | ok file => rfl
  · intro w
    simp only
    cases (w.host.want path).openInput path with
    | error reason => exact ⟨rfl, rfl, rfl⟩
    | ok file => exact ⟨rfl, rfl⟩

theorem plain_openOutput (name : Value) : Plain (openOutput name) := by
  refine (plain_textOf name).bind fun path => ?_
  constructor
  · intro w d m l
    simp only [host_elsewhere]
    cases (w.host.want path).openOutput path with
    | error reason => exact (Plain.fail _).elsewhere { w with host := _ } d m l
    | ok opened =>
        have hlevel := (plainChange_sinkChanged opened.1).elsewhere
          { w with host := opened.2, outputs := w.outputs.push (some opened.1) } d m l
        exact congrArg (Result.value _) hlevel
  · intro w
    simp only
    cases (w.host.want path).openOutput path with
    | error reason => exact ⟨rfl, rfl, rfl⟩
    | ok opened =>
        have htokens := (plainChange_sinkChanged opened.1).sameTokens
          { w with host := opened.2, outputs := w.outputs.push (some opened.1) }
        exact ⟨htokens.continuations, htokens.lastToken⟩

end World

/-! ## Direct operations -/

open Scheme.Action

theorem ListOperation.plain_appendReversed (result : Value) (lists : List Value) :
    Plain (appendReversed result lists) := by
  induction lists generalizing result with
  | nil => exact Plain.pure result
  | cons v lists ih =>
      exact (World.plain_spine v).bind fun _ =>
        (Plain.alter fun h => h.continuations_listStar _ _).bind fun _ => ih _

theorem ListOperation.plain_search (test : Heap → Value → Bool) (v : Value) :
    Plain (search test v) := by
  constructor
  · intro w d m l
    simp only [search, World.heap_elsewhere]
    cases w.heap.findTail (test w.heap) w.heap.pairs.size v <;> rfl
  · intro w
    simp only [search]
    cases w.heap.findTail (test w.heap) w.heap.pairs.size v <;> exact .refl w

theorem ListOperation.plain_perform (operation : ListOperation) (arguments : List Value) :
    Plain (operation.perform arguments) := by
  cases operation with
  | path sides =>
      dsimp only [perform]
      exact Plain.look _
  | set side =>
      refine (World.plain_pair _).bind fun ref => Plain.alter fun h => ?_
      cases side <;> rfl
  | cons => exact Plain.alter fun h => h.continuations_cons _ _
  | list => exact Plain.alter fun h => h.continuations_list _
  | listStar =>
      simp only [perform]
      split
      · exact Plain.pure _
      · exact Plain.alter fun h => h.continuations_listStar _ _
  | isList =>
      dsimp only [perform]
      exact Plain.look _
  | length =>
      refine (Plain.look _).bind fun length => ?_
      cases length with
      | some n => exact Plain.pure _
      | none => exact Plain.fail _
  | append =>
      simp only [perform]
      split
      · exact Plain.pure _
      · exact plain_appendReversed _ _
  | reverse =>
      exact (World.plain_spine _).bind fun _ => Plain.alter fun h => h.continuations_list _
  | tail => exact (World.plain_index _).bind fun _ => Plain.look _
  | element => exact (World.plain_index _).bind fun _ => Plain.look _
  | member sameness =>
      dsimp only [perform]
      exact plain_search _ _
  | association sameness => exact (plain_search _ _).bind fun _ => Plain.look _

theorem NumberOperation.plain_numbers (arguments : List Value) : Plain (numbers arguments) :=
  Plain.mapM World.plain_flonum arguments

theorem NumberOperation.plain_division (x y : Value) : Plain (division x y) :=
  ((World.plain_flonum x).both (World.plain_flonum y)).bind fun _ =>
    Plain.ite (Plain.fail _) (Plain.pure _)

theorem NumberOperation.plain_remaining (rule : Int64 → Int64 → Int64) (x y : Value) :
    Plain (remaining rule x y) :=
  (plain_division x y).bind fun _ => Plain.ite (Plain.stop _) (Plain.pure _)

theorem NumberOperation.plain_radixOf (arguments : List Value) : Plain (radixOf arguments) := by
  match arguments with
  | [] | [_] => exact Plain.pure 10
  | _ :: radix :: _ => exact World.plain_index radix

theorem NumberOperation.plain_perform (operation : NumberOperation) (arguments : List Value) :
    Plain (operation.perform arguments) := by
  cases operation with
  | compare relation => exact (plain_numbers arguments).bind fun _ => Plain.pure _
  | add | multiply | subtract | divide | max | min | gcd =>
      exact (plain_numbers arguments).bind fun _ => Plain.pure _
  | abs | round mode | function f => exact (World.plain_flonum _).bind fun _ => Plain.pure _
  | isInexact | isZero | isPositive | isNegative | isOdd | isEven =>
      exact (World.plain_number _).bind fun _ => Plain.pure _
  | quotient => exact (plain_division _ _).bind fun _ => Plain.pure _
  | remainder | modulo => exact plain_remaining _ _ _
  | atan =>
      simp only [perform]
      split
      · exact (World.plain_flonum _).bind fun _ =>
          (World.plain_flonum _).bind fun _ => Plain.pure _
      · exact (World.plain_flonum _).bind fun _ => Plain.pure _
  | expt =>
      exact ((World.plain_flonum _).both (World.plain_flonum _)).bind fun _ => Plain.pure _
  | lcm =>
      refine (plain_numbers arguments).bind fun ns => ?_
      unfold lcmAll
      split
      · exact Plain.pure _
      · exact Plain.stop _
  | isExact => exact Plain.pure _
  | toText =>
      refine (plain_radixOf arguments).bind fun _ => (World.plain_number _).bind fun _ => ?_
      exact Plain.ite (Plain.addString _) (Plain.ite (Plain.addString _) (Plain.fail _))
  | ofText =>
      exact (plain_radixOf arguments).bind fun _ => (World.plain_textOf _).bind fun _ =>
        Plain.pure _

theorem CharacterOperation.plain_perform (operation : CharacterOperation)
    (arguments : List Value) : Plain (operation.perform arguments) := by
  cases operation with
  | compare relation foldCase =>
      exact ((World.plain_character _).both (World.plain_character _)).bind fun _ => Plain.pure _
  | ofCode =>
      refine (World.plain_index _).bind fun code => ?_
      split
      · exact Plain.pure _
      · exact Plain.failWith _
  | _ => exact (World.plain_character _).bind fun _ => Plain.pure _

namespace World

theorem plain_allocationLength (procedure : String) (v : Value) :
    Plain (allocationLength procedure v) :=
  (plain_index v).bind fun _ => Plain.ite (Plain.failWith _) (Plain.pure _)

theorem plain_position (v : Value) (length : Nat) : Plain (position v length) :=
  (plain_index v).bind fun _ => Plain.ite (Plain.pure _) (Plain.fail _)

theorem plain_positionIn (container v : Value) (length : Nat) :
    Plain (positionIn container v length) := by
  have hposition := plain_position v length
  by_cases hnumber : ∃ n, v = .number n
  · obtain ⟨n, rfl⟩ := hnumber
    exact hposition
  · have heq : positionIn container v length =
        look (·.reaches v container) >>= fun shown =>
          if shown then stop .selfShown else position v length := by
      funext w
      have hif : positionIn container v length w =
          if w.heap.reaches v container then .trap .selfShown w else position v length w := by
        cases v with
        | number n => exact absurd ⟨n, rfl⟩ hnumber
        | _ => rfl
      rw [hif]
      change _ = (if w.heap.reaches v container then stop .selfShown else position v length) w
      split <;> rfl
    rw [heq]
    exact (Plain.look _).bind fun _ => Plain.ite (Plain.stop _) hposition

end World

theorem StringOperation.plain_ofValues (values : List Value) : Plain (ofValues values) :=
  (Plain.mapM World.plain_character values).bind fun _ => Plain.addString _

theorem StringOperation.plain_perform (operation : StringOperation) (arguments : List Value) :
    Plain (operation.perform arguments) := by
  cases operation with
  | compare relation foldCase =>
      exact ((World.plain_string _).both (World.plain_string _)).bind fun _ => Plain.look _
  | make =>
      dsimp only [perform]
      split
      · exact (World.plain_character _).bind fun _ =>
          (World.plain_allocationLength _ _).bind fun _ => Plain.addString _
      · exact (Plain.pure _).bind fun _ =>
          (World.plain_allocationLength _ _).bind fun _ => Plain.addString _
  | ofCharacters => exact plain_ofValues arguments
  | length => exact (World.plain_string _).bind fun _ => Plain.look _
  | get =>
      exact (World.plain_string _).bind fun _ => (Plain.look _).bind fun _ =>
        (World.plain_position _ _).bind fun _ => Plain.pure _
  | set =>
      refine (World.plain_character _).bind fun _ => (World.plain_string _).bind fun _ =>
        (Plain.look _).bind fun _ => (World.plain_positionIn _ _ _).bind fun _ => ?_
      exact Plain.alter fun _ => rfl
  | substring =>
      exact (World.plain_string _).bind fun _ =>
        ((World.plain_index _).both (World.plain_index _)).bind fun _ =>
          (Plain.look _).bind fun _ => Plain.ite (Plain.addString _) (Plain.failWith _)
  | append =>
      dsimp only [perform]
      exact Plain.addString _
  | toList => exact (World.plain_string _).bind fun _ => Plain.alter fun h => h.continuations_list _
  | ofList => exact (World.plain_elements _).bind fun _ => plain_ofValues _
  | ofSymbol => exact (World.plain_symbol _).bind fun _ => Plain.addString _
  | toSymbol => exact (World.plain_textOf _).bind fun _ => Plain.pure _

theorem VectorOperation.plain_perform (operation : VectorOperation) (arguments : List Value) :
    Plain (operation.perform arguments) := by
  cases operation with
  | make =>
      exact (World.plain_allocationLength _ _).bind fun _ => Plain.addVector _
  | ofElements =>
      dsimp only [perform]
      exact Plain.addVector _
  | length => exact (World.plain_vector _).bind fun _ => Plain.look _
  | get =>
      exact (World.plain_vector _).bind fun _ => (Plain.look _).bind fun _ =>
        (World.plain_position _ _).bind fun _ => Plain.look _
  | set =>
      refine (World.plain_vector _).bind fun _ => (Plain.look _).bind fun _ =>
        (World.plain_positionIn _ _ _).bind fun _ => ?_
      exact Plain.alter fun _ => rfl
  | toList => exact (World.plain_vector _).bind fun _ => Plain.alter fun h => h.continuations_list _
  | ofList => exact (World.plain_elements _).bind fun _ => Plain.addVector _

theorem Action.Plain.change {α : Type} {change : World → World} (h : World.PlainChange change)
    (a : α) : Plain (fun w => .value a (change w) : Action α) where
  elsewhere w d m l := congrArg (Result.value a) (h.elsewhere w d m l)
  keeps w := h.sameTokens w

namespace PortOperation

theorem plain_inputOf (argument : Option Value) : Plain (inputOf argument) := by
  cases argument with
  | some v => exact World.plain_inputPort v
  | none => exact Plain.pure _

theorem plain_outputOf (argument : Option Value) : Plain (outputOf argument) := by
  cases argument with
  | some v => exact World.plain_outputPort v
  | none => exact Plain.pure _

theorem plain_emit (style : Style) (v : Value) (port : Option Value) :
    Plain (emit style v port) :=
  (plain_outputOf port).bind fun _ => (Plain.look _).bind fun _ =>
    (World.plain_writeText _ _).bind fun _ => Plain.pure v

theorem plain_perform (operation : PortOperation) (arguments : List Value) :
    Plain (operation.perform arguments) := by
  cases operation with
  | currentInput | currentOutput => exact Plain.pure _
  | openInput => exact (World.plain_openInput _).bind fun _ => Plain.pure _
  | openOutput => exact (World.plain_openOutput _).bind fun _ => Plain.pure _
  | closeInput =>
      exact (World.plain_inputPort _).bind fun ref =>
        Plain.change (World.plainChange_closeInput ref) _
  | closeOutput =>
      exact (World.plain_outputPort _).bind fun ref =>
        Plain.change (World.plainChange_closeOutput ref) _
  | read => exact (plain_inputOf _).bind fun _ => World.plain_readDatum _
  | readChar => exact (plain_inputOf _).bind fun _ => World.plain_readChar _
  | peekChar => exact (plain_inputOf _).bind fun _ => World.plain_peekChar _
  | write | display => exact plain_emit _ _ _
  | newline =>
      exact (plain_outputOf _).bind fun _ => (World.plain_writeText _ _).bind fun _ =>
        Plain.pure _

end PortOperation

namespace DirectOperation

theorem plain_leave (arguments : List Value) : Plain (leave arguments) := by
  have hexit : ∀ code : Int, Plain
      (fun w => .fault (.exit code) { w with host := w.host.exit code } : Action Value) :=
    fun _ => ⟨fun _ _ _ _ => rfl, fun _ => ⟨rfl, rfl, rfl⟩⟩
  cases arguments with
  | nil => exact (Plain.pure 0).bind hexit
  | cons x _ =>
      exact (World.plain_number x).bind fun _ => (Plain.pure _).bind hexit

/-- No direct operation looks at the level or touches a continuation. -/
theorem plain_perform (operation : DirectOperation) (arguments : List Value) :
    Plain (operation.perform arguments) := by
  cases operation with
  | not | test kind => exact Plain.pure _
  | same sameness =>
      dsimp only [perform]
      exact Plain.look _
  | error =>
      dsimp only [perform]
      exact Plain.failWith _
  | exit => exact plain_leave arguments
  | list operation => exact operation.plain_perform arguments
  | number operation => exact operation.plain_perform arguments
  | character operation => exact operation.plain_perform arguments
  | string operation => exact operation.plain_perform arguments
  | vector operation => exact operation.plain_perform arguments
  | port operation => exact operation.plain_perform arguments

end DirectOperation

end Scheme
