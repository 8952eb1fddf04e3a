import Scheme.Proofs.SelfCalls
/-!
# Secluded scopes

A scope is secluded if nothing that the machine works with leads there: no value is a procedure that
is closed over it, or over a scope inside of it. One procedure may be handed around all the same.
What it does is up to its code, which nobody else runs, and a procedure that the scope keeps to
itself is not seen at all. This is a policy for the machine: whatever it does meanwhile, the scope
and the scopes inside of it stay as they are.
-/

namespace Scheme

/-! ## Inside and outside -/

namespace Heap

/-- The scope is the outer one, or its parent is inside of that. -/
inductive Inside (h : Heap) (outer : Ref .scope) : Ref .scope → Prop where
  | here : Inside h outer outer
  | within {s parent : Ref .scope} {bindings : Std.TreeMap String Value}
      (hs : h.scopes[s.index]? = some ⟨bindings, some parent⟩) (hparent : Inside h outer parent) :
      Inside h outer s

/-- From the scope, no parents lead to the outer one. -/
inductive Outside (h : Heap) (outer : Ref .scope) : Ref .scope → Prop where
  | top {s : Ref .scope} {bindings : Std.TreeMap String Value}
      (hs : h.scopes[s.index]? = some ⟨bindings, none⟩) (hne : s ≠ outer) : Outside h outer s
  | within {s parent : Ref .scope} {bindings : Std.TreeMap String Value}
      (hs : h.scopes[s.index]? = some ⟨bindings, some parent⟩) (hne : s ≠ outer)
      (hparent : Outside h outer parent) : Outside h outer s

/-- Scopes keep their parents, and closures their code. -/
structure Follows (h h' : Heap) : Prop where
  parents : ∀ (i : Nat) t, h.scopes[i]? = some t →
    ∃ bindings, h'.scopes[i]? = some ⟨bindings, t.parent⟩
  code : h.KeepsCode h'

/-- Besides, the scopes inside of the outer one stay as they are. -/
structure Spares (outer : Ref .scope) (h h' : Heap) : Prop extends Follows h h' where
  inside : ∀ s t, h.Inside outer s → h.scopes[s.index]? = some t → h'.scopes[s.index]? = some t

variable {h h' h'' : Heap} {outer s parent : Ref .scope} {v : Value}

theorem Outside.ne (hs : h.Outside outer s) : s ≠ outer := by
  cases hs with
  | top _ hne | within _ hne => exact hne

theorem Outside.of_child {t : Scope} (hs : h.Outside outer s) (ht : h.scopes[s.index]? = some t)
    (hparent : t.parent = some parent) : h.Outside outer parent := by
  cases hs with
  | top hs =>
      cases Option.some.inj (hs.symm.trans ht)
      cases hparent
  | within hs _ houtside =>
      cases Option.some.inj (hs.symm.trans ht)
      cases hparent
      exact houtside

theorem Outside.not_inside (hs : h.Outside outer s) : ¬ h.Inside outer s := by
  intro hinside
  induction hinside with
  | here => exact hs.ne rfl
  | within ht _ ih => exact ih (hs.of_child ht rfl)

/-- In a closed heap, a scope that is older than the outer one is outside. -/
theorem Closed.outside (hc : h.Closed) (hs : s.index < h.scopes.size)
    (hlt : s.index < outer.index) : h.Outside outer s := by
  obtain ⟨i⟩ := s
  induction i using Nat.strongRecOn with
  | ind i ih =>
      have hne : (⟨i⟩ : Ref .scope) ≠ outer := by
        rintro rfl
        exact Nat.lt_irrefl _ hlt
      obtain ⟨t, ht⟩ : ∃ t, h.scopes[i]? = some t := ⟨_, Array.getElem?_eq_getElem hs⟩
      obtain ⟨bindings, _ | parent⟩ := t
      · exact .top ht hne
      · have holder : parent.index < i := hc.parents i _ ht parent rfl
        exact .within ht hne (ih parent.index holder (Nat.lt_trans holder hs)
          (Nat.lt_trans holder hlt))

theorem Follows.refl (h : Heap) : h.Follows h :=
  ⟨fun _ t ht => ⟨t.bindings, ht⟩, .of_eq rfl⟩

theorem Follows.trans (h₁ : h.Follows h') (h₂ : h'.Follows h'') : h.Follows h'' := by
  refine ⟨fun i t ht => ?_, h₁.code.trans h₂.code⟩
  obtain ⟨bindings, ht'⟩ := h₁.parents i t ht
  obtain ⟨bindings', ht''⟩ := h₂.parents i _ ht'
  exact ⟨bindings', ht''⟩

theorem Follows.of_eq (hscopes : h'.scopes = h.scopes) (hclosures : h'.closures = h.closures) :
    h.Follows h' :=
  ⟨fun _ t ht => ⟨t.bindings, by rw [hscopes, ht]⟩, .of_eq hclosures⟩

theorem Follows.scopes_le (hle : h.Follows h') : h.scopes.size ≤ h'.scopes.size := by
  refine Nat.le_of_not_lt fun hlt => ?_
  obtain ⟨bindings, ht⟩ := hle.parents _ _ (Array.getElem?_eq_getElem hlt)
  exact Nat.lt_irrefl _ (Array.getElem?_eq_some_iff.1 ht).1

theorem Follows.closures_le (hle : h.Follows h') : h.closures.size ≤ h'.closures.size := by
  refine Nat.le_of_not_lt fun hlt => ?_
  obtain ⟨name, hc⟩ := hle.code _ _ (Array.getElem?_eq_getElem hlt)
  exact Nat.lt_irrefl _ (Array.getElem?_eq_some_iff.1 hc).1

theorem Outside.mono (hs : h.Outside outer s) (hle : h.Follows h') : h'.Outside outer s := by
  induction hs with
  | top hs hne =>
      obtain ⟨bindings, hs'⟩ := hle.parents _ _ hs
      exact .top hs' hne
  | within hs hne _ ih =>
      obtain ⟨bindings, hs'⟩ := hle.parents _ _ hs
      exact .within hs' hne ih

theorem Inside.mono (hs : h.Inside outer s) (hle : h.Follows h') : h'.Inside outer s := by
  induction hs with
  | here => exact .here
  | within hs _ ih =>
      obtain ⟨bindings, hs'⟩ := hle.parents _ _ hs
      exact .within hs' ih

theorem Spares.refl (outer : Ref .scope) (h : Heap) : h.Spares outer h :=
  ⟨.refl h, fun _ _ _ ht => ht⟩

theorem Spares.trans (h₁ : h.Spares outer h') (h₂ : h'.Spares outer h'') : h.Spares outer h'' :=
  ⟨h₁.toFollows.trans h₂.toFollows,
    fun s t hs ht => h₂.inside s t (hs.mono h₁.toFollows) (h₁.inside s t hs ht)⟩

theorem Spares.of_eq (hscopes : h'.scopes = h.scopes) (hclosures : h'.closures = h.closures) :
    h.Spares outer h' :=
  ⟨.of_eq hscopes hclosures, fun _ _ _ ht => by rw [hscopes, ht]⟩

theorem spares_addScope (h : Heap) (t : Scope) : h.Spares outer (h.addScope t).2 where
  parents _ t' ht := ⟨t'.bindings, Heap.getElem?_push_of_some t ht⟩
  code := .of_eq rfl
  inside _ _ _ ht := Heap.getElem?_push_of_some t ht

theorem spares_addClosure (h : Heap) (c : Closure) : h.Spares outer (h.addClosure c).2 where
  parents _ t ht := ⟨t.bindings, ht⟩
  code := h.keepsCode_addClosure c
  inside _ _ _ ht := ht

theorem spares_nameClosure (h : Heap) (ref : Ref .closure) (name : Symbol) :
    h.Spares outer (h.nameClosure ref name) where
  parents _ t ht := ⟨t.bindings, ht⟩
  code := h.keepsCode_nameClosure ref name
  inside _ _ _ ht := ht

theorem follows_bind (h : Heap) (s : Ref .scope) (name : Symbol) (v : Value) :
    h.Follows (h.bind s name v) where
  parents i t ht := by
    rw [bind, Array.getElem?_modify, ht]
    split
    · exact ⟨_, rfl⟩
    · exact ⟨t.bindings, rfl⟩
  code := .of_eq rfl

theorem spares_bind (hs : h.Outside outer s) (name : Symbol) (v : Value) :
    h.Spares outer (h.bind s name v) where
  toFollows := h.follows_bind s name v
  inside s' t hinside ht := by
    have hne : s.index ≠ s'.index := by
      intro heq
      obtain rfl : s = s' := by
        cases s
        cases s'
        cases heq
        rfl
      exact hs.not_inside hinside
    rw [bind, Array.getElem?_modify, if_neg hne, ht]

end Heap

/-! ## The policy -/

/-- A procedure that may be handed around, although it is closed over a scope that is kept from
others. It takes no arguments. -/
structure Entrance where
  procedure : Ref .closure
  code : Value
  scope : Ref .scope

/-- A scope that is kept from others, with a procedure that nobody sees, and the one that leads
there, if it has been made. Procedures may be closed over the frame, but nobody makes variables in
it, and so it leaves a name free. -/
structure Seclusion where
  outer : Ref .scope
  frame : Ref .scope
  free : Symbol
  hidden : Ref .closure
  entrance : Option Entrance

namespace Seclusion

/-- The value may be seen by others. -/
def Shows (S : Seclusion) (h : Heap) : Value → Prop
  | .closure c | .transformer c => c ≠ S.hidden ∧ ∃ code, h.closures[c.index]? = some code ∧
    ((∃ e ∈ S.entrance, e.procedure = c) ∨ h.Outside S.outer code.scope)
  | _ => True

/-- Variables may be made in the scope. -/
def Opens (S : Seclusion) (h : Heap) (s : Ref .scope) : Prop :=
  h.Outside S.outer s ∧ s ≠ S.frame

/-- All that lies around may be seen. -/
structure Secludes (S : Seclusion) (h : Heap) : Prop where
  pairs : ∀ p ∈ h.pairs, S.Shows h p.first ∧ S.Shows h p.rest
  vectors : ∀ cells ∈ h.vectors, ∀ v ∈ cells, S.Shows h v
  bindings : ∀ (i : Nat) t, h.scopes[i]? = some t → i ≠ S.outer.index →
    ∀ (name : String) (v : Value), t.bindings[name]? = some v → S.Shows h v
  code : ∀ c ∈ h.closures, S.Shows h c.body
  slots : ∀ k ∈ h.continuations, S.Shows h k.slot
  global : S.Opens h .global
  around : h.Outside S.outer S.frame
  frame : ∃ t, h.scopes[S.frame.index]? = some t ∧ t.parent = some .global ∧
    t.bindings[S.free.name]? = none
  outer : S.outer.index < h.scopes.size
  hidden : S.hidden.index < h.closures.size
  entrance : ∀ e ∈ S.entrance, e.scope.index < h.scopes.size ∧ ∃ name,
    h.closures[e.procedure.index]? = some ⟨⟨[], none⟩, e.code, e.scope, name⟩

/-- The machine has entered the procedure that may be handed around. -/
def Enters (S : Seclusion) (h : Heap) (x : Value) (s : Ref .scope) : Prop :=
  ∃ e ∈ S.entrance, x = e.code ∧ e.scope.index < s.index ∧
    h.scopes[s.index]? = some ⟨{}, some e.scope⟩

variable {S : Seclusion} {h h' : Heap} {v : Value}

theorem Opens.mono {s : Ref .scope} (hs : S.Opens h s) (hle : h.Follows h') : S.Opens h' s :=
  ⟨hs.1.mono hle, hs.2⟩

theorem Secludes.frame_lt (hs : S.Secludes h) : S.frame.index < h.scopes.size := by
  obtain ⟨t, ht, -⟩ := hs.frame
  exact (Array.getElem?_eq_some_iff.1 ht).1

theorem Shows.mono (hv : S.Shows h v) (hle : h.Follows h') : S.Shows h' v := by
  cases v with
  | closure c | transformer c =>
      obtain ⟨hne, code, hc, hcode⟩ := hv
      obtain ⟨name, hc'⟩ := hle.code _ _ hc
      exact ⟨hne, _, hc', hcode.imp_right fun hs => hs.mono hle⟩
  | _ => trivial

/-- A change leaves the scope secluded if it only adds cells of what may be seen, or puts such cells
in the place of others. -/
theorem Secludes.change (hs : S.Secludes h) (hle : h.Follows h')
    (hpairs : ∀ p ∈ h'.pairs, p ∈ h.pairs ∨ S.Shows h' p.first ∧ S.Shows h' p.rest)
    (hvectors : ∀ cells ∈ h'.vectors, cells ∈ h.vectors ∨ ∀ v ∈ cells, S.Shows h' v)
    (hscopes : ∀ (i : Nat) t, h'.scopes[i]? = some t → i ≠ S.outer.index →
      h.scopes[i]? = some t ∨
        (∀ (name : String) (v : Value), t.bindings[name]? = some v → S.Shows h' v) ∧
          (i = S.frame.index → t.bindings[S.free.name]? = none))
    (hcode : ∀ c ∈ h'.closures, (∃ c' ∈ h.closures, c'.body = c.body) ∨ S.Shows h' c.body)
    (hslots : ∀ k ∈ h'.continuations, k ∈ h.continuations ∨ S.Shows h' k.slot) :
    S.Secludes h' where
  pairs p hp := by
    rcases hpairs p hp with hold | hnew
    · exact ⟨(hs.pairs p hold).1.mono hle, (hs.pairs p hold).2.mono hle⟩
    · exact hnew
  vectors cells hcells := by
    rcases hvectors cells hcells with hold | hnew
    · exact fun v hv => (hs.vectors cells hold v hv).mono hle
    · exact hnew
  bindings i t ht hne := by
    rcases hscopes i t ht hne with hold | hnew
    · exact fun name v hv => (hs.bindings i t hold hne name v hv).mono hle
    · exact hnew.1
  code c hc := by
    rcases hcode c hc with ⟨c', hold, heq⟩ | hnew
    · exact heq ▸ (hs.code c' hold).mono hle
    · exact hnew
  slots k hk := by
    rcases hslots k hk with hold | hnew
    · exact (hs.slots k hold).mono hle
    · exact hnew
  global := hs.global.mono hle
  around := hs.around.mono hle
  frame := by
    obtain ⟨t, ht, hparent, hfree⟩ := hs.frame
    obtain ⟨bindings, ht'⟩ := hle.parents _ t ht
    have hne : S.frame.index ≠ S.outer.index := fun heq => hs.around.ne (congrArg Ref.mk heq)
    refine ⟨_, ht', hparent, ?_⟩
    rcases hscopes _ _ ht' hne with hold | ⟨-, hnew⟩
    · exact (congrArg (fun t : Scope => t.bindings[S.free.name]?)
        (Option.some.inj (ht.symm.trans hold))).symm.trans hfree
    · exact hnew rfl
  outer := Nat.lt_of_lt_of_le hs.outer hle.scopes_le
  hidden := Nat.lt_of_lt_of_le hs.hidden hle.closures_le
  entrance e he := by
    obtain ⟨hscope, name, hc⟩ := hs.entrance e he
    exact ⟨Nat.lt_of_lt_of_le hscope hle.scopes_le, hle.code _ _ hc⟩

section Changes

variable (hs : S.Secludes h)
include hs

theorem Secludes.cons {first rest : Value} (hfirst : S.Shows h first) (hrest : S.Shows h rest) :
    S.Secludes (h.cons first rest).2 := by
  have hle : h.Follows (h.cons first rest).2 := .of_eq rfl rfl
  refine hs.change hle (fun p hp => ?_) (fun _ => Or.inl) (fun _ _ ht _ => Or.inl ht)
    (fun c hc => Or.inl ⟨c, hc, rfl⟩) fun _ => Or.inl
  rcases Array.mem_push.1 hp with hold | rfl
  · exact Or.inl hold
  · exact Or.inr ⟨hfirst.mono hle, hrest.mono hle⟩

theorem Secludes.addString (chars : Array Char) : S.Secludes (h.addString chars).2 :=
  hs.change (.of_eq rfl rfl) (fun _ => Or.inl) (fun _ => Or.inl) (fun _ _ ht _ => Or.inl ht)
    (fun c hc => Or.inl ⟨c, hc, rfl⟩) fun _ => Or.inl

theorem Secludes.addVector {elements : Array Value} (helements : ∀ v ∈ elements, S.Shows h v) :
    S.Secludes (h.addVector elements).2 := by
  have hle : h.Follows (h.addVector elements).2 := .of_eq rfl rfl
  refine hs.change hle (fun _ => Or.inl) (fun cells hcells => ?_) (fun _ _ ht _ => Or.inl ht)
    (fun c hc => Or.inl ⟨c, hc, rfl⟩) fun _ => Or.inl
  rcases Array.mem_push.1 hcells with hold | rfl
  · exact Or.inl hold
  · exact Or.inr fun v hv => (helements v hv).mono hle

theorem Secludes.setPair (ref : Ref .pair) {p : Pair} (hfirst : S.Shows h p.first)
    (hrest : S.Shows h p.rest) : S.Secludes (h.setPair ref p) := by
  have hle : h.Follows (h.setPair ref p) := .of_eq rfl rfl
  refine hs.change hle (fun q hq => ?_) (fun _ => Or.inl) (fun _ _ ht _ => Or.inl ht)
    (fun c hc => Or.inl ⟨c, hc, rfl⟩) fun _ => Or.inl
  rcases Array.mem_or_eq_of_mem_setIfInBounds hq with hold | rfl
  · exact Or.inl hold
  · exact Or.inr ⟨hfirst.mono hle, hrest.mono hle⟩

theorem Secludes.setChar (ref : Ref .string) (i : Nat) (c : Char) :
    S.Secludes (h.setChar ref i c) :=
  hs.change (.of_eq rfl rfl) (fun _ => Or.inl) (fun _ => Or.inl) (fun _ _ ht _ => Or.inl ht)
    (fun c hc => Or.inl ⟨c, hc, rfl⟩) fun _ => Or.inl

theorem Secludes.setElement (ref : Ref .vector) (i : Nat) (hv : S.Shows h v) :
    S.Secludes (h.setElement ref i v) := by
  have hle : h.Follows (h.setElement ref i v) := .of_eq rfl rfl
  refine hs.change hle (fun _ => Or.inl) (fun cells hcells => ?_) (fun _ _ ht _ => Or.inl ht)
    (fun c hc => Or.inl ⟨c, hc, rfl⟩) fun _ => Or.inl
  have hcells : cells ∈ h.vectors.modify ref.index (·.setIfInBounds i v) := hcells
  rcases Heap.mem_modify hcells with hold | ⟨old, hold, rfl⟩
  · exact Or.inl hold
  · refine Or.inr fun x hx => ?_
    rcases Array.mem_or_eq_of_mem_setIfInBounds hx with hx | rfl
    · exact (hs.vectors old hold x hx).mono hle
    · exact hv.mono hle

/-- The free name of the frame stays free. -/
theorem Secludes.bind {s : Ref .scope} {name : Symbol} (hv : S.Shows h v)
    (hframe : s = S.frame → name.name ≠ S.free.name) : S.Secludes (h.bind s name v) := by
  have hle := h.follows_bind s name v
  refine hs.change hle (fun _ => Or.inl) (fun _ => Or.inl) (fun i t ht hne => ?_)
    (fun c hc => Or.inl ⟨c, hc, rfl⟩) fun _ => Or.inl
  rw [Heap.bind, Array.getElem?_modify] at ht
  split at ht
  · obtain ⟨old, hold, rfl⟩ := Option.map_eq_some_iff.1 ht
    refine Or.inr ⟨fun other value hvalue => ?_, fun heq => ?_⟩
    · rw [Std.TreeMap.getElem?_insert] at hvalue
      split at hvalue
      · cases hvalue
        exact hv.mono hle
      · exact (hs.bindings i old hold hne other value hvalue).mono hle
    · obtain ⟨t, ht, -, hfree⟩ := hs.frame
      obtain rfl := Option.some.inj ((heq ▸ hold).symm.trans ht)
      have hne : name.name ≠ S.free.name :=
        hframe (congrArg Ref.mk (Eq.trans ‹s.index = i› heq))
      simpa [Std.TreeMap.getElem?_insert, hne] using hfree
  · exact Or.inl ht

theorem Secludes.nameClosure (ref : Ref .closure) (name : Symbol) :
    S.Secludes (h.nameClosure ref name) := by
  have hle : h.Follows (h.nameClosure ref name) :=
    (h.spares_nameClosure ref name : h.Spares S.outer _).toFollows
  refine hs.change hle (fun _ => Or.inl) (fun _ => Or.inl) (fun _ _ ht _ => Or.inl ht)
    (fun c hc => ?_) fun _ => Or.inl
  simp only [Heap.nameClosure] at hc
  rcases Heap.mem_modify hc with hold | ⟨old, hold, rfl⟩
  · exact Or.inl ⟨c, hold, rfl⟩
  · exact Or.inl ⟨old, hold, by split <;> rfl⟩

theorem Secludes.addScope {t : Scope}
    (hbindings : ∀ (name : String) (v : Value), t.bindings[name]? = some v → S.Shows h v) :
    S.Secludes (h.addScope t).2 := by
  have hle : h.Follows (h.addScope t).2 := (h.spares_addScope t : h.Spares S.outer _).toFollows
  refine hs.change hle (fun _ => Or.inl) (fun _ => Or.inl) (fun i t' ht _ => ?_)
    (fun c hc => Or.inl ⟨c, hc, rfl⟩) fun _ => Or.inl
  rw [Heap.addScope, Array.getElem?_push] at ht
  split at ht
  · rename_i heq
    cases ht
    refine Or.inr ⟨fun name v hv => (hbindings name v hv).mono hle, fun hi => ?_⟩
    exact absurd hs.frame_lt (heq ▸ hi ▸ Nat.lt_irrefl _)
  · exact Or.inl ht

theorem Secludes.addClosure {c : Closure} (hbody : S.Shows h c.body) :
    S.Secludes (h.addClosure c).2 := by
  have hle : h.Follows (h.addClosure c).2 := (h.spares_addClosure c : h.Spares S.outer _).toFollows
  refine hs.change hle (fun _ => Or.inl) (fun _ => Or.inl) (fun _ _ ht _ => Or.inl ht)
    (fun c' hc => ?_) fun _ => Or.inl
  rcases Array.mem_push.1 hc with hold | rfl
  · exact Or.inl ⟨c', hold, rfl⟩
  · exact Or.inr (hbody.mono hle)

theorem Secludes.shows_closure {c : Closure} (hscope : h.Outside S.outer c.scope) :
    S.Shows (h.addClosure c).2 (.closure (h.addClosure c).1) := by
  have hle : h.Follows (h.addClosure c).2 := (h.spares_addClosure c : h.Spares S.outer _).toFollows
  refine ⟨fun heq => ?_, c, Array.getElem?_push_size, Or.inr (hscope.mono hle)⟩
  exact Nat.lt_irrefl _ (heq ▸ hs.hidden)

theorem Secludes.addContinuation {k : Continuation} (hslot : S.Shows h k.slot) :
    S.Secludes (h.addContinuation k).2 := by
  have hle : h.Follows (h.addContinuation k).2 := .of_eq rfl rfl
  refine hs.change hle (fun _ => Or.inl) (fun _ => Or.inl) (fun _ _ ht _ => Or.inl ht)
    (fun c hc => Or.inl ⟨c, hc, rfl⟩) fun k' hk => ?_
  rcases Array.mem_push.1 hk with hold | rfl
  · exact Or.inl hold
  · exact Or.inr (hslot.mono hle)

theorem Secludes.setContinuation {k : Continuation} (ref : Ref .continuation)
    (hslot : S.Shows h k.slot) : S.Secludes (h.setContinuation ref k) := by
  have hle : h.Follows (h.setContinuation ref k) := .of_eq rfl rfl
  refine hs.change hle (fun _ => Or.inl) (fun _ => Or.inl) (fun _ _ ht _ => Or.inl ht)
    (fun c hc => Or.inl ⟨c, hc, rfl⟩) fun k' hk => ?_
  rcases Array.mem_or_eq_of_mem_setIfInBounds hk with hold | rfl
  · exact Or.inl hold
  · exact Or.inr (hslot.mono hle)

theorem Secludes.fields (ref : Ref .pair) :
    S.Shows h (h.pair ref).first ∧ S.Shows h (h.pair ref).rest := by
  unfold Heap.pair
  cases hp : h.pairs[ref.index]? with
  | none => exact ⟨trivial, trivial⟩
  | some p => exact hs.pairs p (Array.mem_of_getElem? hp)

theorem Secludes.element {ref : Ref .vector} (hv : v ∈ h.vector ref) : S.Shows h v := by
  unfold Heap.vector at hv
  cases hcells : h.vectors[ref.index]? with
  | none => simp [hcells] at hv
  | some cells =>
      rw [hcells] at hv
      exact hs.vectors cells (Array.mem_of_getElem? hcells) v hv

theorem Secludes.slot (k : Ref .continuation) : S.Shows h (h.continuation k).slot := by
  unfold Heap.continuation
  cases hk : h.continuations[k.index]? with
  | none => trivial
  | some found => exact hs.slots found (Array.mem_of_getElem? hk)

/-- A variable that is seen from outside is one that lies around. -/
theorem Secludes.located {name : Symbol} {s s' : Ref .scope} (houtside : h.Outside S.outer s)
    (hlocate : h.locate? name s = some (s', v)) :
    h.Outside S.outer s' ∧ S.Shows h v ∧ (s' = S.frame → name.name ≠ S.free.name) := by
  obtain ⟨hs', t, ht, hv⟩ := Heap.owner_of_locate?
    (fun _ _ _ hs ht hparent => hs.of_child ht hparent) houtside hlocate
  refine ⟨hs', hs.bindings _ t ht (fun heq => hs'.ne ?_) name.name v hv, ?_⟩
  · cases s'
    exact congrArg Ref.mk heq
  · rintro rfl heq
    obtain ⟨t', ht', -, hfree⟩ := hs.frame
    obtain rfl := Option.some.inj (ht.symm.trans ht')
    rw [heq, hfree] at hv
    cases hv

end Changes

/-- What the policy says about values. -/
def values (S : Seclusion) : Policy where
  good := S.Secludes
  leads := Heap.Spares S.outer
  admits := S.Shows
  refl h := .refl S.outer h
  trans := .trans
  mono hle hv := hv.mono hle.toFollows
  atom {h v} hv := by cases v <;> trivial
  fields hs _ := hs.fields _
  element hs _ hv := hs.element hv
  cons hs hfirst hrest := ⟨hs.cons hfirst hrest, .of_eq rfl rfl, trivial⟩
  addString chars hs := ⟨hs.addString chars, .of_eq rfl rfl, trivial⟩
  addVector hs helements := ⟨hs.addVector helements, .of_eq rfl rfl, trivial⟩

/-- Scopes that are made outside are outside. -/
theorem Secludes.opens_addScope {bindings : Std.TreeMap String Value} {parent : Ref .scope}
    (hs : S.Secludes h) (hparent : h.Outside S.outer parent) :
    S.Opens (h.addScope ⟨bindings, some parent⟩).2 (h.addScope ⟨bindings, some parent⟩).1 := by
  have hle : h.Spares S.outer _ := h.spares_addScope ⟨bindings, some parent⟩
  refine ⟨.within Array.getElem?_push_size (fun heq => ?_) (hparent.mono hle.toFollows),
    fun heq => ?_⟩
  · exact Nat.lt_irrefl _ (heq ▸ hs.outer)
  · exact Nat.lt_irrefl _ (heq ▸ hs.frame_lt)

/-- A procedure that is seen has a scope outside, and so has its call; or it is the entrance, and
leads inside. -/
theorem Secludes.call (hs : S.Secludes h) {ref : Ref .closure} {vs : List Value}
    (href : S.Shows h (.closure ref)) (hvs : ∀ v ∈ vs, S.Shows h v) :
    let made := h.extend (h.closure ref).parameters vs (h.closure ref).scope
    S.Secludes made.2 ∧ h.Spares S.outer made.2 ∧
      (S.Shows made.2 (h.closure ref).body ∧ S.Opens made.2 made.1 ∨
        S.Enters made.2 (h.closure ref).body made.1) := by
  intro made
  obtain ⟨-, code, hcode, ⟨e, he, rfl⟩ | houtside⟩ := href
  · obtain ⟨hscope, name, hclosure⟩ := hs.entrance e he
    simp only [made, Heap.closure, hclosure, Option.getD_some, Heap.extend, Heap.bindFixed]
    exact ⟨hs.addScope (by simp), h.spares_addScope _,
      Or.inr ⟨e, he, rfl, hscope, Array.getElem?_push_size⟩⟩
  · simp only [made, Heap.closure, hcode, Option.getD_some]
    obtain ⟨hmade, hspares, hopens⟩ := S.values.makes_extend (Q := S.Opens) hs code.parameters hvs
      (fun h' bindings hs' (hspares : h.Spares S.outer h') hbindings =>
        ⟨hs'.addScope hbindings, h'.spares_addScope _,
          hs'.opens_addScope (houtside.mono hspares.toFollows)⟩)
    exact ⟨hmade, hspares, Or.inl ⟨(hs.code code (Array.mem_of_getElem? hcode)).mono
      hspares.toFollows, hopens⟩⟩

/-- The scope stays secluded, and what is inside of it as it is. -/
def policy (S : Seclusion) : MachinePolicy where
  toPolicy := S.values
  usable := S.Opens
  enters := S.Enters
  usableMono hle hs := hs.mono hle.toFollows
  global hs := hs.global
  setPair ref hs hfirst hrest := ⟨hs.setPair ref hfirst hrest, .of_eq rfl rfl⟩
  setChar ref i c hs := ⟨hs.setChar ref i c, .of_eq rfl rfl⟩
  setElement ref i hs hv := ⟨hs.setElement ref i hv, .of_eq rfl rfl⟩
  located hs hopens hlocate := (hs.located hopens.1 hlocate).2.1
  assign hs hopens hlocate hv :=
    ⟨hs.bind hv (hs.located hopens.1 hlocate).2.2,
      Heap.spares_bind (hs.located hopens.1 hlocate).1 _ _⟩
  bind name hs hopens hv :=
    ⟨hs.bind hv fun heq => absurd heq hopens.2, Heap.spares_bind hopens.1 name _⟩
  nameClosure {h} ref name hs := ⟨hs.nameClosure ref name, h.spares_nameClosure ref name⟩
  addScope {h _ _} hs hbindings hparent :=
    ⟨hs.addScope hbindings, h.spares_addScope _, hs.opens_addScope hparent.1⟩
  code hs href hvs := Or.inr (hs.call href hvs)
  transformer := .rfl
  addClosure {h c} hs hbody hscope :=
    ⟨hs.addClosure hbody, h.spares_addClosure c, hs.shows_closure hscope.1⟩
  slot k hs := hs.slot k
  addContinuation hs hslot := ⟨hs.addContinuation hslot, .of_eq rfl rfl, trivial⟩
  setContinuation ref hs hslot := ⟨hs.setContinuation ref hslot, .of_eq rfl rfl⟩

end Seclusion

end Scheme
