import Scheme.Proofs.Extents
import Scheme.Proofs.MachinePolicies
import Scheme.Proofs.Reachability
/-!
# No dangling references

The heap of an interpreter refers only to cells that are there. A fresh interpreter has such a
heap, and every step keeps it so: what the machine works with refers to cells of the heap, cells
are made of such values only, and no cell ever goes away. This is a policy for the machine.
-/

namespace Scheme

namespace Heap

/-- The second heap has at least as many cells of every kind. -/
structure Fewer (h h' : Heap) : Prop where
  pairs : h.pairs.size ≤ h'.pairs.size
  strings : h.strings.size ≤ h'.strings.size
  vectors : h.vectors.size ≤ h'.vectors.size
  scopes : h.scopes.size ≤ h'.scopes.size
  closures : h.closures.size ≤ h'.closures.size
  continuations : h.continuations.size ≤ h'.continuations.size

theorem Fewer.trans {h₁ h₂ h₃ : Heap} (h₁₂ : Fewer h₁ h₂) (h₂₃ : Fewer h₂ h₃) : Fewer h₁ h₃ where
  pairs := Nat.le_trans h₁₂.pairs h₂₃.pairs
  strings := Nat.le_trans h₁₂.strings h₂₃.strings
  vectors := Nat.le_trans h₁₂.vectors h₂₃.vectors
  scopes := Nat.le_trans h₁₂.scopes h₂₃.scopes
  closures := Nat.le_trans h₁₂.closures h₂₃.closures
  continuations := Nat.le_trans h₁₂.continuations h₂₃.continuations

theorem Has.mono {h h' : Heap} {v : Value} (hv : h.Has v) (hle : Fewer h h') : h'.Has v := by
  cases v with
  | pair ref => exact Nat.lt_of_lt_of_le hv hle.pairs
  | vector ref => exact Nat.lt_of_lt_of_le hv hle.vectors
  | string ref => exact Nat.lt_of_lt_of_le hv hle.strings
  | closure ref | transformer ref => exact Nat.lt_of_lt_of_le hv hle.closures
  | continuation ref => exact Nat.lt_of_lt_of_le hv hle.continuations
  | _ => trivial

/-- A change keeps a heap closed if it only adds cells that refer to cells, or puts such cells in
the place of others. -/
theorem Closed.change {h h' : Heap} (hc : h.Closed) (hle : Fewer h h')
    (hpairs : ∀ p ∈ h'.pairs, p ∈ h.pairs ∨ h'.Has p.first ∧ h'.Has p.rest)
    (hvectors : ∀ cells ∈ h'.vectors, cells ∈ h.vectors ∨ ∀ v ∈ cells, h'.Has v)
    (hscopes : ∀ (i : Nat) (s : Scope), h'.scopes[i]? = some s → h.scopes[i]? = some s ∨
      (∀ (name : String) (v : Value), s.bindings[name]? = some v → h'.Has v) ∧
        ∀ parent, s.parent = some parent → parent.index < i)
    (hclosures : ∀ c ∈ h'.closures,
      c ∈ h.closures ∨ h'.Has c.body ∧ c.scope.index < h'.scopes.size)
    (hcontinuations : ∀ k ∈ h'.continuations, k ∈ h.continuations ∨ h'.Has k.slot) :
    h'.Closed where
  pairs p hp := by
    rcases hpairs p hp with hold | hnew
    · exact ⟨(hc.pairs p hold).1.mono hle, (hc.pairs p hold).2.mono hle⟩
    · exact hnew
  vectors cells hcells := by
    rcases hvectors cells hcells with hold | hnew
    · exact fun v hv => (hc.vectors cells hold v hv).mono hle
    · exact hnew
  bindings s hs := by
    obtain ⟨i, hi⟩ := Array.mem_iff_getElem?.1 hs
    rcases hscopes i s hi with hold | hnew
    · exact fun name v hv => (hc.bindings s (Array.mem_of_getElem? hold) name v hv).mono hle
    · exact hnew.1
  parents i s hs := by
    rcases hscopes i s hs with hold | hnew
    · exact hc.parents i s hold
    · exact hnew.2
  closures c hcl := by
    rcases hclosures c hcl with hold | hnew
    · exact ⟨(hc.closures c hold).1.mono hle,
        Nat.lt_of_lt_of_le (hc.closures c hold).2 hle.scopes⟩
    · exact hnew
  continuations k hk := by
    rcases hcontinuations k hk with hold | hnew
    · exact (hc.continuations k hold).mono hle
    · exact hnew

/-- What an array holds after a change of one element. -/
theorem mem_modify {α : Type} {xs : Array α} {i : Nat} {f : α → α} {b : α}
    (hb : b ∈ xs.modify i f) : b ∈ xs ∨ ∃ a ∈ xs, b = f a := by
  obtain ⟨j, hj⟩ := Array.mem_iff_getElem?.1 hb
  rw [Array.getElem?_modify] at hj
  split at hj
  · obtain ⟨a, ha, rfl⟩ := Option.map_eq_some_iff.1 hj
    exact Or.inr ⟨a, Array.mem_of_getElem? ha, rfl⟩
  · exact Or.inl (Array.mem_of_getElem? hj)

section

variable {h : Heap} {v : Value}

theorem Fewer.of_eq {h h' : Heap} (hpairs : h'.pairs.size = h.pairs.size)
    (hstrings : h'.strings.size = h.strings.size) (hvectors : h'.vectors.size = h.vectors.size)
    (hscopes : h'.scopes.size = h.scopes.size) (hclosures : h'.closures.size = h.closures.size)
    (hcontinuations : h'.continuations.size = h.continuations.size) : Fewer h h' :=
  ⟨Nat.le_of_eq hpairs.symm, Nat.le_of_eq hstrings.symm, Nat.le_of_eq hvectors.symm,
    Nat.le_of_eq hscopes.symm, Nat.le_of_eq hclosures.symm, Nat.le_of_eq hcontinuations.symm⟩

theorem Fewer.refl (h : Heap) : Fewer h h :=
  .of_eq rfl rfl rfl rfl rfl rfl

/-! ## New cells -/

theorem fewer_cons (h : Heap) (first rest : Value) : Fewer h (h.cons first rest).2 where
  __ := Fewer.refl h
  pairs := by simp [cons]

theorem Closed.cons (hc : h.Closed) {first rest : Value} (hfirst : h.Has first)
    (hrest : h.Has rest) : (h.cons first rest).2.Closed := by
  have hle := h.fewer_cons first rest
  refine hc.change hle (fun p hp => ?_) (fun _ => Or.inl) (fun _ _ => Or.inl) (fun _ => Or.inl)
    fun _ => Or.inl
  rcases Array.mem_push.1 hp with hold | rfl
  · exact Or.inl hold
  · exact Or.inr ⟨hfirst.mono hle, hrest.mono hle⟩

theorem fewer_addString (h : Heap) (chars : Array Char) : Fewer h (h.addString chars).2 where
  __ := Fewer.refl h
  strings := by simp [addString]

theorem Closed.addString (hc : h.Closed) (chars : Array Char) : (h.addString chars).2.Closed :=
  hc.change (h.fewer_addString chars) (fun _ => Or.inl) (fun _ => Or.inl) (fun _ _ => Or.inl)
    (fun _ => Or.inl) fun _ => Or.inl

theorem fewer_addVector (h : Heap) (elements : Array Value) :
    Fewer h (h.addVector elements).2 where
  __ := Fewer.refl h
  vectors := by simp [addVector]

theorem Closed.addVector (hc : h.Closed) {elements : Array Value}
    (helements : ∀ v ∈ elements, h.Has v) : (h.addVector elements).2.Closed := by
  have hle := h.fewer_addVector elements
  refine hc.change hle (fun _ => Or.inl) (fun cells hcells => ?_) (fun _ _ => Or.inl)
    (fun _ => Or.inl) fun _ => Or.inl
  rcases Array.mem_push.1 hcells with hold | rfl
  · exact Or.inl hold
  · exact Or.inr fun v hv => (helements v hv).mono hle

theorem fewer_addScope (h : Heap) (s : Scope) : Fewer h (h.addScope s).2 where
  __ := Fewer.refl h
  scopes := by simp [addScope]

theorem Closed.addScope (hc : h.Closed) {s : Scope}
    (hbindings : ∀ (name : String) (v : Value), s.bindings[name]? = some v → h.Has v)
    (hparent : ∀ parent, s.parent = some parent → parent.index < h.scopes.size) :
    (h.addScope s).2.Closed := by
  have hle := h.fewer_addScope s
  refine hc.change hle (fun _ => Or.inl) (fun _ => Or.inl) (fun i t ht => ?_) ?_ fun _ => Or.inl
  · rw [Heap.addScope, Array.getElem?_push] at ht
    split at ht
    · rename_i hi
      cases ht
      subst hi
      exact Or.inr ⟨fun name v hv => (hbindings name v hv).mono hle, hparent⟩
    · exact Or.inl ht
  · exact fun _ => Or.inl

theorem fewer_addClosure (h : Heap) (c : Closure) : Fewer h (h.addClosure c).2 where
  __ := Fewer.refl h
  closures := by simp [addClosure]

theorem Closed.addClosure (hc : h.Closed) {c : Closure} (hbody : h.Has c.body)
    (hscope : c.scope.index < h.scopes.size) : (h.addClosure c).2.Closed := by
  have hle := h.fewer_addClosure c
  refine hc.change hle (fun _ => Or.inl) (fun _ => Or.inl) (fun _ _ => Or.inl) (fun d hd => ?_)
    fun _ => Or.inl
  rcases Array.mem_push.1 hd with hold | rfl
  · exact Or.inl hold
  · exact Or.inr ⟨hbody.mono hle, hscope⟩

theorem fewer_addContinuation (h : Heap) (k : Continuation) :
    Fewer h (h.addContinuation k).2 where
  __ := Fewer.refl h
  continuations := by simp [addContinuation]

theorem Closed.addContinuation (hc : h.Closed) {k : Continuation} (hslot : h.Has k.slot) :
    (h.addContinuation k).2.Closed := by
  have hle := h.fewer_addContinuation k
  refine hc.change hle (fun _ => Or.inl) (fun _ => Or.inl) (fun _ _ => Or.inl) (fun _ => Or.inl)
    fun l hl => ?_
  rcases Array.mem_push.1 hl with hold | rfl
  · exact Or.inl hold
  · exact Or.inr (hslot.mono hle)

/-! ## Changed cells -/

theorem fewer_setPair (h : Heap) (ref : Ref .pair) (p : Pair) : Fewer h (h.setPair ref p) :=
  .of_eq (by simp [setPair]) rfl rfl rfl rfl rfl

theorem Closed.setPair (hc : h.Closed) (ref : Ref .pair) {p : Pair} (hfirst : h.Has p.first)
    (hrest : h.Has p.rest) : (h.setPair ref p).Closed := by
  have hle := h.fewer_setPair ref p
  refine hc.change hle (fun q hq => ?_) (fun _ => Or.inl) (fun _ _ => Or.inl) (fun _ => Or.inl)
    fun _ => Or.inl
  rcases Array.mem_or_eq_of_mem_setIfInBounds hq with hold | rfl
  · exact Or.inl hold
  · exact Or.inr ⟨hfirst.mono hle, hrest.mono hle⟩

theorem fewer_setChar (h : Heap) (ref : Ref .string) (i : Nat) (c : Char) :
    Fewer h (h.setChar ref i c) :=
  .of_eq rfl (by simp [setChar]) rfl rfl rfl rfl

theorem Closed.setChar (hc : h.Closed) (ref : Ref .string) (i : Nat) (c : Char) :
    (h.setChar ref i c).Closed :=
  hc.change (h.fewer_setChar ref i c) (fun _ => Or.inl) (fun _ => Or.inl) (fun _ _ => Or.inl)
    (fun _ => Or.inl) fun _ => Or.inl

theorem fewer_setElement (h : Heap) (ref : Ref .vector) (i : Nat) (v : Value) :
    Fewer h (h.setElement ref i v) :=
  .of_eq rfl rfl (by simp [setElement]) rfl rfl rfl

theorem Closed.setElement (hc : h.Closed) (ref : Ref .vector) (i : Nat) (hv : h.Has v) :
    (h.setElement ref i v).Closed := by
  have hle := h.fewer_setElement ref i v
  refine hc.change hle (fun _ => Or.inl) (fun cells hcells => ?_) (fun _ _ => Or.inl)
    (fun _ => Or.inl) fun _ => Or.inl
  have hcells : cells ∈ h.vectors.modify ref.index (·.setIfInBounds i v) := hcells
  rcases mem_modify hcells with hold | ⟨old, hold, rfl⟩
  · exact Or.inl hold
  · refine Or.inr fun x hx => ?_
    rcases Array.mem_or_eq_of_mem_setIfInBounds hx with hx | rfl
    · exact (hc.vectors old hold x hx).mono hle
    · exact hv.mono hle

theorem fewer_bind (h : Heap) (s : Ref .scope) (name : Symbol) (v : Value) :
    Fewer h (h.bind s name v) :=
  .of_eq rfl rfl rfl (by simp [bind]) rfl rfl

theorem Closed.bind (hc : h.Closed) (s : Ref .scope) (name : Symbol) (hv : h.Has v) :
    (h.bind s name v).Closed := by
  have hle := h.fewer_bind s name v
  refine hc.change hle (fun _ => Or.inl) (fun _ => Or.inl) (fun i t ht => ?_) (fun c hcl => ?_)
    fun _ => Or.inl
  · rw [Heap.bind, Array.getElem?_modify] at ht
    split at ht
    · obtain ⟨old, hold, rfl⟩ := Option.map_eq_some_iff.1 ht
      refine Or.inr ⟨fun other value hvalue => ?_, hc.parents i old hold⟩
      rw [Std.TreeMap.getElem?_insert] at hvalue
      split at hvalue
      · cases hvalue
        exact hv.mono hle
      · exact (hc.bindings old (Array.mem_of_getElem? hold) other value hvalue).mono hle
    · exact Or.inl ht
  · exact Or.inl hcl

theorem fewer_nameClosure (h : Heap) (ref : Ref .closure) (name : Symbol) :
    Fewer h (h.nameClosure ref name) :=
  .of_eq rfl rfl rfl rfl (by simp [nameClosure]) rfl

theorem Closed.nameClosure (hc : h.Closed) (ref : Ref .closure) (name : Symbol) :
    (h.nameClosure ref name).Closed := by
  have hle := h.fewer_nameClosure ref name
  refine hc.change hle (fun _ => Or.inl) (fun _ => Or.inl) (fun _ _ => Or.inl) (fun c hcl => ?_)
    fun _ => Or.inl
  simp only [Heap.nameClosure] at hcl
  rcases mem_modify hcl with hold | ⟨old, hold, rfl⟩
  · exact Or.inl hold
  · refine Or.inr ?_
    obtain ⟨hbody, hscope⟩ := hc.closures old hold
    split <;> exact ⟨hbody.mono hle, hscope⟩

theorem fewer_setContinuation (h : Heap) (ref : Ref .continuation) (k : Continuation) :
    Fewer h (h.setContinuation ref k) :=
  .of_eq rfl rfl rfl rfl rfl (by simp [setContinuation])

theorem Closed.setContinuation (hc : h.Closed) (ref : Ref .continuation) {k : Continuation}
    (hslot : h.Has k.slot) : (h.setContinuation ref k).Closed := by
  have hle := h.fewer_setContinuation ref k
  refine hc.change hle (fun _ => Or.inl) (fun _ => Or.inl) (fun _ _ => Or.inl) (fun _ => Or.inl)
    fun l hl => ?_
  rcases Array.mem_or_eq_of_mem_setIfInBounds hl with hold | rfl
  · exact Or.inl hold
  · exact Or.inr (hslot.mono hle)

/-! ## What is read -/

/-- What holds of a scope and with every scope of its parent holds of the scope that binds a name. -/
theorem owner_of_locate? {R : Ref .scope → Prop} (hparents : ∀ s t parent, R s →
      h.scopes[s.index]? = some t → t.parent = some parent → R parent)
    {name : Symbol} {s s' : Ref .scope} (hs : R s) (hlocate : h.locate? name s = some (s', v)) :
    R s' ∧ ∃ t, h.scopes[s'.index]? = some t ∧ t.bindings[name.name]? = some v := by
  unfold locate? at hlocate
  generalize s.index + 1 = budget at hlocate
  induction budget generalizing s with
  | zero => cases hlocate
  | succ budget ih =>
      rw [locateWithin] at hlocate
      unfold scope at hlocate
      cases ht : h.scopes[s.index]? with
      | none => simp [ht] at hlocate
      | some t =>
          rw [ht, Option.getD_some] at hlocate
          split at hlocate
          · rename_i value hvalue
            cases hlocate
            exact ⟨hs, t, ht, hvalue⟩
          · split at hlocate
            · rename_i parent hparent
              exact ih (hparents s t parent hs ht hparent) hlocate
            · cases hlocate

theorem Closed.has_variable (hc : h.Closed) {name : Symbol} {s s' : Ref .scope}
    (hlocate : h.locate? name s = some (s', v)) : h.Has v := by
  obtain ⟨-, t, ht, hv⟩ := owner_of_locate? (R := fun _ => True) (fun _ _ _ _ _ _ => trivial)
    trivial hlocate
  exact hc.bindings t (Array.mem_of_getElem? ht) name.name v hv

theorem Closed.has_code (hc : h.Closed) {ref : Ref .closure} (href : h.Has (.closure ref)) :
    h.Has (h.closure ref).body ∧ (h.closure ref).scope.index < h.scopes.size := by
  have hlt : ref.index < h.closures.size := href
  rw [closure, Array.getElem?_eq_getElem hlt]
  exact hc.closures _ (Array.getElem_mem hlt)

theorem Closed.has_slot (hc : h.Closed) (k : Ref .continuation) :
    h.Has (h.continuation k).slot := by
  unfold continuation
  cases hk : h.continuations[k.index]? with
  | none => trivial
  | some found => exact hc.continuations found (Array.mem_of_getElem? hk)

end

/-- The heap is closed, and there is a scope of global variables. -/
structure Sealed (h : Heap) : Prop where
  closed : h.Closed
  globals : 0 < h.scopes.size

theorem Sealed.change {h h' : Heap} (hs : h.Sealed) (hclosed : h'.Closed) (hle : Fewer h h') :
    h'.Sealed :=
  ⟨hclosed, Nat.lt_of_lt_of_le hs.globals hle.scopes⟩

/-- References never dangle. -/
def references : MachinePolicy where
  good := Sealed
  leads := Fewer
  admits := Has
  usable h s := s.index < h.scopes.size
  refl := .refl
  trans := .trans
  mono hle hv := hv.mono hle
  usableMono hle hs := Nat.lt_of_lt_of_le hs hle.scopes
  atom {h v} hv := by cases v <;> trivial
  fields hs _ := hs.closed.has_pair _
  element hs _ hv := hs.closed.has_element hv
  cons {h first rest} hs hfirst hrest :=
    ⟨hs.change (hs.closed.cons hfirst hrest) (h.fewer_cons _ _), h.fewer_cons _ _,
      by simp [Has, Heap.cons]⟩
  addString {h} chars hs :=
    ⟨hs.change (hs.closed.addString chars) (h.fewer_addString _), h.fewer_addString _,
      by simp [Has, Heap.addString]⟩
  addVector {h elements} hs helements :=
    ⟨hs.change (hs.closed.addVector helements) (h.fewer_addVector _), h.fewer_addVector _,
      by simp [Has, Heap.addVector]⟩
  global hs := hs.globals
  setPair {h p} ref hs hfirst hrest :=
    ⟨hs.change (hs.closed.setPair ref hfirst hrest) (h.fewer_setPair _ _), h.fewer_setPair _ _⟩
  setChar {h} ref i c hs :=
    ⟨hs.change (hs.closed.setChar ref i c) (h.fewer_setChar _ _ _), h.fewer_setChar _ _ _⟩
  setElement {h v} ref i hs hv :=
    ⟨hs.change (hs.closed.setElement ref i hv) (h.fewer_setElement _ _ _),
      h.fewer_setElement _ _ _⟩
  located hs _ hlocate := hs.closed.has_variable hlocate
  assign hs _ _ hv := ⟨hs.change (hs.closed.bind _ _ hv) (fewer_bind _ _ _ _), fewer_bind _ _ _ _⟩
  bind {h v s} name hs _ hv :=
    ⟨hs.change (hs.closed.bind s name hv) (h.fewer_bind _ _ _), h.fewer_bind _ _ _⟩
  nameClosure {h} ref name hs :=
    ⟨hs.change (hs.closed.nameClosure ref name) (h.fewer_nameClosure _ _),
      h.fewer_nameClosure _ _⟩
  addScope {h bindings parent} hs hbindings hparent := by
    have hclosed := hs.closed.addScope (s := ⟨bindings, some parent⟩) hbindings
      fun _ heq => Option.some.inj heq ▸ hparent
    exact ⟨hs.change hclosed (h.fewer_addScope _), h.fewer_addScope _, by simp [Heap.addScope]⟩
  code hs href _ := Or.inl (hs.closed.has_code href)
  transformer := .rfl
  addClosure {h c} hs hbody hscope :=
    ⟨hs.change (hs.closed.addClosure hbody hscope) (h.fewer_addClosure _), h.fewer_addClosure _,
      by simp [Has, Heap.addClosure]⟩
  slot k hs := hs.closed.has_slot k
  addContinuation {h k} hs hslot :=
    ⟨hs.change (hs.closed.addContinuation hslot) (h.fewer_addContinuation _),
      h.fewer_addContinuation _, by simp [Has, Heap.addContinuation]⟩
  setContinuation {h k} ref hs hslot :=
    ⟨hs.change (hs.closed.setContinuation ref hslot) (h.fewer_setContinuation _ _),
      h.fewer_setContinuation _ _⟩

end Heap

/-! ## Interpreters -/

open Heap

/-- What a request hands to the interpreter is in its heap. -/
def Request.Fits (h : Heap) : Request → Prop
  | .eval x scope => h.Has x ∧ scope.index < h.scopes.size
  | .apply procedure arguments => h.Has procedure ∧ ∀ v ∈ arguments, h.Has v
  | .expandOnce x => h.Has x
  | .interpret _ | .run _ | .load _ | .converse => True

theorem Request.obeys_start {request : Request} {w : World} (hw : w.heap.Sealed)
    (hfits : request.Fits w.heap) : (request.start w).Obeys references w.heap := by
  have hready : Step.Ready references w [] := ⟨hw, by simp [MachinePolicy.AdmitsStack]⟩
  cases request with
  | load path => exact Step.obeys_load hready
  | expandOnce x => exact Step.obeys_expandOnce hready hfits
  | interpret | run => exact Step.obeys_go hready trivial
  | eval | apply => exact Step.obeys_go hready hfits
  | converse => exact Step.obeys_go hready trivial

/-- The heap of an interpreter stays closed while it works on a request. -/
theorem Request.sealed_steps (request : Request) {w : World} (hw : w.heap.Sealed)
    (hfits : request.Fits w.heap) (n : Nat) :
    ((request.start w).steps n).outcome.2.heap.Sealed := by
  have hsteps := (obeys_start hw hfits).steps (fun _ _ _ => id) n
  cases hn : (request.start w).steps n with
  | next s | done outcome w' =>
      rw [hn] at hsteps
      exact hsteps.1

theorem Heap.primitive_of_binding (table : List Primitive) {bindings : Std.TreeMap String Value}
    (hbindings : ∀ (name : String) (v : Value),
      bindings[name]? = some v → ∃ p, v = .primitive p) (name : String) (v : Value)
    (hv : (table.foldl (fun b p => b.insert p.name (.primitive p)) bindings)[name]? = some v) :
    ∃ p, v = .primitive p := by
  induction table generalizing bindings with
  | nil => exact hbindings name v hv
  | cons p table ih =>
      refine ih (fun other value hvalue => ?_) hv
      rw [Std.TreeMap.getElem?_insert] at hvalue
      split at hvalue
      · exact ⟨p, (Option.some.inj hvalue).symm⟩
      · exact hbindings other value hvalue

theorem Heap.sealed_primitives : Heap.primitives.Sealed where
  globals := by simp [Heap.primitives]
  closed :=
    { pairs := by simp [Heap.primitives]
      vectors := by simp [Heap.primitives]
      bindings := by
        intro s hs name v hv
        rw [Heap.primitives, Array.mem_singleton] at hs
        subst hs
        obtain ⟨p, rfl⟩ := primitive_of_binding _ (by simp) name v hv
        trivial
      parents := by
        intro i s hs parent hparent
        rw [Heap.primitives, Array.getElem?_singleton] at hs
        split at hs
        · have hnone : s.parent = none := by rw [← Option.some.inj hs]
          rw [hnone] at hparent
          cases hparent
        · cases hs
      closures := by simp [Heap.primitives]
      continuations := by simp [Heap.primitives] }

/-- A fresh interpreter has a closed heap. -/
theorem World.sealed_bare (host : Host) : (bare host).heap.Sealed :=
  Heap.sealed_primitives

theorem World.sealed_new (host : Host) : (new host).heap.Sealed := by
  have hanswer := (Request.interpret Prelude.text).answer_eq (bare nowhere)
  have hprelude := Request.sealed_steps (.interpret Prelude.text) (sealed_bare nowhere) trivial
    stepBound
  rw [← hanswer] at hprelude
  cases hrun : (Request.interpret Prelude.text).answer (bare nowhere) with
  | mk outcome w =>
      rw [hrun] at hprelude
      rw [heap_new host hrun]
      exact hprelude

end Scheme
