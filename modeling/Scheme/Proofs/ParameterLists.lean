import Mathlib.Data.Fintype.Card
import Scheme.Proofs.TemplateValues
/-!
# Parameter lists

A parameter list is spelled by a spine of symbols that ends in nil or in a symbol, and every other
spine that ends is refused. A call binds the names in the order of the list, so that the last of
several equal ones counts and the rest comes after all others; arguments that are missing are nil,
those left over are dropped, and only the log tells that their number was wrong.
-/

namespace Scheme

/-! ## Spines of known elements -/

namespace Heap

variable {h : Heap} {v last : Value} {items : List Value}

theorem ListsOnto.iterate_rest (hv : h.ListsOnto last items v) :
    (∀ i < items.length, ∃ r, h.rest^[i] v = .pair r ∧ r.index < h.pairs.size) ∧
      h.rest^[items.length] v = last := by
  induction items generalizing v with
  | nil => exact ⟨nofun, hv⟩
  | cons item items ih =>
      obtain ⟨r, rest, rfl, hcell, hrest⟩ := hv
      obtain ⟨hpairs, hlast⟩ := ih hrest
      have hstep : h.rest (.pair r) = rest := congrArg Pair.rest (pair_eq_of_getElem? hcell)
      refine ⟨fun i hi => ?_, ?_⟩
      · cases i with
        | zero => exact ⟨r, rfl, (Array.getElem?_eq_some_iff.1 hcell).1⟩
        | succ i =>
            rw [Function.iterate_succ_apply, hstep]
            exact hpairs i (Nat.lt_of_succ_lt_succ hi)
      · rw [List.length_cons, Function.iterate_succ_apply, hstep]
        exact hlast

theorem ListsOnto.endsAfter (hv : h.ListsOnto last items v) (hlast : last.isPair = false) :
    h.EndsAfter v items.length where
  pairs i hi := by
    obtain ⟨r, hr, -⟩ := hv.iterate_rest.1 i hi
    rw [hr]
    rfl
  last := by rw [hv.iterate_rest.2, hlast]

/-- The pairs along a spine that ends are different, so there are not more than in the heap. -/
theorem ListsOnto.length_le (hv : h.ListsOnto last items v) (hlast : last.isPair = false) :
    items.length ≤ h.pairs.size := by
  have hends := hv.endsAfter hlast
  choose ref href hlt using hv.iterate_rest.1
  have hinjective : Function.Injective fun i : Fin items.length =>
      (⟨(ref i i.2).index, hlt i i.2⟩ : Fin h.pairs.size) := by
    have hapart : ∀ i j : Fin items.length, i < j → (ref i i.2).index ≠ (ref j j.2).index := by
      intro i j hij hsame
      refine hends.iterate_ne hij (Nat.le_of_lt j.2) ?_
      rw [href i i.2, href j j.2]
      exact congrArg (fun index => Value.pair ⟨index⟩) hsame
    intro i j hsame
    have hsame : (ref i i.2).index = (ref j j.2).index := congrArg Fin.val hsame
    rcases lt_trichotomy i j with hlt | heq | hlt
    · exact absurd hsame (hapart i j hlt)
    · exact heq
    · exact absurd hsame.symm (hapart j i hlt)
  simpa using Fintype.card_le_of_injective _ hinjective

end Heap

/-! ## What spells parameters -/

/-- The spine spells the parameters: the fixed ones are its elements, and a rest is its end. -/
structure Parameters.Spelled (p : Parameters) (items : List Value) (last : Value) : Prop where
  fixed : items = p.fixed.map .symbol
  rest : last = match p.rest with
    | some rest => .symbol rest
    | none => .nil

namespace Parameters

variable {items : List Value} {last : Value}

/-- Symbols and nothing else spell parameters, with nil or a symbol at the end. -/
theorem exists_spelled_iff : (∃ p : Parameters, p.Spelled items last) ↔
    (∀ item ∈ items, item.isOf .symbol = true) ∧ (last = .nil ∨ last.isOf .symbol = true) := by
  have hsymbol : ∀ v : Value, v.isOf .symbol = true ↔ ∃ s, v = .symbol s := by
    intro v
    cases v with
    | symbol s => exact iff_of_true rfl ⟨s, rfl⟩
    | _ => exact iff_of_false (fun h => by cases h) fun ⟨_, h⟩ => by cases h
  constructor
  · rintro ⟨⟨fixed, rest⟩, rfl, rfl⟩
    refine ⟨fun item hitem => ?_, ?_⟩
    · obtain ⟨s, -, rfl⟩ := List.mem_map.1 hitem
      rfl
    · cases rest with
      | none => exact Or.inl rfl
      | some rest => exact Or.inr rfl
  · rintro ⟨hitems, hlast⟩
    have hfixed : ∃ fixed : List Symbol, items = fixed.map .symbol := by
      induction items with
      | nil => exact ⟨[], rfl⟩
      | cons item items ih =>
          obtain ⟨fixed, rfl⟩ := ih fun item hitem => hitems item (List.mem_cons_of_mem _ hitem)
          obtain ⟨s, rfl⟩ := (hsymbol item).1 (hitems item List.mem_cons_self)
          exact ⟨s :: fixed, rfl⟩
    obtain ⟨fixed, hfixed⟩ := hfixed
    rcases hlast with hnil | hlast
    · exact ⟨⟨fixed, none⟩, hfixed, hnil⟩
    · obtain ⟨rest, hrest⟩ := (hsymbol last).1 hlast
      exact ⟨⟨fixed, some rest⟩, hfixed, hrest⟩

end Parameters

namespace World

variable {w : World} {whole v last : Value} {items : List Value} {budget : Nat}

/-- Reading goes through the symbols and takes the end for the rest. -/
theorem parametersFrom_of_spelled {p : Parameters} (hspelled : p.Spelled items last)
    (hv : w.heap.ListsOnto last items v) (hbudget : items.length ≤ budget) (names : List Symbol) :
    parametersFrom whole budget names v w = .value ⟨names.reverse ++ p.fixed, p.rest⟩ w := by
  obtain ⟨fixed, rest⟩ := p
  obtain ⟨rfl, rfl⟩ := hspelled
  induction fixed generalizing v budget names with
  | nil =>
      obtain rfl := hv
      cases rest <;> · rw [parametersFrom, List.append_nil]; rfl
  | cons name fixed ih =>
      obtain ⟨r, tail, rfl, hcell, htail⟩ := hv
      rw [List.map_cons, List.length_cons] at hbudget
      obtain ⟨budget, rfl⟩ : ∃ n, budget = n + 1 := ⟨budget - 1, by omega⟩
      have hnext := ih (name :: names) (by simpa using hbudget) htail
      rw [parametersFrom]
      simp only [bind, Action.bind, look, Heap.pair_eq_of_getElem? hcell]
      change parametersFrom whole budget (name :: names) tail w = _
      rw [hnext, List.reverse_cons, List.append_assoc]
      rfl

/-- The first element that is no symbol is refused, and so is an end that is neither. -/
theorem parametersFrom_fault (hspelled : ¬ ∃ p : Parameters, p.Spelled items last)
    (hlast : last.isPair = false) (hv : w.heap.ListsOnto last items v)
    (hbudget : items.length ≤ budget) (names : List Symbol) :
    ∃ f w', parametersFrom whole budget names v w = .fault f w' := by
  induction items generalizing v budget names with
  | nil =>
      obtain rfl := hv
      unfold parametersFrom
      cases v with
      | nil => exact absurd ⟨⟨[], none⟩, rfl, rfl⟩ hspelled
      | symbol rest => exact absurd ⟨⟨[], some rest⟩, rfl, rfl⟩ hspelled
      | pair => cases hlast
      | _ => exact ⟨_, _, rfl⟩
  | cons item items ih =>
      obtain ⟨r, tail, rfl, hcell, htail⟩ := hv
      rw [List.length_cons] at hbudget
      obtain ⟨budget, rfl⟩ : ∃ n, budget = n + 1 := ⟨budget - 1, by omega⟩
      rw [parametersFrom]
      simp only [bind, Action.bind, look, Heap.pair_eq_of_getElem? hcell]
      cases item with
      | symbol name =>
          refine ih (fun hmore => hspelled ?_) htail (by omega) (name :: names)
          obtain ⟨⟨fixed, rest⟩, hfixed, hrest⟩ := hmore
          exact ⟨⟨name :: fixed, rest⟩, by rw [hfixed, List.map_cons], hrest⟩
      | _ => exact ⟨_, _, rfl⟩

end World

/-! ## What a call binds -/

namespace Heap

/-- A name is bound to the next argument, or to nil if there is none. -/
theorem bindFixed_cons (bindings : Std.TreeMap String Value) (name : Symbol) (names : List Symbol)
    (arguments : List Value) : bindFixed bindings (name :: names) arguments =
      bindFixed (bindings.insert name.name (arguments.headD .nil)) names arguments.tail := by
  cases arguments <;> rfl

theorem bindFixed_others (bindings : Std.TreeMap String Value) (names : List Symbol)
    (arguments : List Value) :
    (bindFixed bindings names arguments).2 = arguments.drop names.length := by
  induction names generalizing bindings arguments with
  | nil => rfl
  | cons name names ih => rw [bindFixed_cons, ih, List.drop_tail, List.length_cons]

theorem getElem?_insert_name (bindings : Std.TreeMap String Value) (s t : Symbol) (v : Value) :
    (bindings.insert s.name v)[t.name]? = if s = t then some v else bindings[t.name]? := by
  have hname : s.name = t.name ↔ s = t := ⟨fun heq => by cases s; cases t; simp_all, congrArg _⟩
  rw [Std.TreeMap.getElem?_insert]
  simp only [Std.LawfulEqCmp.compare_eq_iff_eq, hname]

/-- A name that does not come is bound as it was. -/
theorem getElem?_bindFixed_of_not_mem {names : List Symbol} {s : Symbol} (hs : s ∉ names)
    (bindings : Std.TreeMap String Value) (arguments : List Value) :
    (bindFixed bindings names arguments).1[s.name]? = bindings[s.name]? := by
  induction names generalizing bindings arguments with
  | nil => rfl
  | cons name names ih =>
      rw [List.mem_cons, not_or] at hs
      rw [bindFixed_cons, ih hs.2, getElem?_insert_name, if_neg (Ne.symm hs.1)]

/-- A name is bound to the argument in the place where it comes last. -/
theorem getElem?_bindFixed_of_last {names : List Symbol} {s : Symbol} {i : Nat}
    (hs : names[i]? = some s) (hlast : ∀ j, i < j → names[j]? ≠ some s)
    (bindings : Std.TreeMap String Value) (arguments : List Value) :
    (bindFixed bindings names arguments).1[s.name]? = some (arguments[i]?.getD .nil) := by
  induction names generalizing bindings arguments i with
  | nil => cases hs
  | cons name names ih =>
      rw [bindFixed_cons]
      cases i with
      | zero =>
          obtain rfl : name = s := by simpa using hs
          have hmore : name ∉ names := by
            intro hmem
            obtain ⟨j, hj⟩ := List.mem_iff_getElem?.1 hmem
            exact hlast (j + 1) (Nat.succ_pos j) hj
          rw [getElem?_bindFixed_of_not_mem hmore, getElem?_insert_name, if_pos rfl,
            List.headD_eq_head?_getD, List.head?_eq_getElem?]
      | succ i =>
          have htail := ih hs (fun j hj => hlast (j + 1) (Nat.succ_lt_succ hj))
            (bindings.insert name.name (arguments.headD .nil)) arguments.tail
          rw [htail, List.getElem?_tail]

theorem isSome_bindFixed (names : List Symbol) (s : Symbol) (bindings : Std.TreeMap String Value)
    (arguments : List Value) : (bindFixed bindings names arguments).1[s.name]?.isSome = true ↔
      s ∈ names ∨ bindings[s.name]?.isSome = true := by
  induction names generalizing bindings arguments with
  | nil => simp [bindFixed]
  | cons name names ih =>
      rw [bindFixed_cons, ih, getElem?_insert_name, List.mem_cons]
      by_cases hs : name = s
      · simp [hs]
      · simp [hs, Ne.symm hs]

/-- A list of new pairs is made, and nothing else. -/
theorem fresh_listStar (h : Heap) (items : List Value) :
    (h.list items).2 = { h with pairs := (h.list items).2.pairs } ∧
      (∀ (i : Nat) q, h.pairs[i]? = some q → (h.list items).2.pairs[i]? = some q) ∧
      Items (fun r q => h.pairs.size ≤ r.index ∧ (h.list items).2.pairs[r.index]? = some q)
        (h.list items).1 items := by
  induction items with
  | nil => exact ⟨rfl, fun _ _ => id, .nil⟩
  | cons item items ih =>
      obtain ⟨hothers, hpairs, hitems⟩ := ih
      unfold list at hothers hpairs hitems ⊢
      rw [listStar_cons]
      have hext := extends_cons (h.listStar items .nil).2 item (h.listStar items .nil).1
      have hsize : h.pairs.size ≤ (h.listStar items .nil).2.pairs.size := by
        refine Nat.le_of_not_lt fun hlt => ?_
        have hold := hpairs _ _ (Array.getElem?_eq_getElem hlt)
        simp at hold
      refine ⟨?_, fun i q hq => hext.pairs i q (hpairs i q hq), ?_⟩
      · rw [hothers]
        rfl
      · refine Items.cons ?_ (hitems.mono fun r q hr => ?_)
        · exact ⟨hsize, Array.getElem?_push_size⟩
        · exact ⟨hr.1, hext.pairs r.index q hr.2⟩

end Heap

/-- What the scope of a call binds, and the pairs that were made for it. -/
structure Parameters.Binds (p : Parameters) (arguments : List Value) (pairs pairs' : Array Pair)
    (bindings : Std.TreeMap String Value) : Prop where
  names : ∀ s : Symbol, bindings[s.name]?.isSome = true ↔ s ∈ p.fixed ∨ p.rest = some s
  /-- The rest is a new list of the arguments after the fixed ones. -/
  rest : ∀ s, p.rest = some s → ∃ list, bindings[s.name]? = some list ∧
    Items (fun r q => pairs.size ≤ r.index ∧ pairs'[r.index]? = some q) list
      (arguments.drop p.fixed.length)
  /-- Any other name counts where it comes last. -/
  fixed : ∀ (i : Nat) (s : Symbol), p.fixed[i]? = some s →
    (∀ j : Nat, i < j → p.fixed[j]? ≠ some s) → p.rest ≠ some s →
    bindings[s.name]? = some (arguments[i]?.getD .nil)
  kept : ∀ (i : Nat) q, pairs[i]? = some q → pairs'[i]? = some q

theorem Heap.extend_binds (h : Heap) (p : Parameters) (arguments : List Value)
    (parent : Ref .scope) : ∃ pairs bindings,
      h.extend p arguments parent = (⟨h.scopes.size⟩,
        { h with pairs, scopes := h.scopes.push ⟨bindings, some parent⟩ }) ∧
      p.Binds arguments h.pairs pairs bindings := by
  have hothers := bindFixed_others {} p.fixed arguments
  obtain ⟨fixed, rest⟩ := p
  cases rest with
  | none =>
      refine ⟨h.pairs, _, rfl, ⟨fun s => ?_, nofun, fun i s hs hlast _ => ?_, fun _ _ => id⟩⟩
      · rw [isSome_bindFixed]
        simp
      · exact getElem?_bindFixed_of_last hs hlast _ _
  | some rest =>
      obtain ⟨hheap, hkept, hitems⟩ := h.fresh_listStar (arguments.drop fixed.length)
      refine ⟨(h.list (arguments.drop fixed.length)).2.pairs,
        (bindFixed {} fixed arguments).1.insert rest.name
          (h.list (arguments.drop fixed.length)).1, ?_, fun s => ?_, fun s hs => ?_,
        fun i s hs hlast hne => ?_, hkept⟩
      · simp only [extend, hothers, addScope]
        rw [hheap]
      · rw [getElem?_insert_name]
        by_cases hs : rest = s
        · simp [hs]
        · rw [if_neg hs, isSome_bindFixed]
          simp [hs]
      · obtain rfl : rest = s := Option.some.inj hs
        exact ⟨_, by rw [getElem?_insert_name, if_pos rfl], hitems⟩
      · rw [getElem?_insert_name, if_neg fun heq => hne (congrArg some heq)]
        exact getElem?_bindFixed_of_last hs hlast _ _

namespace World

variable {w : World} {v last : Value} {items : List Value}

/-- A spine that ends is read as parameters exactly if it consists of symbols, and fails otherwise.
A call then has a scope of its own, which binds exactly these symbols; the call goes on whatever
the number of arguments, and is reported exactly if the parameters do not accept it. -/
theorem parameter_lists_bind (hv : w.heap.ListsOnto last items v) (hlast : last.isPair = false) :
    ((∃ p w', World.parameters v w = .value p w') ↔
      (∀ item ∈ items, item.isOf .symbol = true) ∧ (last = .nil ∨ last.isOf .symbol = true)) ∧
    ((∃ f w', World.parameters v w = .fault f w') ∨
      ∃ p : Parameters, World.parameters v w = .value p w ∧ p.Spelled items last ∧
        ∀ (arguments : List Value) (parent : Ref .scope), ∃ pairs bindings,
          w.enter p arguments parent = (⟨w.heap.scopes.size⟩, { w with
            heap := { w.heap with pairs, scopes := w.heap.scopes.push ⟨bindings, some parent⟩ }
            log := if p.accepts arguments.length then w.log
              else w.log.push (.argumentCount p.text (w.heap.writtenList arguments)) }) ∧
          p.Binds arguments w.heap.pairs pairs bindings ∧
          (p.accepts arguments.length = true ↔
            arguments.length = items.length ∨ items.length < arguments.length ∧ last ≠ .nil)) := by
  have hbudget := hv.length_le hlast
  rw [← Parameters.exists_spelled_iff]
  by_cases hspelled : ∃ p : Parameters, p.Spelled items last
  · obtain ⟨p, hp⟩ := hspelled
    have hvalue : World.parameters v w = .value p w := parametersFrom_of_spelled hp hv hbudget []
    refine ⟨iff_of_true ⟨p, w, hvalue⟩ ⟨p, hp⟩, Or.inr ⟨p, hvalue, hp, fun arguments parent => ?_⟩⟩
    obtain ⟨pairs, bindings, hextend, hbinds⟩ := w.heap.extend_binds p arguments parent
    refine ⟨pairs, bindings, ?_, hbinds, ?_⟩
    · unfold World.enter
      split
      · simp only [hextend]
      · simp only [World.note, hextend]
    · have hlength : items.length = p.fixed.length := by rw [hp.fixed, List.length_map]
      have hend := hp.rest
      rw [Parameters.accepts, hlength, hend]
      cases p.rest with
      | none => simpa using eq_comm
      | some rest => simpa using le_iff_eq_or_lt.trans (or_congr_left eq_comm)
  · obtain ⟨f, w', hfault⟩ := parametersFrom_fault hspelled hlast hv hbudget []
    have hfault : World.parameters v w = .fault f w' := hfault
    refine ⟨iff_of_false ?_ hspelled, Or.inl ⟨f, w', hfault⟩⟩
    rintro ⟨p, w₁, hvalue⟩
    rw [hfault] at hvalue
    cases hvalue

/-- A world in which the first pair begins the list `(a b a . more)`. -/
def repeating : World :=
  { World.bare World.nowhere with heap :=
    { pairs := #[⟨.symbol ⟨"a"⟩, .pair ⟨1⟩⟩, ⟨.symbol ⟨"b"⟩, .pair ⟨2⟩⟩,
        ⟨.symbol ⟨"a"⟩, .symbol ⟨"more"⟩⟩] } }

/-- A name that comes twice is bound to the later of its arguments. -/
theorem parameter_lists_bind_repeated : ∃ (p : Parameters) (bindings : Std.TreeMap String Value)
    (w' : World), World.parameters (.pair ⟨0⟩) repeating = .value p repeating ∧
    repeating.enter p [.boolean false, .nil, .boolean true, .endOfFile] .global = (⟨0⟩, w') ∧
    w'.heap.scopes = #[⟨bindings, some .global⟩] ∧ w'.log = #[] ∧
    bindings["a"]? = some (.boolean true) ∧ bindings["b"]? = some .nil ∧
    ∃ list, bindings["more"]? = some list ∧ w'.heap.Lists list [.endOfFile] := by
  have hv : repeating.heap.ListsOnto (.symbol ⟨"more"⟩)
      [.symbol ⟨"a"⟩, .symbol ⟨"b"⟩, .symbol ⟨"a"⟩] (.pair ⟨0⟩) :=
    ⟨_, _, rfl, rfl, _, _, rfl, rfl, _, _, rfl, rfl, rfl⟩
  obtain ⟨-, ⟨f, w', hfault⟩ | ⟨p, hvalue, -, henters⟩⟩ := parameter_lists_bind hv rfl
  · cases hfault
  · obtain rfl : (⟨[⟨"a"⟩, ⟨"b"⟩, ⟨"a"⟩], some ⟨"more"⟩⟩ : Parameters) = p := by
      cases hvalue
      rfl
    obtain ⟨pairs, bindings, henter, hbinds, -⟩ :=
      henters [.boolean false, .nil, .boolean true, .endOfFile] .global
    obtain ⟨list, hlist, hitems⟩ := hbinds.rest ⟨"more"⟩ rfl
    refine ⟨_, bindings, _, hvalue, henter, rfl, rfl, hbinds.fixed 2 ⟨"a"⟩ rfl ?_ (by decide),
      hbinds.fixed 1 ⟨"b"⟩ rfl ?_ (by decide), list, hlist, hitems.mono fun r q hr => hr.2⟩
    · intro j hj
      rw [List.getElem?_eq_none (show 3 ≤ j from hj)]
      simp
    · intro j hj
      obtain rfl | hj : j = 2 ∨ 3 ≤ j := by omega
      · decide
      · rw [List.getElem?_eq_none hj]
        simp

end World

end Scheme
