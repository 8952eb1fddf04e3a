import Scheme.Heap.Equality
/-!
# Values as finite trees

A value from which no cycle can be reached unfolds to a finite tree, the datum it denotes. The
unfolding is unique, it survives the allocation of new cells, and what `Heap.build` makes of a
datum denotes that datum. Two values that denote the same tree, up to the equality of the numbers
in it, are structurally equal.
-/

namespace Scheme

namespace Heap

mutual

/-- The value unfolds to the datum through cells that are there. -/
def Denotes (h : Heap) (v : Value) : Datum → Prop
  | .nil => v = .nil
  | .boolean value => v = .boolean value
  | .number value => v = .number (.float value)
  | .character value => v = .character value
  | .symbol value => v = .symbol value
  | .string value => ∃ ref, v = .string ref ∧ h.strings[ref.index]? = some value.toArray
  | .vector elements =>
    ∃ ref cells, v = .vector ref ∧ h.vectors[ref.index]? = some cells ∧
      DenotesAll h cells.toList elements
  | .pair first rest =>
    ∃ ref p, v = .pair ref ∧ h.pairs[ref.index]? = some p ∧
      Denotes h p.first first ∧ Denotes h p.rest rest

/-- The values unfold to the data, one by one. -/
def DenotesAll (h : Heap) (values : List Value) : List Datum → Prop
  | [] => values = []
  | d :: rest => ∃ v others, values = v :: others ∧ Denotes h v d ∧ DenotesAll h others rest

end

/-- The cell that a value refers to, if it refers to one, is there. -/
def Has (h : Heap) : Value → Prop
  | .pair ref => ref.index < h.pairs.size
  | .vector ref => ref.index < h.vectors.size
  | .string ref => ref.index < h.strings.size
  | .closure ref | .transformer ref => ref.index < h.closures.size
  | .continuation ref => ref.index < h.continuations.size
  | _ => True

theorem Denotes.has {h : Heap} {v : Value} {d : Datum} (hd : h.Denotes v d) : h.Has v := by
  cases d <;> simp only [Denotes] at hd
  case vector elements =>
    obtain ⟨ref, cells, rfl, hcells, -⟩ := hd
    exact (Array.getElem?_eq_some_iff.1 hcells).1
  case pair first rest =>
    obtain ⟨ref, p, rfl, hp, -⟩ := hd
    exact (Array.getElem?_eq_some_iff.1 hp).1
  case string chars =>
    obtain ⟨ref, rfl, hchars⟩ := hd
    exact (Array.getElem?_eq_some_iff.1 hchars).1
  all_goals
    subst hd
    trivial

theorem pair_eq_of_getElem? {h : Heap} {ref : Ref .pair} {p : Pair}
    (hp : h.pairs[ref.index]? = some p) : h.pair ref = p := by
  simp [pair, hp]

theorem vector_eq_of_getElem? {h : Heap} {ref : Ref .vector} {cells : Array Value}
    (hcells : h.vectors[ref.index]? = some cells) : h.vector ref = cells := by
  simp [vector, hcells]

theorem string_eq_of_getElem? {h : Heap} {ref : Ref .string} {chars : Array Char}
    (hchars : h.strings[ref.index]? = some chars) : h.string ref = chars := by
  simp [string, hchars]

/-! ## What a value of a known kind denotes -/

theorem Denotes.eq_nil {h : Heap} {d : Datum} (hd : h.Denotes .nil d) : d = .nil := by
  cases d <;> simp [Denotes] at hd ⊢

theorem Denotes.eq_symbol {h : Heap} {s : Symbol} {d : Datum} (hd : h.Denotes (.symbol s) d) :
    d = .symbol s := by
  cases d <;> simp [Denotes] at hd
  rw [hd]

theorem Denotes.exists_pair {h : Heap} {ref : Ref .pair} {d : Datum}
    (hd : h.Denotes (.pair ref) d) :
    ∃ first rest p, d = .pair first rest ∧ h.pairs[ref.index]? = some p ∧
      h.Denotes p.first first ∧ h.Denotes p.rest rest := by
  cases d <;> simp only [Denotes, reduceCtorEq, false_and, exists_false] at hd
  obtain ⟨ref', p, heq, hp, hfirst, hrest⟩ := hd
  cases heq
  exact ⟨_, _, p, rfl, hp, hfirst, hrest⟩

theorem Denotes.isNil_isPair {h : Heap} {v : Value} {d : Datum} (hd : h.Denotes v d)
    (hnil : d ≠ .nil) (hpair : ∀ first rest, d ≠ .pair first rest) :
    v.isNil = false ∧ v.isPair = false := by
  cases v with
  | nil => exact absurd hd.eq_nil hnil
  | pair ref =>
      obtain ⟨first, rest, _, heq, _⟩ := hd.exists_pair
      exact absurd heq (hpair first rest)
  | _ => exact ⟨rfl, rfl⟩

/-! ## The unfolding is unique -/

mutual

theorem denotes_unique {h : Heap} {v : Value} {a b : Datum} (ha : h.Denotes v a)
    (hb : h.Denotes v b) : a = b := by
  cases a with
  | vector as =>
      obtain ⟨ref, cells, rfl, hcells, hall⟩ := ha
      cases b <;> simp only [Denotes, Value.vector.injEq, reduceCtorEq, false_and,
        exists_false] at hb
      obtain ⟨ref', cells', rfl, hcells', hall'⟩ := hb
      rw [hcells, Option.some.injEq] at hcells'
      subst hcells'
      rw [denotesAll_unique hall hall']
  | pair first rest =>
      obtain ⟨ref, p, rfl, hp, hfirst, hrest⟩ := ha
      cases b <;> simp only [Denotes, Value.pair.injEq, reduceCtorEq, false_and,
        exists_false] at hb
      obtain ⟨ref', p', rfl, hp', hfirst', hrest'⟩ := hb
      rw [hp, Option.some.injEq] at hp'
      subst hp'
      rw [denotes_unique hfirst hfirst', denotes_unique hrest hrest']
  | string as =>
      obtain ⟨ref, rfl, hchars⟩ := ha
      cases b <;> simp only [Denotes, Value.string.injEq, reduceCtorEq, false_and,
        exists_false] at hb
      obtain ⟨ref', rfl, hchars'⟩ := hb
      rw [hchars, Option.some.injEq] at hchars'
      simpa using hchars'
  | _ =>
      simp only [Denotes] at ha
      subst ha
      cases b <;> simp_all [Denotes]
termination_by structural a

theorem denotesAll_unique {h : Heap} {values : List Value} {as bs : List Datum}
    (ha : h.DenotesAll values as) (hb : h.DenotesAll values bs) : as = bs := by
  cases as with
  | nil =>
      simp only [DenotesAll] at ha
      subst ha
      cases bs with
      | nil => rfl
      | cons b bs => simp [DenotesAll] at hb
  | cons a as =>
      obtain ⟨v, others, rfl, hv, hothers⟩ := ha
      cases bs with
      | nil => simp [DenotesAll] at hb
      | cons b bs =>
          obtain ⟨v', others', heq, hv', hothers'⟩ := hb
          obtain ⟨rfl, rfl⟩ := List.cons.inj heq
          rw [denotes_unique hv hv', denotesAll_unique hothers hothers']
termination_by structural as

end

/-! ## New cells leave unfoldings alone -/

/-- Every pair, string and vector of the first heap is the same in the second. -/
structure Extends (h h' : Heap) : Prop where
  pairs : ∀ (i : Nat) (p : Pair), h.pairs[i]? = some p → h'.pairs[i]? = some p
  strings : ∀ (i : Nat) (chars : Array Char),
    h.strings[i]? = some chars → h'.strings[i]? = some chars
  vectors : ∀ (i : Nat) (cells : Array Value),
    h.vectors[i]? = some cells → h'.vectors[i]? = some cells

theorem Extends.refl (h : Heap) : Extends h h :=
  ⟨fun _ _ => id, fun _ _ => id, fun _ _ => id⟩

theorem Extends.trans {h₁ h₂ h₃ : Heap} (h₁₂ : Extends h₁ h₂) (h₂₃ : Extends h₂ h₃) :
    Extends h₁ h₃ where
  pairs i p hp := h₂₃.pairs i p (h₁₂.pairs i p hp)
  strings i chars hchars := h₂₃.strings i chars (h₁₂.strings i chars hchars)
  vectors i cells hcells := h₂₃.vectors i cells (h₁₂.vectors i cells hcells)

theorem getElem?_push_of_some {α : Type} {xs : Array α} {i : Nat} {a : α} (b : α)
    (h : xs[i]? = some a) : (xs.push b)[i]? = some a := by
  obtain ⟨hi, rfl⟩ := Array.getElem?_eq_some_iff.1 h
  rw [Array.getElem?_push_lt hi]

theorem Extends.pairs_size {h h' : Heap} (hext : Extends h h') : h.pairs.size ≤ h'.pairs.size := by
  refine Nat.le_of_not_lt fun hlt => ?_
  have hold := hext.pairs _ _ (Array.getElem?_eq_getElem hlt)
  simp at hold

theorem extends_cons (h : Heap) (first rest : Value) : Extends h (h.cons first rest).2 where
  pairs _ _ := getElem?_push_of_some _
  strings _ _ := id
  vectors _ _ := id

theorem extends_addString (h : Heap) (chars : Array Char) : Extends h (h.addString chars).2 where
  pairs _ _ := id
  strings _ _ := getElem?_push_of_some _
  vectors _ _ := id

theorem extends_addVector (h : Heap) (cells : Array Value) : Extends h (h.addVector cells).2 where
  pairs _ _ := id
  strings _ _ := id
  vectors _ _ := getElem?_push_of_some _

mutual

theorem Denotes.extend {h h' : Heap} (hext : Extends h h') {v : Value} {d : Datum}
    (hd : h.Denotes v d) : h'.Denotes v d := by
  cases d with
  | string chars =>
      obtain ⟨ref, rfl, hchars⟩ := hd
      exact ⟨ref, rfl, hext.strings _ _ hchars⟩
  | vector elements =>
      obtain ⟨ref, cells, rfl, hcells, hall⟩ := hd
      exact ⟨ref, cells, rfl, hext.vectors _ _ hcells, DenotesAll.extend hext hall⟩
  | pair first rest =>
      obtain ⟨ref, p, rfl, hp, hfirst, hrest⟩ := hd
      exact ⟨ref, p, rfl, hext.pairs _ _ hp, Denotes.extend hext hfirst,
        Denotes.extend hext hrest⟩
  | _ => exact hd
termination_by structural d

theorem DenotesAll.extend {h h' : Heap} (hext : Extends h h') {values : List Value}
    {ds : List Datum} (hds : h.DenotesAll values ds) : h'.DenotesAll values ds := by
  cases ds with
  | nil => exact hds
  | cons d ds =>
      obtain ⟨v, others, rfl, hv, hothers⟩ := hds
      exact ⟨v, others, rfl, Denotes.extend hext hv, DenotesAll.extend hext hothers⟩
termination_by structural ds

end

/-! ## Built values denote their datum -/

mutual

theorem extends_build (h : Heap) (d : Datum) : Extends h (h.build d).2 := by
  cases d with
  | string chars => exact extends_addString h _
  | vector elements => exact (extends_buildAll h elements).trans (extends_addVector _ _)
  | pair first rest =>
      exact (extends_build h first).trans
        ((extends_build (h.build first).2 rest).trans (extends_cons _ _ _))
  | _ => exact Extends.refl h
termination_by structural d

theorem extends_buildAll (h : Heap) (ds : List Datum) : Extends h (h.buildAll ds).2 := by
  cases ds with
  | nil => exact Extends.refl h
  | cons d ds => exact (extends_build h d).trans (extends_buildAll (h.build d).2 ds)
termination_by structural ds

end

mutual

theorem denotes_build (h : Heap) (d : Datum) : (h.build d).2.Denotes (h.build d).1 d := by
  cases d with
  | string chars => exact ⟨⟨h.strings.size⟩, rfl, by simp [build, addString]⟩
  | vector elements =>
      refine ⟨⟨(h.buildAll elements).2.vectors.size⟩, (h.buildAll elements).1.toArray, rfl,
        by simp [build, addVector], ?_⟩
      exact DenotesAll.extend (extends_addVector _ _) (denotesAll_buildAll h elements)
  | pair first rest =>
      have hfirst := denotes_build h first
      have hrest := denotes_build (h.build first).2 rest
      refine ⟨⟨((h.build first).2.build rest).2.pairs.size⟩,
        ⟨(h.build first).1, ((h.build first).2.build rest).1⟩, rfl, by simp [build, cons], ?_, ?_⟩
      · exact ((hfirst.extend (extends_build _ rest)).extend (extends_cons _ _ _))
      · exact hrest.extend (extends_cons _ _ _)
  | _ => rfl
termination_by structural d

theorem denotesAll_buildAll (h : Heap) (ds : List Datum) :
    (h.buildAll ds).2.DenotesAll (h.buildAll ds).1 ds := by
  cases ds with
  | nil => rfl
  | cons d ds =>
      exact ⟨_, _, rfl, (denotes_build h d).extend (extends_buildAll _ ds),
        denotesAll_buildAll (h.build d).2 ds⟩
termination_by structural ds

end

end Heap

/-! ## Equal trees -/

namespace Datum

mutual

/-- The same tree, except that numbers only have to be numerically equal. -/
def Alike : Datum → Datum → Prop
  | .number x, .number y => (x == y) = true
  | .vector as, .vector bs => AllAlike as bs
  | .pair first rest, .pair first' rest' => Alike first first' ∧ Alike rest rest'
  | a, b => a = b

def AllAlike : List Datum → List Datum → Prop
  | [], [] => True
  | a :: as, b :: bs => Alike a b ∧ AllAlike as bs
  | _, _ => False

end

end Datum

namespace Heap

/-- Both values unfold, and to trees that are alike. -/
def SameTree (h : Heap) (v w : Value) : Prop :=
  ∃ a b, h.Denotes v a ∧ h.Denotes w b ∧ a.Alike b

theorem SameTree.pairs {h : Heap} {a b : Ref .pair} (hsame : h.SameTree (.pair a) (.pair b)) :
    h.SameTree (h.pair a).first (h.pair b).first ∧ h.SameTree (h.pair a).rest (h.pair b).rest := by
  obtain ⟨d, e, hd, he, halike⟩ := hsame
  cases d <;> simp only [Denotes, reduceCtorEq, false_and, exists_false] at hd
  cases e <;> simp only [Denotes, reduceCtorEq, false_and, exists_false] at he
  obtain ⟨ref, p, heq, hp, hfirst, hrest⟩ := hd
  obtain ⟨ref', q, heq', hq, hfirst', hrest'⟩ := he
  cases heq
  cases heq'
  rw [pair_eq_of_getElem? hp, pair_eq_of_getElem? hq]
  exact ⟨⟨_, _, hfirst, hfirst', halike.1⟩, ⟨_, _, hrest, hrest', halike.2⟩⟩

private theorem sameTree_zip {h : Heap} {vs ws : List Value} {as bs : List Datum}
    (hvs : h.DenotesAll vs as) (hws : h.DenotesAll ws bs) (hall : Datum.AllAlike as bs) :
    vs.length = ws.length ∧ ∀ p ∈ vs.zip ws, h.SameTree p.1 p.2 := by
  induction as generalizing vs ws bs with
  | nil =>
      cases bs with
      | nil =>
          simp only [DenotesAll] at hvs hws
          simp [hvs, hws]
      | cons b bs => simp [Datum.AllAlike] at hall
  | cons a as ih =>
      cases bs with
      | nil => simp [Datum.AllAlike] at hall
      | cons b bs =>
          obtain ⟨v, vs, rfl, hv, hvs⟩ := hvs
          obtain ⟨w, ws, rfl, hw, hws⟩ := hws
          obtain ⟨hab, hall⟩ := hall
          obtain ⟨hlength, hzip⟩ := ih hvs hws hall
          refine ⟨by simp [hlength], ?_⟩
          intro p hp
          rcases List.mem_cons.1 hp with rfl | hp
          · exact ⟨a, b, hv, hw, hab⟩
          · exact hzip p hp

theorem SameTree.vectors {h : Heap} {a b : Ref .vector}
    (hsame : h.SameTree (.vector a) (.vector b)) :
    (h.vector a).size = (h.vector b).size ∧
      ∀ p ∈ (h.vector a).toList.zip (h.vector b).toList, h.SameTree p.1 p.2 := by
  obtain ⟨d, e, hd, he, halike⟩ := hsame
  cases d <;> simp only [Denotes, reduceCtorEq, false_and, exists_false] at hd
  cases e <;> simp only [Denotes, reduceCtorEq, false_and, exists_false] at he
  obtain ⟨ref, cells, heq, hcells, hall⟩ := hd
  obtain ⟨ref', cells', heq', hcells', hall'⟩ := he
  cases heq
  cases heq'
  rw [vector_eq_of_getElem? hcells, vector_eq_of_getElem? hcells']
  simpa using sameTree_zip hall hall' halike

theorem SameTree.strings {h : Heap} {a b : Ref .string}
    (hsame : h.SameTree (.string a) (.string b)) : h.string a = h.string b := by
  obtain ⟨d, e, hd, he, halike⟩ := hsame
  cases d <;> simp only [Denotes, reduceCtorEq, false_and, exists_false] at hd
  cases e <;> simp only [Denotes, reduceCtorEq, false_and, exists_false] at he
  obtain ⟨ref, heq, hchars⟩ := hd
  obtain ⟨ref', heq', hchars'⟩ := he
  cases heq
  cases heq'
  rw [string_eq_of_getElem? hchars, string_eq_of_getElem? hchars', Datum.string.inj halike]

/-- Outside pairs, vectors and strings, being the same tree is being the same object. -/
theorem SameTree.eqv {h : Heap} {v w : Value} (hsame : h.SameTree v w)
    (hpairs : ∀ a b, v = .pair a → w = .pair b → False)
    (hvectors : ∀ a b, v = .vector a → w = .vector b → False)
    (hstrings : ∀ a b, v = .string a → w = .string b → False) : v.eqv w = true := by
  obtain ⟨d, e, hd, he, halike⟩ := hsame
  cases d <;> cases e <;> simp only [Datum.Alike, reduceCtorEq] at halike
  case number.number =>
    simp only [Denotes] at hd he
    simpa only [hd, he, Value.eqv, Flonum.toFloat] using halike
  case pair.pair =>
    obtain ⟨ref, _, heq, _⟩ := hd
    obtain ⟨ref', _, heq', _⟩ := he
    exact absurd heq' (hpairs ref ref' heq)
  case vector.vector =>
    obtain ⟨ref, _, heq, _⟩ := hd
    obtain ⟨ref', _, heq', _⟩ := he
    exact absurd heq' (hvectors ref ref' heq)
  case string.string =>
    obtain ⟨ref, heq, _⟩ := hd
    obtain ⟨ref', heq', _⟩ := he
    exact absurd heq' (hstrings ref ref' heq)
  all_goals
    simp only [Denotes] at hd he
    cases halike
    simp [hd, he, Value.eqv]

/-- The comparison finds no difference between values that unfold to the same tree. -/
theorem equalAll_of_sameTree (h : Heap) (budget : Nat) (met : Met)
    (waiting : List (Value × Value)) (hsame : ∀ p ∈ waiting, h.SameTree p.1 p.2) :
    h.equalAll budget met waiting = true := by
  fun_induction equalAll h budget met waiting with
  | case1 | case3 | case6 => rfl
  | case2 _ _ _ _ _ _ _ ih | case5 _ _ _ _ _ _ _ ih | case9 _ _ _ _ _ _ ih
  | case11 _ _ _ _ _ _ _ _ _ ih => exact ih fun p hp => hsame p (List.mem_cons_of_mem _ hp)
  | case4 met a b waiting key hnew budget p q ih =>
      obtain ⟨hfirst, hrest⟩ := SameTree.pairs (hsame _ (List.mem_cons_self ..))
      apply ih
      simp only [List.mem_cons, forall_eq_or_imp]
      exact ⟨hfirst, hrest, fun p hp => hsame p (List.mem_cons_of_mem _ hp)⟩
  | case7 met a b waiting key hnew budget xs ys hsize ih =>
      obtain ⟨-, hzip⟩ := SameTree.vectors (hsame _ (List.mem_cons_self ..))
      apply ih
      intro p hp
      rcases List.mem_append.1 hp with hp | hp
      · exact hzip p hp
      · exact hsame p (List.mem_cons_of_mem _ hp)
  | case8 met a b waiting key hnew budget xs ys hsize =>
      exact absurd (SameTree.vectors (hsame _ (List.mem_cons_self ..))).1 hsize
  | case10 budget met a b waiting hne =>
      exact absurd (SameTree.strings (hsame _ (List.mem_cons_self ..))) hne
  | case12 budget met a b waiting hpairs hvectors hstrings hne =>
      have heqv := (hsame _ (List.mem_cons_self ..)).eqv hpairs hvectors hstrings
      exact absurd heqv hne

theorem equal_of_sameTree {h : Heap} {v w : Value} (hsame : h.SameTree v w) :
    h.equal v w = true := by
  apply equalAll_of_sameTree
  intro p hp
  rw [List.mem_singleton.1 hp]
  exact hsame

end Heap

end Scheme
