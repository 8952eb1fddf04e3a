import Mathlib.Data.List.Perm.Basic
import Scheme.Heap.Text
import Scheme.Proofs.Unfolding
/-!
# The text of unfolded values

The text of a value that unfolds to a datum is the text of the datum: no container inside it is
met while it is being shown, so that no `...` appears, and the budget outlasts the nesting.

Both facts come from one observation. The containers being shown around a value unfold to trees
that are larger than its own, so that none of them is the value itself, and they are different
cells of the heap, so that there are no more of them than cells.
-/

namespace Scheme

namespace Heap

/-! ## The containers around a value -/

/-- The number of cells that can be shown as containers. -/
def containers (h : Heap) : Nat :=
  h.pairs.size + h.vectors.size

/-- The key of a container, as the text of values counts them. -/
def containerKey? : Value → Option Nat
  | .pair ref => some (2 * ref.index)
  | .vector ref => some (2 * ref.index + 1)
  | _ => none

/-- A container with this key unfolds to a tree larger than the datum. -/
def Encloses (h : Heap) (key : Nat) (d : Datum) : Prop :=
  ∃ v outer, containerKey? v = some key ∧ h.Denotes v outer ∧ sizeOf d < sizeOf outer

/-- Everything shown encloses the datum. -/
def Surrounds (h : Heap) (shown : Std.TreeSet Nat) (d : Datum) : Prop :=
  ∀ key, shown.contains key = true → h.Encloses key d

theorem containerKey?_inj {v w : Value} {key : Nat} (hv : containerKey? v = some key)
    (hw : containerKey? w = some key) : v = w := by
  cases v <;> simp only [containerKey?, Option.some.injEq, reduceCtorEq] at hv
  all_goals
    cases w <;> simp only [containerKey?, Option.some.injEq, reduceCtorEq] at hw
  case pair.pair a b =>
    have hindex : a.index = b.index := by omega
    rw [show a = b from congrArg Ref.mk hindex]
  case vector.vector a b =>
    have hindex : a.index = b.index := by omega
    rw [show a = b from congrArg Ref.mk hindex]
  all_goals omega

/-- A container is not among those shown around it. -/
theorem Surrounds.contains_eq_false {h : Heap} {shown : Std.TreeSet Nat} {v : Value} {d : Datum}
    {key : Nat} (hshown : h.Surrounds shown d) (hd : h.Denotes v d)
    (hkey : containerKey? v = some key) : shown.contains key = false := by
  by_contra hcontains
  obtain ⟨w, outer, hw, houter, hlt⟩ := hshown key (by simpa using hcontains)
  cases containerKey?_inj hw hkey
  rw [denotes_unique houter hd] at hlt
  exact Nat.lt_irrefl _ hlt

theorem Surrounds.mono {h : Heap} {shown : Std.TreeSet Nat} {d e : Datum}
    (hshown : h.Surrounds shown d) (hlt : sizeOf e < sizeOf d) : h.Surrounds shown e := by
  intro key hkey
  obtain ⟨v, outer, hv, houter, hsize⟩ := hshown key hkey
  exact ⟨v, outer, hv, houter, Nat.lt_trans hlt hsize⟩

/-- Opening a container puts it around what it holds. -/
theorem Surrounds.insert {h : Heap} {shown : Std.TreeSet Nat} {v : Value} {d e : Datum} {key : Nat}
    (hshown : h.Surrounds shown d) (hd : h.Denotes v d) (hkey : containerKey? v = some key)
    (hlt : sizeOf e < sizeOf d) : h.Surrounds (shown.insert key) e := by
  intro other hother
  rw [Std.TreeSet.contains_insert, Bool.or_eq_true] at hother
  rcases hother with heq | hold
  · have heq : key = other := by simpa using heq
    subst heq
    exact ⟨v, d, hkey, hd, hlt⟩
  · exact hshown.mono hlt other hold

/-! ## There are no more containers around a value than cells -/

/-- The keys of the containers that are there. -/
def validKeys (h : Heap) : List Nat :=
  (List.range h.pairs.size).map (2 * ·) ++ (List.range h.vectors.size).map (2 * · + 1)

theorem length_validKeys (h : Heap) : (validKeys h).length = h.containers := by
  simp [validKeys, containers]

theorem mem_validKeys_of_has {h : Heap} {v : Value} {key : Nat} (hv : h.Has v)
    (hkey : containerKey? v = some key) : key ∈ validKeys h := by
  simp only [validKeys, List.mem_append, List.mem_map, List.mem_range]
  cases v <;> simp only [containerKey?, Option.some.injEq, reduceCtorEq] at hkey
  case vector ref => exact Or.inr ⟨ref.index, hv, hkey⟩
  case pair ref => exact Or.inl ⟨ref.index, hv, hkey⟩

/-- A set whose members are in a list has no more of them than the list. -/
theorem size_le_of_subset {α : Type} {cmp : α → α → Ordering} [Std.TransCmp cmp]
    [Std.LawfulEqCmp cmp] {members : Std.TreeSet α cmp} {list : List α}
    (hsubset : ∀ a, members.contains a = true → a ∈ list) : members.size ≤ list.length := by
  rw [← Std.TreeSet.length_toList]
  apply List.Subperm.length_le
  apply List.subperm_of_subset
  · refine Std.TreeSet.distinct_toList.imp ?_
    intro a b hne heq
    subst heq
    exact hne Std.ReflCmp.compare_self
  · intro a ha
    apply hsubset
    exact Std.TreeSet.mem_iff_contains.1 (Std.TreeSet.mem_toList.1 ha)

/-- Around a container there is room for one more. -/
theorem Surrounds.size_lt {h : Heap} {shown : Std.TreeSet Nat} {v : Value} {d : Datum} {key : Nat}
    (hshown : h.Surrounds shown d) (hd : h.Denotes v d) (hkey : containerKey? v = some key) :
    shown.size < h.containers := by
  have hnew := hshown.contains_eq_false hd hkey
  have hle : (shown.insert key).size ≤ (validKeys h).length := by
    apply size_le_of_subset
    intro other hother
    rw [Std.TreeSet.contains_insert, Bool.or_eq_true] at hother
    rcases hother with heq | hold
    · have heq : key = other := by simpa using heq
      subst heq
      exact mem_validKeys_of_has hd.has hkey
    · obtain ⟨w, outer, hw, houter, -⟩ := hshown other hold
      exact mem_validKeys_of_has houter.has hw
  rw [Std.TreeSet.size_insert, if_neg (by simp [hnew]),
    length_validKeys] at hle
  exact hle

end Heap

namespace Datum

/-- A pair is shown by its abbreviation, if it has one, and else as a list. -/
theorem text_pair (style : Style) (first rest : Datum) :
    (Datum.pair first rest).text style =
      match (Datum.pair first rest).abbreviated? with
      | some (mark, body) => mark ++ body.text style
      | none => "(" ++ first.text style ++ rest.tailText style := by
  cases first with
  | symbol head =>
      cases rest with
      | pair body tail =>
          cases tail with
          | nil =>
              cases habbreviation : head.abbreviation? <;>
                simp [text, tailText, abbreviated?, habbreviation, String.append_assoc]
          | _ => simp [text, abbreviated?]
      | _ => simp [text, abbreviated?]
  | _ => simp [text, abbreviated?]

theorem abbreviated?_eq_some_iff {first rest body : Datum} {mark : String} :
    (Datum.pair first rest).abbreviated? = some (mark, body) ↔
      ∃ head, first = .symbol head ∧ rest = .pair body .nil ∧ head.abbreviation? = some mark := by
  constructor
  · intro habbreviated
    unfold abbreviated? at habbreviated
    split at habbreviated
    · rename_i head body' heq
      obtain ⟨mark', hmark, hpair⟩ := Option.map_eq_some_iff.1 habbreviated
      obtain ⟨rfl, rfl⟩ := Prod.mk.inj hpair
      obtain ⟨rfl, rfl⟩ := Datum.pair.inj heq
      exact ⟨head, rfl, rfl, hmark⟩
    · simp at habbreviated
  · rintro ⟨head, rfl, rfl, hmark⟩
    simp [abbreviated?, hmark]

end Datum

namespace Heap

theorem abbreviated?_eq_some_iff {h : Heap} {p : Pair} {mark : String} {v : Value} :
    h.abbreviated? p = some (mark, v) ↔
      ∃ head ref, p.first = .symbol head ∧ p.rest = .pair ref ∧ (h.pair ref).rest = .nil ∧
        head.abbreviation? = some mark ∧ (h.pair ref).first = v := by
  constructor
  · intro habbreviated
    unfold abbreviated? at habbreviated
    split at habbreviated
    · rename_i head ref hfirst hrest
      simp only at habbreviated
      split at habbreviated
      · rename_i hnil
        obtain ⟨mark', hmark, hpair⟩ := Option.map_eq_some_iff.1 habbreviated
        obtain ⟨rfl, rfl⟩ := Prod.mk.inj hpair
        refine ⟨head, ref, hfirst, hrest, ?_, hmark, rfl⟩
        revert hnil
        cases (h.pair ref).rest <;> simp [Value.isNil]
      · simp at habbreviated
    · simp at habbreviated
  · rintro ⟨head, ref, hfirst, hrest, hnil, hmark, rfl⟩
    simp [abbreviated?, hfirst, hrest, hnil, hmark, Value.isNil]

theorem abbreviated?_eq_some {h : Heap} {p : Pair} {first rest body : Datum} {mark : String}
    (hfirst : h.Denotes p.first first) (hrest : h.Denotes p.rest rest)
    (habbreviated : (Datum.pair first rest).abbreviated? = some (mark, body)) :
    ∃ v, h.abbreviated? p = some (mark, v) ∧ h.Denotes v body := by
  obtain ⟨head, rfl, rfl, hmark⟩ := Datum.abbreviated?_eq_some_iff.1 habbreviated
  obtain ⟨ref, q, hpair, hq, hbody, hnil⟩ := hrest
  refine ⟨q.first, ?_, hbody⟩
  rw [abbreviated?_eq_some_iff]
  refine ⟨head, ref, hfirst, hpair, ?_, hmark, ?_⟩
  · rw [pair_eq_of_getElem? hq]
    exact hnil
  · rw [pair_eq_of_getElem? hq]

theorem abbreviated?_eq_none {h : Heap} {p : Pair} {first rest : Datum}
    (hfirst : h.Denotes p.first first) (hrest : h.Denotes p.rest rest)
    (hplain : (Datum.pair first rest).abbreviated? = none) : h.abbreviated? p = none := by
  by_contra hne
  obtain ⟨⟨mark, v⟩, habbreviated⟩ := Option.ne_none_iff_exists'.1 hne
  obtain ⟨head, ref, hhead, hpair, hnil, hmark, -⟩ := abbreviated?_eq_some_iff.1 habbreviated
  rw [hhead] at hfirst
  rw [hpair] at hrest
  obtain rfl := hfirst.eq_symbol
  obtain ⟨body, tail, q, rfl, hq, hbody, htail⟩ := hrest.exists_pair
  rw [pair_eq_of_getElem? hq] at hnil
  rw [hnil] at htail
  obtain rfl := htail.eq_nil
  simp [Datum.abbreviated?, hmark] at hplain

/-! ## The text -/

theorem appendSpine_tail {h : Heap} {style : Style} {budget : Nat}
    {shown : Std.TreeSet Nat} {out : String} {isFirst : Bool} {v : Value}
    (hnil : v.isNil = false) (hpair : v.isPair = false) :
    h.appendSpine style (budget + 1) shown out isFirst v =
      h.append style budget shown (out ++ " . ") v ++ ")" := by
  cases v <;> simp_all [appendSpine, Value.isNil, Value.isPair]

mutual

theorem append_eq_text {h : Heap} {style : Style} {budget : Nat} {shown : Std.TreeSet Nat}
    {out : String} {v : Value} {d : Datum} (hd : h.Denotes v d) (hshown : h.Surrounds shown d)
    (hbudget : 2 * (h.containers - shown.size) + v.isPair.toNat ≤ budget) :
    h.append style budget shown out v = out ++ d.text style := by
  cases d with
  | vector elements =>
      have hvector := hd
      obtain ⟨ref, cells, rfl, hcells, hall⟩ := hd
      have hroom := hshown.size_lt hvector rfl
      have hnew := hshown.contains_eq_false hvector rfl
      obtain _ | budget := budget
      · omega
      · rw [append]
        simp only [hnew, Bool.false_eq_true, if_false, vector_eq_of_getElem? hcells,
          ← Array.foldl_toList]
        rw [foldl_append_eq_elementTexts hall]
        · simp [Datum.text, String.append_assoc]
        · intro d hmem
          exact hshown.insert hvector rfl (by
            have := List.sizeOf_lt_of_mem hmem
            simp only [Datum.vector.sizeOf_spec]
            omega)
        · rw [Std.TreeSet.size_insert, if_neg (by simp [hnew])]
          omega
  | pair first rest =>
      have hpair := hd
      obtain ⟨ref, p, rfl, hp, hfirst, hrest⟩ := hd
      have hroom := hshown.size_lt hpair rfl
      have hnew := hshown.contains_eq_false hpair rfl
      have hsize : (shown.insert (2 * ref.index)).size = shown.size + 1 := by
        rw [Std.TreeSet.size_insert, if_neg (by simp [hnew])]
      simp only [Value.isPair, Bool.toNat_true] at hbudget
      obtain _ | budget := budget
      · omega
      · rw [append, pair_eq_of_getElem? hp, Datum.text_pair]
        cases habbreviated : (Datum.pair first rest).abbreviated? with
        | some abbreviation =>
            obtain ⟨mark, body⟩ := abbreviation
            obtain ⟨v, hv, hbody⟩ := abbreviated?_eq_some hfirst hrest habbreviated
            obtain ⟨head, rfl, rfl, -⟩ := Datum.abbreviated?_eq_some_iff.1 habbreviated
            have hpred : v.isPair.toNat ≤ 1 := by cases v.isPair <;> simp
            simp only [hv, hnew, Bool.false_eq_true, if_false]
            rw [append_eq_text hbody (hshown.insert hpair rfl (by simp +arith)) (by omega)]
            simp [String.append_assoc]
        | none =>
            simp only [abbreviated?_eq_none hfirst hrest habbreviated]
            rw [appendSpine_pair_eq_text hp hfirst hrest hshown (by omega)]
            simp [String.append_assoc]
  | string chars =>
      obtain ⟨ref, rfl, hchars⟩ := hd
      cases budget <;>
        simp [append, atomText, Datum.text, string_eq_of_getElem? hchars]
  | _ =>
      simp only [Denotes] at hd
      subst hd
      cases budget <;> simp [append, atomText, Datum.text, Flonum.toFloat]
termination_by 3 * sizeOf d + 1
decreasing_by
  all_goals subst_vars
  all_goals try simp only [Datum.pair.sizeOf_spec, Datum.vector.sizeOf_spec]
  all_goals omega

/-- A list from one of its pairs on. -/
theorem appendSpine_pair_eq_text {h : Heap} {style : Style} {budget : Nat}
    {shown : Std.TreeSet Nat} {out : String} {isFirst : Bool} {ref : Ref .pair} {p : Pair}
    {first rest : Datum} (hp : h.pairs[ref.index]? = some p) (hfirst : h.Denotes p.first first)
    (hrest : h.Denotes p.rest rest) (hshown : h.Surrounds shown (.pair first rest))
    (hbudget : 2 * (h.containers - shown.size) ≤ budget) :
    h.appendSpine style budget shown out isFirst (.pair ref) =
      (if isFirst then out else out ++ " ") ++ first.text style ++ rest.tailText style := by
  have hpair : h.Denotes (.pair ref) (.pair first rest) := ⟨ref, p, rfl, hp, hfirst, hrest⟩
  have hroom := hshown.size_lt hpair rfl
  have hnew := hshown.contains_eq_false hpair rfl
  have hsize : (shown.insert (2 * ref.index)).size = shown.size + 1 := by
    rw [Std.TreeSet.size_insert, if_neg (by simp [hnew])]
  have hpred : p.first.isPair.toNat ≤ 1 := by cases p.first.isPair <;> simp
  obtain _ | budget := budget
  · omega
  · simp only [appendSpine, hnew, Bool.false_eq_true, if_false, pair_eq_of_getElem? hp]
    rw [append_eq_text hfirst (hshown.insert hpair rfl (by simp +arith)) (by omega),
      appendSpine_eq_tailText hrest (hshown.insert hpair rfl (by simp +arith)) (by omega)]
termination_by 3 * sizeOf (Datum.pair first rest)
decreasing_by
  all_goals simp only [Datum.pair.sizeOf_spec]
  all_goals omega

/-- A list after one of its elements. -/
theorem appendSpine_eq_tailText {h : Heap} {style : Style} {budget : Nat}
    {shown : Std.TreeSet Nat} {out : String} {v : Value} {d : Datum} (hd : h.Denotes v d)
    (hshown : h.Surrounds shown d) (hbudget : 2 * (h.containers - shown.size) + 1 ≤ budget) :
    h.appendSpine style budget shown out false v = out ++ d.tailText style := by
  cases d with
  | nil =>
      simp only [Denotes] at hd
      subst hd
      cases budget <;> simp [appendSpine, Datum.tailText]
  | pair first rest =>
      obtain ⟨ref, p, rfl, hp, hfirst, hrest⟩ := hd
      rw [appendSpine_pair_eq_text hp hfirst hrest hshown (by omega)]
      simp [Datum.tailText, String.append_assoc]
  | _ =>
      obtain _ | budget := budget
      · omega
      · obtain ⟨hnil, hpair⟩ := hd.isNil_isPair (by simp) (by simp)
        rw [appendSpine_tail hnil hpair, append_eq_text hd hshown (by simp [hpair]; omega)]
        simp [Datum.tailText, String.append_assoc]
termination_by 3 * sizeOf d + 2
decreasing_by
  all_goals subst_vars
  all_goals try simp only [Datum.pair.sizeOf_spec]
  all_goals omega

/-- The elements of a vector. A space stands in front of all but the first. -/
theorem foldl_append_eq_elementTexts {h : Heap} {style : Style} {budget : Nat}
    {shown : Std.TreeSet Nat} {out : String} {isFirst : Bool} {values : List Value}
    {elements : List Datum} (hall : h.DenotesAll values elements)
    (hshown : ∀ d ∈ elements, h.Surrounds shown d)
    (hbudget : 2 * (h.containers - shown.size) + 1 ≤ budget) :
    (values.foldl
        (fun (out, first) x =>
          (h.append style budget shown (if first then out else out ++ " ") x, false))
        (out, isFirst)).1 =
      out ++ (if isFirst || elements.isEmpty then "" else " ") ++
        Datum.elementTexts style elements := by
  cases elements with
  | nil =>
      simp only [DenotesAll] at hall
      subst hall
      simp [Datum.elementTexts]
  | cons d rest =>
      obtain ⟨v, others, rfl, hv, hothers⟩ := hall
      have hpred : v.isPair.toNat ≤ 1 := by cases v.isPair <;> simp
      rw [List.foldl_cons]
      simp only
      rw [append_eq_text hv (hshown d (List.mem_cons_self ..)) (by omega),
        foldl_append_eq_elementTexts hothers
          (fun d hd => hshown d (List.mem_cons_of_mem _ hd)) hbudget]
      cases isFirst <;> cases rest <;> simp [Datum.elementTexts, String.append_assoc]
termination_by 3 * sizeOf elements
decreasing_by
  all_goals subst_vars
  all_goals simp only [List.cons.sizeOf_spec]
  all_goals omega

end

/-- The text of a value that unfolds to a datum is the text of the datum. -/
theorem text_of_denotes {h : Heap} {style : Style} {v : Value} {d : Datum}
    (hd : h.Denotes v d) : h.text style v = d.text style := by
  have hpred : v.isPair.toNat ≤ 1 := by cases v.isPair <;> simp
  rw [text, append_eq_text hd]
  · simp
  · intro key hkey
    simp at hkey
  · simp only [containers]
    omega

end Heap

end Scheme
