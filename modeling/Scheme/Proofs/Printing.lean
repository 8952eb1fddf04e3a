import Mathlib.Data.Finset.Card
import Mathlib.Data.Finset.SDiff
import Mathlib.Order.WellFounded
import Scheme.Proofs.Reachability
/-!
# The printer

The printer of values keeps the set of the containers it is showing: it enters a container when it
starts to show it and takes it out afterwards, and it writes `...` for a container that is in the
set. Here it is a relation between its states, with the text written so far, the set, the values it
has come upon, and the number of times it has written `...`.

The printer ends on every heap, with the text of `Heap.text`, and every part of it leaves the set
as it was. It writes `...` exactly on values inside which there is a cycle. Otherwise it does what
the printer does that keeps no set, so that shared structure is written in full wherever it stands.
It comes upon exactly the values inside the one it prints.
-/

namespace Scheme

/-- The state of the printer. -/
structure Printer where
  out : String := ""
  /-- The containers being shown. -/
  showing : Finset Value := ∅
  /-- The values come upon. -/
  met : Finset Value := ∅
  /-- How often `...` was written for a container being shown. -/
  cuts : Nat := 0

namespace Printer

def put (s : Printer) (text : String) : Printer :=
  { s with out := s.out ++ text }

def meet (s : Printer) (v : Value) : Printer :=
  { s with met := insert v s.met }

/-- Starts to show a container; a printer that keeps no set only comes upon it. -/
def enter (s : Printer) (keeps : Bool) (v : Value) : Printer :=
  { s.meet v with showing := if keeps then insert v s.showing else s.showing }

/-- Takes containers out of the set. -/
def leave (s : Printer) (vs : List Value) : Printer :=
  { s with showing := s.showing \ vs.toFinset }

/-- Writes `...` for a container. -/
def cut (s : Printer) (space : String) : Printer :=
  { s.put (space ++ "...") with cuts := s.cuts + 1 }

/-- What the printer has to do. -/
inductive Task where
  | value (v : Value)
  /-- The rest of a list, the pairs before it last first. -/
  | spine (before : List Value) (v : Value)
  /-- Elements of a vector, with the first one among them or not. -/
  | elements (first : Bool) (vs : List Value)

/-- The containers that a task takes out of the set when it is done. -/
def Task.held : Task → Finset Value
  | .spine before _ => before.toFinset
  | _ => ∅

/-- The values that a task shows. -/
def Task.values : Task → List Value
  | .value v | .spine _ v => [v]
  | .elements _ vs => vs

end Printer

namespace Heap

open Printer

/-- The space between elements. -/
def gap (first : Bool) : String :=
  if first then "" else " "

/-- The printer does a task between two states. -/
inductive Prints (h : Heap) (style : Style) (keeps : Bool) : Task → Printer → Printer → Prop where
  | atom {v : Value} {s : Printer} (hv : containerKey? v = none) :
      Prints h style keeps (.value v) s ((s.meet v).put (h.atomText style v))
  | vectorCut {ref : Ref .vector} {s : Printer} (hshowing : .vector ref ∈ s.showing) :
      Prints h style keeps (.value (.vector ref)) s (s.cut "")
  | vector {ref : Ref .vector} {s t : Printer} (hnew : .vector ref ∉ s.showing)
      (helements : Prints h style keeps (.elements true (h.vector ref).toList)
        ((s.enter keeps (.vector ref)).put "#(") t) :
      Prints h style keeps (.value (.vector ref)) s ((t.put ")").leave [.vector ref])
  | markCut {ref : Ref .pair} {mark : String} {body : Value} {s : Printer}
      (hmark : h.abbreviated? (h.pair ref) = some (mark, body)) (hshowing : .pair ref ∈ s.showing) :
      Prints h style keeps (.value (.pair ref)) s (s.cut "")
  | mark {ref : Ref .pair} {mark : String} {body : Value} {s t : Printer}
      (hmark : h.abbreviated? (h.pair ref) = some (mark, body)) (hnew : .pair ref ∉ s.showing)
      (hbody : Prints h style keeps (.value body)
        ((((s.enter keeps (.pair ref)).meet (h.pair ref).first).meet
          (h.pair ref).rest).meet .nil |>.put mark) t) :
      Prints h style keeps (.value (.pair ref)) s (t.leave [.pair ref])
  | list {ref : Ref .pair} {s t : Printer} (hplain : h.abbreviated? (h.pair ref) = none)
      (hspine : Prints h style keeps (.spine [] (.pair ref)) (s.put "(") t) :
      Prints h style keeps (.value (.pair ref)) s t
  | spineNil {before : List Value} {s : Printer} :
      Prints h style keeps (.spine before .nil) s (((s.meet .nil).put ")").leave before)
  | spineCut {before : List Value} {ref : Ref .pair} {s : Printer}
      (hshowing : .pair ref ∈ s.showing) :
      Prints h style keeps (.spine before (.pair ref)) s
        (((s.cut (gap before.isEmpty)).put ")").leave before)
  | spinePair {before : List Value} {ref : Ref .pair} {s t u : Printer}
      (hnew : .pair ref ∉ s.showing)
      (hfirst : Prints h style keeps (.value (h.pair ref).first)
        ((s.enter keeps (.pair ref)).put (gap before.isEmpty)) t)
      (hrest : Prints h style keeps (.spine (.pair ref :: before) (h.pair ref).rest) t u) :
      Prints h style keeps (.spine before (.pair ref)) s u
  | spineTail {before : List Value} {v : Value} {s t : Printer} (hnil : v ≠ .nil)
      (hpair : v.isPair = false) (htail : Prints h style keeps (.value v) (s.put " . ") t) :
      Prints h style keeps (.spine before v) s ((t.put ")").leave before)
  | noElements {first : Bool} {s : Printer} : Prints h style keeps (.elements first []) s s
  | element {first : Bool} {v : Value} {vs : List Value} {s t u : Printer}
      (hvalue : Prints h style keeps (.value v) (s.put (gap first)) t)
      (hothers : Prints h style keeps (.elements false vs) t u) :
      Prints h style keeps (.elements first (v :: vs)) s u

variable {h : Heap} {style : Style} {keeps : Bool} {task : Task} {s t u : Printer}

/-! ## Every part restores the set -/

theorem showing_enter_sdiff (keeps : Bool) {v : Value} (hnew : v ∉ s.showing) (vs : List Value) :
    (s.enter keeps v).showing \ (v :: vs).toFinset = s.showing \ vs.toFinset := by
  ext w
  by_cases heq : w = v
  · subst heq
    simp [hnew]
  · cases keeps <;> simp [enter, heq]

/-- Whatever the printer does, the containers being shown are the same afterwards, up to those that
the task had to take out. -/
theorem Prints.showing_eq (hprints : h.Prints style keeps task s t) :
    t.showing = s.showing \ task.held := by
  induction hprints with
  | atom | vectorCut | markCut | noElements => simp [Task.held, meet, put, cut]
  | vector hnew _ ih =>
      have hleft := showing_enter_sdiff keeps hnew []
      simpa [leave, put, ih, Task.held] using hleft
  | mark _ hnew _ ih =>
      have hleft := showing_enter_sdiff keeps hnew []
      simpa [leave, put, meet, ih, Task.held] using hleft
  | list _ _ ih => simpa [Task.held, put] using ih
  | spineNil | spineCut => simp [Task.held, meet, put, cut, leave]
  | @spinePair before ref _ _ _ hnew _ _ ihfirst ihrest =>
      have hleft := showing_enter_sdiff keeps hnew before
      simpa [ihrest, ihfirst, put, Task.held] using hleft
  | spineTail _ _ _ ih => simp [leave, put, ih, Task.held]
  | element _ _ ihvalue ihothers =>
      rw [ihothers, ihvalue]
      simp [Task.held, put]

theorem Prints.showing_value {v : Value} (hprints : h.Prints style keeps (.value v) s t) :
    t.showing = s.showing := by
  simpa [Task.held] using hprints.showing_eq

/-! ## The printer writes `...` on cycles only -/

/-- The containers being shown are around a value. -/
def Around (h : Heap) (s : Printer) (v : Value) : Prop :=
  ∀ c ∈ s.showing, Relation.TransGen h.Contains c v

theorem Around.enter {v w : Value} (haround : h.Around s v) (hw : h.Contains v w) :
    h.Around (s.enter keeps v) w := by
  intro c hc
  cases keeps with
  | false => exact (haround c hc).tail hw
  | true =>
      rcases Finset.mem_insert.1 hc with rfl | hc
      · exact .single hw
      · exact (haround c hc).tail hw

theorem Around.tail {v w : Value} (haround : h.Around s v) (hw : h.Contains v w) :
    h.Around s w :=
  fun c hc => (haround c hc).tail hw

/-- A container being shown around itself is on a cycle. -/
theorem Around.reachesCycle {v : Value} (haround : h.Around s v) (hv : v ∈ s.showing) :
    h.ReachesCycle v :=
  ⟨v, .refl, haround v hv⟩

theorem ReachesCycle.of_contains {v w : Value} (hcycle : h.ReachesCycle w) (hw : h.Contains v w) :
    h.ReachesCycle v := by
  obtain ⟨x, hreaches, hx⟩ := hcycle
  exact ⟨x, .head hw hreaches, hx⟩

/-- Where the printer writes `...`, there is a cycle. -/
theorem Prints.exists_cycle (hprints : h.Prints style keeps task s t)
    (haround : ∀ v ∈ task.values, h.Around s v) :
    t.cuts = s.cuts ∨ ∃ v ∈ task.values, h.ReachesCycle v := by
  induction hprints with
  | atom | spineNil | noElements => exact Or.inl rfl
  | vectorCut hshowing | markCut _ hshowing | spineCut hshowing =>
      have hself := haround _ (List.mem_singleton_self _)
      exact Or.inr ⟨_, List.mem_singleton_self _, hself.reachesCycle hshowing⟩
  | @vector ref _ _ _ _ ih =>
      have hself := haround _ (List.mem_singleton_self _)
      have hcontains : ∀ v ∈ (h.vector ref).toList, h.Contains (.vector ref) v :=
        fun v hv => .element (Array.mem_toList_iff.1 hv)
      refine (ih fun v hv => hself.enter (hcontains v hv)).imp id ?_
      rintro ⟨v, hv, hcycle⟩
      exact ⟨_, List.mem_singleton_self _, hcycle.of_contains (hcontains v hv)⟩
  | @mark ref mark body s t hmark _ _ ih =>
      have hself := haround _ (List.mem_singleton_self _)
      obtain ⟨_, q, -, hrest, -, -, hbody⟩ := abbreviated?_eq_some_iff.1 hmark
      have hq : h.Contains (.pair ref) (.pair q) := hrest ▸ .rest ref
      have hbody : h.Contains (.pair q) body := hbody ▸ .first q
      refine (ih ?_).imp id ?_
      · intro v hv
        rw [List.mem_singleton.1 hv]
        exact (hself.enter hq).tail hbody
      · rintro ⟨v, hv, hcycle⟩
        rw [List.mem_singleton.1 hv] at hcycle
        exact ⟨_, List.mem_singleton_self _, (hcycle.of_contains hbody).of_contains hq⟩
  | list _ _ ih => exact ih haround
  | @spinePair before ref s t u _ hfirst hrest ihfirst ihrest =>
      have hself := haround _ (List.mem_singleton_self _)
      have hshowing : t.showing = (s.enter keeps (.pair ref)).showing := hfirst.showing_value
      rcases ihfirst fun v hv => List.mem_singleton.1 hv ▸ hself.enter (.first ref) with
        hcuts | ⟨v, hv, hcycle⟩
      · have hrest : h.Around t (h.pair ref).rest :=
          fun c hc => hself.enter (.rest ref) c (hshowing ▸ hc)
        rcases ihrest fun v hv => List.mem_singleton.1 hv ▸ hrest with hcuts' | ⟨v, hv, hcycle⟩
        · exact Or.inl (hcuts'.trans hcuts)
        · rw [List.mem_singleton.1 hv] at hcycle
          exact Or.inr ⟨_, List.mem_singleton_self _, hcycle.of_contains (.rest ref)⟩
      · rw [List.mem_singleton.1 hv] at hcycle
        exact Or.inr ⟨_, List.mem_singleton_self _, hcycle.of_contains (.first ref)⟩
  | spineTail _ _ _ ih => exact ih haround
  | @element first v vs s t u hvalue _ ihvalue ihothers =>
      have hshowing : t.showing = s.showing := hvalue.showing_value
      rcases ihvalue fun w hw => List.mem_singleton.1 hw ▸ haround v (List.mem_cons_self ..) with
        hcuts | ⟨w, hw, hcycle⟩
      · rcases ihothers fun w hw c hc => haround w (List.mem_cons_of_mem _ hw) c (hshowing ▸ hc) with
          hcuts' | ⟨w, hw, hcycle⟩
        · exact Or.inl (hcuts'.trans hcuts)
        · exact Or.inr ⟨w, List.mem_cons_of_mem _ hw, hcycle⟩
      · rw [List.mem_singleton.1 hw] at hcycle
        exact Or.inr ⟨v, List.mem_cons_self .., hcycle⟩

/-! ## Without `...` the value is a tree -/

/-- What is inside the value goes down to values without elements. -/
def Grounded (h : Heap) (v : Value) : Prop :=
  Acc (fun w v => h.Contains v w) v

theorem not_contains {v w : Value} (hv : containerKey? v = none) : ¬h.Contains v w := by
  intro hw
  obtain ⟨key, hkey⟩ := hw.exists_key
  rw [hv] at hkey
  cases hkey

theorem grounded_atom {v : Value} (hv : containerKey? v = none) : h.Grounded v := by
  constructor
  intro w hw
  exact (not_contains hv hw).elim

theorem grounded_pair {ref : Ref .pair} (hfirst : h.Grounded (h.pair ref).first)
    (hrest : h.Grounded (h.pair ref).rest) : h.Grounded (.pair ref) := by
  constructor
  intro w hw
  rcases hw.of_pair with rfl | rfl
  · exact hfirst
  · exact hrest

theorem grounded_vector {ref : Ref .vector} (hall : ∀ v ∈ h.vector ref, h.Grounded v) :
    h.Grounded (.vector ref) :=
  ⟨_, fun w hw => hall w hw.of_vector⟩

theorem Grounded.of_reaches {v w : Value} (hv : h.Grounded v) (hreaches : h.Reaches v w) :
    h.Grounded w := by
  induction hreaches with
  | refl => exact hv
  | tail _ hstep ih => exact ih.inv hstep

theorem Grounded.not_reachesCycle {v : Value} (hv : h.Grounded v) : ¬h.ReachesCycle v := by
  rintro ⟨w, hreaches, hcycle⟩
  have hback : Relation.TransGen (fun w v => h.Contains v w) w w := hcycle.swap
  have hdown := (hv.of_reaches hreaches).transGen
  clear hreaches hcycle
  induction hdown with
  | intro x _ ih => exact ih x hback hback

theorem Prints.cuts_le (hprints : h.Prints style keeps task s t) : s.cuts ≤ t.cuts := by
  induction hprints with
  | atom | spineNil | noElements => exact Nat.le_refl _
  | vectorCut | markCut | spineCut => exact Nat.le_succ _
  | vector _ _ ih | mark _ _ _ ih | list _ _ ih | spineTail _ _ _ ih => exact ih
  | spinePair _ _ _ ihfirst ihrest => exact Nat.le_trans ihfirst ihrest
  | element _ _ ihvalue ihothers => exact Nat.le_trans ihvalue ihothers

/-- Where two tasks in a row write no `...`, neither does. -/
theorem Prints.eq_of_cuts {task' : Task} (hfirst : h.Prints style keeps task s t)
    (hnext : h.Prints style keeps task' t u) (hcuts : u.cuts = s.cuts) :
    t.cuts = s.cuts ∧ u.cuts = t.cuts := by
  have hle := hfirst.cuts_le
  have hle' := hnext.cuts_le
  omega

/-- Values that were written without `...` are grounded. -/
theorem Prints.grounded (hprints : h.Prints style keeps task s t) (hcuts : t.cuts = s.cuts) :
    ∀ v ∈ task.values, h.Grounded v := by
  induction hprints with
  | atom hv => exact fun v hv' => List.mem_singleton.1 hv' ▸ grounded_atom hv
  | spineNil => exact fun v hv => List.mem_singleton.1 hv ▸ grounded_atom rfl
  | noElements => exact fun v hv => by simp [Task.values] at hv
  | vectorCut | markCut | spineCut => exact absurd hcuts (Nat.succ_ne_self _)
  | vector _ _ ih =>
      intro v hv
      rw [List.mem_singleton.1 hv]
      exact grounded_vector fun w hw => ih hcuts w (Array.mem_toList_iff.2 hw)
  | @mark ref mark body s t hmark _ _ ih =>
      intro v hv
      rw [List.mem_singleton.1 hv]
      obtain ⟨head, q, hfirst, hrest, hnil, -, hbody⟩ := abbreviated?_eq_some_iff.1 hmark
      have hq : h.Grounded (.pair q) :=
        grounded_pair (hbody ▸ ih hcuts body (List.mem_singleton_self _))
          (hnil ▸ grounded_atom rfl)
      exact grounded_pair (hfirst ▸ grounded_atom rfl) (hrest ▸ hq)
  | list _ _ ih => exact ih hcuts
  | spinePair _ hfirst hrest ihfirst ihrest =>
      obtain ⟨hcuts, hcuts'⟩ := eq_of_cuts hfirst hrest hcuts
      intro v hv
      rw [List.mem_singleton.1 hv]
      exact grounded_pair (ihfirst hcuts _ (List.mem_singleton_self _))
        (ihrest hcuts' _ (List.mem_singleton_self _))
  | spineTail _ _ _ ih => exact ih hcuts
  | element hvalue hothers ihvalue ihothers =>
      obtain ⟨hcuts, hcuts'⟩ := eq_of_cuts hvalue hothers hcuts
      intro w hw
      rcases List.mem_cons.1 hw with rfl | hw
      · exact ihvalue hcuts _ (List.mem_singleton_self _)
      · exact ihothers hcuts' w hw

/-- Where the printer writes no `...`, a printer that keeps no set writes the same. -/
theorem Prints.plain (hprints : h.Prints style true task s t) (hcuts : t.cuts = s.cuts)
    (p : Printer) (hout : p.out = s.out) (hshowing : p.showing = ∅) :
    ∃ q, h.Prints style false task p q ∧ q.out = t.out := by
  induction hprints generalizing p with
  | atom hv => exact ⟨_, .atom hv, by simp [meet, put, hout]⟩
  | spineNil => exact ⟨_, .spineNil, by simp [meet, put, leave, hout]⟩
  | noElements => exact ⟨p, .noElements, hout⟩
  | vectorCut | markCut | spineCut => exact absurd hcuts (Nat.succ_ne_self _)
  | @vector ref _ _ _ _ ih =>
      obtain ⟨q, hq, hqout⟩ := ih hcuts ((p.enter false (.vector ref)).put "#(")
        (by simp [put, enter, meet, hout]) hshowing
      exact ⟨_, .vector (by simp [hshowing]) hq, by simp [leave, put, hqout]⟩
  | @mark ref mark body s t hmark _ _ ih =>
      obtain ⟨q, hq, hqout⟩ := ih hcuts
        ((((p.enter false (.pair ref)).meet (h.pair ref).first).meet
          (h.pair ref).rest).meet .nil |>.put mark) (by simp [put, enter, meet, hout]) hshowing
      exact ⟨_, .mark hmark (by simp [hshowing]) hq, by simp [leave, hqout]⟩
  | list hplain _ ih =>
      obtain ⟨q, hq, hqout⟩ := ih hcuts (p.put "(") (by simp [put, hout]) hshowing
      exact ⟨q, .list hplain hq, hqout⟩
  | @spinePair before ref s t u _ hfirst hrest ihfirst ihrest =>
      obtain ⟨hcuts, hcuts'⟩ := eq_of_cuts hfirst hrest hcuts
      obtain ⟨q, hq, hqout⟩ := ihfirst hcuts
        ((p.enter false (.pair ref)).put (gap before.isEmpty))
        (by simp [put, enter, meet, hout]) hshowing
      obtain ⟨r, hr, hrout⟩ := ihrest hcuts' q hqout (hq.showing_value.trans hshowing)
      exact ⟨r, .spinePair (by simp [hshowing]) hq hr, hrout⟩
  | spineTail hnil hpair _ ih =>
      obtain ⟨q, hq, hqout⟩ := ih hcuts (p.put " . ") (by simp [put, hout]) hshowing
      exact ⟨_, .spineTail hnil hpair hq, by simp [put, leave, hqout]⟩
  | @element first v vs s t u hvalue hothers ihvalue ihothers =>
      obtain ⟨hcuts, hcuts'⟩ := eq_of_cuts hvalue hothers hcuts
      obtain ⟨q, hq, hqout⟩ := ihvalue hcuts (p.put (gap first)) (by simp [put, hout]) hshowing
      obtain ⟨r, hr, hrout⟩ := ihothers hcuts' q hqout (hq.showing_value.trans hshowing)
      exact ⟨r, .element hq hr, hrout⟩

/-- The printer does one thing only. -/
theorem Prints.unique (hprints : h.Prints style keeps task s t)
    (hprints' : h.Prints style keeps task s u) : t = u := by
  induction hprints generalizing u with
  | atom hv =>
      cases hprints' with
      | atom => rfl
      | _ => cases hv
  | vectorCut hshowing =>
      cases hprints' with
      | atom hv => cases hv
      | vectorCut => rfl
      | vector hnew => exact absurd hshowing hnew
  | vector hnew _ ih =>
      cases hprints' with
      | atom hv => cases hv
      | vectorCut hshowing => exact absurd hshowing hnew
      | vector _ helements => rw [ih helements]
  | markCut hmark hshowing =>
      cases hprints' with
      | atom hv => cases hv
      | markCut => rfl
      | mark _ hnew => exact absurd hshowing hnew
      | list hplain => rw [hmark] at hplain; cases hplain
  | mark hmark hnew _ ih =>
      cases hprints' with
      | atom hv => cases hv
      | markCut _ hshowing => exact absurd hshowing hnew
      | mark hmark' _ hbody =>
          rw [hmark, Option.some.injEq] at hmark'
          cases hmark'
          rw [ih hbody]
      | list hplain => rw [hmark] at hplain; cases hplain
  | list hplain _ ih =>
      cases hprints' with
      | atom hv => cases hv
      | markCut hmark => rw [hplain] at hmark; cases hmark
      | mark hmark => rw [hplain] at hmark; cases hmark
      | list _ hspine => exact ih hspine
  | spineNil =>
      cases hprints' with
      | spineNil => rfl
      | spineTail hnil => exact absurd rfl hnil
  | spineCut hshowing =>
      cases hprints' with
      | spineCut => rfl
      | spinePair hnew => exact absurd hshowing hnew
      | spineTail _ hpair => cases hpair
  | spinePair hnew _ _ ihfirst ihrest =>
      cases hprints' with
      | spineCut hshowing => exact absurd hshowing hnew
      | spinePair _ hfirst hrest =>
          cases ihfirst hfirst
          exact ihrest hrest
      | spineTail _ hpair => cases hpair
  | spineTail hnil hpair _ ih =>
      cases hprints' with
      | spineNil => exact absurd rfl hnil
      | spineCut => cases hpair
      | spinePair => cases hpair
      | spineTail _ _ htail => rw [ih htail]
  | noElements =>
      cases hprints' with
      | noElements => rfl
  | element _ _ ihvalue ihothers =>
      cases hprints' with
      | element hvalue hothers =>
          cases ihvalue hvalue
          exact ihothers hothers

/-! ## The printer comes upon everything inside a value -/

theorem Prints.met_subset (hprints : h.Prints style keeps task s t) : s.met ⊆ t.met := by
  induction hprints with
  | atom | spineNil => exact Finset.subset_insert _ _
  | vectorCut | markCut | spineCut | noElements => exact Finset.Subset.refl _
  | vector _ _ ih => exact (Finset.subset_insert _ _).trans ih
  | mark _ _ _ ih =>
      intro x hx
      exact ih (by simp [put, meet, enter, hx])
  | list _ _ ih | spineTail _ _ _ ih => exact ih
  | spinePair _ _ _ ihfirst ihrest =>
      exact ((Finset.subset_insert _ _).trans ihfirst).trans ihrest
  | element _ _ ihvalue ihothers => exact ihvalue.trans ihothers

/-- The printer has come upon all that the values contain that it has come upon since. -/
structure Printer.Covers (h : Heap) (s t : Printer) (task : Task) : Prop where
  values : ∀ v ∈ task.values, v ∈ t.met
  contents : ∀ v ∈ t.met, v ∈ s.met ∨ ∀ w, h.Contains v w → w ∈ t.met

theorem subset_enter (keeps : Bool) {v : Value} (hshowing : s.showing ⊆ s.met) :
    (s.enter keeps v).showing ⊆ (s.enter keeps v).met := by
  cases keeps with
  | false => exact hshowing.trans (Finset.subset_insert _ _)
  | true => exact Finset.insert_subset_insert _ hshowing

theorem Prints.covers (hprints : h.Prints style keeps task s t) (hshowing : s.showing ⊆ s.met) :
    Printer.Covers h s t task := by
  induction hprints with
  | atom hv =>
      refine ⟨fun w hw => List.mem_singleton.1 hw ▸ Finset.mem_insert_self _ _, fun w hw => ?_⟩
      rcases Finset.mem_insert.1 hw with rfl | hw
      · exact Or.inr fun x hx => (not_contains hv hx).elim
      · exact Or.inl hw
  | spineNil =>
      refine ⟨fun w hw => List.mem_singleton.1 hw ▸ Finset.mem_insert_self _ _, fun w hw => ?_⟩
      rcases Finset.mem_insert.1 hw with rfl | hw
      · exact Or.inr fun x hx => (not_contains rfl hx).elim
      · exact Or.inl hw
  | noElements => exact ⟨fun v hv => by simp [Task.values] at hv, fun v hv => Or.inl hv⟩
  | vectorCut hself | markCut _ hself | spineCut hself =>
      exact ⟨fun v hv => List.mem_singleton.1 hv ▸ hshowing hself, fun v hv => Or.inl hv⟩
  | @vector ref s t _ helements ih =>
      have hcovers := ih (subset_enter keeps hshowing)
      have hself : .vector ref ∈ t.met := helements.met_subset (Finset.mem_insert_self _ _)
      refine ⟨fun v hv => List.mem_singleton.1 hv ▸ hself, fun v hv => ?_⟩
      rcases hcovers.contents v hv with hold | hall
      · rcases Finset.mem_insert.1 hold with rfl | hold
        · exact Or.inr fun w hw => hcovers.values w (Array.mem_toList_iff.2 hw.of_vector)
        · exact Or.inl hold
      · exact Or.inr hall
  | @mark ref mark body s t hmark _ hbody ih =>
      obtain ⟨head, q, hfirst, hrest, hnil, -, rfl⟩ := abbreviated?_eq_some_iff.1 hmark
      -- an abbreviation comes upon both pairs of its list, the symbol and the empty list at once
      have hcovers := ih (by
        intro v hv
        have := subset_enter keeps hshowing hv
        simp [put, meet, this])
      have hmet := hbody.met_subset
      simp only [hfirst, hrest, put, meet, Finset.insert_subset_iff] at hmet
      obtain ⟨hmetNil, hmetRest, hmetFirst, hmetEnter⟩ := hmet
      have hself : .pair ref ∈ t.met := hmetEnter (Finset.mem_insert_self _ _)
      refine ⟨fun v hv => List.mem_singleton.1 hv ▸ hself, fun v hv => ?_⟩
      rcases hcovers.contents v hv with hold | hall
      · simp only [hfirst, hrest, put, meet, enter, Finset.mem_insert] at hold
        rcases hold with rfl | rfl | rfl | rfl | hold
        · exact Or.inr fun x hx => (not_contains rfl hx).elim
        · refine Or.inr fun w hw => ?_
          rcases hw.of_pair with rfl | rfl
          · exact hcovers.values _ (List.mem_singleton_self _)
          · exact hnil ▸ hmetNil
        · exact Or.inr fun x hx => (not_contains rfl hx).elim
        · refine Or.inr fun w hw => ?_
          rcases hw.of_pair with rfl | rfl
          · exact hfirst ▸ hmetFirst
          · exact hrest ▸ hmetRest
        · exact Or.inl hold
      · exact Or.inr hall
  | list hplain _ ih => exact ⟨(ih hshowing).values, (ih hshowing).contents⟩
  | @spinePair before ref s t u _ hfirst hrest ihfirst ihrest =>
      have hcovers := ihfirst (subset_enter keeps hshowing)
      have hcovers' := ihrest (by
        rw [hfirst.showing_value]
        exact (subset_enter keeps hshowing).trans hfirst.met_subset)
      have hself : .pair ref ∈ u.met :=
        hrest.met_subset (hfirst.met_subset (Finset.mem_insert_self _ _))
      refine ⟨fun v hv => List.mem_singleton.1 hv ▸ hself, fun v hv => ?_⟩
      -- what was met is from the rest, from the first part, this pair, or from before
      rcases hcovers'.contents v hv with hold | hall
      · rcases hcovers.contents v hold with hold | hall
        · rcases Finset.mem_insert.1 hold with rfl | hold
          · refine Or.inr fun w hw => ?_
            rcases hw.of_pair with rfl | rfl
            · exact hrest.met_subset (hcovers.values _ (List.mem_singleton_self _))
            · exact hcovers'.values _ (List.mem_singleton_self _)
          · exact Or.inl hold
        · exact Or.inr fun w hw => hrest.met_subset (hall w hw)
      · exact Or.inr hall
  | spineTail hnil hpair _ ih => exact ⟨(ih hshowing).values, (ih hshowing).contents⟩
  | @element first v vs s t u hvalue hothers ihvalue ihothers =>
      have hcovers := ihvalue hshowing
      have hcovers' := ihothers (by
        rw [hvalue.showing_value]
        exact hshowing.trans hvalue.met_subset)
      refine ⟨fun w hw => ?_, fun w hw => ?_⟩
      · rcases List.mem_cons.1 hw with rfl | hw
        · exact hothers.met_subset (hcovers.values _ (List.mem_singleton_self _))
        · exact hcovers'.values w hw
      · rcases hcovers'.contents w hw with hold | hall
        · exact (hcovers.contents w hold).imp_right fun hall x hx => hothers.met_subset (hall x hx)
        · exact Or.inr hall

theorem Prints.reaches_of_mem_met (hprints : h.Prints style keeps task s t) {x : Value}
    (hx : x ∈ t.met) : x ∈ s.met ∨ ∃ v ∈ task.values, h.Reaches v x := by
  induction hprints with
  | atom | spineNil =>
      rcases Finset.mem_insert.1 hx with rfl | hx
      · exact Or.inr ⟨_, List.mem_singleton_self _, .refl⟩
      · exact Or.inl hx
  | vectorCut | markCut | spineCut | noElements => exact Or.inl hx
  | vector _ _ ih =>
      rcases ih hx with hx | ⟨v, hv, hreaches⟩
      · rcases Finset.mem_insert.1 hx with rfl | hx
        · exact Or.inr ⟨_, List.mem_singleton_self _, .refl⟩
        · exact Or.inl hx
      · have hcontains := Contains.element (Array.mem_toList_iff.1 hv)
        exact Or.inr ⟨_, List.mem_singleton_self _, .head hcontains hreaches⟩
  | @mark ref mark body s t hmark _ _ ih =>
      obtain ⟨head, q, hfirst, hrest, hnil, -, rfl⟩ := abbreviated?_eq_some_iff.1 hmark
      have hq : h.Contains (.pair ref) (.pair q) := hrest ▸ .rest ref
      refine (ih hx).elim (fun hx => ?_) fun ⟨v, hv, hreaches⟩ => Or.inr ?_
      · simp only [hrest, put, meet, enter, Finset.mem_insert] at hx
        rcases hx with rfl | rfl | rfl | rfl | hx
        · exact Or.inr ⟨_, List.mem_singleton_self _, .head hq (hnil ▸ .single (.rest q))⟩
        · exact Or.inr ⟨_, List.mem_singleton_self _, .single hq⟩
        · exact Or.inr ⟨_, List.mem_singleton_self _, .single (.first ref)⟩
        · exact Or.inr ⟨_, List.mem_singleton_self _, .refl⟩
        · exact Or.inl hx
      · rw [List.mem_singleton.1 hv] at hreaches
        exact ⟨_, List.mem_singleton_self _, .head hq (.head (.first q) hreaches)⟩
  | list _ _ ih | spineTail _ _ _ ih => exact ih hx
  | spinePair _ _ _ ihfirst ihrest =>
      rcases ihrest hx with hx | ⟨v, hv, hreaches⟩
      · rcases ihfirst hx with hx | ⟨v, hv, hreaches⟩
        · rcases Finset.mem_insert.1 hx with rfl | hx
          · exact Or.inr ⟨_, List.mem_singleton_self _, .refl⟩
          · exact Or.inl hx
        · rw [List.mem_singleton.1 hv] at hreaches
          exact Or.inr ⟨_, List.mem_singleton_self _, .head (.first _) hreaches⟩
      · rw [List.mem_singleton.1 hv] at hreaches
        exact Or.inr ⟨_, List.mem_singleton_self _, .head (.rest _) hreaches⟩
  | element _ _ ihvalue ihothers =>
      rcases ihothers hx with hx | ⟨v, hv, hreaches⟩
      · rcases ihvalue hx with hx | ⟨v, hv, hreaches⟩
        · exact Or.inl hx
        · rw [List.mem_singleton.1 hv] at hreaches
          exact Or.inr ⟨_, List.mem_cons_self .., hreaches⟩
      · exact Or.inr ⟨v, List.mem_cons_of_mem _ hv, hreaches⟩

/-- In showing a value, the printer comes upon exactly what the value reaches. -/
theorem Prints.mem_met_iff {v w : Value} (hprints : h.Prints style keeps (.value v) {} t) :
    w ∈ t.met ↔ h.Reaches v w := by
  constructor
  · intro hw
    rcases hprints.reaches_of_mem_met hw with hw | ⟨x, hx, hreaches⟩
    · simp at hw
    · rwa [List.mem_singleton.1 hx] at hreaches
  · intro hreaches
    have hcovers := hprints.covers (Finset.Subset.refl _)
    induction hreaches with
    | refl => exact hcovers.values v (List.mem_singleton_self v)
    | tail _ hstep ih =>
        rcases hcovers.contents _ ih with hempty | hall
        · simp at hempty
        · exact hall _ hstep

/-! ## The text of a value is what the printer writes -/

/-- The containers of the heap. -/
def cells (h : Heap) : Finset Value :=
  (Finset.range h.pairs.size).image (fun i => .pair ⟨i⟩) ∪
    (Finset.range h.vectors.size).image (fun i => .vector ⟨i⟩)

/-- How many containers there are that are not being shown. -/
def room (h : Heap) (showing : Finset Value) : Nat :=
  (h.cells \ showing).card

theorem room_le (h : Heap) (showing : Finset Value) :
    h.room showing ≤ h.pairs.size + h.vectors.size := by
  refine (Finset.card_le_card Finset.sdiff_subset).trans ?_
  refine (Finset.card_union_le _ _).trans (Nat.add_le_add ?_ ?_)
  · exact Finset.card_image_le.trans (by simp)
  · exact Finset.card_image_le.trans (by simp)

theorem mem_cells_pair {ref : Ref .pair} (href : ref.index < h.pairs.size) :
    .pair ref ∈ h.cells :=
  Finset.mem_union_left _ (Finset.mem_image.2 ⟨ref.index, Finset.mem_range.2 href, rfl⟩)

theorem mem_cells_vector {ref : Ref .vector} (href : ref.index < h.vectors.size) :
    .vector ref ∈ h.cells :=
  Finset.mem_union_right _ (Finset.mem_image.2 ⟨ref.index, Finset.mem_range.2 href, rfl⟩)

/-- To enter a container takes room for one. -/
theorem room_insert {v : Value} {showing : Finset Value} (hv : v ∈ h.cells)
    (hnew : v ∉ showing) : h.room (insert v showing) + 1 = h.room showing := by
  unfold room
  rw [Finset.sdiff_insert, Finset.card_erase_add_one]
  exact Finset.mem_sdiff.2 ⟨hv, hnew⟩

/-- The keys shown are those of the containers being shown. -/
def Marks (shown : Std.TreeSet Nat) (showing : Finset Value) : Prop :=
  ∀ v key, containerKey? v = some key → (shown.contains key = true ↔ v ∈ showing)

theorem marks_empty : Marks {} ∅ := by
  intro v key _
  simp

theorem Marks.insert {shown : Std.TreeSet Nat} {showing : Finset Value}
    (hmarks : Marks shown showing) {v : Value} {key : Nat} (hkey : containerKey? v = some key) :
    Marks (shown.insert key) (insert v showing) := by
  intro w other hother
  rw [Std.TreeSet.contains_insert, Bool.or_eq_true, Finset.mem_insert, hmarks w other hother]
  refine or_congr_left ?_
  rw [beq_iff_eq, Std.LawfulEqCmp.compare_eq_iff_eq]
  constructor
  · rintro rfl
    exact containerKey?_inj hother hkey
  · rintro rfl
    exact Option.some.inj (hkey.symm.trans hother)

theorem append_atom {budget : Nat} {shown : Std.TreeSet Nat} {out : String} {v : Value}
    (hv : containerKey? v = none) :
    h.append style budget shown out v = out ++ h.atomText style v := by
  cases budget <;> cases v <;> first | rfl | cases hv

theorem appendSpine_nil {budget : Nat} {shown : Std.TreeSet Nat} {out : String} {first : Bool} :
    h.appendSpine style budget shown out first .nil = out ++ ")" := by
  cases budget <;> rfl

/-- Within the budget, the printer writes values as `append` does. A list takes one step more
than its first pair. -/
def WritesValues (h : Heap) (style : Style) (budget : Nat) : Prop :=
  ∀ (shown : Std.TreeSet Nat) (s : Printer) (v : Value), Marks shown s.showing →
    2 * h.room s.showing + 1 + v.isPair.toNat ≤ budget →
    ∃ t, h.Prints style true (.value v) s t ∧ t.out = h.append style budget shown s.out v

/-- Within the budget, the printer writes the rest of a list as `appendSpine` does. -/
def WritesSpines (h : Heap) (style : Style) (budget : Nat) : Prop :=
  ∀ (shown : Std.TreeSet Nat) (s : Printer) (before : List Value) (v : Value),
    Marks shown s.showing → 2 * h.room s.showing + 2 ≤ budget + v.isPair.toNat →
    ∃ t, h.Prints style true (.spine before v) s t ∧
      t.out = h.appendSpine style budget shown s.out before.isEmpty v

theorem WritesValues.elements {budget : Nat} (hvalues : h.WritesValues style budget)
    {shown : Std.TreeSet Nat} (vs : List Value) (s : Printer) (first : Bool)
    (hmarks : Marks shown s.showing)
    (hbudget : ∀ v ∈ vs, 2 * h.room s.showing + 1 + v.isPair.toNat ≤ budget) :
    ∃ t, h.Prints style true (.elements first vs) s t ∧
      t.out = (vs.foldl
        (fun (out, first) x =>
          (h.append style budget shown (if first then out else out ++ " ") x, false))
        (s.out, first)).1 := by
  induction vs generalizing s first with
  | nil => exact ⟨s, .noElements, rfl⟩
  | cons v vs ih =>
      obtain ⟨t, hvalue, hout⟩ := hvalues shown (s.put (gap first)) v hmarks
        (hbudget v (List.mem_cons_self ..))
      have hshowing : t.showing = s.showing := hvalue.showing_value
      obtain ⟨u, hothers, hout'⟩ := ih t false (hshowing ▸ hmarks)
        (fun w hw => hshowing ▸ hbudget w (List.mem_cons_of_mem _ hw))
      refine ⟨u, .element hvalue hothers, ?_⟩
      rw [hout', hout, List.foldl_cons]
      cases first <;> simp [put, gap]

theorem index_lt_of_mem {ref : Ref .vector} {v : Value} (hv : v ∈ h.vector ref) :
    ref.index < h.vectors.size := by
  by_contra hge
  rw [vector, Array.getElem?_eq_none (Nat.le_of_not_lt hge)] at hv
  simp at hv

theorem index_lt_of_abbreviated? {ref : Ref .pair} {mark : String} {body : Value}
    (hmark : h.abbreviated? (h.pair ref) = some (mark, body)) : ref.index < h.pairs.size := by
  by_contra hge
  rw [pair, Array.getElem?_eq_none (Nat.le_of_not_lt hge)] at hmark
  simp [abbreviated?] at hmark

theorem Marks.contains_eq_false {shown : Std.TreeSet Nat} {showing : Finset Value}
    (hmarks : Marks shown showing) {v : Value} {key : Nat} (hkey : containerKey? v = some key)
    (hnew : v ∉ showing) : shown.contains key = false := by
  rw [Bool.eq_false_iff]
  exact fun hcontains => hnew ((hmarks v key hkey).1 hcontains)

theorem writesValues_succ {budget : Nat} (hvalues : h.WritesValues style budget)
    (hspines : h.WritesSpines style budget) : h.WritesValues style (budget + 1) := by
  intro shown s v hmarks hbudget
  cases v with
  | vector ref =>
      by_cases hshowing : .vector ref ∈ s.showing
      · refine ⟨_, .vectorCut hshowing, ?_⟩
        have hshown := (hmarks (.vector ref) _ rfl).2 hshowing
        simp [append, hshown, cut, put]
      · have hshown := hmarks.contains_eq_false rfl hshowing
        obtain ⟨t, helements, hout⟩ := hvalues.elements (h.vector ref).toList
          ((s.enter true (.vector ref)).put "#(") true (hmarks.insert rfl) (by
            intro v hv
            have hroom := room_insert
              (mem_cells_vector (index_lt_of_mem (Array.mem_toList_iff.1 hv))) hshowing
            have hpred : v.isPair.toNat ≤ 1 := Bool.toNat_le _
            simp only [put, enter, if_true]
            simp only [Value.isPair, Bool.toNat_false] at hbudget
            omega)
        refine ⟨_, .vector hshowing helements, ?_⟩
        simp only [append, hshown, leave, put, hout]
        simp [enter, meet]
  | pair ref =>
      simp only [Value.isPair, Bool.toNat_true] at hbudget
      cases hmark : h.abbreviated? (h.pair ref) with
      | none =>
          obtain ⟨t, hspine, hout⟩ := hspines shown (s.put "(") [] (.pair ref) hmarks
            (by simp only [put, Value.isPair, Bool.toNat_true]; omega)
          refine ⟨t, .list hmark hspine, ?_⟩
          simp [append, hmark, hout, put]
      | some abbreviation =>
          obtain ⟨mark, body⟩ := abbreviation
          by_cases hshowing : .pair ref ∈ s.showing
          · refine ⟨_, .markCut hmark hshowing, ?_⟩
            have hshown := (hmarks (.pair ref) _ rfl).2 hshowing
            simp [append, hmark, hshown, cut, put]
          · have hshown := hmarks.contains_eq_false rfl hshowing
            have hroom := room_insert (mem_cells_pair (index_lt_of_abbreviated? hmark)) hshowing
            have hpred : body.isPair.toNat ≤ 1 := Bool.toNat_le _
            obtain ⟨t, hbody, hout⟩ := hvalues (shown.insert (2 * ref.index))
              ((((s.enter true (.pair ref)).meet (h.pair ref).first).meet
                (h.pair ref).rest).meet .nil |>.put mark) body (hmarks.insert rfl)
              (by simp only [put, meet, enter, if_true]; omega)
            refine ⟨_, .mark hmark hshowing hbody, ?_⟩
            simp only [append, hmark, hshown, leave, hout]
            simp [put, enter, meet]
  | _ => exact ⟨_, .atom rfl, by simp [append, put, meet]⟩

theorem Prints.spinePair_nil {before : List Value} {ref : Ref .pair}
    (hp : h.pair ref = ⟨.nil, .nil⟩) (hnew : .pair ref ∉ s.showing) :
    h.Prints style keeps (.spine before (.pair ref)) s
      (((((((s.enter keeps (.pair ref)).put (gap before.isEmpty)).meet .nil).put "()").meet
        .nil).put ")").leave (.pair ref :: before)) :=
  .spinePair hnew (by rw [hp]; exact .atom rfl) (by rw [hp]; exact .spineNil)

theorem writesSpine_pair {budget : Nat} (hvalues : h.WritesValues style budget)
    (hspines : h.WritesSpines style budget) {shown : Std.TreeSet Nat} {before : List Value}
    {ref : Ref .pair} (hmarks : Marks shown s.showing)
    (hbudget : 2 * h.room s.showing ≤ budget) :
    ∃ t, h.Prints style true (.spine before (.pair ref)) s t ∧
      t.out = h.appendSpine style (budget + 1) shown s.out before.isEmpty (.pair ref) := by
  by_cases hshowing : .pair ref ∈ s.showing
  · refine ⟨_, .spineCut hshowing, ?_⟩
    have hshown := (hmarks (.pair ref) _ rfl).2 hshowing
    cases hfirst : before.isEmpty <;>
      simp [appendSpine, hshown, cut, put, leave, gap, String.append_assoc]
  · have hshown := hmarks.contains_eq_false rfl hshowing
    by_cases href : ref.index < h.pairs.size
    · have hroom := room_insert (mem_cells_pair href) hshowing
      have hpred : (h.pair ref).first.isPair.toNat ≤ 1 := Bool.toNat_le _
      obtain ⟨t, hfirst, hout⟩ := hvalues (shown.insert (2 * ref.index))
        ((s.enter true (.pair ref)).put (gap before.isEmpty)) (h.pair ref).first
        (hmarks.insert rfl) (by simp only [put, enter, if_true]; omega)
      have hshowing' : t.showing = insert (.pair ref) s.showing := hfirst.showing_value
      obtain ⟨u, hrest, hout'⟩ := hspines (shown.insert (2 * ref.index)) t
        (.pair ref :: before) (h.pair ref).rest (hshowing' ▸ hmarks.insert rfl)
        (by rw [hshowing']; omega)
      refine ⟨u, .spinePair hshowing hfirst hrest, ?_⟩
      cases hempty : before.isEmpty <;>
        simp [appendSpine, hshown, hout', hout, put, enter, meet, gap, hempty]
    · -- a pair that is not there shows as a pair of nils
      have hp : h.pair ref = ⟨.nil, .nil⟩ := by
        rw [pair, Array.getElem?_eq_none (Nat.le_of_not_lt href), Option.getD_none]
      refine ⟨_, Prints.spinePair_nil hp hshowing, ?_⟩
      cases hempty : before.isEmpty <;>
        simp [appendSpine, hshown, hp, append_atom (v := .nil) rfl, appendSpine_nil, atomText, put,
          enter, meet, leave, gap]

theorem writesSpines_succ {budget : Nat} (hvalues : h.WritesValues style budget)
    (hspines : h.WritesSpines style budget) : h.WritesSpines style (budget + 1) := by
  intro shown s before v hmarks hbudget
  by_cases hnil : v = .nil
  · subst hnil
    exact ⟨_, .spineNil, by simp [appendSpine, put, meet, leave]⟩
  · cases hpair : v.isPair with
    | true =>
        rw [hpair, Bool.toNat_true] at hbudget
        cases v <;> cases hpair
        exact writesSpine_pair hvalues hspines hmarks (by omega)
    | false =>
        rw [hpair, Bool.toNat_false] at hbudget
        obtain ⟨t, htail, hout⟩ := hvalues shown (s.put " . ") v hmarks
          (by rw [hpair, Bool.toNat_false]; simp only [put]; omega)
        refine ⟨_, .spineTail hnil hpair htail, ?_⟩
        have hisNil : v.isNil = false := by
          cases v <;> first | rfl | exact absurd rfl hnil
        rw [appendSpine_tail hisNil hpair]
        simp [put, leave, hout]

theorem writes (h : Heap) (style : Style) (budget : Nat) :
    h.WritesValues style budget ∧ h.WritesSpines style budget := by
  induction budget with
  | zero =>
      refine ⟨fun shown s v hmarks hbudget => ?_, fun shown s before v hmarks hbudget => ?_⟩
      · omega
      · have hpred : v.isPair.toNat ≤ 1 := Bool.toNat_le _
        omega
  | succ budget ih => exact ⟨writesValues_succ ih.1 ih.2, writesSpines_succ ih.1 ih.2⟩

/-- The printer ends, with the text of the value. -/
theorem exists_prints_text (h : Heap) (style : Style) (v : Value) :
    ∃ t, h.Prints style true (.value v) {} t ∧ t.out = h.text style v := by
  have hroom := h.room_le ∅
  have hpred : v.isPair.toNat ≤ 1 := Bool.toNat_le _
  exact (h.writes style _).1 {} {} v marks_empty (by simp only; omega)

/-- The printer that starts on a value writes `...` if and only if there is a cycle inside. -/
theorem Prints.cuts_pos_iff {v : Value} (hprints : h.Prints style keeps (.value v) {} t) :
    0 < t.cuts ↔ h.ReachesCycle v := by
  constructor
  · intro hcuts
    have haround : ∀ w ∈ Task.values (.value v), h.Around {} w := fun w _ c hc => by simp at hc
    rcases hprints.exists_cycle haround with hnone | ⟨w, hw, hcycle⟩
    · exact absurd hnone (Nat.ne_of_gt hcuts)
    · rwa [List.mem_singleton.1 hw] at hcycle
  · intro hcycle
    refine Nat.pos_of_ne_zero fun hnone => ?_
    exact (hprints.grounded hnone v (List.mem_singleton_self v)).not_reachesCycle hcycle

/-- On every heap the printer ends, and in one way, with the text of the value; every value that it
shows on the way leaves the containers being shown as they were; and it writes `...` if and only if
there is a cycle inside the value. If there is none, the printer that keeps no set ends with the
same text. -/
theorem text_is_printed (h : Heap) (style : Style) (v : Value) :
    (∃ last, (∀ t, h.Prints style true (.value v) {} t ↔ t = last) ∧
      last.out = h.text style v ∧ (0 < last.cuts ↔ h.ReachesCycle v)) ∧
    (∀ w s t, h.Prints style true (.value w) s t → t.showing = s.showing) ∧
    (¬h.ReachesCycle v →
      ∃ last, (∀ t, h.Prints style false (.value v) {} t ↔ t = last) ∧
        last.out = h.text style v) := by
  obtain ⟨last, hprints, hout⟩ := h.exists_prints_text style v
  refine ⟨⟨last, fun t => ⟨fun ht => ht.unique hprints, fun ht => ht ▸ hprints⟩, hout,
    hprints.cuts_pos_iff⟩, fun w s t hprints => hprints.showing_value, fun hnone => ?_⟩
  have hcuts : last.cuts = 0 :=
    Nat.eq_zero_of_not_pos fun hpos => hnone (hprints.cuts_pos_iff.1 hpos)
  obtain ⟨plain, hplain, hplainOut⟩ := hprints.plain hcuts {} rfl rfl
  exact ⟨plain, fun t => ⟨fun ht => ht.unique hplain, fun ht => ht ▸ hplain⟩,
    hplainOut.trans hout⟩

end Heap

end Scheme
