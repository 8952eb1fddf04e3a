import Scheme.Proofs.RecursiveBindings
import Scheme.Proofs.WrittenTexts
/-!
# Forms read in a new interpreter

When a new interpreter has read a form, that form is yet to be replaced, and so are the calls of
transformers in the code of the prelude. All else in the prelude and in the form stays as it is.
-/

namespace Scheme

/-- A pair that is a template. -/
def Pair.isTemplate (p : Pair) : Bool :=
  p.first = .symbol .quasiquote && p.rest.isPair

/-- The local bindings in the prelude. -/
def Prelude.bindingForms : List Datum :=
  [recursionText, iterationText, makerText, valueText]

namespace Datum

/-- Whether a pair of these parts is a template. -/
def isTemplate : Datum → Datum → Bool
  | .symbol s, .pair _ _ => s.name == "quasiquote"
  | _, _ => false

/-- Not one of the local bindings in the prelude. -/
def isPart (d : Datum) : Bool :=
  !Prelude.bindingForms.any d.isSame

/-- A part of code that is not to be replaced, but for conjunctions. -/
def isSettled : Datum → Bool
  | .pair first rest => !isTemplate first rest && (pair first rest).isPart
  | _ => true

/-- A part of code in which only templates are to be replaced. -/
def isWritten : Datum → Bool
  | .pair first rest => !isConjunction first rest && (!first.isName "quasiquote" || isTemplate first rest) &&
      (pair first rest).isPart
  | .character _ | .string _ | .vector _ => false
  | _ => true

/-- A list whose pairs are not to be replaced. -/
def isSpine : Datum → Bool
  | .pair first rest => (pair first rest).isWritten && !first.isName "quasiquote" && rest.isSpine
  | _ => true

end Datum

namespace Heap

variable {h : Heap} {r : Ref .pair} {v : Value} {d : Datum}

theorem Denotes.isTemplate_eq {p : Pair} {first rest : Datum} (hfirst : h.Denotes p.first first)
    (hrest : h.Denotes p.rest rest) : p.isTemplate = Datum.isTemplate first rest := by
  obtain ⟨a, b⟩ := p
  refine Bool.eq_iff_iff.2 ⟨fun hp => ?_, fun hd => ?_⟩
  · simp only [Pair.isTemplate, Bool.and_eq_true, decide_eq_true_eq] at hp
    obtain ⟨rfl, hpair⟩ := hp
    obtain ⟨r, rfl⟩ : ∃ r, b = .pair r := by
      cases b <;> first | exact ⟨_, rfl⟩ | cases hpair
    obtain rfl := hfirst.eq_symbol
    obtain ⟨_, _, _, rfl, -⟩ := hrest.exists_pair
    rfl
  · unfold Datum.isTemplate at hd
    split at hd
    · obtain ⟨r, -, rfl, -⟩ := hrest
      cases hfirst
      rename_i s _ _
      obtain ⟨name⟩ := s
      obtain rfl : name = "quasiquote" := eq_of_beq hd
      rfl
    · cases hd

theorem Denotes.ne_symbol {s : String} (hv : h.Denotes v d) (hs : d.isName s = false) :
    v ≠ .symbol ⟨s⟩ := by
  rintro rfl
  rw [hv.eq_symbol] at hs
  simp [Datum.isName] at hs

/-- What holds everywhere in a text holds of the pairs that it lies in. -/
theorem Within.exists_everywhere {test : Datum → Bool} (hr : h.Within r v) (hv : h.Denotes v d)
    (hd : d.everywhere test = true) : ∃ d', h.Denotes (.pair r) d' ∧ test d' = true := by
  induction hr generalizing d with
  | here =>
      obtain ⟨first, rest, _, rfl, -⟩ := hv.exists_pair
      simp only [Datum.everywhere, Bool.and_eq_true] at hd
      exact ⟨_, hv, hd.1.1⟩
  | @first r' p hp _ ih =>
      obtain ⟨first, rest, _, rfl, hp', hfirst, -⟩ := hv.exists_pair
      cases Option.some.inj (hp.symm.trans hp')
      simp only [Datum.everywhere, Bool.and_eq_true] at hd
      exact ih hfirst hd.1.2
  | @rest r' p hp _ ih =>
      obtain ⟨first, rest, _, rfl, hp', -, hrest⟩ := hv.exists_pair
      cases Option.some.inj (hp.symm.trans hp')
      simp only [Datum.everywhere, Bool.and_eq_true] at hd
      exact ih hrest hd.2

theorem denotes_pair {p : Pair} {first rest : Datum} (hp : h.pairs[r.index]? = some p)
    (hfirst : h.Denotes p.first first) (hrest : h.Denotes p.rest rest) :
    h.Denotes (.pair r) (.pair first rest) :=
  ⟨r, p, rfl, hp, hfirst, hrest⟩

/-- Code lies in pairs of a kind if its pairs are of this kind, by what is written in them. -/
theorem laidOut_of_denotes {cell : Ref .pair → Pair → Prop} (hcell : ∀ r p first rest,
      h.pairs[r.index]? = some p → h.Denotes p.first first → h.Denotes p.rest rest →
      (Datum.pair first rest).isWritten = true → cell r p)
    {v : Value} {d : Datum} (hv : h.Denotes v d) (hd : d.everywhere Datum.isWritten = true) :
    LaidOut cell v d := by
  cases d with
  | pair first rest =>
      obtain ⟨r, p, rfl, hp, hfirst, hrest⟩ := hv
      simp only [Datum.everywhere, Bool.and_eq_true] at hd
      exact ⟨r, p, rfl, hcell r p first rest hp hfirst hrest hd.1.1,
        laidOut_of_denotes hcell hfirst hd.1.2, laidOut_of_denotes hcell hrest hd.2⟩
  | character | string | vector => simp [Datum.everywhere, Datum.isWritten] at hd
  | _ => exact hv
termination_by structural d

/-- The pairs of a list are among those that it is made of. -/
theorem items_within {cell : Ref .pair → Pair → Prop} {xs : List Value}
    (hcell : ∀ r p, cell r p → h.pairs[r.index]? = some p) (hv : Items cell v xs) :
    Items (fun r p => cell r p ∧ h.Within r v) v xs := by
  induction hv with
  | nil => exact .nil
  | cons hr _ ih =>
      exact .cons ⟨hr, .here⟩ (ih.mono fun r p hr' => ⟨hr'.1, .rest (hcell _ _ hr) hr'.2⟩)

theorem InCodeOf.within {name : Symbol} {r' : Ref .pair} {p : Pair} (hr : h.InCodeOf name r)
    (hp : h.pairs[r.index]? = some p) (hr' : h.Within r' p.rest) : h.InCodeOf name r' := by
  obtain ⟨owner, c, hname, hwithin⟩ := hr
  refine ⟨owner, c, hname, ?_⟩
  generalize (h.closure c).body = v at hwithin
  induction hwithin with
  | here => exact .rest hp hr'
  | first hp' _ ih => exact .first hp' ih
  | rest hp' _ ih => exact .rest hp' ih

/-- What a value is made of is there from the start. -/
theorem Within.of_extends {h' : Heap} (hr : h'.Within r v) (hv : h.Denotes v d) (hext : h.Extends h') :
    h.Within r v := by
  induction hr generalizing d with
  | here => exact .here
  | @first r' p hp _ ih =>
      obtain ⟨first, rest, q, rfl, hq, hfirst, -⟩ := hv.exists_pair
      cases Option.some.inj (hp.symm.trans (hext.pairs _ _ hq))
      exact .first hq (ih hfirst)
  | @rest r' p hp _ ih =>
      obtain ⟨first, rest, q, rfl, hq, -, hrest⟩ := hv.exists_pair
      cases Option.some.inj (hp.symm.trans (hext.pairs _ _ hq))
      exact .rest hq (ih hrest)

/-- The pairs of a datum that is built are new. -/
theorem Within.of_build (h : Heap) (d : Datum) (hr : (h.build d).2.Within r (h.build d).1) :
    h.pairs.size ≤ r.index ∧ r.index < (h.build d).2.pairs.size := by
  cases d with
  | pair first rest =>
      have hext := extends_cons ((h.build first).2.build rest).2 (h.build first).1
        ((h.build first).2.build rest).1
      have hfirst := pairCount_le_size h first
      have hrest := pairCount_le_size (h.build first).2 rest
      have hsize : (h.build (.pair first rest)).2.pairs.size =
          ((h.build first).2.build rest).2.pairs.size + 1 := by simp [build, cons]
      have hcell : (h.build (.pair first rest)).2.pairs[
          ((h.build first).2.build rest).2.pairs.size]? =
            some ⟨(h.build first).1, ((h.build first).2.build rest).1⟩ := by simp [build, cons]
      cases hr with
      | here =>
          constructor
          · change _ ≤ ((h.build first).2.build rest).2.pairs.size
            omega
          · change ((h.build first).2.build rest).2.pairs.size < _
            omega
      | @first _ p hp hr =>
          cases Option.some.inj (hcell.symm.trans hp)
          have hbounds := Within.of_build h first (hr.of_extends (h.denotes_build first)
            ((extends_build _ rest).trans hext))
          omega
      | @rest _ p hp hr =>
          cases Option.some.inj (hcell.symm.trans hp)
          have hbounds := Within.of_build (h.build first).2 rest
            (hr.of_extends ((h.build first).2.denotes_build rest) hext)
          omega
  | _ => nomatch hr
termination_by structural d

/-- The first pair of a datum that is built comes after all others. -/
theorem exists_built (h : Heap) (first rest : Datum) : ∃ site p,
    (h.build (.pair first rest)).1 = .pair site ∧
    (h.build (.pair first rest)).2.pairs[site.index]? = some p ∧
    (h.build (.pair first rest)).2.Denotes p.first first ∧
    (h.build (.pair first rest)).2.Denotes p.rest rest ∧
    ∀ r, (h.build (.pair first rest)).2.Within r p.first ∨
      (h.build (.pair first rest)).2.Within r p.rest → h.pairs.size ≤ r.index ∧ r ≠ site := by
  have hext := extends_cons ((h.build first).2.build rest).2 (h.build first).1
    ((h.build first).2.build rest).1
  have hsize := pairCount_le_size h first
  have hsize' := pairCount_le_size (h.build first).2 rest
  have hfirst := h.denotes_build first
  have hrest := (h.build first).2.denotes_build rest
  have hext' := (extends_build (h.build first).2 rest).trans hext
  refine ⟨⟨((h.build first).2.build rest).2.pairs.size⟩, ⟨_, _⟩, rfl, by simp [build, cons],
    hfirst.extend hext', hrest.extend hext, fun r hr => ?_⟩
  suffices hbounds : h.pairs.size ≤ r.index ∧
      r.index < ((h.build first).2.build rest).2.pairs.size from
    ⟨hbounds.1, fun heq => by rw [heq] at hbounds; exact Nat.lt_irrefl _ hbounds.2⟩
  rcases hr with hr | hr
  · have hbounds := Within.of_build h first (hr.of_extends hfirst hext')
    omega
  · have hbounds := Within.of_build (h.build first).2 rest (hr.of_extends hrest hext)
    omega

end Heap

namespace World

variable {r : Ref .pair} {p : Pair}

/-- A pair of the prelude that is replaced when it is evaluated: a conjunction, a template, or code of
a transformer that begins with local bindings. -/
def IsCall (r : Ref .pair) : Prop :=
  (∃ p, prelude.pairs[r.index]? = some p ∧ (p.isConjunction = true ∨ p.isTemplate = true)) ∨
    ∃ c ∈ [(⟨5⟩ : Ref .closure), ⟨7⟩], (prelude.closure c).body = .pair r

/-- The closure for local bindings. -/
theorem closure_bindings : ∃ body name,
    prelude.closures[3]? = some ⟨⟨[⟨"bindings"⟩], some ⟨"body"⟩⟩, body, .global, name⟩ ∧
      prelude.Denotes body bindingText :=
  closure_prelude (c := ⟨3⟩) (.tail _ (.tail _ (.tail _ (.head _))))

/-- The closure for recursive bindings. -/
theorem closure_recursion : ∃ body name,
    prelude.closures[5]? = some ⟨⟨[⟨"bindings"⟩], some ⟨"body"⟩⟩, body, .global, name⟩ ∧
      prelude.Denotes body recursionText :=
  closure_prelude (c := ⟨5⟩) (.tail _ (.tail _ (.tail _ (.tail _ (.head _)))))

/-- The closure for iterations. -/
theorem closure_iteration : ∃ body name,
    prelude.closures[7]? = some ⟨⟨[⟨"bindings"⟩, ⟨"test-and-result"⟩], some ⟨"body"⟩⟩, body, .global,
      name⟩ ∧ prelude.Denotes body iterationText :=
  closure_prelude (c := ⟨7⟩) (.tail _ (.tail _ (.tail _ (.tail _ (.tail _ (.head _))))))

/-- The code of transformers that begins with local bindings is that of the two texts. -/
theorem denotes_of_isCall {c : Ref .closure} (hc : c ∈ [(⟨5⟩ : Ref .closure), ⟨7⟩]) :
    prelude.Denotes (prelude.closure c).body recursionText ∨
      prelude.Denotes (prelude.closure c).body iterationText := by
  simp only [List.mem_cons, List.not_mem_nil, or_false] at hc
  rcases hc with rfl | rfl
  · obtain ⟨body, name, hclosure, hbody⟩ := closure_recursion
    rw [Heap.closure, hclosure]
    exact Or.inl hbody
  · obtain ⟨body, name, hclosure, hbody⟩ := closure_iteration
    rw [Heap.closure, hclosure]
    exact Or.inr hbody

/-- Pairs of the prelude that are replaced when they are evaluated: all conjunctions, all templates,
and some of the local bindings. -/
structure AreCalls (calls : Ref .pair → Prop) : Prop where
  all : ∀ r p, prelude.pairs[r.index]? = some p → p.isConjunction = true ∨ p.isTemplate = true →
    calls r
  only : ∀ r, calls r → (∃ p, prelude.pairs[r.index]? = some p ∧
    (p.isConjunction = true ∨ p.isTemplate = true)) ∨
      ∃ d ∈ Prelude.bindingForms, prelude.Denotes (.pair r) d

theorem areCalls_isCall : AreCalls IsCall where
  all _ p hp hcall := Or.inl ⟨p, hp, hcall⟩
  only r hr := by
    refine hr.imp_right fun ⟨c, hc, hbody⟩ => ?_
    rcases denotes_of_isCall hc with htext | htext
    · exact ⟨_, .head _, hbody ▸ htext⟩
    · exact ⟨_, .tail _ (.head _), hbody ▸ htext⟩

section Calls

variable {calls : Ref .pair → Prop} (hcalls : AreCalls calls)
include hcalls

theorem AreCalls.lt (hr : calls r) : r.index < prelude.pairs.size := by
  rcases hcalls.only r hr with ⟨p, hp, -⟩ | ⟨d, -, hd⟩
  · exact (Array.getElem?_eq_some_iff.1 hp).1
  · exact hd.has

/-- Pairs of the prelude that are neither conjunctions nor templates nor such code stay. -/
theorem AreCalls.not_call {d : Datum} (hp : prelude.pairs[r.index]? = some p)
    (hd : prelude.Denotes (.pair r) d) (hpart : d.isPart = true) (hconjunction : p.isConjunction = false)
    (htemplate : p.isTemplate = false) : ¬ calls r := by
  intro hr
  rcases hcalls.only r hr with ⟨q, hq, hcall⟩ | ⟨d', hd', htext⟩
  · cases Option.some.inj (hp.symm.trans hq)
    simp [hconjunction, htemplate] at hcall
  · obtain rfl := Heap.denotes_unique hd htext
    have hself : ∀ d ∈ Prelude.bindingForms, d.isSame d = true := by decide
    simp only [Datum.isPart, Bool.not_eq_true', List.any_eq_false] at hpart
    exact hpart d hd' (hself d hd')

/-- The code that expands conjunctions and templates stays, but for conjunctions in it. -/
theorem AreCalls.not_call_of_inExpanders (hr : prelude.InExpanders r)
    (hp : prelude.pairs[r.index]? = some p) (hplain : p.isConjunction = false) : ¬ calls r := by
  have hsettled : ∃ d, prelude.Denotes (.pair r) d ∧ d.isSettled = true := by
    rcases hr with ⟨owner, c, hname, hwithin⟩ | ⟨owner, c, hname, hwithin⟩
    · obtain ⟨body, name, hclosure, hbody⟩ := closure_conjunction
      cases hname.symm.trans (locate?_prelude (v := .transformer ⟨1⟩) (by decide))
      rw [Heap.closure, hclosure] at hwithin
      exact hwithin.exists_everywhere hbody (by decide +kernel)
    · obtain ⟨body, name, hclosure, hbody⟩ := closure_quasiquote
      cases hname.symm.trans (locate?_prelude (v := .transformer ⟨2⟩) (by decide))
      rw [Heap.closure, hclosure] at hwithin
      exact hwithin.exists_everywhere hbody (by decide +kernel)
  obtain ⟨d, hd, hsettled⟩ := hsettled
  obtain ⟨first, rest, q, rfl, hq, hfirst, hrest⟩ := hd.exists_pair
  cases Option.some.inj (hp.symm.trans hq)
  simp only [Datum.isSettled, Bool.and_eq_true, Bool.not_eq_true'] at hsettled
  exact hcalls.not_call hp hd hsettled.2 hplain ((hfirst.isTemplate_eq hrest).trans hsettled.1)

end Calls

end World

namespace Moment

/-- A new interpreter that has read a form which is to be replaced, and so are these pairs of the
prelude. -/
def reading (calls : Ref .pair → Prop) (host : Host) (d : Datum) : Moment where
  world := { World.new host with heap := (World.prelude.build d).2 }
  known r := r.index < (World.prelude.build d).2.pairs.size ∧
    ¬ ((World.prelude.build d).1 = .pair r ∨ calls r)
  sites r := r.index < (World.prelude.build d).2.pairs.size ∧
    ((World.prelude.build d).1 = .pair r ∨ calls r)
  apart _ hsite hknown := hknown.2 hsite.2
  bounds _ hr := hr.elim And.left And.left

/-- A new interpreter that has read a form which is to be replaced. -/
def written (host : Host) (d : Datum) : Moment where
  world := { World.new host with heap := (World.prelude.build d).2 }
  known r := r.index < (World.prelude.build d).2.pairs.size ∧
    ¬ ((World.prelude.build d).1 = .pair r ∨ World.IsCall r)
  sites r := r.index < (World.prelude.build d).2.pairs.size ∧
    ((World.prelude.build d).1 = .pair r ∨ World.IsCall r)
  apart _ hsite hknown := hknown.2 hsite.2
  bounds _ hr := hr.elim And.left And.left

variable {host : Host} {d text : Datum} {r site : Ref .pair} {p : Pair} {v : Value}
  {calls : Ref .pair → Prop}

theorem getElem?_reading (calls : Ref .pair → Prop) (host : Host) (d : Datum)
    (hp : World.prelude.pairs[r.index]? = some p) :
    (reading calls host d).heap.pairs[r.index]? = some p :=
  (World.prelude.extends_build d).pairs _ _ hp

theorem cell_of_prelude (hp : World.prelude.pairs[r.index]? = some p) (hr : ¬ calls r) :
    (reading calls host d).Cell r p := by
  have hold := getElem?_reading calls host d hp
  refine ⟨⟨(Array.getElem?_eq_some_iff.1 hold).1, ?_⟩, hold⟩
  rintro (hsite | hcall)
  · have hlt := (Array.getElem?_eq_some_iff.1 hp).1
    have hle := Heap.size_le_of_build hsite
    omega
  · exact hr hcall

theorem site_of_prelude (hp : World.prelude.pairs[r.index]? = some p) (hr : calls r) :
    (reading calls host d).sites r :=
  ⟨(Array.getElem?_eq_some_iff.1 (getElem?_reading calls host d hp)).1, Or.inr hr⟩

section Reading

variable (hcalls : World.AreCalls calls)
include hcalls

theorem continues_reading (host : Host) (d : Datum) :
    (reading calls host d).Continues World.prelude where
  cells r p hin hp hplain := cell_of_prelude hp (hcalls.not_call_of_inExpanders hin hp hplain)
  conjunctions r p xs hin hp hconjunction hlists := by
    obtain ⟨d', hd', hcode⟩ := World.exists_code_prelude hin
    obtain ⟨first, rest, q, rfl, hq, hfirst, hrest⟩ := hd'.exists_pair
    cases Option.some.inj (hp.symm.trans hq)
    have hform := (hfirst.isConjunction_eq hrest).symm.trans hconjunction
    have hoperands : rest.areOperands = true := by
      simpa [Datum.isCode, Datum.areOperands, hform] using hcode
    have hhead : p.first = .symbol ⟨"and"⟩ := by
      simp only [Pair.isConjunction, Bool.and_eq_true, decide_eq_true_eq] at hconjunction
      exact hconjunction.1
    have hsite : (reading calls host d).sites r :=
      site_of_prelude hp (hcalls.all r p hp (Or.inl hconjunction))
    have hold := getElem?_reading calls host d hp
    have hwithin := Heap.items_within (fun _ _ hr' => hr'.1) (hrest.operands hoperands hlists)
    obtain ⟨_, b⟩ := p
    obtain rfl := hhead
    refine .site ⟨hsite, hold⟩ (hwithin.mono fun r' p' hr' => ?_)
    have hin' : World.prelude.InExpanders r' := hin.imp (·.within hp hr'.2) (·.within hp hr'.2)
    exact cell_of_prelude hr'.1.1 (hcalls.not_call_of_inExpanders hin' hr'.1.1 hr'.1.2)
  closures i c hc := by
    change (World.prelude.build d).2.closures[i]? = some c
    rwa [(World.prelude.scopes_build d).2]
  names name owner v hv := by
    refine Heap.locateWithin_mono (fun i s hs => ?_) (Nat.le_refl _) hv
    change (World.prelude.build d).2.scopes[i]? = some s
    rwa [(World.prelude.scopes_build d).1]

theorem lies_of_isWritten {first rest : Datum} (hp : World.prelude.pairs[r.index]? = some p)
    (hfirst : World.prelude.Denotes p.first first) (hrest : World.prelude.Denotes p.rest rest)
    (hwritten : (Datum.pair first rest).isWritten = true) : (reading calls host d).Lies r p := by
  simp only [Datum.isWritten, Bool.and_eq_true, Bool.or_eq_true, Bool.not_eq_true'] at hwritten
  obtain ⟨⟨hconjunction, htemplate⟩, hpart⟩ := hwritten
  have hconjunction' := (hfirst.isConjunction_eq hrest).trans hconjunction
  have htemplate' := hfirst.isTemplate_eq hrest
  by_cases hhead : p.first = .symbol .quasiquote
  · have hname : first.isName "quasiquote" = true := by
      rw [hhead] at hfirst
      rw [hfirst.eq_symbol]
      rfl
    unfold Lies
    rw [if_pos hhead]
    refine ⟨site_of_prelude hp (hcalls.all r p hp (Or.inr ?_)), getElem?_reading calls host d hp⟩
    exact htemplate'.trans (htemplate.resolve_left (by simp [hname]))
  · have hplain : p.isTemplate = false := by simp [Pair.isTemplate, hhead]
    have hstays := hcalls.not_call hp (Heap.denotes_pair hp hfirst hrest) hpart hconjunction' hplain
    exact (cell_of_prelude hp hstays).lies hhead

/-- Code of the prelude in which only templates are to be replaced. -/
theorem lies_of_prelude {v : Value} {text : Datum} (hv : World.prelude.Denotes v text)
    (htext : text.everywhere Datum.isWritten = true) : LaidOut (reading calls host d).Lies v text :=
  Heap.laidOut_of_denotes (fun _ _ _ _ => lies_of_isWritten hcalls) hv htext

/-- The pairs of a list in the prelude stay, whatever its elements are. -/
theorem exists_items (host : Host) (d : Datum) {v : Value} (ds : List Datum)
    (hv : World.prelude.Denotes v (.list ds)) (hds : (Datum.list ds).isSpine = true) :
    ∃ xs, Items (reading calls host d).Cell v xs ∧ List.Forall₂ World.prelude.Denotes xs ds := by
  induction ds generalizing v with
  | nil =>
      obtain rfl : v = .nil := hv
      exact ⟨[], .nil, .nil⟩
  | cons first ds ih =>
      obtain ⟨r, p, rfl, hp, hfirst, hrest⟩ := hv
      have hds : ((Datum.pair first (.list ds)).isWritten && !first.isName "quasiquote" &&
        (Datum.list ds).isSpine) = true := hds
      simp only [Bool.and_eq_true, Bool.not_eq_true'] at hds
      obtain ⟨xs, hxs, hall⟩ := ih hrest hds.2
      have hlies : (reading calls host d).Lies r p :=
        lies_of_isWritten hcalls hp hfirst hrest hds.1.1
      have hcell := hlies.cell (hfirst.ne_symbol hds.1.2)
      exact ⟨p.first :: xs, .cons hcell hxs, .cons hfirst hall⟩

theorem isBinder_reading (host : Host) (d : Datum) : (reading calls host d).IsBinder := by
  obtain ⟨body, name, hclosure, hbody⟩ := World.closure_bindings
  exact ⟨body, name, (continues_reading hcalls host d).closures 3 _ hclosure,
    prepared_of_lies (by decide) (lies_of_prelude hcalls hbody (by decide +kernel))⟩

end Reading

theorem continues_written (host : Host) (d : Datum) : (written host d).Continues World.prelude :=
  continues_reading World.areCalls_isCall host d

theorem isBinder_written (host : Host) (d : Datum) : (written host d).IsBinder :=
  isBinder_reading World.areCalls_isCall host d

/-- A list of bindings that lies in pairs of code. -/
theorem exists_table {σ : Moment} {list : Value} {parts : List (String × Datum)}
    (hplain : parts.all (fun p => p.1 != "quasiquote" && !p.2.isName "quasiquote") = true)
    (h : LaidOut σ.Lies list (.list (parts.map fun p => .list [.name p.1, p.2]))) :
    ∃ bindings : List (String × Value), Table σ.Cell list (bindings.map Binding.row) ∧
      List.Forall₂ (fun b p => b.1 = p.1 ∧ LaidOut σ.Lies b.2 p.2) bindings parts := by
  induction parts generalizing list with
  | nil =>
      cases h
      exact ⟨[], ⟨[], .nil, .nil⟩, .nil⟩
  | cons part parts ih =>
      simp only [List.all_cons, Bool.and_eq_true, bne_iff_ne, ne_eq, Bool.not_eq_true'] at hplain
      obtain ⟨r, ⟨_, others⟩, rfl, hr, hrow, hothers⟩ := h
      obtain ⟨bindings, ⟨items, hitems, hall⟩, hparts⟩ := ih hplain.2 hothers
      obtain ⟨r₁, ⟨_, _⟩, rfl, hr₁, hname, r₂, ⟨e, _⟩, rfl, hr₂, he, hnil⟩ := hrow
      cases hname
      cases hnil
      have hcell : σ.Cell r ⟨.pair r₁, others⟩ := hr.cell (by simp)
      have hcell₁ : σ.Cell r₁ ⟨.symbol ⟨part.1⟩, .pair r₂⟩ :=
        hr₁.cell (by simpa [Symbol.quasiquote] using hplain.1.1)
      have hcell₂ : σ.Cell r₂ ⟨e, .nil⟩ := hr₂.cell (he.ne_symbol hplain.1.2)
      exact ⟨(part.1, e) :: bindings, ⟨.pair r₁ :: items, .cons hcell hitems,
        .cons (.cons hcell₁ (.cons hcell₂ .nil)) hall⟩, .cons ⟨rfl, he⟩ hparts⟩

/-- Local bindings in the prelude. -/
theorem exists_bindings (hcalls : World.AreCalls calls) (host : Host) (d : Datum)
    {parts : List (String × Datum)} {text : Datum} (hcall : calls site)
    (hsite : World.prelude.Denotes (.pair site) (.bindings parts text))
    (hplain : parts.all (fun p => p.1 != "quasiquote" && !p.2.isName "quasiquote") = true)
    (hspine : (Datum.list [.list (parts.map fun p => .list [.name p.1, p.2]), text]).isSpine = true)
    (hwritten : (Datum.list (parts.map fun p => .list [.name p.1, p.2])).everywhere
      Datum.isWritten = true) :
    ∃ bindings : List (String × Value), ∃ x,
      (reading calls host d).LetCall site bindings [x] ∧
      List.Forall₂ (fun b p => b.1 = p.1 ∧ LaidOut (reading calls host d).Lies b.2 p.2) bindings
        parts ∧ World.prelude.Denotes x text := by
  obtain ⟨_, ⟨_, operands⟩, hr, hp, hhead, hoperands⟩ := hsite
  cases hr
  cases hhead
  obtain ⟨xs, hxs, hall⟩ := exists_items hcalls host d _ hoperands hspine
  simp only [List.forall₂_cons_right_iff, List.forall₂_nil_right_iff] at hall
  obtain ⟨list, _, hlist, ⟨x, _, hx, rfl, rfl⟩, rfl⟩ := hall
  obtain ⟨bindings, htable, hparts⟩ := exists_table hplain (lies_of_prelude hcalls hlist hwritten)
  cases hxs with
  | @cons o _ forms _ ho hforms =>
      exact ⟨bindings, x, ⟨site_of_prelude hp hcall, o, list, forms, getElem?_reading calls host d hp,
        ho, htable, hforms⟩, hparts, hx⟩

/-- The code of a transformer that begins with local bindings. -/
theorem exists_letCall (host : Host) (d : Datum) {c : Ref .closure} {parts : List (String × Datum)} {t : Datum}
    (hc : c ∈ [(⟨5⟩ : Ref .closure), ⟨7⟩])
    (hbody : World.prelude.Denotes (World.prelude.closure c).body (.bindings parts t.template))
    (hplain : parts.all (fun p => p.1 != "quasiquote" && !p.2.isName "quasiquote") = true)
    (hwritten : (Datum.list [.list (parts.map fun p => .list [.name p.1, p.2]),
      t.template]).everywhere Datum.isWritten = true) :
    ∃ site, ∃ bindings : List (String × Value), ∃ inner, (World.prelude.closure c).body = .pair site ∧
      (written host d).LetCall site bindings [.pair inner] ∧
      List.Forall₂ (fun b p => b.1 = p.1 ∧ LaidOut (written host d).Lies b.2 p.2) bindings parts ∧
      (written host d).Unexpanded inner t := by
  obtain ⟨site, _, hsite, -⟩ := id hbody
  rw [hsite] at hbody
  simp only [Datum.list, Datum.listStar, List.foldr_cons, List.foldr_nil, Datum.everywhere,
    Bool.and_eq_true] at hwritten
  obtain ⟨⟨hoperands, hlist⟩, ⟨hforms, htemplate⟩, -⟩ := hwritten
  have hspine : (Datum.list [.list (parts.map fun p => .list [.name p.1, p.2]), t.template]).isSpine =
      true := by
    simp only [Datum.list, Datum.listStar, List.foldr_cons, List.foldr_nil, Datum.isSpine, hoperands,
      hforms]
    cases parts <;> rfl
  obtain ⟨bindings, x, hcall, hparts, hx⟩ := exists_bindings World.areCalls_isCall host d
    (Or.inr ⟨c, hc, hsite⟩) hbody hplain hspine hlist
  obtain ⟨inner, _, rfl, -⟩ := id hx
  exact ⟨site, bindings, inner, hsite, hcall, hparts,
    lies_of_prelude World.areCalls_isCall hx htemplate⟩

theorem isRecursion_written (host : Host) (d : Datum) : (written host d).IsRecursion := by
  obtain ⟨body, name, hclosure, hbody⟩ := World.closure_recursion
  have hbody' : World.prelude.Denotes (World.prelude.closure ⟨5⟩).body recursionText := by
    rwa [Heap.closure, hclosure]
  obtain ⟨site, bindings, inner, hsite, hcall, hparts, hinner⟩ :=
    exists_letCall host d (.head _) hbody' (by decide) (by decide +kernel)
  obtain rfl : body = .pair site := by
    rwa [Heap.closure, hclosure] at hsite
  simp only [recursionParts, List.forall₂_cons_right_iff, List.forall₂_nil_right_iff] at hparts
  obtain ⟨⟨_, vars⟩, _, ⟨rfl, hvars⟩, ⟨⟨_, vals⟩, _, ⟨rfl, hvals⟩, rfl, rfl⟩, rfl⟩ := hparts
  exact ⟨site, name, vars, vals, inner, (continues_written host d).closures 5 _ hclosure,
    Or.inl hcall, cells_of_lies (by decide) hvars, cells_of_lies (by decide) hvals, Or.inl hinner⟩

/-! ## The form -/

/-- The value is the datum, in pairs that stay as they are. -/
def Has (σ : Moment) (v : Value) (d : Datum) : Prop :=
  σ.heap.Denotes v d ∧ ∀ r p, σ.heap.Within r v → σ.heap.pairs[r.index]? = some p → σ.Cell r p

namespace Has

variable {σ : Moment}

theorem pair {first rest : Datum} (h : σ.Has v (.pair first rest)) : ∃ r p, v = .pair r ∧
    σ.Cell r p ∧ σ.Has p.first first ∧ σ.Has p.rest rest := by
  obtain ⟨⟨r, p, rfl, hp, hfirst, hrest⟩, hcells⟩ := h
  exact ⟨r, p, rfl, hcells r p .here hp, ⟨hfirst, fun r' p' hr' => hcells r' p' (.first hp hr')⟩,
    hrest, fun r' p' hr' => hcells r' p' (.rest hp hr')⟩

theorem items (ds : List Datum) (h : σ.Has v (.list ds)) :
    ∃ xs, Items σ.Cell v xs ∧ List.Forall₂ σ.Has xs ds := by
  induction ds generalizing v with
  | nil =>
      obtain rfl : v = .nil := h.1
      exact ⟨[], .nil, .nil⟩
  | cons d ds ih =>
      obtain ⟨r, p, rfl, hr, hfirst, hrest⟩ := h.pair
      obtain ⟨xs, hxs, hall⟩ := ih hrest
      exact ⟨p.first :: xs, .cons hr hxs, .cons hfirst hall⟩

/-- The rows of a list of bindings. -/
theorem table {parts : List (String × Datum)}
    (h : σ.Has v (.list (parts.map fun p => .list [.name p.1, p.2]))) :
    ∃ bindings : List (String × Value), Table σ.Cell v (bindings.map Binding.row) ∧
      List.Forall₂ (fun b p => b.1 = p.1 ∧ σ.Has b.2 p.2) bindings parts := by
  obtain ⟨xs, hxs, hall⟩ := h.items _
  suffices hrows : ∃ bindings : List (String × Value),
      List.Forall₂ (Items σ.Cell) xs (bindings.map Binding.row) ∧
        List.Forall₂ (fun b p => b.1 = p.1 ∧ σ.Has b.2 p.2) bindings parts by
    obtain ⟨bindings, hrows, hparts⟩ := hrows
    exact ⟨bindings, ⟨xs, hxs, hrows⟩, hparts⟩
  clear hxs h
  induction parts generalizing xs with
  | nil =>
      cases hall
      exact ⟨[], .nil, .nil⟩
  | cons part parts ih =>
      cases hall with
      | cons hrow hall =>
          obtain ⟨bindings, hrows, hparts⟩ := ih _ hall
          obtain ⟨ys, hys, hrow⟩ := items [.name part.1, part.2] hrow
          simp only [List.forall₂_cons_right_iff, List.forall₂_nil_right_iff] at hrow
          obtain ⟨_, _, ⟨rfl, -⟩, ⟨e, _, he, rfl, rfl⟩, rfl⟩ := hrow
          exact ⟨(part.1, e) :: bindings, .cons hys hrows, .cons ⟨rfl, he⟩ hparts⟩

end Has

/-- The parts of a form that was read stay as they are, while it is to be replaced. -/
theorem exists_form_reading (hcalls : World.AreCalls calls) (host : Host) (first rest : Datum) :
    ∃ site p, (World.prelude.build (.pair first rest)).1 = .pair site ∧
      (reading calls host (.pair first rest)).sites site ∧
      (reading calls host (.pair first rest)).heap.pairs[site.index]? = some p ∧
      (reading calls host (.pair first rest)).Has p.first first ∧
      (reading calls host (.pair first rest)).Has p.rest rest := by
  obtain ⟨site, p, hsite, hp, hfirst, hrest, hbounds⟩ := World.prelude.exists_built first rest
  have hcells : ∀ r q, ((reading calls host (.pair first rest)).heap.Within r p.first ∨
      (reading calls host (.pair first rest)).heap.Within r p.rest) →
      (reading calls host (.pair first rest)).heap.pairs[r.index]? = some q →
      (reading calls host (.pair first rest)).Cell r q := by
    intro r q hr hq
    refine ⟨⟨(Array.getElem?_eq_some_iff.1 hq).1, ?_⟩, hq⟩
    obtain ⟨hnew, hne⟩ := hbounds r hr
    rintro (heq | hcall)
    · cases hsite.symm.trans heq
      exact hne rfl
    · exact Nat.not_lt_of_le hnew (hcalls.lt hcall)
  exact ⟨site, p, hsite, ⟨(Array.getElem?_eq_some_iff.1 hp).1, Or.inl hsite⟩, hp,
    ⟨hfirst, fun r q hr => hcells r q (Or.inl hr)⟩, hrest, fun r q hr => hcells r q (Or.inr hr)⟩

theorem exists_form_written (host : Host) (first rest : Datum) : ∃ site p,
    (World.prelude.build (.pair first rest)).1 = .pair site ∧
    (written host (.pair first rest)).sites site ∧
    (written host (.pair first rest)).heap.pairs[site.index]? = some p ∧
    (written host (.pair first rest)).Has p.first first ∧
    (written host (.pair first rest)).Has p.rest rest :=
  exists_form_reading World.areCalls_isCall host first rest

end Moment

end Scheme
