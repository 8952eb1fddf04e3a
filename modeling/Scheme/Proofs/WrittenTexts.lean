import Scheme.Proofs.ReadData
/-!
# Written texts tell data apart

Two data that readers have answered, with the same written text, are equal, since the text reads
back as either of them. Infinite numbers do not read back, and neither does a list that prints as
a comma run into an at sign: such a list has the text of another one.
-/

namespace Scheme

/-! ## Parts of a datum -/

namespace Datum

mutual

/-- The test holds of the datum and of every datum in it. -/
def everywhere (test : Datum → Bool) : Datum → Bool
  | .vector elements => test (.vector elements) && allEverywhere test elements
  | .pair first rest => test (.pair first rest) && everywhere test first && everywhere test rest
  | d => test d

def allEverywhere (test : Datum → Bool) : List Datum → Bool
  | [] => true
  | d :: rest => everywhere test d && allEverywhere test rest

end

/-- No number, or a finite one. -/
def isFinite : Datum → Bool
  | .number value => value.isFinite
  | _ => true

/-- Not taken for another datum by its marks. -/
def isClear (d : Datum) : Bool :=
  !d.isSplicingLookalike

mutual

theorem Sound.readable {d : Datum} (hd : d.Sound) (hfinite : d.everywhere isFinite = true)
    (hclear : d.everywhere isClear = true) : d.Readable := by
  cases d with
  | number value => exact hfinite
  | symbol value => exact hd
  | vector elements =>
      simp only [everywhere, Bool.and_eq_true] at hfinite hclear
      exact AllSound.allReadable hd hfinite.2 hclear.2
  | pair first rest =>
      simp only [everywhere, Bool.and_eq_true] at hfinite hclear
      refine ⟨Sound.readable hd.1 hfinite.1.2 hclear.1.2,
        Sound.readable hd.2 hfinite.2 hclear.2, ?_⟩
      simpa [isClear] using hclear.1.1
  | _ => trivial
termination_by structural d

theorem AllSound.allReadable {ds : List Datum} (hds : AllSound ds)
    (hfinite : allEverywhere isFinite ds = true) (hclear : allEverywhere isClear ds = true) :
    AllReadable ds := by
  cases ds with
  | nil => trivial
  | cons d ds =>
      simp only [allEverywhere, Bool.and_eq_true] at hfinite hclear
      exact ⟨Sound.readable hds.1 hfinite.1 hclear.1,
        AllSound.allReadable hds.2 hfinite.2 hclear.2⟩
termination_by structural ds

end

end Datum

/-! ## Equal up to the signs of zeros -/

theorem Number.beq_of_unsigned_eq {x y : Float} (hx : x.isFinite = true) (hy : y.isFinite = true)
    (h : unsigned x = unsigned y) : (x == y) = true := by
  rcases cases_of_isFinite hy with ⟨negative, -, hzero⟩ | ⟨negative, m, e, hc, -, rfl⟩
  · rcases cases_of_isFinite hx with ⟨negative', -, hzero'⟩ | ⟨negative', m, e, hc, -, rfl⟩
    · change Float.Model.UnpackedFloat.beq x.toModel.unpack y.toModel.unpack = true
      rw [hzero, hzero']
      rfl
    · have hdouble := double_beq_zero negative' hc
      rw [unsigned_double, unsigned, if_pos (beq_zero_of_unpack hzero)] at h
      rw [h] at hdouble
      exact absurd hdouble (by decide +kernel)
  · rw [unsigned_double] at h
    rw [← h]
    exact unsigned_beq hx

namespace Datum

mutual

theorem alike_of_unsigned_eq {d e : Datum} (hd : d.Readable) (he : e.Readable)
    (h : d.unsigned = e.unsigned) : d.Alike e := by
  cases d <;> cases e <;> simp only [unsigned, reduceCtorEq] at h
  case number.number x y => exact Number.beq_of_unsigned_eq hd he (Datum.number.inj h)
  case vector.vector ds es => exact allAlike_of_allUnsigned_eq hd he (Datum.vector.inj h)
  case pair.pair first rest first' rest' =>
    obtain ⟨hfirst, hrest⟩ := Datum.pair.inj h
    exact ⟨alike_of_unsigned_eq hd.1 he.1 hfirst, alike_of_unsigned_eq hd.2.1 he.2.1 hrest⟩
  all_goals simp [Alike, h]
termination_by structural d

theorem allAlike_of_allUnsigned_eq {ds es : List Datum} (hds : AllReadable ds)
    (hes : AllReadable es) (h : allUnsigned ds = allUnsigned es) : AllAlike ds es := by
  cases ds <;> cases es <;> simp only [allUnsigned, reduceCtorEq] at h
  case nil.nil => trivial
  case cons.cons d ds e es =>
    obtain ⟨hfirst, hrest⟩ := List.cons.inj h
    exact ⟨alike_of_unsigned_eq hds.1 hes.1 hfirst, allAlike_of_allUnsigned_eq hds.2 hes.2 hrest⟩
termination_by structural ds

end

/-- Readable data with the same text are alike. -/
theorem alike_of_text_eq {d e : Datum} (hd : d.Readable) (he : e.Readable)
    (h : d.text .written = e.text .written) : d.Alike e := by
  have hend : Delimited [] := trivial
  obtain ⟨r, hread, -⟩ := Reader.read_text hd hend
  obtain ⟨r', hread', -⟩ := Reader.read_text he hend
  rw [h, hread', Prod.mk.injEq, Reading.datum.injEq] at hread
  exact alike_of_unsigned_eq hd he hread.1.symm

/-- Some reader can answer the datum. -/
def Answered (d : Datum) : Prop :=
  ∃ r r' : Reader, r.Reached ∧ r.read = (.datum d, r')

end Datum

/-! ## Equal texts -/

namespace Heap

/-- Of data that readers have answered, without infinite numbers and without lists that pass for
others, those with the same written text are equal. -/
theorem equal_of_written_eq {h : Heap} {v w : Value} {d e : Datum} (hv : h.Denotes v d)
    (hw : h.Denotes w e) (hd : d.Answered) (he : e.Answered)
    (hfinite : d.everywhere Datum.isFinite = true ∧ e.everywhere Datum.isFinite = true)
    (hclear : d.everywhere Datum.isClear = true ∧ e.everywhere Datum.isClear = true)
    (htext : h.written v = h.written w) : h.equal v w = true := by
  obtain ⟨r, r₁, hr, hread⟩ := hd
  obtain ⟨r', r₁', hr', hread'⟩ := he
  have hreadable := (hr.read_sound hread).readable hfinite.1 hclear.1
  have hreadable' := (hr'.read_sound hread').readable hfinite.2 hclear.2
  rw [written, written, text_of_denotes hv, text_of_denotes hw] at htext
  exact equal_of_sameTree ⟨d, e, hv, hw, Datum.alike_of_text_eq hreadable hreadable' htext⟩

/-- A zero of either sign, quoted by the mark and by the name. -/
theorem equal_of_written_eq_zeros :
    let d : Datum := .list [.symbol .quote, .number (-0.0)]
    let e : Datum := .list [.symbol .quote, .number 0]
    let (v, h) := build {} d
    let (w, h) := h.build e
    d.Answered ∧ e.Answered ∧ h.written v = h.written w ∧ h.equal v w = true := by
  intro d e
  have hd : d.Answered := ⟨.ofText ['\x27', '-', '0'], _, .source _, rfl⟩
  have he : e.Answered := ⟨.ofText "(QUOTE 0)".toList, _, .source _, rfl⟩
  have hv : ((build {} d).2.build e).2.Denotes (build {} d).1 d :=
    (denotes_build {} d).extend (extends_build _ e)
  have hw := denotes_build (build {} d).2 e
  have hfinite : d.everywhere Datum.isFinite = true ∧ e.everywhere Datum.isFinite = true := by
    simp [d, e, Datum.list, Datum.listStar, Datum.everywhere, Datum.isFinite]
    decide +kernel
  have hclear : d.everywhere Datum.isClear = true ∧ e.everywhere Datum.isClear = true := by
    simp [d, e, Datum.list, Datum.listStar, Datum.everywhere, Datum.isClear,
      Datum.isSplicingLookalike]
  have htext : ((build {} d).2.build e).2.written (build {} d).1 =
      ((build {} d).2.build e).2.written ((build {} d).2.build e).1 := by
    rw [written, written, text_of_denotes hv, text_of_denotes hw]
    simp [d, e, Datum.list, Datum.listStar, Datum.text]
    decide +kernel
  exact ⟨hd, he, htext, equal_of_written_eq hv hw hd he hfinite hclear htext⟩

/-- A comma in front of a name that starts with an at sign, and a comma with an at sign in front of
the rest of the name: the lists differ, and their texts do not. -/
theorem written_of_lookalike :
    let d : Datum := .list [.symbol .unquote, .symbol ⟨"@x"⟩]
    let e : Datum := .list [.symbol .unquoteSplicing, .symbol ⟨"x"⟩]
    let (v, h) := build {} d
    let (w, h) := h.build e
    d.Answered ∧ e.Answered ∧ d.everywhere Datum.isFinite = true ∧
      e.everywhere Datum.isFinite = true ∧ h.written v = h.written w ∧ h.equal v w = false := by
  intro d e
  have hd : d.Answered := ⟨.ofText "(unquote @x)".toList, _, .source _, rfl⟩
  have he : e.Answered := ⟨.ofText "(unquote-splicing x)".toList, _, .source _, rfl⟩
  have hv : ((build {} d).2.build e).2.Denotes (build {} d).1 d :=
    (denotes_build {} d).extend (extends_build _ e)
  have hw := denotes_build (build {} d).2 e
  have hfinite : d.everywhere Datum.isFinite = true ∧ e.everywhere Datum.isFinite = true := by
    simp [d, e, Datum.list, Datum.listStar, Datum.everywhere, Datum.isFinite]
  have htext : ((build {} d).2.build e).2.written (build {} d).1 =
      ((build {} d).2.build e).2.written ((build {} d).2.build e).1 := by
    rw [written, written, text_of_denotes hv, text_of_denotes hw]
    simp [d, e, Datum.list, Datum.listStar, Datum.text]
    decide
  have hequal : ((build {} d).2.build e).2.equal (build {} d).1
      ((build {} d).2.build e).1 = false := by
    change equalAll _ 16 {} [(.pair ⟨1⟩, .pair ⟨3⟩)] = false
    rw [equalAll, if_neg (by simp)]
    change equalAll _ 15 _ [(.symbol .unquote, .symbol .unquoteSplicing), _] = false
    rw [equalAll.eq_def]
    rfl
  exact ⟨hd, he, hfinite.1, hfinite.2, htext, hequal⟩

end Heap

end Scheme
