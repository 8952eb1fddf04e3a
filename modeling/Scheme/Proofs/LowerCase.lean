import Mathlib
import Scheme.Text.Blank
import Scheme.Text.Case
/-!
# Lower case

Lower-case texts are their own lower case, and they have no characters of their own but lower-case
letters and characters beyond ASCII that are not blank. What the table of images has to satisfy for
this is checked run by run.
-/

namespace Scheme.Text

/-! ## The table -/

/-- No member of the run is moved into the other one. Runs that overlap have to be of opposite
parity. -/
def Run.avoids (run : Run) (image : Nat) (other : Run) : Bool :=
  Nat.blt (image + (run.last - run.first)) other.first || Nat.blt other.last image ||
    (Nat.beq run.step 2 || Nat.beq run.last run.first) && Nat.beq other.step 2 &&
      Nat.beq ((image + other.first) % 2) 1

theorem Run.contains_iff {run : Run} {code : Nat} : run.contains code = true ↔
    run.first ≤ code ∧ code ≤ run.last ∧ (code - run.first) % run.step = 0 := by
  simp [contains, and_assoc]

theorem Run.not_contains_image {run other : Run} {image code : Nat}
    (h : run.avoids image other = true) (hcode : run.contains code = true) :
    other.contains (image + (code - run.first)) = false := by
  obtain ⟨hfirst, hlast, hstep⟩ := contains_iff.1 hcode
  rw [← Bool.not_eq_true, contains_iff]
  rintro ⟨hfirst', hlast', hstep'⟩
  simp only [avoids, Bool.or_eq_true, Bool.and_eq_true, Nat.blt_eq, Nat.beq_eq] at h
  rcases h with (hbefore | hafter) | ⟨⟨heven, hother⟩, hodd⟩
  · omega
  · omega
  · rw [hother] at hstep'
    rcases heven with heven | heven
    · rw [heven] at hstep
      omega
    · omega

/-- What a run of the table has to satisfy: its images are characters, not blank, and have no image
of their own; those within ASCII are letters. -/
def Run.isSettled (run : Run) (image : Nat) : Bool :=
  (Nat.ble 128 image || Nat.beq run.last run.first && (Nat.beq image 105 || Nat.beq image 107)) &&
    run.avoids image ⟨0xd800, 0xdfff, 1⟩ && Nat.blt (image + (run.last - run.first)) 0x110000 &&
    blankRuns.all (run.avoids image ·) && lowerMap.all fun other => run.avoids image other.1

theorem lowerMap_settled : (lowerMap.all fun entry => entry.1.isSettled entry.2) = true := by
  decide +kernel

theorem imageIn_cases (map : List (Run × Nat)) (code : Nat) :
    (∀ entry ∈ map, entry.1.contains code = false) ∧ imageIn map code = code ∨
      ∃ entry ∈ map, entry.1.contains code = true ∧
        imageIn map code = entry.2 + (code - entry.1.first) := by
  unfold imageIn
  cases hfind : map.find? (·.1.contains code) with
  | none => exact Or.inl ⟨by simpa using hfind, rfl⟩
  | some entry =>
      have hcontains : entry.1.contains code = true :=
        @List.find?_some _ (fun entry => entry.1.contains code) entry map hfind
      exact Or.inr ⟨entry, List.mem_of_find?_eq_some hfind, hcontains, rfl⟩

/-! ## Single characters -/

/-- A letter of ASCII in lower case, or a character beyond ASCII that is not blank. -/
def isLowered (c : Char) : Bool :=
  c.isLower || Nat.ble 128 c.toNat && !isBlank c

/-- How a character stands to its image: the image stays under lowering, and is the character
itself or a lowered one. -/
structure LowersTo (c l : Char) : Prop where
  stays : lower l = l
  lowered : l = c ∨ isLowered l = true ∧ (l = 'e' → c = 'E')

theorem lowersTo_of_ascii {c : Char} (hc : c.toNat < 128) : LowersTo c (lower c) := by
  have hall : ∀ code : Fin 128,
      lower (lower (Char.ofNat code)) = lower (Char.ofNat code) ∧
        (lower (Char.ofNat code) = Char.ofNat code ∨ isLowered (lower (Char.ofNat code)) = true ∧
          (lower (Char.ofNat code) = 'e' → Char.ofNat code = 'E')) := by
    decide +kernel
  have hself := hall ⟨c.toNat, hc⟩
  simp only [Char.ofNat_toNat] at hself
  exact ⟨hself.1, hself.2⟩

theorem lowersTo_of_mem {c : Char} {run : Run} {image : Nat} (hmem : (run, image) ∈ lowerMap)
    (hc : run.contains c.toNat = true) :
    LowersTo c (Char.ofNat (image + (c.toNat - run.first))) := by
  have hsettled := List.all_eq_true.1 lowerMap_settled _ hmem
  simp only [Run.isSettled, Bool.and_eq_true, Bool.or_eq_true, Nat.ble_eq, Nat.beq_eq, Nat.blt_eq,
    List.all_eq_true] at hsettled
  obtain ⟨⟨⟨⟨hascii, hsurrogates⟩, hlast⟩, hblank⟩, hmap⟩ := hsettled
  obtain ⟨hfirst, hwithin, -⟩ := Run.contains_iff.1 hc
  have hvalid : (image + (c.toNat - run.first)).isValidChar := by
    have hout := Run.not_contains_image hsurrogates hc
    rw [← Bool.not_eq_true, Run.contains_iff] at hout
    simp only [Nat.mod_one, and_true, not_and, not_le] at hout
    rcases Nat.lt_or_ge (image + (c.toNat - run.first)) 0xd800 with hlow | hhigh
    · exact Or.inl hlow
    · exact Or.inr ⟨hout hhigh, by omega⟩
  rcases hascii with hbeyond | ⟨hsingle, himage⟩
  · have hcode : (Char.ofNat (image + (c.toNat - run.first))).toNat =
        image + (c.toNat - run.first) := by
      rw [Char.toNat_ofNat, if_pos hvalid]
    have hnot : ¬ image + (c.toNat - run.first) < 128 := by omega
    constructor
    · rw [lower, hcode, if_neg hnot]
      rcases imageIn_cases lowerMap (image + (c.toNat - run.first)) with
        ⟨-, heq⟩ | ⟨entry, hentry, hcontains, -⟩
      · rw [heq]
      · rw [Run.not_contains_image (hmap entry hentry) hc] at hcontains
        cases hcontains
    · refine Or.inr ⟨?_, ?_⟩
      · have hcover : Run.cover blankRuns (image + (c.toNat - run.first)) = false := by
          rw [Run.cover, List.any_eq_false]
          intro other hother
          rw [Run.not_contains_image (hblank other hother) hc]
          decide
        rw [isLowered, isBlank, hcode, if_neg hnot, hcover, Nat.ble_eq_true_of_le (by omega)]
        simp
      · intro heq
        rw [heq] at hcode
        rw [← hcode] at hnot
        exact absurd (by decide) hnot
  · have hoffset : c.toNat - run.first = 0 := by omega
    rw [hoffset, Nat.add_zero]
    rcases himage with rfl | rfl <;> exact ⟨by decide, Or.inr ⟨by decide, fun heq => by cases heq⟩⟩

theorem lowersTo_lower (c : Char) : LowersTo c (lower c) := by
  rcases Nat.lt_or_ge c.toNat 128 with hascii | hbeyond
  · exact lowersTo_of_ascii hascii
  · have hlower : lower c = Char.ofNat (imageIn lowerMap c.toNat) := by
      rw [lower, if_neg (Nat.not_lt.2 hbeyond)]
    rcases imageIn_cases lowerMap c.toNat with ⟨-, heq⟩ | ⟨⟨run, image⟩, hmem, hc, heq⟩
    · have hself : lower c = c := by rw [hlower, heq, Char.ofNat_toNat]
      exact ⟨by rw [hself, hself], Or.inl hself⟩
    · rw [hlower, heq]
      exact lowersTo_of_mem hmem hc

/-! ## Texts -/

/-- The characters whose image depends on those around them, and what they become. -/
theorem lower_unsettled :
    (lower 'Σ' ≠ 'Σ' ∧ lower 'İ' ≠ 'İ') ∧
      ∀ l ∈ ['ς', 'σ', 'i', '\u0307'], lower l = l ∧ isLowered l = true := by
  refine ⟨⟨by decide +kernel, by decide +kernel⟩, fun l hl => ?_⟩
  simp only [List.mem_cons, List.not_mem_nil, or_false] at hl
  rcases hl with rfl | rfl | rfl | rfl
  all_goals exact ⟨by decide +kernel, by decide +kernel⟩

theorem lowersTo_of_mem_lowerWithin {before after : List Char} {c l : Char}
    (hl : l ∈ lowerWithin before c after) : LowersTo c l := by
  have hplaced : l ∈ ['ς', 'σ', 'i', '\u0307'] → LowersTo c l := by
    intro hmem
    obtain ⟨hstays, hlowered⟩ := lower_unsettled.2 l hmem
    refine ⟨hstays, Or.inr ⟨hlowered, ?_⟩⟩
    rintro rfl
    simp at hmem
  unfold lowerWithin at hl
  split_ifs at hl with hsigma hlast hdotted
  · exact hplaced (by simp [List.mem_singleton.1 hl])
  · exact hplaced (by simp [List.mem_singleton.1 hl])
  · exact hplaced (List.mem_append_right ['ς', 'σ'] hl)
  · rw [List.mem_singleton.1 hl]
    exact lowersTo_lower c

theorem lowerWithin_of_stays {c : Char} (hc : lower c = c) (before after : List Char) :
    lowerWithin before c after = [c] := by
  have hsigma : c ≠ 'Σ' := by
    rintro rfl
    exact lower_unsettled.1.1 hc
  have hdotted : c ≠ 'İ' := by
    rintro rfl
    exact lower_unsettled.1.2 hc
  rw [lowerWithin, if_neg hsigma, if_neg hdotted, hc]

/-- Every character of a lower-case text comes from one of the text. -/
theorem exists_of_mem_lowercaseAfter {before cs : List Char} {l : Char}
    (hl : l ∈ lowercaseAfter before cs) : ∃ c ∈ cs, LowersTo c l := by
  induction cs generalizing before with
  | nil => cases hl
  | cons c cs ih =>
      rw [lowercaseAfter, List.mem_append] at hl
      rcases hl with hl | hl
      · exact ⟨c, List.mem_cons_self .., lowersTo_of_mem_lowerWithin hl⟩
      · obtain ⟨c', hc', hlowers⟩ := ih hl
        exact ⟨c', List.mem_cons_of_mem _ hc', hlowers⟩

theorem lowercaseAfter_of_stays {cs : List Char} (hcs : ∀ c ∈ cs, lower c = c)
    (before : List Char) : lowercaseAfter before cs = cs := by
  induction cs generalizing before with
  | nil => rfl
  | cons c cs ih =>
      rw [lowercaseAfter, lowerWithin_of_stays (hcs c (List.mem_cons_self ..)),
        ih fun c' hc' => hcs c' (List.mem_cons_of_mem _ hc')]
      rfl

/-- A lower-case text is its own lower case. -/
theorem lowercase_lowercase (cs : List Char) : lowercase (lowercase cs) = lowercase cs := by
  apply lowercaseAfter_of_stays
  intro l hl
  obtain ⟨_, _, hlowers⟩ := exists_of_mem_lowercaseAfter hl
  exact hlowers.stays

/-- The first character of a lower-case text comes from the first one of the text. -/
theorem lowercase_cons (c : Char) (cs : List Char) :
    ∃ l rest, lowercase (c :: cs) = l :: rest ∧ LowersTo c l := by
  have hne : lowerWithin [] c cs ≠ [] := by
    unfold lowerWithin
    split_ifs <;> simp
  obtain ⟨l, rest, hwithin⟩ := List.exists_cons_of_ne_nil hne
  refine ⟨l, rest ++ lowercaseAfter [c] cs, ?_, ?_⟩
  · rw [lowercase, lowercaseAfter, hwithin]
    rfl
  · apply lowersTo_of_mem_lowerWithin
    rw [hwithin]
    exact List.mem_cons_self ..

end Scheme.Text
