import Cmoon.ConversationKeys

/-! # Windows of pages

Which part of a table a page shows comes of three numbers of the request: how many rows are on a page, which page it is,
and, if it is not -1, the row to start from. None of them is checked before they are put into `LIMIT` and `OFFSET`. -/
namespace Cmoon.PageWindows
open DecimalText Datasets
open ConversationKeys (Page mdbPagediv)

def intResult (x : ℤ) : Option ℤ := if -2 ^ 31 ≤ x ∧ x < 2 ^ 31 then some x else none

def dftNumPerpage : ℤ := 15

def dftPageNum : ℤ := 1

section Numbers
variable (hdf : Dataset)

def npp : ℤ := hdfGetIntValue hdf "_npp" dftNumPerpage
def nst : ℤ := hdfGetIntValue hdf "_nst" (-1)
def npg : ℤ := hdfGetIntValue hdf "_npg" dftPageNum

/-- `mdb_pagediv` without prefixes; none when it overflows. -/
def mdbPagedivInt : Option Page :=
  if nst hdf = -1 then
    (intResult (npg hdf - 1)).bind fun j => (intResult (j * npp hdf)).map fun j => ⟨npp hdf, j, npg hdf⟩
  else some ⟨npp hdf, nst hdf, dftPageNum⟩

/-- There is no overflow, and the count and the offset can stand behind `LIMIT` and `OFFSET`. -/
def ValidWindow : Prop := ∃ page, mdbPagedivInt hdf = some page ∧ 0 ≤ page.count ∧ 0 ≤ page.offset

/-- A page that can be: the rows from a given one on, or a page from the first on that begins before `2 ^ 31`; any page
begins at the first row when there are no rows on a page. -/
def PageGiven : Prop :=
  0 ≤ npp hdf ∧ if nst hdf = -1 then
    1 ≤ npg hdf ∧ (npg hdf - 1) * npp hdf < 2 ^ 31 ∨ npp hdf = 0 ∧ -2 ^ 31 < npg hdf
  else 0 ≤ nst hdf

end Numbers

variable {hdf : Dataset} {page : Page}

theorem intResult_eq_some_iff {x y : ℤ} : intResult x = some y ↔ (-2 ^ 31 ≤ x ∧ x < 2 ^ 31) ∧ x = y := by
  unfold intResult
  split
  · rename_i hfits
    simp only [Option.some.injEq, iff_and_self]
    exact fun _ => hfits
  · rename_i hfits
    exact iff_of_false nofun fun h => hfits h.1

theorem wrap_of_intResult {x y : ℤ} (h : intResult x = some y) : wrap 32 x = y := by
  obtain ⟨⟨hlow, hhigh⟩, rfl⟩ := intResult_eq_some_iff.mp h
  rw [wrap, Int.bmod_eq_of_le] <;> omega

theorem mdbPagediv_of_int (h : mdbPagedivInt hdf = some page) : mdbPagediv hdf = page := by
  have hpage : mdbPagediv hdf =
      if nst hdf = -1 then ⟨npp hdf, wrap 32 ((npg hdf - 1) * npp hdf), npg hdf⟩
      else ⟨npp hdf, nst hdf, dftPageNum⟩ := rfl
  rw [hpage]
  unfold mdbPagedivInt at h
  by_cases hnst : nst hdf = -1
  · rw [if_pos hnst] at h
    obtain ⟨j, hj, h⟩ := Option.bind_eq_some_iff.mp h
    obtain ⟨o, ho, rfl⟩ := Option.map_eq_some_iff.mp h
    obtain ⟨-, rfl⟩ := intResult_eq_some_iff.mp hj
    rw [if_pos hnst, wrap_of_intResult ho]
  · rw [if_neg hnst] at h
    rw [if_neg hnst]
    exact Option.some.inj h

theorem hdfGetIntValue_lt (d : Dataset) (name : String) {default : ℤ} (hlow : -2 ^ 31 ≤ default)
    (hhigh : default < 2 ^ 31) : -2 ^ 31 ≤ hdfGetIntValue d name default ∧ hdfGetIntValue d name default < 2 ^ 31 := by
  unfold hdfGetIntValue
  split
  · exact ⟨hlow, hhigh⟩
  · have hle := Int.le_bmod (x := clamp 64 ‹ℤ›) (m := 2 ^ 32) (by decide)
    have hlt := Int.bmod_lt (x := clamp 64 ‹ℤ›) (m := 2 ^ 32) (by decide)
    unfold wrap
    omega

/-- A page with some rows on it begins where it can exactly when it is the first or a later one. -/
theorem offset_nonneg_iff {j i : ℤ} (hi : 0 < i) : 0 ≤ j * i ↔ 0 ≤ j := mul_nonneg_iff_of_pos_right hi

/-- **The window of a page can be asked for** exactly when the numbers of the request give a page. -/
theorem validWindow_iff (hdf : Dataset) : ValidWindow hdf ↔ PageGiven hdf := by
  have hnpg : -2 ^ 31 ≤ npg hdf ∧ npg hdf < 2 ^ 31 := hdfGetIntValue_lt hdf "_npg" (by decide) (by decide)
  unfold ValidWindow PageGiven mdbPagedivInt
  generalize npg hdf = page at hnpg
  generalize npp hdf = i
  split
  · simp only [Option.bind_eq_some_iff, Option.map_eq_some_iff, intResult_eq_some_iff]
    constructor
    · rintro ⟨_, ⟨j, ⟨hj, rfl⟩, o, ⟨ho, rfl⟩, rfl⟩, hcount, hoffset⟩
      dsimp only at hcount hoffset
      refine ⟨hcount, ?_⟩
      obtain hpos | hzero := hcount.lt_or_eq
      · have hpage := (offset_nonneg_iff hpos).mp hoffset
        exact .inl ⟨by omega, ho.2⟩
      · exact .inr ⟨hzero.symm, by omega⟩
    · rintro ⟨hcount, ⟨hpage, hlt⟩ | ⟨rfl, hlow⟩⟩
      · have hoffset : 0 ≤ (page - 1) * i := mul_nonneg (by omega) hcount
        exact ⟨_, ⟨_, ⟨by omega, rfl⟩, _, ⟨⟨by omega, hlt⟩, rfl⟩, rfl⟩, hcount, hoffset⟩
      · exact ⟨_, ⟨_, ⟨by omega, rfl⟩, _, ⟨by simp, rfl⟩, rfl⟩, le_rfl, by simp⟩
  · simp

/-- The page before the first. -/
theorem not_validWindow_zero : ¬ ValidWindow [("_npg", some [48])] := by
  rintro ⟨page, hpage, -, hoffset⟩
  have hzero : mdbPagedivInt [("_npg", some [48])] = some ⟨15, -15, 0⟩ := by decide
  rw [hzero] at hpage
  cases hpage
  exact absurd hoffset (by decide)

end Cmoon.PageWindows
