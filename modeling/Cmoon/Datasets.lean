import Cmoon.DecimalText

/-! # Datasets

A dataset is the list of the named values at its top, the newest first: a name set again hides
the older value. A name may stand there without a value. Values that the code reads are
those of the root's children; what is below them is not kept. -/
namespace Cmoon.Datasets
open DecimalText

abbrev Dataset := List (String × Option Bytes)

def hdfGetObj (d : Dataset) (name : String) : Option (Option Bytes) := d.lookup name

/-- `hdf_get_value` with the default `NULL`. -/
def hdfGetValue (d : Dataset) (name : String) : Option Bytes := (hdfGetObj d name).join

def hdfSetValue (d : Dataset) (name : String) (value : Option Bytes) : Dataset := (name, value) :: d

def hdfCopy (dst src : Dataset) : Dataset := src ++ dst

def hdfSetIntValue (d : Dataset) (name : String) (x : ℤ) : Dataset :=
  hdfSetValue d name (some (printInt x))

def hdfGetIntValue (d : Dataset) (name : String) (default : ℤ) : ℤ :=
  match (hdfGetValue d name).bind readInt with
  | none => default
  | some x => wrap 32 (clamp 64 x)

/-- `val && *val`: a value that is there and not the empty text. -/
def nonempty (d : Dataset) (name : String) : Option Bytes :=
  (hdfGetValue d name).filter fun v => v ≠ []

@[simp] theorem hdfGetValue_nil (name : String) : hdfGetValue [] name = none := rfl

theorem hdfGetObj_set (d : Dataset) (name : String) (value : Option Bytes) (name' : String) :
    hdfGetObj (hdfSetValue d name value) name' = if name' = name then some value else hdfGetObj d name' := by
  rw [hdfGetObj, hdfSetValue, List.lookup_cons]
  by_cases h : name' = name
  · simp [h]
  · simp [beq_false_of_ne h, h, hdfGetObj]

theorem hdfGetValue_cons (d : Dataset) (name : String) (value : Option Bytes) (name' : String) :
    hdfGetValue ((name, value) :: d) name' = if name' = name then value else hdfGetValue d name' := by
  have h := hdfGetObj_set d name value name'
  rw [hdfSetValue] at h
  rw [hdfGetValue, h]
  split <;> rfl

@[simp] theorem hdfGetValue_set (d : Dataset) (name : String) (value : Option Bytes) (name' : String) :
    hdfGetValue (hdfSetValue d name value) name' = if name' = name then value else hdfGetValue d name' :=
  hdfGetValue_cons d name value name'

theorem hdfGetValue_copy (dst src : Dataset) (name : String) :
    hdfGetValue (hdfCopy dst src) name =
      if (hdfGetObj src name).isSome then hdfGetValue src name else hdfGetValue dst name := by
  simp only [hdfGetValue, hdfGetObj, hdfCopy, List.lookup_append]
  obtain h | ⟨v, h⟩ := Option.eq_none_or_eq_some (src.lookup name) <;> simp [h]

theorem nonempty_eq_some {d : Dataset} {name : String} {v : Bytes} :
    nonempty d name = some v ↔ hdfGetValue d name = some v ∧ v ≠ [] := by
  simp [nonempty, Option.filter_eq_some_iff]

theorem nonempty_set (d : Dataset) (name : String) (value : Option Bytes) (name' : String) :
    nonempty (hdfSetValue d name value) name' =
      if name' = name then value.filter (· ≠ []) else nonempty d name' := by
  rw [nonempty, hdfGetValue_set]
  split <;> rfl

/-- Writing a number into a dataset and reading it back. -/
theorem hdfGetIntValue_set (d : Dataset) (name : String) {n : ℕ} (hn : n < 2 ^ 31) (default : ℤ) :
    hdfGetIntValue (hdfSetIntValue d name n) name default = n := by
  have hv : hdfGetValue (hdfSetIntValue d name n) name = some (printNat n) := by
    rw [hdfSetIntValue, hdfGetValue_set, if_pos rfl, printInt_natCast]
  have h := atoi_printNat hn
  rw [atoi, strtol, readInt_printNat, Option.getD_some] at h
  rw [hdfGetIntValue, hv, Option.bind_some, readInt_printNat]
  exact h

theorem nonempty_setInt (d : Dataset) (name : String) (n : ℕ) :
    nonempty (hdfSetIntValue d name n) name = some (printNat n) := by
  rw [hdfSetIntValue, nonempty_set, if_pos rfl, printInt_natCast, Option.filter_some,
    if_pos (decide_eq_true (printNat_ne_nil n))]

theorem nonempty_setInt_of_ne (d : Dataset) {name name' : String} (hne : name' ≠ name) (n : ℤ) :
    nonempty (hdfSetIntValue d name n) name' = nonempty d name' := by
  rw [hdfSetIntValue, nonempty_set, if_neg hne]

end Cmoon.Datasets
