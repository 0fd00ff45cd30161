import Cmoon.StatementBuilding
import Mathlib.Logic.Function.Basic

/-! # The member tables

The tables `member`, `car` and `memberreset`, the column lists of the member plugin, and
the statements the plugin sends. Which values a column takes (the range of a `smallint`,
the form of a `date`, the encoding of a text) is the server's own affair: `accepts`. -/
namespace Cmoon.MemberTables
open DecimalText Datasets StatementBuilding

abbrev Row := String → Value

/-- The row after the assignments; the columns of one statement are distinct. -/
def Row.assign (row : Row) (cols : Assignments) : Row := fun col =>
  match cols.lookup col with
  | some lit => lit.store
  | none => row col

theorem Row.assign_of_lookup_none {row : Row} {cols : Assignments} {col : String}
    (h : cols.lookup col = none) : row.assign cols col = row col := by
  rw [Row.assign, h]

def strCol (name : String) (maxlen : ℕ) (require : Bool) : ColumnSpec := ⟨name, name, .str, some maxlen, require⟩
def intCol (name : String) (require : Bool) : ColumnSpec := ⟨name, name, .int, none, require⟩

def updateColMember : List ColumnSpec :=
  [strCol "mnick" 256 false, strCol "msn" 256 false, strCol "mmsn" 256 false, intCol "male" false,
    intCol "statu" false, intCol "verify" false, intCol "credit" false, intCol "cityid" false,
    strCol "phone" 128 false, strCol "contact" 128 false]

def insertColMember : List ColumnSpec :=
  [intCol "mid" true, strCol "mname" 256 true, strCol "mnick" 256 true, strCol "msn" 256 true,
    strCol "mmsn" 256 false, intCol "male" false, intCol "statu" false, intCol "verify" false,
    intCol "credit" false, intCol "cityid" false, strCol "phone" 128 false, strCol "contact" 128 false]

def insertColCar : List ColumnSpec :=
  [intCol "mid" true, intCol "size" false, strCol "model" 64 false, strCol "mdate" 64 false]

theorem name_eq_col : ∀ spec ∈ updateColMember ++ insertColMember, spec.name = spec.col := by decide

/-- `_COL_MEMBER`, `_COL_MEMBER_ADMIN` and `_COL_CAR`, without the date of the registration. -/
def colMember : List String :=
  ["mid", "mname", "mnick", "msn", "mmsn", "male", "verify", "credit", "cityid"]
def colMemberAdmin : List String :=
  ["mid", "mname", "mnick", "msn", "mmsn", "male", "phone", "contact", "verify", "credit", "cityid"]
def colCar : List String := ["mid", "size", "model", "mdate"]

/-- `mdb_set_row`, into a dataset that may hold another row already. -/
def mdbSetRow (hdf : Dataset) (row : Row) (cols : List String) : Dataset :=
  cols.map (fun col => (col, some (row col).print)) ++ hdf

theorem hdfGetValue_mdbSetRow (hdf : Dataset) (row : Row) (cols : List String) (col : String) :
    hdfGetValue (mdbSetRow hdf row cols) col =
      if col ∈ cols then some (row col).print else hdfGetValue hdf col := by
  induction cols with
  | nil => rfl
  | cons c cols ih =>
    have hstep : hdfGetValue (mdbSetRow hdf row (c :: cols)) col =
        if col = c then some (row c).print else hdfGetValue (mdbSetRow hdf row cols) col :=
      hdfGetValue_cons _ c _ col
    rw [hstep, ih]
    by_cases hc : col = c
    · subst hc
      simp
    · simp [hc]

/-- The defaults of `CREATE TABLE member`, and those of `car`. -/
def memberDefault : Row := fun col =>
  if col ∈ ["mid", "male", "statu", "verify", "credit", "cityid"] then .int 0 else .text []
def carDefault : Row := fun col =>
  if col ∈ ["mid", "size"] then .int 0
  else if col = "mdate" then .text [50, 48, 49, 49, 45, 49, 48, 45, 49, 48]
  else .text []

def Row.mid (row : Row) : ℤ :=
  match row "mid" with
  | .int n => n
  | .text _ => 0

/-- The tables; `memberreset` holds the link of each name. -/
structure Database where
  member : ℤ → Option Row
  car : ℤ → Option Row
  memberreset : Bytes → Option Bytes

def emptyDb : Database := ⟨fun _ => none, fun _ => none, fun _ => none⟩

/-- The statements that change a table. -/
inductive Statement where
  | insertMember (cols : Assignments)
  | updateMember (cols : Assignments) (mid : ℤ)
  | insertCar (cols : Assignments)
  | mergeMemberreset (mname rlink : Bytes)
  deriving DecidableEq

/-- `mdb_exec`: nothing when the server refuses the statement. -/
def Database.exec (accepts : Assignments → Bool) (db : Database) : Statement → Option Database
  | .insertMember cols =>
    let row := memberDefault.assign cols
    if accepts cols && (db.member row.mid).isNone then
      some { db with member := Function.update db.member row.mid (some row) }
    else none
  | .updateMember cols mid =>
    if accepts cols then
      some { db with member := Function.update db.member mid ((db.member mid).map (·.assign cols)) }
    else none
  | .insertCar cols =>
    let row := carDefault.assign cols
    if accepts cols && (db.car row.mid).isNone then
      some { db with car := Function.update db.car row.mid (some row) }
    else none
  | .mergeMemberreset mname rlink =>
    some { db with memberreset := Function.update db.memberreset (varchar 256 mname) (some (varchar 256 rlink)) }

def Statement.Writes (mid : ℤ) : Statement → Prop
  | .insertMember cols => (memberDefault.assign cols).mid = mid
  | .updateMember _ mid' => mid' = mid
  | _ => False

theorem exec_member_frame {accepts : Assignments → Bool} {db db' : Database} {s : Statement}
    (h : db.exec accepts s = some db') {mid : ℤ} (hs : ¬ s.Writes mid) : db'.member mid = db.member mid := by
  cases s with
  | insertMember cols =>
    simp only [Database.exec] at h
    split at h
    · cases h
      exact Function.update_of_ne (fun hmid => hs hmid.symm) _ _
    · cases h
  | updateMember cols mid' =>
    simp only [Database.exec] at h
    split at h
    · cases h
      exact Function.update_of_ne (fun hmid => hs hmid.symm) _ _
    · cases h
  | insertCar cols =>
    simp only [Database.exec] at h
    split at h
    · cases h
      rfl
    · cases h
  | mergeMemberreset mname rlink =>
    cases h
    rfl

theorem execAll_single {accepts : Assignments → Bool} (db : Database) (s : Statement) :
    [s].foldlM (Database.exec accepts) db = db.exec accepts s := by
  rw [List.foldlM_cons]
  exact bind_pure _

theorem execAll_member_frame {accepts : Assignments → Bool} {db db' : Database} {l : List Statement}
    (h : l.foldlM (Database.exec accepts) db = some db') {mid : ℤ} (hl : ∀ s ∈ l, ¬ s.Writes mid) :
    db'.member mid = db.member mid := by
  induction l generalizing db with
  | nil => cases h; rfl
  | cons s l ih =>
    obtain ⟨hs, hl⟩ := List.forall_mem_cons.mp hl
    rw [List.foldlM_cons] at h
    obtain ⟨db₁, h₁, h⟩ := Option.bind_eq_some_iff.mp h
    rw [ih h hl, exec_member_frame h₁ hs]

end Cmoon.MemberTables
