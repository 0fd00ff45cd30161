import Cmoon.Datasets

/-! # The columns a statement writes

`mdb_build_incol` and `mdb_build_upcol` go through the configured columns and write those
that the dataset has a nonempty value for. A statement is kept as its columns with their
literals; the server reads an escaped text as the text itself. -/
namespace Cmoon.StatementBuilding
open DecimalText Datasets

inductive ColumnType where
  | str | int | float | point | box | path
  deriving DecidableEq

/-- One line of a column list: the field that is read, the column, and the attributes. -/
structure ColumnSpec where
  name : String
  col : String
  type : ColumnType
  maxlen : Option ℕ
  require : Bool

inductive Literal where
  | str (s : Bytes) (maxlen : Option ℕ)
  | int (n : ℤ)
  /-- `float`, `point`, `box` and `path`: the text that is converted. -/
  | converted (type : ColumnType) (s : Bytes)
  deriving DecidableEq

inductive Value where
  | text (s : Bytes)
  | int (n : ℤ)
  deriving DecidableEq

def Value.print : Value → Bytes
  | .text s => s
  | .int n => printInt n

/-- The cast to `varchar(n)`: the first `n` characters of a UTF-8 text. -/
def varchar : ℕ → Bytes → Bytes
  | _, [] => []
  | n, c :: s =>
    -- a continuation byte belongs to the character before it
    if c &&& 0xC0 = 0x80 then c :: varchar n s
    else match n with
      | 0 => []
      | n + 1 => c :: varchar n s

theorem varchar_of_length_le {n : ℕ} {s : Bytes} (h : s.length ≤ n) : varchar n s = s := by
  induction s generalizing n with
  | nil => cases n <;> rfl
  | cons c s ih =>
    obtain _ | n := n
    · simp at h
    · have hs : s.length ≤ n := by simpa using h
      rw [varchar, ih hs, ih (Nat.le_succ_of_le hs), ite_self]

def Literal.store : Literal → Value
  | .str s none => .text s
  | .str s (some n) => .text (varchar n s)
  | .int n => .int n
  | .converted _ s => .text s

inductive BuildError where
  | require (name : String) (type : ColumnType)
  | strLen
  deriving DecidableEq

abbrev Assignments := List (String × Literal)

def ColumnSpec.literal (spec : ColumnSpec) (val : Bytes) : Literal :=
  match spec.type with
  | .str => .str val spec.maxlen
  | .int => .int (atoi val)
  | type => .converted type val

/-- The loop over the configured columns, which both builders run. -/
def buildCols (data : Dataset) : List ColumnSpec → Except BuildError Assignments
  | [] => .ok []
  | spec :: specs =>
    match nonempty data spec.name with
    | some val => (buildCols data specs).map ((spec.col, spec.literal val) :: ·)
    | none => if spec.require then .error (.require spec.name spec.type) else buildCols data specs

def someCols (cols : Assignments) : Except BuildError Assignments :=
  if cols = [] then .error .strLen else .ok cols

def mdbBuildUpcol (data : Dataset) (specs : List ColumnSpec) : Except BuildError Assignments :=
  (buildCols data specs).bind someCols

def mdbBuildIncol (data : Dataset) (specs : List ColumnSpec) : Except BuildError Assignments :=
  (buildCols data specs).bind someCols

/-- The columns of the list that the dataset has a value for. -/
def givenCols (data : Dataset) (specs : List ColumnSpec) : Assignments :=
  specs.filterMap fun spec => (nonempty data spec.name).map fun val => (spec.col, spec.literal val)

def Complete (data : Dataset) (specs : List ColumnSpec) : Prop :=
  ∀ spec ∈ specs, spec.require = true → nonempty data spec.name ≠ none

theorem buildCols_ok {data : Dataset} {specs : List ColumnSpec} {cols : Assignments} :
    buildCols data specs = .ok cols ↔ Complete data specs ∧ cols = givenCols data specs := by
  induction specs generalizing cols with
  | nil =>
    constructor
    · rintro ⟨⟩
      exact ⟨fun _ hspec => (List.not_mem_nil hspec).elim, rfl⟩
    · rintro ⟨-, rfl⟩
      rfl
  | cons spec specs ih =>
    rw [buildCols, Complete, List.forall_mem_cons, givenCols, List.filterMap_cons]
    cases hval : nonempty data spec.name with
    | some val =>
      simp only [Option.map_some]
      constructor
      · intro h
        cases hrest : buildCols data specs with
        | error e =>
          rw [hrest] at h
          cases h
        | ok rest =>
          obtain ⟨hc, hr⟩ := ih.mp hrest
          rw [hrest] at h
          cases h
          exact ⟨⟨fun _ => nofun, hc⟩, congrArg _ hr⟩
      · rintro ⟨⟨-, hc⟩, rfl⟩
        rw [ih.mpr ⟨hc, rfl⟩]
        rfl
    | none =>
      cases hreq : spec.require with
      | true => simp
      | false =>
        simp only [Bool.false_eq_true, if_false, false_implies, true_and, Option.map_none]
        exact ih

theorem build_ok {data : Dataset} {specs : List ColumnSpec} {cols : Assignments} :
    (buildCols data specs).bind someCols = .ok cols ↔
      Complete data specs ∧ cols = givenCols data specs ∧ cols ≠ [] := by
  constructor
  · intro h
    cases hcols : buildCols data specs with
    | error e => rw [hcols] at h; cases h
    | ok cols' =>
      obtain ⟨hc, hg⟩ := buildCols_ok.mp hcols
      rw [hcols] at h
      by_cases hne : cols' = []
      · rw [Except.bind, someCols, if_pos hne] at h; cases h
      · rw [Except.bind, someCols, if_neg hne] at h
        cases h
        exact ⟨hc, hg, hne⟩
  · rintro ⟨hc, hg, hne⟩
    rw [buildCols_ok.mpr ⟨hc, hg⟩, Except.bind, someCols, if_neg hne]

theorem mdbBuildUpcol_ok {data : Dataset} {specs : List ColumnSpec} {cols : Assignments} :
    mdbBuildUpcol data specs = .ok cols ↔
      Complete data specs ∧ cols = givenCols data specs ∧ cols ≠ [] := build_ok

theorem mdbBuildIncol_ok {data : Dataset} {specs : List ColumnSpec} {cols : Assignments} :
    mdbBuildIncol data specs = .ok cols ↔
      Complete data specs ∧ cols = givenCols data specs ∧ cols ≠ [] := build_ok

theorem mem_givenCols {data : Dataset} {specs : List ColumnSpec} {col : String} {lit : Literal} :
    (col, lit) ∈ givenCols data specs ↔
      ∃ spec ∈ specs, ∃ val, nonempty data spec.name = some val ∧ spec.col = col ∧ spec.literal val = lit := by
  simp [givenCols, List.mem_filterMap]

theorem givenCols_lookup_none {data : Dataset} {specs : List ColumnSpec} {col : String}
    (h : ∀ spec ∈ specs, spec.col = col → nonempty data spec.name = none) :
    (givenCols data specs).lookup col = none := by
  rw [List.lookup_eq_none_iff]
  rintro ⟨col', lit⟩ hmem
  obtain ⟨spec, hspec, val, hval, rfl, -⟩ := mem_givenCols.mp hmem
  apply bne_iff_ne.mpr
  intro heq
  rw [h spec hspec heq.symm] at hval
  cases hval

theorem givenCols_congr {data data' : Dataset} {specs : List ColumnSpec}
    (h : ∀ spec ∈ specs, nonempty data spec.name = nonempty data' spec.name) :
    givenCols data specs = givenCols data' specs :=
  List.filterMap_congr fun spec hspec => by rw [h spec hspec]

end Cmoon.StatementBuilding
