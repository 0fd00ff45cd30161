import Cmoon.DecimalText

/-! # The three database drivers

After a successful execution the rows of a result set are counted and fetched. Two drivers keep the number of the next
row; the third one has a cursor, and counting the rows puts it back in front of the first. -/
namespace Cmoon.DatabaseDrivers
open DecimalText

/-- The result set of the library: `n` rows of `w` columns, whose values may be `NULL`. -/
structure ResultSet (w n : ℕ) where
  rows : List (List (Option Bytes))
  length : rows.length = n
  width : ∀ row ∈ rows, row.length = w

/-- A letter of the format of `mdb_geta`: `s`, or `S` for a copy of the value. -/
inductive Letter where
  | s | S
  deriving DecidableEq

/-- `[sS]+` -/
structure Fmt where
  letters : List Letter
  ne_nil : letters ≠ []
  deriving DecidableEq

inductive Call where
  | getRows
  | geta (fmt : Fmt)
  deriving DecidableEq

inductive Outcome where
  | count (n : ℕ)
  | row (values : List (Option Bytes))
  | notFound
  | outOfRange
  | assert
  | crash
  deriving DecidableEq

/-- The first `m` columns of a row; there is nothing beyond the last one. -/
def columns (row : List (Option Bytes)) (m : ℕ) : List (Option Bytes) := (List.range m).map fun i => row[i]?.join

section Drivers
variable {w n : ℕ} (rs : ResultSet w n)

def ResultSet.row (i : ℕ) : List (Option Bytes) := rs.rows.getD i []

/-- The outcome behind the last row, which `pgsql` and `mysql` have in common. -/
def behindLast (rowNo : ℕ) : Outcome := if rowNo = 0 then .notFound else .outOfRange

/-- `pgsql_mdb_query_get_rows` and `pgsql_mdb_query_geta`, with the number of the next row. -/
def pgsqlCall (rowNo : ℕ) : Call → Outcome × ℕ
  | .getRows => (.count n, rowNo)
  | .geta fmt =>
    if n ≤ rowNo then (behindLast rowNo, rowNo)
    else (.row (columns (rs.row rowNo) fmt.letters.length), rowNo + 1)

/-- The number of the next row, and the rows that `mysql_fetch_row` has given. -/
structure Mysql where
  rowNo : ℕ
  fetched : ℕ

def mysqlCall (st : Mysql) : Call → Outcome × Mysql
  | .getRows => (.count n, st)
  | .geta fmt =>
    if n ≤ st.rowNo then (behindLast st.rowNo, st)
    else if n ≤ st.fetched then (.outOfRange, st)
    else if w < fmt.letters.length then (.assert, { st with fetched := st.fetched + 1 })
    else (.row (columns (rs.row st.fetched) fmt.letters.length), ⟨st.rowNo + 1, st.fetched + 1⟩)

/-- `QUERY_STATE_ROW_PENDING`, `QUERY_STATE_ROW_READ` and `QUERY_STATE_COMPLETED`; the first is only met before the
first row. -/
inductive Sqlite where
  | pending
  | read (i : ℕ)
  | completed
  deriving DecidableEq

/-- `strdup` of a value that is `NULL`. -/
def copiesNull (letters : List Letter) (row : List (Option Bytes)) : Bool :=
  letters.zipIdx.any fun x => x.1 = .S && row[x.2]?.join.isNone

def sqliteRow (i : ℕ) (fmt : Fmt) : Outcome :=
  if copiesNull fmt.letters (rs.row i) then .crash else .row (columns (rs.row i) fmt.letters.length)

/-- The state after `sqlite3_reset` and one `sqlite3_step`. -/
def sqliteFirst (n : ℕ) : Sqlite := if n = 0 then .completed else .pending

def sqliteCall (st : Sqlite) : Call → Outcome × Sqlite
  | .getRows => (.count n, sqliteFirst n)
  | .geta fmt =>
    match st with
    | .completed => (.outOfRange, .completed)
    | .read i => if i + 1 < n then (sqliteRow rs (i + 1) fmt, .read (i + 1)) else (.outOfRange, .completed)
    | .pending => (sqliteRow rs 0 fmt, .read 0)

end Drivers

/-- The outcomes of a sequence of calls. Nothing comes after a crash. -/
def run {σ : Type} (call : σ → Call → Outcome × σ) : σ → List Call → List Outcome
  | _, [] => []
  | st, c :: calls =>
    let out := call st c
    if out.1 = .crash then [.crash] else out.1 :: run call out.2 calls

/-- The drivers give the same outcomes after an execution. -/
def AlikeOn {w n : ℕ} (calls : List Call) (rs : ResultSet w n) : Prop :=
  run (mysqlCall rs) ⟨0, 0⟩ calls = run (pgsqlCall rs) 0 calls ∧
    run (sqliteCall rs) (sqliteFirst n) calls = run (pgsqlCall rs) 0 calls

/-- `memset(fmt, 's', qrcnt)` for one column and `more`. -/
def plainFmt (more : ℕ) : Fmt := ⟨List.replicate (more + 1) .s, List.cons_ne_nil _ _⟩

/-- `mdb_set_row`: the row, or the error of `mdb_geta`. -/
def mdbSetRow {σ : Type} (call : σ → Call → Outcome × σ) (st : σ) (more : ℕ) : Outcome :=
  (call st (.geta (plainFmt more))).1

/-- The loop of `mdb_set_rows`: the rows, and the outcome that ends it. -/
def fetchAll {σ : Type} (call : σ → Call → Outcome × σ) (more : ℕ) : ℕ → σ → Option (List (List (Option Bytes)) × Outcome)
  | 0, _ => none
  | fuel + 1, st =>
    let out := call st (.geta (plainFmt more))
    match out.1 with
    | .row values => (fetchAll call more fuel out.2).map fun r => (values :: r.1, r.2)
    | err => some ([], err)

def mdbSetRows {σ : Type} (call : σ → Call → Outcome × σ) (st : σ) (more fuel : ℕ) :
    Option (List (List (Option Bytes)) × Option Outcome) :=
  (fetchAll call more fuel st).map fun r => (r.1, if r.2 = .outOfRange then none else some r.2)

/-- Both commands end alike with all drivers, right after an execution. -/
def SetsAlike {w n : ℕ} (rs : ResultSet w n) (more : ℕ) : Prop :=
  (mdbSetRow (mysqlCall rs) ⟨0, 0⟩ more = mdbSetRow (pgsqlCall rs) 0 more ∧
      mdbSetRow (sqliteCall rs) (sqliteFirst n) more = mdbSetRow (pgsqlCall rs) 0 more) ∧
    mdbSetRows (mysqlCall rs) ⟨0, 0⟩ more (n + 1) = mdbSetRows (pgsqlCall rs) 0 more (n + 1) ∧
      mdbSetRows (sqliteCall rs) (sqliteFirst n) more (n + 1) = mdbSetRows (pgsqlCall rs) 0 more (n + 1)

/-- A format for columns that are there, without copies. -/
def Fmt.Fits (w : ℕ) (fmt : Fmt) : Prop := fmt.letters.length ≤ w ∧ .S ∉ fmt.letters

/-- The rows are counted before the first fetch and after the last one only, nothing is fetched from an empty result
set, and the formats that rows are fetched with fit. -/
def Clean (w n : ℕ) (calls : List Call) : Prop :=
  ∃ (before : ℕ) (fmts : List Fmt) (after : ℕ),
    calls = List.replicate before .getRows ++ (fmts.map .geta ++ List.replicate after .getRows) ∧
    (fmts ≠ [] → n ≠ 0) ∧ ∀ fmt ∈ fmts.take n, fmt.Fits w

/-- As it is with the rows of one result set: a format may copy what is not `NULL`. -/
def CleanFor {w n : ℕ} (rs : ResultSet w n) (calls : List Call) : Prop :=
  ∃ (before : ℕ) (fmts : List Fmt) (after : ℕ),
    calls = List.replicate before .getRows ++ (fmts.map .geta ++ List.replicate after .getRows) ∧
    (fmts ≠ [] → n ≠ 0) ∧
    ∀ x ∈ (fmts.take n).zipIdx, x.1.letters.length ≤ w ∧ copiesNull x.1.letters (rs.row x.2) = false

theorem run_head {σ : Type} (call : σ → Call → Outcome × σ) (st : σ) (c : Call) (calls : List Call) :
    (run call st (c :: calls)).head? = some (call st c).1 := by
  rw [run]
  split_ifs with h
  · rw [h]
    rfl
  · rfl

theorem run_cons_eq_iff {σ τ : Type} {call : σ → Call → Outcome × σ} {call' : τ → Call → Outcome × τ} {s : σ} {t : τ}
    {c : Call} (hcrash : (call' t c).1 ≠ .crash) (calls : List Call) :
    run call s (c :: calls) = run call' t (c :: calls) ↔
      (call s c).1 = (call' t c).1 ∧ run call (call s c).2 calls = run call' (call' t c).2 calls := by
  constructor
  · intro h
    have hfirst : (call s c).1 = (call' t c).1 := by
      have hhead := congrArg List.head? h
      rw [run_head, run_head] at hhead
      exact Option.some.inj hhead
    rw [run, run] at h
    rw [if_neg hcrash, if_neg (hfirst ▸ hcrash)] at h
    exact ⟨hfirst, (List.cons.inj h).2⟩
  · intro h
    rw [run, run]
    rw [if_neg hcrash, if_neg (h.1 ▸ hcrash), h.1, h.2]

section Steps
variable {w n : ℕ} (rs : ResultSet w n)

theorem pgsqlCall_ne_crash (k : ℕ) (c : Call) : (pgsqlCall rs k c).1 ≠ .crash := by
  cases c with
  | getRows => exact Outcome.noConfusion
  | geta fmt =>
    rw [pgsqlCall]
    split_ifs with h
    · unfold behindLast
      split_ifs <;> exact Outcome.noConfusion
    · exact Outcome.noConfusion

/-- The cursor, when `j` rows have been fetched since it was set in front of the first. -/
def cursorAt (n j : ℕ) : Sqlite :=
  match j with
  | 0 => sqliteFirst n
  | j + 1 => .read j

theorem pgsql_fetch {k : ℕ} (hk : k < n) (fmt : Fmt) :
    pgsqlCall rs k (.geta fmt) = (.row (columns (rs.row k) fmt.letters.length), k + 1) :=
  if_neg (Nat.not_le.mpr hk)

theorem mysql_fetch {k : ℕ} (hk : k < n) {fmt : Fmt} (hfmt : fmt.letters.length ≤ w) :
    mysqlCall rs ⟨k, k⟩ (.geta fmt) = (.row (columns (rs.row k) fmt.letters.length), ⟨k + 1, k + 1⟩) := by
  rw [mysqlCall, if_neg (Nat.not_le.mpr hk), if_neg (Nat.not_le.mpr hk), if_neg (Nat.not_lt.mpr hfmt)]

theorem mysql_assert {k : ℕ} (hk : k < n) {fmt : Fmt} (hfmt : ¬ fmt.letters.length ≤ w) :
    (mysqlCall rs ⟨k, k⟩ (.geta fmt)).1 = .assert := by
  rw [mysqlCall, if_neg (Nat.not_le.mpr hk), if_neg (Nat.not_le.mpr hk), if_pos (Nat.not_le.mp hfmt)]

theorem sqlite_fetch {j : ℕ} (hj : j < n) (fmt : Fmt) :
    sqliteCall rs (cursorAt n j) (.geta fmt) = (sqliteRow rs j fmt, cursorAt n (j + 1)) := by
  cases j with
  | zero =>
    rw [cursorAt, sqliteFirst, if_neg (Nat.ne_of_gt hj)]
    rfl
  | succ j =>
    rw [cursorAt, sqliteCall, if_pos hj]
    rfl

theorem sqlite_last (fmt : Fmt) : sqliteCall rs (cursorAt n n) (.geta fmt) = (.outOfRange, .completed) := by
  cases n with
  | zero => rfl
  | succ n => exact if_neg (Nat.lt_irrefl _)

/-- Behind the last row it makes no difference whether the cursor has met the end. -/
theorem run_completed (calls : List Call) :
    run (sqliteCall rs) .completed calls = run (sqliteCall rs) (cursorAt n n) calls := by
  cases calls with
  | nil => rfl
  | cons c calls =>
    cases c with
    | getRows => rfl
    | geta fmt =>
      rw [run, run, sqlite_last]
      rfl

theorem copiesNull_of_plain {letters : List Letter} (h : .S ∉ letters) (row : List (Option Bytes)) :
    copiesNull letters row = false := by
  unfold copiesNull
  rw [List.any_eq_false]
  intro x hx hnull
  simp only [Bool.and_eq_true, decide_eq_true_eq] at hnull
  exact h (hnull.1 ▸ List.fst_mem_of_mem_zipIdx hx)

theorem sqliteRow_of_fits (i : ℕ) {fmt : Fmt} (h : .S ∉ fmt.letters) :
    sqliteRow rs i fmt = .row (columns (rs.row i) fmt.letters.length) := by
  unfold sqliteRow
  rw [copiesNull_of_plain h]
  rfl

end Steps

def distinct (w n : ℕ) : ResultSet w n where
  rows := (List.range n).map fun i => List.replicate w (some (List.replicate i 0))
  length := by rw [List.length_map, List.length_range]
  width := by
    intro row hrow
    obtain ⟨i, -, rfl⟩ := List.mem_map.mp hrow
    exact List.length_replicate

def nulls (w n : ℕ) : ResultSet w n where
  rows := List.replicate n (List.replicate w none)
  length := List.length_replicate
  width := by
    intro row hrow
    rw [List.eq_of_mem_replicate hrow]
    exact List.length_replicate

theorem distinct_row {w n i : ℕ} (hi : i < n) :
    (distinct w n).row i = List.replicate w (some (List.replicate i 0)) := by
  unfold ResultSet.row distinct
  dsimp only
  rw [List.getD_eq_getElem?_getD, List.getElem?_map, List.getElem?_range hi]
  rfl

/-- The first value of a row is among those that any format reads. -/
theorem columns_first {row : List (Option Bytes)} {fmt : Fmt} {v : Option Bytes} (h : row[0]? = some v) :
    (columns row fmt.letters.length).head? = some v := by
  have hpos : 0 < fmt.letters.length := List.length_pos_iff.mpr fmt.ne_nil
  unfold columns
  rw [List.head?_map, List.head?_range, if_neg (Nat.ne_of_gt hpos), Option.map_some, h]
  rfl

theorem distinct_columns {w n i j : ℕ} (hi : i < n) (hj : j < n) {fmt : Fmt} (hfmt : fmt.letters.length ≤ w)
    (h : columns ((distinct w n).row i) fmt.letters.length = columns ((distinct w n).row j) fmt.letters.length) :
    i = j := by
  have hpos : 0 < w := Nat.lt_of_lt_of_le (List.length_pos_iff.mpr fmt.ne_nil) hfmt
  have hrow (k : ℕ) : (List.replicate w (some (List.replicate k (0 : UInt8))))[0]? = some (some (List.replicate k 0)) := by
    rw [List.getElem?_replicate, if_pos hpos]
  have hhead := congrArg List.head? h
  rw [distinct_row hi, distinct_row hj, columns_first (hrow i), columns_first (hrow j)] at hhead
  have hlength := congrArg List.length (Option.some.inj (Option.some.inj hhead))
  rwa [List.length_replicate, List.length_replicate] at hlength

theorem nulls_value (w n i m : ℕ) : ((nulls w n).row i)[m]?.join = none := by
  unfold ResultSet.row nulls
  dsimp only
  rw [List.getD_eq_getElem?_getD, List.getElem?_replicate]
  split_ifs
  · rw [Option.getD_some, List.getElem?_replicate]
    split_ifs <;> rfl
  · rfl

theorem nulls_crash {w n : ℕ} (i : ℕ) {fmt : Fmt} (h : .S ∈ fmt.letters) : sqliteRow (nulls w n) i fmt = .crash := by
  have hcopies : copiesNull fmt.letters ((nulls w n).row i) = true := by
    obtain ⟨m, hm⟩ := List.getElem?_of_mem h
    unfold copiesNull
    rw [List.any_eq_true]
    refine ⟨(.S, m), List.mem_zipIdx_iff_getElem?.mpr hm, ?_⟩
    rw [nulls_value]
    rfl
  rw [sqliteRow, hcopies]
  rfl

/-- The calls that may come when `k` rows have been fetched in all, and `j` of them since the rows were last counted. -/
def Harmless (w n : ℕ) : ℕ → ℕ → List Call → Prop
  | _, _, [] => True
  | k, _, .getRows :: calls => Harmless w n k 0 calls
  | k, j, .geta fmt :: calls =>
    if k < n then (fmt.Fits w ∧ k = j) ∧ Harmless w n (k + 1) (j + 1) calls
    else (n ≠ 0 ∧ j = n) ∧ Harmless w n k j calls

/-- The drivers go on alike from such a state, for every result set. -/
def AlikeFrom (w n k j : ℕ) (calls : List Call) : Prop :=
  ∀ rs : ResultSet w n, run (mysqlCall rs) ⟨k, k⟩ calls = run (pgsqlCall rs) k calls ∧
    run (sqliteCall rs) (cursorAt n j) calls = run (pgsqlCall rs) k calls

variable {w n k j : ℕ} {calls : List Call}

theorem alikeFrom_nil : AlikeFrom w n k j [] := fun _ => ⟨rfl, rfl⟩

theorem alikeFrom_getRows : AlikeFrom w n k j (.getRows :: calls) ↔ AlikeFrom w n k 0 calls := by
  apply forall_congr'
  intro rs
  have hcrash := pgsqlCall_ne_crash rs k .getRows
  rw [run_cons_eq_iff hcrash, run_cons_eq_iff hcrash]
  exact ⟨fun h => ⟨h.1.2, h.2.2⟩, fun h => ⟨⟨rfl, h.1⟩, rfl, h.2⟩⟩

/-- A row is fetched alike when it is the one that comes next for all three, and its format fits. -/
theorem alikeFrom_fetch (hj : j ≤ k) (hk : k < n) (fmt : Fmt) :
    AlikeFrom w n k j (.geta fmt :: calls) ↔ (fmt.Fits w ∧ k = j) ∧ AlikeFrom w n (k + 1) (j + 1) calls := by
  have hstep (rs : ResultSet w n) := @run_cons_eq_iff _ _ (mysqlCall rs) _ ⟨k, k⟩ _ _
    (pgsqlCall_ne_crash rs k (.geta fmt)) calls
  have hcursor (rs : ResultSet w n) := @run_cons_eq_iff _ _ (sqliteCall rs) _ (cursorAt n j) _ _
    (pgsqlCall_ne_crash rs k (.geta fmt)) calls
  constructor
  · intro h
    have hlength : fmt.letters.length ≤ w := by
      by_contra hnot
      have hfirst := ((hstep (nulls w n)).mp (h (nulls w n)).1).1
      rw [mysql_assert _ hk hnot, pgsql_fetch _ hk] at hfirst
      cases hfirst
    have hplain : .S ∉ fmt.letters := by
      intro hS
      have hfirst := ((hcursor (nulls w n)).mp (h (nulls w n)).2).1
      rw [sqlite_fetch _ (Nat.lt_of_le_of_lt hj hk), nulls_crash j hS, pgsql_fetch _ hk] at hfirst
      cases hfirst
    have hkj : k = j := by
      have hfirst := ((hcursor (distinct w n)).mp (h (distinct w n)).2).1
      rw [sqlite_fetch _ (Nat.lt_of_le_of_lt hj hk), sqliteRow_of_fits _ j hplain, pgsql_fetch _ hk] at hfirst
      exact (distinct_columns (Nat.lt_of_le_of_lt hj hk) hk hlength (Outcome.row.inj hfirst)).symm
    subst hkj
    refine ⟨⟨⟨hlength, hplain⟩, rfl⟩, ?_⟩
    intro rs
    have hmysql := ((hstep rs).mp (h rs).1).2
    have hsqlite := ((hcursor rs).mp (h rs).2).2
    rw [mysql_fetch rs hk hlength, pgsql_fetch rs hk] at hmysql
    rw [sqlite_fetch rs hk, pgsql_fetch rs hk] at hsqlite
    exact ⟨hmysql, hsqlite⟩
  · intro ⟨⟨hfits, hkj⟩, h⟩
    subst hkj
    intro rs
    rw [hstep, hcursor, mysql_fetch rs hk hfits.1, sqlite_fetch rs hk, sqliteRow_of_fits rs k hfits.2, pgsql_fetch rs hk]
    exact ⟨⟨rfl, (h rs).1⟩, rfl, (h rs).2⟩

/-- Behind the last row all three are alike when there was a row, and the cursor is behind the last one, too. -/
theorem alikeFrom_last (hj : j ≤ n) (fmt : Fmt) :
    AlikeFrom w n n j (.geta fmt :: calls) ↔ (n ≠ 0 ∧ j = n) ∧ AlikeFrom w n n j calls := by
  have hpgsql (rs : ResultSet w n) : pgsqlCall rs n (.geta fmt) = (behindLast n, n) := if_pos (Nat.le_refl n)
  have hmysql (rs : ResultSet w n) : mysqlCall rs ⟨n, n⟩ (.geta fmt) = (behindLast n, ⟨n, n⟩) := if_pos (Nat.le_refl n)
  have hstep (rs : ResultSet w n) := @run_cons_eq_iff _ _ (mysqlCall rs) _ ⟨n, n⟩ _ _
    (pgsqlCall_ne_crash rs n (.geta fmt)) calls
  have hcursor (rs : ResultSet w n) := @run_cons_eq_iff _ _ (sqliteCall rs) _ (cursorAt n j) _ _
    (pgsqlCall_ne_crash rs n (.geta fmt)) calls
  have hnot_row (i : ℕ) (rs : ResultSet w n) : sqliteRow rs i fmt ≠ behindLast n := by
    unfold sqliteRow behindLast
    split_ifs <;> exact Outcome.noConfusion
  constructor
  · intro h
    have hjn : j = n := by
      by_contra hne
      have hlt : j < n := Nat.lt_of_le_of_ne hj hne
      have hfirst := ((hcursor (nulls w n)).mp (h (nulls w n)).2).1
      rw [sqlite_fetch _ hlt, hpgsql] at hfirst
      exact hnot_row j _ hfirst
    subst hjn
    have hn : j ≠ 0 := by
      intro h0
      have hfirst := ((hcursor (nulls w j)).mp (h (nulls w j)).2).1
      rw [sqlite_last, hpgsql, behindLast, if_pos h0] at hfirst
      cases hfirst
    refine ⟨⟨hn, rfl⟩, ?_⟩
    intro rs
    have hmore := ((hstep rs).mp (h rs).1).2
    have hmore' := ((hcursor rs).mp (h rs).2).2
    rw [hmysql, hpgsql] at hmore
    rw [sqlite_last, hpgsql, run_completed] at hmore'
    exact ⟨hmore, hmore'⟩
  · intro ⟨⟨hn, hjn⟩, h⟩
    subst hjn
    intro rs
    rw [hstep, hcursor, hmysql, sqlite_last, hpgsql, run_completed, behindLast, if_neg hn]
    exact ⟨⟨rfl, (h rs).1⟩, rfl, (h rs).2⟩

theorem alikeFrom_iff_harmless (hj : j ≤ k) (hk : k ≤ n) : AlikeFrom w n k j calls ↔ Harmless w n k j calls := by
  induction calls generalizing k j with
  | nil => exact ⟨fun _ => trivial, fun _ => alikeFrom_nil⟩
  | cons c calls ih =>
    cases c with
    | getRows => rw [alikeFrom_getRows, Harmless, ih (Nat.zero_le k) hk]
    | geta fmt =>
      rw [Harmless]
      by_cases hlt : k < n
      · rw [if_pos hlt, alikeFrom_fetch hj hlt, ih (Nat.succ_le_succ hj) hlt]
      · obtain rfl : k = n := Nat.le_antisymm hk (Nat.not_lt.mp hlt)
        rw [if_neg hlt, alikeFrom_last hj, ih hj hk]

/-- Once the rows have been counted again, nothing may be fetched. -/
theorem harmless_recounted (hk : 0 < k) (hkn : k ≤ n) :
    Harmless w n k 0 calls ↔ ∃ after, calls = List.replicate after .getRows := by
  induction calls with
  | nil => exact ⟨fun _ => ⟨0, rfl⟩, fun _ => trivial⟩
  | cons c calls ih =>
    cases c with
    | getRows =>
      rw [Harmless, ih]
      constructor
      · intro ⟨after, h⟩
        exact ⟨after + 1, congrArg _ h⟩
      · intro ⟨after, h⟩
        cases after with
        | zero => cases h
        | succ after => exact ⟨after, (List.cons.inj h).2⟩
    | geta fmt =>
      constructor
      · intro h
        rw [Harmless] at h
        split_ifs at h
        · omega
        · omega
      · intro ⟨after, h⟩
        cases after with
        | zero => cases h
        | succ after => cases (List.cons.inj h).1

theorem getRows_cons_iff {fmts : List Fmt} {after : ℕ} :
    .getRows :: calls = fmts.map .geta ++ List.replicate after .getRows ↔
      fmts = [] ∧ ∃ rest, after = rest + 1 ∧ calls = List.replicate rest .getRows := by
  constructor
  · intro h
    cases fmts with
    | cons fmt fmts => cases (List.cons.inj h).1
    | nil =>
      cases after with
      | zero => cases h
      | succ rest => exact ⟨rfl, rest, rfl, (List.cons.inj h).2⟩
  · rintro ⟨rfl, rest, rfl, rfl⟩
    rfl

theorem geta_cons_iff {fmt : Fmt} {fmts : List Fmt} {after : ℕ} :
    .geta fmt :: calls = fmts.map .geta ++ List.replicate after .getRows ↔
      ∃ rest, fmts = fmt :: rest ∧ calls = rest.map .geta ++ List.replicate after .getRows := by
  constructor
  · intro h
    cases fmts with
    | nil => cases after <;> cases h
    | cons fmt' rest =>
      obtain ⟨hfirst, hrest⟩ := List.cons.inj h
      cases hfirst
      exact ⟨rest, rfl, hrest⟩
  · rintro ⟨rest, rfl, rfl⟩
    rfl

theorem harmless_fetching (hk : 0 < k) (hkn : k ≤ n) :
    Harmless w n k k calls ↔ ∃ (fmts : List Fmt) (after : ℕ), calls = fmts.map .geta ++ List.replicate after .getRows ∧
      ∀ fmt ∈ fmts.take (n - k), fmt.Fits w := by
  induction calls generalizing k with
  | nil => exact ⟨fun _ => ⟨[], 0, rfl, by simp⟩, fun _ => trivial⟩
  | cons c calls ih =>
    cases c with
    | getRows =>
      rw [Harmless, harmless_recounted hk hkn]
      constructor
      · intro ⟨after, h⟩
        exact ⟨[], after + 1, congrArg _ h, by simp⟩
      · intro ⟨fmts, after, h, _⟩
        obtain ⟨-, rest, -, hcalls⟩ := getRows_cons_iff.mp h
        exact ⟨rest, hcalls⟩
    | geta fmt =>
      rw [Harmless]
      split_ifs with hlt
      · rw [ih (Nat.succ_pos k) hlt]
        have htake (fmts : List Fmt) : (∀ f ∈ (fmt :: fmts).take (n - k), f.Fits w) ↔
            fmt.Fits w ∧ ∀ f ∈ fmts.take (n - (k + 1)), f.Fits w := by
          rw [show n - k = n - (k + 1) + 1 by omega, List.take_succ_cons, List.forall_mem_cons]
        constructor
        · intro ⟨⟨hfits, _⟩, fmts, after, h, hall⟩
          exact ⟨fmt :: fmts, after, congrArg _ h, (htake fmts).mpr ⟨hfits, hall⟩⟩
        · intro ⟨fmts, after, h, hall⟩
          obtain ⟨rest, rfl, hcalls⟩ := geta_cons_iff.mp h
          exact ⟨⟨((htake rest).mp hall).1, rfl⟩, rest, after, hcalls, ((htake rest).mp hall).2⟩
      · obtain rfl : k = n := Nat.le_antisymm hkn (Nat.not_lt.mp hlt)
        rw [ih hk (Nat.le_refl k)]
        constructor
        · intro ⟨_, fmts, after, h, _⟩
          exact ⟨fmt :: fmts, after, congrArg _ h, by simp⟩
        · intro ⟨fmts, after, h, _⟩
          obtain ⟨rest, rfl, hcalls⟩ := geta_cons_iff.mp h
          exact ⟨⟨Nat.ne_of_gt hk, rfl⟩, rest, after, hcalls, by simp⟩

theorem harmless_iff_clean : Harmless w n 0 0 calls ↔ Clean w n calls := by
  induction calls with
  | nil => exact ⟨fun _ => ⟨0, [], 0, rfl, fun h => (h rfl).elim, by simp⟩, fun _ => trivial⟩
  | cons c calls ih =>
    cases c with
    | getRows =>
      rw [Harmless, ih]
      constructor
      · intro ⟨before, fmts, after, h, hne, hall⟩
        exact ⟨before + 1, fmts, after, congrArg _ h, hne, hall⟩
      · intro ⟨before, fmts, after, h, hne, hall⟩
        cases before with
        | succ before => exact ⟨before, fmts, after, (List.cons.inj h).2, hne, hall⟩
        | zero =>
          obtain ⟨rfl, rest, -, hcalls⟩ := getRows_cons_iff.mp h
          exact ⟨0, [], rest, hcalls, hne, hall⟩
    | geta fmt =>
      rw [Harmless]
      split_ifs with hn
      · have htake (fmts : List Fmt) : (∀ f ∈ (fmt :: fmts).take n, f.Fits w) ↔
            fmt.Fits w ∧ ∀ f ∈ fmts.take (n - (0 + 1)), f.Fits w := by
          obtain ⟨m, rfl⟩ := Nat.exists_eq_add_of_lt hn
          rw [Nat.zero_add, List.take_succ_cons, List.forall_mem_cons, Nat.zero_add, Nat.add_sub_cancel]
        rw [harmless_fetching (Nat.succ_pos 0) hn]
        constructor
        · intro ⟨⟨hfits, _⟩, fmts, after, h, hall⟩
          exact ⟨0, fmt :: fmts, after, congrArg _ h, fun _ => Nat.ne_of_gt hn, (htake fmts).mpr ⟨hfits, hall⟩⟩
        · intro ⟨before, fmts, after, h, _, hall⟩
          cases before with
          | succ before => cases (List.cons.inj h).1
          | zero =>
            obtain ⟨rest, rfl, hcalls⟩ := geta_cons_iff.mp h
            exact ⟨⟨((htake rest).mp hall).1, rfl⟩, rest, after, hcalls, ((htake rest).mp hall).2⟩
      · constructor
        · intro h
          exact (hn (Nat.pos_of_ne_zero h.1.1)).elim
        · intro ⟨before, fmts, after, h, hne, _⟩
          cases before with
          | succ before => cases (List.cons.inj h).1
          | zero =>
            obtain ⟨rest, rfl, -⟩ := geta_cons_iff.mp h
            exact (hn (Nat.pos_of_ne_zero (hne (List.cons_ne_nil _ _)))).elim

section Rows
variable (rs : ResultSet w n)

theorem run_counts {σ : Type} {call : σ → Call → Outcome × σ} (hcall : ∀ st, (call st .getRows).1 = .count n)
    (after : ℕ) (st : σ) : run call st (List.replicate after .getRows) = List.replicate after (.count n) := by
  induction after generalizing st with
  | zero => rfl
  | succ after ih => rw [List.replicate_succ, run, hcall, if_neg Outcome.noConfusion, ih, List.replicate_succ]

theorem alike_fetching {fmts : List Fmt} (after : ℕ) (hk : k ≤ n) (hne : fmts ≠ [] → n ≠ 0)
    (hfits : ∀ x ∈ (fmts.take (n - k)).zipIdx k,
      x.1.letters.length ≤ w ∧ copiesNull x.1.letters (rs.row x.2) = false) :
    run (mysqlCall rs) ⟨k, k⟩ (fmts.map .geta ++ List.replicate after .getRows) =
        run (pgsqlCall rs) k (fmts.map .geta ++ List.replicate after .getRows) ∧
      run (sqliteCall rs) (cursorAt n k) (fmts.map .geta ++ List.replicate after .getRows) =
        run (pgsqlCall rs) k (fmts.map .geta ++ List.replicate after .getRows) := by
  induction fmts generalizing k with
  | nil =>
    have hpgsql : run (pgsqlCall rs) k _ = _ := run_counts (fun _ => rfl) after k
    rw [List.map_nil, List.nil_append, hpgsql]
    exact ⟨run_counts (fun _ => rfl) after _, run_counts (fun _ => rfl) after _⟩
  | cons fmt fmts ih =>
    have hn : n ≠ 0 := hne (List.cons_ne_nil _ _)
    have hcrash := pgsqlCall_ne_crash rs k (.geta fmt)
    rw [List.map_cons, List.cons_append, run_cons_eq_iff hcrash, run_cons_eq_iff hcrash]
    by_cases hlt : k < n
    · rw [show n - k = n - (k + 1) + 1 by omega, List.take_succ_cons, List.zipIdx_cons, List.forall_mem_cons] at hfits
      obtain ⟨⟨hlength, hcopies⟩, hfits⟩ := hfits
      have hrow : sqliteRow rs k fmt = .row (columns (rs.row k) fmt.letters.length) := by
        rw [sqliteRow, hcopies]
        rfl
      rw [mysql_fetch rs hlt hlength, sqlite_fetch rs hlt, pgsql_fetch rs hlt, hrow]
      obtain ⟨hmysql, hsqlite⟩ := ih hlt (fun _ => hn) hfits
      exact ⟨⟨rfl, hmysql⟩, rfl, hsqlite⟩
    · -- behind the last row
      obtain rfl : k = n := Nat.le_antisymm hk (Nat.not_lt.mp hlt)
      have hpgsql : pgsqlCall rs k (.geta fmt) = (.outOfRange, k) := by
        rw [pgsqlCall, if_pos le_rfl, behindLast, if_neg hn]
      have hmysql : mysqlCall rs ⟨k, k⟩ (.geta fmt) = (.outOfRange, ⟨k, k⟩) := by
        rw [mysqlCall, if_pos le_rfl, behindLast, if_neg hn]
      rw [hpgsql, hmysql, sqlite_last, run_completed]
      obtain ⟨hrest, hrest'⟩ := ih le_rfl (fun _ => hn) (by simp)
      exact ⟨⟨rfl, hrest⟩, rfl, hrest'⟩

theorem alikeOn_of_cleanFor (h : CleanFor rs calls) : AlikeOn calls rs := by
  obtain ⟨before, fmts, after, rfl, hne, hfits⟩ := h
  induction before with
  | zero => exact alike_fetching rs after (Nat.zero_le n) hne hfits
  | succ before ih =>
    have hcrash := pgsqlCall_ne_crash rs 0 .getRows
    obtain ⟨hmysql, hsqlite⟩ := ih
    unfold AlikeOn
    rw [List.replicate_succ, List.cons_append, run_cons_eq_iff hcrash, run_cons_eq_iff hcrash]
    exact ⟨⟨rfl, hmysql⟩, rfl, hsqlite⟩

end Rows

theorem plainFmt_plain (more : ℕ) : .S ∉ (plainFmt more).letters := by
  intro h
  exact Letter.noConfusion (List.eq_of_mem_replicate h)

theorem plainFmt_length (more : ℕ) : (plainFmt more).letters.length = more + 1 := List.length_replicate

def rowsFrom (rs : ResultSet w n) (more k : ℕ) : List (List (Option Bytes)) :=
  (List.range' k (n - k)).map fun i => columns (rs.row i) (more + 1)

theorem rowsFrom_of_lt (rs : ResultSet w n) (more : ℕ) (hk : k < n) :
    rowsFrom rs more k = columns (rs.row k) (more + 1) :: rowsFrom rs more (k + 1) := by
  rw [rowsFrom, show n - k = n - (k + 1) + 1 by omega, List.range'_succ, List.map_cons, rowsFrom]

/-- A driver that fetches row after row gives all of them, with fuel for one call more. -/
theorem fetchAll_eq {σ : Type} {call : σ → Call → Outcome × σ} {p : ℕ → σ} (rs : ResultSet w n) (more : ℕ)
    (hfetch : ∀ i < n, call (p i) (.geta (plainFmt more)) = (.row (columns (rs.row i) (more + 1)), p (i + 1)))
    (hlast : (call (p n) (.geta (plainFmt more))).1 = .outOfRange) (hk : k ≤ n) :
    fetchAll call more (n - k + 1) (p k) = some (rowsFrom rs more k, .outOfRange) := by
  induction hm : n - k generalizing k with
  | zero =>
    obtain rfl : k = n := by omega
    rw [rowsFrom, Nat.sub_self, fetchAll, hlast]
    rfl
  | succ m ih =>
    have hlt : k < n := by omega
    have hrest := ih (Nat.succ_le_of_lt hlt) (by omega)
    rw [fetchAll, hfetch k hlt]
    dsimp only
    rw [hrest, rowsFrom_of_lt rs more hlt]
    rfl

theorem mdbSetRows_eq {σ : Type} {call : σ → Call → Outcome × σ} {p : ℕ → σ} (rs : ResultSet w n) (more : ℕ)
    (hfetch : ∀ i < n, call (p i) (.geta (plainFmt more)) = (.row (columns (rs.row i) (more + 1)), p (i + 1)))
    (hlast : (call (p n) (.geta (plainFmt more))).1 = .outOfRange) :
    mdbSetRows call (p 0) more (n + 1) = some (rowsFrom rs more 0, none) := by
  have h := fetchAll_eq rs more hfetch hlast (Nat.zero_le n)
  rw [Nat.sub_zero] at h
  rw [mdbSetRows, h]
  rfl

/-- A row and the rows go into a dataset alike exactly when there is a row and it has the columns. -/
theorem setsAlike_iff (rs : ResultSet w n) (more : ℕ) : SetsAlike rs more ↔ n ≠ 0 ∧ more < w := by
  have hplain := plainFmt_plain more
  have hlength := plainFmt_length more
  constructor
  · intro ⟨⟨hmysql, hsqlite⟩, _⟩
    have hn : n ≠ 0 := by
      intro h0
      subst h0
      cases hsqlite
    have hpos := Nat.pos_of_ne_zero hn
    refine ⟨hn, ?_⟩
    by_contra hmore
    rw [mdbSetRow, mdbSetRow, mysql_assert rs hpos (by rw [hlength]; exact hmore), pgsql_fetch rs hpos] at hmysql
    cases hmysql
  · intro ⟨hn, hmore⟩
    have hpos := Nat.pos_of_ne_zero hn
    have hlast (rowNo : ℕ) (h : rowNo = n) : behindLast rowNo = .outOfRange := by
      rw [behindLast, if_neg (h ▸ hn)]
    have hpgsql (i : ℕ) (hi : i < n) := pgsql_fetch rs hi (plainFmt more)
    have hmysql (i : ℕ) (hi : i < n) := @mysql_fetch w n rs i hi (plainFmt more) (by rw [hlength]; exact hmore)
    have hsqlite (i : ℕ) (hi : i < n) := sqlite_fetch rs hi (plainFmt more)
    simp only [hlength] at hpgsql hmysql
    simp only [sqliteRow_of_fits rs _ hplain, hlength] at hsqlite
    have hrows := mdbSetRows_eq (p := id) rs more hpgsql (by
      rw [pgsqlCall, id_eq, if_pos (Nat.le_refl n)]
      exact hlast n rfl)
    have hrows' := mdbSetRows_eq (p := fun i => Mysql.mk i i) rs more hmysql (by
      have hbehind : mysqlCall rs ⟨n, n⟩ (.geta (plainFmt more)) = (behindLast n, ⟨n, n⟩) := if_pos (Nat.le_refl n)
      rw [hbehind]
      exact hlast n rfl)
    have hrows'' := mdbSetRows_eq (p := cursorAt n) rs more hsqlite (by rw [sqlite_last])
    refine ⟨⟨?_, ?_⟩, hrows'.trans hrows.symm, hrows''.trans hrows.symm⟩
    · rw [mdbSetRow, mdbSetRow, hmysql 0 hpos, hpgsql 0 hpos]
    · have hfirst := hsqlite 0 hpos
      rw [cursorAt] at hfirst
      rw [mdbSetRow, mdbSetRow, hfirst, hpgsql 0 hpos]

/-- The drivers are alike on all result sets of a size exactly when the calls are clean, and commands that set a row or
the rows are alike exactly when there is a row that has the columns. On one result set it is enough that the calls are
clean for it. -/
theorem alikeOn_iff_clean (w n : ℕ) (calls : List Call) :
    ((∀ rs : ResultSet w n, AlikeOn calls rs) ↔ Clean w n calls) ∧
      (∀ (rs : ResultSet w n) (more : ℕ), SetsAlike rs more ↔ n ≠ 0 ∧ more < w) ∧
      ∀ rs : ResultSet w n, CleanFor rs calls → AlikeOn calls rs := by
  refine ⟨?_, setsAlike_iff, fun rs => alikeOn_of_cleanFor rs⟩
  rw [← harmless_iff_clean, ← alikeFrom_iff_harmless (Nat.zero_le 0) (Nat.zero_le n)]
  exact Iff.rfl

def oneA : ResultSet 1 1 := ⟨[[some [97]]], rfl, by decide⟩

/-- A value that is there may be copied, though copies are not clean on every result set. -/
theorem alikeOn_iff_clean_copy : AlikeOn [.geta ⟨[.S], by decide⟩, .getRows] oneA ∧
    ¬ ∀ rs : ResultSet 1 1, AlikeOn [.geta ⟨[.S], by decide⟩, .getRows] rs := by
  obtain ⟨-, -, halike⟩ := alikeOn_iff_clean 1 1 [.geta ⟨[.S], by decide⟩, .getRows]
  constructor
  · exact halike oneA ⟨0, [⟨[.S], by decide⟩], 1, rfl, fun _ => one_ne_zero, by decide⟩
  · intro h
    exact absurd (h (nulls 1 1)).2 (by decide)

/-- Nothing is fetched from an empty result set of one column. -/
theorem not_alikeOn_empty : ¬ AlikeOn [.geta (plainFmt 0)] (nulls 1 0) ∧ ¬ SetsAlike (nulls 1 0) 0 := by
  constructor
  · intro h
    exact absurd h.2 (by decide)
  · intro h
    exact absurd h.1.2 (by decide)

end Cmoon.DatabaseDrivers
