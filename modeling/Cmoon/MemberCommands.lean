import Cmoon.MemberPlugin

/-! # What the member commands do

Tables change through executed statements only; what the cache shows of a member is in the
member's row. From the two follow the statements of an update and of a registration. -/
namespace Cmoon.MemberCommands
open DecimalText Datasets StatementBuilding MemberTables NameHashing MemberPlugin

/-- The dataset has these columns of the row, but for the id, which a car has too. -/
def Shows (d : Dataset) (row : Row) (cols : List String) : Prop :=
  ∀ col ∈ cols, col ≠ "mid" → hdfGetValue d col = some (row col).print

/-- A cached member is a row of the table, and shown as it is there. -/
structure Coherent (e : MemberEntry) : Prop where
  member : ∀ {mid d}, e.member mid = some d → ∃ row, e.db.member mid = some row ∧ Shows d row colMember
  memberPriv : ∀ {mid d}, e.memberPriv mid = some d →
    ∃ row, e.db.member mid = some row ∧ Shows d row colMemberAdmin

/-- A plugin that has just been started: no cache entry yet. -/
def start (db : Database) : MemberEntry := ⟨db, fun _ => none, fun _ => none, fun _ => none⟩

theorem coherent_start (db : Database) : Coherent (start db) := ⟨nofun, nofun⟩

theorem shows_mdbSetRow (row : Row) (cols : List String) : Shows (mdbSetRow [] row cols) row cols := by
  intro col hcol _
  rw [hdfGetValue_mdbSetRow, if_pos hcol]

theorem shows_memberData (row : Row) (car : Option Row) : Shows (memberData row car) row colMember := by
  intro col hcol hmid
  obtain _ | car := car
  · exact shows_mdbSetRow row colMember col hcol hmid
  · have hcar : col ∉ colCar := by
      rintro h
      simp only [colMember, colCar, List.mem_cons, List.not_mem_nil, or_false] at hcol h
      rcases h with rfl | rfl | rfl | rfl <;> simp_all
    rw [memberData, hdfGetValue_mdbSetRow, if_neg hcar]
    exact shows_mdbSetRow row colMember col hcol hmid

theorem memberGetParamMid_mid {hdf : Dataset} {v : Bytes} (hv : hdfGetValue hdf "mid" = some v) :
    memberGetParamMid hdf = .ok (hdfGetIntValue hdf "mid" 0, hdf) := by
  rw [memberGetParamMid, hv]

theorem memberGetParamMid_mname {hdf : Dataset} {mname : Bytes} (hmid : hdfGetValue hdf "mid" = none)
    (hname : nonempty hdf "mname" = some mname) :
    memberGetParamMid hdf = .ok (hashStringRev mname, hdfSetIntValue hdf "mid" (hashStringRev mname)) := by
  simp only [memberGetParamMid, hmid, reqGetParamStr, hname, Except.map]

theorem memberGetParamMid_none {hdf : Dataset} (hmid : hdfGetValue hdf "mid" = none)
    (hname : nonempty hdf "mname" = none) : memberGetParamMid hdf = .error (.badparam "mname") := by
  simp only [memberGetParamMid, hmid, reqGetParamStr, hname, Except.map]

/-- The id is what the request says or the hash of its name; nothing else of it changes. -/
theorem memberGetParamMid_ok {hdf hdf' : Dataset} {mid : ℤ} (h : memberGetParamMid hdf = .ok (mid, hdf'))
    {name : String} (hn : name ≠ "mid") : nonempty hdf' name = nonempty hdf name := by
  cases hmid : hdfGetValue hdf "mid" with
  | some v =>
    rw [memberGetParamMid_mid hmid] at h
    cases h
    rfl
  | none =>
    cases hname : nonempty hdf "mname" with
    | some mname =>
      rw [memberGetParamMid_mname hmid hname] at h
      cases h
      exact nonempty_setInt_of_ne hdf hn _
    | none =>
      rw [memberGetParamMid_none hmid hname] at h
      cases h

theorem memberGetParamMid_again {hdf hdf' : Dataset} {mid : ℤ} (h : memberGetParamMid hdf = .ok (mid, hdf')) :
    memberGetParamMid hdf' = .ok (mid, hdf') := by
  cases hmid : hdfGetValue hdf "mid" with
  | some v =>
    have hsame := memberGetParamMid_mid hmid
    rw [hsame] at h
    cases h
    exact hsame
  | none =>
    cases hname : nonempty hdf "mname" with
    | some mname =>
      rw [memberGetParamMid_mname hmid hname] at h
      cases h
      rw [memberGetParamMid_mid (by rw [hdfSetIntValue, hdfGetValue_set, if_pos rfl]),
        hdfGetIntValue_set hdf "mid" (hashStringRev_lt mname)]
    | none =>
      rw [memberGetParamMid_none hmid hname] at h
      cases h

theorem givenCols_updateColMember {hdf hdf' : Dataset}
    (h : ∀ name, name ≠ "mid" → nonempty hdf' name = nonempty hdf name) :
    givenCols hdf' updateColMember = givenCols hdf updateColMember := by
  have hne : ∀ spec ∈ updateColMember, spec.name ≠ "mid" := by decide
  exact givenCols_congr fun spec hspec => h _ (hne spec hspec)

theorem complete_updateColMember (hdf : Dataset) : Complete hdf updateColMember := by
  have hnone : ∀ spec ∈ updateColMember, spec.require ≠ true := by decide
  exact fun spec hspec hreq => (hnone spec hspec hreq).elim

theorem coherent_cacheMember {e : MemberEntry} (h : Coherent e) {mid : ℤ} {row : Row} {d : Dataset}
    (hrow : e.db.member mid = some row) (hd : Shows d row colMember) :
    Coherent { e with member := Function.update e.member mid (some d) } := by
  refine ⟨fun {k d'} hk => ?_, h.memberPriv⟩
  rcases eq_or_ne k mid with rfl | hne
  · simp only [Function.update_self, Option.some.injEq] at hk
    exact ⟨row, hrow, hk ▸ hd⟩
  · simp only [Function.update_of_ne hne] at hk
    exact h.member hk

theorem coherent_cacheMemberPriv {e : MemberEntry} (h : Coherent e) {mid : ℤ} {row : Row} {d : Dataset}
    (hrow : e.db.member mid = some row) (hd : Shows d row colMemberAdmin) :
    Coherent { e with memberPriv := Function.update e.memberPriv mid (some d) } := by
  refine ⟨h.member, fun {k d'} hk => ?_⟩
  rcases eq_or_ne k mid with rfl | hne
  · simp only [Function.update_self, Option.some.injEq] at hk
    exact ⟨row, hrow, hk ▸ hd⟩
  · simp only [Function.update_of_ne hne] at hk
    exact h.memberPriv hk

theorem memberCmdMemGet_error {e : MemberEntry} {hdf : Dataset} {err : RepErr}
    (hp : memberGetParamMid hdf = .error err) : memberCmdMemGet e hdf = .fail e err := by
  rw [memberCmdMemGet, hp]

section Read
variable {e : MemberEntry} (h : Coherent e) {hdf hdf' : Dataset} {mid : ℤ}
  (hp : memberGetParamMid hdf = .ok (mid, hdf'))
include h hp

theorem memberCmdMemGet_none (hrow : e.db.member mid = none) :
    memberCmdMemGet e hdf = .fail e .memberNexist := by
  have hcache : e.member mid = none := by
    by_contra hne
    obtain ⟨d, hd⟩ := Option.ne_none_iff_exists'.mp hne
    obtain ⟨row, hrow', -⟩ := h.member hd
    rw [hrow] at hrow'
    cases hrow'
  simp only [memberCmdMemGet, hp, hcache, hrow]

theorem memberCmdMemGet_some {row : Row} (hrow : e.db.member mid = some row) :
    ∃ d e', memberCmdMemGet e hdf = ⟨.ok d, e', [d], []⟩ ∧ Shows d row colMember ∧
      e'.db = e.db ∧ Coherent e' := by
  cases hcache : e.member mid with
  | some d =>
    obtain ⟨row', hrow', hd⟩ := h.member hcache
    rw [hrow] at hrow'
    cases hrow'
    exact ⟨d, e, by simp only [memberCmdMemGet, hp, hcache], hd, rfl, h⟩
  | none =>
    have hd := shows_memberData row (e.db.car mid)
    exact ⟨_, { e with member := Function.update e.member mid (some (memberData row (e.db.car mid))) },
      by simp only [memberCmdMemGet, hp, hcache, hrow], hd, rfl, coherent_cacheMember h hrow hd⟩

end Read

/-- Reading a member executes nothing and leaves the tables. -/
theorem memberCmdMemGet_frame {e : MemberEntry} (h : Coherent e) (hdf : Dataset) :
    (memberCmdMemGet e hdf).executed = [] ∧ (memberCmdMemGet e hdf).entry.db = e.db ∧
      Coherent (memberCmdMemGet e hdf).entry := by
  cases hp : memberGetParamMid hdf with
  | error err =>
    rw [memberCmdMemGet_error hp]
    exact ⟨rfl, rfl, h⟩
  | ok param =>
    obtain ⟨mid, hdf'⟩ := param
    cases hrow : e.db.member mid with
    | none =>
      rw [memberCmdMemGet_none h hp hrow]
      exact ⟨rfl, rfl, h⟩
    | some row =>
      obtain ⟨d, e', heq, -, hdb, he'⟩ := memberCmdMemGet_some h hp hrow
      rw [heq]
      exact ⟨rfl, hdb, he'⟩

theorem memberCmdCarGet_frame {e : MemberEntry} (h : Coherent e) (hdf : Dataset) :
    (memberCmdCarGet e hdf).executed = [] ∧ (memberCmdCarGet e hdf).entry.db = e.db ∧
      Coherent (memberCmdCarGet e hdf).entry := by
  unfold memberCmdCarGet
  split
  · exact ⟨rfl, rfl, h⟩
  · split
    · exact ⟨rfl, rfl, h⟩
    · split
      · exact ⟨rfl, rfl, h⟩
      · exact ⟨rfl, rfl, h.member, h.memberPriv⟩

theorem memberCmdMemPrivGet_frame {e : MemberEntry} (h : Coherent e) (hdf : Dataset) :
    (memberCmdMemPrivGet e hdf).executed = [] ∧ (memberCmdMemPrivGet e hdf).entry.db = e.db ∧
      Coherent (memberCmdMemPrivGet e hdf).entry := by
  unfold memberCmdMemPrivGet
  split
  · exact ⟨rfl, rfl, h⟩
  · split
    · exact ⟨rfl, rfl, h⟩
    · split
      · exact ⟨rfl, rfl, h⟩
      · rename_i row hrow
        exact ⟨rfl, rfl, coherent_cacheMemberPriv h hrow (shows_mdbSetRow row colMemberAdmin)⟩

/-- The tables are what the executed statements made of them, and the cache agrees. -/
structure Kept (accepts : Assignments → Bool) (db : Database) (out : Outcome) : Prop where
  traced : out.executed.foldlM (Database.exec accepts) db = some out.entry.db
  coherent : Coherent out.entry

section Kept
variable {accepts : Assignments → Bool} {e : MemberEntry}

theorem kept_unchanged {out : Outcome} (h : out.executed = [] ∧ out.entry.db = e.db ∧ Coherent out.entry) :
    Kept accepts e.db out := by
  obtain ⟨hexec, hdb, hco⟩ := h
  refine ⟨?_, hco⟩
  rw [hexec, List.foldlM_nil, hdb]
  rfl

theorem mdbExec_none {read : List Dataset} {s : Statement} {next : MemberEntry → Outcome}
    (hs : e.db.exec accepts s = none) : mdbExec accepts e read s next = ⟨.error .db, e, read, []⟩ := by
  rw [mdbExec, hs]

theorem mdbExec_some {read : List Dataset} {s : Statement} {next : MemberEntry → Outcome} {db : Database}
    (hs : e.db.exec accepts s = some db) : mdbExec accepts e read s next =
      { next { e with db := db } with
        read := read ++ (next { e with db := db }).read
        executed := s :: (next { e with db := db }).executed } := by
  rw [mdbExec, hs]

theorem kept_mdbExec (h : Coherent e) {read : List Dataset} {s : Statement} {next : MemberEntry → Outcome}
    (hnext : ∀ db, e.db.exec accepts s = some db → Kept accepts db (next { e with db := db })) :
    Kept accepts e.db (mdbExec accepts e read s next) := by
  cases hs : e.db.exec accepts s with
  | none =>
    rw [mdbExec_none hs]
    exact kept_unchanged ⟨rfl, rfl, h⟩
  | some db =>
    rw [mdbExec_some hs]
    obtain ⟨htraced, hco⟩ := hnext db hs
    refine ⟨?_, hco⟩
    rw [List.foldlM_cons, hs]
    exact htraced

/-- A row under a new id hides no cached member. -/
theorem coherent_insertMember (h : Coherent e) {cols : Assignments} {db : Database}
    (hs : e.db.exec accepts (.insertMember cols) = some db) : Coherent { e with db := db } := by
  have hfresh : e.db.member (memberDefault.assign cols).mid = none := by
    simp only [Database.exec] at hs
    split at hs
    · rename_i hc
      exact Option.isNone_iff_eq_none.mp (Bool.and_eq_true _ _ ▸ hc).2
    · cases hs
  have hold : ∀ {mid row}, e.db.member mid = some row → db.member mid = some row := by
    intro mid row hrow
    rw [exec_member_frame hs, hrow]
    rintro rfl
    rw [hfresh] at hrow
    cases hrow
  refine ⟨fun {mid d} hd => ?_, fun {mid d} hd => ?_⟩
  · obtain ⟨row, hrow, hshow⟩ := h.member hd
    exact ⟨row, hold hrow, hshow⟩
  · obtain ⟨row, hrow, hshow⟩ := h.memberPriv hd
    exact ⟨row, hold hrow, hshow⟩

theorem coherent_other (h : Coherent e) {s : Statement} (hno : ∀ mid, ¬ s.Writes mid) {db : Database}
    (hs : e.db.exec accepts s = some db) : Coherent { e with db := db } := by
  refine ⟨fun {mid d} hd => ?_, fun {mid d} hd => ?_⟩
  · rw [exec_member_frame hs (hno mid)]
    exact h.member hd
  · rw [exec_member_frame hs (hno mid)]
    exact h.memberPriv hd

theorem coherent_updateMember (h : Coherent e) {cols : Assignments} {mid : ℤ} {db : Database}
    (hs : e.db.exec accepts (.updateMember cols mid) = some db) :
    Coherent { e with
      db := db
      member := Function.update e.member mid none
      memberPriv := Function.update e.memberPriv mid none } := by
  have hold : ∀ {k}, k ≠ mid → db.member k = e.db.member k :=
    fun hk => exec_member_frame hs fun hw => hk hw.symm
  refine ⟨fun {k d} hd => ?_, fun {k d} hd => ?_⟩
  · rcases eq_or_ne k mid with rfl | hne
    · simp at hd
    · simp only [Function.update_of_ne hne] at hd
      rw [hold hne]
      exact h.member hd
  · rcases eq_or_ne k mid with rfl | hne
    · simp at hd
    · simp only [Function.update_of_ne hne] at hd
      rw [hold hne]
      exact h.memberPriv hd

theorem memberCmdCarAdd_kept (h : Coherent e) (hdf : Dataset) :
    Kept accepts e.db (memberCmdCarAdd accepts e hdf) := by
  unfold memberCmdCarAdd
  split
  · exact kept_unchanged ⟨rfl, rfl, h⟩
  · rename_i mid hdf' _
    obtain ⟨-, hdb, hco⟩ := memberCmdCarGet_frame h hdf'
    simp only
    split
    · exact kept_unchanged ⟨rfl, hdb, hco⟩
    · split
      · exact kept_unchanged ⟨rfl, hdb, hco⟩
      · rw [← hdb]
        apply kept_mdbExec hco
        intro db hs
        exact kept_unchanged (e := { (memberCmdCarGet e hdf').entry with db := db })
          ⟨rfl, rfl, coherent_other hco (fun _ => id) hs⟩

theorem memberCmdMemAdd_kept (h : Coherent e) (hdf : Dataset) :
    Kept accepts e.db (memberCmdMemAdd accepts e hdf) := by
  unfold memberCmdMemAdd
  split
  · exact kept_unchanged ⟨rfl, rfl, h⟩
  · rename_i mname _
    extract_lets hdf' out insert
    obtain ⟨-, hdb, hco⟩ := memberCmdMemGet_frame h hdf'
    have hinsert : ∀ hdfsnd, Kept accepts e.db (insert hdfsnd) := by
      intro hdfsnd
      simp only [insert]
      split
      · exact kept_unchanged ⟨rfl, hdb, hco⟩
      · split
        · exact kept_unchanged ⟨rfl, hdb, hco⟩
        · rw [← hdb]
          apply kept_mdbExec hco
          intro db hs
          have hnew := coherent_insertMember hco hs
          split
          · exact kept_unchanged (e := { out.entry with db := db }) ⟨rfl, rfl, hnew⟩
          · exact memberCmdCarAdd_kept hnew hdf'
    split
    · exact hinsert _
    · exact hinsert []
    · exact kept_unchanged ⟨rfl, hdb, hco⟩

theorem memberCmdMemUp_kept (h : Coherent e) (hdf : Dataset) :
    Kept accepts e.db (memberCmdMemUp accepts e hdf) := by
  unfold memberCmdMemUp
  split
  · exact kept_unchanged ⟨rfl, rfl, h⟩
  · rename_i mid hdf' _
    obtain ⟨-, hdb, hco⟩ := memberCmdMemGet_frame h hdf'
    simp only
    split
    · exact kept_unchanged ⟨rfl, hdb, hco⟩
    · split
      · exact kept_unchanged ⟨rfl, hdb, hco⟩
      · rw [← hdb]
        refine kept_mdbExec hco fun db hs => ⟨rfl, coherent_updateMember hco hs⟩

theorem memberCmdMemGetrlink_frame (h : Coherent e) (hdf : Dataset) :
    (memberCmdMemGetrlink e hdf).executed = [] ∧ (memberCmdMemGetrlink e hdf).entry.db = e.db ∧
      Coherent (memberCmdMemGetrlink e hdf).entry := by
  obtain ⟨-, hdb, hco⟩ := memberCmdMemGet_frame h hdf
  unfold memberCmdMemGetrlink
  split
  · exact ⟨rfl, rfl, h⟩
  · simp only
    split
    · exact ⟨rfl, hdb, hco⟩
    · split <;> exact ⟨rfl, hdb, hco⟩

theorem memberCmdMemSetrlink_kept (h : Coherent e) (hdf : Dataset) :
    Kept accepts e.db (memberCmdMemSetrlink accepts e hdf) := by
  obtain ⟨-, hdb, hco⟩ := memberCmdMemGet_frame h hdf
  unfold memberCmdMemSetrlink
  split
  · exact kept_unchanged ⟨rfl, rfl, h⟩
  · split
    · exact kept_unchanged ⟨rfl, rfl, h⟩
    · simp only
      split
      · exact kept_unchanged ⟨rfl, hdb, hco⟩
      · rw [← hdb]
        apply kept_mdbExec hco
        intro db hs
        exact kept_unchanged (e := { (memberCmdMemGet e hdf).entry with db := db })
          ⟨rfl, rfl, coherent_other hco (fun _ => id) hs⟩

theorem memberProcessDriver_kept (h : Coherent e) (operation : Cmd) (hdf : Dataset) :
    Kept accepts e.db (memberProcessDriver accepts e operation hdf) := by
  cases operation with
  | memberGet => exact kept_unchanged (memberCmdMemGet_frame h hdf)
  | memberPrivGet => exact kept_unchanged (memberCmdMemPrivGet_frame h hdf)
  | memberAdd => exact memberCmdMemAdd_kept h hdf
  | memberUp => exact memberCmdMemUp_kept h hdf
  | memberGetrlink => exact kept_unchanged (memberCmdMemGetrlink_frame h hdf)
  | memberSetrlink => exact memberCmdMemSetrlink_kept h hdf
  | carGet => exact kept_unchanged (memberCmdCarGet_frame h hdf)
  | carAdd => exact memberCmdCarAdd_kept h hdf

/-- An update that is executed: of the row under the id of the request. -/
theorem memberCmdMemUp_executed (h : Coherent e) {hdf hdf' : Dataset} {mid : ℤ}
    (hp : memberGetParamMid hdf = .ok (mid, hdf')) :
    (memberCmdMemUp accepts e hdf).executed =
      if (e.db.member mid).isSome ∧ givenCols hdf updateColMember ≠ [] ∧
        accepts (givenCols hdf updateColMember) = true
      then [.updateMember (givenCols hdf updateColMember) mid] else [] := by
  have hcols := givenCols_updateColMember fun _ => memberGetParamMid_ok hp
  have hagain := memberGetParamMid_again hp
  cases hrow : e.db.member mid with
  | none =>
    rw [if_neg (by simp)]
    simp only [memberCmdMemUp, hp, memberCmdMemGet_none h hagain hrow, Outcome.fail]
  | some row =>
    obtain ⟨d, e', hget, -, hdb, -⟩ := memberCmdMemGet_some h hagain hrow
    by_cases hne : givenCols hdf updateColMember = []
    · have hbuild : mdbBuildUpcol hdf' updateColMember = .error .strLen := by
        rw [mdbBuildUpcol, buildCols_ok.mpr ⟨complete_updateColMember hdf', rfl⟩, hcols, hne]
        rfl
      rw [if_neg (by simp [hne])]
      simp only [memberCmdMemUp, hp, hget, hbuild]
    · have hbuild := mdbBuildUpcol_ok.mpr ⟨complete_updateColMember hdf', hcols.symm, hne⟩
      simp only [memberCmdMemUp, hp, hget, hbuild]
      by_cases hacc : accepts (givenCols hdf updateColMember) = true
      · rw [if_pos ⟨rfl, hne, hacc⟩, mdbExec, Database.exec, if_pos hacc]
      · rw [if_neg fun hc => hacc hc.2.2, mdbExec, Database.exec, if_neg hacc]

theorem memberCmdCarAdd_executed (hdf : Dataset) :
    ∀ s ∈ (memberCmdCarAdd accepts e hdf).executed, ∃ cols, s = .insertCar cols := by
  intro s hs
  unfold memberCmdCarAdd at hs
  split at hs
  · cases hs
  · simp only at hs
    split at hs
    · cases hs
    · split at hs
      · cases hs
      · unfold mdbExec at hs
        split at hs
        · cases hs
        · obtain rfl := List.mem_singleton.mp hs
          exact ⟨_, rfl⟩

def registrationData (hdf : Dataset) (mname : Bytes) : Dataset :=
  hdfSetIntValue (numberOri hdf) "mid" (hashStringRev mname)

def registrationCols (hdf : Dataset) (mname : Bytes) : Assignments :=
  givenCols (registrationData hdf mname) insertColMember

theorem nonempty_numberOri (hdf : Dataset) {name : String} (hn : name ≠ "ori") :
    nonempty (numberOri hdf) name = nonempty hdf name := by
  unfold numberOri
  split
  · rw [nonempty_set, if_neg hn]
  · rfl

/-- Id and origin apart, a registration is built from what the request says. -/
theorem nonempty_registrationData (hdf : Dataset) (mname : Bytes) {name : String} (hmid : name ≠ "mid")
    (hori : name ≠ "ori") : nonempty (registrationData hdf mname) name = nonempty hdf name := by
  rw [registrationData, nonempty_setInt_of_ne _ hmid, nonempty_numberOri hdf hori]

theorem memberGetParamMid_registration (hdf : Dataset) (mname : Bytes) :
    memberGetParamMid (registrationData hdf mname) = .ok (hashStringRev mname, registrationData hdf mname) := by
  have hint := hdfGetIntValue_set (numberOri hdf) "mid" (hashStringRev_lt mname) 0
  rw [memberGetParamMid_mid (by rw [registrationData, hdfSetIntValue, hdfGetValue_set, if_pos rfl]),
    registrationData, hint]

theorem registrationCols_mid (hdf : Dataset) (mname : Bytes) :
    (registrationCols hdf mname).lookup "mid" = some (.int (hashStringRev mname)) := by
  rw [registrationCols, givenCols, insertColMember, List.filterMap_cons]
  simp only [intCol, registrationData, nonempty_setInt, Option.map_some, ColumnSpec.literal,
    atoi_printNat (hashStringRev_lt mname)]
  rfl

/-- What a registration needs: a free id, the required columns, and values the server takes. -/
structure Registers (accepts : Assignments → Bool) (e : MemberEntry) (hdf : Dataset) (mname : Bytes) : Prop where
  free : e.db.member (hashStringRev mname) = none
  complete : Complete (registrationData hdf mname) insertColMember
  accepted : accepts (registrationCols hdf mname) = true

section Add
variable (h : Coherent e) {hdf : Dataset} {mname : Bytes} (hname : nonempty hdf "mname" = some mname)
include h hname

theorem memberCmdMemAdd_exists {row : Row} (hrow : e.db.member (hashStringRev mname) = some row) :
    (memberCmdMemAdd accepts e hdf).executed = [] := by
  obtain ⟨d, e', hget, hshow, -, -⟩ := memberCmdMemGet_some h (memberGetParamMid_registration hdf mname) hrow
  have hmale : (hdfGetObj d "male").isSome = true := by
    have hv := hshow "male" (by decide) (by decide)
    rw [hdfGetValue] at hv
    cases hobj : hdfGetObj d "male" with
    | none => rw [hobj] at hv; cases hv
    | some v => rfl
  rw [registrationData] at hget
  simp only [memberCmdMemAdd, reqGetParamStr, hname, hget, hmale, if_true]

theorem memberCmdMemAdd_free (hrow : e.db.member (hashStringRev mname) = none) :
    memberCmdMemAdd accepts e hdf =
      match mdbBuildIncol (registrationData hdf mname) insertColMember with
      | .error err => .fail e (.build err)
      | .ok cols => mdbExec accepts e [] (.insertMember cols) fun e =>
          match nonempty (registrationData hdf mname) "_addcar" with
          | none => ⟨.ok [], e, [], []⟩
          | some _ => memberCmdCarAdd accepts e (registrationData hdf mname) := by
  have hget : memberCmdMemGet e (registrationData hdf mname) = ⟨.error .memberNexist, e, [], []⟩ :=
    memberCmdMemGet_none h (memberGetParamMid_registration hdf mname) hrow
  have hmale : (hdfGetObj [] "male").isSome = false := rfl
  rw [registrationData] at hget ⊢
  simp only [memberCmdMemAdd, reqGetParamStr, hname, hget, hmale, Bool.false_eq_true, if_false]
  rfl

theorem memberCmdMemAdd_registers (hreg : Registers accepts e hdf mname) :
    ∃ rest, (memberCmdMemAdd accepts e hdf).executed = .insertMember (registrationCols hdf mname) :: rest ∧
      ∀ s ∈ rest, ∃ cols, s = .insertCar cols := by
  have hmid := registrationCols_mid hdf mname
  have hne : registrationCols hdf mname ≠ [] := by
    intro hnil
    rw [hnil] at hmid
    cases hmid
  have hrow : (memberDefault.assign (registrationCols hdf mname)).mid = hashStringRev mname := by
    rw [Row.mid, Row.assign, hmid]
    rfl
  have hbuild : mdbBuildIncol (registrationData hdf mname) insertColMember = .ok (registrationCols hdf mname) :=
    mdbBuildIncol_ok.mpr ⟨hreg.complete, rfl, hne⟩
  obtain ⟨db, hs⟩ : ∃ db, e.db.exec accepts (.insertMember (registrationCols hdf mname)) = some db := by
    rw [Database.exec, hrow, hreg.free, hreg.accepted]
    exact ⟨_, rfl⟩
  rw [memberCmdMemAdd_free h hname hreg.free, hbuild]
  simp only
  rw [mdbExec_some hs]
  refine ⟨_, rfl, ?_⟩
  split
  · simp
  · exact memberCmdCarAdd_executed _

theorem memberCmdMemAdd_refuses (hreg : ¬ Registers accepts e hdf mname) :
    (memberCmdMemAdd accepts e hdf).executed = [] := by
  cases hrow : e.db.member (hashStringRev mname) with
  | some row => exact memberCmdMemAdd_exists h hname hrow
  | none =>
    rw [memberCmdMemAdd_free h hname hrow]
    split
    · rfl
    · rename_i cols hbuild
      obtain ⟨hc, hcols, -⟩ := mdbBuildIncol_ok.mp hbuild
      have hcols : cols = registrationCols hdf mname := hcols
      rw [mdbExec_none]
      rw [Database.exec, if_neg]
      intro hacc
      rw [Bool.and_eq_true] at hacc
      exact hreg ⟨hrow, hc, hcols ▸ hacc.1⟩

end Add

theorem memberCmdMemSetrlink_executed (hdf : Dataset) :
    ∀ s ∈ (memberCmdMemSetrlink accepts e hdf).executed,
      ∃ mname rlink, nonempty hdf "mname" = some mname ∧ s = .mergeMemberreset mname rlink := by
  intro s hs
  cases hname : nonempty hdf "mname" with
  | none => simp [memberCmdMemSetrlink, reqGetParamStr, hname, Outcome.fail] at hs
  | some mname =>
    cases hlink : nonempty hdf "rlink" with
    | none => simp [memberCmdMemSetrlink, reqGetParamStr, hname, hlink, Outcome.fail] at hs
    | some rlink =>
      simp only [memberCmdMemSetrlink, reqGetParamStr, hname, hlink] at hs
      split at hs
      · cases hs
      · unfold mdbExec at hs
        split at hs
        · cases hs
        · obtain rfl := List.mem_singleton.mp hs
          exact ⟨mname, rlink, rfl, rfl⟩

theorem memberProcessDriver_member (h : Coherent e) {operation : Cmd} (hadd : operation ≠ .memberAdd)
    (hup : operation ≠ .memberUp) (hdf : Dataset) (mid : ℤ) :
    (memberProcessDriver accepts e operation hdf).entry.db.member mid = e.db.member mid := by
  apply execAll_member_frame (memberProcessDriver_kept h operation hdf).traced
  intro s hs hw
  cases operation with
  | memberAdd => exact hadd rfl
  | memberUp => exact hup rfl
  | memberGet =>
    rw [memberProcessDriver, (memberCmdMemGet_frame h hdf).1] at hs
    cases hs
  | memberPrivGet =>
    rw [memberProcessDriver, (memberCmdMemPrivGet_frame h hdf).1] at hs
    cases hs
  | memberGetrlink =>
    rw [memberProcessDriver, (memberCmdMemGetrlink_frame h hdf).1] at hs
    cases hs
  | carGet =>
    rw [memberProcessDriver, (memberCmdCarGet_frame h hdf).1] at hs
    cases hs
  | memberSetrlink =>
    obtain ⟨mname, rlink, -, rfl⟩ := memberCmdMemSetrlink_executed hdf s hs
    exact hw
  | carAdd =>
    obtain ⟨cols, rfl⟩ := memberCmdCarAdd_executed hdf s hs
    exact hw

/-- A row after an update is the old one, or the one under the id of the request, updated. -/
theorem memberCmdMemUp_row (h : Coherent e) {hdf : Dataset} {mid : ℤ} {row : Row}
    (hrow : (memberCmdMemUp accepts e hdf).entry.db.member mid = some row) :
    e.db.member mid = some row ∨ ∃ hdf' old, memberGetParamMid hdf = .ok (mid, hdf') ∧
      e.db.member mid = some old ∧ row = old.assign (givenCols hdf updateColMember) := by
  have hkept : Kept accepts e.db (memberCmdMemUp accepts e hdf) := memberCmdMemUp_kept h hdf
  have htraced := hkept.traced
  cases hp : memberGetParamMid hdf with
  | error err =>
    have hfail : memberCmdMemUp accepts e hdf = .fail e err := by rw [memberCmdMemUp, hp]
    rw [hfail] at hrow
    exact .inl hrow
  | ok param =>
    obtain ⟨mid', hdf'⟩ := param
    rw [memberCmdMemUp_executed h hp] at htraced
    split at htraced
    · rename_i hc
      by_cases hmid : mid' = mid
      · subst hmid
        obtain ⟨old, hold⟩ := Option.isSome_iff_exists.mp hc.1
        rw [execAll_single, Database.exec, if_pos hc.2.2] at htraced
        refine .inr ⟨hdf', old, rfl, hold, ?_⟩
        rw [← Option.some.inj htraced] at hrow
        simp only [Function.update_self, hold, Option.map_some, Option.some.injEq] at hrow
        exact hrow.symm
      · refine .inl (hrow ▸ (execAll_member_frame htraced fun s hs => ?_).symm)
        obtain rfl := List.mem_singleton.mp hs
        exact hmid
    · rw [← Option.some.inj htraced] at hrow
      exact .inl hrow

/-- An update the server takes does change the row. -/
theorem memberCmdMemUp_updates (h : Coherent e) {hdf hdf' : Dataset} {mid : ℤ} {old : Row}
    (hp : memberGetParamMid hdf = .ok (mid, hdf')) (hold : e.db.member mid = some old)
    (hne : givenCols hdf updateColMember ≠ []) (hacc : accepts (givenCols hdf updateColMember) = true) :
    (memberCmdMemUp accepts e hdf).entry.db.member mid =
      some (old.assign (givenCols hdf updateColMember)) := by
  have hkept : Kept accepts e.db (memberCmdMemUp accepts e hdf) := memberCmdMemUp_kept h hdf
  have htraced := hkept.traced
  rw [memberCmdMemUp_executed h hp, if_pos ⟨by rw [hold]; rfl, hne, hacc⟩, execAll_single,
    Database.exec, if_pos hacc] at htraced
  rw [← Option.some.inj htraced]
  simp only [Function.update_self, hold, Option.map_some]

theorem memberCmdMemAdd_row (h : Coherent e) {hdf : Dataset} {mid : ℤ} {row : Row}
    (hrow : (memberCmdMemAdd accepts e hdf).entry.db.member mid = some row) :
    e.db.member mid = some row ∨ ∃ mname, nonempty hdf "mname" = some mname ∧ mid = hashStringRev mname ∧
      e.db.member mid = none ∧ row = memberDefault.assign (registrationCols hdf mname) := by
  have hkept : Kept accepts e.db (memberCmdMemAdd accepts e hdf) := memberCmdMemAdd_kept h hdf
  have htraced := hkept.traced
  have hsame : (memberCmdMemAdd accepts e hdf).executed = [] → e.db.member mid = some row := by
    intro hnil
    rw [hnil] at htraced
    rw [← Option.some.inj htraced] at hrow
    exact hrow
  cases hname : nonempty hdf "mname" with
  | none =>
    refine .inl (hsame ?_)
    simp only [memberCmdMemAdd, reqGetParamStr, hname, Outcome.fail]
  | some mname =>
    by_cases hreg : Registers accepts e hdf mname
    · obtain ⟨rest, hexec, hrest⟩ := memberCmdMemAdd_registers h hname hreg
      rw [hexec, List.foldlM_cons] at htraced
      obtain ⟨db, hs, htraced⟩ := Option.bind_eq_some_iff.mp htraced
      have hdb : db.member mid = some row := by
        rw [← hrow]
        refine (execAll_member_frame htraced fun s hmem hw => ?_).symm
        obtain ⟨cols, rfl⟩ := hrest s hmem
        exact hw
      have hkey : (memberDefault.assign (registrationCols hdf mname)).mid = hashStringRev mname := by
        rw [Row.mid, Row.assign, registrationCols_mid]
        rfl
      by_cases hmid : mid = hashStringRev mname
      · refine .inr ⟨mname, rfl, hmid, hmid ▸ hreg.free, ?_⟩
        rw [Database.exec, hkey, hreg.free, hreg.accepted] at hs
        rw [← Option.some.inj hs, hmid] at hdb
        simp only [Function.update_self, Option.some.injEq] at hdb
        exact hdb.symm
      · rw [exec_member_frame hs fun hw => hmid (hw.symm.trans hkey)] at hdb
        exact .inl hdb
    · exact .inl (hsame (memberCmdMemAdd_refuses h hname hreg))

end Kept

end Cmoon.MemberCommands
