import Cmoon.MemberReads

/-! # Registrations of the member plugin

A registration with `_addcar` inserts a member, and then a car with the rest of the request. What a registration that
fails leaves in the tables depends on how far it has come. -/
namespace Cmoon.MemberRegistrations
open DecimalText Datasets StatementBuilding MemberTables NameHashing LapsingCaches MemberReads
open MemberPlugin (memberGetParamMid reqGetParamStr)
open MemberCommands (registrationData registrationCols memberGetParamMid_registration registrationCols_mid
  nonempty_registrationData)

/-- The column that tells whether a dataset has a row of the view. -/
def marker : View → String
  | .member | .memberPriv => "male"
  | .car => "size"

/-- A cached dataset has a row, and the tables have it, too. -/
def Present (db : Database) (key : Bytes) (d : Dataset) : Prop :=
  ∃ (view : View) (mid : ℤ), key = view.key mid ∧ view.shown db mid ≠ none ∧ (hdfGetObj d (marker view)).isSome = true

def Known (p : Plugin) : Prop := Backed (Present p.db) p.cd

/-- What the tables have for a view comes out of the cache with its names. -/
def NamesKept (kept : Dataset → Dataset) : Prop :=
  ∀ (view : View) db mid d, view.shown db mid = some d → ∀ name, (hdfGetObj d name).isSome = true →
    (hdfGetObj (kept d) name).isSome = true

/-- A registration that fails leaves the tables as they were. -/
def AllOrNothing (kept : Dataset → Dataset) (met : Surroundings) (p : Plugin) (hdfrcv : Dataset) : Prop :=
  (memberCmdMemAdd kept met p hdfrcv []).err ≠ none → (memberCmdMemAdd kept met p hdfrcv []).plugin.db = p.db

/-- The member is inserted: the table answers and does not have it, and the columns are given and taken. -/
structure MemberGoes (met : Surroundings) (db : Database) (hdfrcv : Dataset) (mname : Bytes) : Prop where
  answers : met.answers .member = true
  free : db.member (hashStringRev mname) = none
  complete : Complete (registrationData hdfrcv mname) insertColMember
  accepted : met.accepts (registrationCols hdfrcv mname) = true

structure CarGoes (met : Surroundings) (db : Database) (hdfrcv : Dataset) (mname : Bytes) : Prop where
  free : db.car (hashStringRev mname) = none
  accepted : met.accepts (givenCols (registrationData hdfrcv mname) insertColCar) = true

/-- A car is not asked for, or it is inserted whenever the member is. -/
def Whole (met : Surroundings) (db : Database) (hdfrcv : Dataset) : Prop :=
  ∀ mname, nonempty hdfrcv "mname" = some mname → nonempty hdfrcv "_addcar" ≠ none →
    MemberGoes met db hdfrcv mname → CarGoes met db hdfrcv mname

variable {kept : Dataset → Dataset} {view : View} {met : Surroundings} {p : Plugin} {mid : ℤ} {d : Dataset}

theorem hdfGetObj_mdbSetRow {cols : List String} {col : String} (h : col ∈ cols) (hdf : Dataset) (row : Row) :
    (hdfGetObj (mdbSetRow hdf row cols) col).isSome = true := by
  have hvalue := hdfGetValue_mdbSetRow hdf row cols col
  rw [if_pos h, hdfGetValue] at hvalue
  cases hobj : hdfGetObj (mdbSetRow hdf row cols) col with
  | none =>
    rw [hobj] at hvalue
    cases hvalue
  | some v => rfl

theorem shown_marker {db : Database} (h : view.shown db mid = some d) : (hdfGetObj d (marker view)).isSome = true := by
  cases view with
  | member => exact shown_male db h
  | memberPriv =>
    obtain ⟨row, -, rfl⟩ := Option.map_eq_some_iff.mp h
    exact hdfGetObj_mdbSetRow (by decide) [] row
  | car =>
    obtain ⟨row, -, rfl⟩ := Option.map_eq_some_iff.mp h
    exact hdfGetObj_mdbSetRow (by decide) [] row

theorem Known.entry (h : Known p) (hd : p.cd (view.key mid) = some d) :
    view.shown p.db mid ≠ none ∧ (hdfGetObj d (marker view)).isSome = true := by
  obtain ⟨view', mid', hkey, hpresent⟩ := h _ d hd
  obtain ⟨rfl, rfl⟩ := key_injective hkey
  exact hpresent

theorem Known.lapsed (h : Known p) (gone : Bytes → Bool) : Known (p.lapsed gone) := Backed.lapse h gone

theorem known_read (hkept : NamesKept kept) (h : Known p) (view : View) (met : Surroundings) (mid : ℤ) :
    Known (view.read kept met p mid []).plugin := by
  rcases read_cases kept view met p mid with ⟨d, -, heq⟩ | ⟨d, -, hshown, heq⟩ | ⟨err, d, -, heq, -⟩
  · rw [heq]
    exact h
  · rw [heq]
    apply Backed.put h
    refine ⟨view, mid, rfl, ?_, hkept view p.db mid d hshown _ (shown_marker hshown)⟩
    rw [hshown]
    exact Option.some_ne_none d
  · rw [heq]
    exact h

theorem known_get (hkept : NamesKept kept) (h : Known p) (view : View) (met : Surroundings) (hdfrcv : Dataset) :
    Known (view.get kept met p hdfrcv []).plugin := by
  unfold View.get
  split
  · exact h
  · exact known_read hkept h view met _

/-- No statement of the plugin takes a row away. -/
theorem exec_grows {db db' : Database} {accepts : Assignments → Bool} {s : Statement}
    (h : db.exec accepts s = some db') :
    (∀ mid, db.member mid ≠ none → db'.member mid ≠ none) ∧ (∀ mid, db.car mid ≠ none → db'.car mid ≠ none) := by
  have hupdate : ∀ (rows : ℤ → Option Row) key (row : Option Row), (rows key ≠ none → row ≠ none) →
      ∀ mid, rows mid ≠ none → Function.update rows key row mid ≠ none := by
    intro rows key row hrow mid hmid
    by_cases heq : mid = key
    · subst heq
      rw [Function.update_self]
      exact hrow hmid
    · rw [Function.update_of_ne heq]
      exact hmid
  cases s with
  | insertMember cols =>
    simp only [Database.exec] at h
    split at h
    · cases h
      exact ⟨hupdate _ _ _ fun _ => Option.some_ne_none _, fun _ hcar => hcar⟩
    · cases h
  | updateMember cols mid =>
    simp only [Database.exec] at h
    split at h
    · cases h
      refine ⟨hupdate _ _ _ ?_, fun _ hcar => hcar⟩
      intro hrow hmap
      exact hrow (Option.map_eq_none_iff.mp hmap)
    · cases h
  | insertCar cols =>
    simp only [Database.exec] at h
    split at h
    · cases h
      exact ⟨fun _ hmember => hmember, hupdate _ _ _ fun _ => Option.some_ne_none _⟩
    · cases h
  | mergeMemberreset mname rlink =>
    cases h
    exact ⟨fun _ hmember => hmember, fun _ hcar => hcar⟩

theorem shown_ne_none {db db' : Database} (hmember : ∀ mid, db.member mid ≠ none → db'.member mid ≠ none)
    (hcar : ∀ mid, db.car mid ≠ none → db'.car mid ≠ none) (h : view.shown db mid ≠ none) :
    view.shown db' mid ≠ none := by
  cases view with
  | member | memberPriv =>
    unfold View.shown at h ⊢
    rw [ne_eq, Option.map_eq_none_iff] at h ⊢
    exact hmember mid h
  | car =>
    unfold View.shown at h ⊢
    rw [ne_eq, Option.map_eq_none_iff] at h ⊢
    exact hcar mid h

theorem known_exec (h : Known p) {db : Database} {s : Statement} (hexec : p.db.exec met.accepts s = some db) :
    Known { p with db := db } := by
  obtain ⟨hmember, hcar⟩ := exec_grows hexec
  intro key d hd
  obtain ⟨view, mid, rfl, hshown, hmark⟩ := h key d hd
  exact ⟨view, mid, rfl, shown_ne_none hmember hcar hshown, hmark⟩

theorem known_mdbExec {got : Came} (h : Known got.plugin) (met : Surroundings) (s : Statement) :
    Known (mdbExec met got s).plugin := by
  rcases mdbExec_cases met got s with ⟨db, hexec, heq⟩ | heq
  · rw [heq]
    exact known_exec h hexec
  · rw [heq]
    exact h

theorem Known.updated (h : Known p) (mid : ℤ) : Known (p.updated mid) :=
  Backed.drop fun _ _ _ hd => Backed.drop (fun key d _ hd => h key d hd) _ _ hd

/-- A member that is found, in the cache or in the table, has a `male`. -/
theorem read_male (h : Known p) (herr : (View.member.read kept met p mid []).err = none) :
    (hdfGetObj (View.member.read kept met p mid []).hdfsnd "male").isSome = true := by
  rcases read_cases kept .member met p mid with ⟨d, hd, heq⟩ | ⟨d, -, hshown, heq⟩ | ⟨err, d, -, heq, -⟩
  · rw [heq]
    exact (h.entry hd).2
  · rw [heq]
    exact shown_marker hshown
  · rw [heq] at herr
    cases herr

theorem read_free (h : Known p) (hans : met.answers .member = true) (hfree : p.db.member mid = none) :
    View.member.read kept met p mid [] = ⟨some (.rep .memberNexist), [], p⟩ := by
  have hshown : View.member.shown p.db mid = none := by rw [View.shown, hfree, Option.map_none]
  have hcd : p.cd (View.member.key mid) = none := by
    cases hd : p.cd (View.member.key mid) with
    | none => rfl
    | some d => exact ((h.entry hd).1 hshown).elim
  unfold View.read View.fetch mdbQueryRow
  rw [hcd, hans, hfree]
  rfl

/-- A free id has no car to show, whether the table answers or not. -/
theorem read_noCar (h : Known p) (hfree : p.db.car mid = none) :
    ∃ err, View.car.read kept met p mid [] = ⟨some (.rep err), [], p⟩ := by
  have hshown : View.car.shown p.db mid = none := by rw [View.shown, hfree, Option.map_none]
  have hcd : p.cd (View.car.key mid) = none := by
    cases hd : p.cd (View.car.key mid) with
    | none => rfl
    | some d => exact ((h.entry hd).1 hshown).elim
  unfold View.read View.fetch mdbQueryRow
  rw [hcd, hfree]
  cases met.answers .car with
  | true => exact ⟨.notFound, rfl⟩
  | false => exact ⟨.db, rfl⟩

theorem mdbExec_insertCar {got : Came} {cols : Assignments} (hmid : (carDefault.assign cols).mid = mid) :
    (mdbExec met got (.insertCar cols)).err = none ↔ got.plugin.db.car mid = none ∧ met.accepts cols = true := by
  constructor
  · intro herr
    rcases mdbExec_cases met got (.insertCar cols) with ⟨db, hexec, -⟩ | heq
    · obtain ⟨hacc, hfree, -, -⟩ := exec_insertCar hexec
      exact ⟨hmid ▸ hfree, hacc⟩
    · rw [heq] at herr
      cases herr
  · rintro ⟨hfree, hacc⟩
    obtain ⟨db, hexec⟩ : ∃ db, got.plugin.db.exec met.accepts (.insertCar cols) = some db := by
      rw [Database.exec, hmid, hfree, hacc]
      exact ⟨_, rfl⟩
    rw [mdbExec, hexec]

theorem mdbExec_insertCar_member (met : Surroundings) (got : Came) (cols : Assignments) :
    (mdbExec met got (.insertCar cols)).plugin.db.member = got.plugin.db.member := by
  rcases mdbExec_cases met got (.insertCar cols) with ⟨db, hexec, heq⟩ | heq
  · rw [heq]
    exact (exec_insertCar hexec).2.2.1
  · rw [heq]

/-- A car comes in when its id is free and the server takes it. -/
theorem carAdd_spec (kept : Dataset → Dataset) (met : Surroundings) (h : Known p) {hdfrcv : Dataset} (hmid : memberGetParamMid hdfrcv = .ok (mid, hdfrcv))
    {cols : Assignments} (hcols : mdbBuildIncol hdfrcv insertColCar = .ok cols) :
    ((memberCmdCarAdd kept met p hdfrcv []).err = none ↔ p.db.car mid = none ∧ met.accepts cols = true) ∧
      (memberCmdCarAdd kept met p hdfrcv []).plugin.db.member = p.db.member := by
  have hgot : memberCmdCarGet kept met p hdfrcv [] = View.car.read kept met p mid [] := get_eq_read hmid []
  have hdb := read_db kept .car met p mid
  have hexec := @mdbExec_insertCar met mid (View.car.read kept met p mid []) cols (insertedCar_mid hmid hcols)
  unfold memberCmdCarAdd
  rw [hmid]
  dsimp only
  rw [hgot, hcols]
  split
  · rename_i hsize
    refine ⟨?_, congrArg Database.member hdb⟩
    constructor
    · intro herr
      cases herr
    · rintro ⟨hfree, -⟩
      obtain ⟨err, hread⟩ := @read_noCar kept met p mid h hfree
      rw [hread] at hsize
      cases hsize
  · refine ⟨?_, ?_⟩
    · rw [hexec, hdb]
    · rw [mdbExec_insertCar_member, hdb]

theorem incol_car (hdfrcv : Dataset) (mname : Bytes) :
    mdbBuildIncol (registrationData hdfrcv mname) insertColCar =
      .ok (givenCols (registrationData hdfrcv mname) insertColCar) := by
  have hmid : nonempty (registrationData hdfrcv mname) (intCol "mid" true).name =
      some (printNat (hashStringRev mname)) := nonempty_setInt _ "mid" _
  apply mdbBuildIncol_ok.mpr
  refine ⟨?_, rfl, ?_⟩
  · have honly : ∀ spec ∈ insertColCar, spec.require = true → spec.name = (intCol "mid" true).name := by decide
    intro spec hspec hrequire
    rw [honly spec hspec hrequire, hmid]
    exact Option.some_ne_none _
  · rw [givenCols, insertColCar, List.filterMap_cons, hmid]
    exact List.cons_ne_nil _ _

theorem registrationCols_ne_nil (hdfrcv : Dataset) (mname : Bytes) : registrationCols hdfrcv mname ≠ [] := by
  have hmid := registrationCols_mid hdfrcv mname
  intro hnil
  rw [hnil] at hmid
  cases hmid

theorem registration_mid (hdfrcv : Dataset) (mname : Bytes) :
    (memberDefault.assign (registrationCols hdfrcv mname)).mid = hashStringRev mname := by
  rw [Row.mid, Row.assign, registrationCols_mid]
  rfl

theorem exec_insertMember_self {db db' : Database} {accepts : Assignments → Bool} {cols : Assignments}
    (h : db.exec accepts (.insertMember cols) = some db') : db'.member (memberDefault.assign cols).mid ≠ none := by
  simp only [Database.exec] at h
  split at h
  · cases h
    dsimp only
    rw [Function.update_self]
    exact Option.some_ne_none _
  · cases h

section Add
variable (kept) (h : Known p) {hdfrcv : Dataset} {mname : Bytes} (hname : nonempty hdfrcv "mname" = some mname)
include h hname

theorem memAdd_refused (hno : ¬ MemberGoes met p.db hdfrcv mname) :
    (memberCmdMemAdd kept met p hdfrcv []).plugin =
      (View.member.read kept met p (hashStringRev mname) []).plugin := by
  have hmid := memberGetParamMid_registration hdfrcv mname
  have hgot : memberCmdMemGet kept met p (registrationData hdfrcv mname) [] =
      View.member.read kept met p (hashStringRev mname) [] := get_eq_read hmid []
  unfold memberCmdMemAdd reqGetParamStr
  rw [hname]
  dsimp only
  rw [hgot]
  split
  · rename_i herr
    split
    · rfl
    · rename_i hmale
      have hnexist : (View.member.read kept met p (hashStringRev mname) []).err = some (.rep .memberNexist) := by
        rcases herr with herr | herr
        · exact (hmale (read_male h herr)).elim
        · exact herr
      obtain ⟨heq, -, hans, hfree⟩ := read_memberNexist hnexist
      rw [heq]
      split
      · rfl
      · rename_i cols hcols
        obtain ⟨hcomplete, rfl, -⟩ := mdbBuildIncol_ok.mp hcols
        have hexec : p.db.exec met.accepts (.insertMember (givenCols (registrationData hdfrcv mname) insertColMember)) =
            none := by
          rw [Database.exec, if_neg]
          intro hboth
          exact hno ⟨hans, hfree, hcomplete, (Bool.and_eq_true _ _ ▸ hboth).1⟩
        have hdone : mdbExec met ⟨some (.rep .memberNexist), [], p⟩
            (.insertMember (givenCols (registrationData hdfrcv mname) insertColMember)) = ⟨some (.rep .db), [], p⟩ := by
          rw [mdbExec, hexec]
        rw [hdone, if_neg fun hboth => Option.some_ne_none _ hboth.1]
  · rfl

theorem memAdd_goes (hgo : MemberGoes met p.db hdfrcv mname) :
    ∃ db, p.db.exec met.accepts (.insertMember (registrationCols hdfrcv mname)) = some db ∧
      memberCmdMemAdd kept met p hdfrcv [] =
        if nonempty hdfrcv "_addcar" ≠ none then
          memberCmdCarAdd kept met { p with db := db } (registrationData hdfrcv mname) []
        else ⟨none, [], { p with db := db }⟩ := by
  have hmid := memberGetParamMid_registration hdfrcv mname
  have hgot : memberCmdMemGet kept met p (registrationData hdfrcv mname) [] =
      ⟨some (.rep .memberNexist), [], p⟩ := (get_eq_read hmid []).trans (read_free h hgo.answers hgo.free)
  have hbuild : mdbBuildIncol (registrationData hdfrcv mname) insertColMember = .ok (registrationCols hdfrcv mname) :=
    mdbBuildIncol_ok.mpr ⟨hgo.complete, rfl, registrationCols_ne_nil hdfrcv mname⟩
  obtain ⟨db, hexec⟩ : ∃ db, p.db.exec met.accepts (.insertMember (registrationCols hdfrcv mname)) = some db := by
    rw [Database.exec, registration_mid, hgo.free, hgo.accepted]
    exact ⟨_, rfl⟩
  refine ⟨db, hexec, ?_⟩
  have haddcar : nonempty (registrationData hdfrcv mname) "_addcar" = nonempty hdfrcv "_addcar" :=
    nonempty_registrationData hdfrcv mname (by decide) (by decide)
  unfold memberCmdMemAdd reqGetParamStr
  rw [hname]
  dsimp only
  rw [hgot, hbuild]
  dsimp only
  have hdone : mdbExec met ⟨some (.rep .memberNexist), [], p⟩ (.insertMember (registrationCols hdfrcv mname)) =
      ⟨none, [], { p with db := db }⟩ := by
    rw [mdbExec, hexec]
  rw [hdone, haddcar]
  simp only [true_and]
  rfl

theorem allOrNothing_of_name : AllOrNothing kept met p hdfrcv ↔ Whole met p.db hdfrcv := by
  by_cases hgo : MemberGoes met p.db hdfrcv mname
  · obtain ⟨db, hexec, heq⟩ := memAdd_goes kept h hname hgo
    obtain ⟨-, hcar, -⟩ := exec_insertMember hexec
    have hinserted : db.member (hashStringRev mname) ≠ none := by
      have hself := exec_insertMember_self hexec
      rw [registration_mid] at hself
      exact hself
    obtain ⟨hgoes, hmember⟩ := carAdd_spec kept met (known_exec h hexec)
      (memberGetParamMid_registration hdfrcv mname) (incol_car hdfrcv mname)
    unfold AllOrNothing
    rw [heq]
    by_cases haddcar : nonempty hdfrcv "_addcar" = none
    · rw [if_neg (not_not_intro haddcar)]
      constructor
      · intro _ _ _ haddcar'
        exact (haddcar' haddcar).elim
      · intro _ herr
        exact (herr rfl).elim
    · rw [if_pos haddcar]
      constructor
      · intro hall mname' hname' _ _
        rw [hname] at hname'
        cases hname'
        have herr : (memberCmdCarAdd kept met { p with db := db } (registrationData hdfrcv mname) []).err = none := by
          by_contra herr
          apply hinserted
          rw [← congrFun hmember, hall herr]
          exact hgo.free
        obtain ⟨hfree, hacc⟩ := hgoes.mp herr
        exact ⟨hcar ▸ hfree, hacc⟩
      · intro hwhole herr
        obtain ⟨hfree, hacc⟩ := hwhole mname hname haddcar hgo
        exact (herr (hgoes.mpr ⟨hcar.symm ▸ hfree, hacc⟩)).elim
  · have hrefused := memAdd_refused kept h hname hgo
    constructor
    · intro _ mname' hname' _ hgo'
      rw [hname] at hname'
      cases hname'
      exact (hgo hgo').elim
    · intro _ _
      rw [hrefused, read_db]

end Add

theorem allOrNothing_iff_whole (kept : Dataset → Dataset) (h : Known p) (hdfrcv : Dataset) :
    AllOrNothing kept met p hdfrcv ↔ Whole met p.db hdfrcv := by
  cases hname : nonempty hdfrcv "mname" with
  | some mname => exact allOrNothing_of_name kept h hname
  | none =>
    constructor
    · intro _ mname hname'
      rw [hname] at hname'
      cases hname'
    · intro _ _
      unfold memberCmdMemAdd reqGetParamStr
      rw [hname]

theorem known_carAdd (hkept : NamesKept kept) (h : Known p) (met : Surroundings) (hdfrcv : Dataset) :
    Known (memberCmdCarAdd kept met p hdfrcv []).plugin := by
  unfold memberCmdCarAdd
  cases hmid : memberGetParamMid hdfrcv with
  | error err => exact h
  | ok param =>
    have hgot : Known (memberCmdCarGet kept met p param.2 []).plugin := known_get hkept h .car met param.2
    dsimp only
    split
    · exact hgot
    · split
      · exact hgot
      · exact known_mdbExec hgot met _

theorem known_memUp (hkept : NamesKept kept) (h : Known p) (met : Surroundings) (hdfrcv : Dataset) :
    Known (memberCmdMemUp kept met p hdfrcv []).plugin := by
  unfold memberCmdMemUp
  cases hmid : memberGetParamMid hdfrcv with
  | error err => exact h
  | ok param =>
    have hgot : Known (memberCmdMemGet kept met p param.2 []).plugin := known_get hkept h .member met param.2
    dsimp only
    split
    · split
      · exact hgot
      · split
        · exact (known_mdbExec hgot met _).updated _
        · exact known_mdbExec hgot met _
    · exact hgot

theorem known_memAdd (hkept : NamesKept kept) (h : Known p) (met : Surroundings) (hdfrcv : Dataset) :
    Known (memberCmdMemAdd kept met p hdfrcv []).plugin := by
  cases hname : nonempty hdfrcv "mname" with
  | none =>
    unfold memberCmdMemAdd reqGetParamStr
    rw [hname]
    exact h
  | some mname =>
    by_cases hgo : MemberGoes met p.db hdfrcv mname
    · obtain ⟨db, hexec, heq⟩ := memAdd_goes kept h hname hgo
      have hinserted : Known { p with db := db } := known_exec h hexec
      rw [heq]
      split
      · exact known_carAdd hkept hinserted met _
      · exact hinserted
    · rw [memAdd_refused kept h hname hgo]
      exact known_read hkept h .member met _

theorem known_step (hkept : NamesKept kept) (h : Known p) (q : MemberRequested) : Known (step kept p q) := by
  have hlapsed := h.lapsed q.met.gone
  unfold step served memberProcessDriver
  cases q.operation with
  | memGet => exact known_get hkept hlapsed .member q.met q.hdfrcv
  | memPrivGet => exact known_get hkept hlapsed .memberPriv q.met q.hdfrcv
  | carGet => exact known_get hkept hlapsed .car q.met q.hdfrcv
  | memAdd => exact known_memAdd hkept hlapsed q.met q.hdfrcv
  | memUp => exact known_memUp hkept hlapsed q.met q.hdfrcv
  | carAdd => exact known_carAdd hkept hlapsed q.met q.hdfrcv

theorem known_run (hkept : NamesKept kept) (h : Known p) (qs : List MemberRequested) :
    Known (qs.foldl (step kept) p) := by
  induction qs generalizing p with
  | nil => exact h
  | cons q qs ih => exact ih (known_step hkept h q)

/-- Whatever has been asked before, a registration that fails leaves the tables as they were exactly when a car that
is asked for comes in with its member. -/
theorem registration_allOrNothing_iff (hkept : NamesKept kept) (db : Database) (qs : List MemberRequested)
    (q : MemberRequested) :
    AllOrNothing kept q.met ((qs.foldl (step kept) (start db)).lapsed q.met.gone) q.hdfrcv ↔
      Whole q.met (qs.foldl (step kept) (start db)).db q.hdfrcv := by
  have hstart : Known (start db) := backed_empty
  have hknown : Known (qs.foldl (step kept) (start db)) := known_run hkept hstart qs
  exact allOrNothing_iff_whole kept (hknown.lapsed q.met.gone) q.hdfrcv

theorem namesKept_id : NamesKept fun d => d := fun _ _ _ _ _ _ h => h

def noCars : Surroundings :=
  ⟨fun _ => false, fun _ => true, fun cols => cols.any fun col => col.1 = "mname", true⟩

def withCar (met : Surroundings) : MemberRequested :=
  ⟨.memAdd, [("mname", some [97]), ("mnick", some [97]), ("msn", some [97]), ("_addcar", some [49])], met⟩

theorem not_allOrNothing_noCars :
    ¬ ∀ (db : Database) (qs : List MemberRequested) (q : MemberRequested),
      AllOrNothing (fun d => d) q.met ((qs.foldl (step fun d => d) (start db)).lapsed q.met.gone) q.hdfrcv := by
  intro h
  have hadded : (memberCmdMemAdd (fun d => d) noCars ((start emptyDb).lapsed noCars.gone) (withCar noCars).hdfrcv []).err
      ≠ none ∧ ((memberCmdMemAdd (fun d => d) noCars ((start emptyDb).lapsed noCars.gone) (withCar noCars).hdfrcv
        []).plugin.db.member (hashStringRev [97])).isSome = true := by
    decide +kernel
  have hdb := h emptyDb [] (withCar noCars) hadded.1
  have hrow := congrFun (congrArg Database.member hdb) (hashStringRev [97])
  exact Bool.false_ne_true ((congrArg Option.isSome hrow).symm.trans hadded.2)

theorem withCar_allOrNothing :
    AllOrNothing (fun d => d) fair ((start emptyDb).lapsed fair.gone) (withCar fair).hdfrcv ↔
      Whole fair emptyDb (withCar fair).hdfrcv :=
  registration_allOrNothing_iff namesKept_id emptyDb [] (withCar fair)

end Cmoon.MemberRegistrations
