import Cmoon.MemberCommands
import Cmoon.LapsingCaches
import Cmoon.GuardedRuns

/-! # The cached members and cars

A member is read with the car behind it under `Member%d`, with the phone and the contact under `MemberPriv%d`, and
the car alone under `Car%d`. An update of the member drops its first two entries; a car that is added drops none. -/
namespace Cmoon.MemberReads
open DecimalText Datasets StatementBuilding MemberTables NameHashing MemberPlugin MemberCommands LapsingCaches
  GuardedRuns

inductive Table where
  | member | car
  deriving DecidableEq

/-- What a command meets: the cache entries that are gone by then, the tables whose queries the server answers, the
statements it takes, and whether there is memory to pack a dataset. -/
structure Surroundings where
  gone : Bytes → Bool
  answers : Table → Bool
  accepts : Assignments → Bool
  calloc : Bool

inductive ReadErr where
  | rep (err : RepErr)
  | mem
  deriving DecidableEq

inductive MemberCmd where
  | memGet | memPrivGet | carGet | memAdd | memUp | carAdd
  deriving DecidableEq

structure MemberRequested where
  operation : MemberCmd
  hdfrcv : Dataset
  met : Surroundings

structure Plugin where
  db : Database
  cd : Store Bytes Dataset

/-- How far a command has come: its error, the dataset of the reply, and the plugin. -/
structure Came where
  err : Option ReadErr
  hdfsnd : Dataset
  plugin : Plugin

inductive View where
  | member | memberPriv | car
  deriving DecidableEq

/-- `PREFIX_MEMBER`, `PREFIX_MEMBER_PRIV` and `PREFIX_CAR` -/
def View.start : View → Bytes
  | .member => [77, 101, 109, 98, 101, 114]
  | .memberPriv => [77, 101, 109, 98, 101, 114, 80, 114, 105, 118]
  | .car => [67, 97, 114]

def View.key (view : View) (mid : ℤ) : Bytes := view.start ++ printInt mid

def View.shown (view : View) (db : Database) (mid : ℤ) : Option Dataset :=
  match view with
  | .member => (db.member mid).map fun row => memberData row (db.car mid)
  | .memberPriv => (db.member mid).map fun row => mdbSetRow [] row colMemberAdmin
  | .car => (db.car mid).map fun row => mdbSetRow [] row colCar

/-- `MDB_QUERY_RAW` and `mdb_set_row` -/
def mdbQueryRow (answers : Bool) (row : Option Row) (cols : List String) (hdfsnd : Dataset) :
    Option RepErr × Dataset :=
  if answers then
    match row with
    | some row => (none, mdbSetRow hdfsnd row cols)
    | none => (some .notFound, hdfsnd)
  else (some .db, hdfsnd)

/-- The queries of a view. Without a car the member is shown alone. -/
def View.fetch (view : View) (met : Surroundings) (db : Database) (mid : ℤ) (hdfsnd : Dataset) :
    Option RepErr × Dataset :=
  match view with
  | .member =>
    let got := mdbQueryRow (met.answers .member) (db.member mid) colMember hdfsnd
    match got.1 with
    | some .notFound => (some .memberNexist, got.2)
    | some err => (some err, got.2)
    | none =>
      let car := mdbQueryRow (met.answers .car) (db.car mid) colCar got.2
      if car.1 = some .notFound then (none, car.2) else car
  | .memberPriv => mdbQueryRow (met.answers .member) (db.member mid) colMemberAdmin hdfsnd
  | .car => mdbQueryRow (met.answers .car) (db.car mid) colCar hdfsnd

section Commands
-- what `unpack_hdf` makes of a dataset that was packed
variable (kept : Dataset → Dataset)

/-- The entry in the cache, or the rows, and the memory that `CACHE_HDF` asks for. -/
def View.read (view : View) (met : Surroundings) (p : Plugin) (mid : ℤ) (hdfsnd : Dataset) : Came :=
  match p.cd (view.key mid) with
  | some val => ⟨none, hdfCopy hdfsnd val, p⟩
  | none =>
    let got := view.fetch met p.db mid hdfsnd
    match got.1 with
    | some err => ⟨some (.rep err), got.2, p⟩
    | none =>
      if met.calloc then ⟨none, got.2, { p with cd := put p.cd (view.key mid) (kept got.2) }⟩
      else ⟨some .mem, got.2, p⟩

def View.get (view : View) (met : Surroundings) (p : Plugin) (hdfrcv hdfsnd : Dataset) : Came :=
  match memberGetParamMid hdfrcv with
  | .error err => ⟨some (.rep err), hdfsnd, p⟩
  | .ok (mid, _) => view.read kept met p mid hdfsnd

def memberCmdCarGet := View.car.get kept
def memberCmdMemGet := View.member.get kept
def memberCmdMemPrivGet := View.memberPriv.get kept

def mdbExec (met : Surroundings) (got : Came) (s : Statement) : Came :=
  match got.plugin.db.exec met.accepts s with
  | some db => ⟨none, got.hdfsnd, { got.plugin with db := db }⟩
  | none => { got with err := some (.rep .db) }

/-- Whatever `member_cmd_car_get` has failed with, a car is there when the reply has a size. -/
def memberCmdCarAdd (met : Surroundings) (p : Plugin) (hdfrcv hdfsnd : Dataset) : Came :=
  match memberGetParamMid hdfrcv with
  | .error err => ⟨some (.rep err), hdfsnd, p⟩
  | .ok (_, hdfrcv) =>
    let got := memberCmdCarGet kept met p hdfrcv hdfsnd
    if (hdfGetObj got.hdfsnd "size").isSome then { got with err := some (.rep .cared) }
    else
      match mdbBuildIncol hdfrcv insertColCar with
      | .error err => { got with err := some (.rep (.build err)) }
      | .ok cols => mdbExec met got (.insertCar cols)

def memberCmdMemAdd (met : Surroundings) (p : Plugin) (hdfrcv hdfsnd : Dataset) : Came :=
  match reqGetParamStr hdfrcv "mname" with
  | .error err => ⟨some (.rep err), hdfsnd, p⟩
  | .ok mname =>
    let hdfrcv := registrationData hdfrcv mname
    let got := memberCmdMemGet kept met p hdfrcv hdfsnd
    if got.err = none ∨ got.err = some (.rep .memberNexist) then
      if (hdfGetObj got.hdfsnd "male").isSome then { got with err := some (.rep .membered) }
      else
        match mdbBuildIncol hdfrcv insertColMember with
        | .error err => { got with err := some (.rep (.build err)) }
        | .ok cols =>
          let done := mdbExec met got (.insertMember cols)
          if done.err = none ∧ nonempty hdfrcv "_addcar" ≠ none then
            memberCmdCarAdd kept met done.plugin hdfrcv done.hdfsnd
          else done
    else got

/-- `cache_delf` of the two entries that the table `member` feeds. -/
def Plugin.updated (p : Plugin) (mid : ℤ) : Plugin :=
  { p with cd := drop (drop p.cd (View.member.key mid)) (View.memberPriv.key mid) }

def memberCmdMemUp (met : Surroundings) (p : Plugin) (hdfrcv hdfsnd : Dataset) : Came :=
  match memberGetParamMid hdfrcv with
  | .error err => ⟨some (.rep err), hdfsnd, p⟩
  | .ok (mid, hdfrcv) =>
    let got := memberCmdMemGet kept met p hdfrcv hdfsnd
    if got.err = none then
      match mdbBuildUpcol hdfrcv updateColMember with
      | .error err => { got with err := some (.rep (.build err)) }
      | .ok cols =>
        let done := mdbExec met got (.updateMember cols mid)
        if done.err = none then { done with plugin := done.plugin.updated mid } else done
    else got

def memberProcessDriver (p : Plugin) (q : MemberRequested) : Came :=
  match q.operation with
  | .memGet => memberCmdMemGet kept q.met p q.hdfrcv []
  | .memPrivGet => memberCmdMemPrivGet kept q.met p q.hdfrcv []
  | .carGet => memberCmdCarGet kept q.met p q.hdfrcv []
  | .memAdd => memberCmdMemAdd kept q.met p q.hdfrcv []
  | .memUp => memberCmdMemUp kept q.met p q.hdfrcv []
  | .carAdd => memberCmdCarAdd kept q.met p q.hdfrcv []

/-- The plugin without the cache entries that are gone. -/
def Plugin.lapsed (p : Plugin) (gone : Bytes → Bool) : Plugin := { p with cd := lapse p.cd gone }

def served (p : Plugin) (q : MemberRequested) : Came := memberProcessDriver kept (p.lapsed q.met.gone) q

def step (p : Plugin) (q : MemberRequested) : Plugin := (served kept p q).plugin

end Commands

/-- A cached dataset is what the tables have for the view and the member of its key. -/
def Shown (db : Database) (key : Bytes) (d : Dataset) : Prop :=
  ∃ (view : View) (mid : ℤ), key = view.key mid ∧ view.shown db mid = some d

def Coherent (p : Plugin) : Prop := Backed (Shown p.db) p.cd

/-- What the tables have for a view comes out of the cache as it was put in. -/
def Packable (kept : Dataset → Dataset) (view : View) (db : Database) (mid : ℤ) : Prop :=
  ∀ d, view.shown db mid = some d → kept d = d

/-- After the prefixes comes a digit or a sign: the key says which view it is, and of which member. -/
theorem key_injective {view view' : View} {mid mid' : ℤ} (h : view.key mid = view'.key mid') :
    view = view' ∧ mid = mid' := by
  have hpriv : ∀ i j, View.member.key i ≠ View.memberPriv.key j := by
    intro i j hkey
    have hhead : printInt i = 80 :: 114 :: 105 :: 118 :: printInt j := List.append_cancel_left hkey
    exact printInt_ne_cons (by decide) (by decide) i _ hhead
  have hcar : ∀ i j (rest : Bytes), View.car.key i ≠ 77 :: rest ++ printInt j := by
    intro i j rest hkey
    exact absurd (List.cons.inj hkey).1 (by decide)
  cases view <;> cases view'
  case member.member | memberPriv.memberPriv | car.car =>
    exact ⟨rfl, printInt_injective (List.append_cancel_left h)⟩
  case member.memberPriv => exact (hpriv _ _ h).elim
  case memberPriv.member => exact (hpriv _ _ h.symm).elim
  case car.member | car.memberPriv => exact (hcar _ _ _ h).elim
  case member.car | memberPriv.car => exact (hcar _ _ _ h.symm).elim

variable {kept : Dataset → Dataset} {view : View} {met : Surroundings} {p : Plugin} {q : MemberRequested} {mid : ℤ}
  {d : Dataset}

theorem Coherent.lapsed (h : Coherent p) (gone : Bytes → Bool) : Coherent (p.lapsed gone) := Backed.lapse h gone

theorem Coherent.entry (h : Coherent p) (hd : p.cd (view.key mid) = some d) : view.shown p.db mid = some d := by
  obtain ⟨view', mid', hkey, hshown⟩ := h _ d hd
  obtain ⟨rfl, rfl⟩ := key_injective hkey
  exact hshown

/-- Tables may change that show nothing else of what is cached. -/
theorem Coherent.exec (h : Coherent p) {db : Database}
    (hsame : ∀ (view : View) mid d, p.cd (view.key mid) = some d → view.shown p.db mid = some d →
      view.shown db mid = some d) : Coherent { p with db := db } := by
  intro key d hd
  obtain ⟨view, mid, rfl, hshown⟩ := h key d hd
  exact ⟨view, mid, rfl, hsame view mid d hd hshown⟩

/-- A reply that succeeds shows what is in the tables; one that fails has found nothing, no memory or no server. -/
structure Answered (met : Surroundings) (shown : Option Dataset) (out : Came) : Prop where
  shows : out.err = none → shown = some out.hdfsnd
  fails : out.err ≠ none → shown = none ∨ met.calloc = false ∨ ∃ table, met.answers table = false

theorem mdbQueryRow_spec (answers : Bool) (row : Option Row) (cols : List String) (hdfsnd : Dataset) :
    (answers = true ∧ ∃ r, row = some r ∧ mdbQueryRow answers row cols hdfsnd = (none, mdbSetRow hdfsnd r cols)) ∨
      (answers = true ∧ row = none ∧ mdbQueryRow answers row cols hdfsnd = (some .notFound, hdfsnd)) ∨
      (answers = false ∧ mdbQueryRow answers row cols hdfsnd = (some .db, hdfsnd)) := by
  cases answers with
  | false => exact .inr (.inr ⟨rfl, rfl⟩)
  | true =>
    cases row with
    | none => exact .inr (.inl ⟨rfl, rfl, rfl⟩)
    | some r => exact .inl ⟨rfl, r, rfl, rfl⟩

theorem mdbQueryRow_shown (met : Surroundings) (table : Table) (row : Option Row) (cols : List String) :
    (∃ d, row.map (mdbSetRow [] · cols) = some d ∧ mdbQueryRow (met.answers table) row cols [] = (none, d)) ∨
      (∃ err d, mdbQueryRow (met.answers table) row cols [] = (some err, d) ∧
        (row.map (mdbSetRow [] · cols) = none ∨ ∃ table, met.answers table = false)) := by
  rcases mdbQueryRow_spec (met.answers table) row cols [] with ⟨-, r, rfl, hq⟩ | ⟨-, rfl, hq⟩ | ⟨hans, hq⟩
  · exact .inl ⟨_, rfl, hq⟩
  · exact .inr ⟨_, _, hq, .inl rfl⟩
  · exact .inr ⟨_, _, hq, .inr ⟨_, hans⟩⟩

/-- What is fetched is what the tables have; otherwise they have nothing, or one of them does not answer. -/
theorem fetch_spec (view : View) (met : Surroundings) (db : Database) (mid : ℤ) :
    (∃ d, view.shown db mid = some d ∧ view.fetch met db mid [] = (none, d)) ∨
      (∃ err d, view.fetch met db mid [] = (some err, d) ∧
        (view.shown db mid = none ∨ ∃ table, met.answers table = false)) := by
  cases view with
  | member =>
    simp only [View.fetch, View.shown]
    rcases mdbQueryRow_spec (met.answers .member) (db.member mid) colMember [] with
      ⟨-, row, hrow, hq⟩ | ⟨-, hrow, hq⟩ | ⟨hans, hq⟩
    · rw [hq, hrow]
      rcases mdbQueryRow_spec (met.answers .car) (db.car mid) colCar (mdbSetRow [] row colMember) with
        ⟨-, car, hcar, hq'⟩ | ⟨-, hcar, hq'⟩ | ⟨hans, hq'⟩
      · rw [hcar] at hq' ⊢
        exact .inl ⟨_, rfl, by simp only [hq']; rfl⟩
      · rw [hcar] at hq' ⊢
        exact .inl ⟨_, rfl, by simp only [hq']; rfl⟩
      · exact .inr ⟨.db, _, by simp only [hq']; rfl, .inr ⟨_, hans⟩⟩
    · exact .inr ⟨.memberNexist, [], by simp only [hq], .inl (by rw [hrow]; rfl)⟩
    · exact .inr ⟨.db, [], by simp only [hq], .inr ⟨_, hans⟩⟩
  | memberPriv => exact mdbQueryRow_shown met .member (db.member mid) colMemberAdmin
  | car => exact mdbQueryRow_shown met .car (db.car mid) colCar

/-- A read takes what is cached, caches what it fetches, or fails and leaves the plugin. -/
theorem read_cases (kept : Dataset → Dataset) (view : View) (met : Surroundings) (p : Plugin) (mid : ℤ) :
    (∃ d, p.cd (view.key mid) = some d ∧ view.read kept met p mid [] = ⟨none, d, p⟩) ∨
      (∃ d, p.cd (view.key mid) = none ∧ view.shown p.db mid = some d ∧
        view.read kept met p mid [] = ⟨none, d, { p with cd := put p.cd (view.key mid) (kept d) }⟩) ∨
      (∃ err d, p.cd (view.key mid) = none ∧ view.read kept met p mid [] = ⟨some err, d, p⟩ ∧
        (view.shown p.db mid = none ∨ met.calloc = false ∨ ∃ table, met.answers table = false)) := by
  unfold View.read
  cases hcd : p.cd (view.key mid) with
  | some d => exact .inl ⟨d, rfl, congrArg (Came.mk none · p) (List.append_nil d)⟩
  | none =>
    rcases fetch_spec view met p.db mid with ⟨d, hshown, hf⟩ | ⟨err, d, hf, hwhy⟩
    · cases hcalloc : met.calloc with
      | true => exact .inr (.inl ⟨d, rfl, hshown, by simp only [hf, if_true]⟩)
      | false =>
        exact .inr (.inr ⟨.mem, d, rfl, by simp only [hf, Bool.false_eq_true, if_false], .inr (.inl rfl)⟩)
    · exact .inr (.inr ⟨.rep err, d, rfl, by simp only [hf], hwhy.imp_right .inr⟩)

theorem read_answered (hp : Coherent p) : Answered met (view.shown p.db mid) (view.read kept met p mid []) := by
  rcases read_cases kept view met p mid with ⟨d, hd, heq⟩ | ⟨d, -, hshown, heq⟩ | ⟨err, d, -, heq, hwhy⟩
  · rw [heq]
    exact ⟨fun _ => hp.entry hd, fun h => (h rfl).elim⟩
  · rw [heq]
    exact ⟨fun _ => hshown, fun h => (h rfl).elim⟩
  · rw [heq]
    exact ⟨nofun, fun _ => hwhy⟩

theorem read_db (kept : Dataset → Dataset) (view : View) (met : Surroundings) (p : Plugin) (mid : ℤ) :
    (view.read kept met p mid []).plugin.db = p.db := by
  rcases read_cases kept view met p mid with ⟨d, -, heq⟩ | ⟨d, -, -, heq⟩ | ⟨err, d, -, heq, -⟩ <;> rw [heq]

theorem read_coherent (hp : Coherent p) (hpack : Packable kept view p.db mid) :
    Coherent (view.read kept met p mid []).plugin := by
  rcases read_cases kept view met p mid with ⟨d, -, heq⟩ | ⟨d, -, hshown, heq⟩ | ⟨err, d, -, heq, -⟩
  · rw [heq]
    exact hp
  · rw [heq]
    apply Backed.put hp
    exact ⟨view, mid, rfl, (hpack d hshown).symm ▸ hshown⟩
  · rw [heq]
    exact hp

theorem read_other (kept : Dataset → Dataset) (view : View) (met : Surroundings) (p : Plugin) (mid : ℤ) {key : Bytes}
    (hkey : key ≠ view.key mid) : (view.read kept met p mid []).plugin.cd key = p.cd key := by
  rcases read_cases kept view met p mid with ⟨d, -, heq⟩ | ⟨d, -, -, heq⟩ | ⟨err, d, -, heq, -⟩
  · rw [heq]
  · rw [heq]
    exact Function.update_of_ne hkey _ _
  · rw [heq]

/-- The member that a request is about: a registration goes by the name alone. -/
def MemberRequested.named (q : MemberRequested) : Except RepErr ℤ :=
  match q.operation with
  | .memAdd => (reqGetParamStr q.hdfrcv "mname").map fun mname => (hashStringRev mname : ℤ)
  | _ => (memberGetParamMid q.hdfrcv).map Prod.fst

/-- The views whose entries a command may put into the cache. -/
def MemberCmd.views : MemberCmd → List View
  | .memGet | .memUp => [.member]
  | .memPrivGet => [.memberPriv]
  | .carGet | .carAdd => [.car]
  | .memAdd => [.member, .car]

/-- The statement with which `CAR_ADD` gives the member a car is carried out. -/
def Inserts (p : Plugin) (q : MemberRequested) (mid : ℤ) : Prop :=
  q.operation = .carAdd ∧ ∃ hdfrcv cols, memberGetParamMid q.hdfrcv = .ok (mid, hdfrcv) ∧
    mdbBuildIncol hdfrcv insertColCar = .ok cols ∧ q.met.accepts cols = true ∧ p.db.car mid = none

/-- What a command reads is cached as it is, and no car is added to a member that is cached without one. -/
structure Harmless (kept : Dataset → Dataset) (p : Plugin) (q : MemberRequested) : Prop where
  packable : ∀ mid, q.named = .ok mid → ∀ view ∈ q.operation.views, Packable kept view p.db mid
  apart : ∀ mid, Inserts p q mid → lapse p.cd q.met.gone (View.member.key mid) = none

theorem insertedCar_mid {hdf hdf' : Dataset} {cols : Assignments} (hp : memberGetParamMid hdf = .ok (mid, hdf'))
    (hcols : mdbBuildIncol hdf' insertColCar = .ok cols) : (carDefault.assign cols).mid = mid := by
  obtain ⟨hcomplete, rfl, -⟩ := mdbBuildIncol_ok.mp hcols
  obtain ⟨val, hval⟩ := Option.ne_none_iff_exists'.mp (hcomplete (intCol "mid" true) List.mem_cons_self rfl)
  have hlookup : (givenCols hdf' insertColCar).lookup "mid" = some (.int (atoi val)) := by
    rw [givenCols, insertColCar, List.filterMap_cons, hval]
    rfl
  have hobj : hdfGetValue hdf' "mid" = some val := (nonempty_eq_some.mp hval).1
  have hmid : hdfGetIntValue hdf' "mid" 0 = mid := by
    have hagain := memberGetParamMid_again hp
    rw [memberGetParamMid_mid hobj] at hagain
    exact congrArg Prod.fst (Except.ok.inj hagain)
  simp only [Row.mid, Row.assign, hlookup, Literal.store]
  rw [← hmid, hdfGetIntValue, hobj, Option.bind_some, atoi, strtol]
  cases readInt val with
  | none => decide
  | some x => rfl

section Writes
variable {db : Database} {accepts : Assignments → Bool} {cols : Assignments}

theorem exec_insertMember (h : p.db.exec accepts (.insertMember cols) = some db) :
    p.db.member (memberDefault.assign cols).mid = none ∧ db.car = p.db.car ∧
      ∀ mid, mid ≠ (memberDefault.assign cols).mid → db.member mid = p.db.member mid := by
  simp only [Database.exec] at h
  split at h
  · rename_i hacc
    cases h
    rw [Bool.and_eq_true, Option.isNone_iff_eq_none] at hacc
    exact ⟨hacc.2, rfl, fun mid hmid => Function.update_of_ne hmid _ _⟩
  · cases h

theorem exec_insertCar (h : p.db.exec accepts (.insertCar cols) = some db) :
    accepts cols = true ∧ p.db.car (carDefault.assign cols).mid = none ∧ db.member = p.db.member ∧
      ∀ mid, mid ≠ (carDefault.assign cols).mid → db.car mid = p.db.car mid := by
  simp only [Database.exec] at h
  split at h
  · rename_i hacc
    cases h
    rw [Bool.and_eq_true, Option.isNone_iff_eq_none] at hacc
    exact ⟨hacc.1, hacc.2, rfl, fun mid hmid => Function.update_of_ne hmid _ _⟩
  · cases h

theorem exec_updateMember (h : p.db.exec accepts (.updateMember cols mid) = some db) :
    db.car = p.db.car ∧ ∀ mid', mid' ≠ mid → db.member mid' = p.db.member mid' := by
  simp only [Database.exec] at h
  split at h
  · cases h
    exact ⟨rfl, fun mid' hmid => Function.update_of_ne hmid _ _⟩
  · cases h

theorem shown_congr {db' : Database} (hmember : db.member mid = db'.member mid) (hcar : db.car mid = db'.car mid)
    (view : View) : view.shown db mid = view.shown db' mid := by
  cases view <;> simp only [View.shown, hmember, hcar]

theorem coherent_insertMember (hp : Coherent p) (h : p.db.exec accepts (.insertMember cols) = some db) :
    Coherent { p with db := db } := by
  obtain ⟨hfree, hcar, hmember⟩ := exec_insertMember h
  apply hp.exec
  intro view mid d hd hshown
  by_cases hmid : mid = (memberDefault.assign cols).mid
  · subst hmid
    cases view with
    | member | memberPriv =>
      simp only [View.shown, hfree] at hshown
      cases hshown
    | car =>
      simp only [View.shown, hcar] at hshown ⊢
      exact hshown
  · rw [← hshown]
    exact shown_congr (hmember mid hmid) (congrFun hcar mid) view

theorem coherent_insertCar (hp : Coherent p) (h : p.db.exec accepts (.insertCar cols) = some db)
    (hapart : p.cd (View.member.key (carDefault.assign cols).mid) = none) : Coherent { p with db := db } := by
  obtain ⟨-, hfree, hmember, hcar⟩ := exec_insertCar h
  apply hp.exec
  intro view mid d hd hshown
  by_cases hmid : mid = (carDefault.assign cols).mid
  · subst hmid
    cases view with
    | member =>
      rw [hapart] at hd
      cases hd
    | memberPriv =>
      simp only [View.shown, hmember] at hshown ⊢
      exact hshown
    | car =>
      simp only [View.shown, hfree] at hshown
      cases hshown
  · rw [← hshown]
    exact shown_congr (congrFun hmember mid) (hcar mid hmid) view

/-- The entries that the member feeds are dropped, and the one of its car is not touched. -/
theorem coherent_updateMember (hp : Coherent p) (h : p.db.exec accepts (.updateMember cols mid) = some db) :
    Coherent (Plugin.updated { p with db := db } mid) := by
  obtain ⟨hcar, hmember⟩ := exec_updateMember h
  have hleft : ∀ key d, key ≠ View.memberPriv.key mid → drop p.cd (View.member.key mid) key = some d →
      Shown db key d := by
    intro key d hpriv hd
    have hkey : key ≠ View.member.key mid := by
      rintro rfl
      rw [drop, Function.update_self] at hd
      cases hd
    rw [drop, Function.update_of_ne hkey] at hd
    obtain ⟨view, mid', rfl, hshown⟩ := hp key d hd
    refine ⟨view, mid', rfl, ?_⟩
    rw [← hshown]
    by_cases hmid : mid' = mid
    · subst hmid
      cases view with
      | member => exact (hkey rfl).elim
      | memberPriv => exact (hpriv rfl).elim
      | car => simp only [View.shown, hcar]
    · exact shown_congr (hmember mid' hmid) (congrFun hcar mid') view
  exact Backed.drop hleft

end Writes

theorem mdbExec_cases (met : Surroundings) (got : Came) (s : Statement) :
    (∃ db, got.plugin.db.exec met.accepts s = some db ∧
        mdbExec met got s = ⟨none, got.hdfsnd, { got.plugin with db := db }⟩) ∨
      mdbExec met got s = { got with err := some (.rep .db) } := by
  unfold mdbExec
  cases h : got.plugin.db.exec met.accepts s with
  | some db => exact .inl ⟨db, rfl, rfl⟩
  | none => exact .inr rfl

theorem get_eq_read {hdfrcv hdfrcv' : Dataset} (hmid : memberGetParamMid hdfrcv = .ok (mid, hdfrcv'))
    (hdfsnd : Dataset) : view.get kept met p hdfrcv hdfsnd = view.read kept met p mid hdfsnd := by
  rw [View.get, hmid]

section Commands
variable {hdfrcv hdfrcv' : Dataset} (hp : Coherent p)
include hp

theorem coherent_get (hpack : ∀ mid hdf', memberGetParamMid hdfrcv = .ok (mid, hdf') → Packable kept view p.db mid) :
    Coherent (view.get kept met p hdfrcv []).plugin := by
  cases hmid : memberGetParamMid hdfrcv with
  | error err =>
    rw [View.get, hmid]
    exact hp
  | ok param =>
    rw [get_eq_read hmid]
    exact read_coherent hp (hpack _ _ hmid)

theorem coherent_carAdd (hmid : memberGetParamMid hdfrcv = .ok (mid, hdfrcv')) (hpack : Packable kept .car p.db mid)
    (hapart : ∀ cols, mdbBuildIncol hdfrcv' insertColCar = .ok cols → met.accepts cols = true →
      p.db.car mid = none → p.cd (View.member.key mid) = none) :
    Coherent (memberCmdCarAdd kept met p hdfrcv []).plugin := by
  have hgot : memberCmdCarGet kept met p hdfrcv' [] = View.car.read kept met p mid [] :=
    get_eq_read (memberGetParamMid_again hmid) []
  have hcoherent : Coherent (View.car.read kept met p mid []).plugin := read_coherent hp hpack
  simp only [memberCmdCarAdd, hmid, hgot]
  split
  · exact hcoherent
  · split
    · exact hcoherent
    · rename_i cols hcols
      rcases mdbExec_cases met (View.car.read kept met p mid []) (.insertCar cols) with ⟨db, hexec, heq⟩ | heq
      · rw [heq]
        apply coherent_insertCar hcoherent hexec
        obtain ⟨hacc, hfree, -⟩ := exec_insertCar hexec
        have hown := insertedCar_mid hmid hcols
        have hkey : View.member.key mid ≠ View.car.key mid := by
          intro h
          exact absurd (key_injective h).1 (by decide)
        rw [hown, read_db] at hfree
        rw [hown, read_other kept .car met p mid hkey]
        exact hapart cols hcols hacc hfree
      · rw [heq]
        exact hcoherent

theorem coherent_memUp (hmid : memberGetParamMid hdfrcv = .ok (mid, hdfrcv'))
    (hpack : Packable kept .member p.db mid) : Coherent (memberCmdMemUp kept met p hdfrcv []).plugin := by
  have hgot : memberCmdMemGet kept met p hdfrcv' [] = View.member.read kept met p mid [] :=
    get_eq_read (memberGetParamMid_again hmid) []
  have hcoherent : Coherent (View.member.read kept met p mid []).plugin := read_coherent hp hpack
  simp only [memberCmdMemUp, hmid, hgot]
  split
  · split
    · exact hcoherent
    · rename_i cols hcols
      rcases mdbExec_cases met (View.member.read kept met p mid []) (.updateMember cols mid) with
        ⟨db, hexec, heq⟩ | heq
      · rw [heq, if_pos rfl]
        exact coherent_updateMember hcoherent hexec
      · rw [heq, if_neg (Option.some_ne_none _)]
        exact hcoherent
  · exact hcoherent

end Commands

/-- A member that is not there has left the plugin as it was, and is neither cached nor in the table. -/
theorem read_memberNexist (h : (View.member.read kept met p mid []).err = some (.rep .memberNexist)) :
    View.member.read kept met p mid [] = ⟨some (.rep .memberNexist), [], p⟩ ∧ p.cd (View.member.key mid) = none ∧
      met.answers .member = true ∧ p.db.member mid = none := by
  cases hcd : p.cd (View.member.key mid) with
  | some d =>
    simp only [View.read, hcd] at h
    cases h
  | none =>
    simp only [View.read, hcd, View.fetch] at h ⊢
    rcases mdbQueryRow_spec (met.answers .member) (p.db.member mid) colMember [] with
      ⟨-, row, hrow, hq⟩ | ⟨hans, hrow, hq⟩ | ⟨hans, hq⟩
    · exfalso
      rw [hq] at h
      rcases mdbQueryRow_spec (met.answers .car) (p.db.car mid) colCar (mdbSetRow [] row colMember) with
        ⟨-, car, hcar, hq'⟩ | ⟨-, hcar, hq'⟩ | ⟨hans, hq'⟩ <;>
      · simp only [hq'] at h
        cases hcalloc : met.calloc <;> simp [hcalloc] at h
    · exact ⟨by simp only [hq], trivial, hans, hrow⟩
    · simp only [hq] at h
      cases h

theorem shown_male (db : Database) (h : View.member.shown db mid = some d) : (hdfGetObj d "male").isSome = true := by
  obtain ⟨row, -, rfl⟩ := Option.map_eq_some_iff.mp h
  have hmale := shows_memberData row (db.car mid) "male" (by decide) (by decide)
  rw [hdfGetValue] at hmale
  cases hobj : hdfGetObj (memberData row (db.car mid)) "male" with
  | none => rw [hobj] at hmale; cases hmale
  | some v => rfl

/-- A registration that comes to its statement has found nothing cached of the member, so a car may come with it. -/
theorem coherent_memAdd {hdfrcv : Dataset} {mname : Bytes} (hp : Coherent p)
    (hname : reqGetParamStr hdfrcv "mname" = .ok mname) (hpack : Packable kept .member p.db (hashStringRev mname))
    (hpackCar : Packable kept .car p.db (hashStringRev mname)) :
    Coherent (memberCmdMemAdd kept met p hdfrcv []).plugin := by
  have hmid := memberGetParamMid_registration hdfrcv mname
  have hgot : memberCmdMemGet kept met p (registrationData hdfrcv mname) [] =
      View.member.read kept met p (hashStringRev mname) [] := get_eq_read hmid []
  have hcoherent : Coherent (View.member.read kept met p (hashStringRev mname) []).plugin := read_coherent hp hpack
  have hanswered : Answered met _ (View.member.read kept met p (hashStringRev mname) []) := read_answered hp
  simp only [memberCmdMemAdd, hname, hgot]
  split
  · rename_i herr
    split
    · exact hcoherent
    · rename_i hmale
      have hnexist : (View.member.read kept met p (hashStringRev mname) []).err = some (.rep .memberNexist) := by
        rcases herr with herr | herr
        · exact absurd (shown_male _ (hanswered.shows herr)) hmale
        · exact herr
      obtain ⟨heq, hcd, -, -⟩ := read_memberNexist hnexist
      rw [heq]
      split
      · exact hp
      · rename_i cols hcols
        rcases mdbExec_cases met ⟨some (.rep .memberNexist), [], p⟩ (.insertMember cols) with ⟨db, hexec, hdone⟩ | hdone
        · rw [hdone]
          have hinserted := coherent_insertMember hp hexec
          split
          · apply coherent_carAdd hinserted hmid
            · intro d hd
              rw [View.shown, (exec_insertMember hexec).2.1] at hd
              exact hpackCar d hd
            · intro cols hcols hacc hfree
              exact hcd
          · exact hinserted
        · rw [hdone, if_neg fun h => Option.some_ne_none _ h.1]
          exact hp
  · exact hcoherent

theorem named_eq {hdf' : Dataset} (hop : q.operation ≠ .memAdd) (hmid : memberGetParamMid q.hdfrcv = .ok (mid, hdf')) :
    q.named = .ok mid := by
  unfold MemberRequested.named
  split
  · rename_i h
    exact (hop h).elim
  · rw [hmid]
    rfl

theorem coherent_step (hp : Coherent p) (hq : Harmless kept p q) : Coherent (step kept p q) := by
  have hl := hp.lapsed q.met.gone
  have hget : ∀ view, q.operation ≠ .memAdd → view ∈ q.operation.views →
      Coherent (view.get kept q.met (p.lapsed q.met.gone) q.hdfrcv []).plugin := by
    intro view hop hview
    apply coherent_get hl
    intro mid hdf' hmid
    exact hq.packable mid (named_eq hop hmid) view hview
  unfold step served memberProcessDriver
  cases hop : q.operation with
  | memGet => exact hget .member (by rw [hop]; decide) (by rw [hop]; exact List.mem_cons_self)
  | memPrivGet => exact hget .memberPriv (by rw [hop]; decide) (by rw [hop]; exact List.mem_cons_self)
  | carGet => exact hget .car (by rw [hop]; decide) (by rw [hop]; exact List.mem_cons_self)
  | memAdd =>
    cases hname : reqGetParamStr q.hdfrcv "mname" with
    | error err =>
      simp only [memberCmdMemAdd, hname]
      exact hl
    | ok mname =>
      have hnamed : q.named = .ok (hashStringRev mname : ℤ) := by
        simp only [MemberRequested.named, hop, hname]
        rfl
      apply coherent_memAdd hl hname
      · exact hq.packable _ hnamed .member (by rw [hop]; decide)
      · exact hq.packable _ hnamed .car (by rw [hop]; decide)
  | memUp =>
    cases hmid : memberGetParamMid q.hdfrcv with
    | error err =>
      simp only [memberCmdMemUp, hmid]
      exact hl
    | ok param =>
      apply coherent_memUp hl hmid
      exact hq.packable _ (named_eq (by rw [hop]; decide) hmid) .member (by rw [hop]; decide)
  | carAdd =>
    cases hmid : memberGetParamMid q.hdfrcv with
    | error err =>
      simp only [memberCmdCarAdd, hmid]
      exact hl
    | ok param =>
      apply coherent_carAdd hl hmid
      · exact hq.packable _ (named_eq (by rw [hop]; decide) hmid) .car (by rw [hop]; decide)
      · intro cols hcols hacc hfree
        exact hq.apart _ ⟨hop, _, cols, hmid, hcols, hacc, hfree⟩

def MemberCmd.gets : MemberCmd → Option View
  | .memGet => some .member
  | .memPrivGet => some .memberPriv
  | .carGet => some .car
  | .memAdd | .memUp | .carAdd => none

/-- A command that shows a view of the member `mid`. -/
def Gets (q : MemberRequested) (view : View) (mid : ℤ) : Prop :=
  q.operation.gets = some view ∧ q.named = .ok mid

/-- A successful `MEMBER_UP` or `CAR_ADD` for the member `mid`. -/
def Changes (kept : Dataset → Dataset) (p : Plugin) (q : MemberRequested) (mid : ℤ) : Prop :=
  (q.operation = .memUp ∨ q.operation = .carAdd) ∧ q.named = .ok mid ∧ (served kept p q).err = none

/-- What is shown of a member after a change is what the tables have by then. -/
def ReadsChanged (kept : Dataset → Dataset) (p : Plugin) (qs : List MemberRequested) : Prop :=
  ∀ before change between get rest view mid, qs = before ++ change :: (between ++ get :: rest) →
    Changes kept (before.foldl (step kept) p) change mid → Gets get view mid →
    Answered get.met (view.shown ((before ++ change :: between).foldl (step kept) p).db mid)
      (served kept ((before ++ change :: between).foldl (step kept) p) get)

theorem gets_answered (hp : Coherent p) (hq : Gets q view mid) :
    Answered q.met (view.shown p.db mid) (served kept p q) := by
  obtain ⟨hview, hnamed⟩ := hq
  have hop : q.operation ≠ .memAdd := by
    intro h
    rw [h] at hview
    cases hview
  have hserved : served kept p q = view.get kept q.met (p.lapsed q.met.gone) q.hdfrcv [] := by
    unfold served memberProcessDriver
    cases hop' : q.operation <;> rw [hop'] at hview <;> cases hview <;> rfl
  rw [hserved]
  cases hmid : memberGetParamMid q.hdfrcv with
  | error err =>
    unfold MemberRequested.named at hnamed
    split at hnamed
    · rename_i h
      exact (hop h).elim
    · rw [hmid] at hnamed
      cases hnamed
  | ok param =>
    obtain ⟨mid', hdf'⟩ := param
    obtain rfl : mid' = mid := Except.ok.inj ((named_eq hop hmid).symm.trans hnamed)
    rw [get_eq_read hmid]
    exact read_answered (hp.lapsed q.met.gone)

def start (db : Database) : Plugin := ⟨db, fun _ => none⟩

/-- Members and cars are shown as they are, as long as no car is added to a member that is cached without one, and
what is read is cached as it is. -/
theorem readsChanged_of_harmless (kept : Dataset → Dataset) (db : Database) {qs : List MemberRequested}
    (hqs : Guarded (step kept) (Harmless kept) (start db) qs) : ReadsChanged kept (start db) qs := by
  have hstart : Coherent (start db) := backed_empty
  intro before change between get rest view mid hsplit _ hget
  have hsplit' : qs = (before ++ change :: between) ++ get :: rest := by
    rw [hsplit, List.append_assoc, List.cons_append]
  rw [hsplit'] at hqs
  have hcoherent : Throughout (step kept) Coherent (start db) (before ++ change :: between) :=
    Guarded.throughout (fun _ _ h hq => coherent_step h hq) hstart (guarded_append.mp hqs).1
  exact gets_answered hcoherent.last hget

/-- Nothing is gone, and the server answers and takes everything. -/
def fair : Surroundings := ⟨fun _ => false, fun _ => true, fun _ => true, true⟩

def oneMember : Plugin := start { emptyDb with member := fun mid => if mid = 7 then some memberDefault else none }

def asks (operation : MemberCmd) (hdfrcv : Dataset) : MemberRequested := ⟨operation, ("mid", some [55]) :: hdfrcv, fair⟩

def carBetween : List MemberRequested :=
  [asks .memGet [], asks .carAdd [("size", some [52])], asks .memGet []]

theorem not_readsChanged_carBetween : ¬ ReadsChanged (fun d => d) oneMember carBetween := by
  intro h
  have hanswered := (h [asks .memGet []] (asks .carAdd [("size", some [52])]) [] (asks .memGet []) [] .member 7 rfl
    ⟨.inr rfl, rfl, rfl⟩ ⟨rfl, rfl⟩).shows rfl
  have hsize : (View.member.shown (([asks .memGet []] ++ asks .carAdd [("size", some [52])] :: []).foldl
      (step fun d => d) oneMember).db 7).bind (hdfGetValue · "size") = some [52] := by decide
  rw [hanswered] at hsize
  exact absurd hsize (by decide)

def carFirst : List MemberRequested :=
  [asks .carAdd [("size", some [52])], asks .memGet [], asks .memUp [("male", some [49])], asks .memGet []]

theorem carFirst_readsChanged : ReadsChanged (fun d => d) oneMember carFirst := by
  refine readsChanged_of_harmless _ _ ⟨⟨fun _ _ _ _ _ _ => rfl, ?_⟩, ⟨fun _ _ _ _ _ _ => rfl, ?_⟩,
    ⟨fun _ _ _ _ _ _ => rfl, ?_⟩, ⟨fun _ _ _ _ _ _ => rfl, ?_⟩, trivial⟩
  · intro mid _
    rfl
  · rintro mid ⟨hop, -⟩
    cases hop
  · rintro mid ⟨hop, -⟩
    cases hop
  · rintro mid ⟨hop, -⟩
    cases hop

end Cmoon.MemberReads
