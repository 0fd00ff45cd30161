import Cmoon.BankTransactions
import Cmoon.ConversationKeys
import Cmoon.KeyedTables
import Cmoon.PlanMatching
import Mathlib.Data.List.Sort

/-! # The accounts of the sites

The commands of `mevent_aic.c`. A site is an app with the number that its name hashes to; another app may be one of its
admins, and names its number as `pid`. `userinfo` tells which visitors a site knows. What the commands read of the two
tables is kept in the cache for an hour, and the commands that write drop what they know to be old. -/
namespace Cmoon.AppPlugin
open DecimalText Datasets StatementBuilding MemberTables MemberPlugin StatementTexts LapsingCaches KeyedTables
open BankTransactions (hashString)
open PlanReads (reqGetParamInt)
open PlanTimes (PlanNode)
open PlanMatching (mdbSetRows)
open ConversationKeys (Page)

/-- `APPINFO_COL` and `USERINFO_COL`; the times are selected as days. -/
def appinfoCol : List String :=
  ["aid", "aname", "pid", "asn", "masn", "email", "state", "tune", "intime", "uptime"]
def userinfoCol : List String :=
  ["uid", "uname", "ip", "addr", "intime", "aid", "aname", "intime", "uptime"]

def updateColAppinfo : List ColumnSpec :=
  [strCol "asn" 256 false, strCol "masn" 256 false, strCol "email" 256 false, intCol "state" false]

def updateColUserinfo : List ColumnSpec := [strCol "ip" 32 false, strCol "addr" 64 false]

def insertColUserinfo : List ColumnSpec :=
  [strCol "uname" 256 true, strCol "aname" 256 true, intCol "uid" false, intCol "aid" false, strCol "ip" 32 true,
    strCol "addr" 64 false]

/-- The defaults of `CREATE TABLE appinfo`, and those of `userinfo`. -/
def appDefault : Row := fun col => if col ∈ ["aid", "state", "tune", "pid"] then .int 0 else .text []
def userDefault : Row := fun col => if col ∈ ["uid", "aid"] then .int 0 else .text []

def appKey (row : Row) : Value := row "aid"
def userKey (row : Row) : Value × Value := (row "uid", row "aid")

/-- The tables; `appreset` holds the link of each name, and its day. -/
structure AicTables where
  appinfo : Table appKey
  userinfo : Table userKey
  appreset : Bytes → Option (Bytes × Bytes)

/-- A new row: both times have the default `now()`. -/
def created (today : Bytes) (row : Row) : Row := row.assign [("intime", .str today none), ("uptime", .str today none)]

/-- The trigger `update_time`. -/
def touched (today : Bytes) (row : Row) : Row := row.assign [("uptime", .str today none)]

def lcsTuneSecy : ℤ := 4

/-- `&` and `|` of two `int` values. -/
def intAnd (x y : ℤ) : ℤ := (BitVec.ofInt 32 x &&& BitVec.ofInt 32 y).toInt
def intOr (x y : ℤ) : ℤ := (BitVec.ofInt 32 x ||| BitVec.ofInt 32 y).toInt

def tuneOf (row : Row) : ℤ :=
  match row "tune" with
  | .int n => n
  | .text _ => 0

/-- The assignment to `tune`, by its old value. -/
def retuned (f : ℤ → ℤ) (row : Row) : Row := row.assign [("tune", .int (f (tuneOf row)))]

def mergeAppreset (today aname rlink : Bytes) (appreset : Bytes → Option (Bytes × Bytes)) :
    Bytes → Option (Bytes × Bytes) :=
  let intime := ((appreset (varchar 256 aname)).map Prod.snd).getD today
  Function.update appreset (varchar 256 aname) (some (varchar 256 rlink, intime))

inductive AicErr where
  | rep (err : RepErr)
  | nregist | alreadyRegist | missEmail | nreset | notJoin
  | mem
  deriving DecidableEq

/-- A reply: its values, and the nodes below `userlist` or `users`. -/
structure AicReply where
  hdf : Dataset
  nodes : List PlanNode

structure AicPlugin where
  tables : AicTables
  cd : Store Bytes AicReply

/-- The functions that the plugin was written for, and in whose place there are now `mdb_build_upcol`, `mdb_build_incol`,
`mdb_pagediv` and `MDB_PAGEDIV_SET_N`. Of the builders it is known what they are for: they write the listed columns for
which the dataset has a value. That of an `UPDATE` appends to a text, which need not be empty. -/
structure Mnl where
  mcsBuildUpcol : Dataset → List ColumnSpec → Bool → Except BuildError Assignments
  mcsBuildIncol : Dataset → List ColumnSpec → Except BuildError Assignments
  mmiscPagediv : Dataset → Page × Dataset
  -- with the count, if the server has answered it
  mmiscPagedivSetN : Option ℤ → Dataset → Dataset
  mcsBuildUpcol_ok : ∀ {data specs behind cols}, mcsBuildUpcol data specs behind = .ok cols → cols = givenCols data specs
  mcsBuildIncol_ok : ∀ {data specs cols}, mcsBuildIncol data specs = .ok cols → cols = givenCols data specs

/-- What a command meets: the cache entries that are gone by then, which of its queries the server answers and which of
its statements it takes, whether there is memory to pack a dataset, the day, the order in which the rows of a table are
found, and the library. -/
structure Met where
  gone : Bytes → Bool
  answers : ℕ → Bool
  takes : ℕ → Bool
  calloc : Bool
  today : Bytes
  found : { scan : List Row → List Row // ∀ rows, (scan rows).Perm rows }
  mnl : Mnl

inductive AicCmd where
  | appinfo | appnew | appup | appdel | getsecy | setsecy | appusers | appuserin | appuserout | appuserup | appousers
  | getrlink | setrlink
  deriving DecidableEq

structure AicRequested where
  operation : AicCmd
  hdfrcv : Dataset
  met : Met

/-- `PREFIX_APPINFO"%d"`, `PREFIX_SECY"%d"`, `PREFIX_USERLIST"%d"` and `PREFIX_APPOUSER"%d_%d"` -/
def appinfoText (aid : ℤ) : Bytes := ascii "Appinfo" ++ printInt aid
def secyText (aid : ℤ) : Bytes := ascii "Secy" ++ printInt aid
def userlistText (aid : ℤ) : Bytes := ascii "AppUserlist" ++ printInt aid
def appouserText (pid offset : ℤ) : Bytes := ascii "AppOuser" ++ printInt pid ++ 95 :: printInt offset

section Queries
variable (met : Met) (t : AicTables)

def query {α : Type} (n : ℕ) (a : α) : Except AicErr α := if met.answers n then .ok a else .error (.rep .db)

/-- The memory that `CACHE_HDF` asks for. -/
def packable (r : AicReply) : Except AicErr AicReply := if met.calloc then .ok r else .error .mem

def parentName (hdfsnd : Dataset) : Except AicErr Dataset :=
  let pid := hdfGetIntValue hdfsnd "pid" 0
  if pid = 0 then .ok hdfsnd
  else query met 1 (match t.appinfo.find (.int pid) with
    | some row => hdfSetValue hdfsnd "pname" (some (row "aname").print)
    | none => hdfsnd)

/-- `COUNT(*)+1` of the admins. -/
def numUser (aid : ℤ) : ℤ := (t.appinfo.rows.filter (· "pid" = .int aid)).length + 1

def selectApp (aname : Bytes) (aid : ℤ) : Except AicErr AicReply := do
  match ← query met 0 (t.appinfo.find (.int aid)) with
  | none => .error .nregist
  | some row =>
    let hdfsnd ← parentName met t (mdbSetRow [("pname", some aname)] row appinfoCol)
    let numuser ← query met 2 (numUser t aid)
    packable met ⟨hdfSetIntValue hdfsnd "numuser" numuser, []⟩

def siteOf (aid : ℤ) (row : Row) : Bool := row "aid" = .int aid ∨ row "pid" = .int aid

/-- The first app of the site that may answer when everybody is away; there need not be one. -/
def selectSecy (aid : ℤ) : Except AicErr AicReply := do
  let rows ← query met 0 (met.found.1 t.appinfo.rows)
  match rows.find? fun row => siteOf aid row && intAnd (tuneOf row) lcsTuneSecy = lcsTuneSecy with
  | some row => packable met ⟨mdbSetRow [] row ["aname"], []⟩
  | none => packable met ⟨[], []⟩

/-- `ORDER BY uptime DESC`, which is by the selected days: the rows of one day come as they are found. -/
def newestFirst (rows : List Row) : List Row :=
  (met.found.1 rows).insertionSort fun a b => (b "uptime").print ≤ (a "uptime").print

/-- The nodes below `userlist` or `users`; a name is one component of a path. -/
def usersOf (cols : List String) (name : String) (rows : List Row) : List PlanNode :=
  mdbSetRows [] (rows.map fun row => ⟨(row name).print, mdbSetRow [] row cols⟩)

def usersIn (aid : ℤ) : List Row := t.userinfo.rows.filter (· "aid" = .int aid)

def limited (lm : ℤ) (rows : List Row) : List Row := if 0 < lm then rows.take lm.toNat else rows

def selectUsers (aid lm : ℤ) : Except AicErr AicReply := do
  let rows ← query met 0 (limited lm (newestFirst met (usersIn t aid)))
  packable met ⟨[], usersOf userinfoCol "uname" rows⟩

def numCamer : ℕ → List PlanNode → Except AicErr (List PlanNode)
  | _, [] => .ok []
  | n, node :: nodes => do
    let cols ← match hdfGetValue node.cols "aname" with
      | some aname => query met n (hdfSetIntValue node.cols "numcamer" (usersIn t (hashString aname)).length)
      | none => .ok node.cols
    let nodes ← numCamer (n + 1) nodes
    return ⟨node.name, cols⟩ :: nodes

/-- PostgreSQL has no negative `LIMIT` and no negative `OFFSET`. -/
def selectPage (page : Page) (rows : List Row) : Except AicErr (List Row) :=
  if page.count < 0 ∨ page.offset < 0 then .error (.rep .db)
  else query met 1 ((rows.drop page.offset.toNat).take page.count.toNat)

/-- A page of the apps of a site, and their number. -/
def selectOusers (pid : ℤ) (page : Page) (hdfsnd : Dataset) : Except AicErr AicReply := do
  let apps := t.appinfo.rows.filter (siteOf pid)
  let ntt := if met.answers 0 then some (apps.length : ℤ) else none
  let rows ← selectPage met page (newestFirst met apps)
  let nodes ← numCamer met t 2 (usersOf appinfoCol "aname" rows)
  packable met ⟨met.mnl.mmiscPagedivSetN ntt hdfsnd, nodes⟩

end Queries

abbrev AicOutcome := Except AicErr AicReply × AicPlugin

def AicPlugin.fail (s : AicPlugin) (err : AicErr) : AicOutcome := (.error err, s)

def withParam {α : Type} (s : AicPlugin) (param : Except RepErr α) (next : α → AicOutcome) : AicOutcome :=
  match param with
  | .error err => s.fail (.rep err)
  | .ok a => next a

/-- A statement with its number among those of the command; the table is none when the server itself refuses it. -/
def AicPlugin.exec (s : AicPlugin) (met : Met) (n : ℕ) (t : Option AicTables) (next : AicPlugin → AicOutcome) :
    AicOutcome :=
  match t with
  | some t => if met.takes n then next { s with tables := t } else s.fail (.rep .db)
  | none => s.fail (.rep .db)

def AicPlugin.delf (s : AicPlugin) (key : Bytes) : AicPlugin := { s with cd := drop s.cd key }

/-- What an `UPDATE` makes of the rows of a kind. -/
def onRows (p : Row → Bool) (f : Row → Row) (row : Row) : Row := if p row then f row else row

def AicTables.insertApp (t : AicTables) (row : Row) : Option AicTables :=
  (t.appinfo.insert row).map fun appinfo => { t with appinfo := appinfo }

def AicTables.updateApps (t : AicTables) (p : Row → Bool) (f : Row → Row) : Option AicTables :=
  (t.appinfo.update (onRows p f)).map fun appinfo => { t with appinfo := appinfo }

def AicTables.insertUser (t : AicTables) (row : Row) : Option AicTables :=
  (t.userinfo.insert row).map fun userinfo => { t with userinfo := userinfo }

def AicTables.updateUsers (t : AicTables) (p : Row → Bool) (f : Row → Row) : Option AicTables :=
  (t.userinfo.update (onRows p f)).map fun userinfo => { t with userinfo := userinfo }

section Commands
-- what `unpack_hdf` makes of a dataset that was packed
variable (kept : AicReply → AicReply) (met : Met) (s : AicPlugin) (hdfrcv : Dataset)

def cached (key : Bytes) (select : Except AicErr AicReply) : AicOutcome :=
  let out := readThrough kept s.cd key key select
  (out.1, { s with cd := out.2 })

def aicCmdAppinfo : AicOutcome :=
  withParam s (reqGetParamStr hdfrcv "aname") fun aname =>
    let aid := hashString aname
    cached kept s (appinfoText aid) (selectApp met s.tables aname aid)

/-- The parameters of `APPNEW` that are needed: the row, and its name. -/
def appnewParams : Except RepErr (Bytes × Assignments) := do
  let state ← reqGetParamInt hdfrcv "state"
  let aname ← reqGetParamStr hdfrcv "aname"
  let asn ← reqGetParamStr hdfrcv "asn"
  let masn ← reqGetParamStr hdfrcv "masn"
  let email ← reqGetParamStr hdfrcv "email"
  return (aname, [("aname", .str aname (some 256)), ("asn", .str asn (some 256)), ("masn", .str masn (some 256)),
    ("email", .str email (some 256)), ("state", .int state)])

def pidOf : ℤ :=
  match nonempty hdfrcv "pname" with
  | some pname => hashString pname
  | none => 0

def newApp (aid : ℤ) (cols : Assignments) : Row :=
  created met.today (appDefault.assign ([("aid", .int aid), ("pid", .int (pidOf hdfrcv))] ++ cols))

/-- The entry of an app is dropped, and the first page of the site that it is an admin of. -/
def AicPlugin.dropApp (s : AicPlugin) (aid pid : ℤ) : AicPlugin :=
  let s := s.delf (appinfoText aid)
  if 0 < pid then s.delf (appouserText pid 0) else s

def aicCmdAppnew : AicOutcome :=
  withParam s (appnewParams hdfrcv) fun (aname, cols) =>
    let aid := hashString aname
    let out := aicCmdAppinfo kept met s hdfrcv
    let insert (hdfsnd : AicReply) : AicOutcome :=
      out.2.exec met 0 (out.2.tables.insertApp (newApp met hdfrcv aid cols))
        fun s => (.ok hdfsnd, s.dropApp aid (pidOf hdfrcv))
    match out.1 with
    | .error .nregist => insert ⟨[("pname", some aname)], []⟩
    | .error err => (.error err, out.2)
    | .ok r => if (hdfGetObj r.hdf "state").isSome then (.error .alreadyRegist, out.2) else insert r

/-- The bits of `tune` that are set, or with a `tuneop` of 0 unset. -/
def tuneParam : Option (ℤ → ℤ) :=
  let tune := match hdfGetValue hdfrcv "tune" with
    | some _ => hdfGetIntValue hdfrcv "tune" 0
    | none => -1
  if tune = -1 then none
  else if hdfGetIntValue hdfrcv "tuneop" 0 = 0 then some fun x => intAnd x (-tune - 1)
  else some fun x => intOr x tune

/-- What `APPUP` assigns besides `tune`. -/
def appupCols : Except BuildError Assignments :=
  met.mnl.mcsBuildUpcol hdfrcv updateColAppinfo (tuneParam hdfrcv).isSome

def upApp (cols : Assignments) (row : Row) : Row :=
  touched met.today (match tuneParam hdfrcv with
    | some f => (retuned f row).assign cols
    | none => row.assign cols)

def aicCmdAppup : AicOutcome :=
  withParam s (reqGetParamStr hdfrcv "aname") fun aname =>
    let aid := hashString aname
    let out := aicCmdAppinfo kept met s hdfrcv
    match out.1 with
    | .error err => (.error err, out.2)
    | .ok r =>
      if (hdfGetObj r.hdf "state").isNone then (.error .nregist, out.2)
      else
        match appupCols met hdfrcv with
        | .error err => (.error (.rep (.build err)), out.2)
        | .ok cols => out.2.exec met 0 (out.2.tables.updateApps (· "aid" = .int aid) (upApp met hdfrcv cols))
            fun s => (.ok r, s.dropApp aid (hdfGetIntValue r.hdf "pid" 0))

def aicCmdAppdel : AicOutcome :=
  withParam s (reqGetParamStr hdfrcv "aname") fun aname =>
    let aid := hashString aname
    let out := aicCmdAppinfo kept met s hdfrcv
    match out.1 with
    | .error err => (.error err, out.2)
    | .ok r =>
      if (hdfGetObj r.hdf "state").isNone then (.error .nregist, out.2)
      else out.2.exec met 0 (some { out.2.tables with appinfo := out.2.tables.appinfo.delete (· "aid" = .int aid) })
        fun s => (.ok r, s.dropApp aid (hdfGetIntValue r.hdf "pid" 0))

def aicCmdAppGetsecy : AicOutcome :=
  withParam s (reqGetParamStr hdfrcv "aname") fun aname =>
    cached kept s (secyText (hashString aname)) (selectSecy met s.tables (hashString aname))

def retuneSite (f : ℤ → ℤ) (row : Row) : Row := touched met.today (retuned f row)

/-- The first of the apps whose bit was unset, which `RETURNING aid` gives, loses its entry; so does the app whose bit
is set. -/
def aicCmdAppSetsecy : AicOutcome :=
  withParam s (reqGetParamStr hdfrcv "pname") fun pname =>
    withParam s (reqGetParamStr hdfrcv "aname") fun aname =>
      let pid := hashString pname
      let aid := hashString aname
      s.exec met 0 (s.tables.updateApps (siteOf pid) (retuneSite met fun x => intAnd x (-lcsTuneSecy - 1))) fun s =>
        match (met.found.1 s.tables.appinfo.rows).find? (siteOf pid) with
        | none => s.fail (.rep .notFound)
        | some row =>
          s.exec met 1 (s.tables.updateApps (· "aid" = .int aid) (retuneSite met fun x => intOr x lcsTuneSecy)) fun s =>
            (.ok ⟨[], []⟩, (((s.delf (ascii "Appinfo" ++ (row "aid").print)).delf (appinfoText aid)).delf
              (appouserText pid 0)).delf (secyText pid))

def limitParam : ℤ :=
  match hdfGetValue hdfrcv "limit" with
  | some _ => hdfGetIntValue hdfrcv "limit" 0
  | none => 0

def aicCmdAppusers : AicOutcome :=
  withParam s (reqGetParamStr hdfrcv "aname") fun aname =>
    let aid := hashString aname
    cached kept s (userlistText aid) (selectUsers met s.tables aid (limitParam hdfrcv))

def AicReply.lists (r : AicReply) (uname : Bytes) : Bool :=
  r.nodes.any fun node => node.name = uname && (hdfGetValue node.cols "uname").isSome

def withIds (uid aid : ℤ) : Dataset := hdfSetIntValue (hdfSetIntValue hdfrcv "uid" uid) "aid" aid

def newUser (cols : Assignments) : Row := created met.today (userDefault.assign cols)

def aicCmdAppuserin : AicOutcome :=
  withParam s (reqGetParamStr hdfrcv "aname") fun aname =>
    withParam s (reqGetParamStr hdfrcv "uname") fun uname =>
      let aid := hashString aname
      let hdfrcv := withIds hdfrcv (hashString uname) aid
      let out := aicCmdAppusers kept met s hdfrcv
      match out.1 with
      | .error err => (.error err, out.2)
      | .ok r =>
        if r.lists uname then (.ok r, out.2)
        else
          match met.mnl.mcsBuildIncol hdfrcv insertColUserinfo with
          | .error err => (.error (.rep (.build err)), out.2)
          | .ok cols => out.2.exec met 0 (out.2.tables.insertUser (newUser met cols))
              fun s => (.ok r, s.delf (userlistText aid))

def isUser (uid aid : ℤ) (row : Row) : Bool := row "uid" = .int uid ∧ row "aid" = .int aid

def aicCmdAppuserout : AicOutcome :=
  withParam s (reqGetParamStr hdfrcv "uname") fun uname =>
    withParam s (reqGetParamStr hdfrcv "aname") fun aname =>
      let aid := hashString aname
      let out := aicCmdAppusers kept met s hdfrcv
      match out.1 with
      | .error err => (.error err, out.2)
      | .ok r =>
        if r.lists uname then
          let userinfo := out.2.tables.userinfo.delete (isUser (hashString uname) aid)
          out.2.exec met 0 (some { out.2.tables with userinfo := userinfo }) fun s => (.ok r, s.delf (userlistText aid))
        else (.error .notJoin, out.2)

def aicCmdAppuserup : AicOutcome :=
  withParam s (reqGetParamInt hdfrcv "uid") fun uid =>
    withParam s (reqGetParamInt hdfrcv "aid") fun aid =>
      match met.mnl.mcsBuildUpcol hdfrcv updateColUserinfo false with
      | .error err => s.fail (.rep (.build err))
      | .ok cols => s.exec met 0 (s.tables.updateUsers (isUser uid aid) fun row => touched met.today (row.assign cols))
          fun s => (.ok ⟨[], []⟩, s.delf (userlistText aid))

def aicCmdAppousers : AicOutcome :=
  withParam s (reqGetParamStr hdfrcv "pname") fun pname =>
    let pid := hashString pname
    let (page, hdfsnd) := met.mnl.mmiscPagediv hdfrcv
    cached kept s (appouserText pid page.offset) (selectOusers met s.tables pid page hdfsnd)

def aicCmdAppGetrlink : AicOutcome :=
  withParam s (reqGetParamStr hdfrcv "aname") fun aname =>
    match query met 0 (s.tables.appreset aname) with
    | .error err => s.fail err
    | .ok none => s.fail .nreset
    | .ok (some (rlink, intime)) =>
      (.ok ⟨[("aname", some aname), ("rlink", some rlink), ("intime", some intime)], []⟩, s)

def aicCmdAppSetrlink : AicOutcome :=
  withParam s (reqGetParamStr hdfrcv "aname") fun aname =>
    withParam s (reqGetParamStr hdfrcv "rlink") fun rlink =>
      let out := aicCmdAppinfo kept met s hdfrcv
      match out.1 with
      | .error err => (.error err, out.2)
      | .ok r =>
        if (hdfGetValue r.hdf "email").isNone then (.error .missEmail, out.2)
        else
          let appreset := mergeAppreset met.today aname rlink out.2.tables.appreset
          out.2.exec met 0 (some { out.2.tables with appreset := appreset }) fun s => (.ok r, s)

end Commands

section Process
variable (kept : AicReply → AicReply)

def aicProcessDriver (s : AicPlugin) (q : AicRequested) : AicOutcome :=
  match q.operation with
  | .appinfo => aicCmdAppinfo kept q.met s q.hdfrcv
  | .appnew => aicCmdAppnew kept q.met s q.hdfrcv
  | .appup => aicCmdAppup kept q.met s q.hdfrcv
  | .appdel => aicCmdAppdel kept q.met s q.hdfrcv
  | .getsecy => aicCmdAppGetsecy kept q.met s q.hdfrcv
  | .setsecy => aicCmdAppSetsecy q.met s q.hdfrcv
  | .appusers => aicCmdAppusers kept q.met s q.hdfrcv
  | .appuserin => aicCmdAppuserin kept q.met s q.hdfrcv
  | .appuserout => aicCmdAppuserout kept q.met s q.hdfrcv
  | .appuserup => aicCmdAppuserup q.met s q.hdfrcv
  | .appousers => aicCmdAppousers kept q.met s q.hdfrcv
  | .getrlink => aicCmdAppGetrlink q.met s q.hdfrcv
  | .setrlink => aicCmdAppSetrlink kept q.met s q.hdfrcv

/-- The plugin serves a request without the cache entries that are gone. -/
def served (s : AicPlugin) (q : AicRequested) : AicOutcome :=
  aicProcessDriver kept { s with cd := lapse s.cd q.met.gone } q

def step (s : AicPlugin) (q : AicRequested) : AicPlugin := (served kept s q).2

def after (s : AicPlugin) (qs : List AicRequested) : AicPlugin := qs.foldl (step kept) s

end Process
end Cmoon.AppPlugin
