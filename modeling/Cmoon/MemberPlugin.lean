import Cmoon.MemberTables
import Cmoon.NameHashing

/-! # The member plugin

The commands of `mevent_member.c` over the tables and the cache of the plugin. What a cache
entry shows of a member is what the row of that member holds: an update drops the entries
of the row it writes. -/
namespace Cmoon.MemberPlugin
open DecimalText Datasets StatementBuilding MemberTables NameHashing

inductive RepErr where
  | badparam (key : String)
  | memberNexist
  | membered
  | cared
  | notFound
  | planed
  | build (e : BuildError)
  | db
  deriving DecidableEq

abbrev Reply := Except RepErr Dataset

inductive Cmd where
  | memberGet | memberPrivGet | memberAdd | memberUp | memberGetrlink | memberSetrlink | carGet | carAdd
  deriving DecidableEq

/-- The cache holds packed datasets under `Member%d`, `MemberPriv%d` and `Car%d`. -/
structure MemberEntry where
  db : Database
  member : ℤ → Option Dataset
  memberPriv : ℤ → Option Dataset
  car : ℤ → Option Dataset

/-- What came of a command: the reply, the plugin, the member rows that were read from a
table or from the cache, and the statements the server executed. -/
structure Outcome where
  reply : Reply
  entry : MemberEntry
  read : List Dataset
  executed : List Statement

def Outcome.fail (e : MemberEntry) (err : RepErr) : Outcome := ⟨.error err, e, [], []⟩

/-- What the command put into the reply, of an error nothing. -/
def Outcome.hdfsnd (out : Outcome) : Dataset :=
  match out.reply with
  | .ok hdfsnd => hdfsnd
  | .error _ => []

def reqGetParamStr (hdf : Dataset) (key : String) : Except RepErr Bytes :=
  match nonempty hdf key with
  | some v => .ok v
  | none => .error (.badparam key)

def memberSetParamMid (hdf : Dataset) : Except RepErr Dataset :=
  match hdfGetValue hdf "mid" with
  | some _ => .ok hdf
  | none => (reqGetParamStr hdf "mname").map fun mname => hdfSetIntValue hdf "mid" (hashStringRev mname)

def memberGetParamMid (hdf : Dataset) : Except RepErr (ℤ × Dataset) :=
  match hdfGetValue hdf "mid" with
  | some _ => .ok (hdfGetIntValue hdf "mid" 0, hdf)
  | none => (reqGetParamStr hdf "mname").map fun mname =>
      (hashStringRev mname, hdfSetIntValue hdf "mid" (hashStringRev mname))

def memberCmdCarGet (e : MemberEntry) (hdfrcv : Dataset) : Outcome :=
  match memberGetParamMid hdfrcv with
  | .error err => .fail e err
  | .ok (mid, _) =>
    match e.car mid with
    | some val => ⟨.ok val, e, [], []⟩
    | none =>
      match e.db.car mid with
      | none => .fail e .notFound
      | some row =>
        let hdfsnd := mdbSetRow [] row colCar
        ⟨.ok hdfsnd, { e with car := Function.update e.car mid (some hdfsnd) }, [], []⟩

def memberData (row : Row) (car : Option Row) : Dataset :=
  let hdfsnd := mdbSetRow [] row colMember
  match car with
  | none => hdfsnd
  | some car => mdbSetRow hdfsnd car colCar

def memberCmdMemGet (e : MemberEntry) (hdfrcv : Dataset) : Outcome :=
  match memberGetParamMid hdfrcv with
  | .error err => .fail e err
  | .ok (mid, _) =>
    match e.member mid with
    | some val => ⟨.ok val, e, [val], []⟩
    | none =>
      match e.db.member mid with
      | none => .fail e .memberNexist
      | some row =>
        let hdfsnd := memberData row (e.db.car mid)
        ⟨.ok hdfsnd, { e with member := Function.update e.member mid (some hdfsnd) }, [hdfsnd], []⟩

def memberCmdMemPrivGet (e : MemberEntry) (hdfrcv : Dataset) : Outcome :=
  match memberGetParamMid hdfrcv with
  | .error err => .fail e err
  | .ok (mid, _) =>
    match e.memberPriv mid with
    | some val => ⟨.ok val, e, [val], []⟩
    | none =>
      match e.db.member mid with
      | none => .fail e .notFound
      | some row =>
        let hdfsnd := mdbSetRow [] row colMemberAdmin
        ⟨.ok hdfsnd, { e with memberPriv := Function.update e.memberPriv mid (some hdfsnd) }, [hdfsnd], []⟩

section Statements
variable (accepts : Assignments → Bool)

/-- `MDB_EXEC` of one statement, and what the command does once it is executed. -/
def mdbExec (e : MemberEntry) (read : List Dataset) (s : Statement) (next : MemberEntry → Outcome) : Outcome :=
  match e.db.exec accepts s with
  | none => ⟨.error .db, e, read, []⟩
  | some db =>
    let out := next { e with db := db }
    { out with read := read ++ out.read, executed := s :: out.executed }

def memberCmdCarAdd (e : MemberEntry) (hdfrcv : Dataset) : Outcome :=
  match memberGetParamMid hdfrcv with
  | .error err => .fail e err
  | .ok (_, hdfrcv) =>
    let out := memberCmdCarGet e hdfrcv
    let hdfsnd := out.hdfsnd
    if (hdfGetObj hdfsnd "size").isSome then .fail out.entry .cared
    else
      match mdbBuildIncol hdfrcv insertColCar with
      | .error err => .fail out.entry (.build err)
      | .ok cols => mdbExec accepts out.entry [] (.insertCar cols) fun e => ⟨.ok hdfsnd, e, [], []⟩

/-- `Odomain` of `server.hdf`: `58`, `ganji`, `edeng`, `liebiao`. -/
def odomain : List (Bytes × Bytes) :=
  [([53, 56], [49]), ([103, 97, 110, 106, 105], [50]), ([101, 100, 101, 110, 103], [51]),
    ([108, 105, 101, 98, 105, 97, 111], [52])]

def numberOri (hdf : Dataset) : Dataset :=
  match (nonempty hdf "ori").bind fun ori => odomain.lookup ori with
  | some v => hdfSetValue hdf "ori" (some v)
  | none => hdf

def memberCmdMemAdd (e : MemberEntry) (hdfrcv : Dataset) : Outcome :=
  match reqGetParamStr hdfrcv "mname" with
  | .error err => .fail e err
  | .ok mname =>
    let hdfrcv := hdfSetIntValue (numberOri hdfrcv) "mid" (hashStringRev mname)
    let out := memberCmdMemGet e hdfrcv
    let insert (hdfsnd : Dataset) : Outcome :=
      if (hdfGetObj hdfsnd "male").isSome then ⟨.error .membered, out.entry, out.read, []⟩
      else
        match mdbBuildIncol hdfrcv insertColMember with
        | .error err => ⟨.error (.build err), out.entry, out.read, []⟩
        | .ok cols => mdbExec accepts out.entry out.read (.insertMember cols) fun e =>
            match nonempty hdfrcv "_addcar" with
            | none => ⟨.ok hdfsnd, e, [], []⟩
            | some _ => memberCmdCarAdd accepts e hdfrcv
    match out.reply with
    | .ok hdfsnd => insert hdfsnd
    | .error .memberNexist => insert []
    | .error err => ⟨.error err, out.entry, out.read, []⟩

def memberCmdMemUp (e : MemberEntry) (hdfrcv : Dataset) : Outcome :=
  match memberGetParamMid hdfrcv with
  | .error err => .fail e err
  | .ok (mid, hdfrcv) =>
    let out := memberCmdMemGet e hdfrcv
    match out.reply with
    | .error err => ⟨.error err, out.entry, out.read, []⟩
    | .ok hdfsnd =>
      match mdbBuildUpcol hdfrcv updateColMember with
      | .error err => ⟨.error (.build err), out.entry, out.read, []⟩
      | .ok cols => mdbExec accepts out.entry out.read (.updateMember cols mid) fun e =>
          ⟨.ok hdfsnd, { e with
            member := Function.update e.member mid none
            memberPriv := Function.update e.memberPriv mid none }, [], []⟩

def memberCmdMemGetrlink (e : MemberEntry) (hdfrcv : Dataset) : Outcome :=
  match reqGetParamStr hdfrcv "mname" with
  | .error err => .fail e err
  | .ok mname =>
    let out := memberCmdMemGet e hdfrcv
    match out.reply with
    | .error err => ⟨.error err, out.entry, out.read, []⟩
    | .ok hdfsnd =>
      match out.entry.db.memberreset mname with
      | none => ⟨.error .notFound, out.entry, out.read, []⟩
      | some rlink =>
        let hdfsnd := hdfSetValue (hdfSetValue hdfsnd "mname" (some mname)) "rlink" (some rlink)
        ⟨.ok hdfsnd, out.entry, out.read, []⟩

def memberCmdMemSetrlink (e : MemberEntry) (hdfrcv : Dataset) : Outcome :=
  match reqGetParamStr hdfrcv "mname" with
  | .error err => .fail e err
  | .ok mname =>
    match reqGetParamStr hdfrcv "rlink" with
    | .error err => .fail e err
    | .ok rlink =>
      let out := memberCmdMemGet e hdfrcv
      match out.reply with
      | .error err => ⟨.error err, out.entry, out.read, []⟩
      | .ok hdfsnd => mdbExec accepts out.entry out.read (.mergeMemberreset mname rlink) fun e =>
          ⟨.ok hdfsnd, e, [], []⟩

def memberProcessDriver (e : MemberEntry) (operation : Cmd) (hdfrcv : Dataset) : Outcome :=
  match operation with
  | .memberGet => memberCmdMemGet e hdfrcv
  | .memberPrivGet => memberCmdMemPrivGet e hdfrcv
  | .memberAdd => memberCmdMemAdd accepts e hdfrcv
  | .memberUp => memberCmdMemUp accepts e hdfrcv
  | .memberGetrlink => memberCmdMemGetrlink e hdfrcv
  | .memberSetrlink => memberCmdMemSetrlink accepts e hdfrcv
  | .carGet => memberCmdCarGet e hdfrcv
  | .carAdd => memberCmdCarAdd accepts e hdfrcv

end Statements
end Cmoon.MemberPlugin
