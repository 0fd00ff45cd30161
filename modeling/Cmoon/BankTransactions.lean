import Cmoon.LapsingCaches
import Cmoon.NameHashing
import Cmoon.PlanReads

/-! # Transactions of the bank plugin

A bill is added between `BEGIN` and `COMMIT`. With a connection goes the list of the calls that have succeeded on it. -/
namespace Cmoon.BankTransactions
open DecimalText Datasets NameHashing LapsingCaches
open PlanReads (reqGetParamInt)

inductive BankErr where
  | badparam (key : String)
  | ncharge (aname : Bytes) (fee : ℤ)
  | needup (aname : Bytes)
  | needupBelow (aname : Bytes) (mm fee : ℤ)
  | assert (what : String)
  | mem
  | db
  deriving DecidableEq

/-- The statements that change a table. -/
inductive BankStatement where
  | mergeBankPre (aname : Bytes) (aid fee : ℤ)
  | confirm (fee aid : ℤ)
  | charge (fee aid : ℤ)
  | insertBill (aid : ℤ) (aname : Bytes) (type fee : ℤ) (remark : Bytes)
  deriving DecidableEq

inductive DbCall where
  | begin
  | commit
  | rollback
  | exec (statement : BankStatement)
  deriving DecidableEq

structure Conn where
  inTransaction : Bool
  done : List DbCall
  deriving DecidableEq

/-- How the calls end: the error, when there is one. `row` is the row of `bank` that the select gets. -/
structure Outcomes where
  begin : Option BankErr
  commit : Option BankErr
  rollback : Option BankErr
  exec : BankStatement → Option BankErr
  row : Except BankErr (Option Dataset)

section Calls
variable (out : Outcomes)

def mdbBegin (conn : Conn) : Option BankErr × Conn :=
  match out.begin with
  | some err => (some err, conn)
  | none => (none, ⟨true, conn.done ++ [.begin]⟩)

def mdbCommit (conn : Conn) : Option BankErr × Conn :=
  match out.commit with
  | some err => (some err, conn)
  | none => (none, ⟨false, conn.done ++ [.commit]⟩)

def mdbRollback (conn : Conn) : Option BankErr × Conn :=
  match out.rollback with
  | some err => (some err, conn)
  | none => (none, ⟨false, conn.done ++ [.rollback]⟩)

def mdbFinish (conn : Conn) : Option BankErr × Conn :=
  if conn.inTransaction then
    match mdbCommit out conn with
    | (none, conn) => (none, conn)
    | (some err, conn) => (some err, (mdbRollback out conn).2)
  else (some (.assert "not in transaction"), conn)

def mdbExecTs (statement : BankStatement) (conn : Conn) : Option BankErr × Conn :=
  match out.exec statement with
  | some err => (some err, (mdbRollback out conn).2)
  | none => (none, { conn with done := conn.done ++ [.exec statement] })

def reqGetParamStr (hdf : Dataset) (key : String) : Except BankErr Bytes :=
  match nonempty hdf key with
  | some v => .ok v
  | none => .error (.badparam key)

def reqGetParamNumber (hdf : Dataset) (key : String) : Except BankErr ℤ :=
  match reqGetParamInt hdf key with
  | .ok n => .ok n
  | .error _ => .error (.badparam key)

def hashString (s : Bytes) : ℤ := (s.foldl (fun hash ch => hashStep ch hash) 5381 &&& 0x7FFFFFFF).toNat

/-- A request, the reply so far, and what the command meets: whether there is memory for the packing, and what is on the
stack where `remark` stands, and behind it. -/
structure BankRequested where
  hdfrcv : Dataset
  hdfsnd : Dataset
  calloc : Bool
  stack : Bytes

abbrev BankCache := Store ℤ Dataset

def bankCmdInfo (q : BankRequested) (cd : BankCache) : Except BankErr Dataset × BankCache :=
  match reqGetParamStr q.hdfrcv "aname" with
  | .error err => (.error err, cd)
  | .ok aname =>
    let aid := hashString aname
    match cd aid with
    | some val => (.ok (hdfCopy q.hdfsnd val), cd)
    | none =>
      match out.row with
      | .error err => (.error err, cd)
      | .ok none => (.error (.needup aname), cd)
      | .ok (some row) =>
        let hdfsnd := hdfCopy q.hdfsnd row
        if q.calloc then (.ok hdfsnd, put cd aid hdfsnd) else (.error .mem, cd)

/-- The operations of `btype`. -/
inductive BankOp where
  | precharge | cfmcharge | addaccount | rollback
  deriving DecidableEq

def bankOp (type : ℤ) : Option BankOp :=
  if type = 0 then some .precharge
  else if type = 1 then some .cfmcharge
  else if type = 2 then some .addaccount
  else if type = 3 then some .rollback
  else none

/-- The parameter that an operation asks for inside of the transaction. -/
def BankOp.param : BankOp → String
  | .precharge | .cfmcharge | .addaccount => "account"
  | .rollback => "remark"

def utf8 (s : String) : Bytes := s.toUTF8.toList

/-- `snprintf` and `strncpy` to the 256 bytes of `remark`. -/
def BankOp.remark (stack : Bytes) (account : Bytes) : BankOp → Bytes
  | .precharge => (account ++ utf8 " 申请充值").take 255
  | .cfmcharge => (utf8 "播豆管理员 " ++ account ++ utf8 " 确认充值成功").take 255
  | .addaccount => (utf8 "开通客服帐号 " ++ account).take 255
  | .rollback => if account.length < 256 then account else account.take 256 ++ stack.drop 256

/-- Where the `switch` ends: with a `return`, at `finish`, or at the `INSERT`. -/
inductive Exit where
  | leave (err : BankErr)
  | finish (err : BankErr)
  | goOn (remark : Bytes)

def goOnAfter (statement : BankStatement) (remark : Bytes) (conn : Conn) : Exit × Conn :=
  match mdbExecTs out statement conn with
  | (some err, conn) => (.leave err, conn)
  | (none, conn) => (.goOn remark, conn)

def bankSwitch (q : BankRequested) (aname : Bytes) (aid fee : ℤ) (op : Option BankOp) (conn : Conn) (cd : BankCache) :
    (Exit × Conn) × BankCache :=
  match op with
  | none => ((.goOn q.stack, conn), cd)
  | some op =>
    match reqGetParamStr q.hdfrcv op.param with
    | .error err => ((.leave err, conn), cd)
    | .ok account =>
      let remark := op.remark q.stack account
      match op with
      | .precharge => (goOnAfter out (.mergeBankPre aname aid fee) remark conn, cd)
      | .cfmcharge =>
        match bankCmdInfo out q cd with
        | (.error err, cd) => ((.finish err, conn), cd)
        | (.ok hdfsnd, cd) =>
          if hdfGetIntValue hdfsnd "mpre" 0 < fee then ((.finish (.ncharge aname fee), conn), cd)
          else (goOnAfter out (.confirm fee aid) remark conn, cd)
      | .addaccount =>
        match bankCmdInfo out q cd with
        | (.error err, cd) => ((.finish err, conn), cd)
        | (.ok hdfsnd, cd) =>
          if hdfGetIntValue hdfsnd "msum" 0 < fee then
            -- finished here, and again at the label
            ((.finish (.needupBelow aname (hdfGetIntValue hdfsnd "mpre" 0) fee), (mdbFinish out conn).2), cd)
          else (goOnAfter out (.charge fee aid) remark conn, cd)
      | .rollback =>
        match bankCmdInfo out q cd with
        | (.error err, cd) => ((.finish err, conn), cd)
        | (.ok _, cd) => (goOnAfter out (.charge fee aid) remark conn, cd)

/-- What the label `finish` does: the first error counts. -/
def atFinish (aid : ℤ) (err : Option BankErr) (conn : Conn) (cd : BankCache) : (Option BankErr × Conn) × BankCache :=
  let finished := mdbFinish out conn
  ((err.or finished.1, finished.2), drop cd aid)

def bankCmdAddbill (q : BankRequested) (conn : Conn) (cd : BankCache) : (Option BankErr × Conn) × BankCache :=
  match reqGetParamStr q.hdfrcv "aname", reqGetParamNumber q.hdfrcv "btype", reqGetParamNumber q.hdfrcv "fee" with
  | .error err, _, _ | .ok _, .error err, _ | .ok _, .ok _, .error err => ((some err, conn), cd)
  | .ok aname, .ok type, .ok fee =>
    let aid := hashString aname
    match mdbBegin out conn with
    | (some err, conn) => ((some err, conn), cd)
    | (none, conn) =>
      match bankSwitch out q aname aid fee (bankOp type) conn cd with
      | ((.leave err, conn), cd) => ((some err, conn), cd)
      | ((.finish err, conn), cd) => atFinish out aid (some err) conn cd
      | ((.goOn remark, conn), cd) =>
        match mdbExecTs out (.insertBill aid aname type fee remark) conn with
        | (some err, conn) => ((some err, conn), cd)
        | (none, conn) => atFinish out aid none conn cd

end Calls

def Conn.opened (conn : Conn) : ℤ :=
  conn.done.count .begin - (conn.done.count .commit + conn.done.count .rollback)

/-- A command leaves the flag as it was, and ends as many transactions as it begins. -/
def Balanced (conn conn' : Conn) : Prop := conn'.inTransaction = conn.inTransaction ∧ conn'.opened = conn.opened

def Inside (conn conn' : Conn) : Prop := conn'.inTransaction = true ∧ conn'.opened = conn.opened + 1
def Behind (conn conn' : Conn) : Prop := conn'.inTransaction = false ∧ conn'.opened = conn.opened

def Asked (q : BankRequested) : Prop :=
  nonempty q.hdfrcv "aname" ≠ none ∧ hdfGetValue q.hdfrcv "btype" ≠ none ∧ hdfGetValue q.hdfrcv "fee" ≠ none

def OwnParam (q : BankRequested) : Prop :=
  ∀ op, bankOp (hdfGetIntValue q.hdfrcv "btype" 0) = some op → nonempty q.hdfrcv op.param ≠ none

theorem Inside.not_balanced {conn conn' : Conn} (h : Inside conn conn') : ¬ Balanced conn conn' := by
  intro hb
  have hopened := h.2.symm.trans hb.2
  omega

theorem Behind.balanced_iff {conn conn' : Conn} (h : Behind conn conn') :
    Balanced conn conn' ↔ conn.inTransaction = false := by
  rw [Balanced, h.1, h.2]
  exact ⟨fun hb => hb.1.symm, fun hflag => ⟨hflag.symm, rfl⟩⟩

def DbCall.weight : DbCall → ℤ
  | .begin => 1
  | .commit | .rollback => -1
  | .exec _ => 0

theorem opened_append (conn : Conn) (flag : Bool) (call : DbCall) :
    (Conn.mk flag (conn.done ++ [call])).opened = conn.opened + call.weight := by
  unfold Conn.opened DbCall.weight
  rw [List.count_append, List.count_append, List.count_append]
  cases call
  all_goals simp
  all_goals omega

section Calls
variable {out : Outcomes} {conn conn' : Conn}

theorem mdbBegin_inside (h : out.begin = none) : ∃ conn', mdbBegin out conn = (none, conn') ∧ Inside conn conn' := by
  refine ⟨⟨true, conn.done ++ [.begin]⟩, ?_, rfl, opened_append conn true .begin⟩
  unfold mdbBegin
  rw [h]

section Succeeding
variable (hcommit : out.commit = none) (hrollback : out.rollback = none)
include hrollback

theorem mdbRollback_behind (h : Inside conn conn') : Behind conn (mdbRollback out conn').2 := by
  unfold mdbRollback
  rw [hrollback]
  refine ⟨rfl, ?_⟩
  rw [opened_append, h.2, DbCall.weight]
  omega

theorem mdbExecTs_spec (h : Inside conn conn') (statement : BankStatement) :
    ((∃ err, (mdbExecTs out statement conn').1 = some err) ∧ Behind conn (mdbExecTs out statement conn').2) ∨
      (mdbExecTs out statement conn').1 = none ∧ Inside conn (mdbExecTs out statement conn').2 := by
  unfold mdbExecTs
  cases out.exec statement with
  | some err => exact .inl ⟨⟨err, rfl⟩, mdbRollback_behind hrollback h⟩
  | none =>
    refine .inr ⟨rfl, h.1, ?_⟩
    rw [opened_append, h.2, DbCall.weight]
    omega

omit hrollback
include hcommit

theorem mdbFinish_behind (h : Inside conn conn' ∨ Behind conn conn') : Behind conn (mdbFinish out conn').2 := by
  unfold mdbFinish
  rcases h with h | h
  · unfold mdbCommit
    rw [if_pos h.1, hcommit]
    refine ⟨rfl, ?_⟩
    rw [opened_append, h.2, DbCall.weight]
    omega
  · rw [if_neg (by rw [h.1]; exact Bool.false_ne_true)]
    exact h

theorem atFinish_behind (h : Inside conn conn' ∨ Behind conn conn') (aid : ℤ) (err : Option BankErr)
    (cd : BankCache) : Behind conn (atFinish out aid err conn' cd).1.2 := mdbFinish_behind hcommit h

end Succeeding
end Calls

/-- The transaction where the `switch` ends, `given` being whether its own parameter is there. -/
inductive Exit.At (given : Prop) (conn : Conn) : Exit × Conn → Prop
  | missing {err : BankErr} {conn' : Conn} (h : ¬ given) (hinside : Inside conn conn') :
      At given conn (.leave err, conn')
  | failed {err : BankErr} {conn' : Conn} (h : given) (hbehind : Behind conn conn') : At given conn (.leave err, conn')
  | finish {err : BankErr} {conn' : Conn} (h : given) (hends : Inside conn conn' ∨ Behind conn conn') :
      At given conn (.finish err, conn')
  | goOn {remark : Bytes} {conn' : Conn} (h : given) (hinside : Inside conn conn') : At given conn (.goOn remark, conn')

section Command
variable {out : Outcomes} {conn conn' : Conn} (hcommit : out.commit = none) (hrollback : out.rollback = none)

include hrollback in
theorem goOnAfter_at (h : Inside conn conn') {given : Prop} (hgiven : given) (statement : BankStatement)
    (remark : Bytes) : Exit.At given conn (goOnAfter out statement remark conn') := by
  have hexec := mdbExecTs_spec hrollback h statement
  unfold goOnAfter
  generalize mdbExecTs out statement conn' = r at hexec
  obtain ⟨err, after⟩ := r
  rcases hexec with ⟨⟨err, rfl⟩, hbehind⟩ | ⟨rfl, hinside⟩
  · exact .failed hgiven hbehind
  · exact .goOn hgiven hinside

include hcommit hrollback in
/-- The only exit that leaves the transaction open is the one for a missing parameter. -/
theorem bankSwitch_at (h : Inside conn conn') (q : BankRequested) (aname : Bytes) (aid fee : ℤ) (op : Option BankOp)
    (cd : BankCache) :
    Exit.At (∀ op', op = some op' → nonempty q.hdfrcv op'.param ≠ none) conn
      (bankSwitch out q aname aid fee op conn' cd).1 := by
  cases op with
  | none =>
    apply Exit.At.goOn _ h
    intro op' hop
    cases hop
  | some op =>
    unfold bankSwitch reqGetParamStr
    dsimp only
    cases hparam : nonempty q.hdfrcv op.param with
    | none => exact .missing (fun hgiven => hgiven op rfl hparam) h
    | some account =>
      have hgiven : ∀ op', some op = some op' → nonempty q.hdfrcv op'.param ≠ none := by
        intro op' hop
        cases hop
        rw [hparam]
        exact Option.some_ne_none account
      cases op with
      | precharge => exact goOnAfter_at hrollback h hgiven _ _
      | cfmcharge =>
        simp only
        split
        · exact .finish hgiven (.inl h)
        · split
          · exact .finish hgiven (.inl h)
          · exact goOnAfter_at hrollback h hgiven _ _
      | addaccount =>
        simp only
        split
        · exact .finish hgiven (.inl h)
        · split
          · exact .finish hgiven (.inr (mdbFinish_behind hcommit (.inl h)))
          · exact goOnAfter_at hrollback h hgiven _ _
      | rollback =>
        simp only
        split
        · exact .finish hgiven (.inl h)
        · exact goOnAfter_at hrollback h hgiven _ _

theorem reqGetParamStr_eq (hdf : Dataset) (key : String) :
    reqGetParamStr hdf key = match nonempty hdf key with
      | some v => .ok v
      | none => .error (.badparam key) := rfl

theorem reqGetParamNumber_eq (hdf : Dataset) (key : String) :
    reqGetParamNumber hdf key = match hdfGetValue hdf key with
      | some _ => .ok (hdfGetIntValue hdf key 0)
      | none => .error (.badparam key) := by
  unfold reqGetParamNumber reqGetParamInt
  cases hdfGetValue hdf key <;> rfl

/-- A command that lacks one of the first three parameters does nothing. -/
theorem bankCmdAddbill_of_not_asked {q : BankRequested} (h : ¬ Asked q) (conn : Conn) (cd : BankCache) :
    ∃ err, bankCmdAddbill out q conn cd = ((some err, conn), cd) := by
  unfold bankCmdAddbill
  rw [reqGetParamStr_eq, reqGetParamNumber_eq, reqGetParamNumber_eq]
  cases haname : nonempty q.hdfrcv "aname" with
  | none => exact ⟨_, rfl⟩
  | some aname =>
    cases hbtype : hdfGetValue q.hdfrcv "btype" with
    | none => exact ⟨_, rfl⟩
    | some btype =>
      cases hfee : hdfGetValue q.hdfrcv "fee" with
      | none => exact ⟨_, rfl⟩
      | some fee =>
        refine (h ⟨?_, ?_, ?_⟩).elim
        · rw [haname]
          exact Option.some_ne_none aname
        · rw [hbtype]
          exact Option.some_ne_none btype
        · rw [hfee]
          exact Option.some_ne_none fee

theorem bankCmdAddbill_of_begin {err : BankErr} (h : out.begin = some err) (q : BankRequested) (conn : Conn)
    (cd : BankCache) : (bankCmdAddbill out q conn cd).1.2 = conn := by
  unfold bankCmdAddbill mdbBegin
  rw [h]
  split <;> rfl

include hcommit hrollback in
theorem bankCmdAddbill_of_asked {q : BankRequested} (h : Asked q) (hbegin : out.begin = none) (conn : Conn)
    (cd : BankCache) :
    (¬ OwnParam q ∧ Inside conn (bankCmdAddbill out q conn cd).1.2) ∨
      (OwnParam q ∧ Behind conn (bankCmdAddbill out q conn cd).1.2) := by
  obtain ⟨aname, haname⟩ := Option.ne_none_iff_exists'.mp h.1
  obtain ⟨btype, hbtype⟩ := Option.ne_none_iff_exists'.mp h.2.1
  obtain ⟨fee, hfee⟩ := Option.ne_none_iff_exists'.mp h.2.2
  obtain ⟨conn', hconn', hinside⟩ : ∃ conn', mdbBegin out conn = (none, conn') ∧ Inside conn conn' :=
    mdbBegin_inside hbegin
  unfold bankCmdAddbill
  simp only [reqGetParamStr_eq, reqGetParamNumber_eq, haname, hbtype, hfee, hconn']
  have hswitch := bankSwitch_at hcommit hrollback hinside q aname (hashString aname) (hdfGetIntValue q.hdfrcv "fee" 0)
    (bankOp (hdfGetIntValue q.hdfrcv "btype" 0)) cd
  change Exit.At (OwnParam q) conn _ at hswitch
  generalize bankSwitch out q aname (hashString aname) (hdfGetIntValue q.hdfrcv "fee" 0)
    (bankOp (hdfGetIntValue q.hdfrcv "btype" 0)) conn' cd = r at hswitch
  obtain ⟨⟨exit, left⟩, cd'⟩ := r
  cases hswitch with
  | missing hnot hin => exact .inl ⟨hnot, hin⟩
  | failed hgiven hbehind => exact .inr ⟨hgiven, hbehind⟩
  | finish hgiven hends => exact .inr ⟨hgiven, mdbFinish_behind hcommit hends⟩
  | @goOn remark _ hgiven hin =>
    have hexec := mdbExecTs_spec hrollback hin
      (.insertBill (hashString aname) aname (hdfGetIntValue q.hdfrcv "btype" 0) (hdfGetIntValue q.hdfrcv "fee" 0) remark)
    refine .inr ⟨hgiven, ?_⟩
    simp only
    generalize mdbExecTs out _ left = r at hexec
    obtain ⟨err, after⟩ := r
    rcases hexec with ⟨⟨err, rfl⟩, hbehind⟩ | ⟨rfl, hin'⟩
    · exact hbehind
    · exact atFinish_behind hcommit (.inl hin') _ _ _

end Command

/-- `BEGIN` is not reached or fails, or it comes outside of any transaction and the operation's own parameter is there. -/
def EndsItsOwn (out : Outcomes) (q : BankRequested) (conn : Conn) : Prop :=
  ¬ Asked q ∨ out.begin ≠ none ∨ conn.inTransaction = false ∧ OwnParam q

/-- A command leaves no transaction behind exactly when it does not begin one, or is given what its operation asks for. -/
theorem addbill_balanced_iff (out : Outcomes) (hcommit : out.commit = none) (hrollback : out.rollback = none)
    (q : BankRequested) (conn : Conn) (cd : BankCache) :
    Balanced conn (bankCmdAddbill out q conn cd).1.2 ↔ EndsItsOwn out q conn := by
  unfold EndsItsOwn
  by_cases hasked : Asked q
  · cases hbegin : out.begin with
    | some err =>
      rw [bankCmdAddbill_of_begin hbegin]
      exact ⟨fun _ => .inr (.inl (Option.some_ne_none err)), fun _ => ⟨rfl, rfl⟩⟩
    | none =>
      have hends : (¬ Asked q ∨ (none : Option BankErr) ≠ none ∨ conn.inTransaction = false ∧ OwnParam q) ↔
          conn.inTransaction = false ∧ OwnParam q := by
        constructor
        · rintro (h | h | h)
          · exact (h hasked).elim
          · exact (h rfl).elim
          · exact h
        · exact fun h => .inr (.inr h)
      rw [hends]
      rcases bankCmdAddbill_of_asked hcommit hrollback hasked hbegin conn cd with ⟨hown, hin⟩ | ⟨hown, hbehind⟩
      · exact ⟨fun hb => (hin.not_balanced hb).elim, fun h => (hown h.2).elim⟩
      · rw [hbehind.balanced_iff]
        exact ⟨fun h => ⟨h, hown⟩, And.left⟩
  · obtain ⟨err, hend⟩ : ∃ err, bankCmdAddbill out q conn cd = ((some err, conn), cd) :=
      bankCmdAddbill_of_not_asked hasked conn cd
    rw [hend]
    exact ⟨fun _ => .inl hasked, fun _ => ⟨rfl, rfl⟩⟩

def fine : Outcomes := ⟨none, none, none, fun _ => none, .ok (some [("msum", some (printInt 100)), ("mpre", none)])⟩

/-- `btype` is `ADDACCOUNT`, and there is no `account`. -/
def withoutAccount : BankRequested := ⟨[("aname", some [97]), ("btype", some [50]), ("fee", some [53])], [], true, []⟩

theorem not_balanced_withoutAccount :
    ¬ Balanced ⟨false, []⟩ (bankCmdAddbill fine withoutAccount ⟨false, []⟩ fun _ => none).1.2 := by
  intro h
  exact absurd h.1 (by decide)

def withAccount : BankRequested :=
  ⟨[("aname", some [97]), ("btype", some [50]), ("fee", some [53]), ("account", some [98])], [], true, []⟩

theorem withAccount_balanced :
    Balanced ⟨false, []⟩ (bankCmdAddbill fine withAccount ⟨false, []⟩ fun _ => none).1.2 ↔
      EndsItsOwn fine withAccount ⟨false, []⟩ :=
  addbill_balanced_iff fine rfl rfl withAccount ⟨false, []⟩ fun _ => none

end Cmoon.BankTransactions
