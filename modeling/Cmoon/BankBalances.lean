import Cmoon.BankTransactions
import Cmoon.GuardedRuns
import Cmoon.StatementTexts

/-! # Balances of the bank plugin

The table `bank` through a run of bills. A statement fails where a number leaves the range of its column, and every
other call of the database succeeds. -/
namespace Cmoon.BankBalances
open DecimalText Datasets LapsingCaches BankTransactions GuardedRuns
open StatementTexts (ascii)

structure Account where
  aname : Bytes
  msum : ℤ
  mpre : ℤ
  deriving DecidableEq

abbrev BankTable := ℤ → Option Account

/-- The columns of `BANKINFO_COL`, but for the dates. -/
def bankinfoRow (aid : ℤ) (a : Account) : Dataset :=
  [("aid", some (printInt aid)), ("aname", some a.aname), ("msum", some (printInt a.msum)),
    ("mpre", some (printInt a.mpre))]

/-- What a column of type `int` can hold. -/
def InInt (x : ℤ) : Prop := -2 ^ 31 ≤ x ∧ x < 2 ^ 31

instance (x : ℤ) : Decidable (InInt x) := inferInstanceAs (Decidable (_ ∧ _))

def BankStatement.aid : BankStatement → ℤ
  | .mergeBankPre _ aid _ | .confirm _ aid | .charge _ aid | .insertBill aid _ _ _ _ => aid

/-- A statement as it goes to the server; those with a `$` have their values beside them. -/
def BankStatement.text : BankStatement → Bytes
  | .mergeBankPre _ _ _ => ascii "SELECT merge_bank_pre($1::varchar(256), $2, $3)"
  | .confirm fee aid =>
    ascii "UPDATE bank SET mpre = mpre" ++ 45 :: (printInt fee ++ (ascii ", msum = msum+" ++ (printInt fee ++
      (ascii " WHERE  aid=" ++ (printInt aid ++ ascii ";")))))
  | .charge fee aid =>
    ascii "UPDATE bank SET msum = msum" ++ 45 :: (printInt fee ++ (ascii " WHERE aid=" ++ (printInt aid ++ ascii ";")))
  | .insertBill _ _ _ _ _ =>
    ascii "INSERT INTO bill (aid, aname, btype, fee, remark)  VALUES ($1, $2::varchar(256), $3, $4, $5::varchar(256))"

/-- What the server reads of a text of one line without quotes: two hyphens begin a comment. -/
def uncommented : Bytes → Bytes
  | [] => []
  | [b] => [b]
  | b :: b' :: r => if b = 45 ∧ b' = 45 then [] else b :: uncommented (b' :: r)

/-- The minus of a negative fee makes a comment of all that follows: every row has its column set to what it is. -/
def BankStatement.cut (statement : BankStatement) : Prop := uncommented (text statement) ≠ text statement

instance (statement : BankStatement) : Decidable (BankStatement.cut statement) := inferInstanceAs (Decidable (_ ≠ _))

def BankStatement.onRow (row : Option Account) (statement : BankStatement) : Option Account :=
  if cut statement then row
  else
    match statement with
    | .mergeBankPre aname _ fee =>
      match row with
      | some a => some { a with mpre := a.mpre + fee }
      | none => some ⟨aname, 0, fee⟩
    | .confirm fee _ => row.map fun a => { a with mpre := a.mpre - fee, msum := a.msum + fee }
    | .charge fee _ => row.map fun a => { a with msum := a.msum - fee }
    | .insertBill _ _ _ _ _ => row

def BankStatement.change (t : BankTable) (statement : BankStatement) : BankTable :=
  Function.update t (aid statement) (onRow (t (aid statement)) statement)

def BankStatement.fits (t : BankTable) : BankStatement → Bool
  | .insertBill _ _ _ _ _ => true
  | statement => (onRow (t (aid statement)) statement).all fun a => InInt a.msum ∧ InInt a.mpre

/-- The table as it was last committed, and as the connection sees it, the connection and the cache. -/
structure Bank where
  committed : BankTable
  seen : BankTable
  conn : Conn
  cd : BankCache

def replay (ts : BankTable × BankTable) : DbCall → BankTable × BankTable
  | .begin => ts
  | .commit => (ts.2, ts.2)
  | .rollback => (ts.1, ts.1)
  | .exec statement => (ts.1, BankStatement.change ts.2 statement)

def outcomes (t : BankTable) (aid : ℤ) : Outcomes where
  begin := none
  commit := none
  rollback := none
  exec statement := if BankStatement.fits t statement then none else some .db
  row := .ok ((t aid).map (bankinfoRow aid))

/-- A request, and the cached accounts that are gone when it comes. -/
structure Billing where
  q : BankRequested
  gone : ℤ → Bool

def addbill (s : Bank) (b : Billing) : Bank :=
  let aid := hashString ((nonempty b.q.hdfrcv "aname").getD [])
  let r := bankCmdAddbill (outcomes s.seen aid) b.q s.conn (lapse s.cd b.gone)
  let tables := (r.1.2.done.drop s.conn.done.length).foldl replay (s.committed, s.seen)
  ⟨tables.1, tables.2, r.1.2, r.2⟩

def NonNegative (t : BankTable) : Prop := ∀ aid a, t aid = some a → 0 ≤ a.msum ∧ 0 ≤ a.mpre

def Solvent (s : Bank) : Prop := NonNegative s.committed ∧ NonNegative s.seen

/-- The worker starts with nothing cached, and with nothing in any account. -/
def Opening (s : Bank) : Prop :=
  s.committed = s.seen ∧ (∀ aid a, s.seen aid = some a → a.msum = 0 ∧ a.mpre = 0) ∧ s.cd = fun _ => none

/-- What the operations leave unchecked, `row` being the one of the account. -/
def BankOp.Covers (row : Option Account) (fee : ℤ) : BankOp → Prop
  | .precharge => 0 ≤ (row.elim 0 Account.mpre) + fee
  | .cfmcharge | .addaccount => True
  | .rollback => ∀ a, row = some a → fee ≤ a.msum

def Covered (s : Bank) (b : Billing) : Prop :=
  ∀ aname op account, nonempty b.q.hdfrcv "aname" = some aname →
    bankOp (hdfGetIntValue b.q.hdfrcv "btype" 0) = some op → nonempty b.q.hdfrcv op.param = some account →
      BankOp.Covers (s.seen (hashString aname)) (hdfGetIntValue b.q.hdfrcv "fee" 0) op

/-- The rows are such as a table can hold, and no balance is negative. -/
def Sound (t : BankTable) : Prop :=
  ∀ aid a, t aid = some a → (0 ≤ a.msum ∧ 0 ≤ a.mpre) ∧ InInt a.msum ∧ InInt a.mpre

def Fresh (t : BankTable) (aid : ℤ) (d : Dataset) : Prop :=
  ∃ a, t aid = some a ∧ hdfGetValue d "msum" = some (printInt a.msum) ∧ hdfGetValue d "mpre" = some (printInt a.mpre)

def Settled (s : Bank) : Prop := s.committed = s.seen ∧ Sound s.seen ∧ Backed (Fresh s.seen) s.cd

variable {t : BankTable} {aid fee : ℤ} {cd : BankCache} {q : BankRequested} {aname : Bytes}

theorem uncommented_append {front : Bytes} (hfront : 45 ∉ front) (r : Bytes) :
    uncommented (front ++ r) = front ++ uncommented r := by
  induction front with
  | nil => rfl
  | cons b front ih =>
    rw [List.mem_cons, not_or] at hfront
    obtain ⟨hb, hfront⟩ := hfront
    have hrest := ih hfront
    rw [List.cons_append]
    cases hr : front ++ r with
    | nil =>
      rw [hr] at hrest
      rw [uncommented, List.cons_append, ← hrest]
      rfl
    | cons b' r' =>
      rw [uncommented, if_neg fun h => hb h.1.symm, ← hr, hrest, List.cons_append]

theorem uncommented_hyphen {front : Bytes} (hne : front ≠ []) (hfront : 45 ∉ front) (r : Bytes) :
    uncommented (45 :: (front ++ r)) = 45 :: (front ++ uncommented r) := by
  rw [← uncommented_append hfront]
  obtain ⟨b, front, rfl⟩ := List.exists_cons_of_ne_nil hne
  have hb : ¬ ((45 : UInt8) = 45 ∧ b = 45) := by
    rintro ⟨-, rfl⟩
    exact hfront List.mem_cons_self
  rw [List.cons_append, uncommented, if_neg hb]

theorem hyphen_notMem_printNat (n : ℕ) : 45 ∉ printNat n := notMem_printNat (by decide) n

theorem uncommented_printInt (x : ℤ) (r : Bytes) : uncommented (printInt x ++ r) = printInt x ++ uncommented r := by
  unfold printInt
  split
  · exact uncommented_hyphen (printNat_ne_nil _) (hyphen_notMem_printNat _) r
  · exact uncommented_append (hyphen_notMem_printNat _) r

/-- Of an update that takes a negative number off a column, the server reads that the column is set to itself. -/
theorem uncommented_update {front rest : Bytes} (hfront : 45 ∉ front) (hrest : uncommented rest = rest) (x : ℤ) :
    uncommented (front ++ 45 :: (printInt x ++ rest)) =
      if x < 0 then front else front ++ 45 :: (printInt x ++ rest) := by
  rw [uncommented_append hfront]
  unfold printInt
  by_cases hneg : x < 0
  · rw [if_pos hneg, if_pos hneg, List.cons_append, uncommented, if_pos ⟨rfl, rfl⟩, List.append_nil]
  · rw [if_neg hneg, if_neg hneg, uncommented_hyphen (printNat_ne_nil _) (hyphen_notMem_printNat _), hrest]

theorem uncommented_update_ne_iff {front rest : Bytes} (hfront : 45 ∉ front) (hrest : uncommented rest = rest) (x : ℤ) :
    uncommented (front ++ 45 :: (printInt x ++ rest)) ≠ front ++ 45 :: (printInt x ++ rest) ↔ x < 0 := by
  rw [uncommented_update hfront hrest]
  by_cases hneg : x < 0
  · rw [if_pos hneg]
    refine iff_of_true (fun h => ?_) hneg
    have hnil : 45 :: (printInt x ++ rest) = [] := List.self_eq_append_right.mp h
    cases hnil
  · rw [if_neg hneg]
    exact iff_of_false (fun h => h rfl) hneg

theorem cut_charge_iff (fee aid : ℤ) : BankStatement.cut (.charge fee aid) ↔ fee < 0 := by
  apply uncommented_update_ne_iff
  · decide
  · rw [uncommented_append (by decide), uncommented_printInt]
    rfl

theorem cut_confirm_iff (fee aid : ℤ) : BankStatement.cut (.confirm fee aid) ↔ fee < 0 := by
  apply uncommented_update_ne_iff
  · decide
  · rw [uncommented_append (by decide), uncommented_printInt, uncommented_append (by decide), uncommented_printInt]
    rfl

theorem uncommented_of_notMem {s : Bytes} (h : 45 ∉ s) : uncommented s = s := by
  have happend := uncommented_append h []
  rwa [uncommented, List.append_nil] at happend

section Rows
variable (row : Option Account) (aid fee : ℤ)

theorem onRow_mergeBankPre (aname : Bytes) : BankStatement.onRow row (.mergeBankPre aname aid fee) =
    some (row.elim ⟨aname, 0, fee⟩ fun a => { a with mpre := a.mpre + fee }) := by
  have hwhole : ¬ BankStatement.cut (.mergeBankPre aname aid fee) :=
    not_not_intro (@uncommented_of_notMem (ascii "SELECT merge_bank_pre($1::varchar(256), $2, $3)") (by decide))
  unfold BankStatement.onRow
  rw [if_neg hwhole]
  cases row with
  | none => rfl
  | some a => rfl

theorem onRow_confirm : BankStatement.onRow row (.confirm fee aid) =
    if fee < 0 then row else row.map fun a => { a with mpre := a.mpre - fee, msum := a.msum + fee } := by
  simp only [BankStatement.onRow, cut_confirm_iff]

theorem onRow_charge : BankStatement.onRow row (.charge fee aid) =
    if fee < 0 then row else row.map fun a => { a with msum := a.msum - fee } := by
  simp only [BankStatement.onRow, cut_charge_iff]

end Rows

theorem wrap_clamp {x : ℤ} (h : InInt x) : wrap 32 (clamp 64 x) = x := by
  obtain ⟨hlow, hhigh⟩ := h
  have hclamp : clamp 64 x = x := by
    unfold clamp
    omega
  rw [hclamp, wrap]
  apply Int.bmod_eq_of_le
  · omega
  · omega

theorem hdfGetIntValue_of_print {d : Dataset} {name : String} {x : ℤ} (hd : hdfGetValue d name = some (printInt x))
    (h : InInt x) (default : ℤ) : hdfGetIntValue d name default = x := by
  rw [hdfGetIntValue, hd, Option.bind_some, readInt_printInt]
  exact wrap_clamp h

theorem hdfGetValue_copy_of_some {d d' : Dataset} {name : String} {v : Bytes} (h : hdfGetValue d' name = some v) :
    hdfGetValue (hdfCopy d d') name = some v := by
  rw [hdfGetValue_copy]
  cases hobj : hdfGetObj d' name with
  | none =>
    rw [hdfGetValue, hobj] at h
    cases h
  | some value => exact h

theorem Fresh.copy {v : Dataset} (h : Fresh t aid v) (d : Dataset) : Fresh t aid (hdfCopy d v) := by
  obtain ⟨a, ha, hsum, hpre⟩ := h
  exact ⟨a, ha, hdfGetValue_copy_of_some hsum, hdfGetValue_copy_of_some hpre⟩

/-- What is asked about an account, there is one in the table with the same balances; and the cache has them still. -/
def Answers (t : BankTable) (aid : ℤ) (r : Except BankErr Dataset × BankCache) : Prop :=
  (∀ d, r.1 = .ok d → ∃ a, t aid = some a ∧ hdfGetIntValue d "msum" 0 = a.msum ∧ hdfGetIntValue d "mpre" 0 = a.mpre) ∧
    Backed (Fresh t) r.2

theorem Fresh.balances {d : Dataset} (h : Fresh t aid d) (ht : Sound t) :
    ∃ a, t aid = some a ∧ hdfGetIntValue d "msum" 0 = a.msum ∧ hdfGetIntValue d "mpre" 0 = a.mpre := by
  obtain ⟨a, ha, hsum, hpre⟩ := h
  obtain ⟨-, hsumIn, hpreIn⟩ := ht aid a ha
  exact ⟨a, ha, hdfGetIntValue_of_print hsum hsumIn 0, hdfGetIntValue_of_print hpre hpreIn 0⟩

theorem answers_error (hcd : Backed (Fresh t) cd) (err : BankErr) : Answers t aid (.error err, cd) := by
  refine ⟨?_, hcd⟩
  intro d hd
  cases hd

theorem answers_ok (ht : Sound t) (hcd : Backed (Fresh t) cd) {d : Dataset} (hd : Fresh t aid d) :
    Answers t aid (.ok d, cd) := by
  refine ⟨?_, hcd⟩
  intro d' hd'
  cases hd'
  exact hd.balances ht

theorem bankCmdInfo_answers (ht : Sound t) (hcd : Backed (Fresh t) cd)
    (haname : nonempty q.hdfrcv "aname" = some aname) :
    Answers t (hashString aname) (bankCmdInfo (outcomes t (hashString aname)) q cd) := by
  unfold bankCmdInfo outcomes
  rw [reqGetParamStr_eq, haname]
  dsimp only
  cases hval : cd (hashString aname) with
  | some val => exact answers_ok ht hcd ((hcd _ val hval).copy q.hdfsnd)
  | none =>
    cases hrow : t (hashString aname) with
    | none => exact answers_error hcd _
    | some a =>
      have hfresh : Fresh t (hashString aname) (hdfCopy q.hdfsnd (bankinfoRow (hashString aname) a)) :=
        Fresh.copy ⟨a, hrow, rfl, rfl⟩ q.hdfsnd
      cases hcalloc : q.calloc with
      | true => exact answers_ok ht (hcd.put hfresh) hfresh
      | false => exact answers_error hcd _

/-- A statement after which the table is sound, and which no other account sees. -/
def Keeps (t : BankTable) (aid : ℤ) (statement : BankStatement) : Prop :=
  Sound (BankStatement.change t statement) ∧ BankStatement.aid statement = aid

/-- What has been called where the `switch` ends. -/
inductive Exit.Did (t : BankTable) (aid : ℤ) (conn : Conn) : Exit × Conn → Prop
  | left {err : BankErr} : Did t aid conn (.leave err, conn)
  | rolledBack {err : BankErr} : Did t aid conn (.leave err, ⟨false, conn.done ++ [.rollback]⟩)
  | finish {err : BankErr} : Did t aid conn (.finish err, conn)
  | finished {err : BankErr} : Did t aid conn (.finish err, ⟨false, conn.done ++ [.commit]⟩)
  | goOn {remark : Bytes} : Did t aid conn (.goOn remark, conn)
  | paid {remark : Bytes} {statement : BankStatement} (h : Keeps t aid statement) :
      Did t aid conn (.goOn remark, { conn with done := conn.done ++ [.exec statement] })

/-- A statement which fits keeps the table sound when the balances do not go below zero. -/
theorem keeps_of_fits (ht : Sound t) {statement : BankStatement} (haid : BankStatement.aid statement = aid)
    (hfits : (BankStatement.onRow (t aid) statement).all (fun a => InInt a.msum ∧ InInt a.mpre) = true)
    (hrow : ∀ a, BankStatement.onRow (t aid) statement = some a → 0 ≤ a.msum ∧ 0 ≤ a.mpre) : Keeps t aid statement := by
  refine ⟨?_, haid⟩
  intro aid' a ha
  unfold BankStatement.change at ha
  rw [haid] at ha
  by_cases heq : aid' = aid
  · subst heq
    rw [Function.update_self] at ha
    rw [ha] at hfits
    exact ⟨hrow a ha, of_decide_eq_true hfits⟩
  · rw [Function.update_of_ne heq] at ha
    exact ht aid' a ha

theorem goOnAfter_did (ht : Sound t) (statement : BankStatement) (haid : BankStatement.aid statement = aid)
    (hbank : BankStatement.fits t statement =
      (BankStatement.onRow (t aid) statement).all fun a => InInt a.msum ∧ InInt a.mpre)
    (hrow : ∀ a, BankStatement.onRow (t aid) statement = some a → 0 ≤ a.msum ∧ 0 ≤ a.mpre)
    (remark : Bytes) (conn : Conn) : Exit.Did t aid conn (goOnAfter (outcomes t aid) statement remark conn) := by
  unfold goOnAfter mdbExecTs mdbRollback outcomes
  dsimp only
  cases hfits : BankStatement.fits t statement with
  | true => exact .paid (keeps_of_fits ht haid (hbank.symm.trans hfits) hrow)
  | false => exact .rolledBack

theorem precharge_nonneg (ht : Sound t) (h : BankOp.Covers (t aid) fee .precharge) :
    ∀ a, BankStatement.onRow (t aid) (.mergeBankPre aname aid fee) = some a → 0 ≤ a.msum ∧ 0 ≤ a.mpre := by
  intro a ha
  rw [onRow_mergeBankPre] at ha
  unfold BankOp.Covers at h
  cases hrow : t aid with
  | none =>
    rw [hrow] at ha h
    cases ha
    exact ⟨le_rfl, (zero_add fee).symm ▸ h⟩
  | some a' =>
    rw [hrow] at ha h
    cases ha
    exact ⟨(ht aid a' hrow).1.1, h⟩

theorem confirm_nonneg (ht : Sound t) {a : Account} (ha : t aid = some a) (hpre : fee ≤ a.mpre) :
    ∀ a', BankStatement.onRow (t aid) (.confirm fee aid) = some a' → 0 ≤ a'.msum ∧ 0 ≤ a'.mpre := by
  intro a' ha'
  have hnow := (ht aid a ha).1
  rw [onRow_confirm, ha] at ha'
  split at ha'
  · cases ha'
    exact hnow
  next hfee =>
    cases ha'
    exact ⟨add_nonneg hnow.1 (not_lt.mp hfee), sub_nonneg.mpr hpre⟩

theorem charge_nonneg (ht : Sound t) {a : Account} (ha : t aid = some a) (hsum : fee ≤ a.msum) :
    ∀ a', BankStatement.onRow (t aid) (.charge fee aid) = some a' → 0 ≤ a'.msum ∧ 0 ≤ a'.mpre := by
  intro a' ha'
  have hnow := (ht aid a ha).1
  rw [onRow_charge, ha] at ha'
  split at ha'
  · cases ha'
    exact hnow
  · cases ha'
    exact ⟨sub_nonneg.mpr hsum, hnow.2⟩

theorem mdbFinish_open {conn : Conn} (hopen : conn.inTransaction = true) :
    mdbFinish (outcomes t aid) conn = (none, ⟨false, conn.done ++ [.commit]⟩) := by
  unfold mdbFinish
  rw [if_pos hopen]
  rfl

def Came (t : BankTable) (aid : ℤ) (conn : Conn) (r : (Exit × Conn) × BankCache) : Prop :=
  Exit.Did t aid conn r.1 ∧ Backed (Fresh t) r.2

/-- An operation that asks for the account first: it goes to `finish` when it is not told. -/
theorem came_of_answers {conn : Conn} {r : Except BankErr Dataset × BankCache}
    {f : Dataset → BankCache → (Exit × Conn) × BankCache}
    (hf : ∀ d a cd, t aid = some a → hdfGetIntValue d "msum" 0 = a.msum → hdfGetIntValue d "mpre" 0 = a.mpre →
      Backed (Fresh t) cd → Came t aid conn (f d cd)) :
    Answers t aid r → Came t aid conn (match r with
      | (.error err, cd) => ((.finish err, conn), cd)
      | (.ok d, cd) => f d cd) := by
  intro hinfo
  obtain ⟨answer, cd'⟩ := r
  obtain ⟨hanswer, hcd'⟩ := hinfo
  cases answer with
  | error err => exact ⟨.finish, hcd'⟩
  | ok d =>
    obtain ⟨a, ha, hsum, hpre⟩ := hanswer d rfl
    exact hf d a cd' ha hsum hpre hcd'

theorem bankSwitch_came (ht : Sound t) (hcd : Backed (Fresh t) cd) (haname : nonempty q.hdfrcv "aname" = some aname)
    {op : Option BankOp}
    (hcover : ∀ op' account, op = some op' → nonempty q.hdfrcv op'.param = some account →
      BankOp.Covers (t (hashString aname)) fee op')
    (conn : Conn) (hopen : conn.inTransaction = true) :
    Came t (hashString aname) conn
      (bankSwitch (outcomes t (hashString aname)) q aname (hashString aname) fee op conn cd) := by
  cases op with
  | none => exact ⟨.goOn, hcd⟩
  | some op =>
    unfold bankSwitch reqGetParamStr
    dsimp only
    cases hparam : nonempty q.hdfrcv op.param with
    | none => exact ⟨.left, hcd⟩
    | some account =>
      have hop := hcover op account rfl hparam
      have hinfo := bankCmdInfo_answers (q := q) ht hcd haname
      dsimp only
      cases op with
      | precharge =>
        exact ⟨goOnAfter_did ht (.mergeBankPre aname (hashString aname) fee) rfl rfl (precharge_nonneg ht hop) _ conn, hcd⟩
      | cfmcharge =>
        refine came_of_answers ?_ hinfo
        intro d a cd' ha hsum hpre hcd'
        rw [hpre]
        split
        · exact ⟨.finish, hcd'⟩
        next hguard =>
          have hfee : fee ≤ a.mpre := not_lt.mp hguard
          have hrow := confirm_nonneg ht ha hfee
          exact ⟨goOnAfter_did ht (.confirm fee (hashString aname)) rfl rfl hrow _ conn, hcd'⟩
      | addaccount =>
        refine came_of_answers ?_ hinfo
        intro d a cd' ha hsum hpre hcd'
        rw [hsum]
        split
        · rw [mdbFinish_open hopen]
          exact ⟨.finished, hcd'⟩
        next hguard =>
          have hrow := charge_nonneg ht ha (not_lt.mp hguard)
          exact ⟨goOnAfter_did ht (.charge fee (hashString aname)) rfl rfl hrow _ conn, hcd'⟩
      | rollback =>
        refine came_of_answers ?_ hinfo
        intro d a cd' ha hsum hpre hcd'
        have hrow := charge_nonneg ht ha (hop a ha)
        exact ⟨goOnAfter_did ht (.charge fee (hashString aname)) rfl rfl hrow _ conn, hcd'⟩

/-- The tables that the calls of a bill leave, `r` being how the bill ended. -/
def Leaves (t : BankTable) (conn : Conn) (r : (Option BankErr × Conn) × BankCache) : Prop :=
  ∃ calls t', r.1.2.done = conn.done ++ calls ∧ calls.foldl replay (t, t) = (t', t') ∧ Sound t' ∧
    Backed (Fresh t') r.2

theorem leaves_atFinish (calls : List DbCall) {t' : BankTable} (out : Outcomes) (hout : out.commit = none)
    (err : Option BankErr) {conn conn' : Conn} (hopen : conn'.inTransaction = true) (hdone : conn'.done = conn.done ++ calls)
    (hcalls : (calls.foldl replay (t, t)).2 = t') (ht' : Sound t')
    (hcd : ∀ aid' d, aid' ≠ aid → cd aid' = some d → Fresh t' aid' d) :
    Leaves t conn (atFinish out aid err conn' cd) := by
  refine ⟨calls ++ [.commit], t', ?_, ?_, ht', Backed.drop hcd⟩
  · unfold atFinish mdbFinish mdbCommit
    rw [if_pos hopen, hout]
    change conn'.done ++ [.commit] = conn.done ++ (calls ++ [.commit])
    rw [hdone, List.append_assoc]
  · rw [List.foldl_append, List.foldl_cons, List.foldl_nil, replay, hcalls]

theorem insertBill_change (t : BankTable) (aid : ℤ) (aname : Bytes) (type fee : ℤ) (remark : Bytes) :
    BankStatement.change t (.insertBill aid aname type fee remark) = t := Function.update_eq_self aid t

theorem fresh_change_of_ne {statement : BankStatement} {aid' : ℤ} (hne : aid' ≠ BankStatement.aid statement)
    {d : Dataset} (h : Fresh t aid' d) : Fresh (BankStatement.change t statement) aid' d := by
  obtain ⟨a, ha, hd⟩ := h
  refine ⟨a, ?_, hd⟩
  rw [BankStatement.change, Function.update_of_ne hne]
  exact ha

theorem bankCmdAddbill_asked {btype fee : Bytes} (haname : nonempty q.hdfrcv "aname" = some aname)
    (hbtype : hdfGetValue q.hdfrcv "btype" = some btype) (hfee : hdfGetValue q.hdfrcv "fee" = some fee) (conn : Conn) :
    bankCmdAddbill (outcomes t aid) q conn cd =
      match bankSwitch (outcomes t aid) q aname (hashString aname) (hdfGetIntValue q.hdfrcv "fee" 0)
        (bankOp (hdfGetIntValue q.hdfrcv "btype" 0)) ⟨true, conn.done ++ [.begin]⟩ cd with
      | ((.leave err, conn), cd) => ((some err, conn), cd)
      | ((.finish err, conn), cd) => atFinish (outcomes t aid) (hashString aname) (some err) conn cd
      | ((.goOn remark, conn), cd) =>
        atFinish (outcomes t aid) (hashString aname) none { conn with done := conn.done ++ [.exec (.insertBill
          (hashString aname) aname (hdfGetIntValue q.hdfrcv "btype" 0) (hdfGetIntValue q.hdfrcv "fee" 0) remark)] } cd := by
  unfold bankCmdAddbill
  rw [reqGetParamStr_eq, reqGetParamNumber_eq, reqGetParamNumber_eq, haname, hbtype, hfee]
  rfl

theorem bankCmdAddbill_leaves (ht : Sound t) (hcd : Backed (Fresh t) cd) (conn : Conn)
    (hcover : ∀ aname op account, nonempty q.hdfrcv "aname" = some aname →
      bankOp (hdfGetIntValue q.hdfrcv "btype" 0) = some op → nonempty q.hdfrcv op.param = some account →
        BankOp.Covers (t (hashString aname)) (hdfGetIntValue q.hdfrcv "fee" 0) op) :
    Leaves t conn
      (bankCmdAddbill (outcomes t (hashString ((nonempty q.hdfrcv "aname").getD []))) q conn cd) := by
  by_cases hasked : Asked q
  · obtain ⟨aname, haname⟩ := Option.ne_none_iff_exists'.mp hasked.1
    obtain ⟨btype, hbtype⟩ := Option.ne_none_iff_exists'.mp hasked.2.1
    obtain ⟨fee, hfee⟩ := Option.ne_none_iff_exists'.mp hasked.2.2
    rw [bankCmdAddbill_asked haname hbtype hfee, haname, Option.getD_some]
    have hswitch := bankSwitch_came ht hcd haname
      (fun op account hop hparam => hcover aname op account haname hop hparam) ⟨true, conn.done ++ [.begin]⟩ rfl
    generalize bankSwitch _ q aname _ _ _ _ cd = r at hswitch ⊢
    obtain ⟨⟨exit, conn'⟩, cd'⟩ := r
    obtain ⟨hdid, hcd'⟩ := hswitch
    have hothers : ∀ aid' d, aid' ≠ hashString aname → cd' aid' = some d → Fresh t aid' d :=
      fun aid' d _ hd => hcd' aid' d hd
    cases hdid with
    | left => exact ⟨[.begin], t, rfl, rfl, ht, hcd'⟩
    | rolledBack => exact ⟨[.begin, .rollback], t, List.append_assoc .., rfl, ht, hcd'⟩
    | finish => exact leaves_atFinish [.begin] _ rfl _ rfl rfl rfl ht hothers
    | finished => exact ⟨[.begin, .commit], t, List.append_assoc .., rfl, ht, Backed.drop hothers⟩
    | goOn =>
      refine leaves_atFinish [.begin, .exec _] _ rfl _ rfl (List.append_assoc ..) ?_ ht hothers
      exact insertBill_change ..
    | @paid remark statement hkeeps =>
      obtain ⟨hsound, haid⟩ := hkeeps
      refine leaves_atFinish [.begin, .exec statement, .exec (.insertBill (hashString aname) aname
        (hdfGetIntValue q.hdfrcv "btype" 0) (hdfGetIntValue q.hdfrcv "fee" 0) remark)] _ rfl _ rfl ?_ ?_ hsound ?_
      · simp only [List.append_assoc]
        rfl
      · exact insertBill_change ..
      · intro aid' d hne hd
        exact fresh_change_of_ne (haid.symm ▸ hne) (hcd' aid' d hd)
  · obtain ⟨err, herr⟩ := bankCmdAddbill_of_not_asked hasked conn cd
    rw [herr]
    exact ⟨[], t, (List.append_nil _).symm, rfl, ht, hcd⟩

theorem settled_addbill {s : Bank} {b : Billing} (hs : Settled s) (hb : Covered s b) : Settled (addbill s b) := by
  obtain ⟨committed, seen, conn, cd⟩ := s
  obtain ⟨heq, hsound, hcd⟩ := hs
  obtain rfl : committed = seen := heq
  obtain ⟨calls, t', hdone, htables, ht', hcd'⟩ :=
    bankCmdAddbill_leaves (q := b.q) hsound (hcd.lapse b.gone) conn hb
  unfold addbill
  dsimp only at hdone hcd' ⊢
  rw [hdone, List.drop_left, htables]
  exact ⟨rfl, ht', hcd'⟩

theorem Settled.solvent {s : Bank} (hs : Settled s) : Solvent s := by
  have hseen : NonNegative s.seen := fun aid a ha => (hs.2.1 aid a ha).1
  refine ⟨?_, hseen⟩
  rw [hs.1]
  exact hseen

theorem Opening.settled {s : Bank} (hs : Opening s) : Settled s := by
  obtain ⟨heq, hzero, hcd⟩ := hs
  refine ⟨heq, ?_, ?_⟩
  · intro aid a ha
    obtain ⟨hsum, hpre⟩ := hzero aid a ha
    rw [hsum, hpre]
    decide
  · rw [hcd]
    exact backed_empty

/-- Balances stay at zero or above through every run of bills none of which takes more than there is. -/
theorem throughout_solvent {s : Bank} (hs : Opening s) {bills : List Billing} (h : Guarded addbill Covered s bills) :
    Throughout addbill Solvent s bills :=
  (h.throughout (fun _ _ hs hb => settled_addbill hs hb) hs.settled).imp fun _ hs => hs.solvent

def opened : Bank := ⟨fun _ => none, fun _ => none, ⟨false, []⟩, fun _ => none⟩

theorem opened_opening : Opening opened := by
  refine ⟨rfl, ?_, rfl⟩
  intro aid a ha
  cases ha

/-- A bill to the account `a`, with its `btype` and its `fee`. -/
def bill (btype fee : ℤ) : Billing where
  q := ⟨[("aname", some [97]), ("btype", some (printInt btype)), ("fee", some (printInt fee)), ("account", some [98]),
    ("remark", some [99])], [], true, []⟩
  gone _ := false

/-- What is taken back by `ROLLBACK` is not compared with what there is. -/
theorem not_solvent_rollback :
    ¬ ∀ s bills, Opening s → Throughout addbill Solvent s bills := by
  intro h
  have hlast := (h opened [bill 0 0, bill 3 5] opened_opening).last
  have haccount : ([bill 0 0, bill 3 5].foldl addbill opened).seen (hashString [97]) = some ⟨[97], -5, 0⟩ := by
    decide +kernel
  exact absurd (hlast.2 _ _ haccount).1 (by decide)

theorem covered_bill {s : Bank} {btype fee : ℤ} {op : BankOp} (hop : bankOp btype = some op) (hbtype : InInt btype)
    (hfee : InInt fee) (h : BankOp.Covers (s.seen (hashString [97])) fee op) : Covered s (bill btype fee) := by
  intro aname op' account haname hop' haccount
  have hread : hdfGetIntValue (bill btype fee).q.hdfrcv "btype" 0 = btype := hdfGetIntValue_of_print rfl hbtype 0
  have hreadFee : hdfGetIntValue (bill btype fee).q.hdfrcv "fee" 0 = fee := hdfGetIntValue_of_print rfl hfee 0
  rw [hread, hop] at hop'
  cases hop'
  cases haname
  rw [hreadFee]
  exact h

/-- Five are charged, confirmed, and taken back. -/
theorem solvent_charged : Throughout addbill Solvent opened [bill 0 5, bill 1 5, bill 3 5] := by
  apply throughout_solvent opened_opening
  refine ⟨?_, ?_, ?_, trivial⟩
  · apply @covered_bill _ _ _ .precharge rfl (by decide) (by decide)
    change (0 : ℤ) ≤ 0 + 5
    decide
  · apply @covered_bill _ _ _ .cfmcharge rfl (by decide) (by decide)
    trivial
  · apply @covered_bill _ _ _ .rollback rfl (by decide) (by decide)
    have hrow : (addbill (addbill opened (bill 0 5)) (bill 1 5)).seen (hashString [97]) = some ⟨[97], 5, 0⟩ := by
      decide +kernel
    intro a ha
    rw [hrow] at ha
    cases ha
    decide

end Cmoon.BankBalances
