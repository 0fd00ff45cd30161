import Cmoon.MemberCommands
import Cmoon.RequestPrograms

/-! # The member requests

The request handlers of `omember.c` as programs: each command they trigger goes to the
member plugin, and the handler goes on with the reply. The logins, logouts and login checks
note what they do. -/
namespace Cmoon.MemberRequests
open DecimalText Datasets StatementBuilding MemberPlugin MemberCommands RequestPrograms

def lenCk : ℕ := 32

/-- The draws of `mstr_rand_string`: the length and the letters. -/
structure RandString (max : ℕ) where
  size : Fin (max - 1)
  draw : Fin size → Fin (90 - 65)

/-- `mstr_rand_string` -/
def RandString.text {max : ℕ} (s : RandString max) : Bytes :=
  List.ofFn fun x => UInt8.ofNat (65 + s.draw x)

theorem RandString.length_text {max : ℕ} (s : RandString max) : s.text.length = s.size :=
  List.length_ofFn

theorem RandString.letters {max : ℕ} (s : RandString max) : ∀ c ∈ s.text, 65 ≤ c ∧ c < 90 := by
  intro c hc
  obtain ⟨x, rfl⟩ := (List.mem_ofFn' _ _).mp hc
  have hx := (s.draw x).isLt
  have hn : (UInt8.ofNat (65 + s.draw x)).toNat = 65 + s.draw x := by
    rw [UInt8.toNat_ofNat']
    omega
  simp only [UInt8.le_iff_toNat_le, UInt8.lt_iff_toNat_lt, hn]
  exact ⟨Nat.le_add_right _ _, by simp; omega⟩

def tokenT : RandString lenCk := ⟨⟨1, by decide⟩, fun _ => 19⟩

/-- The datasets of a request; `Reserve` is empty when a handler starts. -/
structure Request where
  query : Dataset
  cookie : Dataset

/-- The errors of the handlers, with the field or the name their texts show. -/
inductive Failure where
  | need (key : String)
  | badCode
  | loginNeed (key : String)
  | notLogin (mname : Bytes)
  | loginPsw (msndb msn : Bytes)
  | nexist (mname : Bytes)
  | addPlan
  | pro (err : RepErr)
  deriving DecidableEq

structure Response where
  cookie : Dataset
  output : Dataset

structure Command where
  operation : Cmd
  hdfsnd : Dataset

inductive Note where
  | login (mname mmsn : Bytes)
  | logout (mname : Bytes)
  | check (mname mmsn : Bytes) (passed : Bool)
  deriving DecidableEq

abbrev Handler (O : Type) := Program Command Reply Note (Except Failure O)

/-- The end of a handler that raises an error. -/
def raise {O : Type} (failure : Failure) : Handler O := .done (.error failure)

def hdfGetStr {O : Type} (hdf : Dataset) (name key : String) (next : Bytes → Handler O) : Handler O :=
  match nonempty hdf name with
  | some v => next v
  | none => raise (.need key)

def meventTrigger {O : Type} (operation : Cmd) (hdfsnd : Dataset) (note : Reply → List Note)
    (next : Dataset → Handler O) : Handler O :=
  .trigger ⟨operation, hdfsnd⟩ note fun reply =>
    match reply with
    | .ok hdfrcv => next hdfrcv
    | .error err => raise (.pro err)

/-- Without `FLAGS_SYNC` no reply is waited for, and none can stop the handler. -/
def meventTriggerNone {O : Type} (operation : Cmd) (hdfsnd : Dataset) (note : List Note)
    (next : Handler O) : Handler O :=
  .trigger ⟨operation, hdfsnd⟩ (fun _ => note) fun _ => next

def memberAfterLogin (req : Request) (mname : Bytes) (mnick : Option Bytes) (mmsn : RandString lenCk) :
    Handler Response :=
  meventTriggerNone .memberUp [("mmsn", some mmsn.text), ("mname", some mname)] [.login mname mmsn.text]
    (.done (.ok {
      cookie := [("mname", some mname), ("mnick", mnick), ("mmsn", some mmsn.text)]
      output := [("mnick", hdfGetValue req.query "mnick"), ("mname", hdfGetValue req.query "mname"),
        ("mmsn", some mmsn.text)] }))

def memberNewDataAdd (req : Request) (mmsn : RandString lenCk) : Handler Response :=
  hdfGetStr req.query "mnick" "Query.mnick" fun mnick =>
  hdfGetStr req.query "mname" "Query.mname" fun mname =>
  meventTrigger .memberAdd (hdfCopy [] req.query) (fun _ => []) fun _ =>
  memberAfterLogin req mname mnick mmsn

def nickDefault : Bytes := [0xE5, 0x98, 0x80, 0xE5, 0x97, 0x92]

def memberLoginDataGet (req : Request) (mmsn : RandString lenCk) : Handler Response :=
  hdfGetStr req.query "mname" "Query.mname" fun mname =>
  hdfGetStr req.query "msn" "Query.msn" fun msn =>
  meventTrigger .memberGet [("mname", some mname)] (fun _ => []) fun hdfrcv =>
  match hdfGetValue hdfrcv "msn" with
  | none => raise (.nexist mname)
  | some msndb =>
    if msndb = msn then
      memberAfterLogin req mname (some ((hdfGetValue hdfrcv "mnick").getD nickDefault)) mmsn
    else raise (.loginPsw msndb msn)

structure Credentials where
  mname : Bytes
  mmsn : Bytes
  /-- `Reserve.mname`, which only the cookies set. -/
  reserve : Option Bytes

/-- The query counts when it has both fields, and the cookies otherwise. -/
def credentials (req : Request) : Except Failure Credentials :=
  match hdfGetValue req.query "mname", hdfGetValue req.query "mmsn" with
  | some mname, some mmsn => .ok ⟨mname, mmsn, none⟩
  | _, _ =>
    match hdfGetValue req.cookie "mname" with
    | none => .error (.loginNeed "Cookie.mname")
    | some mname =>
      match hdfGetValue req.cookie "mmsn" with
      | none => .error (.loginNeed "Cookie.mmsn")
      | some mmsn => .ok ⟨mname, mmsn, some mname⟩

def Passed (cred : Credentials) (reply : Reply) : Prop :=
  ∃ hdfrcv, reply = .ok hdfrcv ∧ hdfGetValue hdfrcv "mmsn" = some cred.mmsn

instance (cred : Credentials) (reply : Reply) : Decidable (Passed cred reply) :=
  match reply with
  | .ok hdfrcv => decidable_of_iff (hdfGetValue hdfrcv "mmsn" = some cred.mmsn)
      ⟨fun h => ⟨hdfrcv, rfl, h⟩, by rintro ⟨_, ⟨⟩, h⟩; exact h⟩
  | .error _ => isFalse (by rintro ⟨_, ⟨⟩, -⟩)

def memberCheckLoginDataGet (req : Request) : Handler (Option Bytes) :=
  match credentials req with
  | .error failure => raise failure
  | .ok cred =>
    meventTrigger .memberGet [("mname", some cred.mname)]
      (fun reply => [.check cred.mname cred.mmsn (decide (Passed cred reply))]) fun hdfrcv =>
    if hdfGetValue hdfrcv "mmsn" = some cred.mmsn then .done (.ok cred.reserve)
    else raise (.notLogin cred.mname)

def memberCheckLogin {O : Type} (req : Request) (next : Bytes → Handler O) : Handler O :=
  (memberCheckLoginDataGet req).bind fun result =>
    match result with
    | .error failure => raise failure
    | .ok none => raise (.loginNeed "Reserve.mname")
    | .ok (some mname) => next mname

def memberLogoutDataGet (req : Request) : Handler Response :=
  memberCheckLogin req fun mname =>
    meventTriggerNone .memberUp [("mmsn", some [48]), ("mname", some mname)] [.logout mname] (.done (.ok ⟨[], []⟩))

def memberEditDataMod (req : Request) : Handler Response :=
  memberCheckLogin req fun mname =>
    meventTriggerNone .memberUp (hdfCopy (hdfSetValue [] "mname" (some mname)) req.query) [] (.done (.ok ⟨[], []⟩))

/-- The letter with the link goes to another plugin. -/
def memberResetDataGet (req : Request) (rlink : RandString lenCk) : Handler Response :=
  hdfGetStr req.query "mname" "Query.mname" fun mname =>
  meventTrigger .memberSetrlink [("rlink", some rlink.text), ("mname", some mname)] (fun _ => []) fun _ =>
  .done (.ok ⟨[], []⟩)

def memberPassDataGet (req : Request) (mmsn : RandString lenCk) : Handler Response :=
  match hdfGetValue req.query "mname", hdfGetValue req.query "rlink" with
  | some mname, some rlink =>
    meventTrigger .memberGetrlink [("mname", some mname)] (fun _ => []) fun hdfrcv =>
    if hdfGetValue hdfrcv "rlink" = some rlink then
      memberAfterLogin req mname (hdfGetValue hdfrcv "mnick") mmsn
    else raise .badCode
  | _, _ => memberCheckLogin req fun mname => .done (.ok ⟨[], [("mname", some mname)]⟩)

/-- `MEMBER_CHECK_ADMIN` and `MEMBER_CHECK_ROOT`: the level comes with the reply of the check. -/
def memberCheckLevel (level : ℤ) (hdfrcv : Dataset) : Prop := level ≤ hdfGetIntValue hdfrcv "verify" (-1)

/-- `MEMBER_VF_ADMIN` and `MEMBER_VF_ROOT` -/
def memberVfAdmin : ℤ := 90
def memberVfRoot : ℤ := 100

/-- A cache entry that goes when its time is over or the cache is full. -/
inductive Expiry where
  | member (mid : ℤ)
  | memberPriv (mid : ℤ)
  | car (mid : ℤ)

def expire (e : MemberEntry) : Expiry → MemberEntry
  | .member mid => { e with member := Function.update e.member mid none }
  | .memberPriv mid => { e with memberPriv := Function.update e.memberPriv mid none }
  | .car mid => { e with car := Function.update e.car mid none }

def memberServer (accepts : Assignments → Bool) : Server MemberEntry Command Reply Expiry where
  exec e c :=
    let out := memberProcessDriver accepts e c.operation c.hdfsnd
    (out.reply, out.entry)
  drift := expire

theorem expire_db (e : MemberEntry) (x : Expiry) : (expire e x).db = e.db := by cases x <;> rfl

theorem coherent_expire {e : MemberEntry} (h : Coherent e) (x : Expiry) : Coherent (expire e x) := by
  cases x with
  | member mid =>
    refine ⟨fun {k d} hd => ?_, h.memberPriv⟩
    rcases eq_or_ne k mid with rfl | hne
    · simp [expire] at hd
    · simp only [expire, Function.update_of_ne hne] at hd
      exact h.member hd
  | memberPriv mid =>
    refine ⟨h.member, fun {k d} hd => ?_⟩
    rcases eq_or_ne k mid with rfl | hne
    · simp [expire] at hd
    · simp only [expire, Function.update_of_ne hne] at hd
      exact h.memberPriv hd
  | car mid => exact ⟨h.member, h.memberPriv⟩

theorem memberCheckLoginDataGet_error {req : Request} {failure : Failure}
    (hc : credentials req = .error failure) : memberCheckLoginDataGet req = raise failure := by
  rw [memberCheckLoginDataGet, hc]

theorem checkLogin_ends_ok {req : Request} {replies : List Reply} {reserve : Option Bytes}
    (h : (memberCheckLoginDataGet req).Ends replies (.ok reserve)) :
    ∃ cred reply, credentials req = .ok cred ∧ replies = [reply] ∧ Passed cred reply ∧
      cred.reserve = reserve := by
  cases hc : credentials req with
  | error failure =>
    rw [memberCheckLoginDataGet_error hc] at h
    cases h
  | ok cred =>
    rw [memberCheckLoginDataGet, hc] at h
    cases h with
    | trigger h =>
      rename_i reply rs
      cases reply with
      | error err => cases h
      | ok hdfrcv =>
        by_cases heq : hdfGetValue hdfrcv "mmsn" = some cred.mmsn
        · simp only [heq, if_true] at h
          cases h
          exact ⟨cred, _, rfl, rfl, ⟨hdfrcv, rfl, heq⟩, rfl⟩
        · simp only [heq, if_false] at h
          cases h

theorem checkLogin_ends {req : Request} {cred : Credentials} (hc : credentials req = .ok cred)
    {reply : Reply} (hp : Passed cred reply) :
    (memberCheckLoginDataGet req).Ends [reply] (.ok cred.reserve) := by
  obtain ⟨hdfrcv, rfl, heq⟩ := hp
  rw [memberCheckLoginDataGet, hc]
  refine .trigger ?_
  simp only [heq, if_true]
  exact .done _

theorem checkLogin_answered (answer : Command → Reply) (req : Request) :
    (memberCheckLoginDataGet req).answered answer =
      match credentials req with
      | .error failure => .error failure
      | .ok cred =>
        match answer ⟨.memberGet, [("mname", some cred.mname)]⟩ with
        | .error err => .error (.pro err)
        | .ok hdfrcv =>
          if hdfGetValue hdfrcv "mmsn" = some cred.mmsn then .ok cred.reserve else .error (.notLogin cred.mname) := by
  unfold memberCheckLoginDataGet meventTrigger
  cases credentials req with
  | error failure => rfl
  | ok cred =>
    dsimp only [Program.answered]
    cases answer ⟨.memberGet, [("mname", some cred.mname)]⟩ with
    | error err => rfl
    | ok hdfrcv =>
      dsimp only
      split <;> rfl

/-- After a check that passes for the cookies of `mname` the handler goes on as `mname`. -/
theorem memberCheckLogin_feed {O : Type} {req : Request} {replies : List Reply} {mname : Bytes}
    (h : (memberCheckLoginDataGet req).Ends replies (.ok (some mname))) (next : Bytes → Handler O) :
    (memberCheckLogin req next).feed replies = next mname := h.feed_bind _

section Commands
variable {G : Command → (Reply → List Note) → Prop} {O : Type}

theorem commands_hdfGetStr {hdf : Dataset} {name key : String} {next : Bytes → Handler O}
    (h : ∀ v, nonempty hdf name = some v → (next v).Commands G) : (hdfGetStr hdf name key next).Commands G := by
  unfold hdfGetStr
  split
  · rename_i v hv
    exact h v hv
  · trivial

theorem commands_meventTrigger {operation : Cmd} {hdfsnd : Dataset} {note : Reply → List Note}
    {next : Dataset → Handler O} (hg : G ⟨operation, hdfsnd⟩ note) (h : ∀ hdfrcv, (next hdfrcv).Commands G) :
    (meventTrigger operation hdfsnd note next).Commands G := by
  refine ⟨hg, fun reply => ?_⟩
  cases reply with
  | ok hdfrcv => exact h hdfrcv
  | error err => trivial

theorem commands_checkLogin {req : Request}
    (hg : ∀ cred, credentials req = .ok cred → G ⟨.memberGet, [("mname", some cred.mname)]⟩
      fun reply => [.check cred.mname cred.mmsn (decide (Passed cred reply))]) :
    (memberCheckLoginDataGet req).Commands G := by
  unfold memberCheckLoginDataGet
  split
  · trivial
  · rename_i cred hc
    apply commands_meventTrigger (hg cred hc)
    intro hdfrcv
    split <;> trivial

end Commands
end Cmoon.MemberRequests
