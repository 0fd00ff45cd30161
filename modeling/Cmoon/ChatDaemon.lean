import Cmoon.Datasets
import Cmoon.ExceptResults
import Mathlib.Data.List.Sort
import Mathlib.Logic.Function.Basic

/-! # The daemon of the chat servers

Chat servers tell the daemon `v` which users come and go, have it pass messages on and send it heart beats; a client asks
it for a server to connect to. It has a table of servers, which is filled at the start, a table of users, and a list of
the servers by load, which the timer builds and sorts. -/
namespace Cmoon.ChatDaemon
open DecimalText Datasets ExceptResults

structure UserEntry where
  online : Bool
  server : Option Bytes
  deriving DecidableEq

inductive SnakeState where
  | running | died
  deriving DecidableEq

/-- `name` is the key in the table. -/
structure SnakeEntry where
  name : Bytes
  domain : Bytes
  idle : ℤ
  state : SnakeState
  numOnline : ℕ

/-- `slink` holds names for the pointers to the entries. -/
structure Daemon where
  stbl : List SnakeEntry
  slink : Option (List Bytes)
  snakeNum : ℕ
  utbl : Bytes → Option UserEntry
  gTime : ℤ
  intime : ℕ

inductive ReqCmd where
  | useron | useroff | msgsnd | msgbrd | connect | hb | state
  | other (number : ℕ)
  deriving DecidableEq

structure Request where
  operation : ReqCmd
  hdfrcv : Dataset
  deriving DecidableEq

inductive ChatErr where
  | badparam (key : String)       -- `need %s`
  | died (srcx : Bytes)           -- `%s died`
  | cantFound (server : Bytes)    -- `can't found %s`
  | notFound (srcx : Bytes)       -- `%s not found`
  | allDie                        -- `no body running`
  | unknown (operation : ReqCmd)  -- `unknown command %u`
  | trigger (errcode : ℤ)         -- the answer of a chat server
  deriving DecidableEq

/-- What the daemon tells a chat server. -/
structure Notice where
  server : Bytes
  key : Bytes
  cmd : ReqCmd
  hdfsnd : Dataset
  deriving DecidableEq

structure Handled where
  reply : Except ChatErr Dataset
  sent : List Notice
  daemon : Daemon

/-- Where the C code reads what is not there. -/
inductive Fault where
  | nullServer   -- `hash_lookup` of `NULL`
  | noList       -- `slink[i]` without a list
  | nullEntry    -- an entry of the list that is `NULL`
  | noErr        -- `err`, which `REQ_CMD_MSGBRD` does not set
  deriving DecidableEq

/-- What the code leaves to others: the plugins of the chat servers, the order in which a hash is walked through, and
that of entries between which `qsort` does not decide. -/
structure Surroundings where
  opens : Bytes → Bool
  answer : Notice → Option ℤ
  walk : List SnakeEntry → List SnakeEntry
  walk_perm : ∀ stbl, (walk stbl).Perm stbl
  qsort : (SnakeEntry → SnakeEntry → ℤ) → List SnakeEntry → List SnakeEntry
  qsort_perm : ∀ compare slink, (qsort compare slink).Perm slink

/-- `hash_lookup` in `stbl` -/
def Daemon.snake (d : Daemon) (name : Bytes) : Option SnakeEntry := d.stbl.find? (·.name = name)

/-- The entry under a name is changed. -/
def updateSnake (stbl : List SnakeEntry) (name : Bytes) (f : SnakeEntry → SnakeEntry) : List SnakeEntry :=
  stbl.map fun s => if s.name = name then f s else s

def hasSnake (stbl : List SnakeEntry) (name : Bytes) : Bool := stbl.any (·.name = name)

/-- `hash_insert` in `stbl`: a name that is there gets a new entry. -/
def insertSnake (stbl : List SnakeEntry) (s : SnakeEntry) : List SnakeEntry :=
  if hasSnake stbl s.name then updateSnake stbl s.name fun _ => s else stbl ++ [s]

def userNew : UserEntry := ⟨false, none⟩

def Daemon.user (d : Daemon) (uin : Bytes) : UserEntry := (d.utbl uin).getD userNew

def Daemon.setUser (d : Daemon) (uin : Bytes) (u : UserEntry) : Daemon :=
  { d with utbl := Function.update d.utbl uin (some u) }

@[simp] theorem setUser_utbl_self (d : Daemon) (uin : Bytes) (u : UserEntry) :
    (d.setUser uin u).utbl uin = some u := Function.update_self _ _ _

theorem setUser_utbl_of_ne (d : Daemon) {uin uin' : Bytes} (h : uin' ≠ uin) (u : UserEntry) :
    (d.setUser uin u).utbl uin' = d.utbl uin' := Function.update_of_ne h _ _

def Daemon.online (d : Daemon) (uin : Bytes) : Bool := (d.utbl uin).any (·.online)

def reqGetParamStr (hdf : Dataset) (key : String) : Except ChatErr Bytes :=
  match nonempty hdf key with
  | none => .error (.badparam key)
  | some v => .ok v

def reqGetParamInt (hdf : Dataset) (key : String) : Except ChatErr ℤ :=
  match hdfGetValue hdf key with
  | none => .error (.badparam key)
  | some _ => .ok (hdfGetIntValue hdf key 0)

def noticeOthers (d : Daemon) (q : Request) (srcx uin : Bytes) : List Notice :=
  (d.stbl.filter (·.name ≠ srcx)).map fun s => ⟨s.name, uin, q.operation, q.hdfrcv⟩

def comesOn (s : SnakeEntry) : SnakeEntry := { s with numOnline := (s.numOnline + 1) % 2 ^ 32, state := .running }

def goesOff (s : SnakeEntry) : SnakeEntry :=
  { s with numOnline := if 0 < s.numOnline then s.numOnline - 1 else s.numOnline, state := .running }

def userOn (d : Daemon) (srcx uin : Bytes) : Daemon :=
  let server := if hasSnake d.stbl srcx then some srcx else (d.user uin).server
  { d.setUser uin ⟨true, server⟩ with stbl := updateSnake d.stbl srcx comesOn }

def userOff (d : Daemon) (srcx uin : Bytes) : Daemon :=
  { d.setUser uin { d.user uin with online := false } with stbl := updateSnake d.stbl srcx goesOff }

def userParams (q : Request) : Except ChatErr (Bytes × Bytes) := do
  let srcx ← reqGetParamStr q.hdfrcv "srcx"
  let uin ← reqGetParamStr q.hdfrcv "uin"
  return (srcx, uin)

def extCmdUseron (d : Daemon) (q : Request) : Handled :=
  match userParams q with
  | .error e => ⟨.error e, [], d⟩
  | .ok (srcx, uin) => ⟨.ok [], noticeOthers d q srcx uin, userOn d srcx uin⟩

def extCmdUseroff (d : Daemon) (q : Request) : Handled :=
  match userParams q with
  | .error e => ⟨.error e, [], d⟩
  | .ok (srcx, uin) => ⟨.ok [], noticeOthers d q srcx uin, userOff d srcx uin⟩

/-- The server whose user has sent a message has died. -/
def diedAt (d : Daemon) (srcx : Bytes) : Bool := (d.snake srcx).any (·.state = .died)

def noteSource (d : Daemon) (srcx srcuin : Bytes) : Daemon := d.setUser srcuin ⟨!diedAt d srcx, some srcx⟩

structure Message where
  srcx : Bytes
  srcuin : Bytes
  dstuin : Bytes
  msg : Bytes

def msgParams (q : Request) : Except ChatErr Message := do
  let srcx ← reqGetParamStr q.hdfrcv "srcx"
  let srcuin ← reqGetParamStr q.hdfrcv "srcuin"
  let dstuin ← reqGetParamStr q.hdfrcv "dstuin"
  let msg ← reqGetParamStr q.hdfrcv "msg"
  return ⟨srcx, srcuin, dstuin, msg⟩

section Surroundings
variable (met : Surroundings)

/-- The message goes to the server of its destination. -/
def passOn (d : Daemon) (q : Request) (srcx dstuin : Bytes) : Except Fault Handled :=
  match (d.utbl dstuin).filter (·.online) with
  | none => .ok ⟨.ok [], [], d⟩
  | some u =>
    match u.server with
    | none => .error .nullServer
    | some server =>
      match d.snake server with
      | none => .ok ⟨.error (.cantFound server), [], d⟩
      | some s =>
        let notice : Notice := ⟨s.name, srcx, .msgsnd, q.hdfrcv⟩
        match met.answer notice with
        | none => .ok ⟨.ok [], [notice], d⟩
        | some errcode => .ok ⟨.error (.trigger errcode), [notice], d⟩

def extCmdMsgsnd (d : Daemon) (q : Request) : Except Fault Handled :=
  match msgParams q with
  | .error e => .ok ⟨.error e, [], d⟩
  | .ok m =>
    if diedAt d m.srcx then .ok ⟨.error (.died m.srcx), [], noteSource d m.srcx m.srcuin⟩
    else passOn met (noteSource d m.srcx m.srcuin) q m.srcx m.dstuin

def Daemon.entries (d : Daemon) (slink : List Bytes) : List SnakeEntry := slink.filterMap d.snake

def extCmdConnect (d : Daemon) : Except Fault Handled :=
  match d.slink with
  | none => if d.snakeNum = 0 then .ok ⟨.error .allDie, [], d⟩ else .error .noList
  | some slink =>
    match (d.entries slink).find? (·.state = .running) with
    | some s => .ok ⟨.ok (hdfSetValue [] "domain" (some s.domain)), [], d⟩
    | none => .ok ⟨.error .allDie, [], d⟩

/-- `num` is an `int`, and the load is unsigned. -/
def beats (gTime num : ℤ) (s : SnakeEntry) : SnakeEntry :=
  { s with
    idle := gTime
    numOnline := if s.numOnline < num % 2 ^ 32 ∧ num < 0x00FFFFFF then (num % 2 ^ 32).toNat else s.numOnline }

def heartBeat (d : Daemon) (srcx : Bytes) (num : ℤ) : Daemon :=
  { d with stbl := updateSnake d.stbl srcx (beats d.gTime num) }

def beatParams (q : Request) : Except ChatErr (Bytes × ℤ) := do
  let srcx ← reqGetParamStr q.hdfrcv "srcx"
  let num ← reqGetParamInt q.hdfrcv "num_online"
  return (srcx, num)

def extCmdHb (d : Daemon) (q : Request) : Handled :=
  match beatParams q with
  | .error e => ⟨.error e, [], d⟩
  | .ok (srcx, num) =>
    match d.snake srcx with
    | none => ⟨.error (.notFound srcx), [], d⟩
    | some _ => ⟨.ok [], [], heartBeat d srcx num⟩

def extCmdState (d : Daemon) : Handled :=
  let ttnum : ℕ := (d.stbl.map (·.numOnline)).sum % 2 ^ 32
  ⟨.ok (hdfSetIntValue [] "total online" (wrap 32 ttnum)), [], d⟩

def extProcessDriver (d : Daemon) (q : Request) : Except Fault Handled :=
  match q.operation with
  | .useron => .ok (extCmdUseron d q)
  | .useroff => .ok (extCmdUseroff d q)
  | .msgsnd => extCmdMsgsnd met d q
  | .msgbrd => .error .noErr
  | .state => .ok (extCmdState d)
  | .connect => extCmdConnect d
  | .hb => .ok (extCmdHb d q)
  | .other number => .ok ⟨.error (.unknown (.other number)), [], d⟩

/-- A server that has not been heard for more than `ZOMBLE_SEC` is a zombie. -/
def checked (gTime : ℤ) (s : SnakeEntry) : SnakeEntry :=
  { s with state := if 300 < gTime - s.idle then .died else .running }

def snakeCompare (s t : SnakeEntry) : ℤ := wrap 32 (s.numOnline - t.numOnline)

/-- The list is built once. Memory for an entry of which the table has none is `NULL`. -/
def buildList (d : Daemon) : Except Fault (List Bytes) :=
  match d.slink with
  | some slink => .ok slink
  | none => if d.stbl.length < d.snakeNum then .error .nullEntry else .ok ((d.stbl.take d.snakeNum).map (·.name))

def sorted (d : Daemon) (slink : List Bytes) : Daemon :=
  { d with slink := some ((met.qsort snakeCompare (d.entries slink)).map (·.name)) }

def extSnakeSort (d : Daemon) : Except Fault Daemon := (buildList d).map (sorted met d)

def checkedServers (d : Daemon) : Daemon := { d with stbl := d.stbl.map (checked d.gTime) }

def extCheckZomble (d : Daemon) : Except Fault Daemon := extSnakeSort met (checkedServers d)

def timeUp (d : Daemon) (now : ℤ) : Except Fault Daemon :=
  if 300 / 10 < d.intime + 1 then extCheckZomble met { d with gTime := now, intime := 0 }
  else .ok { d with gTime := now, intime := d.intime + 1 }

def snakeNew (now : ℤ) (domain ename : Bytes) : SnakeEntry := ⟨ename, domain, now, .running, 0⟩

/-- The servers of the configuration that can be opened: a child of `Aped` is a domain with a name. -/
def opened (now : ℤ) (aped : List (Bytes × Option Bytes)) : List SnakeEntry :=
  aped.filterMap fun (domain, ename) => (ename.filter met.opens).map (snakeNew now domain)

def extStartDriver (now : ℤ) (aped : List (Bytes × Option Bytes)) : Daemon where
  stbl := met.walk ((opened met now aped).foldl insertSnake [])
  slink := none
  snakeNum := (opened met now aped).length
  utbl _ := none
  gTime := 0
  intime := 0

inductive Event where
  | request (q : Request)
  | tick (now : ℤ)

def step (d : Daemon) : Event → Except Fault Daemon
  | .request q => (extProcessDriver met d q).map (·.daemon)
  | .tick now => timeUp met d now

def run (d : Daemon) (events : List Event) : Except Fault Daemon := events.foldlM (step met) d

/-- The daemon after the parameters have been read, when they are there. -/
def given {α : Type} (d : Daemon) (params : Except ChatErr α) (f : α → Daemon) : Daemon :=
  match params with
  | .ok a => f a
  | .error _ => d

def requested (d : Daemon) (q : Request) : Daemon :=
  match q.operation with
  | .useron => given d (userParams q) fun p => userOn d p.1 p.2
  | .useroff => given d (userParams q) fun p => userOff d p.1 p.2
  | .msgsnd => given d (msgParams q) fun m => noteSource d m.srcx m.srcuin
  | .hb => given d (beatParams q) fun p => heartBeat d p.1 p.2
  | _ => d

variable {met} {d d' : Daemon} {q : Request} {r : Handled}

theorem updateSnake_of_notMem {stbl : List SnakeEntry} {name : Bytes} (h : ∀ s ∈ stbl, s.name ≠ name)
    (f : SnakeEntry → SnakeEntry) : updateSnake stbl name f = stbl := by
  unfold updateSnake
  rw [List.map_congr_left fun s hs => if_neg (h s hs), List.map_id']

theorem snake_eq_none {name : Bytes} : d.snake name = none ↔ ∀ s ∈ d.stbl, s.name ≠ name := by
  unfold Daemon.snake
  rw [List.find?_eq_none]
  apply forall₂_congr
  intro s _
  rw [decide_eq_true_eq]

/-- A parameter that is missing is named by the error. -/
def NeedsParam {α : Type} (x : Except ChatErr α) : Prop := ∀ err, x = .error err → ∃ key, err = .badparam key

theorem needsParam_str (hdf : Dataset) (key : String) : NeedsParam (reqGetParamStr hdf key) := by
  intro err h
  unfold reqGetParamStr at h
  split at h
  · cases h
    exact ⟨key, rfl⟩
  · cases h

theorem needsParam_int (hdf : Dataset) (key : String) : NeedsParam (reqGetParamInt hdf key) := by
  intro err h
  unfold reqGetParamInt at h
  split at h
  · cases h
    exact ⟨key, rfl⟩
  · cases h

theorem needsParam_bind {α β : Type} {x : Except ChatErr α} {f : α → Except ChatErr β} (hx : NeedsParam x)
    (hf : ∀ a, NeedsParam (f a)) : NeedsParam (x >>= f) := by
  intro err h
  cases x with
  | error err' =>
    have herr : err' = err := Except.error.inj h
    exact hx err (congrArg _ herr)
  | ok a => exact hf a err h

theorem needsParam_pure {α : Type} (a : α) : NeedsParam (pure a) := by
  intro err h
  cases h

theorem needsParam_userParams (q : Request) : NeedsParam (userParams q) := by
  apply needsParam_bind (needsParam_str _ _)
  intro srcx
  apply needsParam_bind (needsParam_str _ _)
  intro uin
  exact needsParam_pure _

theorem needsParam_beatParams (q : Request) : NeedsParam (beatParams q) := by
  apply needsParam_bind (needsParam_str _ _)
  intro srcx
  apply needsParam_bind (needsParam_int _ _)
  intro num
  exact needsParam_pure _

theorem needsParam_msgParams (q : Request) : NeedsParam (msgParams q) := by
  apply needsParam_bind (needsParam_str _ _)
  intro srcx
  apply needsParam_bind (needsParam_str _ _)
  intro srcuin
  apply needsParam_bind (needsParam_str _ _)
  intro dstuin
  apply needsParam_bind (needsParam_str _ _)
  intro msg
  exact needsParam_pure _

theorem extCmdUseron_daemon : (extCmdUseron d q).daemon = given d (userParams q) fun p => userOn d p.1 p.2 := by
  unfold extCmdUseron
  cases userParams q with
  | error e => rfl
  | ok p => rfl

theorem extCmdUseroff_daemon : (extCmdUseroff d q).daemon = given d (userParams q) fun p => userOff d p.1 p.2 := by
  unfold extCmdUseroff
  cases userParams q with
  | error e => rfl
  | ok p => rfl

theorem extCmdHb_daemon : (extCmdHb d q).daemon = given d (beatParams q) fun p => heartBeat d p.1 p.2 := by
  unfold extCmdHb
  cases beatParams q with
  | error e => rfl
  | ok p =>
    dsimp only
    cases hs : d.snake p.1 with
    | some s => rfl
    | none =>
      have hsame : heartBeat d p.1 p.2 = d := by
        unfold heartBeat
        rw [updateSnake_of_notMem (snake_eq_none.mp hs)]
      exact hsame.symm

theorem passOn_daemon {srcx dstuin : Bytes} (h : passOn met d q srcx dstuin = .ok r) : r.daemon = d := by
  unfold passOn at h
  split at h
  · cases h
    rfl
  · split at h
    · cases h
    · split at h
      · cases h
        rfl
      · dsimp only at h
        split at h
        · cases h
          rfl
        · cases h
          rfl

theorem extCmdMsgsnd_daemon (h : extCmdMsgsnd met d q = .ok r) :
    r.daemon = given d (msgParams q) fun m => noteSource d m.srcx m.srcuin := by
  unfold extCmdMsgsnd at h
  cases hm : msgParams q with
  | error e =>
    rw [hm] at h
    cases h
    rfl
  | ok m =>
    rw [hm] at h
    dsimp only at h
    split at h
    · cases h
      rfl
    · exact passOn_daemon h

theorem extCmdConnect_daemon (h : extCmdConnect d = .ok r) : r.daemon = d := by
  unfold extCmdConnect at h
  split at h
  · split at h
    · cases h
      rfl
    · cases h
  · split at h
    · cases h
      rfl
    · cases h
      rfl

theorem extProcessDriver_daemon (h : extProcessDriver met d q = .ok r) : r.daemon = requested d q := by
  unfold extProcessDriver at h
  unfold requested
  cases hop : q.operation with
  | useron =>
    rw [hop] at h
    cases h
    exact extCmdUseron_daemon
  | useroff =>
    rw [hop] at h
    cases h
    exact extCmdUseroff_daemon
  | msgsnd =>
    rw [hop] at h
    exact extCmdMsgsnd_daemon h
  | msgbrd =>
    rw [hop] at h
    cases h
  | connect =>
    rw [hop] at h
    exact extCmdConnect_daemon h
  | hb =>
    rw [hop] at h
    cases h
    exact extCmdHb_daemon
  | state =>
    rw [hop] at h
    cases h
    rfl
  | other number =>
    rw [hop] at h
    cases h
    rfl

theorem step_request (h : step met d (.request q) = .ok d') : d' = requested d q := by
  obtain ⟨r, hr, rfl⟩ := map_eq_ok h
  exact extProcessDriver_daemon hr

theorem step_of_driver (h : extProcessDriver met d q = .ok r) : step met d (.request q) = .ok r.daemon :=
  congrArg (Except.map Handled.daemon) h

theorem step_useron (met : Surroundings) (d : Daemon) (h : q.operation = .useron) :
    step met d (.request q) = .ok (given d (userParams q) fun p => userOn d p.1 p.2) := by
  have hdriver : extProcessDriver met d q = .ok (extCmdUseron d q) := by
    unfold extProcessDriver
    rw [h]
  rw [← extCmdUseron_daemon]
  exact step_of_driver hdriver

theorem step_useroff (met : Surroundings) (d : Daemon) (h : q.operation = .useroff) :
    step met d (.request q) = .ok (given d (userParams q) fun p => userOff d p.1 p.2) := by
  have hdriver : extProcessDriver met d q = .ok (extCmdUseroff d q) := by
    unfold extProcessDriver
    rw [h]
  rw [← extCmdUseroff_daemon]
  exact step_of_driver hdriver

/-- The time of a tick is set, and every 31st time the servers are checked and the list is sorted. -/
theorem step_tick {now : ℤ} (h : step met d (.tick now) = .ok d') :
    (d.intime < 30 ∧ d' = { d with gTime := now, intime := d.intime + 1 }) ∨
      (30 ≤ d.intime ∧ ∃ slink, buildList (checkedServers { d with gTime := now, intime := 0 }) = .ok slink ∧
        d' = sorted met (checkedServers { d with gTime := now, intime := 0 }) slink) := by
  change timeUp met d now = .ok d' at h
  unfold timeUp at h
  split at h
  · obtain ⟨slink, hslink, rfl⟩ := map_eq_ok h
    exact .inr ⟨by omega, slink, hslink, rfl⟩
  · cases h
    exact .inl ⟨by omega, rfl⟩

theorem mem_updateSnake {stbl : List SnakeEntry} {name : Bytes} {f : SnakeEntry → SnakeEntry} {s' : SnakeEntry}
    (h : s' ∈ updateSnake stbl name f) : ∃ s ∈ stbl, s' = if s.name = name then f s else s := by
  obtain ⟨s, hs, rfl⟩ := List.mem_map.mp h
  exact ⟨s, hs, rfl⟩

theorem run_cons_eq_ok {e : Event} {events : List Event} :
    run met d (e :: events) = .ok d' ↔ ∃ d₁, step met d e = .ok d₁ ∧ run met d₁ events = .ok d' := by
  unfold run
  rw [List.foldlM_cons]
  cases step met d e with
  | error f =>
    constructor
    · intro h
      cases h
    · rintro ⟨_, h, -⟩
      cases h
  | ok d₁ =>
    constructor
    · intro h
      exact ⟨d₁, rfl, h⟩
    · rintro ⟨_, h, hrun⟩
      cases h
      exact hrun

theorem run_concat_eq_ok {e : Event} {events : List Event} :
    run met d (events ++ [e]) = .ok d' ↔ ∃ d₁, run met d events = .ok d₁ ∧ step met d₁ e = .ok d' := by
  induction events generalizing d with
  | nil =>
    rw [List.nil_append, run_cons_eq_ok]
    constructor
    · rintro ⟨d₁, hstep, hrun⟩
      cases hrun
      exact ⟨d, rfl, hstep⟩
    · rintro ⟨d₁, hrun, hstep⟩
      cases hrun
      exact ⟨d', hstep, rfl⟩
  | cons e' events ih =>
    rw [List.cons_append, run_cons_eq_ok]
    constructor
    · rintro ⟨d₁, hstep, hrun⟩
      obtain ⟨d₂, hrun', hlast⟩ := ih.mp hrun
      exact ⟨d₂, run_cons_eq_ok.mpr ⟨d₁, hstep, hrun'⟩, hlast⟩
    · rintro ⟨d₂, hrun, hlast⟩
      obtain ⟨d₁, hstep, hrun'⟩ := run_cons_eq_ok.mp hrun
      exact ⟨d₁, hstep, ih.mpr ⟨d₂, hrun', hlast⟩⟩

theorem run_keeps {I : Daemon → Prop} (hstep : ∀ {d e d'}, I d → step met d e = .ok d' → I d')
    {events : List Event} (h : I d) (hrun : run met d events = .ok d') : I d' := by
  induction events generalizing d with
  | nil =>
    cases hrun
    exact h
  | cons e events ih =>
    obtain ⟨d₁, hfirst, hrest⟩ := run_cons_eq_ok.mp hrun
    exact ih (hstep h hfirst) hrest

theorem updateSnake_names {stbl : List SnakeEntry} {name : Bytes} {f : SnakeEntry → SnakeEntry}
    (hf : ∀ s, s.name = name → (f s).name = s.name) : (updateSnake stbl name f).map (·.name) = stbl.map (·.name) := by
  unfold updateSnake
  rw [List.map_map]
  apply List.map_congr_left
  intro s _
  change (if s.name = name then f s else s).name = s.name
  split
  · exact hf s ‹_›
  · rfl

theorem given_keeps {α : Type} {P : Daemon → Prop} (h : P d) {params : Except ChatErr α} {f : α → Daemon}
    (hf : ∀ a, params = .ok a → P (f a)) : P (given d params f) := by
  cases params with
  | error e => exact h
  | ok a => exact hf a rfl

/-- What a request leaves alone. -/
structure Leaves (d d' : Daemon) : Prop where
  names : d'.stbl.map (·.name) = d.stbl.map (·.name)
  slink : d'.slink = d.slink
  snakeNum : d'.snakeNum = d.snakeNum
  gTime : d'.gTime = d.gTime
  intime : d'.intime = d.intime

theorem Leaves.refl (d : Daemon) : Leaves d d := ⟨rfl, rfl, rfl, rfl, rfl⟩

theorem requested_leaves (d : Daemon) (q : Request) : Leaves d (requested d q) := by
  have hupdate : ∀ name f, (∀ s, (f s).name = s.name) →
      (updateSnake d.stbl name f).map (·.name) = d.stbl.map (·.name) :=
    fun _ _ hf => updateSnake_names fun s _ => hf s
  unfold requested
  split
  · apply given_keeps (.refl d)
    intro p _
    exact ⟨hupdate _ _ fun _ => rfl, rfl, rfl, rfl, rfl⟩
  · apply given_keeps (.refl d)
    intro p _
    exact ⟨hupdate _ _ fun _ => rfl, rfl, rfl, rfl, rfl⟩
  · apply given_keeps (.refl d)
    intro m _
    exact ⟨rfl, rfl, rfl, rfl, rfl⟩
  · apply given_keeps (.refl d)
    intro p _
    exact ⟨hupdate _ _ fun _ => rfl, rfl, rfl, rfl, rfl⟩
  · exact .refl d

theorem checkedServers_names (d : Daemon) :
    (checkedServers d).stbl.map (·.name) = d.stbl.map (·.name) := by
  unfold checkedServers
  rw [List.map_map]
  rfl

theorem step_names {e : Event} (h : step met d e = .ok d') : d'.stbl.map (·.name) = d.stbl.map (·.name) := by
  cases e with
  | request q =>
    rw [step_request h]
    exact (requested_leaves d q).names
  | tick now =>
    obtain ⟨-, rfl⟩ | ⟨-, slink, -, rfl⟩ := step_tick h
    · rfl
    · exact checkedServers_names _

theorem run_names {events : List Event} (h : run met d events = .ok d') :
    d'.stbl.map (·.name) = d.stbl.map (·.name) :=
  run_keeps (I := fun d' => d'.stbl.map (·.name) = d.stbl.map (·.name))
    (fun hd hstep => (step_names hstep).trans hd) rfl h

theorem hasSnake_iff {stbl : List SnakeEntry} {name : Bytes} :
    hasSnake stbl name = true ↔ name ∈ stbl.map (·.name) := by
  unfold hasSnake
  rw [List.any_eq_true, List.mem_map]
  apply exists_congr
  intro s
  rw [decide_eq_true_eq]

theorem insertSnake_names {stbl : List SnakeEntry} {s : SnakeEntry} (h : (stbl.map (·.name)).Nodup) :
    ((insertSnake stbl s).map (·.name)).Nodup := by
  unfold insertSnake
  split
  · rw [updateSnake_names]
    · exact h
    · exact fun _ => Eq.symm
  · rename_i hs
    rw [hasSnake_iff] at hs
    rw [List.map_append, List.map_singleton]
    exact h.append (List.nodup_singleton _) (List.disjoint_singleton.mpr hs)

theorem mem_insertSnake {stbl : List SnakeEntry} {s t : SnakeEntry} (h : t ∈ insertSnake stbl s) : t ∈ stbl ∨ t = s := by
  unfold insertSnake at h
  split at h
  · obtain ⟨t', ht', rfl⟩ := mem_updateSnake h
    split
    · exact .inr rfl
    · exact .inl ht'
  · rw [List.mem_append, List.mem_singleton] at h
    exact h

/-- The table holds servers that have been opened. -/
theorem mem_start {met : Surroundings} {now : ℤ} {aped : List (Bytes × Option Bytes)} {s : SnakeEntry}
    (h : s ∈ (extStartDriver met now aped).stbl) : s ∈ opened met now aped := by
  have hinsert : ∀ ss stbl, s ∈ List.foldl insertSnake stbl ss → s ∈ stbl ∨ s ∈ ss := by
    intro ss
    induction ss with
    | nil => exact fun _ h => .inl h
    | cons t ss ih =>
      intro stbl h
      obtain hs | hs := ih _ h
      · obtain hs | rfl := mem_insertSnake hs
        · exact .inl hs
        · exact .inr List.mem_cons_self
      · exact .inr (List.mem_cons_of_mem t hs)
  exact (hinsert _ _ ((met.walk_perm _).mem_iff.mp h)).resolve_left List.not_mem_nil

theorem insertSnake_length (stbl : List SnakeEntry) (s : SnakeEntry) :
    (insertSnake stbl s).length ≤ stbl.length + 1 := by
  unfold insertSnake
  split
  · unfold updateSnake
    rw [List.length_map]
    omega
  · rw [List.length_append, List.length_singleton]

/-- A name that is there twice makes the table shorter than the count of the servers. -/
theorem start_length (met : Surroundings) (now : ℤ) (aped : List (Bytes × Option Bytes)) :
    (extStartDriver met now aped).stbl.length ≤ (extStartDriver met now aped).snakeNum := by
  have hinsert : ∀ ss stbl, (List.foldl insertSnake stbl ss).length ≤ stbl.length + ss.length := by
    intro ss
    induction ss with
    | nil => exact fun _ => le_rfl
    | cons s ss ih =>
      intro stbl
      have hrest := ih (insertSnake stbl s)
      have hfirst := insertSnake_length stbl s
      rw [List.foldl_cons, List.length_cons]
      omega
  refine ((met.walk_perm _).length_eq).trans_le ((hinsert _ []).trans ?_)
  rw [List.length_nil, Nat.zero_add]
  rfl

theorem start_nodup (met : Surroundings) (now : ℤ) (aped : List (Bytes × Option Bytes)) :
    ((extStartDriver met now aped).stbl.map (·.name)).Nodup := by
  have hinsert : ∀ ss stbl, (stbl.map SnakeEntry.name).Nodup →
      ((List.foldl insertSnake stbl ss).map (·.name)).Nodup := by
    intro ss
    induction ss with
    | nil => exact fun _ h => h
    | cons s ss ih => exact fun stbl h => ih _ (insertSnake_names h)
  exact ((met.walk_perm _).map _).nodup_iff.mpr (hinsert _ [] List.nodup_nil)

end Surroundings

def useron (srcx uin : Bytes) : Request := ⟨.useron, [("srcx", some srcx), ("uin", some uin)]⟩

def useroff (srcx uin : Bytes) : Request := ⟨.useroff, [("srcx", some srcx), ("uin", some uin)]⟩

def hb (srcx num : Bytes) : Request := ⟨.hb, [("srcx", some srcx), ("num_online", some num)]⟩

/-- Chat servers that can all be opened and never answer with an error, over a hash that keeps the order of the
configuration and a stable sort. -/
def plain : Surroundings where
  opens _ := true
  answer _ := none
  walk stbl := stbl
  walk_perm stbl := .refl stbl
  qsort compare slink := slink.insertionSort fun s t => compare s t ≤ 0
  qsort_perm _ slink := List.perm_insertionSort _ slink

end Cmoon.ChatDaemon
