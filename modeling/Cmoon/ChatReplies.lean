import Cmoon.ChatDaemon
import Cmoon.EventDaemon

/-! # The replies of the daemon

A request comes to the daemon `v` in a packet as the event daemon has them, and the sender waits for a reply if it has
put `FLAGS_SYNC` into it. The daemon replies when it has something to say. -/
namespace Cmoon.ChatReplies
open DecimalText Datasets ByteBuffers ChatDaemon

/-- A call of `reply_long`. -/
structure Reply where
  id : Bytes
  code : ℤ
  hdf : Dataset

def repOk : ℤ := 1000

/-- What a reply is made with: the text that a dataset is read from, the number and the traceback of an error, and
whether there is memory to pack a reply. The numbers of errors are given out one after the other and stay below
`REP_OK`. -/
structure Replying where
  hdfReadString : Bytes → Dataset
  number : ChatErr → ℤ
  number_lt : ∀ e, number e < repOk
  traceback : ChatErr → Bytes
  memory : Bool

inductive Crash where
  | outside                  -- a read or write outside the receive buffer
  | driver (f : Fault)
  deriving DecidableEq

/-- What has become of a request. -/
structure Taken where
  replies : List Reply
  sent : List Notice
  daemon : Daemon

def backend : Bytes := [97, 112, 101, 95, 101, 120, 116, 95, 118]

def reqCmd : ℕ → ReqCmd
  | 1001 => .useron
  | 1002 => .useroff
  | 2001 => .msgsnd
  | 2002 => .msgbrd
  | 3001 => .connect
  | 4001 => .hb
  | 9001 => .state
  | number => .other number

/-- What `parse_event` reads: the event name as a string, and the dataset. The byte behind the name is set to zero,
which is the first one of what is read then. -/
def readEvent (m : Bytes) (psize : ℕ) : Except EventDaemon.Fault (Option (Bytes × Option Bytes)) := do
  let esize ← EventDaemon.inside (wordAt m 8)
  let m ← EventDaemon.inside (store m (12 + esize) [0])
  let (rsize, hdfrcv) ← EventDaemon.unpackHdf m (12 + esize) (psize - esize - 4)
  if rsize = 0 ∨ (rsize + esize) % 2 ^ 32 + 4 > EventDaemon.maxPacketLen ∨ psize < esize then return none
  else return some ((slice m 12 esize).takeWhile (· ≠ 0), hdfrcv)

section Daemon
variable (met : Surroundings) (env : Replying) (d : Daemon)

/-- The code of a reply, and its dataset, to which an error is added. -/
def answerOf : Except ChatErr Dataset → ℤ × Dataset
  | .ok hdfsnd => (repOk, hdfsnd)
  | .error e =>
    (env.number e,
      if env.number e < repOk then
        hdfSetIntValue (hdfSetValue [] "errtrace" (some (env.traceback e))) "errcode" (env.number e)
      else [])

/-- The reply is sent if its dataset has a child. -/
def repliesTo (id : Bytes) (reply : Except ChatErr Dataset) : List Reply :=
  let (retcode, hdfsnd) := answerOf env reply
  if hdfsnd ≠ [] then if env.memory then [⟨id, retcode, hdfsnd⟩] else [] else []

def takeEvent (id : Bytes) (q : Request) : Except Crash Taken :=
  match extProcessDriver met d q with
  | .error f => .error (.driver f)
  | .ok r => .ok ⟨repliesTo env id r.reply, r.sent, r.daemon⟩

/-- `parse_event`; a request without a result gets no reply, and its error is logged. -/
def parseEvent (id : Bytes) (cmd : ℕ) (m : Bytes) (psize : ℕ) : Except Crash (Option Taken) :=
  match readEvent m psize with
  | .error _ => .error .outside
  | .ok none => .ok none
  | .ok (some (ename, hdfrcv)) =>
    if ename = backend then
      (takeEvent met env d id ⟨reqCmd cmd, (hdfrcv.map env.hdfReadString).getD []⟩).map some
    else .ok none

/-- `parse_message` on the first `len` bytes of the buffer. -/
def parseMessage (m : Bytes) (len : ℕ) : Except Crash (Option Taken) :=
  if len < 17 then .ok none
  else if EventDaemon.version m ≠ EventDaemon.protoVer then .ok none
  else parseEvent met env d (be 4 (EventDaemon.msgId m)) (word (slice m 4 2)) m (len - 8)

/-- The flags of a packet ask for a reply. -/
def sync (m : Bytes) : Bool := word (slice m 6 2) &&& EventDaemon.flagsSync ≠ 0

/-- A packet is a request of the backend. -/
structure WellFormed (m : Bytes) (len : ℕ) (hdfrcv : Option Bytes) : Prop where
  long : 17 ≤ len
  version : EventDaemon.version m = EventDaemon.protoVer
  event : readEvent m (len - 8) = .ok (some (backend, hdfrcv))

def requestOf (m : Bytes) (hdfrcv : Option Bytes) : Request :=
  ⟨reqCmd (word (slice m 4 2)), (hdfrcv.map env.hdfReadString).getD []⟩

/-- There is one reply if the sender waits for it, and none if it does not. -/
def Obeys (m : Bytes) (len : ℕ) : Prop :=
  ∃ o, parseMessage met env d m len = .ok (some o) ∧ o.replies.length = if sync m then 1 else 0

def onlineEntry (uin : Bytes) : Option UserEntry := (d.utbl uin).filter (·.online)

/-- A user who is online without a server is sent a message. -/
def Astray (m : Message) : Prop :=
  diedAt d m.srcx = false ∧ (onlineEntry (noteSource d m.srcx m.srcuin) m.dstuin).any (·.server = none)

def Survives (q : Request) : Prop :=
  match q.operation with
  | .msgsnd => ∀ m, msgParams q = .ok m → ¬ Astray d m
  | .msgbrd => False
  | .connect => d.slink ≠ none ∨ d.snakeNum = 0
  | _ => True

/-- The server that a message goes to is not there, or cannot be told. -/
def undelivered (q : Request) (m : Message) : Bool :=
  ((onlineEntry (noteSource d m.srcx m.srcuin) m.dstuin).bind (·.server)).any fun server =>
    (d.snake server).all fun s => (met.answer ⟨s.name, m.srcx, .msgsnd, q.hdfrcv⟩).isSome

/-- There is something to say: an error, a server to connect to, or the number of users. -/
def Answered (q : Request) : Prop :=
  match q.operation with
  | .useron | .useroff => ∀ p, userParams q ≠ .ok p
  | .msgsnd => ∀ m, msgParams q = .ok m → diedAt d m.srcx ∨ undelivered met d q m
  | .hb => ∀ p, beatParams q = .ok p → d.snake p.1 = none
  | .msgbrd => False
  | .connect | .state | .other _ => True

end Daemon

variable {met : Surroundings} {env : Replying} {d : Daemon} {q : Request} {m : Bytes} {len : ℕ}

/-- What a command does: it survives in one case, and says something in the other. -/
def Does (x : Except Fault Handled) (survives speaks : Prop) : Prop :=
  match x with
  | .error _ => ¬ survives
  | .ok r => survives ∧ (r.reply ≠ .ok [] ↔ speaks)

theorem forall_ok {α : Type} {a : α} {P : α → Prop} :
    (∀ b, Except.ok (ε := ChatErr) a = .ok b → P b) ↔ P a := by
  constructor
  · exact fun h => h a rfl
  · rintro h b hb
    cases hb
    exact h

theorem extCmdUseron_does : Does (.ok (extCmdUseron d q)) True (∀ p, userParams q ≠ .ok p) := by
  unfold Does extCmdUseron
  cases userParams q with
  | error e => exact ⟨trivial, by simp⟩
  | ok p => exact ⟨trivial, by simp⟩

theorem extCmdUseroff_does : Does (.ok (extCmdUseroff d q)) True (∀ p, userParams q ≠ .ok p) := by
  unfold Does extCmdUseroff
  cases userParams q with
  | error e => exact ⟨trivial, by simp⟩
  | ok p => exact ⟨trivial, by simp⟩

theorem extCmdHb_does : Does (.ok (extCmdHb d q)) True (∀ p, beatParams q = .ok p → d.snake p.1 = none) := by
  unfold Does extCmdHb
  cases beatParams q with
  | error e => exact ⟨trivial, by simp⟩
  | ok p =>
    refine ⟨trivial, ?_⟩
    cases hs : d.snake p.1 with
    | none => simp [hs]
    | some s => simp [hs]

theorem extCmdConnect_does : Does (extCmdConnect d) (d.slink ≠ none ∨ d.snakeNum = 0) True := by
  unfold Does extCmdConnect
  cases d.slink with
  | none =>
    by_cases h : d.snakeNum = 0
    · simp [h]
    · simp [h]
  | some slink =>
    cases h : (d.entries slink).find? (·.state = .running) with
    | none => simp [h]
    | some s => simp [h, hdfSetValue]

theorem passOn_does (met : Surroundings) (d : Daemon) (q : Request) (srcx dstuin : Bytes) :
    Does (passOn met d q srcx dstuin) (¬ (onlineEntry d dstuin).any (·.server = none))
      (((onlineEntry d dstuin).bind (·.server)).any fun server =>
        (d.snake server).all fun s => (met.answer ⟨s.name, srcx, .msgsnd, q.hdfrcv⟩).isSome) := by
  unfold Does passOn onlineEntry
  cases (d.utbl dstuin).filter (·.online) with
  | none => simp
  | some u =>
    cases hu : u.server with
    | none => simp [hu]
    | some server =>
      cases hs : d.snake server with
      | none => simp [hu, hs]
      | some s => cases ha : met.answer ⟨s.name, srcx, .msgsnd, q.hdfrcv⟩ <;> simp [hu, hs, ha]

theorem extCmdMsgsnd_does :
    Does (extCmdMsgsnd met d q) (∀ m, msgParams q = .ok m → ¬ Astray d m)
      (∀ m, msgParams q = .ok m → diedAt d m.srcx ∨ undelivered met d q m) := by
  unfold extCmdMsgsnd
  cases msgParams q with
  | error e => simp [Does]
  | ok m =>
    rw [forall_ok, forall_ok]
    dsimp only
    cases hdied : diedAt d m.srcx with
    | true =>
      have hastray : ¬ Astray d m := by
        rintro ⟨hlives, -⟩
        rw [hdied] at hlives
        cases hlives
      exact ⟨hastray, by simp⟩
    | false =>
      have hpass := passOn_does met (noteSource d m.srcx m.srcuin) q m.srcx m.dstuin
      have hastray : Astray d m ↔
          (onlineEntry (noteSource d m.srcx m.srcuin) m.dstuin).any (·.server = none) = true := by
        unfold Astray
        rw [hdied]
        exact and_iff_right rfl
      have hspeaks : (false = true ∨ undelivered met d q m = true) ↔ undelivered met d q m = true := by simp
      rw [hastray, hspeaks]
      exact hpass

theorem extProcessDriver_does (met : Surroundings) (d : Daemon) (q : Request) :
    Does (extProcessDriver met d q) (Survives d q) (Answered met d q) := by
  unfold extProcessDriver Survives Answered
  cases q.operation with
  | useron => exact extCmdUseron_does
  | useroff => exact extCmdUseroff_does
  | msgsnd => exact extCmdMsgsnd_does
  | msgbrd => exact not_false
  | connect => exact extCmdConnect_does
  | hb => exact extCmdHb_does
  | state => exact ⟨trivial, by simp [extCmdState, hdfSetIntValue, hdfSetValue]⟩
  | other number => exact ⟨trivial, by simp⟩

theorem answerOf_eq_nil {reply : Except ChatErr Dataset} : (answerOf env reply).2 = [] ↔ reply = .ok [] := by
  cases reply with
  | ok hdfsnd => simp [answerOf]
  | error e => simp [answerOf, env.number_lt e, hdfSetIntValue, hdfSetValue]

theorem length_repliesTo {id : Bytes} {reply : Except ChatErr Dataset} :
    (repliesTo env id reply).length = if reply ≠ .ok [] ∧ env.memory then 1 else 0 := by
  unfold repliesTo
  dsimp only
  by_cases h : reply = .ok []
  · rw [if_neg (not_not.mpr (answerOf_eq_nil.mpr h)), if_neg fun hspeaks => hspeaks.1 h]
    rfl
  · rw [if_pos fun hnil => h (answerOf_eq_nil.mp hnil)]
    cases hmem : env.memory with
    | true => simp [h]
    | false => simp

theorem one_or_none_eq {p q : Prop} [Decidable p] [Decidable q] :
    ((if p then 1 else 0) = if q then 1 else 0) ↔ (p ↔ q) := by
  by_cases hp : p
  · by_cases hq : q
    · simp [hp, hq]
    · simp [hp, hq]
  · by_cases hq : q
    · simp [hp, hq]
    · simp [hp, hq]

theorem parseMessage_eq {hdfrcv : Option Bytes} (h : WellFormed m len hdfrcv) :
    parseMessage met env d m len =
      (takeEvent met env d (be 4 (EventDaemon.msgId m)) (requestOf env m hdfrcv)).map some := by
  unfold parseMessage parseEvent
  rw [if_neg (by have := h.long; omega), if_neg (not_not.mpr h.version), h.event]
  exact if_pos rfl

/-- The daemon obeys the flag of a packet exactly if it survives the request and has something to say to those requests
alone that wait for it. -/
theorem obeys_iff {hdfrcv : Option Bytes} (h : WellFormed m len hdfrcv) :
    Obeys met env d m len ↔
      Survives d (requestOf env m hdfrcv) ∧ (sync m ↔ Answered met d (requestOf env m hdfrcv) ∧ env.memory) := by
  have hdoes := extProcessDriver_does met d (requestOf env m hdfrcv)
  unfold Obeys
  rw [parseMessage_eq h]
  unfold takeEvent
  cases hdriver : extProcessDriver met d (requestOf env m hdfrcv) with
  | error f =>
    rw [hdriver] at hdoes
    constructor
    · rintro ⟨o, ho, -⟩
      cases ho
    · rintro ⟨hsurvives, -⟩
      exact absurd hsurvives hdoes
  | ok r =>
    rw [hdriver] at hdoes
    obtain ⟨hsurvives, hspeaks⟩ := hdoes
    have hobeys : ∀ t : Taken, (∃ o, Except.map some (.ok t) = Except.ok (ε := Crash) (some o) ∧
        o.replies.length = if sync m then 1 else 0) ↔ t.replies.length = if sync m then 1 else 0 := by
      intro t
      constructor
      · rintro ⟨o, ho, hlen⟩
        cases ho
        exact hlen
      · exact fun hlen => ⟨t, rfl, hlen⟩
    rw [and_iff_right hsurvives, ← hspeaks]
    refine (hobeys _).trans ?_
    rw [length_repliesTo, one_or_none_eq]
    exact iff_comm

/-- The text `srcx=x`, `uin=u`. -/
def onText : Bytes := [115, 114, 99, 120, 61, 120, 10, 117, 105, 110, 61, 117, 10]

/-- `REQ_CMD_USERON` with a flag for the reply. -/
def onPacket (flags : UInt8) : Bytes :=
  [16, 0, 0, 1, 3, 233, 0, flags, 0, 0, 0, 9] ++ backend ++ [0, 0, 0, 3, 0, 0, 0, 4, 114, 111, 111, 116, 0, 0, 0, 14] ++
    onText ++ [0, 0, 0, 0, 0]

theorem onPacket_wellFormed {flags : UInt8} (h : flags = 0 ∨ flags = 2) :
    WellFormed (onPacket flags) 55 (some onText) := by
  obtain rfl | rfl := h
  · exact ⟨by decide, by decide, by decide⟩
  · exact ⟨by decide, by decide, by decide⟩

def reading : Replying where
  hdfReadString _ := [("srcx", some [120]), ("uin", some [117])]
  number _ := 0
  number_lt _ := by decide
  traceback _ := []
  memory := true

theorem onPacket_request {flags : UInt8} (h : flags = 0 ∨ flags = 2) :
    requestOf reading (onPacket flags) (some onText) = useron [120] [117] := by
  obtain rfl | rfl := h
  · rfl
  · rfl

/-- The daemon has nothing to say to a user who comes on. -/
theorem onPacket_silent {flags : UInt8} (h : flags = 0 ∨ flags = 2) (d : Daemon) :
    parseMessage plain reading d (onPacket flags) 55 =
      .ok (some ⟨[], noticeOthers d (useron [120] [117]) [120] [117], userOn d [120] [117]⟩) := by
  rw [parseMessage_eq (onPacket_wellFormed h), onPacket_request h]
  rfl

/-- Nobody waits for a reply. -/
theorem obeys_onPacket : Obeys plain reading (extStartDriver plain 0 []) (onPacket 0) 55 := by
  refine (obeys_iff (onPacket_wellFormed (.inl rfl))).mpr ?_
  rw [onPacket_request (.inl rfl)]
  refine ⟨trivial, iff_of_false (by decide) ?_⟩
  rintro ⟨hmissing, -⟩
  exact hmissing ([120], [117]) rfl

/-- A sender that waits for a reply waits for ever. -/
theorem not_obeys :
    WellFormed (onPacket 2) 55 (some onText) ∧ ¬ Obeys plain reading (extStartDriver plain 0 []) (onPacket 2) 55 := by
  refine ⟨onPacket_wellFormed (.inr rfl), ?_⟩
  rintro ⟨o, ho, hlen⟩
  rw [onPacket_silent (.inr rfl)] at ho
  cases ho
  rw [if_pos (by decide)] at hlen
  cases hlen

end Cmoon.ChatReplies
