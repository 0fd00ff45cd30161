import Cmoon.ByteBuffers
import Cmoon.OneAtATimeHash
import Mathlib.Logic.Function.Basic

/-! # The event daemon: requests, plugins and their queues

`packet.c`, `reply.c`, `parse.c` and the plugin table of `mevent.c`. A message is the
receive buffer from its first byte on together with its length, so a read past the
message sees what the buffer holds there and a read past the buffer is a fault. -/
namespace Cmoon.EventDaemon
open DecimalText OneAtATimeHash ByteBuffers

/-- What leaves the behaviour of C: a read outside the receive buffer, or of a field which
nothing has set. -/
inductive Fault where
  | outside
  | unset
  deriving DecidableEq, Repr

structure Stats where
  msgTipc : ℕ
  msgTcp : ℕ
  msgUdp : ℕ
  msgSctp : ℕ
  netVersionMismatch : ℕ
  netBrokenReq : ℕ
  netUnkReq : ℕ
  proBusy : ℕ
  deriving DecidableEq, Repr

inductive ReqType where
  | tipc | tcp | udp | sctp
  deriving DecidableEq, Repr

/-- `struct req_info`; `id` is the word as it lies in memory, which is how it is sent. -/
structure ReqInfo where
  fd : ℤ
  type : ReqType
  clisa : Bytes
  id : Bytes
  cmd : ℕ
  flags : ℕ
  deriving DecidableEq, Repr

def flagsSync : ℕ := 2

/-- `FILL_SYNC_FLAG` -/
def ReqInfo.sync (req : ReqInfo) : Bool := req.flags &&& flagsSync ≠ 0

/-- The codes the daemon itself replies with (`REP_OK`, `REP_ERR_VER`, ...). -/
inductive Rep where
  | ok | errVer | errBroken | errUnkreq | errMem | errBusy | errPack
  deriving DecidableEq, Repr

/-- A call of `reply_mini` or `reply_long` of a request. -/
inductive Reply where
  | mini (req : ReqInfo) (reply : Rep)
  | long (req : ReqInfo) (reply : Rep) (val : Bytes)
  deriving DecidableEq, Repr

/-- `struct queue_entry`; of the received dataset, the text it is read from. -/
structure QueueEntry where
  operation : ℕ
  req : ReqInfo
  ename : Bytes
  hdfrcv : Option Bytes
  deriving DecidableEq, Repr

/-- A plugin: its name and which queue is its own. -/
structure EventEntry where
  name : Bytes
  opQueue : ℕ
  deriving DecidableEq, Repr

def hashlen : ℕ := 16
def chainlen : ℕ := 1000000

structure MEvent where
  numevts : ℕ
  table : Vector (List EventEntry) hashlen

def slot (name : Bytes) : Fin hashlen := ⟨bucket hashlen name, bucket_lt (by decide) name⟩

/-- `mevent_start_driver`: a full chain stops the plugin again. -/
def meventStartDriver (evt : MEvent) (e : EventEntry) : MEvent × Bool :=
  let c := evt.table[slot e.name]
  if c.length ≤ chainlen then
    ({ evt with table := evt.table.set (slot e.name) (e :: c) }, true)
  else (evt, false)

/-- `mevent_start` over the configured plugins; `none` is one whose library cannot be opened
or whose `init_driver` fails. Each started plugin gets the next queue. -/
def startAll : MEvent → ℕ → List (Option Bytes) → MEvent
  | evt, _, [] => evt
  | evt, q, none :: ds => startAll evt q ds
  | evt, q, some name :: ds =>
    match meventStartDriver evt ⟨name, q⟩ with
    | (evt, true) => startAll { evt with numevts := evt.numevts + 1 } (q + 1) ds
    | (evt, false) => startAll evt (q + 1) ds

def meventStart (drivers : List (Option Bytes)) : MEvent :=
  startAll ⟨0, Vector.replicate hashlen []⟩ 0 drivers

def findEntryInTable (evt : MEvent) (key : Bytes) : Option EventEntry :=
  evt.table[slot key].find? fun e => e.name = key

/-- The daemon as one network thread sees it; a queue lists its entries from the one
`queue_get` returns next, and `sent` the replies so far. -/
structure Daemon where
  stats : Stats
  mevent : MEvent
  queues : ℕ → List QueueEntry
  sent : List Reply

def Daemon.initial (drivers : List (Option Bytes)) : Daemon :=
  ⟨⟨0, 0, 0, 0, 0, 0, 0, 0⟩, meventStart drivers, fun _ => [], []⟩

def Daemon.reply (d : Daemon) (r : Reply) : Daemon := { d with sent := d.sent ++ [r] }

/-- `if (sync) req->reply_mini(req, code);` -/
def Daemon.replyIf (d : Daemon) (sync : Bool) (req : ReqInfo) (code : Rep) : Daemon :=
  if sync then d.reply (.mini req code) else d

/-- A dataset of integers, as `parse_stats` fills one. -/
abbrev Dataset := List (String × ℤ)

/-- What the code around the daemon does in one call: which allocations succeed, and the
text `hdf_write_string` makes of a dataset. -/
structure Env where
  entry : Bool
  ename : Bool
  req : Bool
  clisa : Bool
  buf : Bool
  hdfWriteString : Dataset → Option Bytes

def Env.plenty (write : Dataset → Option Bytes) : Env := ⟨true, true, true, true, true, write⟩

def maxPacketLen : ℕ := 64 * 1024
def reserveSize : ℕ := 512
def dataTypeEof : ℕ := 0
def dataTypeString : ℕ := 3

/-- `pack_data_str`, without the zero byte it puts behind what it returns the size of. -/
def packDataStr (key : Bytes) (val : Option Bytes) (len : ℕ) : Bytes :=
  let vsize := match val with
    | none => 0
    | some v => v.length + 1
  let vsize := if vsize > len - reserveSize then len - reserveSize else vsize
  be 4 dataTypeString ++ be 4 key.length ++ key ++ be 4 vsize ++ ((val.getD []) ++ [0]).take vsize

def rootName : Bytes := [114, 111, 111, 116]

def packHdf (env : Env) (hdf : Dataset) (len : ℕ) : Option Bytes :=
  (env.hdfWriteString hdf).map fun p => packDataStr rootName (some p) len ++ be 4 dataTypeEof

def replyTrigger (d : Daemon) (env : Env) (req : ReqInfo) (hdfsnd : Dataset) (reply : Rep) : Daemon :=
  if hdfsnd = [] then d.reply (.mini req reply)
  else if !env.buf then d.reply (.mini req .errMem)
  else
    match packHdf env hdfsnd maxPacketLen with
    | none => d.reply (.mini req .errPack)
    | some buf => d.reply (.long req reply buf)

/-- The dataset of `parse_stats`; `hdf_set_int_value` takes an `int`. -/
def statsData (s : Stats) : Dataset :=
  [("msg_tipc", wrap 32 s.msgTipc), ("msg_tcp", wrap 32 s.msgTcp), ("msg_udp", wrap 32 s.msgUdp),
    ("msg_sctp", wrap 32 s.msgSctp), ("net_version_mismatch", wrap 32 s.netVersionMismatch),
    ("net_broken_req", wrap 32 s.netBrokenReq), ("net_unk_req", wrap 32 s.netUnkReq),
    ("pro_busy", wrap 32 s.proBusy)]

def parseStats (d : Daemon) (env : Env) (q : QueueEntry) : Daemon :=
  replyTrigger d env q.req (statsData d.stats) .ok

/-- `make_queue_long_entry`. When the name cannot be copied, `queue_entry_free` reads `e->req`
before anything was stored there. -/
def makeQueueLongEntry (env : Env) (req : ReqInfo) (ename : Bytes) (hdfrcv : Option Bytes) :
    Except Fault (Option QueueEntry) :=
  if !env.entry then .ok none
  else if !env.ename then .error .unset
  else if !env.req then .ok none
  else if !env.clisa then .ok none
  else .ok (some { operation := req.cmd, req := req, ename := ename, hdfrcv := hdfrcv })

def queuePut (q : List QueueEntry) (e : QueueEntry) : List QueueEntry := q ++ [e]
def queueCas (q : List QueueEntry) (e : QueueEntry) : List QueueEntry := e :: q

def maxQueueEntry : ℕ := 1048576

def busy (q : List QueueEntry) : Bool := q.length > maxQueueEntry && q.length % 100 = 0

def reserveStatus : Bytes := [82, 101, 115, 101, 114, 118, 101, 46, 83, 116, 97, 116, 117, 115]

def putInQueueLong (d : Daemon) (env : Env) (req : ReqInfo) (sync : Bool) (ename : Bytes)
    (hdfrcv : Option Bytes) : Except Fault (Daemon × ℕ) :=
  match findEntryInTable d.mevent ename with
  | none =>
    if strncmpEq ename reserveStatus ename.length then do
      match ← makeQueueLongEntry env req ename hdfrcv with
      | none => return (d, 0)
      | some e => return (parseStats d env e, 1)
    else
      let d := { d with stats := { d.stats with netUnkReq := d.stats.netUnkReq + 1 } }
      return (d.replyIf sync req .errUnkreq, 1)
  | some entry =>
    let q := d.queues entry.opQueue
    if busy q then
      let d := { d with stats := { d.stats with proBusy := d.stats.proBusy + 1 } }
      return (d.replyIf sync req .errBusy, 1)
    else do
      match ← makeQueueLongEntry env req ename hdfrcv with
      | none => return (d, 0)
      | some e =>
        let q := if sync then queueCas q e else queuePut q e
        return ({ d with queues := Function.update d.queues entry.opQueue q }, 1)

/-- A read which leaves the receive buffer. -/
def inside {α : Type} (r : Option α) : Except Fault α :=
  match r with
  | none => .error .outside
  | some a => .ok a

/-- `unpack_data_str` at the offset `pos`, with the offset of the value; the length it is
given is not looked at. -/
def unpackDataStr (m : Bytes) (pos _len : ℕ) : Except Fault (ℕ × Option ℕ) := do
  let vtype ← inside (wordAt m pos)
  if vtype ≠ dataTypeString then return (0, none)
  else
    let ksize ← inside (wordAt m (pos + 4))
    let vsize ← inside (wordAt m (pos + 8 + ksize))
    return ((16 + ksize + vsize) % 2 ^ 32, some (pos + 12 + ksize))

/-- `unpack_hdf`, with the text `hdf_read_string` is called on. -/
def unpackHdf (m : Bytes) (pos len : ℕ) : Except Fault (ℕ × Option Bytes) := do
  let (ttsize, val) ← unpackDataStr m pos len
  match val with
  | none => return (ttsize, none)
  | some p => return (ttsize, some (← inside (cstrAt m p)))

/-- What `parse_event` reads of a message whose payload of `psize` bytes starts at offset 8: the
event name and the body, or nothing when the request is broken. -/
def readEvent (m : Bytes) (psize : ℕ) : Except Fault (Option (Bytes × Option Bytes)) := do
  let esize ← inside (wordAt m 8)
  let (rsize, hdfrcv) ← unpackHdf m (12 + esize) (psize - esize - 4)
  if rsize = 0 ∨ (rsize + esize) % 2 ^ 32 + 4 > maxPacketLen ∨ psize < esize then return none
  else return some (slice m 12 esize, hdfrcv)

/-- What `parse_event` does with what it read. -/
def takeEvent (d : Daemon) (env : Env) (req : ReqInfo) :
    Option (Bytes × Option Bytes) → Except Fault Daemon
  | none =>
    let d := { d with stats := { d.stats with netBrokenReq := d.stats.netBrokenReq + 1 } }
    .ok (d.replyIf req.sync req .errBroken)
  | some (ename, hdfrcv) => do
    let (d, rv) ← putInQueueLong d env req req.sync ename hdfrcv
    return if rv = 0 then d.replyIf req.sync req .errMem else d

def parseEvent (d : Daemon) (env : Env) (req : ReqInfo) (m : Bytes) (psize : ℕ) :
    Except Fault Daemon := do
  takeEvent d env req (← readEvent m psize)

def protoVer : ℕ := 1

def version (m : Bytes) : ℕ := word (slice m 0 4) / 2 ^ 28

def msgId (m : Bytes) : ℕ := word (slice m 0 4) % 2 ^ 28

/-- The request with its id still in host order, least significant byte first. -/
def ReqInfo.hostId (req : ReqInfo) (m : Bytes) : ReqInfo := { req with id := (be 4 (msgId m)).reverse }

def ReqInfo.filled (req : ReqInfo) (m : Bytes) : ReqInfo :=
  { req with id := be 4 (msgId m), cmd := word (slice m 4 2), flags := word (slice m 6 2) }

/-- `parse_message` on the first `len` bytes of `m`. -/
def parseMessage (d : Daemon) (env : Env) (req : ReqInfo) (m : Bytes) (len : ℕ) :
    Except Fault (Daemon × ℕ) :=
  if len < 17 then
    let d := { d with stats := { d.stats with netBrokenReq := d.stats.netBrokenReq + 1 } }
    .ok (d.reply (.mini req .errBroken), 0)
  else if version m ≠ protoVer then
    let d := { d with stats := { d.stats with netVersionMismatch := d.stats.netVersionMismatch + 1 } }
    .ok (d.reply (.mini (req.hostId m) .errVer), 0)
  else do
    let d ← parseEvent d env (req.filled m) m (len - 8)
    return (d, 1)

end Cmoon.EventDaemon
