import Cmoon.PacketWriting

/-! # Replies on the wire (`reply.c`, `tcp.c`, `udp.c`)

A reply is a code alone or a code with a value. The datagram transports send the same bytes, TCP puts
their number in front. The id is copied from the request as it lies there. -/
namespace Cmoon.ReplyPackets
open DecimalText ByteBuffers EventDaemon PacketWriting

/-- The numbers of the codes (`REP_OK`, and the errors as `merr_init` registers them). -/
def repCode : Rep → ℕ
  | .ok => 1000
  | .errVer => 15
  | .errBroken => 17
  | .errUnkreq => 18
  | .errMem => 19
  | .errBusy => 21
  | .errPack => 22

def repErr : ℕ := 14

def repErrSend : ℕ := 16

def tcpReplyMini (id : Bytes) (reply : ℕ) : Bytes := be 4 12 ++ id ++ be 4 reply

def udpReplyMini (id : Bytes) (reply : ℕ) : Bytes := id ++ be 4 reply

def tipcReplyMini : Bytes → ℕ → Bytes := udpReplyMini
def sctpReplyMini : Bytes → ℕ → Bytes := udpReplyMini

def tcpReplyLong (id : Bytes) (reply : ℕ) (val : Option Bytes) : Bytes :=
  match val with
  | none => tcpReplyMini id reply
  | some val => be 4 (16 + val.length) ++ id ++ be 4 reply ++ be 4 val.length ++ val

def udpReplyLong (id : Bytes) (reply : ℕ) (val : Option Bytes) : Bytes :=
  match val with
  | none => udpReplyMini id reply
  | some val => id ++ be 4 reply ++ be 4 val.length ++ val

def tipcReplyLong : Bytes → ℕ → Option Bytes → Bytes := udpReplyLong
def sctpReplyLong : Bytes → ℕ → Option Bytes → Bytes := udpReplyLong

/-- `req->reply_mini` -/
def replyMini : ReqType → Bytes → ℕ → Bytes
  | .tipc => tipcReplyMini
  | .tcp => tcpReplyMini
  | .udp => udpReplyMini
  | .sctp => sctpReplyMini

/-- `req->reply_long` -/
def replyLong : ReqType → Bytes → ℕ → Option Bytes → Bytes
  | .tipc => tipcReplyLong
  | .tcp => tcpReplyLong
  | .udp => udpReplyLong
  | .sctp => sctpReplyLong

def idOffset : ReqType → ℕ
  | .tcp => 4
  | _ => 0

def idWord (type : ReqType) (packet : Bytes) : Bytes := slice packet (idOffset type) 4

def reqOf : Reply → ReqInfo
  | .mini req _ => req
  | .long req _ _ => req

def packetOf : Reply → Bytes
  | .mini req reply => replyMini req.type req.id (repCode reply)
  | .long req reply val => replyLong req.type req.id (repCode reply) (some val)

section IdWords
variable {id : Bytes} (hid : id.length = 4)
include hid

theorem idWord_replyMini (type : ReqType) (reply : ℕ) : idWord type (replyMini type id reply) = id := by
  cases type with
  | tcp => exact slice_mid (a := be 4 12) (c := be 4 reply) (List.append_assoc ..) (length_be 4 12).symm hid.symm
  | _ => exact slice_mid (a := []) (c := be 4 reply) rfl rfl hid.symm

theorem idWord_replyLong (type : ReqType) (reply : ℕ) (val : Option Bytes) :
    idWord type (replyLong type id reply val) = id := by
  cases val with
  | none => cases type <;> exact idWord_replyMini hid _ reply
  | some val =>
    cases type with
    | tcp =>
      refine slice_mid (a := be 4 (16 + val.length)) (c := be 4 reply ++ be 4 val.length ++ val) ?_
        (length_be 4 _).symm hid.symm
      simp only [replyLong, tcpReplyLong, List.append_assoc]
    | _ =>
      refine slice_mid (a := []) (c := be 4 reply ++ be 4 val.length ++ val) ?_ rfl hid.symm
      simp only [replyLong, tipcReplyLong, sctpReplyLong, udpReplyLong, List.append_assoc, List.nil_append]

end IdWords

theorem idWord_packetOf {r : Reply} (hid : (reqOf r).id.length = 4) :
    idWord (reqOf r).type (packetOf r) = (reqOf r).id := by
  cases r with
  | mini req reply => exact idWord_replyMini hid _ _
  | long req reply val => exact idWord_replyLong hid _ _ _

/-- The call of `req->reply_mini` or `req->reply_long`. -/
inductive Replied where
  | mini (reply : ℕ)
  | long (reply : ℕ) (val : Bytes)
  deriving DecidableEq

def Replied.packet (type : ReqType) (id : Bytes) : Replied → Bytes
  | .mini reply => replyMini type id reply
  | .long reply val => replyLong type id reply (some val)

theorem idWord_packet {id : Bytes} (hid : id.length = 4) (type : ReqType) (r : Replied) :
    idWord type (r.packet type id) = id := by
  cases r with
  | mini reply => exact idWord_replyMini hid type reply
  | long reply val => exact idWord_replyLong hid type reply _

variable {D : Type*} (hdfObjChild : D → Bool) (hdfWriteString : D → Option CString)

/-- `reply_trigger`, given whether `calloc` succeeds; `none` is a write outside its buffer. -/
def replyTrigger (calloc : Bool) (hdfsnd : Option D) (reply : ℕ) : Option (Replied × ℕ) :=
  match hdfsnd with
  | none => some (.mini reply, 1)
  | some hdf =>
    if !hdfObjChild hdf then some (.mini reply, 1)
    else if !calloc then some (.mini (repCode .errMem), 0)
    else do
      let (buf, vsize) ← packHdfAt hdfWriteString (List.replicate maxPacketLen 0) 0 hdf maxPacketLen
      if vsize = 0 then return (.mini (repCode .errPack), 0)
      else return (.long reply (buf.take vsize), 1)

/-- What `reply_trigger` replies. -/
def replied (calloc : Bool) (hdfsnd : Option D) (reply : ℕ) : Replied × ℕ :=
  match hdfsnd with
  | none => (.mini reply, 1)
  | some hdf =>
    if !hdfObjChild hdf then (.mini reply, 1)
    else if !calloc then (.mini (repCode .errMem), 0)
    else
      match hdfWriteString hdf with
      | none => (.mini (repCode .errPack), 0)
      | some p => (.long reply (packed p maxPacketLen), 1)

/-- `reply_trigger` stays inside its buffer, whatever the size of the dataset. -/
theorem replyTrigger_eq (calloc : Bool) (hdfsnd : Option D) (reply : ℕ) :
    replyTrigger hdfObjChild hdfWriteString calloc hdfsnd reply =
      some (replied hdfObjChild hdfWriteString calloc hdfsnd reply) := by
  cases hdfsnd with
  | none => rfl
  | some hdf =>
    cases hchild : hdfObjChild hdf with
    | false => simp [replyTrigger, replied, hchild]
    | true =>
      cases calloc with
      | false => simp [replyTrigger, replied, hchild]
      | true =>
        cases hwrite : hdfWriteString hdf with
        | none => simp [replyTrigger, replied, hchild, hwrite, packHdfAt]
        | some p =>
          obtain ⟨m, hpack, hbytes⟩ := packHdfAt_zero hdfWriteString hwrite
            (m := List.replicate maxPacketLen 0) List.length_replicate
          have hsize : (packed p maxPacketLen).length ≠ 0 := by
            rw [length_packed]
            omega
          simp [replyTrigger, replied, hchild, hwrite, hpack, hbytes, hsize]

theorem replyTrigger_daemon {env : Env} {write : Dataset → Option CString}
    (henv : ∀ hdf, env.hdfWriteString hdf = (write hdf).map CString.bytes) (d : Daemon) (req : ReqInfo)
    (hdf : Dataset) (reply : Rep) :
    (EventDaemon.replyTrigger d env req hdf reply).sent.map packetOf =
      d.sent.map packetOf ++
        [(replied (fun hdf => hdf ≠ []) write env.buf (some hdf) (repCode reply)).1.packet req.type req.id] := by
  by_cases hnil : hdf = []
  · simp [EventDaemon.replyTrigger, replied, hnil, Daemon.reply, packetOf, Replied.packet]
  · cases hbuf : env.buf with
    | false => simp [EventDaemon.replyTrigger, replied, hnil, hbuf, Daemon.reply, packetOf, Replied.packet]
    | true =>
      cases hwrite : write hdf with
      | none =>
        simp [EventDaemon.replyTrigger, replied, hnil, hbuf, packHdf, henv, hwrite, Daemon.reply, packetOf,
          Replied.packet]
      | some p =>
        simp [EventDaemon.replyTrigger, replied, hnil, hbuf, packHdf, henv, hwrite, Daemon.reply, packetOf,
          Replied.packet, packed]

end Cmoon.ReplyPackets
