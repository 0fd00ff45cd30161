import Cmoon.PacketWriting
import Cmoon.TcpFraming

/-! # A request on the wire (`mevent_trigger`)

The client writes header, event name and dataset into its payload buffer, behind the room its
transport needs, and `parse_message` takes them apart again. -/
namespace Cmoon.RequestPackets
open DecimalText ByteBuffers EventDaemon PacketWriting

inductive SrvType where
  | tipc | tcp | udp | sctp
  deriving DecidableEq

def srvGetMsgOffset : SrvType → ℕ
  | .tipc => 0
  | .tcp => 4
  | .udp => 0
  | .sctp => 0

/-- `srv_send`, up to the bytes it sends: TCP writes their number into the room before them. -/
def srvSend (type : SrvType) (m : Bytes) (bsize : ℕ) : Option Bytes :=
  match type with
  | .tcp => (store m 0 (be 4 bsize)).map (List.take bsize)
  | _ => some (m.take bsize)

variable {D : Type*} (hdfWriteString : D → Option CString)

/-- The payload buffer as `mevent_trigger` fills it, and `evt->psize`. -/
def fillPayload (payload : Bytes) (moff reqid : ℕ) (ename : CString) (hdfsnd : D) (cmd flags : ℕ) :
    Option (Bytes × ℕ) := do
  let ksize := ename.bytes.length
  let m ← store payload moff (be 4 (protoVer <<< 28 ||| reqid))
  let m ← store m (moff + 4) (be 2 cmd)
  let m ← store m (moff + 6) (be 2 flags)
  let m ← store m (moff + 8) (be 4 ksize)
  let m ← store m (moff + 12) ename.bytes
  let psize := moff + 12 + ksize
  let (m, vsize) ← packHdfAt hdfWriteString m psize hdfsnd maxPacketLen
  let psize := psize + vsize
  if psize < 17 then
    let m ← store m psize (be 4 dataTypeEof)
    return (m, psize + 4)
  else return (m, psize)

def header (reqid cmd flags : ℕ) (ename : CString) : Bytes :=
  be 4 (protoVer <<< 28 ||| reqid) ++ be 2 cmd ++ be 2 flags ++ be 4 ename.bytes.length ++ ename.bytes

/-- The message without what its transport puts in front. -/
def message (reqid cmd flags : ℕ) (ename p : CString) : Bytes :=
  header reqid cmd flags ename ++ packed p maxPacketLen

theorem length_header (reqid cmd flags : ℕ) (ename : CString) :
    (header reqid cmd flags ename).length = 12 + ename.bytes.length := by
  simp only [header, List.length_append, length_be]

theorem length_message (reqid cmd flags : ℕ) (ename p : CString) :
    (message reqid cmd flags ename p).length = 32 + ename.bytes.length + valueSize p maxPacketLen := by
  rw [message, List.length_append, length_header, length_packed]
  omega

/-- All writes of `mevent_trigger` are one write of the message. -/
theorem fillPayload_eq {hdf : D} {p : CString} (hp : hdfWriteString hdf = some p) (payload : Bytes)
    (moff reqid : ℕ) (ename : CString) (cmd flags : ℕ) :
    fillPayload hdfWriteString payload moff reqid ename hdf cmd flags =
      (store payload moff (message reqid cmd flags ename p)).map
        (·, moff + (message reqid cmd flags ename p).length) := by
  have hsize : moff + 12 + ename.bytes.length + (packed p maxPacketLen).length =
      moff + (message reqid cmd flags ename p).length := by
    rw [length_packed, length_message]
    omega
  have hlong : ¬moff + (message reqid cmd flags ename p).length < 17 := by
    rw [length_message]
    omega
  simp only [fillPayload, packHdfAt_eq hdfWriteString hp, bind, pure, Option.map_eq_bind, Option.bind_assoc,
    Function.comp_apply, Option.bind_some, hsize, if_neg hlong]
  rw [store_bind_store (by simp), store_bind_store (by simp), store_bind_store (by simp),
    store_bind_store (by simp), store_bind_store (by simp; omega)]
  rfl

theorem fillPayload_eq_some {hdf : D} {p : CString} (hp : hdfWriteString hdf = some p) {payload : Bytes}
    {moff reqid : ℕ} {ename : CString} {cmd flags : ℕ} {m : Bytes} {psize : ℕ} :
    fillPayload hdfWriteString payload moff reqid ename hdf cmd flags = some (m, psize) ↔
      moff + (message reqid cmd flags ename p).length ≤ payload.length ∧
        m = overwrite payload moff (message reqid cmd flags ename p) ∧
          psize = moff + (message reqid cmd flags ename p).length := by
  rw [fillPayload_eq hdfWriteString hp]
  rcases Nat.lt_or_ge payload.length (moff + (message reqid cmd flags ename p).length) with hlt | hfit
  · simp [store_eq_none.mpr hlt, Nat.not_le_of_lt hlt]
  · simp only [store_eq hfit, hfit, Option.map_some, Option.some.injEq, Prod.mk.injEq, true_and]
    exact and_congr eq_comm eq_comm

/-- What is written in front of a message, over the room kept for it. -/
private theorem take_overwrite_front {m msg w : Bytes} (hfit : w.length + msg.length ≤ m.length) :
    (overwrite (overwrite m w.length msg) 0 w).take (w.length + msg.length) = w ++ msg := by
  have hroom : (m.take w.length).length = w.length := by
    rw [List.length_take]
    omega
  have hdrop : (overwrite m w.length msg).drop w.length = msg ++ m.drop (w.length + msg.length) := by
    rw [overwrite, List.append_assoc, List.drop_left' hroom]
  rw [overwrite_zero, hdrop, ← List.append_assoc, ← List.length_append, List.take_left]

theorem srvSend_message {type : SrvType} {payload msg : Bytes}
    (hfit : srvGetMsgOffset type + msg.length ≤ payload.length) :
    srvSend type (overwrite payload (srvGetMsgOffset type) msg) (srvGetMsgOffset type + msg.length) =
      some (if type = .tcp then TcpFraming.wire msg else msg) := by
  cases type with
  | tcp =>
    have hfit : 4 + msg.length ≤ payload.length := hfit
    have hlen : (overwrite payload 4 msg).length = payload.length := length_overwrite hfit
    have hroom : (be 4 (4 + msg.length)).length + msg.length ≤ payload.length := by simpa using hfit
    have hfront := take_overwrite_front hroom
    rw [length_be] at hfront
    simp only [srvSend, srvGetMsgOffset, if_true]
    rw [store_eq (by rw [length_be, hlen]; omega), Option.map_some, hfront, TcpFraming.wire, Nat.add_comm]
  | tipc => simp [srvSend, srvGetMsgOffset, overwrite_zero]
  | udp => simp [srvSend, srvGetMsgOffset, overwrite_zero]
  | sctp => simp [srvSend, srvGetMsgOffset, overwrite_zero]

section Reading
variable {reqid cmd flags : ℕ} {ename p : CString} (rest : Bytes)

private theorem message_fields :
    message reqid cmd flags ename p ++ rest =
      be 4 (protoVer <<< 28 ||| reqid) ++ (be 2 cmd ++ (be 2 flags ++ (be 4 ename.bytes.length ++
        (ename.bytes ++ (packed p maxPacketLen ++ rest))))) := by
  simp only [message, header, List.append_assoc]

private theorem headerWord (hid : reqid < 2 ^ 28) :
    word (slice (message reqid cmd flags ename p ++ rest) 0 4) = 2 ^ 28 + reqid := by
  have hor : protoVer <<< 28 ||| reqid = 2 ^ 28 + reqid := (Nat.shiftLeft_add_eq_or_of_lt hid protoVer).symm
  have hslice : slice (message reqid cmd flags ename p ++ rest) 0 4 = be 4 (protoVer <<< 28 ||| reqid) :=
    slice_mid (a := []) (message_fields rest) rfl (length_be 4 _).symm
  rw [hslice, hor, word_be_of_lt (by omega)]

theorem version_message (hid : reqid < 2 ^ 28) : version (message reqid cmd flags ename p ++ rest) = protoVer := by
  rw [version, headerWord rest hid, protoVer]
  omega

theorem msgId_message (hid : reqid < 2 ^ 28) : msgId (message reqid cmd flags ename p ++ rest) = reqid := by
  rw [msgId, headerWord rest hid]
  omega

theorem filled_message (hid : reqid < 2 ^ 28) (hcmd : cmd < 2 ^ 16) (hflags : flags < 2 ^ 16) (req : ReqInfo) :
    req.filled (message reqid cmd flags ename p ++ rest) =
      { req with id := be 4 reqid, cmd := cmd, flags := flags } := by
  have hc : slice (message reqid cmd flags ename p ++ rest) 4 2 = be 2 cmd :=
    slice_mid (message_fields rest) (length_be 4 _).symm (length_be 2 _).symm
  have hf : slice (message reqid cmd flags ename p ++ rest) 6 2 = be 2 flags :=
    slice_mid (a := be 4 (protoVer <<< 28 ||| reqid) ++ be 2 cmd)
      ((message_fields rest).trans (by rw [List.append_assoc])) (by simp) (length_be 2 _).symm
  rw [ReqInfo.filled, msgId_message rest hid, hc, hf, word_be_of_lt hcmd, word_be_of_lt hflags]

theorem unpackHdf_message (len : ℕ) :
    unpackHdf (message reqid cmd flags ename p ++ rest) (12 + ename.bytes.length) len =
      .ok ((packed p maxPacketLen).length, some (kept p).bytes) := by
  refine unpackHdf_packed (a := header reqid cmd flags ename) (c := rest) ?_ (length_header ..).symm len
  rw [message, List.append_assoc]

theorem readEvent_message (hfit : (message reqid cmd flags ename p).length ≤ maxPacketLen) :
    readEvent (message reqid cmd flags ename p ++ rest) ((message reqid cmd flags ename p).length - 8) =
      .ok (some (ename.bytes, some (kept p).bytes)) := by
  rw [length_message] at hfit
  have hename : ename.bytes.length < 2 ^ 32 := by
    simp only [maxPacketLen] at hfit
    omega
  have hesize : wordAt (message reqid cmd flags ename p ++ rest) 8 = some ename.bytes.length :=
    wordAt_mid (a := be 4 (protoVer <<< 28 ||| reqid) ++ be 2 cmd ++ be 2 flags)
      ((message_fields rest).trans (by rw [List.append_assoc, List.append_assoc])) (by simp) hename
  have hename' : slice (message reqid cmd flags ename p ++ rest) 12 ename.bytes.length = ename.bytes :=
    slice_mid (a := be 4 (protoVer <<< 28 ||| reqid) ++ be 2 cmd ++ be 2 flags ++ be 4 ename.bytes.length)
      ((message_fields rest).trans (by rw [List.append_assoc, List.append_assoc, List.append_assoc])) (by simp) rfl
  have hgood : ¬((packed p maxPacketLen).length = 0 ∨
      ((packed p maxPacketLen).length + ename.bytes.length) % 2 ^ 32 + 4 > maxPacketLen ∨
      (message reqid cmd flags ename p).length - 8 < ename.bytes.length) := by
    rw [length_packed, length_message]
    omega
  simp only [readEvent, hesize, inside, unpackHdf_message, bind, Except.bind, pure, Except.pure, hename', if_neg hgood]

/-- `parse_message` passes on what the client put into the message. -/
theorem parseMessage_message (hfit : (message reqid cmd flags ename p).length ≤ maxPacketLen) (hid : reqid < 2 ^ 28) (hcmd : cmd < 2 ^ 16)
    (hflags : flags < 2 ^ 16) (d : Daemon) (env : Env) (req : ReqInfo) :
    parseMessage d env req (message reqid cmd flags ename p ++ rest) (message reqid cmd flags ename p).length =
      (takeEvent d env { req with id := be 4 reqid, cmd := cmd, flags := flags }
        (some (ename.bytes, some (kept p).bytes))).map (·, 1) := by
  have hlong : ¬(message reqid cmd flags ename p).length < 17 := by
    rw [length_message]
    omega
  rw [parseMessage, if_neg hlong, if_neg (not_not.mpr (version_message rest hid)), parseEvent,
    readEvent_message rest hfit, filled_message rest hid hcmd hflags]
  rfl

end Reading

end Cmoon.RequestPackets
