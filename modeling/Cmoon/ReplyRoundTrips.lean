import Cmoon.ClientSockets
import Cmoon.ReplyPackets

/-! # From `reply_trigger` to the caller of `mevent_trigger`

The client tells a code alone from a code with a dataset by the size of the payload, and skips the value
size the daemon has put in front of the dataset. -/
namespace Cmoon.ReplyRoundTrips
open DecimalText ByteBuffers EventDaemon PacketWriting ReplyPackets ClientSockets CutSequences

section Client
variable {D : Type} (hdfReadString : D → Bytes → D) (hdfInit : D)

/-- `mevent_trigger` from `get_rep` on: what it returns and `evt->hdfrcv`. The payload starts at byte `p`
of the receive buffer. -/
def takeReply (p : ℕ) (reply vsize : ℕ) (buf : Bytes) : Except Fault (ℕ × D) := do
  let rv := if reply = noReply then repErr else reply
  if vsize > 8 then
    let (_, val) ← unpackHdf buf (p + 4) (vsize - 4)
    match val with
    | none => return (rv, hdfInit)
    | some t => return (rv, hdfReadString hdfInit t)
  else return (rv, hdfInit)

def tcpReceive (greqid : ℕ) (buf : Bytes) (s : Socket) : Except Fault (ℕ × D) :=
  let ((reply, vsize), buf, _) := tcpGetRep greqid buf s
  takeReply hdfReadString hdfInit 12 reply vsize buf

def udpReceive (greqid : ℕ) (buf : Bytes) (s : List (Option Bytes)) : Except Fault (ℕ × D) :=
  let ((reply, vsize), buf, _) := udpGetRep greqid buf s
  takeReply hdfReadString hdfInit 8 reply vsize buf

end Client

/-- What stands behind id and code. -/
def payload : Replied → Bytes
  | .mini _ => []
  | .long _ val => be 4 val.length ++ val

def code : Replied → ℕ
  | .mini reply => reply
  | .long reply _ => reply

/-- A value of `pack_hdf` leaves room for the words in front. -/
theorem length_payload_long (reply : ℕ) (t : CString) :
    12 + (payload (.long reply (packed t maxPacketLen))).length ≤ maxPacketLen := by
  have hsize := valueSize_le t
  rw [payload, List.length_append, length_be, length_packed]
  simp only [maxPacketLen] at hsize ⊢
  omega

def frameOf (r : Replied) (reqid : ℕ) (hid : reqid < 2 ^ 32) (hcode : code r < 2 ^ 32)
    (hfits : 12 + (payload r).length ≤ maxPacketLen) : RepFrame := ⟨reqid, code r, payload r, hid, hcode, hfits⟩

section Packets
variable {r : Replied} {reqid : ℕ}

theorem packet_tcp (hid : reqid < 2 ^ 32) (hcode : code r < 2 ^ 32) (hfits : 12 + (payload r).length ≤ maxPacketLen) :
    r.packet .tcp (be 4 reqid) = (frameOf r reqid hid hcode hfits).bytes := by
  cases r with
  | mini reply => simp [Replied.packet, replyMini, tcpReplyMini, frameOf, RepFrame.bytes, payload, code]
  | long reply val =>
    have hlen : 16 + val.length = 12 + (4 + val.length) := by omega
    simp [Replied.packet, replyLong, tcpReplyLong, frameOf, RepFrame.bytes, payload, code, hlen]

theorem packet_udp : r.packet .udp (be 4 reqid) = be 4 reqid ++ be 4 (code r) ++ payload r := by
  cases r with
  | mini reply => simp [Replied.packet, replyMini, udpReplyMini, payload, code]
  | long reply val => simp [Replied.packet, replyLong, udpReplyLong, payload, code]

/-- `tcp_get_rep` on the frame alone, however it is cut: code and payload. -/
theorem tcpGetRep_packet {cs : List Bytes} (hcs : Pieces cs) (hid : reqid < 2 ^ 32) (hcode : code r < 2 ^ 32)
    (hfits : 12 + (payload r).length ≤ maxPacketLen) (hflat : cs.flatten = r.packet .tcp (be 4 reqid)) (buf : Bytes) :
    ∃ buf' s, tcpGetRep reqid buf (arriving cs []) = ((code r, (payload r).length), buf', s) ∧
      slice buf' 12 (payload r).length = payload r := by
  have hframe : cs.flatten = (frameOf r reqid hid hcode hfits).bytes ++ [] := by
    rw [hflat, packet_tcp hid hcode hfits, List.append_nil]
  have hfirst : firstRead cs ≤ (frameOf r reqid hid hcode hfits).bytes.length := by
    have hle := firstRead_le cs
    rwa [hframe, List.append_nil] at hle
  obtain ⟨buf', hget, hslice⟩ := tcpGetRep_frame [] hcs hframe (Nat.le_refl reqid) hfirst buf
  exact ⟨buf', _, hget, hslice⟩

/-- `udp_get_rep` on a datagram: a smaller id is passed over, else it gives code and payload. -/
theorem udpGetRep_cons (hid : reqid < 2 ^ 32) (hcode : code r < 2 ^ 32) (hfits : 12 + (payload r).length ≤ maxPacketLen)
    (greqid : ℕ) (buf : Bytes) (s : List (Option Bytes)) :
    ∃ buf', udpGetRep greqid buf (some (r.packet .udp (be 4 reqid)) :: s) =
        (if reqid < greqid then udpGetRep greqid buf' s else ((code r, (payload r).length), buf', s)) ∧
      slice buf' 8 (payload r).length = payload r := by
  have hlen : (r.packet .udp (be 4 reqid)).length = 8 + (payload r).length := by
    rw [packet_udp]
    simp only [List.length_append, length_be]
  have hwhole : (r.packet .udp (be 4 reqid)).take maxPacketLen = r.packet .udp (be 4 reqid) :=
    List.take_of_length_le (by omega)
  have hbuf : overwrite buf 0 (r.packet .udp (be 4 reqid)) =
      be 4 reqid ++ (be 4 (code r) ++ (payload r ++ buf.drop (8 + (payload r).length))) := by
    rw [overwrite_zero, hlen, packet_udp]
    simp only [List.append_assoc]
  have hidw : slice (overwrite buf 0 (r.packet .udp (be 4 reqid))) 0 4 = be 4 reqid :=
    slice_mid (a := []) hbuf rfl (length_be 4 _).symm
  have hreply : slice (overwrite buf 0 (r.packet .udp (be 4 reqid))) 4 4 = be 4 (code r) :=
    slice_mid hbuf (length_be 4 _).symm (length_be 4 _).symm
  have hreqid : word (be 4 reqid) = reqid := word_be_of_lt hid
  have hcode' : word (be 4 (code r)) = code r := word_be_of_lt hcode
  refine ⟨overwrite buf 0 (r.packet .udp (be 4 reqid)), ?_, ?_⟩
  · rw [udpGetRep]
    simp only [hwhole, hidw, hreply, hlen, hreqid, hcode']
    rw [if_neg (by omega), Nat.add_sub_cancel_left]
  · exact slice_mid (a := be 4 reqid ++ be 4 (code r)) (hbuf.trans (List.append_assoc ..).symm) (by simp) rfl

theorem udpGetRep_packet (hid : reqid < 2 ^ 32) (hcode : code r < 2 ^ 32)
    (hfits : 12 + (payload r).length ≤ maxPacketLen) (buf : Bytes) (s : List (Option Bytes)) :
    ∃ buf', udpGetRep reqid buf (some (r.packet .udp (be 4 reqid)) :: s) = ((code r, (payload r).length), buf', s) ∧
      slice buf' 8 (payload r).length = payload r := by
  obtain ⟨buf', hget, hslice⟩ := udpGetRep_cons hid hcode hfits reqid buf s
  rw [if_neg (Nat.lt_irrefl reqid)] at hget
  exact ⟨buf', hget, hslice⟩

end Packets

section Taking
variable {D : Type} (hdfReadString : D → Bytes → D) (hdfInit : D) {p reply : ℕ} {buf : Bytes}

theorem takeReply_mini : takeReply hdfReadString hdfInit p reply 0 buf =
    .ok (if reply = noReply then repErr else reply, hdfInit) := rfl

/-- A value is the dataset's packet with its size in front. -/
theorem takeReply_long {t : CString}
    (hslice : slice buf p (payload (.long reply (packed t maxPacketLen))).length =
      payload (.long reply (packed t maxPacketLen))) :
    takeReply hdfReadString hdfInit p reply (payload (.long reply (packed t maxPacketLen))).length buf =
      .ok (if reply = noReply then repErr else reply, hdfReadString hdfInit (kept t).bytes) := by
  have hlen : (payload (.long reply (packed t maxPacketLen))).length = 24 + valueSize t maxPacketLen := by
    rw [payload, List.length_append, length_be, length_packed]
    omega
  obtain ⟨hmid, hoff⟩ := mid_of_slice (List.ne_nil_of_length_pos (by omega)) hslice
  have hbuf : buf = buf.take p ++ be 4 (packed t maxPacketLen).length ++
      (packed t maxPacketLen ++ buf.drop (p + (payload (.long reply (packed t maxPacketLen))).length)) :=
    hmid.trans (by simp only [payload, List.append_assoc])
  have hpos : p + 4 = (buf.take p ++ be 4 (packed t maxPacketLen).length).length := by
    rw [List.length_append, length_be, ← hoff]
  have hunpack := unpackHdf_packed hbuf hpos ((payload (.long reply (packed t maxPacketLen))).length - 4)
  rw [takeReply]
  simp only [hunpack, bind, Except.bind, pure, Except.pure]
  rw [if_pos (by omega)]

/-- What the client makes of a payload it makes of the reply that carries it, on either transport. -/
theorem receive_packet (r : Replied) {reqid : ℕ} (hid : reqid < 2 ^ 28) (hcode : code r < 2 ^ 32)
    (hfits : 12 + (payload r).length ≤ maxPacketLen) {v : Except Fault (ℕ × D)}
    (htake : ∀ p buf, slice buf p (payload r).length = payload r →
      takeReply hdfReadString hdfInit p (code r) (payload r).length buf = v) (buf : Bytes) :
    (∀ cs, Pieces cs → cs.flatten = r.packet .tcp (be 4 reqid) →
      tcpReceive hdfReadString hdfInit reqid buf (arriving cs []) = v) ∧
    ∀ s, udpReceive hdfReadString hdfInit reqid buf (some (r.packet .udp (be 4 reqid)) :: s) = v := by
  have hid : reqid < 2 ^ 32 := by omega
  refine ⟨fun cs hcs hflat => ?_, fun s => ?_⟩
  · obtain ⟨buf', s, hget, hslice⟩ := tcpGetRep_packet hcs hid hcode hfits hflat buf
    rw [tcpReceive, hget]
    exact htake 12 buf' hslice
  · obtain ⟨buf', hget, hslice⟩ := udpGetRep_packet hid hcode hfits buf s
    rw [udpReceive, hget]
    exact htake 8 buf' hslice

end Taking

section RoundTrip
variable {D : Type} (hdfObjChild : D → Bool) (hdfWriteString : D → Option CString)
  (hdfReadString : D → Bytes → D) (hdfInit : D)

/-- What the caller should get: the plugin's dataset, or an empty one when it has none. -/
def expected (hdfsnd : Option D) : D :=
  match hdfsnd with
  | none => hdfInit
  | some hdf => if hdfObjChild hdf then hdf else hdfInit

/-- For every other code than -1 and every dataset that `pack_hdf` does not cut, the caller gets code and
dataset as the plugin gave them, over TCP however the frame is cut, and over UDP. -/
theorem reply_roundTrip (hinv : ∀ hdf t, hdfWriteString hdf = some t → hdfReadString hdfInit t.bytes = hdf)
    {hdfsnd : Option D} (htext : ∀ hdf ∈ hdfsnd, ∃ t, hdfWriteString hdf = some t ∧ t.bytes.length ≤ 65023)
    {reply : ℕ} (hreply : reply < 2 ^ 32) (hcode : reply ≠ noReply) {reqid : ℕ} (hid : reqid < 2 ^ 28) (buf : Bytes) :
    ∃ r, replyTrigger hdfObjChild hdfWriteString true hdfsnd reply = some (r, 1) ∧
      (∀ cs, Pieces cs → cs.flatten = r.packet .tcp (be 4 reqid) →
        tcpReceive hdfReadString hdfInit reqid buf (arriving cs []) = .ok (reply, expected hdfObjChild hdfInit hdfsnd)) ∧
      ∀ s, udpReceive hdfReadString hdfInit reqid buf (some (r.packet .udp (be 4 reqid)) :: s) =
        .ok (reply, expected hdfObjChild hdfInit hdfsnd) := by
  simp only [replyTrigger_eq]
  have hrv : (if reply = noReply then repErr else reply) = reply := if_neg hcode
  have hmini : ∀ p buf, takeReply hdfReadString hdfInit p reply 0 buf = .ok (reply, hdfInit) := fun p buf => by
    rw [takeReply_mini, hrv]
  have hempty : 12 + (payload (.mini reply)).length ≤ maxPacketLen := Nat.le_of_ble_eq_true rfl
  cases hdfsnd with
  | none =>
    exact ⟨.mini reply, rfl, receive_packet hdfReadString hdfInit (.mini reply) hid hreply hempty (fun p b _ => hmini p b) buf⟩
  | some hdf =>
    obtain ⟨t, hwrite, ht⟩ := htext hdf rfl
    cases hchild : hdfObjChild hdf with
    | false =>
      refine ⟨.mini reply, by simp [replied, hchild], ?_⟩
      simp only [expected, hchild, Bool.false_eq_true, if_false]
      exact receive_packet hdfReadString hdfInit (.mini reply) hid hreply hempty (fun p b _ => hmini p b) buf
    | true =>
      have hkept : (kept t).bytes = t.bytes := List.take_of_length_le (by omega)
      have hfits := length_payload_long reply t
      refine ⟨.long reply (packed t maxPacketLen), by simp [replied, hchild, hwrite], ?_⟩
      simp only [expected, hchild, if_true]
      refine receive_packet hdfReadString hdfInit (.long reply _) hid hreply hfits (fun p b hslice => ?_) buf
      rw [code, takeReply_long hdfReadString hdfInit hslice, hrv, hkept, hinv hdf t hwrite]

end RoundTrip

/-- The dataset with the text "a" and the code 1000. -/
theorem reply_roundTrip_a :
    ∃ r, replyTrigger id (fun b => if b then some textA else none) true (some true) 1000 = some (r, 1) ∧
      (∀ cs, Pieces cs → cs.flatten = r.packet .tcp (be 4 7) →
        tcpReceive (fun _ t => decide (t = [97])) false 7 [] (arriving cs []) = .ok (1000, true)) ∧
      ∀ s, udpReceive (fun _ t => decide (t = [97])) false 7 [] (some (r.packet .udp (be 4 7)) :: s) = .ok (1000, true) := by
  have hinv : ∀ (hdf : Bool) (t : CString), (if hdf then some textA else none) = some t →
      decide (t.bytes = [97]) = hdf := by
    intro hdf t ht
    cases hdf with
    | false => cases ht
    | true =>
      obtain rfl := Option.some.inj ht
      rfl
  have htext : ∀ hdf ∈ some true, ∃ t, (if hdf then some textA else none) = some t ∧ t.bytes.length ≤ 65023 := by
    intro hdf hhdf
    obtain rfl := Option.some.inj hhdf
    exact ⟨textA, rfl, by decide⟩
  exact @reply_roundTrip Bool id _ (fun _ t => decide (t = [97])) false hinv _ htext 1000 (by decide) (by decide) 7 (by decide) []

/-- The reply -1 as its caller sees it, a failure of the transport. -/
theorem reply_minusOne : ¬∀ (reply reqid : ℕ) (buf : Bytes), reply < 2 ^ 32 → reqid < 2 ^ 28 →
    ∃ r, replyTrigger (fun _ : Unit => false) (fun _ => none) true none reply = some (r, 1) ∧
      udpReceive (fun u _ => u) () reqid buf [some (r.packet .udp (be 4 reqid))] = .ok (reply, ()) := by
  intro h
  obtain ⟨r, htrigger, hreceive⟩ := h noReply 1 [] (by decide) (by decide)
  obtain rfl : Replied.mini noReply = r := congrArg Prod.fst (Option.some.inj htrigger)
  obtain ⟨buf', hget, -⟩ := udpGetRep_packet (r := .mini noReply) (show 1 < 2 ^ 32 by decide) (by decide) (by decide) [] []
  rw [udpReceive, hget] at hreceive
  have hcode : Except.ok (repErr, ()) = (Except.ok (noReply, ()) : Except Fault (ℕ × Unit)) := hreceive
  exact absurd (congrArg Prod.fst (Except.ok.inj hcode)) (by decide)

end Cmoon.ReplyRoundTrips
