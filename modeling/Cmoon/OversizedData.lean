import Cmoon.RequestPackets
import Cmoon.ReplyRoundTrips

/-! # Datasets larger than a packet

`pack_data_str` cuts a text that would reach into the reserve and returns the size of what is left, which
`mevent_trigger` and `reply_trigger` take for success. -/
namespace Cmoon.OversizedData
open DecimalText ByteBuffers EventDaemon PacketWriting RequestPackets ReplyPackets ClientSockets ReplyRoundTrips
  CutSequences

theorem kept_eq_iff {t : CString} : (kept t).bytes = t.bytes ↔ t.bytes.length ≤ 65024 := by
  rw [kept, List.take_eq_self_iff]

section Request
variable {D : Type} (hdfWriteString : D → Option CString)

/-- The daemon gets the whole text, or `mevent_trigger` learns of a failure: `pack_hdf` gives 0, or
`srv_send` fails. -/
def RequestWhole (type : SrvType) (payload : Bytes) (reqid cmd flags : ℕ) (ename : CString) (hdf : D) (sends : Bool) :
    Prop :=
  hdfWriteString hdf = none ∨
    ∃ m psize packet, fillPayload hdfWriteString payload (srvGetMsgOffset type) reqid ename hdf cmd flags = some (m, psize) ∧
      srvSend type m psize = some packet ∧
      (sends = false ∨
        ∃ t msg, hdfWriteString hdf = some t ∧ packet = (if type = .tcp then TcpFraming.wire msg else msg) ∧
          ∀ rest, readEvent (msg ++ rest) (msg.length - 8) = .ok (some (ename.bytes, some t.bytes)))

private theorem packet_inj {type : SrvType} {a b : Bytes}
    (h : (if type = .tcp then TcpFraming.wire a else a) = if type = .tcp then TcpFraming.wire b else b) : a = b := by
  split at h
  · exact (List.append_inj h (by simp)).2
  · exact h

theorem requestWhole_iff (type : SrvType) {payload : Bytes} (hpayload : payload.length = maxPacketLen)
    (reqid cmd flags : ℕ) (ename : CString) (hdf : D) (sends : Bool) :
    RequestWhole hdfWriteString type payload reqid cmd flags ename hdf sends ↔
      ∀ t, hdfWriteString hdf = some t →
        srvGetMsgOffset type + 32 + ename.bytes.length + min (t.bytes.length + 1) 65024 ≤ maxPacketLen ∧
          (sends = true → t.bytes.length ≤ 65024) := by
  cases hwrite : hdfWriteString hdf with
  | none => simp [RequestWhole, hwrite]
  | some t =>
    have hlen : srvGetMsgOffset type + (message reqid cmd flags ename t).length =
        srvGetMsgOffset type + 32 + ename.bytes.length + min (t.bytes.length + 1) 65024 := by
      rw [length_message]
      simp only [valueSize, maxPacketLen, reserveSize]
      omega
    simp only [RequestWhole, hwrite, reduceCtorEq, false_or, Option.some.injEq, forall_eq', ← hlen, ← hpayload]
    constructor
    · rintro ⟨m, psize, packet, hfill, hsend, hwhole⟩
      obtain ⟨hfit, rfl, rfl⟩ := (fillPayload_eq_some hdfWriteString hwrite).mp hfill
      refine ⟨hfit, fun hs => ?_⟩
      obtain ⟨_, msg, rfl, hpacket, hread⟩ := hwhole.resolve_left (by rw [hs]; decide)
      rw [srvSend_message hfit] at hsend
      obtain rfl := packet_inj ((Option.some.inj hsend).trans hpacket)
      have hkept := (readEvent_message [] (by omega)).symm.trans (hread [])
      exact kept_eq_iff.mp (Option.some.inj (Prod.mk.inj (Option.some.inj (Except.ok.inj hkept))).2)
    · rintro ⟨hfit, hsends⟩
      refine ⟨overwrite payload (srvGetMsgOffset type) (message reqid cmd flags ename t),
        srvGetMsgOffset type + (message reqid cmd flags ename t).length, _,
        (fillPayload_eq_some hdfWriteString hwrite).mpr ⟨hfit, rfl, rfl⟩, srvSend_message hfit, ?_⟩
      cases sends with
      | false => exact .inl rfl
      | true =>
        refine .inr ⟨t, message reqid cmd flags ename t, rfl, rfl, fun rest => ?_⟩
        rw [readEvent_message rest (by omega), kept_eq_iff.mpr (hsends rfl)]

end Request

section Reply
variable {D : Type} (hdfObjChild : D → Bool) (hdfWriteString : D → Option CString)

/-- A client which keeps the text `hdf_read_string` is given. -/
def keepText : Option Bytes → Bytes → Option Bytes := fun _ t => some t

/-- The client gets the whole text of a dataset, on either transport, or `reply_trigger` replies an error
of its own. -/
def ReplyWhole (calloc : Bool) (hdfsnd : Option D) (reply reqid : ℕ) (buf : Bytes) : Prop :=
  ∃ r rv, replyTrigger hdfObjChild hdfWriteString calloc hdfsnd reply = some (r, rv) ∧
    (r = .mini (repCode .errMem) ∨ r = .mini (repCode .errPack) ∨
      ∀ hdf ∈ hdfsnd, hdfObjChild hdf = true → ∃ t, hdfWriteString hdf = some t ∧
        (∀ cs, Pieces cs → cs.flatten = r.packet .tcp (be 4 reqid) →
          (tcpReceive keepText none reqid buf (arriving cs [])).map Prod.snd = .ok (some t.bytes)) ∧
        ∀ s, (udpReceive keepText none reqid buf (some (r.packet .udp (be 4 reqid)) :: s)).map Prod.snd = .ok (some t.bytes))

/-- A dataset with children and a text: the client gets the text without what `pack_hdf` has cut. -/
private theorem replyWhole_text_iff {hdf : D} (hchild : hdfObjChild hdf = true) {t : CString}
    (hwrite : hdfWriteString hdf = some t) {reply reqid : ℕ} (hreply : reply < 2 ^ 32) (hid : reqid < 2 ^ 28) (buf : Bytes) :
    ReplyWhole hdfObjChild hdfWriteString true (some hdf) reply reqid buf ↔ t.bytes.length ≤ 65024 := by
  have hlong : replied hdfObjChild hdfWriteString true (some hdf) reply = (.long reply (packed t maxPacketLen), 1) := by
    simp [replied, hchild, hwrite]
  obtain ⟨htcp, hudp⟩ := receive_packet keepText none (.long reply (packed t maxPacketLen)) hid hreply
    (length_payload_long reply t) (fun p b hslice => takeReply_long keepText none hslice) buf
  rw [ReplyWhole, replyTrigger_eq, hlong]
  constructor
  · rintro ⟨r, rv, htrigger, hwhole⟩
    obtain rfl : Replied.long reply (packed t maxPacketLen) = r := congrArg Prod.fst (Option.some.inj htrigger)
    obtain h | h | h := hwhole
    · cases h
    · cases h
    · obtain ⟨t', hwrite', -, hgot⟩ := h hdf rfl hchild
      obtain rfl : t = t' := Option.some.inj (hwrite.symm.trans hwrite')
      have htext := hgot []
      rw [hudp] at htext
      exact kept_eq_iff.mp (Option.some.inj (Except.ok.inj htext))
  · intro hshort
    have hkept := kept_eq_iff.mpr hshort
    refine ⟨_, _, rfl, .inr (.inr fun hdf' hhdf _ => ?_)⟩
    obtain rfl := Option.some.inj hhdf
    refine ⟨t, hwrite, fun cs hcs hflat => ?_, fun s => ?_⟩
    · rw [htcp cs hcs hflat, hkept]
      rfl
    · rw [hudp, hkept]
      rfl

theorem replyWhole_iff (calloc : Bool) (hdfsnd : Option D) {reply reqid : ℕ} (hreply : reply < 2 ^ 32)
    (hid : reqid < 2 ^ 28) (buf : Bytes) :
    ReplyWhole hdfObjChild hdfWriteString calloc hdfsnd reply reqid buf ↔
      ∀ hdf ∈ hdfsnd, hdfObjChild hdf = true → calloc = true → ∀ t, hdfWriteString hdf = some t →
        t.bytes.length ≤ 65024 := by
  cases hdfsnd with
  | none => simp [ReplyWhole, replyTrigger_eq, replied]
  | some hdf =>
    cases hchild : hdfObjChild hdf with
    | false => simp [ReplyWhole, replyTrigger_eq, replied, hchild]
    | true =>
      cases calloc with
      | false => simp [ReplyWhole, replyTrigger_eq, replied, hchild]
      | true =>
        cases hwrite : hdfWriteString hdf with
        | none => simp [ReplyWhole, replyTrigger_eq, replied, hchild, hwrite]
        | some t =>
          rw [replyWhole_text_iff hdfObjChild hdfWriteString hchild hwrite hreply hid buf]
          simp [hchild, hwrite]

end Reply

/-- Where no failure is reported, a request is whole exactly when its text has at most 65024 bytes and
room behind the event name, and a reply when its text has at most 65024 bytes. -/
theorem neverCut_iff {D : Type} (hdfObjChild : D → Bool) (hdfWriteString : D → Option CString) (type : SrvType)
    {payload : Bytes} (hpayload : payload.length = maxPacketLen) (cmd flags : ℕ) (ename : CString) (hdf : D)
    (sends calloc : Bool) (hdfsnd : Option D) {reply reqid : ℕ} (hreply : reply < 2 ^ 32) (hid : reqid < 2 ^ 28)
    (buf : Bytes) :
    (RequestWhole hdfWriteString type payload reqid cmd flags ename hdf sends ↔
      ∀ t, hdfWriteString hdf = some t →
        srvGetMsgOffset type + 32 + ename.bytes.length + min (t.bytes.length + 1) 65024 ≤ maxPacketLen ∧
          (sends = true → t.bytes.length ≤ 65024)) ∧
    (ReplyWhole hdfObjChild hdfWriteString calloc hdfsnd reply reqid buf ↔
      ∀ hdf ∈ hdfsnd, hdfObjChild hdf = true → calloc = true → ∀ t, hdfWriteString hdf = some t →
        t.bytes.length ≤ 65024) :=
  ⟨requestWhole_iff hdfWriteString type hpayload reqid cmd flags ename hdf sends,
    replyWhole_iff hdfObjChild hdfWriteString calloc hdfsnd hreply hid buf⟩

def longText : CString := ⟨List.replicate 65025 97, fun h => absurd (List.eq_of_mem_replicate h) (by decide)⟩

theorem length_longText : longText.bytes.length = 65025 := List.length_replicate

/-- Sent to the daemon or back, its last byte is lost and nobody is told. -/
theorem longText_cut : ¬∀ (payload : Bytes) (ename : CString) (buf : Bytes), payload.length = maxPacketLen →
    RequestWhole (fun _ : Unit => some longText) .udp payload 1 1001 2 ename () true ∧
      ReplyWhole (fun _ : Unit => true) (fun _ => some longText) true (some ()) 1000 1 buf := by
  intro h
  obtain ⟨-, hreply⟩ := h (List.replicate maxPacketLen 0) textA [] List.length_replicate
  have hshort := (replyWhole_iff _ _ true (some ()) (by decide) (by decide) []).mp hreply () rfl rfl rfl longText rfl
  rw [length_longText] at hshort
  exact absurd hshort (by decide)

/-- The text "a" gets through whole, both ways. -/
theorem neverCut_a : RequestWhole (fun _ : Unit => some textA) .tcp (List.replicate maxPacketLen 0) 1 1001 2 textA () true ∧
    ReplyWhole (fun _ : Unit => true) (fun _ => some textA) true (some ()) 1000 1 [] := by
  have hpayload : (List.replicate maxPacketLen (0 : UInt8)).length = maxPacketLen := List.length_replicate
  have hboth := neverCut_iff (fun _ : Unit => true) (fun _ => some textA) .tcp hpayload 1001 2 textA () true true
    (some ()) (show 1000 < 2 ^ 32 by decide) (show 1 < 2 ^ 28 by decide) []
  refine ⟨hboth.1.mpr fun t ht => ?_, hboth.2.mpr fun _ _ _ _ t ht => ?_⟩
  · cases ht
    exact ⟨by decide, fun _ => by decide⟩
  · cases ht
    decide

end Cmoon.OversizedData
