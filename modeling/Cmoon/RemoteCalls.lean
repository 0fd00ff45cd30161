import Cmoon.ReplyRoundTrips
import Cmoon.RequestLifecycles
import Cmoon.RequestPackets

/-! # A call from `mevent_trigger` to its answer

What a client writes into a packet a plugin reads, and what the plugin computes from it, in the state it
is in at that turn, the client gets: once, whatever else the daemon does in between. -/
namespace Cmoon.RemoteCalls
open DecimalText Datasets ByteBuffers ClientSockets CutSequences ExceptResults PacketWriting PartialRuns ProcessDrivers
open ReplyIds ReplyPackets ReplyRoundTrips RequestLifecycles RequestPackets RequestRouting
open EventDaemon hiding Dataset replyTrigger

variable {E : Type}

/-- What a plugin computes from an entry: its `ret`, and its `hdfsnd` as it is sent. -/
def computed (p : Plugin E) (e : Driver E) (q : QueueEntry) : Except Fault (ℕ × Dataset) := do
  let (_, err, hdfsnd) ← dispatch p { e with st := { e.st with msgTotal := e.st.msgTotal + 1 } } q
  let ret := (mcsErrValid err).getD repOk
  return (ret, if processOk ret then hdfsnd else traceErr p hdfsnd err)

theorem processDriver_computed {p : Plugin E} {calloc : Bool} {e e' : Driver E} {q : QueueEntry} {r : Option Replied}
    (h : processDriver p calloc e q = .ok (e', r)) :
    ∃ ret hdfsnd, computed p e q = .ok (ret, hdfsnd) ∧
      r = if q.req.sync then some (replied (fun hdf => hdf ≠ []) p.hdfWriteString calloc (some hdfsnd) ret).1
        else none := by
  obtain ⟨⟨d, err, hdfsnd⟩, hdispatch, h⟩ := bind_eq_ok_iff.mp h
  obtain ⟨-, rfl⟩ := Prod.mk.inj (Except.ok.inj h)
  refine ⟨_, _, ?_, rfl⟩
  rw [computed, hdispatch]
  rfl

section Processing
variable (plugins : ℕ → Plugin E) (s₀ : System E)

/-- A turn of these at which a worker was at an entry, and the reply it made. -/
def Processed (ts : List Turn) (i : ℕ) (q : QueueEntry) (r : Option Replied) : Prop :=
  ∃ ts₁ calloc ts₂ s e, ts = ts₁ ++ .process i calloc :: ts₂ ∧ run (step plugins) s₀ ts₁ = some s ∧
    s.worker i = some q ∧ processDriver (plugins i) calloc (s.driver i) q = .ok (e, r)

variable {plugins s₀} {ts : List Turn} {s : System E}

theorem Processed.append {i : ℕ} {q : QueueEntry} {r : Option Replied} (h : Processed plugins s₀ ts i q r)
    (t : Turn) : Processed plugins s₀ (ts ++ [t]) i q r := by
  obtain ⟨ts₁, calloc, ts₂, s, e, rfl, hrun, hworker, hdone⟩ := h
  exact ⟨ts₁, calloc, ts₂ ++ [t], s, e, by simp, hrun, hworker, hdone⟩

variable (plugins s₀) in
/-- Each entry taken from a queue is with its worker, or through with its reply among the answers. -/
def Accounted (ts : List Turn) (s : System E) : Prop :=
  ∀ i, ∀ q ∈ s.taken i, s.worker i = some q ∨
    ∃ r, Processed plugins s₀ ts i q r ∧ ∀ r' ∈ r, (q.req, r') ∈ s.answers

theorem accounted_step {t : Turn} {s' : System E} (hrun : run (step plugins) s₀ ts = some s)
    (hs : Accounted plugins s₀ ts s) (h : step plugins s t = some s') : Accounted plugins s₀ (ts ++ [t]) s' := by
  -- what is through stays through
  have hkeep : ∀ {i q} {answers : List (ReqInfo × Replied)}, (∀ a ∈ s.answers, a ∈ answers) →
      (∃ r, Processed plugins s₀ ts i q r ∧ ∀ r' ∈ r, (q.req, r') ∈ s.answers) →
      ∃ r, Processed plugins s₀ (ts ++ [t]) i q r ∧ ∀ r' ∈ r, (q.req, r') ∈ answers := by
    rintro i q answers hsub ⟨r, hdone, hr⟩
    exact ⟨r, hdone.append t, fun r' hr' => hsub _ (hr r' hr')⟩
  cases t with
  | message env full req m len =>
    obtain ⟨-, d, put, rv, -, rfl⟩ := step_message h
    exact fun i q hq => (hs i q hq).imp_right (hkeep fun _ ha => ha)
  | put =>
    obtain ⟨j, e, -, rfl⟩ := step_put h
    exact fun i q hq => (hs i q hq).imp_right (hkeep fun _ ha => ha)
  | get j =>
    obtain ⟨p, queue, hworker, -, rfl⟩ := step_get h
    intro i q hq
    by_cases hi : i = j
    · subst hi
      simp only [Function.update_self] at hq ⊢
      rcases List.mem_append.mp hq with hq | hq
      · right
        exact hkeep (fun _ ha => ha) ((hs i q hq).resolve_left (by simp [hworker]))
      · left
        rw [List.mem_singleton.mp hq]
    · simp only [Function.update_of_ne hi] at hq ⊢
      exact (hs i q hq).imp_right (hkeep fun _ ha => ha)
  | process j calloc =>
    obtain ⟨p, e, r, hworker, hdone, rfl⟩ := step_process h
    intro i q hq
    have hgrow : ∀ a ∈ s.answers, a ∈ s.answers ++ (r.map (p.req, ·)).toList := fun _ ha => List.mem_append_left _ ha
    by_cases hi : i = j
    · subst hi
      right
      rcases hs i q hq with hq | hq
      · obtain rfl : p = q := Option.some.inj (hworker.symm.trans hq)
        refine ⟨r, ⟨ts, calloc, [], s, e, rfl, hrun, hworker, hdone⟩, fun r' hr' => ?_⟩
        rw [Option.mem_def.mp hr']
        exact List.mem_append_right _ (List.mem_singleton.mpr rfl)
      · exact hkeep hgrow hq
    · simp only [Function.update_of_ne hi]
      exact (hs i q hq).imp_right (hkeep hgrow)

theorem accounted (hnone : ∀ i, s₀.taken i = []) (hrun : run (step plugins) s₀ ts = some s) :
    Accounted plugins s₀ ts s :=
  run_history (I := fun ts s => Accounted plugins s₀ ts s) (fun i q hq => by simp [hnone i] at hq)
    (fun _ _ _ _ hrun hs h => accounted_step hrun hs h) hrun

end Processing

/-- A call that waits for its reply and that one packet holds. -/
structure Call where
  reqid : ℕ
  cmd : ℕ
  flags : ℕ
  ename : CString
  text : CString
  reqid_le : 1 ≤ reqid ∧ reqid ≤ 0x0FFFFFFD
  cmd_lt : cmd < 2 ^ 16
  flags_lt : flags < 2 ^ 16
  sync : flags &&& flagsSync ≠ 0
  text_le : text.bytes.length + 1 ≤ 65024

/-- The packet `mevent_trigger` sends for it, the text being that of `hdf`. -/
def Call.packet {D : Type} (c : Call) (hdfWriteString : D → Option CString) (type : SrvType)
    (payload : Bytes) (hdf : D) : Option Bytes := do
  let (m, psize) ← fillPayload hdfWriteString payload (srvGetMsgOffset type) c.reqid
    c.ename hdf c.cmd c.flags
  srvSend type m psize

/-- What the daemon takes out of a packet: over TCP it is a frame, with its size in front. -/
def delivered (type : SrvType) (packet : Bytes) : Bytes :=
  if type = .tcp then packet.drop 4 else packet

/-- The request of a call, from a client the daemon knows as `req`. -/
def Call.asked (c : Call) (req : ReqInfo) : ReqInfo := { req with id := be 4 c.reqid, cmd := c.cmd, flags := c.flags }

def Call.entry (c : Call) (req : ReqInfo) : QueueEntry := requestEntry (c.asked req) c.ename.bytes (some c.text.bytes)

/-- The caller of `mevent_trigger` gets code and dataset, over TCP however the frame is cut, and over UDP. -/
def Gets (read : Dataset → Bytes → Dataset) (reqid : ℕ) (r : Replied) (ret : ℕ) (hdf : Dataset) : Prop :=
  ∀ buf,
    (∀ cs, Pieces cs → cs.flatten = r.packet .tcp (be 4 reqid) →
      tcpReceive read [] reqid buf (arriving cs []) = .ok (ret, hdf)) ∧
    ∀ s, udpReceive read [] reqid buf (some (r.packet .udp (be 4 reqid)) :: s) = .ok (ret, hdf)

/-- A code and a dataset the wire keeps: not -1, and a text that no packet cuts. -/
structure Sendable (write : Dataset → Option CString) (ret : ℕ) (hdf : Dataset) : Prop where
  ret_lt : ret < 2 ^ 32
  ret_ne : ret ≠ noReply
  text : hdf ≠ [] → ∃ t, write hdf = some t ∧ t.bytes.length ≤ 65023

section Calling
variable {c : Call} {req : ReqInfo}

theorem Call.asked_sync (c : Call) (req : ReqInfo) : (c.asked req).sync = true := by
  exact decide_eq_true c.sync

section Packet
variable {D : Type} {hdfWriteString : D → Option CString} {hdf : D} (htext : hdfWriteString hdf = some c.text)
  {type : SrvType} {payload packet : Bytes}
include htext

theorem Call.packet_eq
    (hfit : srvGetMsgOffset type + (message c.reqid c.cmd c.flags c.ename c.text).length ≤ payload.length) :
    c.packet hdfWriteString type payload hdf =
      some (if type = .tcp then TcpFraming.wire (message c.reqid c.cmd c.flags c.ename c.text)
        else message c.reqid c.cmd c.flags c.ename c.text) := by
  have hfill := (fillPayload_eq_some hdfWriteString htext).mpr ⟨hfit, rfl, rfl⟩
  rw [Call.packet, hfill]
  exact srvSend_message hfit

/-- What was written lay inside the payload. -/
theorem Call.message_fits (h : c.packet hdfWriteString type payload hdf = some packet) :
    srvGetMsgOffset type + (message c.reqid c.cmd c.flags c.ename c.text).length ≤ payload.length := by
  obtain ⟨⟨m, psize⟩, hfill, -⟩ := Option.bind_eq_some_iff.mp h
  exact ((fillPayload_eq_some hdfWriteString htext).mp hfill).1

/-- The daemon takes out of the packet what the client put into it. -/
theorem Call.delivered_packet (h : c.packet hdfWriteString type payload hdf = some packet) :
    delivered type packet = message c.reqid c.cmd c.flags c.ename c.text := by
  rw [Call.packet_eq htext (Call.message_fits htext h)] at h
  obtain rfl := Option.some.inj h
  by_cases htcp : type = .tcp
  · simp only [delivered, htcp, if_true, TcpFraming.wire]
    exact List.drop_left' (length_be 4 _)
  · simp only [delivered, htcp, if_false]

end Packet

theorem Call.routed_message (c : Call) (req : ReqInfo) (rest : Bytes) {evt : MEvent} {entry : EventEntry} {env : Env}
    {full : ℕ → Bool} {m : Bytes}
    (hm : m = message c.reqid c.cmd c.flags c.ename c.text) (hfit : m.length ≤ maxPacketLen)
    (hfound : findEntryInTable evt c.ename.bytes = some entry) (hroom : full entry.opQueue = false)
    (henv : allocates env = true) :
    routed evt (.message env full req (m ++ rest) m.length) = some (entry.opQueue, c.entry req) := by
  have hlen := length_message c.reqid c.cmd c.flags c.ename c.text
  have hid : c.reqid < 2 ^ 28 := by
    have := c.reqid_le.2
    omega
  subst hm
  have hkept : (kept c.text).bytes = c.text.bytes :=
    List.take_of_length_le (Nat.le_of_succ_le c.text_le)
  simp only [routed, version_message rest hid, readEvent_message rest hfit,
    filled_message rest hid c.cmd_lt c.flags_lt, hfound, hroom, henv, hkept]
  rw [if_neg (by rw [hlen]; omega)]
  rfl

theorem owed_of_routed {evt : MEvent} {t : Turn} {i : ℕ} {q : QueueEntry} (h : routed evt t = some (i, q))
    (hsync : q.req.sync = true) : owed evt t = {q.req} := by
  cases t with
  | message env full req m len =>
    simp only [routed] at h
    split at h
    · cases h
    rename_i hgood
    obtain ⟨hlong, hver⟩ := not_or.mp hgood
    split at h
    · rename_i n body hread
      split at h
      · split at h
        · obtain ⟨-, rfl⟩ := Prod.mk.inj (Option.some.inj h)
          have hsync : (req.filled m).sync = true := hsync
          simp only [owed, if_neg hlong, if_neg hver, hread, hsync, Bool.true_or, if_true]
          rfl
        · cases h
      · cases h
    · cases h
  | _ => cases h

theorem count_routed_le (evt : MEvent) (t : Turn) (i : ℕ) {q : QueueEntry} (hsync : q.req.sync = true) :
    ((routed evt t).at i).count q ≤ (owed evt t).count q.req := by
  cases hrouted : routed evt t with
  | none => exact Nat.zero_le _
  | some p =>
    obtain ⟨j, e⟩ := p
    rw [at_some]
    split
    · by_cases he : e = q
      · subst he
        rw [owed_of_routed hrouted hsync]
        simp
      · simp [he]
    · exact Nat.zero_le _

section Replying
variable {write : Dataset → Option CString} {read : Dataset → Bytes → Dataset} {hdf : Dataset} {ret reqid : ℕ}
  {calloc : Bool}

theorem mini_gets (hret : ret < 2 ^ 32) (hne : ret ≠ noReply) (hid : reqid < 2 ^ 28) :
    Gets read reqid (.mini ret) ret [] := by
  intro buf
  refine receive_packet read [] (.mini ret) hid (by exact hret) (Nat.le_of_ble_eq_true rfl) (fun p b _ => ?_) buf
  rw [code, payload, List.length_nil, takeReply_mini, if_neg hne]

/-- What `reply_trigger` makes of a sendable code and dataset its caller gets, if it has memory for the dataset. -/
theorem replied_gets (hinv : ∀ hdf t, write hdf = some t → read [] t.bytes = hdf) (h : Sendable write ret hdf)
    (hmem : hdf = [] ∨ calloc = true) (hid : reqid < 2 ^ 28) :
    Gets read reqid (replied (fun hdf => hdf ≠ []) write calloc (some hdf) ret).1 ret hdf := by
  by_cases hnil : hdf = []
  · subst hnil
    exact mini_gets h.ret_lt h.ret_ne hid
  · obtain rfl : calloc = true := hmem.resolve_left hnil
    intro buf
    obtain ⟨t, hwrite, ht⟩ := h.text hnil
    have hkept : (kept t).bytes = t.bytes := List.take_of_length_le (by omega)
    have hlong : (replied (fun hdf => hdf ≠ []) write true (some hdf) ret).1 = .long ret (packed t maxPacketLen) := by
      simp [replied, hnil, hwrite]
    rw [hlong]
    refine receive_packet read [] _ hid (by exact h.ret_lt) (length_payload_long ret t)
      (fun p b hslice => ?_) buf
    rw [code, takeReply_long read [] hslice, if_neg h.ret_ne, hkept, hinv hdf t hwrite]

theorem replied_errMem (hnil : hdf ≠ []) (hid : reqid < 2 ^ 28) :
    Gets read reqid (replied (fun hdf => hdf ≠ []) write false (some hdf) ret).1 (repCode .errMem) [] := by
  have hmini : (replied (fun hdf => hdf ≠ []) write false (some hdf) ret).1 = .mini (repCode .errMem) := by
    simp [replied, hnil]
  rw [hmini]
  exact mini_gets (by decide) (by decide) hid

end Replying

end Calling

section Runs
variable {plugins : ℕ → Plugin E} {drivers : List (Option Bytes)} {own : ℕ → E} {ts : List Turn} {s : System E}

/-- No entry somebody waits for is put more often than its sender asks. -/
theorem count_flatMap_le (evt : MEvent) (ts : List Turn) (i : ℕ) {q : QueueEntry} (hsync : q.req.sync = true) :
    (ts.flatMap fun t => (routed evt t).at i).count q ≤ (ts.map (owed evt)).sum.count q.req := by
  induction ts with
  | nil => exact Nat.zero_le _
  | cons t ts ih =>
    rw [List.flatMap_cons, List.count_append, List.map_cons, List.sum_cons, Multiset.count_add]
    exact Nat.add_le_add (count_routed_le evt t i hsync) ih

theorem mem_waiting {i n : ℕ} {q : QueueEntry} (hi : i < n) (hq : q ∈ s.pending i) (hsync : q.req.sync = true) :
    q.req ∈ s.waiting n := by
  refine Multiset.mem_sum.mpr ⟨i, Finset.mem_range.mpr hi, ?_⟩
  rw [waits, Multiset.mem_coe]
  exact List.mem_map.mpr ⟨q, List.mem_filter.mpr ⟨hq, hsync⟩, rfl⟩

/-- An entry that was routed and is no longer pending went through its worker. -/
theorem processed_of_routed (hrun : run (step plugins) (start drivers own) ts = some s) {t : Turn} (ht : t ∈ ts)
    {i : ℕ} {q : QueueEntry} (hrouted : routed (meventStart drivers) t = some (i, q)) (hq : q ∉ s.pending i) :
    q ∈ s.taken i ∧ ∃ r, Processed plugins (start drivers own) ts i q r ∧ ∀ r' ∈ r, (q.req, r') ∈ s.answers := by
  have hat : q ∈ (routed (meventStart drivers) t).at i := by
    rw [hrouted, at_some, if_pos rfl]
    exact List.mem_singleton.mpr rfl
  have hthrough : q ∈ s.through i :=
    (run_through hrun i).mem_iff.mpr (List.mem_flatMap.mpr ⟨t, ht, hat⟩)
  simp only [System.through, System.pending, List.mem_append, not_or, Option.mem_toList, or_assoc] at hthrough hq
  have htaken : q ∈ s.taken i := hthrough.resolve_right (not_or.mpr hq.2)
  exact ⟨htaken, (accounted (fun _ => rfl) hrun i q htaken).resolve_left hq.1⟩

theorem filter_eq_singleton {asked : ReqInfo} {r : Replied} {n : ℕ} (hr : (asked, r) ∈ s.answers)
    (hwaits : asked ∉ s.waiting n) (hone : (s.answered + s.waiting n).count asked = 1) :
    s.answers.filter (fun a => a.1 = asked) = [(asked, r)] ∧ ∀ a ∈ s.daemon.sent, reqOf a ≠ asked := by
  rw [Multiset.count_add, Multiset.count_eq_zero_of_notMem hwaits, System.answered, Multiset.count_add,
    Multiset.coe_count, Multiset.coe_count] at hone
  have hlen : (s.answers.filter (fun a => a.1 = asked)).length = (s.answers.map Prod.fst).count asked := by
    rw [List.count, List.countP_map, List.countP_eq_length_filter]
    rfl
  have hmem : (asked, r) ∈ s.answers.filter (fun a => a.1 = asked) := List.mem_filter.mpr ⟨hr, decide_eq_true rfl⟩
  have hpos := List.length_pos_of_mem hmem
  constructor
  · obtain ⟨a, ha⟩ := List.length_eq_one_iff.mp (show (s.answers.filter (fun a => a.1 = asked)).length = 1 by omega)
    rw [ha] at hmem ⊢
    rw [List.mem_singleton.mp hmem]
  · intro a ha heq
    have hcount : 0 < (s.daemon.sent.map reqOf).count asked :=
      List.count_pos_iff.mpr (List.mem_map.mpr ⟨a, ha, heq⟩)
    omega

end Runs

def dataA : Dataset := [("a", some [97])]

def writeA (hdf : Dataset) : Option CString := if hdf = dataA then some textA else none

def readA (hdf : Dataset) (t : Bytes) : Dataset := if t = [97] then dataA else hdf

def answerPlugin : Plugin Unit :=
  ⟨fun cmd => if cmd = 1001 then some fun _ _ => .ok ⟨(), [], dataA⟩ else none, fun _ => [], writeA⟩

def callA : Call where
  reqid := 1
  cmd := 1001
  flags := 2
  ename := textA
  text := textA
  reqid_le := by decide
  cmd_lt := by decide
  flags_lt := by decide
  sync := by decide
  text_le := by decide

def callMessage : Turn :=
  .message (.plenty fun _ => none) (fun _ => false) ⟨3, .udp, [], [], 0, 0⟩
    ([16, 0, 0, 1, 3, 233, 0, 2, 0, 0, 0, 1, 97, 0, 0, 0, 3, 0, 0, 0, 4, 114, 111, 111, 116, 0, 0, 0, 2, 97, 0, 0, 0,
      0, 0] ++ []) 35

def callTurns : List Turn := [callMessage, .put, .get 0, .process 0 true]

theorem callTurns_run :
    (run (step fun _ => answerPlugin) (start [some [97]] fun _ => ()) callTurns).map (·.waiting 1) = some 0 := by
  decide

end Cmoon.RemoteCalls
