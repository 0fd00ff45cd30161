import Cmoon.GuardedRuns
import Cmoon.ReplyRoundTrips

/-! # The calls of one process (`mevent_trigger`)

Every call counts `g_reqid` up and sends it as the id of its request, which the reply brings back.
`get_rep` passes over the replies with a smaller id, and those alone; behind `0x0FFFFFFD` the ids start
again at 1. -/
namespace Cmoon.TriggerRuns
open DecimalText ByteBuffers EventDaemon CutSequences ReplyPackets ClientSockets ReplyRoundTrips GuardedRuns

/-- `if (g_reqid++ > 0x0FFFFFFC) g_reqid = 1` -/
def nextReqid (greqid : ℕ) : ℕ := if greqid > 0x0FFFFFFC then 1 else greqid + 1

/-- The id of the `i`th call; `g_reqid` starts at 0. -/
def reqid (i : ℕ) : ℕ := nextReqid^[i] 0

theorem nextReqid_reqid (i : ℕ) : nextReqid (reqid i) = reqid (i + 1) := (Function.iterate_succ_apply' nextReqid i 0).symm

/-- The ids come round after `0x0FFFFFFD` calls. -/
theorem reqid_succ (i : ℕ) : reqid (i + 1) = i % 0x0FFFFFFD + 1 := by
  induction i with
  | zero => rfl
  | succ i ih =>
    rw [← nextReqid_reqid, ih, nextReqid]
    split <;> omega

theorem reqid_lt (i : ℕ) : reqid i < 2 ^ 32 := by
  cases i with
  | zero => exact Nat.two_pow_pos 32
  | succ i =>
    rw [reqid_succ]
    omega

/-- A reply of the server, and the call for which it has been made. -/
structure Answer where
  call : ℕ
  reply : Replied
  code_lt : code reply < 2 ^ 32
  fits : 12 + (payload reply).length ≤ maxPacketLen

/-- What `reply_trigger` replies has the size. -/
theorem fits_replied {D : Type*} (hdfObjChild : D → Bool) (hdfWriteString : D → Option CString) (calloc : Bool)
    (hdfsnd : Option D) (reply : ℕ) :
    12 + (payload (replied hdfObjChild hdfWriteString calloc hdfsnd reply).1).length ≤ maxPacketLen := by
  have hmini : ∀ code, 12 + (payload (.mini code)).length ≤ maxPacketLen := fun _ => by
    simp only [payload, maxPacketLen, List.length_nil]
    omega
  cases hdfsnd with
  | none => exact hmini _
  | some hdf =>
    simp only [replied]
    split
    · exact hmini _
    · split
      · exact hmini _
      · split
        · exact hmini _
        · exact length_payload_long _ _

def Answer.datagram (a : Answer) : Bytes := a.reply.packet .udp (be 4 (reqid a.call))

def Answer.bytes (a : Answer) : Bytes := a.reply.packet .tcp (be 4 (reqid a.call))

def Answer.frame (a : Answer) : RepFrame := frameOf a.reply (reqid a.call) (reqid_lt a.call) a.code_lt a.fits

theorem bytes_frame (a : Answer) : a.bytes = a.frame.bytes := packet_tcp (reqid_lt a.call) a.code_lt a.fits

/-- The bytes of replies sent one after the other. -/
def stream (answers : List Answer) : Bytes := (answers.map Answer.bytes).flatten

/-- The reply whose frame begins at this place of the stream. -/
def At (answers : List Answer) (pos : ℕ) (a : Answer) : Prop :=
  ∃ pre post, answers = pre ++ a :: post ∧ (stream pre).length = pos

def incoming (s : Socket) : Bytes :=
  (s.map fun a => match a with
    | .fails => []
    | .data chunk => chunk).flatten

def wire (ds : List (Option Answer)) : List (Option Bytes) := ds.map (Option.map Answer.datagram)

/-- `g_reqid`, how often it has been counted up, and how many bytes of each TCP connection have been
read. -/
structure Proc where
  greqid : ℕ
  calls : ℕ
  consumed : ℕ → ℕ

def start : Proc := ⟨0, 0, fun _ => 0⟩

/-- A call of `mevent_trigger`, by how far it comes: no server is selected, `srv_send` fails, it is
without `FLAGS_SYNC`, or it waits for its reply. The receive buffer may hold anything. -/
inductive Call where
  | noServer
  | unsent
  | async
  | datagrams (buf : Bytes) (ds : List (Option Answer))
  | connection (conn : ℕ) (buf : Bytes) (s : Socket)

def Proc.count (p : Proc) : Proc := { p with greqid := nextReqid p.greqid, calls := p.calls + 1 }

/-- `if (rv == -1) rv = REP_ERR` -/
def errcode (rv : ℕ) : ℕ := if rv = noReply then repErr else rv

def meventTrigger (p : Proc) : Call → ℕ × Proc
  | .noServer => (repErr, p)
  | .unsent => (repErrSend, p.count)
  | .async => (repCode .ok, p.count)
  | .datagrams buf ds => (errcode (udpGetRep p.count.greqid buf (wire ds)).1.1, p.count)
  | .connection conn buf s =>
    let ((rv, _), _, s') := tcpGetRep p.count.greqid buf s
    let got := (incoming s).length - (incoming s').length
    (errcode rv, { p.count with consumed := Function.update p.consumed conn (p.consumed conn + got) })

def step (p : Proc) (call : Call) : Proc := (meventTrigger p call).2

/-- What the network can do: the server replies to calls that were made, a connection gives the bytes
the server has sent on it, in their order. Anything may be lost, late or come twice. -/
def Possible (sent : ℕ → List Answer) (p : Proc) : Call → Prop
  | .datagrams _ ds => ∀ a, some a ∈ ds → a.call ≤ p.calls + 1
  | .connection conn _ s =>
    incoming s <+: (stream (sent conn)).drop (p.consumed conn) ∧
      ∀ pos a, At (sent conn) pos a → pos < p.consumed conn + (incoming s).length → a.call ≤ p.calls + 1
  | _ => True

/-- The code `get_rep` gives, if any, is the one of a reply to this call, which it has read. -/
def Own (sent : ℕ → List Answer) (p : Proc) : Call → Prop
  | .datagrams buf ds =>
    let ((rv, _), _, rest) := udpGetRep p.count.greqid buf (wire ds)
    rv = noReply ∨ ∃ pre a post, ds = pre ++ some a :: post ∧ rest = wire post ∧ a.call = p.calls + 1 ∧ rv = code a.reply
  | .connection conn buf s =>
    let ((rv, _), _, s') := tcpGetRep p.count.greqid buf s
    rv = noReply ∨ ∃ pos a, At (sent conn) pos a ∧ p.consumed conn ≤ pos ∧
      pos + a.bytes.length + (incoming s').length ≤ p.consumed conn + (incoming s).length ∧
      a.call = p.calls + 1 ∧ rv = code a.reply
  | _ => True

/-- The replies of other calls that come before the own one have smaller ids. -/
def Fresh (i : ℕ) : List (Option Answer) → Prop
  | some a :: ds => a.call = i ∨ reqid a.call < reqid i ∧ Fresh i ds
  | _ => True

/-- Nothing comes: an error, a timeout, or the end of the connection. -/
def Silent : Socket → Prop
  | .data (_ :: _) :: _ => False
  | _ => True

/-- Read from `pos` on, what comes on the connection begins with a frame, as long as anything comes; no
other frame than the own one, or one with a smaller id, is there before it is over, and a frame that
is not there completely is followed by a timeout. -/
inductive Orderly (answers : List Answer) (i : ℕ) : ℕ → Socket → Prop
  | silent {pos : ℕ} {s : Socket} (h : Silent s) : Orderly answers i pos s
  | broken {pos : ℕ} {a : Answer} (hat : At answers pos a) {cs : List Bytes} (hcs : Pieces cs)
      (hlt : cs.flatten.length < a.bytes.length) {tail : Socket} (htail : Stuck tail) :
      Orderly answers i pos (arriving cs tail)
  | own {pos : ℕ} {a : Answer} (hat : At answers pos a) {cs : List Bytes} (hcs : Pieces cs)
      (hle : a.bytes.length ≤ cs.flatten.length) (hcall : a.call = i) (tail : Socket) :
      Orderly answers i pos (arriving cs tail)
  | stale {pos : ℕ} {a : Answer} (hat : At answers pos a) {cs : List Bytes} (hcs : Pieces cs)
      (hle : a.bytes.length ≤ cs.flatten.length) (hid : reqid a.call < reqid i) {tail : Socket} {n : ℕ}
      (hn : n = max (firstRead cs) a.bytes.length)
      (hrest : Orderly answers i (pos + n) (arriving (after n cs) tail)) :
      Orderly answers i pos (arriving cs tail)

def InOrder (sent : ℕ → List Answer) (p : Proc) : Call → Prop
  | .datagrams _ ds => Fresh (p.calls + 1) ds
  | .connection conn _ s => Orderly (sent conn) (p.calls + 1) (p.consumed conn) s
  | _ => True

section Datagrams

theorem udpGetRep_answer (a : Answer) (greqid : ℕ) (buf : Bytes) (ds : List (Option Answer)) :
    ∃ buf', udpGetRep greqid buf (wire (some a :: ds)) =
      if reqid a.call < greqid then udpGetRep greqid buf' (wire ds)
      else ((code a.reply, (payload a.reply).length), buf', wire ds) := by
  obtain ⟨buf', hget, -⟩ := udpGetRep_cons (reqid_lt a.call) a.code_lt a.fits greqid buf (wire ds)
  exact ⟨buf', hget⟩

/-- Among datagrams in order `udp_get_rep` takes the own one, or none. -/
theorem udpGetRep_fresh {i : ℕ} {ds : List (Option Answer)} (h : Fresh i ds) (buf : Bytes) :
    (udpGetRep (reqid i) buf (wire ds)).1.1 = noReply ∨ ∃ pre a post, ds = pre ++ some a :: post ∧
      (udpGetRep (reqid i) buf (wire ds)).2.2 = wire post ∧ a.call = i ∧
        (udpGetRep (reqid i) buf (wire ds)).1.1 = code a.reply := by
  induction ds generalizing buf with
  | nil => exact .inl rfl
  | cons d ds ih =>
    cases d with
    | none => exact .inl rfl
    | some a =>
      obtain ⟨buf', hget⟩ := udpGetRep_answer a (reqid i) buf ds
      rw [hget]
      obtain hcall | ⟨hid, hrest⟩ := h
      · rw [if_neg (by rw [hcall]; exact Nat.lt_irrefl _)]
        exact .inr ⟨[], a, ds, rfl, rfl, hcall, rfl⟩
      · rw [if_pos hid]
        obtain hnone | ⟨pre, b, post, hds, hb⟩ := ih hrest buf'
        · exact .inl hnone
        · exact .inr ⟨some a :: pre, b, post, by rw [hds, List.cons_append], hb⟩

/-- Where it takes the own one or none, they are in order, if no code is the one of its failure. -/
theorem fresh_of_udpGetRep {i : ℕ} {ds : List (Option Answer)} (hcodes : ∀ a, some a ∈ ds → code a.reply ≠ noReply)
    (buf : Bytes)
    (h : (udpGetRep (reqid i) buf (wire ds)).1.1 = noReply ∨ ∃ pre a post, ds = pre ++ some a :: post ∧
      (udpGetRep (reqid i) buf (wire ds)).2.2 = wire post ∧ a.call = i ∧
        (udpGetRep (reqid i) buf (wire ds)).1.1 = code a.reply) : Fresh i ds := by
  induction ds generalizing buf with
  | nil => trivial
  | cons d ds ih =>
    cases d with
    | none => trivial
    | some a =>
      by_cases hcall : a.call = i
      · exact .inl hcall
      obtain ⟨buf', hget⟩ := udpGetRep_answer a (reqid i) buf ds
      rw [hget] at h
      split at h
      · next hid =>
        refine .inr ⟨hid, ih (fun b hb => hcodes b (List.mem_cons_of_mem _ hb)) buf' (h.imp_right ?_)⟩
        rintro ⟨pre, b, post, hds, hb⟩
        obtain _ | ⟨c, pre⟩ := pre
        · obtain rfl : a = b := by simpa using (List.cons.inj hds).1
          exact absurd hb.2.1 hcall
        · exact ⟨pre, b, post, (List.cons.inj hds).2, hb⟩
      · -- the reply in front has been taken
        obtain hnone | ⟨pre, b, post, hds, hrest, hb⟩ := h
        · exact absurd hnone (hcodes a List.mem_cons_self)
        · have hlen := congrArg List.length hds
          have hpost := congrArg List.length hrest
          simp only [wire, List.length_map, List.length_cons, List.length_append] at hlen hpost
          obtain rfl : pre = [] := List.eq_nil_of_length_eq_zero (by omega)
          obtain rfl : a = b := by simpa using (List.cons.inj hds).1
          exact absurd hb.1 hcall

end Datagrams

section Connections
variable {answers : List Answer} {pos : ℕ} {a : Answer}

@[simp] theorem incoming_arriving (cs : List Bytes) (tail : Socket) :
    incoming (arriving cs tail) = cs.flatten ++ incoming tail := by
  induction cs with
  | nil => rfl
  | cons c cs ih => rw [List.flatten_cons, List.append_assoc, ← ih]; rfl

theorem At.drop (h : At answers pos a) : ∃ rest, (stream answers).drop pos = a.bytes ++ rest := by
  obtain ⟨pre, post, rfl, rfl⟩ := h
  have hstream : stream (pre ++ a :: post) = stream pre ++ (a.bytes ++ stream post) := by simp [stream]
  exact ⟨stream post, by rw [hstream, List.drop_left]⟩

theorem At.flatten_eq (h : At answers pos a) {cs : List Bytes} {tail : Socket}
    (hdata : incoming (arriving cs tail) <+: (stream answers).drop pos) (hle : a.bytes.length ≤ cs.flatten.length) :
    ∃ rest, cs.flatten = a.frame.bytes ++ rest := by
  obtain ⟨rest, hdrop⟩ := h.drop
  rw [incoming_arriving, hdrop] at hdata
  have hcs : cs.flatten <+: a.bytes ++ rest := (List.prefix_append _ _).trans hdata
  obtain ⟨more, hmore⟩ := List.prefix_of_prefix_length_le (List.prefix_append a.bytes rest) hcs hle
  exact ⟨more, by rw [← bytes_frame, hmore]⟩

/-- A frame in front which is not there completely gives no reply. -/
theorem tcpGetRep_broken (h : At answers pos a) {cs : List Bytes} (hcs : Pieces cs)
    (hlt : cs.flatten.length < a.bytes.length) {tail : Socket} (htail : Stuck tail)
    (hdata : incoming (arriving cs tail) <+: (stream answers).drop pos) (greqid : ℕ) (buf : Bytes) :
    (tcpGetRep greqid buf (arriving cs tail)).1.1 = noReply := by
  obtain ⟨rest, hdrop⟩ := h.drop
  rw [incoming_arriving, hdrop] at hdata
  have hflat : cs.flatten <+: a.bytes :=
    List.prefix_of_prefix_length_le ((List.prefix_append _ _).trans hdata) (List.prefix_append _ _) hlt.le
  have hsize : word (a.bytes.take 4) = a.bytes.length := by
    rw [bytes_frame, ← size_bytes a.frame [], List.append_nil]
  have hnone := recvMsg_short htail hcs buf hflat hlt hsize
  rw [tcpGetRep_of_none (Prod.ext hnone rfl : recvMsg buf (arriving cs tail) = (none, (recvMsg buf (arriving cs tail)).2))]

theorem tcpGetRep_silent {s : Socket} (h : Silent s) (greqid : ℕ) (buf : Bytes) :
    (tcpGetRep greqid buf s).1.1 = noReply := by
  have hnone : (recvMsg buf s).1 = none := by
    obtain _ | ⟨_ | ⟨_ | _⟩, s⟩ := s
    · rfl
    · rfl
    · rfl
    · exact h.elim
  rw [tcpGetRep_of_none (Prod.ext hnone rfl : recvMsg buf s = (none, (recvMsg buf s).2))]

/-- On a connection in order `tcp_get_rep` takes the own reply, or none. -/
theorem tcpGetRep_orderly {i : ℕ} {s : Socket} (h : Orderly answers i pos s)
    (hdata : incoming s <+: (stream answers).drop pos) (buf : Bytes) :
    (tcpGetRep (reqid i) buf s).1.1 = noReply ∨ ∃ k a, At answers k a ∧ pos ≤ k ∧
      k + a.bytes.length + (incoming (tcpGetRep (reqid i) buf s).2.2).length ≤ pos + (incoming s).length ∧
        a.call = i ∧ (tcpGetRep (reqid i) buf s).1.1 = code a.reply := by
  induction h generalizing buf with
  | silent h => exact .inl (tcpGetRep_silent h _ buf)
  | broken hat hcs hlt htail => exact .inl (tcpGetRep_broken hat hcs hlt htail hdata _ buf)
  | @own pos a hat cs hcs hle hcall tail =>
    obtain ⟨rest, hflat⟩ := hat.flatten_eq hdata hle
    have hid : reqid i ≤ a.frame.id := (congrArg reqid hcall.symm).le
    have hfirst := firstRead_le cs
    obtain ⟨buf', hget, -⟩ := tcpGetRep_arriving tail hcs hflat hid buf rfl
    refine .inr ⟨pos, a, hat, le_refl pos, ?_, hcall, by rw [hget]; rfl⟩
    rw [hget, incoming_arriving, incoming_arriving, flatten_after, List.length_append, List.length_append,
      List.length_drop, ← bytes_frame]
    omega
  | @stale pos a hat cs hcs hle hid tail n hn hrest ih =>
    obtain ⟨rest, hflat⟩ := hat.flatten_eq hdata hle
    have hfirst := firstRead_le cs
    have hread : n ≤ cs.flatten.length := by omega
    obtain ⟨buf', hget⟩ := tcpGetRep_stale tail hcs hflat hid buf (hn.trans (by rw [bytes_frame]))
    have hnext : incoming (arriving (after n cs) tail) = (incoming (arriving cs tail)).drop n := by
      rw [incoming_arriving, incoming_arriving, flatten_after, List.drop_append_of_le_length hread]
    have hrest' := ih (by rw [hnext, ← List.drop_drop]; exact hdata.drop n) buf'
    rw [hget]
    obtain hnone | ⟨k, b, hat', hpos, hend, hb⟩ := hrest'
    · exact .inl hnone
    · refine .inr ⟨k, b, hat', by omega, ?_, hb⟩
      rw [hnext, List.length_drop] at hend
      rw [incoming_arriving, List.length_append] at hend ⊢
      omega

end Connections

@[simp] theorem greqid_count (p : Proc) : p.count.greqid = nextReqid p.greqid := rfl

@[simp] theorem calls_count (p : Proc) : p.count.calls = p.calls + 1 := rfl

/-- `g_reqid` is the id of the last call. -/
def Counted (p : Proc) : Prop := p.greqid = reqid p.calls

theorem Counted.count {p : Proc} (h : Counted p) : Counted p.count := by
  rw [Counted, greqid_count, calls_count, h, nextReqid_reqid]

theorem counted_step {p : Proc} (h : Counted p) (call : Call) : Counted (step p call) := by
  cases call with
  | noServer => exact h
  | _ => exact h.count

theorem own_of_inOrder {sent : ℕ → List Answer} {p : Proc} (hp : Counted p) {call : Call} (hposs : Possible sent p call)
    (h : InOrder sent p call) : Own sent p call := by
  have hid : p.count.greqid = reqid (p.calls + 1) := hp.count
  cases call with
  | datagrams buf ds =>
    simp only [Own, hid]
    exact udpGetRep_fresh h buf
  | connection conn buf s =>
    simp only [Own, hid]
    exact tcpGetRep_orderly h hposs.1 buf
  | _ => trivial

theorem counted_run {p : Proc} (h : Counted p) (calls : List Call) : Counted (calls.foldl step p) := by
  induction calls generalizing p with
  | nil => exact h
  | cons call calls ih => exact ih (counted_step h call)

/-- A call whose replies come as datagrams, with codes that are not the one of a failure. -/
def Call.Coded : Call → Prop
  | .datagrams _ ds => ∀ a, some a ∈ ds → code a.reply ≠ noReply
  | .connection .. => False
  | _ => True

theorem inOrder_of_own {sent : ℕ → List Answer} {p : Proc} (hp : Counted p) {call : Call} (h : Own sent p call)
    (hcoded : call.Coded) : InOrder sent p call := by
  have hid : p.count.greqid = reqid (p.calls + 1) := hp.count
  cases call with
  | datagrams buf ds =>
    simp only [Own, hid] at h
    exact fresh_of_udpGetRep hcoded buf h
  | connection conn buf s => exact hcoded.elim
  | _ => trivial

/-- In every run whose calls are in order, every call takes its own reply or none; with datagrams no
other runs do. -/
theorem triggers_own (sent : ℕ → List Answer) (calls : List Call) :
    (Guarded step (fun p call => Possible sent p call ∧ InOrder sent p call) start calls →
      Guarded step (Own sent) start calls) ∧
    (Guarded step (Own sent) start calls →
      Guarded step (fun p call => call.Coded → InOrder sent p call) start calls) :=
  ⟨fun h => h.imp (fun _ call hp => counted_step hp call) (fun _ _ hp h => own_of_inOrder hp h.1 h.2) rfl,
    fun h => h.imp (fun _ call hp => counted_step hp call) (fun _ _ hp h => inOrder_of_own hp h) rfl⟩

/-- A code alone, in reply to this call. -/
def answerTo (call : ℕ) : Answer := ⟨call, .mini 1000, by decide, by decide⟩

/-- The first call times out, and its reply comes in front of the one to the second call. -/
theorem triggers_own_late : Guarded step (Own fun _ => [answerTo 1, answerTo 2]) start
    [.connection 0 [] [], .connection 0 [] (arriving [(answerTo 1).bytes, (answerTo 2).bytes] [])] := by
  have hlen : ∀ call, (answerTo call).bytes.length = 12 := fun call => by rw [bytes_frame, length_bytes]; rfl
  have hpieces : Pieces [(answerTo 1).bytes, (answerTo 2).bytes] := by
    intro c hc
    apply List.ne_nil_of_length_pos
    obtain rfl | rfl : c = (answerTo 1).bytes ∨ c = (answerTo 2).bytes := by simpa using hc
    all_goals simp [hlen]
  have hsecond : (step start (.connection 0 [] [])).calls = 1 ∧ (step start (.connection 0 [] [])).consumed 0 = 0 := by
    simp [step, meventTrigger, start, incoming]
  have hafter : after 12 [(answerTo 1).bytes, (answerTo 2).bytes] = [(answerTo 2).bytes] := by
    rw [after_of_le (hlen 1).le, hlen, after_zero hpieces.tail]
  have horder : Orderly [answerTo 1, answerTo 2] 2 0 (arriving [(answerTo 1).bytes, (answerTo 2).bytes] []) := by
    refine .stale (n := 12) ⟨[], [answerTo 2], rfl, rfl⟩ hpieces (by simp [hlen]) (by decide) ?_ ?_
    · simp [firstRead, hlen, maxPacketLen]
    · rw [hafter]
      exact .own ⟨[answerTo 1], [], rfl, by simp [stream, hlen]⟩ hpieces.tail (by simp) rfl []
  refine (triggers_own _ _).1 ⟨⟨⟨List.nil_prefix, ?_⟩, .silent trivial⟩, ⟨⟨?_, ?_⟩, ?_⟩, trivial⟩
  · intro pos a _ hpos
    exact absurd hpos (Nat.not_lt_zero pos)
  · rw [hsecond.2, incoming_arriving]
    simp [stream, incoming]
  · rintro pos a ⟨pre, post, hsent, -⟩ -
    have hsent : [answerTo 1, answerTo 2] = pre ++ a :: post := hsent
    have ha : a ∈ [answerTo 1, answerTo 2] := hsent ▸ List.mem_append_right pre List.mem_cons_self
    rw [hsecond.1]
    obtain rfl | rfl : a = answerTo 1 ∨ a = answerTo 2 := by simpa using ha
    all_goals decide
  · show Orderly _ _ _ _
    rw [hsecond.1, hsecond.2]
    exact horder

theorem calls_timeouts (n : ℕ) (p : Proc) :
    ((List.replicate n (Call.datagrams [] [])).foldl step p).calls = p.calls + n := by
  induction n generalizing p with
  | zero => rfl
  | succ n ih =>
    rw [List.replicate_succ, List.foldl_cons, ih, step, meventTrigger, calls_count]
    omega

/-- After `0x0FFFFFFD` calls the next one has the id 1, and takes the late reply to the last of them. -/
theorem triggers_stale : ¬∀ (sent : ℕ → List Answer) (calls : List Call),
    Guarded step (Possible sent) start calls → Guarded step (Own sent) start calls := by
  intro h
  obtain ⟨n, hn⟩ : ∃ n, n = 0x0FFFFFFD := ⟨_, rfl⟩
  let timeouts : List Call := List.replicate n (.datagrams [] [])
  have hcalls : (timeouts.foldl step start).calls = n := (calls_timeouts n start).trans (Nat.zero_add n)
  have hposs : Guarded step (Possible fun _ => []) start (timeouts ++ [.datagrams [] [some (answerTo n)]]) := by
    refine guarded_append.mpr ⟨Guarded.of_forall (fun p call hmem => ?_) start, ?_, trivial⟩
    · obtain rfl := List.eq_of_mem_replicate hmem
      exact fun a ha => absurd ha List.not_mem_nil
    · intro a ha
      obtain rfl : a = answerTo n := by simpa using ha
      rw [hcalls]
      exact Nat.le_succ n
  have hown := (guarded_append.mp (h _ _ hposs)).2.1
  have hcoded : (Call.datagrams [] [some (answerTo n)]).Coded := by
    intro a ha
    obtain rfl : a = answerTo n := by simpa using ha
    exact (by decide : 1000 ≠ noReply)
  have hfresh := inOrder_of_own (counted_run (p := start) rfl timeouts) hown hcoded
  simp only [InOrder, Fresh, hcalls, reqid_succ, hn, Nat.mod_self, answerTo] at hfresh
  omega

end Cmoon.TriggerRuns
