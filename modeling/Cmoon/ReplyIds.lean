import Cmoon.ReplyPackets
import Cmoon.RequestRouting

/-! # The id of a reply

Every reply should carry the id of its message in network byte order. `parse_message` writes that word
into the request only after its first two tests. -/
namespace Cmoon.ReplyIds
open DecimalText ByteBuffers EventDaemon ReplyPackets RequestRouting

def Gained (d d' : Daemon) (e : QueueEntry) : Prop := ∃ i, (d'.queues i).Perm (e :: d.queues i)

/-- A packet that goes out for the message which took the daemon from `d` to `d'`: a reply, the word
that sending one failed, or what a plugin replies to an entry made for the message. -/
inductive Answer (d d' : Daemon) : ReqType → Bytes → Prop
  | reply {new : List Reply} (hsent : d'.sent = d.sent ++ new) {r : Reply} (hr : r ∈ new) :
      Answer d d' (reqOf r).type (packetOf r)
  | sendFailed {new : List Reply} (hsent : d'.sent = d.sent ++ new) {r : Reply} (hr : r ∈ new) :
      Answer d d' (reqOf r).type (replyMini (reqOf r).type (reqOf r).id repErrSend)
  | plugin {e : QueueEntry} (he : Gained d d' e) (r : Replied) :
      Answer d d' e.req.type (r.packet e.req.type e.req.id)

/-- All that comes of the message is done with this request. -/
structure Under (d d' : Daemon) (req : ReqInfo) (new : List Reply) : Prop where
  sent : d'.sent = d.sent ++ new
  replies : ∀ r ∈ new, reqOf r = req
  entries : ∀ e, Gained d d' e → e.req = req

section Taken
variable {d d' : Daemon} {req : ReqInfo}

/-- When no queue changes no entry has been made. -/
private theorem not_gained (hq : d'.queues = d.queues) (e : QueueEntry) : ¬Gained d d' e := by
  rintro ⟨i, hperm⟩
  have hlen := hperm.length_eq
  rw [hq, List.length_cons] at hlen
  omega

private theorem under_reply (hq : d'.queues = d.queues) {r : Reply} (hsent : d'.sent = d.sent ++ [r])
    (hr : reqOf r = req) : Under d d' req [r] :=
  ⟨hsent, fun _ h => List.mem_singleton.mp h ▸ hr, fun e he => absurd he (not_gained hq e)⟩

private theorem under_replyIf (hq : d'.queues = d.queues) (hsent : d'.sent = d.sent) (code : Rep) :
    ∃ new, Under d (d'.replyIf req.sync req code) req new := by
  have hq' : (d'.replyIf req.sync req code).queues = d.queues := (replyIf_queues d' req.sync req code).trans hq
  cases hsync : req.sync with
  | false => exact ⟨[], ⟨by simp [Daemon.replyIf, hsent], by simp, fun e he => absurd he (not_gained (hsync ▸ hq') e)⟩⟩
  | true => exact ⟨[.mini req code], under_reply (hsync ▸ hq') (by simp [Daemon.replyIf, Daemon.reply, hsent]) rfl⟩

/-- An entry put at either end is the one a queue has gained. -/
private theorem gained_update {i : ℕ} {q : List QueueEntry} {e₀ : QueueEntry}
    (hq : q.Perm (e₀ :: d.queues i)) {e : QueueEntry}
    (he : Gained d { d with queues := Function.update d.queues i q } e) : e = e₀ := by
  obtain ⟨j, hperm⟩ := he
  by_cases hj : j = i
  · subst hj
    have hperm : q.Perm (e :: d.queues j) := by simpa using hperm
    have hcount := (hq.symm.trans hperm).count_eq e
    by_contra hne
    rw [List.count_cons_self, List.count_cons_of_ne (Ne.symm hne)] at hcount
    omega
  · have hlen := hperm.length_eq
    simp [hj] at hlen

/-- The entry of a request, put at the end its flags say. -/
private theorem under_queued (e : EventEntry) (n : Bytes) (body : Option Bytes) :
    Under d { d with
      queues := Function.update d.queues e.opQueue
        (if req.sync then queueCas (d.queues e.opQueue) (requestEntry req n body)
          else queuePut (d.queues e.opQueue) (requestEntry req n body)) } req [] := by
  have hperm : (if req.sync then queueCas (d.queues e.opQueue) (requestEntry req n body)
      else queuePut (d.queues e.opQueue) (requestEntry req n body)).Perm
        (requestEntry req n body :: d.queues e.opQueue) := by
    split
    · exact .refl _
    · exact List.perm_append_singleton _ _
  refine ⟨by simp, by simp, fun e' he' => ?_⟩
  rw [gained_update hperm he']
  rfl

theorem reqOf_statsReply (d : Daemon) (env : Env) (req : ReqInfo) : reqOf (statsReply d env req) = req := by
  unfold statsReply
  split
  · split <;> rfl
  · rfl

theorem takeEvent_under {env : Env} {r : Option (Bytes × Option Bytes)}
    (h : takeEvent d env req r = .ok d') : ∃ new, Under d d' req new := by
  obtain _ | ⟨n, body⟩ := r
  · obtain rfl := Except.ok.inj h
    refine under_replyIf ?_ ?_ _ <;> rfl
  rcases takeEvent_cases h with ⟨e, rfl⟩ | rfl | ⟨stats, code, -, rfl⟩
  · exact ⟨[], under_queued e n body⟩
  · refine ⟨[statsReply d env req], under_reply ?_ ?_ (reqOf_statsReply d env req)⟩ <;> rfl
  · refine under_replyIf ?_ ?_ _ <;> rfl

theorem parseEvent_under {env : Env} {m : Bytes} {psize : ℕ} (h : parseEvent d env req m psize = .ok d') :
    ∃ new, Under d d' req new := by
  rw [parseEvent] at h
  cases hr : readEvent m psize with
  | error f => simp [hr, bind, Except.bind] at h
  | ok event =>
    rw [hr] at h
    exact takeEvent_under h

end Taken

section Answers
variable {d d' : Daemon} {req : ReqInfo} {new : List Reply}

theorem idWord_answer (h : Under d d' req new) (hid : req.id.length = 4) {type : ReqType} {packet : Bytes}
    (ha : Answer d d' type packet) : idWord type packet = req.id := by
  have hsame : ∀ {new' : List Reply}, d'.sent = d.sent ++ new' → ∀ r ∈ new', reqOf r = req := by
    intro new' hsent r hr
    rw [List.append_cancel_left (hsent.symm.trans h.sent)] at hr
    exact h.replies r hr
  cases ha with
  | reply hsent hr =>
    have hreq := hsame hsent _ hr
    rw [idWord_packetOf (by rw [hreq, hid]), hreq]
  | sendFailed hsent hr =>
    have hreq := hsame hsent _ hr
    rw [hreq, idWord_replyMini hid]
  | plugin he r =>
    rw [h.entries _ he, idWord_packet hid]

/-- With a reply sent, all answers carry a word exactly when the request does. -/
theorem answers_iff (h : Under d d' req new) (hid : req.id.length = 4) (hnew : new ≠ []) (word : Bytes) :
    (∀ type packet, Answer d d' type packet → idWord type packet = word) ↔ req.id = word := by
  obtain ⟨r, hr⟩ := List.exists_mem_of_ne_nil new hnew
  constructor
  · intro hall
    have ha : Answer d d' (reqOf r).type (packetOf r) := .reply h.sent hr
    rw [← idWord_answer h hid ha, hall _ _ ha]
  · rintro rfl type packet ha
    exact idWord_answer h hid ha

end Answers

/-- Every answer to the message echoes its id exactly when, short of 17 bytes, the request still held
this id from the message before, and from there on the version is right or the id reads the same in
both byte orders. -/
theorem parseMessage_echoesId_iff {d d' : Daemon} {env : Env} {req : ReqInfo} {m : Bytes} {len rv : ℕ}
    (hid : req.id.length = 4) (h : parseMessage d env req m len = .ok (d', rv)) :
    (∀ type packet, Answer d d' type packet → idWord type packet = be 4 (msgId m)) ↔
      if len < 17 then req.id = be 4 (msgId m)
      else version m = protoVer ∨ (be 4 (msgId m)).reverse = be 4 (msgId m) := by
  unfold parseMessage at h
  split at h
  · next hlt =>
    obtain ⟨rfl, -⟩ := Prod.mk.inj (Except.ok.inj h)
    rw [if_pos hlt]
    have hunder : Under d
        ({ d with stats := { d.stats with netBrokenReq := d.stats.netBrokenReq + 1 } }.reply (.mini req .errBroken))
        req [.mini req .errBroken] := by
      refine under_reply ?_ ?_ rfl <;> rfl
    exact answers_iff hunder hid (List.cons_ne_nil _ _) _
  · next hge =>
    rw [if_neg hge]
    split at h
    · next hver =>
      obtain ⟨rfl, -⟩ := Prod.mk.inj (Except.ok.inj h)
      rw [or_iff_right hver]
      have hlen : (req.hostId m).id.length = 4 := by simp [ReqInfo.hostId]
      have hunder : Under d
          ({ d with stats := { d.stats with netVersionMismatch := d.stats.netVersionMismatch + 1 } }.reply
            (.mini (req.hostId m) .errVer)) (req.hostId m) [.mini (req.hostId m) .errVer] := by
        refine under_reply ?_ ?_ rfl <;> rfl
      exact answers_iff hunder hlen (List.cons_ne_nil _ _) _
    · next hver =>
      refine iff_of_true (fun type packet ha => ?_) (.inl (not_not.mp hver))
      cases hp : parseEvent d env (req.filled m) m (len - 8) with
      | error f => simp [hp, bind, Except.bind] at h
      | ok r =>
        obtain rfl : r = d' := by
          have hpair : (r, 1) = (d', rv) := by simpa [hp, bind, Except.bind, pure, Except.pure] using h
          exact (Prod.mk.inj hpair).1
        obtain ⟨new, hunder⟩ := parseEvent_under hp
        exact idWord_answer hunder (length_be 4 _) ha

/-- Seventeen bytes of another version, with the id 1. -/
def otherVersion : Bytes := [32, 0, 0, 1, 0, 0, 0, 0, 0, 0, 0, 0, 0, 0, 0, 0, 0]

/-- Its answer carries the id with the bytes the other way round. -/
theorem parseMessage_otherVersion : ¬∀ (d d' : Daemon) (env : Env) (req : ReqInfo) (m : Bytes) (len rv : ℕ),
    req.id.length = 4 → 8 ≤ len → len ≤ m.length → parseMessage d env req m len = .ok (d', rv) →
      ∀ type packet, Answer d d' type packet → idWord type packet = be 4 (msgId m) := by
  intro h
  let req : ReqInfo := ⟨4, .udp, [], [0, 0, 0, 0], 0, 0⟩
  have hall := h (.initial []) _ (.plenty fun _ => none) req otherVersion 17 0 rfl (by decide) (by decide) rfl
  have hword := hall _ _ (.reply rfl (List.mem_singleton_self (Reply.mini (req.hostId otherVersion) .errVer)))
  revert hword
  decide

/-- The request of seven for the event without a name. -/
theorem parseMessage_echoesId_unnamed :
    let env : Env := .plenty fun _ => none
    ∃ d', parseMessage (.initial []) env ⟨4, .udp, [], [0, 0, 0, 0], 0, 0⟩ unnamedRequest 25 = .ok (d', 1) ∧
      ∀ type packet, Answer (.initial []) d' type packet → idWord type packet = [0, 0, 0, 7] := by
  intro env
  refine ⟨_, rfl, ?_⟩
  exact (@parseMessage_echoesId_iff (.initial []) _ env _ unnamedRequest 25 1 rfl rfl).mpr (by decide)

end Cmoon.ReplyIds
