import Cmoon.PartialRuns
import Cmoon.ProcessDrivers
import Cmoon.ReplyIds
import Mathlib.Algebra.BigOperators.Group.Finset.Basic

/-! # The life of a request

The network thread of the daemon and the workers of its plugins, in any interleaving. A request that
waits for a reply gets one reply or is still on its way; any other goes through its plugin without one. -/
namespace Cmoon.RequestLifecycles
open DecimalText ByteBuffers EventDaemon ExceptResults PartialRuns ProcessDrivers ReplyIds ReplyPackets
open RequestRouting

/-- The queue whose lock the network thread waits for, and the entry it will put there. -/
abbrev Put := Option (ℕ × QueueEntry)

/-- `put_in_queue_long` up to `queue_lock`. It reads the size of the queue without the lock; `full` is
what the reads say. -/
def beforeLock (d : Daemon) (env : Env) (full : ℕ → Bool) (req : ReqInfo) (sync : Bool) (ename : Bytes)
    (hdfrcv : Option Bytes) : Except Fault (Daemon × ℕ × Put) :=
  match findEntryInTable d.mevent ename with
  | none =>
    if strncmpEq ename reserveStatus ename.length then do
      match ← makeQueueLongEntry env req ename hdfrcv with
      | none => return (d, 0, none)
      | some e => return (parseStats d env e, 1, none)
    else
      let d := { d with stats := { d.stats with netUnkReq := d.stats.netUnkReq + 1 } }
      return (d.replyIf sync req .errUnkreq, 1, none)
  | some entry =>
    if full entry.opQueue then
      let d := { d with stats := { d.stats with proBusy := d.stats.proBusy + 1 } }
      return (d.replyIf sync req .errBusy, 1, none)
    else do
      match ← makeQueueLongEntry env req ename hdfrcv with
      | none => return (d, 0, none)
      | some e => return (d, 1, some (entry.opQueue, e))

/-- `parse_message` up to `queue_lock`. -/
def receive (d : Daemon) (env : Env) (full : ℕ → Bool) (req : ReqInfo) (m : Bytes) (len : ℕ) :
    Except Fault (Daemon × Put × ℕ) :=
  if len < 17 then
    let d := { d with stats := { d.stats with netBrokenReq := d.stats.netBrokenReq + 1 } }
    .ok (d.reply (.mini req .errBroken), none, 0)
  else if version m ≠ protoVer then
    let d := { d with stats := { d.stats with netVersionMismatch := d.stats.netVersionMismatch + 1 } }
    .ok (d.reply (.mini (req.hostId m) .errVer), none, 0)
  else
    let req := req.filled m
    do
      match ← readEvent m (len - 8) with
      | none =>
        let d := { d with stats := { d.stats with netBrokenReq := d.stats.netBrokenReq + 1 } }
        return (d.replyIf req.sync req .errBroken, none, 1)
      | some (ename, hdfrcv) =>
        let (d, rv, put) ← beforeLock d env full req req.sync ename hdfrcv
        return (if rv = 0 then d.replyIf req.sync req .errMem else d, put, 1)

/-- `queue_lock`, `queue_cas` or `queue_put`, `queue_unlock`. -/
def lockAndPut (d : Daemon) : Put → Daemon
  | none => d
  | some (i, e) =>
    { d with
      queues := Function.update d.queues i
        (if e.req.sync then queueCas (d.queues i) e else queuePut (d.queues i) e) }

theorem makeQueueLongEntry_eq {env : Env} {req : ReqInfo} {n : Bytes} {body : Option Bytes} {o : Option QueueEntry}
    (h : makeQueueLongEntry env req n body = .ok o) :
    o = if allocates env then some (requestEntry req n body) else none := by
  cases hg : givesUp env with
  | true =>
    have ha : allocates env = false := Bool.eq_false_iff.mpr fun ha => by simp [givesUp_of_allocates ha] at hg
    rw [makeQueueLongEntry_of_givesUp hg] at h
    simpa [ha] using (Except.ok.inj h).symm
  | false =>
    cases ha : allocates env with
    | false =>
      rw [makeQueueLongEntry_otherwise ha hg] at h
      cases h
    | true =>
      rw [makeQueueLongEntry_of_allocates ha] at h
      exact (Except.ok.inj h).symm

theorem putInQueueLong_eq (d : Daemon) (env : Env) (req : ReqInfo) (n : Bytes) (body : Option Bytes) :
    putInQueueLong d env req req.sync n body =
      (beforeLock d env (fun i => busy (d.queues i)) req req.sync n body).map fun r => (lockAndPut r.1 r.2.2, r.2.1) := by
  unfold putInQueueLong beforeLock
  cases findEntryInTable d.mevent n with
  | none =>
    simp only
    split
    · cases makeQueueLongEntry env req n body with
      | error f => rfl
      | ok o => cases o <;> rfl
    · rfl
  | some entry =>
    simp only
    split
    · rfl
    · cases hmake : makeQueueLongEntry env req n body with
      | error f => rfl
      | ok o =>
        cases o with
        | none => rfl
        | some e =>
          obtain rfl : e = requestEntry req n body := by
            have heq := makeQueueLongEntry_eq hmake
            split at heq
            · exact Option.some.inj heq
            · cases heq
          rfl

theorem lockAndPut_replyIf (d : Daemon) (put : Put) (sync : Bool) (req : ReqInfo) (code : Rep) :
    lockAndPut (d.replyIf sync req code) put = (lockAndPut d put).replyIf sync req code := by
  cases put <;> cases sync <;> rfl

theorem parseMessage_eq (d : Daemon) (env : Env) (req : ReqInfo) (m : Bytes) (len : ℕ) :
    parseMessage d env req m len =
      (receive d env (fun i => busy (d.queues i)) req m len).map fun r => (lockAndPut r.1 r.2.1, r.2.2) := by
  unfold parseMessage receive
  split
  · rfl
  split
  · rfl
  simp only [parseEvent]
  cases readEvent m (len - 8) with
  | error f => rfl
  | ok r =>
    cases r with
    | none => rfl
    | some r =>
      obtain ⟨ename, hdfrcv⟩ := r
      simp only [takeEvent, putInQueueLong_eq, ok_bind]
      cases beforeLock d env (fun i => busy (d.queues i)) (req.filled m) (req.filled m).sync ename hdfrcv with
      | error f => rfl
      | ok a =>
        obtain ⟨d', rv, put⟩ := a
        simp only [Except.map, bind, Except.bind, pure, Except.pure]
        split
        · rw [lockAndPut_replyIf]
        · rfl

/-- The daemon with its workers: the entry the network thread is about to put, the entry each worker
is at, the plugins, and the replies of the workers. `taken` records what a worker took out of its queue. -/
structure System (E : Type) where
  daemon : Daemon
  net : Put
  worker : ℕ → Option QueueEntry
  driver : ℕ → Driver E
  answers : List (ReqInfo × Replied)
  taken : ℕ → List QueueEntry

inductive Turn where
  /-- The network thread parses a message, up to the lock of a queue. -/
  | message (env : Env) (full : ℕ → Bool) (req : ReqInfo) (m : Bytes) (len : ℕ)
  /-- The network thread puts its entry. -/
  | put
  /-- The worker of a queue takes the entry at the front, if there is one. -/
  | get (i : ℕ)
  /-- The worker runs `process_driver`, replies and frees the entry. -/
  | process (i : ℕ) (calloc : Bool)

variable {E : Type} (plugins : ℕ → Plugin E)

/-- One turn; it has no result when the thread is elsewhere, or when the turn leaves C. -/
def step (s : System E) : Turn → Option (System E)
  | .message env full req m len =>
    match s.net, receive s.daemon env full req m len with
    | none, .ok (d, put, _) => some { s with daemon := d, net := put }
    | _, _ => none
  | .put =>
    match s.net with
    | none => none
    | put => some { s with daemon := lockAndPut s.daemon put, net := none }
  | .get i =>
    match s.worker i, s.daemon.queues i with
    | none, q :: queue =>
      some { s with
        daemon := { s.daemon with queues := Function.update s.daemon.queues i queue }
        worker := Function.update s.worker i (some q)
        taken := Function.update s.taken i (s.taken i ++ [q]) }
    | _, _ => none
  | .process i calloc =>
    match s.worker i with
    | none => none
    | some q =>
      match processDriver (plugins i) calloc (s.driver i) q with
      | .error _ => none
      | .ok (e, r) =>
        some { s with
          worker := Function.update s.worker i none
          driver := Function.update s.driver i e
          answers := s.answers ++ (r.map (q.req, ·)).toList }

def start (drivers : List (Option Bytes)) (own : ℕ → E) : System E :=
  ⟨.initial drivers, none, fun _ => none, fun i => ⟨own i, .zero⟩, [], fun _ => []⟩

/-- The statistics of the daemon itself, which are sent whatever the flags say. -/
def asksStatistics (evt : MEvent) (env : Env) (n : Bytes) : Bool :=
  (findEntryInTable evt n).isNone && strncmpEq n reserveStatus n.length && allocates env

/-- Who is to get a reply for a message: the sender of one that is short or of another version, of
one with `FLAGS_SYNC`, and of a request for the statistics. -/
def owed (evt : MEvent) : Turn → Multiset ReqInfo
  | .message env _ req m len =>
    if len < 17 then {req}
    else if version m ≠ protoVer then {req.hostId m}
    else
      match readEvent m (len - 8) with
      | .ok (some (n, _)) => if (req.filled m).sync || asksStatistics evt env n then {req.filled m} else 0
      | .ok none => if (req.filled m).sync then {req.filled m} else 0
      | .error _ => 0
  | _ => 0

/-- The entry a message is to become, and the queue of its plugin. -/
def routed (evt : MEvent) : Turn → Put
  | .message env full req m len =>
    if len < 17 ∨ version m ≠ protoVer then none
    else
      match readEvent m (len - 8) with
      | .ok (some (n, body)) =>
        match findEntryInTable evt n with
        | some e =>
          if !full e.opQueue && allocates env then some (e.opQueue, requestEntry (req.filled m) n body) else none
        | none => none
      | _ => none
  | _ => none

def Put.at (put : Put) (i : ℕ) : List QueueEntry := ((put.filter (·.1 = i)).map Prod.snd).toList

/-- Where the entries of a queue are until they are through. -/
def System.pending (s : System E) (i : ℕ) : List QueueEntry :=
  (s.worker i).toList ++ s.daemon.queues i ++ s.net.at i

def waits (l : List QueueEntry) : Multiset ReqInfo := ((l.filter fun e => e.req.sync).map QueueEntry.req : List ReqInfo)

/-- The requests replied to so far, by the daemon or a plugin. -/
def System.answered (s : System E) : Multiset ReqInfo :=
  (s.daemon.sent.map reqOf : Multiset ReqInfo) + (s.answers.map Prod.fst : Multiset ReqInfo)

section Receiving
variable {d d' : Daemon} {env : Env} {full : ℕ → Bool} {req : ReqInfo} {put : Put}

/-- What a message does before the lock: whoever is due a reply has it or waits for the entry. -/
structure Receives (d d' : Daemon) (put : Put) (due : Multiset ReqInfo) : Prop where
  mevent : d'.mevent = d.mevent
  queues : d'.queues = d.queues
  due : (d'.sent.map reqOf : Multiset ReqInfo) + waits (put.map Prod.snd).toList =
    (d.sent.map reqOf : Multiset ReqInfo) + due

theorem receives_reply (stats : Stats) (r : Reply) :
    Receives d ({ d with stats := stats }.reply r) none {reqOf r} :=
  ⟨rfl, rfl, by simp [Daemon.reply, waits, ← Multiset.coe_add]⟩

theorem receives_replyIf (stats : Stats) (code : Rep) :
    Receives d ({ d with stats := stats }.replyIf req.sync req code) none (if req.sync then {req} else 0) := by
  cases hsync : req.sync with
  | true => exact receives_reply stats (.mini req code)
  | false => exact ⟨rfl, rfl, by simp [Daemon.replyIf, waits]⟩

theorem receives_put (i : ℕ) (n : Bytes) (body : Option Bytes) :
    Receives d d (some (i, requestEntry req n body)) (if req.sync then {req} else 0) := by
  refine ⟨rfl, rfl, ?_⟩
  cases hsync : req.sync <;> simp [waits, requestEntry, hsync]

/-- What an event does before the lock, after what `parse_event` adds on a memory error. -/
theorem beforeLock_receives {n : Bytes} {body : Option Bytes} {rv : ℕ}
    (h : beforeLock d env full req req.sync n body = .ok (d', rv, put)) :
    Receives d (if rv = 0 then d'.replyIf req.sync req .errMem else d') put
        (if req.sync || asksStatistics d.mevent env n then {req} else 0) ∧
      put = match findEntryInTable d.mevent n with
        | some e => if !full e.opQueue && allocates env then some (e.opQueue, requestEntry req n body) else none
        | none => none := by
  unfold beforeLock at h
  cases hf : findEntryInTable d.mevent n with
  | none =>
    simp only [hf] at h
    split at h
    · rename_i hreserved
      obtain ⟨o, hmake, h⟩ := bind_eq_ok_iff.mp h
      obtain rfl := makeQueueLongEntry_eq hmake
      cases ha : allocates env with
      | true =>
        obtain ⟨rfl, rfl, rfl⟩ := by simpa [ha, pure, Except.pure] using h
        refine ⟨?_, rfl⟩
        have hasks : asksStatistics d.mevent env n = true := by simp [asksStatistics, hf, hreserved, ha]
        rw [if_neg Nat.one_ne_zero, parseStats_eq, hasks, Bool.or_true, if_pos rfl]
        have hreply := receives_reply (d := d) d.stats (statsReply d env req)
        rwa [reqOf_statsReply] at hreply
      | false =>
        obtain ⟨rfl, rfl, rfl⟩ := by simpa [ha, pure, Except.pure] using h
        refine ⟨?_, rfl⟩
        have hasks : asksStatistics d.mevent env n = false := by simp [asksStatistics, ha]
        rw [if_pos rfl, hasks, Bool.or_false]
        exact receives_replyIf d.stats .errMem
    · rename_i hother
      obtain ⟨rfl, rfl, rfl⟩ := by simpa [pure, Except.pure] using h
      have hasks : asksStatistics d.mevent env n = false := by simp [asksStatistics, hother]
      rw [if_neg Nat.one_ne_zero, hasks, Bool.or_false]
      exact ⟨receives_replyIf _ .errUnkreq, rfl⟩
  | some entry =>
    simp only [hf] at h
    have hasks : asksStatistics d.mevent env n = false := by simp [asksStatistics, hf]
    rw [hasks, Bool.or_false]
    split at h
    · rename_i hfull
      obtain ⟨rfl, rfl, rfl⟩ := by simpa [pure, Except.pure] using h
      exact ⟨receives_replyIf _ .errBusy, by simp [hfull]⟩
    · rename_i hfull
      obtain ⟨o, hmake, h⟩ := bind_eq_ok_iff.mp h
      obtain rfl := makeQueueLongEntry_eq hmake
      cases ha : allocates env with
      | true =>
        obtain ⟨rfl, rfl, rfl⟩ := by simpa [ha, pure, Except.pure] using h
        exact ⟨receives_put _ n body, by simp [hfull]⟩
      | false =>
        obtain ⟨rfl, rfl, rfl⟩ := by simpa [ha, pure, Except.pure] using h
        exact ⟨receives_replyIf d.stats .errMem, by simp⟩

theorem receive_receives {m : Bytes} {len rv : ℕ} (h : receive d env full req m len = .ok (d', put, rv)) :
    Receives d d' put (owed d.mevent (.message env full req m len)) ∧
      put = routed d.mevent (.message env full req m len) := by
  unfold receive at h
  simp only [owed, routed]
  split at h
  · rename_i hshort
    obtain ⟨rfl, rfl, -⟩ := by simpa using h
    simp only [hshort, if_true, true_or]
    exact ⟨receives_reply _ _, trivial⟩
  rename_i hlong
  split at h
  · rename_i hver
    obtain ⟨rfl, rfl, -⟩ := by simpa using h
    simp only [hlong, hver, if_false, if_true, ne_eq, not_false_eq_true, or_true]
    exact ⟨receives_reply _ _, trivial⟩
  rename_i hver
  obtain ⟨r, hread, h⟩ := bind_eq_ok_iff.mp h
  simp only [hlong, hver, if_false, or_self, hread]
  cases r with
  | none =>
    obtain ⟨rfl, rfl, -⟩ := by simpa [pure, Except.pure] using h
    exact ⟨receives_replyIf _ .errBroken, rfl⟩
  | some r =>
    obtain ⟨n, body⟩ := r
    obtain ⟨⟨d₁, rv₁, put₁⟩, hbefore, h⟩ := bind_eq_ok_iff.mp h
    obtain ⟨rfl, rfl, -⟩ := by simpa [pure, Except.pure] using h
    exact beforeLock_receives hbefore

end Receiving

section Conservation
variable {plugins : ℕ → Plugin E} {evt : MEvent} {n : ℕ} {s s' : System E} {t : Turn}

theorem waits_append (l l' : List QueueEntry) : waits (l ++ l') = waits l + waits l' := by
  simp [waits, ← Multiset.coe_add]

theorem waits_perm {l l' : List QueueEntry} (h : l.Perm l') : waits l = waits l' :=
  Multiset.coe_eq_coe.mpr ((h.filter _).map _)

/-- All senders that wait, at the first `n` queues. -/
def System.waiting (s : System E) (n : ℕ) : Multiset ReqInfo :=
  ∑ i ∈ Finset.range n, waits (s.pending i)

/-- The plugin table is the one of the start, and no entry is where no plugin is. -/
structure Within (evt : MEvent) (n : ℕ) (s : System E) : Prop where
  mevent : s.daemon.mevent = evt
  nowhere : ∀ i, n ≤ i → s.pending i = []

theorem step_message {env : Env} {full : ℕ → Bool} {req : ReqInfo} {m : Bytes} {len : ℕ}
    (h : step plugins s (.message env full req m len) = some s') :
    s.net = none ∧ ∃ d put rv, receive s.daemon env full req m len = .ok (d, put, rv) ∧
      s' = { s with daemon := d, net := put } := by
  simp only [step] at h
  split at h
  · rename_i hnet hreceive
    exact ⟨hnet, _, _, _, hreceive, (Option.some.inj h).symm⟩
  · cases h

theorem step_put (h : step plugins s .put = some s') :
    ∃ i e, s.net = some (i, e) ∧ s' = { s with daemon := lockAndPut s.daemon (some (i, e)), net := none } := by
  simp only [step] at h
  cases hnet : s.net with
  | none => simp [hnet] at h
  | some p => exact ⟨p.1, p.2, rfl, by simpa [hnet] using h.symm⟩

theorem step_get {i : ℕ} (h : step plugins s (.get i) = some s') :
    ∃ q queue, s.worker i = none ∧ s.daemon.queues i = q :: queue ∧
      s' = { s with
        daemon := { s.daemon with queues := Function.update s.daemon.queues i queue }
        worker := Function.update s.worker i (some q)
        taken := Function.update s.taken i (s.taken i ++ [q]) } := by
  simp only [step] at h
  split at h
  · rename_i hworker hqueue
    exact ⟨_, _, hworker, hqueue, (Option.some.inj h).symm⟩
  · cases h

theorem step_process {i : ℕ} {calloc : Bool} (h : step plugins s (.process i calloc) = some s') :
    ∃ q e r, s.worker i = some q ∧ processDriver (plugins i) calloc (s.driver i) q = .ok (e, r) ∧
      s' = { s with
        worker := Function.update s.worker i none
        driver := Function.update s.driver i e
        answers := s.answers ++ (r.map (q.req, ·)).toList } := by
  simp only [step] at h
  split at h
  · cases h
  · rename_i q hworker
    split at h
    · cases h
    · rename_i e r hdone
      exact ⟨q, e, r, hworker, hdone, (Option.some.inj h).symm⟩

@[simp] theorem at_none (j : ℕ) : Put.at none j = [] := rfl

theorem at_some (i : ℕ) (e : QueueEntry) (j : ℕ) : Put.at (some (i, e)) j = if i = j then [e] else [] := by
  by_cases h : i = j <;> simp [Put.at, Option.filter, h]

/-- The entries of a queue that a turn of a message, of a put or of a `queue_get` leaves pending. -/
theorem pending_message (d : Daemon) (put : Put) (hnet : s.net = none) (hd : d.queues = s.daemon.queues) (j : ℕ) :
    System.pending { s with daemon := d, net := put } j = s.pending j ++ put.at j := by
  simp [System.pending, hnet, hd]

theorem queues_lockAndPut (d : Daemon) (i : ℕ) (e : QueueEntry) (j : ℕ) :
    ((lockAndPut d (some (i, e))).queues j).Perm (d.queues j ++ Put.at (some (i, e)) j) := by
  rw [at_some]
  by_cases h : i = j
  · subst h
    simp only [lockAndPut, Function.update_self, if_true]
    split
    · exact (List.perm_append_singleton e _).symm
    · exact .refl _
  · simp [lockAndPut, h, Function.update_of_ne (Ne.symm h)]

theorem pending_put {i : ℕ} {e : QueueEntry} (hnet : s.net = some (i, e)) (j : ℕ) :
    (System.pending { s with daemon := lockAndPut s.daemon (some (i, e)), net := none } j).Perm (s.pending j) := by
  simp only [System.pending, hnet, at_none, List.append_nil, List.append_assoc]
  exact (queues_lockAndPut s.daemon i e j).append_left _

theorem pending_get {i : ℕ} {q : QueueEntry} {queue : List QueueEntry} (hworker : s.worker i = none)
    (hqueue : s.daemon.queues i = q :: queue) (taken : ℕ → List QueueEntry) (j : ℕ) :
    System.pending { s with
        daemon := { s.daemon with queues := Function.update s.daemon.queues i queue }
        worker := Function.update s.worker i (some q)
        taken := taken } j = s.pending j := by
  by_cases h : j = i
  · subst h
    simp [System.pending, hworker, hqueue]
  · simp [System.pending, h]

theorem pending_process {i : ℕ} {q : QueueEntry} (hworker : s.worker i = some q) (driver : ℕ → Driver E)
    (answers : List (ReqInfo × Replied)) (j : ℕ) :
    s.pending j = (if j = i then [q] else []) ++
      System.pending { s with worker := Function.update s.worker i none, driver := driver, answers := answers } j := by
  by_cases h : j = i
  · subst h
    simp [System.pending, hworker]
  · simp [System.pending, h]

theorem routed_lt (hqueues : ∀ {name e}, findEntryInTable evt name = some e → e.opQueue < n) {i : ℕ}
    {e : QueueEntry} (h : routed evt t = some (i, e)) : i < n := by
  cases t with
  | message env full req m len =>
    simp only [routed] at h
    split at h
    · cases h
    split at h
    · split at h
      · rename_i entry hf
        split at h
        · obtain ⟨rfl, -⟩ := Prod.mk.inj (Option.some.inj h)
          exact hqueues hf
        · cases h
      · cases h
    · cases h
  | _ => cases h

/-- A place where nothing waits keeps nothing when an entry goes elsewhere. -/
theorem at_eq_nil {put : Put} {i : ℕ} (h : ∀ j e, put = some (j, e) → j ≠ i) : put.at i = [] := by
  cases put with
  | none => rfl
  | some p => rw [at_some, if_neg (h p.1 p.2 rfl)]

theorem Within.step (hqueues : ∀ {name e}, findEntryInTable evt name = some e → e.opQueue < n)
    (hs : Within evt n s) (h : step plugins s t = some s') : Within evt n s' := by
  cases t with
  | message env full req m len =>
    obtain ⟨hnet, d, put, rv, hreceive, rfl⟩ := step_message h
    obtain ⟨hd, hput⟩ := receive_receives hreceive
    refine ⟨hd.mevent.trans hs.mevent, fun i hi => ?_⟩
    rw [pending_message d put hnet hd.queues, hs.nowhere i hi, List.nil_append]
    refine at_eq_nil fun j e he => ?_
    rw [hput, hs.mevent] at he
    exact (Nat.lt_of_lt_of_le (routed_lt hqueues he) hi).ne
  | put =>
    obtain ⟨i, e, hnet, rfl⟩ := step_put h
    refine ⟨hs.mevent, fun j hj => ?_⟩
    have hperm := pending_put hnet j
    rw [hs.nowhere j hj] at hperm
    exact hperm.eq_nil
  | get i =>
    obtain ⟨q, queue, hworker, hqueue, rfl⟩ := step_get h
    exact ⟨hs.mevent, fun j hj => (pending_get hworker hqueue _ j).trans (hs.nowhere j hj)⟩
  | process i calloc =>
    obtain ⟨q, e, r, hworker, -, rfl⟩ := step_process h
    refine ⟨hs.mevent, fun j hj => ?_⟩
    have hsplit := pending_process hworker (Function.update s.driver i e) (s.answers ++ (r.map (q.req, ·)).toList) j
    rw [hs.nowhere j hj] at hsplit
    exact (List.append_eq_nil_iff.mp hsplit.symm).2

/-- A message: whoever is owed a reply has it, or waits for the entry at the lock. -/
private theorem account_message {d : Daemon} {put : Put} {due : Multiset ReqInfo} (hnet : s.net = none)
    (hd : Receives s.daemon d put due) (hput : ∀ i e, put = some (i, e) → i < n) :
    System.answered { s with daemon := d, net := put } + System.waiting { s with daemon := d, net := put } n =
      s.answered + s.waiting n + due := by
  have hwaits : ∑ j ∈ Finset.range n, waits (put.at j) = waits (put.map Prod.snd).toList := by
    cases put with
    | none => simp [waits]
    | some p =>
      obtain ⟨i, e⟩ := p
      have hi : i ∈ Finset.range n := Finset.mem_range.mpr (hput i e rfl)
      rw [Finset.sum_eq_single_of_mem i hi fun j _ hj => by rw [at_some, if_neg hj.symm]; rfl, at_some, if_pos rfl]
      rfl
  simp only [System.waiting, System.answered, pending_message d put hnet hd.queues, waits_append,
    Finset.sum_add_distrib, hwaits]
  generalize (s.answers.map Prod.fst : Multiset ReqInfo) = a
  generalize ∑ j ∈ Finset.range n, waits (s.pending j) = w
  calc (d.sent.map reqOf : Multiset ReqInfo) + a + (w + waits (put.map Prod.snd).toList)
      = (d.sent.map reqOf : Multiset ReqInfo) + waits (put.map Prod.snd).toList + a + w := by ac_rfl
    _ = (s.daemon.sent.map reqOf : Multiset ReqInfo) + due + a + w := by rw [hd.due]
    _ = (s.daemon.sent.map reqOf : Multiset ReqInfo) + a + w + due := by ac_rfl

/-- A worker: whoever waited for the entry has the reply. -/
private theorem account_process {p : Plugin E} {calloc : Bool} {i : ℕ} {q : QueueEntry} {e : Driver E}
    {r : Option Replied} (hs : Within evt n s) (hworker : s.worker i = some q)
    (hdone : processDriver p calloc (s.driver i) q = .ok (e, r)) {s' : System E}
    (hs' : s' = { s with
      worker := Function.update s.worker i none
      driver := Function.update s.driver i e
      answers := s.answers ++ (r.map (q.req, ·)).toList }) :
    s'.answered + s'.waiting n = s.answered + s.waiting n := by
  have hi : i ∈ Finset.range n := by
    by_contra hi
    have hnil := hs.nowhere i (Nat.le_of_not_lt (mt Finset.mem_range.mpr hi))
    simp [System.pending, hworker] at hnil
  have hpending : s.waiting n = waits [q] + s'.waiting n := by
    have hone : ∑ j ∈ Finset.range n, waits (if j = i then [q] else []) = waits [q] := by
      rw [Finset.sum_eq_single_of_mem i hi fun j _ hj => by rw [if_neg hj]; rfl, if_pos rfl]
    rw [← hone, System.waiting, System.waiting, ← Finset.sum_add_distrib]
    refine Finset.sum_congr rfl fun j _ => ?_
    rw [pending_process hworker (Function.update s.driver i e) (s.answers ++ (r.map (q.req, ·)).toList) j,
      waits_append, hs']
  have hreply : s'.answered = s.answered + waits [q] := by
    have hsome := (processDriver_spec hdone).2.2
    subst hs'
    cases r with
    | none =>
      have hsync : q.req.sync = false := hsome.symm
      simp [System.answered, waits, hsync]
    | some r =>
      have hsync : q.req.sync = true := hsome.symm
      simp [System.answered, waits, hsync, ← Multiset.coe_add, add_assoc]
  rw [hreply, hpending, add_assoc]

theorem step_account (hqueues : ∀ {name e}, findEntryInTable evt name = some e → e.opQueue < n)
    (hs : Within evt n s) (h : step plugins s t = some s') :
    s'.answered + s'.waiting n = s.answered + s.waiting n + owed evt t := by
  cases t with
  | message env full req m len =>
    obtain ⟨hnet, d, put, rv, hreceive, rfl⟩ := step_message h
    obtain ⟨hd, hput⟩ := receive_receives hreceive
    rw [hs.mevent] at hd hput
    exact account_message hnet hd fun i e he => routed_lt hqueues (hput.symm.trans he)
  | put =>
    obtain ⟨i, e, hnet, rfl⟩ := step_put h
    simp only [System.waiting, owed, add_zero, fun j => waits_perm (pending_put hnet j)]
    rfl
  | get i =>
    obtain ⟨q, queue, hworker, hqueue, rfl⟩ := step_get h
    simp only [System.waiting, owed, add_zero, pending_get hworker hqueue]
    rfl
  | process i calloc =>
    obtain ⟨q, e, r, hworker, hdone, hs'⟩ := step_process h
    have hnone : owed evt (.process i calloc) = 0 := rfl
    rw [hnone, add_zero]
    exact account_process hs hworker hdone hs'

/-- All entries of a queue there have been: those a worker took, and those still there. -/
def System.through (s : System E) (i : ℕ) : List QueueEntry := s.taken i ++ s.daemon.queues i ++ s.net.at i

/-- Those of a list of entries whose senders do not wait. -/
def async (l : List QueueEntry) : List QueueEntry := l.filter fun e => !e.req.sync

theorem async_append (l l' : List QueueEntry) : async (l ++ l') = async l ++ async l' := List.filter_append ..

/-- What is put in front does not come before those nobody waits for. -/
theorem async_lockAndPut (d : Daemon) (i : ℕ) (e : QueueEntry) (j : ℕ) :
    async ((lockAndPut d (some (i, e))).queues j) = async (d.queues j ++ Put.at (some (i, e)) j) := by
  rw [at_some]
  by_cases h : i = j
  · subst h
    cases hsync : e.req.sync <;> simp [lockAndPut, hsync, async, queueCas, queuePut]
  · simp [lockAndPut, h, Function.update_of_ne (Ne.symm h)]

/-- No turn loses an entry or makes one up, and those nobody waits for stay in their order. -/
theorem step_through (hs : Within evt n s) (h : step plugins s t = some s') (i : ℕ) :
    (s'.through i).Perm (s.through i ++ (routed evt t).at i) ∧
      async (s'.through i) = async (s.through i ++ (routed evt t).at i) := by
  cases t with
  | message env full req m len =>
    obtain ⟨hnet, d, put, rv, hreceive, rfl⟩ := step_message h
    obtain ⟨hd, hput⟩ := receive_receives hreceive
    rw [hs.mevent] at hput
    have heq : System.through { s with daemon := d, net := put } i =
        s.through i ++ (routed evt (.message env full req m len)).at i := by
      rw [← hput]
      simp [System.through, hnet, hd.queues]
    rw [heq]
    exact ⟨.refl _, rfl⟩
  | put =>
    obtain ⟨j, e, hnet, rfl⟩ := step_put h
    have hnone : (routed evt .put).at i = [] := rfl
    simp only [System.through, hnet, hnone, at_none, List.append_nil, List.append_assoc]
    refine ⟨(queues_lockAndPut s.daemon j e i).append_left _, ?_⟩
    rw [async_append, async_lockAndPut, ← async_append]
  | get j =>
    obtain ⟨q, queue, -, hqueue, rfl⟩ := step_get h
    have hnone : (routed evt (.get j)).at i = [] := rfl
    rw [hnone, List.append_nil]
    by_cases hi : i = j
    · subst hi
      simp [System.through, hqueue]
    · simp [System.through, hi]
  | process j calloc =>
    obtain ⟨q, e, r, -, -, rfl⟩ := step_process h
    have hnone : (routed evt (.process j calloc)).at i = [] := rfl
    rw [hnone, List.append_nil]
    exact ⟨.refl _, rfl⟩

end Conservation

section Runs
variable {plugins : ℕ → Plugin E} {drivers : List (Option Bytes)} {own : ℕ → E} {ts : List Turn} {s : System E}

theorem startAll_below {evt : MEvent} {q : ℕ} (h : TableInv evt q) (drivers : List (Option Bytes)) :
    TableInv (startAll evt q drivers) (q + drivers.length) := by
  induction drivers generalizing evt q with
  | nil => exact h
  | cons driver drivers ih =>
    rw [List.length_cons, Nat.add_comm drivers.length, ← Nat.add_assoc]
    cases driver with
    | none =>
      have hrest := ih h
      exact ⟨hrest.home, hrest.sorted, fun he => Nat.lt_of_lt_of_le (hrest.below he) (by omega), hrest.own⟩
    | some name =>
      have hstep := meventStartDriver_inv h name
      rw [startAll]
      generalize meventStartDriver evt ⟨name, q⟩ = started at hstep ⊢
      obtain ⟨evt', ok⟩ := started
      cases ok
      · exact ih hstep
      · exact ih ⟨hstep.home, hstep.sorted, hstep.below, hstep.own⟩

theorem opQueue_lt {name : Bytes} {e : EventEntry} (h : findEntryInTable (meventStart drivers) name = some e) :
    e.opQueue < drivers.length := by
  have htable := startAll_below tableInv_initial drivers
  rw [Nat.zero_add] at htable
  exact htable.below (findEntryInTable_some htable h).loaded

theorem within_start : Within (meventStart drivers) drivers.length (start drivers own) := ⟨rfl, fun _ _ => rfl⟩

theorem keeps_within : Keeps (step plugins) (Within (meventStart drivers) drivers.length) :=
  fun _ _ _ hs h => hs.step opQueue_lt h

/-- Whoever is owed a reply has been sent one, or still waits for an entry on its way. -/
theorem run_answered (hrun : run (step plugins) (start drivers own) ts = some s) :
    s.answered + s.waiting drivers.length = (ts.map (owed (meventStart drivers))).sum := by
  have haccount := run_sum (μ := fun s : System E => s.answered + s.waiting drivers.length) keeps_within
    (fun _ _ _ hs h => step_account opQueue_lt hs h) within_start hrun
  simpa [start, System.answered, System.waiting, System.pending, Daemon.initial, waits] using haccount

theorem run_through (hrun : run (step plugins) (start drivers own) ts = some s) (i : ℕ) :
    (s.through i).Perm (ts.flatMap fun t => (routed (meventStart drivers) t).at i) :=
  run_perm (μ := fun s : System E => s.through i) keeps_within
    (fun _ _ _ hs h => (step_through hs h i).1) within_start hrun

/-- In every run of the daemon and its plugins, whatever the interleaving: whoever is owed a reply has
been sent one, once, or still waits for an entry on its way, and nobody else is sent any; the entries of
a plugin are those that were routed to it, each once, and those nobody waits for in the order they came. -/
theorem requests_settled (hrun : run (step plugins) (start drivers own) ts = some s) :
    s.answered + s.waiting drivers.length = (ts.map (owed (meventStart drivers))).sum ∧
      ∀ i, (s.through i).Perm (ts.flatMap fun t => (routed (meventStart drivers) t).at i) ∧
        async (s.through i) = async (ts.flatMap fun t => (routed (meventStart drivers) t).at i) := by
  refine ⟨run_answered hrun, fun i => ⟨run_through hrun i, ?_⟩⟩
  have hasync := run_flatMap (μ := fun s : System E => async (s.through i)) keeps_within
    (fun _ _ _ hs h => (step_through hs h i).2.trans (async_append _ _)) within_start hrun
  rw [hasync]
  exact (List.filter_flatMap ..).symm

def askA : Turn :=
  .message (.plenty fun _ => none) (fun _ => false) ⟨3, .udp, [], [], 0, 0⟩
    [16, 0, 0, 7, 0, 1, 0, 2, 0, 0, 0, 1, 97, 0, 0, 0, 3, 0, 0, 0, 0, 0, 0, 0, 1, 0] 26

def askTurns : List Turn := [askA, .put, .get 0, .process 0 true]

def idlePlugin : Plugin Unit := ⟨fun _ => none, fun _ => [], fun _ => none⟩

theorem askTurns_run : (run (step fun _ => idlePlugin) (start [some [97]] fun _ => ()) askTurns).isSome := by decide

/-- The request comes to the plugin, which does not know its command and says so. -/
theorem requests_settled_askA :
    ∃ s, run (step fun _ => idlePlugin) (start [some [97]] fun _ => ()) askTurns = some s ∧
      s.answered + s.waiting 1 = (askTurns.map (owed (meventStart [some [97]]))).sum := by
  obtain ⟨s, hs⟩ := Option.isSome_iff_exists.mp askTurns_run
  exact ⟨s, hs, (requests_settled hs).1⟩

def System.Counted (s : System E) : Prop :=
  ∀ i, (s.driver i).st.Balanced ∧ (s.driver i).st.msgTotal + (s.worker i).toList.length = (s.taken i).length

theorem keeps_counted : Keeps (step plugins) System.Counted := by
  intro s t s' hs h i
  obtain ⟨hbalanced, htotal⟩ := hs i
  cases t with
  | message env full req m len =>
    obtain ⟨-, d, put, rv, -, rfl⟩ := step_message h
    exact ⟨hbalanced, htotal⟩
  | put =>
    obtain ⟨j, e, -, rfl⟩ := step_put h
    exact ⟨hbalanced, htotal⟩
  | get j =>
    obtain ⟨q, queue, hworker, -, rfl⟩ := step_get h
    refine ⟨hbalanced, ?_⟩
    by_cases hi : i = j
    · subst hi
      rw [hworker] at htotal
      simpa using htotal
    · simpa [hi] using htotal
  | process j calloc =>
    obtain ⟨q, e, r, hworker, hdone, rfl⟩ := step_process h
    by_cases hi : i = j
    · subst hi
      obtain ⟨hone, hkeeps, -⟩ := processDriver_spec hdone
      rw [hworker] at htotal
      refine ⟨by simpa using hkeeps hbalanced, ?_⟩
      simpa [hone] using htotal
    · simpa [hi] using ⟨hbalanced, htotal⟩

/-- In every run each plugin has come to one end with every entry it is through with, good or bad, and
counts each refusal once: its counters add up to the entries it took. -/
theorem counters_add_up (hrun : run (step plugins) (start drivers own) ts = some s) (i : ℕ) :
    (s.driver i).st.Balanced ∧ (s.driver i).st.msgTotal + (s.worker i).toList.length = (s.taken i).length :=
  keeps_counted.run (s := start drivers own) (fun _ => ⟨Counters.balanced_zero, rfl⟩) hrun i

theorem counters_add_up_askA :
    ∃ s, run (step fun _ => idlePlugin) (start [some [97]] fun _ => ()) askTurns = some s ∧
      (s.driver 0).st.Balanced ∧ (s.driver 0).st.msgTotal + (s.worker 0).toList.length = (s.taken 0).length := by
  obtain ⟨s, hs⟩ := Option.isSome_iff_exists.mp askTurns_run
  exact ⟨s, hs, counters_add_up hs 0⟩

end Runs

end Cmoon.RequestLifecycles
