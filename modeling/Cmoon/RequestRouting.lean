import Cmoon.EventDaemon

/-! # Where a decoded request goes

The plugin table answers like the list of the loaded plugins, the last one loaded
first. A request then goes to the queue of its plugin, to the statistics or to the
counter of unknown requests. -/
namespace Cmoon.RequestRouting
open DecimalText OneAtATimeHash ByteBuffers EventDaemon

def Loaded (evt : MEvent) (e : EventEntry) : Prop := ∃ i : Fin hashlen, e ∈ evt.table[i]

/-- The plugin registered under `n`; of several the one loaded last. -/
structure Newest (evt : MEvent) (n : Bytes) (e : EventEntry) : Prop where
  loaded : Loaded evt e
  name_eq : e.name = n
  last : ∀ e', Loaded evt e' → e'.name = n → e'.opQueue ≤ e.opQueue

/-- Every plugin stands in the chain of its name, later ones in front, with a queue of its own
among the first `q`. -/
structure TableInv (evt : MEvent) (q : ℕ) : Prop where
  home : ∀ {i : Fin hashlen} {e : EventEntry}, e ∈ evt.table[i] → slot e.name = i
  sorted : ∀ i : Fin hashlen, (evt.table[i]).Pairwise fun a b => b.opQueue < a.opQueue
  below : ∀ {e : EventEntry}, Loaded evt e → e.opQueue < q
  own : ∀ {a b : EventEntry}, Loaded evt a → Loaded evt b → a.opQueue = b.opQueue → a = b

theorem tableInv_initial : TableInv ⟨0, Vector.replicate hashlen []⟩ 0 := by
  have hnone : ∀ e, ¬ Loaded ⟨0, Vector.replicate hashlen []⟩ e := by
    rintro e ⟨i, he⟩
    simp at he
  refine ⟨?_, by simp, fun he => (hnone _ he).elim, fun ha => (hnone _ ha).elim⟩
  intro i e he
  exact (hnone e ⟨i, he⟩).elim

private theorem meventStartDriver_chain {evt : MEvent} {e' : EventEntry}
    (hstarted : (meventStartDriver evt e').2 = true) (i : Fin hashlen) :
    (meventStartDriver evt e').1.table[i] = if slot e'.name = i then e' :: evt.table[i] else evt.table[i] := by
  simp only [meventStartDriver] at hstarted ⊢
  split
  · by_cases hi : slot e'.name = i
    · subst hi
      simp
    · have hne : (slot e'.name : ℕ) ≠ i := fun hv => hi (Fin.ext hv)
      simp [hi, hne]
  · rename_i hfull
    rw [if_neg hfull] at hstarted
    cases hstarted

private theorem meventStartDriver_full {evt : MEvent} {e' : EventEntry}
    (hfull : (meventStartDriver evt e').2 = false) : (meventStartDriver evt e').1 = evt := by
  simp only [meventStartDriver] at hfull ⊢
  split at hfull
  · cases hfull
  · rename_i hlong
    rw [if_neg hlong]

private theorem loaded_meventStartDriver {evt : MEvent} {e' : EventEntry}
    (hstarted : (meventStartDriver evt e').2 = true) {e : EventEntry} :
    Loaded (meventStartDriver evt e').1 e ↔ e = e' ∨ Loaded evt e := by
  constructor
  · rintro ⟨i, he⟩
    rw [meventStartDriver_chain hstarted] at he
    split at he
    · rcases List.mem_cons.mp he with rfl | he
      · exact .inl rfl
      · exact .inr ⟨i, he⟩
    · exact .inr ⟨i, he⟩
  · rintro (rfl | ⟨i, he⟩)
    · refine ⟨slot e.name, ?_⟩
      rw [meventStartDriver_chain hstarted, if_pos rfl]
      exact List.mem_cons_self
    · refine ⟨i, ?_⟩
      rw [meventStartDriver_chain hstarted]
      split
      · exact List.mem_cons_of_mem _ he
      · exact he

theorem meventStartDriver_inv {evt : MEvent} {q : ℕ} (h : TableInv evt q) (name : Bytes) :
    TableInv (meventStartDriver evt ⟨name, q⟩).1 (q + 1) := by
  cases hstarted : (meventStartDriver evt ⟨name, q⟩).2 with
  | false =>
    rw [meventStartDriver_full hstarted]
    exact ⟨h.home, h.sorted, fun he => Nat.lt_succ_of_lt (h.below he), h.own⟩
  | true =>
    have hchain := meventStartDriver_chain hstarted
    have hloaded := fun e => @loaded_meventStartDriver evt ⟨name, q⟩ hstarted e
    refine ⟨?_, ?_, ?_, ?_⟩
    · intro i e he
      rw [hchain] at he
      split at he
      · rename_i hi
        rcases List.mem_cons.mp he with rfl | he
        · exact hi
        · exact h.home he
      · exact h.home he
    · intro i
      rw [hchain]
      split
      · exact List.pairwise_cons.mpr ⟨fun e he => h.below ⟨i, he⟩, h.sorted i⟩
      · exact h.sorted i
    · intro e he
      rcases (hloaded e).mp he with rfl | he
      · exact Nat.lt_succ_self q
      · exact Nat.lt_succ_of_lt (h.below he)
    · intro a b ha hb hq
      rcases (hloaded a).mp ha with rfl | ha <;> rcases (hloaded b).mp hb with rfl | hb
      · rfl
      · exact absurd hq (h.below hb).ne'
      · exact absurd hq (h.below ha).ne
      · exact h.own ha hb hq

theorem startAll_inv {evt : MEvent} {q : ℕ} (h : TableInv evt q) (drivers : List (Option Bytes)) :
    ∃ q', TableInv (startAll evt q drivers) q' := by
  induction drivers generalizing evt q with
  | nil => exact ⟨q, h⟩
  | cons driver drivers ih =>
    cases driver with
    | none => exact ih h
    | some name =>
      have hstep := meventStartDriver_inv h name
      rw [startAll]
      generalize meventStartDriver evt ⟨name, q⟩ = started at hstep ⊢
      obtain ⟨evt', ok⟩ := started
      cases ok
      · exact ih hstep
      · exact ih ⟨hstep.home, hstep.sorted, hstep.below, hstep.own⟩

theorem meventStart_inv (drivers : List (Option Bytes)) : ∃ q, TableInv (meventStart drivers) q :=
  startAll_inv tableInv_initial drivers

section Lookup
variable {evt : MEvent} {q : ℕ} (h : TableInv evt q)
include h

theorem findEntryInTable_none {n : Bytes} :
    findEntryInTable evt n = none ↔ ∀ e, Loaded evt e → e.name ≠ n := by
  rw [findEntryInTable, List.find?_eq_none]
  constructor
  · rintro hall e ⟨i, he⟩ rfl
    obtain rfl := h.home he
    simpa using hall e he
  · intro hall e he
    simpa using hall e ⟨_, he⟩

theorem findEntryInTable_some {n : Bytes} {e : EventEntry} (hf : findEntryInTable evt n = some e) :
    Newest evt n e := by
  obtain ⟨hname, xs, ys, hsplit, hxs⟩ := List.find?_eq_some_iff_append.mp hf
  have hname : e.name = n := by simpa using hname
  have hmem : e ∈ evt.table[slot n] := List.mem_of_find?_eq_some hf
  refine ⟨⟨_, hmem⟩, hname, ?_⟩
  rintro e' ⟨i, he'⟩ hname'
  obtain rfl : slot n = i := hname' ▸ h.home he'
  have hsorted := h.sorted (slot n)
  rw [hsplit] at he' hsorted
  rcases List.mem_append.mp he' with hx | hx
  · have hne := hxs e' hx
    simp [hname'] at hne
  · rcases List.mem_cons.mp hx with rfl | hx
    · exact le_refl _
    · exact ((List.pairwise_cons.mp (List.pairwise_append.mp hsorted).2.1).1 e' hx).le

theorem findEntryInTable_iff {n : Bytes} {e : EventEntry} :
    findEntryInTable evt n = some e ↔ Newest evt n e := by
  refine ⟨findEntryInTable_some h, fun hnew => ?_⟩
  cases hf : findEntryInTable evt n with
  | none => exact absurd hnew.name_eq ((findEntryInTable_none h).mp hf e hnew.loaded)
  | some e' =>
    have hnew' := findEntryInTable_some h hf
    have hq : e'.opQueue = e.opQueue :=
      le_antisymm (hnew.last e' hnew'.loaded hnew'.name_eq) (hnew'.last e hnew.loaded hnew.name_eq)
    rw [h.own hnew'.loaded hnew.loaded hq]

end Lookup

def Unregistered (evt : MEvent) (n : Bytes) : Prop := ∀ e, Loaded evt e → e.name ≠ n

/-- What routing a request for the event `n` should do to the daemon. -/
structure RoutedRight (d : Daemon) (env : Env) (req : ReqInfo) (n : Bytes) (body : Option Bytes)
    (r : Daemon) : Prop where
  plugin : ∀ e, Newest d.mevent n e → busy (d.queues e.opQueue) = false →
    (∃ entry : QueueEntry, (entry.ename = n ∧ entry.operation = req.cmd ∧ entry.req = req ∧
        entry.hdfrcv = body) ∧
      (r.queues e.opQueue = entry :: d.queues e.opQueue ∨
        r.queues e.opQueue = d.queues e.opQueue ++ [entry])) ∧
    (∀ e', Loaded d.mevent e' → e' ≠ e → r.queues e'.opQueue = d.queues e'.opQueue) ∧
    r.sent = d.sent
  reserved : Unregistered d.mevent n → n = reserveStatus →
    r.queues = d.queues ∧
      (req.sync = true → ∃ buf, packHdf env (statsData d.stats) maxPacketLen = some buf ∧
        r.sent = d.sent ++ [.long req .ok buf])
  unknown : Unregistered d.mevent n → n ≠ reserveStatus →
    r.queues = d.queues ∧ r.stats.netUnkReq = d.stats.netUnkReq + 1
  onlySync : req.sync = false → r.sent = d.sent

/-- Every allocation of `make_queue_long_entry` succeeds. -/
def allocates (env : Env) : Bool := env.entry && env.ename && env.req && env.clisa

/-- `make_queue_long_entry` returns null. -/
def givesUp (env : Env) : Bool := !env.entry || (env.ename && (!env.req || !env.clisa))

/-- What the length-limited comparison takes for the reserved name. -/
def LooksReserved (n : Bytes) : Prop := n <+: reserveStatus ∨ (reserveStatus ++ [0]) <+: n

def Routable (d : Daemon) (env : Env) (req : ReqInfo) (n : Bytes) : Prop :=
  (∃ e, Newest d.mevent n e ∧ (busy (d.queues e.opQueue) = true ∨ allocates env = true)) ∨
  (Unregistered d.mevent n ∧
    (¬ LooksReserved n ∨
      (n = reserveStatus ∧
        if req.sync then allocates env = true ∧ env.buf = true ∧
          (env.hdfWriteString (statsData d.stats)).isSome
        else givesUp env = true)))

theorem makeQueueLongEntry_of_allocates {env : Env} (ha : allocates env = true) (req : ReqInfo)
    (n : Bytes) (body : Option Bytes) :
    makeQueueLongEntry env req n body =
      .ok (some { operation := req.cmd, req := req, ename := n, hdfrcv := body }) := by
  simp only [allocates, Bool.and_eq_true] at ha
  simp [makeQueueLongEntry, ha]

theorem makeQueueLongEntry_of_givesUp {env : Env} (hg : givesUp env = true) (req : ReqInfo)
    (n : Bytes) (body : Option Bytes) : makeQueueLongEntry env req n body = .ok none := by
  cases he : env.entry
  · simp [makeQueueLongEntry, he]
  · cases hn : env.ename
    · simp [givesUp, he, hn] at hg
    · cases hr : env.req
      · simp [makeQueueLongEntry, he, hn, hr]
      · have hc : env.clisa = false := by simpa [givesUp, he, hn, hr] using hg
        simp [makeQueueLongEntry, he, hn, hr, hc]

theorem makeQueueLongEntry_otherwise {env : Env} (ha : allocates env = false) (hg : givesUp env = false)
    (req : ReqInfo) (n : Bytes) (body : Option Bytes) :
    makeQueueLongEntry env req n body = .error .unset := by
  have he : env.entry = true := by
    by_contra he
    simp [givesUp, he] at hg
  cases hn : env.ename
  · simp [makeQueueLongEntry, he, hn]
  · have hboth : env.req = true ∧ env.clisa = true := by simpa [givesUp, he, hn] using hg
    simp [allocates, he, hn, hboth] at ha

theorem givesUp_of_allocates {env : Env} (ha : allocates env = true) : givesUp env = false := by
  simp only [allocates, Bool.and_eq_true] at ha
  simp [givesUp, ha]

/-- The reply `parse_stats` sends. -/
def statsReply (d : Daemon) (env : Env) (req : ReqInfo) : Reply :=
  if env.buf then
    match packHdf env (statsData d.stats) maxPacketLen with
    | none => .mini req .errPack
    | some buf => .long req .ok buf
  else .mini req .errMem

theorem parseStats_eq (d : Daemon) (env : Env) (q : QueueEntry) :
    parseStats d env q = d.reply (statsReply d env q.req) := by
  have hdata : statsData d.stats ≠ [] := by simp [statsData]
  unfold parseStats replyTrigger statsReply
  rw [if_neg hdata]
  cases env.buf
  · rfl
  · simp only [Bool.not_true, Bool.false_eq_true, if_false, if_true]
    cases packHdf env (statsData d.stats) maxPacketLen <;> rfl

@[simp] theorem replyIf_queues (d : Daemon) (sync : Bool) (req : ReqInfo) (code : Rep) :
    (d.replyIf sync req code).queues = d.queues := by
  unfold Daemon.replyIf
  split <;> rfl

@[simp] theorem replyIf_stats (d : Daemon) (sync : Bool) (req : ReqInfo) (code : Rep) :
    (d.replyIf sync req code).stats = d.stats := by
  unfold Daemon.replyIf
  split <;> rfl

@[simp] theorem replyIf_sent (d : Daemon) (sync : Bool) (req : ReqInfo) (code : Rep) :
    (d.replyIf sync req code).sent = if sync then d.sent ++ [.mini req code] else d.sent := by
  unfold Daemon.replyIf
  split <;> rfl

section Taken
variable {d : Daemon} {env : Env} {req : ReqInfo} {n : Bytes} {body : Option Bytes}

def requestEntry (req : ReqInfo) (n : Bytes) (body : Option Bytes) : QueueEntry :=
  { operation := req.cmd, req := req, ename := n, hdfrcv := body }

/-- Either the name is registered and its queue has room, or it looks reserved. -/
def NeedsEntry (d : Daemon) (n : Bytes) : Prop :=
  (∃ e, findEntryInTable d.mevent n = some e ∧ busy (d.queues e.opQueue) = false) ∨
    (findEntryInTable d.mevent n = none ∧ LooksReserved n)

theorem strncmpEq_reserveStatus : strncmpEq n reserveStatus n.length = true ↔ LooksReserved n :=
  strncmpEq_iff (by decide)

theorem takeEvent_busy {e : EventEntry} (hf : findEntryInTable d.mevent n = some e)
    (hb : busy (d.queues e.opQueue) = true) :
    takeEvent d env req (some (n, body)) =
      .ok ({ d with stats := { d.stats with proBusy := d.stats.proBusy + 1 } }.replyIf req.sync req .errBusy) := by
  simp [takeEvent, putInQueueLong, hf, hb, bind, Except.bind, pure, Except.pure]

theorem takeEvent_queued {e : EventEntry} (hf : findEntryInTable d.mevent n = some e)
    (hb : busy (d.queues e.opQueue) = false) (ha : allocates env = true) :
    takeEvent d env req (some (n, body)) =
      .ok { d with
        queues := Function.update d.queues e.opQueue
          (if req.sync then queueCas (d.queues e.opQueue) (requestEntry req n body)
            else queuePut (d.queues e.opQueue) (requestEntry req n body)) } := by
  simp [takeEvent, putInQueueLong, hf, hb, makeQueueLongEntry_of_allocates ha req n body, requestEntry, bind,
    Except.bind, pure, Except.pure]

theorem takeEvent_statistics (hf : findEntryInTable d.mevent n = none) (hl : LooksReserved n)
    (ha : allocates env = true) :
    takeEvent d env req (some (n, body)) = .ok (d.reply (statsReply d env req)) := by
  simp [takeEvent, putInQueueLong, hf, strncmpEq_reserveStatus.mpr hl, makeQueueLongEntry_of_allocates ha req n body,
    parseStats_eq, bind, Except.bind, pure, Except.pure]

theorem takeEvent_notMade (hneed : NeedsEntry d n) (hg : givesUp env = true) :
    takeEvent d env req (some (n, body)) = .ok (d.replyIf req.sync req .errMem) := by
  have hmake := makeQueueLongEntry_of_givesUp hg req n body
  rcases hneed with ⟨e, hf, hb⟩ | ⟨hf, hl⟩
  · simp [takeEvent, putInQueueLong, hf, hb, hmake, bind, Except.bind, pure, Except.pure]
  · simp [takeEvent, putInQueueLong, hf, strncmpEq_reserveStatus.mpr hl, hmake, bind, Except.bind, pure, Except.pure]

theorem takeEvent_unset (hneed : NeedsEntry d n) (ha : allocates env = false) (hg : givesUp env = false) :
    takeEvent d env req (some (n, body)) = .error .unset := by
  have hmake := makeQueueLongEntry_otherwise ha hg req n body
  rcases hneed with ⟨e, hf, hb⟩ | ⟨hf, hl⟩
  · simp [takeEvent, putInQueueLong, hf, hb, hmake, bind, Except.bind]
  · simp [takeEvent, putInQueueLong, hf, strncmpEq_reserveStatus.mpr hl, hmake, bind, Except.bind]

theorem takeEvent_other (hf : findEntryInTable d.mevent n = none) (hl : ¬ LooksReserved n) :
    takeEvent d env req (some (n, body)) =
      .ok ({ d with stats := { d.stats with netUnkReq := d.stats.netUnkReq + 1 } }.replyIf req.sync req .errUnkreq) := by
  simp [takeEvent, putInQueueLong, hf, mt strncmpEq_reserveStatus.mp hl, bind, Except.bind, pure, Except.pure]

/-- A body that is taken is queued, or answered with the statistics, or refused; a refusal may be counted. -/
theorem takeEvent_cases {r : Daemon} (htaken : takeEvent d env req (some (n, body)) = .ok r) :
    (∃ e : EventEntry, r = { d with
        queues := Function.update d.queues e.opQueue
          (if req.sync then queueCas (d.queues e.opQueue) (requestEntry req n body)
            else queuePut (d.queues e.opQueue) (requestEntry req n body)) }) ∨
      r = d.reply (statsReply d env req) ∨
      ∃ stats code, code ≠ Rep.errBroken ∧ r = { d with stats := stats }.replyIf req.sync req code := by
  by_cases hneed : NeedsEntry d n
  · cases hg : givesUp env with
    | true =>
      rw [takeEvent_notMade hneed hg] at htaken
      exact .inr (.inr ⟨d.stats, .errMem, nofun, (Except.ok.inj htaken).symm⟩)
    | false =>
      cases ha : allocates env with
      | false =>
        rw [takeEvent_unset hneed ha hg] at htaken
        cases htaken
      | true =>
        obtain ⟨e, hf, hb⟩ | ⟨hf, hl⟩ := hneed
        · rw [takeEvent_queued hf hb ha] at htaken
          exact .inl ⟨e, (Except.ok.inj htaken).symm⟩
        · rw [takeEvent_statistics hf hl ha] at htaken
          exact .inr (.inl (Except.ok.inj htaken).symm)
  · cases hf : findEntryInTable d.mevent n with
    | some e =>
      have hb : busy (d.queues e.opQueue) = true := by
        by_contra hb
        exact hneed (.inl ⟨e, hf, Bool.not_eq_true _ ▸ hb⟩)
      rw [takeEvent_busy hf hb] at htaken
      exact .inr (.inr ⟨_, .errBusy, nofun, (Except.ok.inj htaken).symm⟩)
    | none =>
      rw [takeEvent_other hf fun hl => hneed (.inr ⟨hf, hl⟩)] at htaken
      exact .inr (.inr ⟨_, .errUnkreq, nofun, (Except.ok.inj htaken).symm⟩)

/-- The reserved event when its entry is made: the statistics are sent, whatever the flags say. -/
private theorem statistics_routedRight (hu : Unregistered d.mevent n) :
    RoutedRight d env req n body (d.reply (statsReply d env req)) ↔
      n = reserveStatus ∧ req.sync = true ∧ env.buf = true ∧ (env.hdfWriteString (statsData d.stats)).isSome := by
  constructor
  · intro hr
    have hn : n = reserveStatus := by
      by_contra hne
      have hunk := (hr.unknown hu hne).2
      simp [Daemon.reply] at hunk
    have hsync : req.sync = true := by
      by_contra hs
      have hsent := hr.onlySync (by simpa using hs)
      simp [Daemon.reply] at hsent
    obtain ⟨buf, hpack, hsent⟩ := (hr.reserved hu hn).2 hsync
    have hreply : statsReply d env req = .long req .ok buf := by
      simpa [Daemon.reply] using hsent
    refine ⟨hn, hsync, ?_, ?_⟩
    · by_contra hbuf
      simp [statsReply, hbuf] at hreply
    · obtain ⟨p, hp, -⟩ := Option.map_eq_some_iff.mp hpack
      rw [hp]
      rfl
  · rintro ⟨hn, hsync, hbuf, hw⟩
    obtain ⟨p, hp⟩ := Option.isSome_iff_exists.mp hw
    obtain ⟨buf, hpack⟩ : ∃ buf, packHdf env (statsData d.stats) maxPacketLen = some buf :=
      ⟨_, Option.map_eq_some_iff.mpr ⟨p, hp, rfl⟩⟩
    refine ⟨fun e he => (hu e he.loaded he.name_eq).elim, fun _ _ => ⟨rfl, fun _ => ⟨buf, hpack, ?_⟩⟩,
      fun _ hne => (hne hn).elim, fun hs => by simp [hsync] at hs⟩
    simp [Daemon.reply, statsReply, hbuf, hpack]

private theorem notMade_routedRight (hu : Unregistered d.mevent n) :
    RoutedRight d env req n body (d.replyIf req.sync req .errMem) ↔ n = reserveStatus ∧ req.sync = false := by
  constructor
  · intro hr
    have hn : n = reserveStatus := by
      by_contra hne
      have hunk := (hr.unknown hu hne).2
      simp at hunk
    refine ⟨hn, Bool.eq_false_iff.mpr fun hsync => ?_⟩
    obtain ⟨buf, -, hsent⟩ := (hr.reserved hu hn).2 hsync
    simp [hsync] at hsent
  · rintro ⟨hn, hsync⟩
    refine ⟨fun e he => (hu e he.loaded he.name_eq).elim, fun _ _ => ⟨by simp, fun hs => ?_⟩,
      fun _ hne => (hne hn).elim, fun _ => by simp [hsync]⟩
    rw [hsync] at hs
    cases hs

end Taken

section Outcomes
variable {d : Daemon} {q : ℕ} (h : TableInv d.mevent q) (env : Env) (req : ReqInfo) {n : Bytes}
  (body : Option Bytes)
include h

private theorem takeEvent_registered {e : EventEntry} (hf : findEntryInTable d.mevent n = some e) :
    (∃ r, takeEvent d env req (some (n, body)) = .ok r ∧ RoutedRight d env req n body r) ↔
      busy (d.queues e.opQueue) = true ∨ allocates env = true := by
  have hnew := (findEntryInTable_iff h).mp hf
  have hreg : ¬ Unregistered d.mevent n := fun hu => hu e hnew.loaded hnew.name_eq
  have hsame : ∀ e', Newest d.mevent n e' → e' = e := fun e' he' =>
    Option.some.inj (((findEntryInTable_iff h).mpr he').symm.trans hf)
  cases hb : busy (d.queues e.opQueue) with
  | true =>
    refine iff_of_true ⟨_, takeEvent_busy hf hb, ?_, fun hu => (hreg hu).elim, fun hu => (hreg hu).elim, ?_⟩ (.inl rfl)
    · intro e' he' hfree
      rw [hsame e' he', hb] at hfree
      cases hfree
    · intro hs
      simp [hs]
  | false =>
    cases ha : allocates env with
    | true =>
      refine iff_of_true ⟨_, takeEvent_queued hf hb ha, ?_, fun hu => (hreg hu).elim, fun hu => (hreg hu).elim,
        fun _ => rfl⟩ (.inr rfl)
      intro e' he' _
      obtain rfl := hsame e' he'
      refine ⟨⟨requestEntry req n body, ⟨rfl, rfl, rfl, rfl⟩, ?_⟩, ?_, rfl⟩
      · cases hs : req.sync
        · exact .inr (by simp [queuePut])
        · exact .inl (by simp [queueCas])
      · intro e'' hl hne
        exact Function.update_of_ne (fun hq => hne (h.own hl he'.loaded hq)) ..
    | false =>
      have hneed : NeedsEntry d n := .inl ⟨e, hf, hb⟩
      simp only [Bool.false_eq_true, or_self, iff_false]
      rintro ⟨r, htake, hr⟩
      cases hg : givesUp env with
      | true =>
        rw [takeEvent_notMade hneed hg] at htake
        obtain rfl := Except.ok.inj htake
        obtain ⟨⟨entry, -, hq⟩, -, -⟩ := hr.plugin e hnew hb
        rw [replyIf_queues] at hq
        rcases hq with hq | hq <;> simpa using congrArg List.length hq
      | false =>
        rw [takeEvent_unset hneed ha hg] at htake
        cases htake

private theorem takeEvent_reserved (hf : findEntryInTable d.mevent n = none) (hl : LooksReserved n) :
    (∃ r, takeEvent d env req (some (n, body)) = .ok r ∧ RoutedRight d env req n body r) ↔
      n = reserveStatus ∧
        if req.sync then allocates env = true ∧ env.buf = true ∧
          (env.hdfWriteString (statsData d.stats)).isSome
        else givesUp env = true := by
  have hu : Unregistered d.mevent n := (findEntryInTable_none h).mp hf
  have hneed : NeedsEntry d n := .inr ⟨hf, hl⟩
  cases ha : allocates env with
  | true =>
    rw [takeEvent_statistics hf hl ha, givesUp_of_allocates ha]
    simp only [Except.ok.injEq, exists_eq_left', statistics_routedRight hu]
    cases req.sync <;> simp
  | false =>
    cases hg : givesUp env with
    | true =>
      rw [takeEvent_notMade hneed hg]
      simp only [Except.ok.injEq, exists_eq_left', notMade_routedRight hu]
      cases req.sync <;> simp
    | false =>
      rw [takeEvent_unset hneed ha hg]
      cases req.sync <;> simp

private theorem takeEvent_unknown (hf : findEntryInTable d.mevent n = none) (hl : ¬ LooksReserved n) :
    ∃ r, takeEvent d env req (some (n, body)) = .ok r ∧ RoutedRight d env req n body r := by
  have hu : Unregistered d.mevent n := (findEntryInTable_none h).mp hf
  refine ⟨_, takeEvent_other hf hl, fun e he => (hu e he.loaded he.name_eq).elim, ?_, fun _ _ => ?_, fun hs => ?_⟩
  · rintro - rfl
    exact (hl (.inl (List.prefix_refl _))).elim
  · rw [replyIf_queues, replyIf_stats]
    exact ⟨rfl, rfl⟩
  · rw [replyIf_sent, hs]
    rfl

theorem takeEvent_routedRight_iff :
    (∃ r, takeEvent d env req (some (n, body)) = .ok r ∧ RoutedRight d env req n body r) ↔
      Routable d env req n := by
  cases hf : findEntryInTable d.mevent n with
  | some e =>
    have hnew := (findEntryInTable_iff h).mp hf
    rw [takeEvent_registered h env req body hf]
    constructor
    · exact fun hor => .inl ⟨e, hnew, hor⟩
    · rintro (⟨e', hnew', hor⟩ | ⟨hu, -⟩)
      · obtain rfl : e' = e :=
          Option.some.inj (((findEntryInTable_iff h).mpr hnew').symm.trans hf)
        exact hor
      · exact (hu e hnew.loaded hnew.name_eq).elim
  | none =>
    have hu : Unregistered d.mevent n := (findEntryInTable_none h).mp hf
    have hreg : ¬ ∃ e, Newest d.mevent n e ∧ (busy (d.queues e.opQueue) = true ∨ allocates env = true) :=
      fun ⟨e, he, _⟩ => hu e he.loaded he.name_eq
    by_cases hl : LooksReserved n
    · rw [takeEvent_reserved h env req body hf hl, Routable, or_iff_right hreg]
      simp [hu, hl]
    · exact iff_of_true (takeEvent_unknown h env req body hf hl) (.inr ⟨hu, .inl hl⟩)

end Outcomes

/-- A message decoded completely is routed right exactly when its name, its flags and the
allocations allow it. -/
theorem parseMessage_routedRight_iff {drivers : List (Option Bytes)} {d : Daemon}
    (hd : d.mevent = meventStart drivers) (env : Env) (req : ReqInfo) {m : Bytes} {len : ℕ}
    (hlen : 17 ≤ len) (hver : version m = protoVer) {n : Bytes} {body : Option Bytes}
    (hread : readEvent m (len - 8) = .ok (some (n, body))) :
    (∃ r, parseMessage d env req m len = .ok (r, 1) ∧ RoutedRight d env (req.filled m) n body r) ↔
      Routable d env (req.filled m) n := by
  obtain ⟨q, hinv⟩ := meventStart_inv drivers
  rw [← hd] at hinv
  rw [← takeEvent_routedRight_iff hinv env (req.filled m) body]
  have hparse : parseMessage d env req m len =
      (takeEvent d env (req.filled m) (some (n, body))).map fun r => (r, 1) := by
    rw [parseMessage, if_neg (by omega), if_neg (not_not.mpr hver), parseEvent, hread]
    rfl
  rw [hparse]
  refine exists_congr fun r => and_congr_left fun _ => ?_
  cases takeEvent d env (req.filled m) (some (n, body)) with
  | error f => simp [Except.map]
  | ok r' => simp [Except.map]

/-- A request for the one loaded plugin "a". -/
theorem parseMessage_routedRight_plugin :
    let env : Env := .plenty fun _ => none
    let req : ReqInfo := ⟨4, .tcp, [], [0, 0, 0, 0], 0, 0⟩
    let m : Bytes := [16, 0, 0, 7, 0, 1, 0, 0, 0, 0, 0, 1, 97, 0, 0, 0, 3, 0, 0, 0, 0, 0, 0, 0, 1, 0]
    ∃ r, parseMessage (.initial [some [97]]) env req m 26 = .ok (r, 1) ∧
      RoutedRight (.initial [some [97]]) env (req.filled m) [97] (some []) r := by
  intro env req m
  obtain ⟨q, hinv⟩ := meventStart_inv [some [97]]
  have hfind : findEntryInTable (meventStart [some [97]]) [97] = some ⟨[97], 0⟩ := rfl
  have hread : readEvent m (26 - 8) = .ok (some ([97], some [])) := rfl
  have hver : version m = protoVer := by decide
  exact (parseMessage_routedRight_iff rfl env req (by decide) hver hread).mpr
    (.inl ⟨_, findEntryInTable_some hinv hfind, .inr rfl⟩)

/-- A request without `FLAGS_SYNC` for the event with the empty name. -/
def unnamedRequest : Bytes := [16, 0, 0, 7, 0, 1, 0, 0, 0, 0, 0, 0, 0, 0, 0, 3, 0, 0, 0, 0, 0, 0, 0, 1, 0]

private theorem parseMessage_unnamed (req : ReqInfo) :
    parseMessage (.initial []) (.plenty fun _ => some []) req unnamedRequest 25 =
      .ok ((Daemon.initial []).reply (.long (req.filled unnamedRequest) .ok
        (packDataStr rootName (some []) maxPacketLen ++ be 4 dataTypeEof)), 1) := rfl

/-- No plugin has the empty name, and still the request is answered with the statistics. -/
theorem parseMessage_unnamed_not_routed :
    let env : Env := .plenty fun _ => some []
    let req : ReqInfo := ⟨4, .tcp, [], [0, 0, 0, 0], 0, 0⟩
    readEvent unnamedRequest 17 = .ok (some ([], some [])) ∧ (req.filled unnamedRequest).sync = false ∧
      ∃ r, parseMessage (.initial []) env req unnamedRequest 25 = .ok (r, 1) ∧ r.stats.netUnkReq = 0 ∧
        r.sent.length = 1 ∧
        ¬ RoutedRight (.initial []) env (req.filled unnamedRequest) [] (some []) r := by
  intro env req
  have hflags : word (slice unnamedRequest 6 2) = 0 := by decide
  have hsync : (req.filled unnamedRequest).sync = false := by simp [ReqInfo.sync, ReqInfo.filled, hflags]
  refine ⟨rfl, hsync, _, parseMessage_unnamed req, rfl, rfl, fun hr => ?_⟩
  exact absurd (hr.onlySync hsync) (List.cons_ne_nil _ _)

end Cmoon.RequestRouting
