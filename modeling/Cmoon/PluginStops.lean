import Cmoon.GuardedRuns

/-! # Stopping a plugin (`mevent_start_base_entry`, `mevent_stop_driver`)

The loop of a worker thread and the thread that stops its plugin. A schedule says whose turn it is;
a thread that waits lets its turn pass. Nobody else uses the queue any more. -/
namespace Cmoon.PluginStops
open GuardedRuns

variable {A : Type*}

/-- Where the worker is in its loop: before the lock, with what `queue_get` returned, in
`process_driver`, before `queue_entry_free`, out of the loop. -/
inductive Worker (A : Type*) where
  | lock
  | got (q : Option A)
  | processing (q : A)
  | freeing (q : A)
  | done

/-- Where `mevent_stop_driver` is, by the statement it comes to next. -/
inductive Stopper where
  | setFlag | stopDriver | join | queueFree | finished
  deriving DecidableEq

/-- A plugin and its two threads. The last three fields record the run: the queue when
`loop_should_stop` was set, the entries `process_driver` was done with before `stop_driver` had run,
and those `queue_free` freed. -/
structure Plugin (A : Type*) where
  opQueue : List A
  loopShouldStop : Bool
  worker : Worker A
  stopper : Stopper
  backlog : List A
  processed : List A
  freed : List A

def atWork (queue : List A) (worker : Worker A) : Plugin A := ⟨queue, false, worker, .setFlag, [], [], []⟩

/-- `stop_driver` has run: the database connection and the cache of the plugin are destroyed. -/
def Plugin.Stopped (s : Plugin A) : Prop := s.stopper ≠ .setFlag ∧ s.stopper ≠ .stopDriver

instance (s : Plugin A) : Decidable s.Stopped := inferInstanceAs (Decidable (_ ∧ _))

/-- A turn of `mevent_start_base_entry`. On an empty queue the wait times out and `queue_get` gives
nothing; a wait that fails leads back to where it started. -/
def workerTurn (s : Plugin A) : Plugin A :=
  match s.worker with
  | .lock => { s with worker := .got s.opQueue.head?, opQueue := s.opQueue.tail }
  | .got none => { s with worker := if s.loopShouldStop then .done else .lock }
  | .got (some q) => { s with worker := .processing q }
  | .processing q =>
    { s with worker := .freeing q, processed := if s.Stopped then s.processed else s.processed ++ [q] }
  | .freeing _ => { s with worker := .lock }
  | .done => s

/-- A turn of `mevent_stop_driver`; `pthread_join` waits for the worker. -/
def stopperTurn (s : Plugin A) : Plugin A :=
  match s.stopper with
  | .setFlag => { s with loopShouldStop := true, stopper := .stopDriver, backlog := s.opQueue }
  | .stopDriver => { s with stopper := .join }
  | .join =>
    match s.worker with
    | .done => { s with stopper := .queueFree }
    | _ => s
  | .queueFree => { s with stopper := .finished, freed := s.freed ++ s.opQueue, opQueue := [] }
  | .finished => s

inductive Turn where
  | worker | stopper
  deriving DecidableEq

def turn (s : Plugin A) : Turn → Plugin A
  | .worker => workerTurn s
  | .stopper => stopperTurn s

def run (s : Plugin A) (ts : List Turn) : Plugin A := ts.foldl turn s

/-- `process_driver` does not run once `stop_driver` has. -/
def Plugin.Safe (s : Plugin A) : Prop := s.Stopped → ∀ q, s.worker ≠ .processing q

/-- In the end each entry of the backlog was processed before `stop_driver` had run, or freed. -/
def Plugin.Settled (s : Plugin A) : Prop :=
  s.stopper = .finished → ∀ q ∈ s.backlog, q ∈ s.processed ∨ q ∈ s.freed

/-- The worker is about to leave its loop, or will be once it looks at the queue. -/
def Plugin.Quiet (s : Plugin A) : Prop :=
  match s.worker with
  | .done => True
  | .got none => True
  | .got (some _) => False
  | .processing _ => False
  | .lock => s.opQueue = []
  | .freeing _ => s.opQueue = []

/-- `stop_driver` is called on a quiet worker. -/
def StopsQuiet (s : Plugin A) (t : Turn) : Prop := t = .stopper → s.stopper = .stopDriver → s.Quiet

def Worker.Holds (w : Worker A) (q : A) : Prop := w = .got (some q) ∨ w = .processing q

/-- Where an entry can be: in the queue, with the worker, or through with. -/
def Plugin.Knows (s : Plugin A) (q : A) : Prop :=
  q ∈ s.opQueue ∨ s.worker.Holds q ∨ q ∈ s.processed ∨ q ∈ s.freed

/-- What a stop on a quiet worker keeps. -/
structure Plugin.Orderly (s : Plugin A) : Prop where
  flag : s.stopper ≠ .setFlag → s.loopShouldStop = true
  account : s.stopper ≠ .setFlag → ∀ q ∈ s.backlog, s.Knows q
  quiet : s.Stopped → s.Quiet
  joined : s.stopper = .queueFree ∨ s.stopper = .finished → s.worker = .done
  empty : s.stopper = .finished → s.opQueue = []

theorem orderly_atWork (queue : List A) (worker : Worker A) : (atWork queue worker).Orderly where
  flag h := absurd rfl h
  account h := absurd rfl h
  quiet h := absurd rfl h.1
  joined h := by cases h <;> contradiction
  empty h := by cases h

theorem Plugin.Orderly.safe {s : Plugin A} (hs : s.Orderly) : s.Safe := by
  intro hstop q hq
  have hquiet := hs.quiet hstop
  rw [Plugin.Quiet, hq] at hquiet
  exact hquiet

theorem Plugin.Orderly.settled {s : Plugin A} (hs : s.Orderly) : s.Settled := by
  intro hfin q hq
  have hflag : s.stopper ≠ .setFlag := by
    rw [hfin]
    decide
  obtain h | h | h := hs.account hflag q hq
  · rw [hs.empty hfin] at h
    cases h
  · rw [hs.joined (.inr hfin)] at h
    cases h <;> contradiction
  · exact h

section WorkerTurns
variable {s : Plugin A}

@[simp] theorem stopper_workerTurn (s : Plugin A) : (workerTurn s).stopper = s.stopper := by
  unfold workerTurn
  split <;> rfl

@[simp] theorem flag_workerTurn (s : Plugin A) : (workerTurn s).loopShouldStop = s.loopShouldStop := by
  unfold workerTurn
  split <;> rfl

@[simp] theorem backlog_workerTurn (s : Plugin A) : (workerTurn s).backlog = s.backlog := by
  unfold workerTurn
  split <;> rfl

@[simp] theorem stopped_workerTurn (s : Plugin A) : (workerTurn s).Stopped ↔ s.Stopped := by
  simp [Plugin.Stopped]

theorem workerTurn_done (h : s.worker = .done) : workerTurn s = s := by
  rw [workerTurn, h]

theorem quiet_workerTurn (hflag : s.loopShouldStop = true) (hquiet : s.Quiet) : (workerTurn s).Quiet := by
  obtain ⟨queue, flag, worker, stopper, backlog, processed, freed⟩ := s
  cases worker with
  | lock =>
    obtain rfl : queue = [] := hquiet
    trivial
  | got q =>
    cases q with
    | none =>
      obtain rfl : flag = true := hflag
      trivial
    | some q => exact hquiet.elim
  | processing q => exact hquiet.elim
  | freeing q => exact hquiet
  | done => trivial

/-- An entry leaves the queue for the worker's hand, and that when it is processed. -/
theorem knows_workerTurn (hquiet : s.Stopped → s.Quiet) {q : A} (hq : s.Knows q) : (workerTurn s).Knows q := by
  obtain ⟨queue, flag, worker, stopper, backlog, processed, freed⟩ := s
  obtain hq | hq | hq := hq
  · cases worker with
    | lock =>
      cases queue with
      | nil => cases hq
      | cons a queue =>
        obtain rfl | hq := List.mem_cons.mp hq
        · exact .inr (.inl (.inl rfl))
        · exact .inl hq
    | got r => cases r <;> exact .inl hq
    | _ => exact .inl hq
  · obtain hq | hq := hq
    · obtain rfl : worker = .got (some q) := hq
      exact .inr (.inl (.inr rfl))
    · obtain rfl : worker = .processing q := hq
      refine .inr (.inr (.inl ?_))
      simp only [workerTurn]
      rw [if_neg fun hstop => hquiet hstop]
      exact List.mem_append_right processed (List.mem_singleton_self q)
  · refine .inr (.inr ?_)
    cases worker with
    | got r => cases r <;> exact hq
    | processing r =>
      simp only [workerTurn]
      rw [if_neg fun hstop => hquiet hstop]
      exact hq.imp_left (List.mem_append_left [r])
    | _ => exact hq

theorem Plugin.Orderly.workerTurn (hs : s.Orderly) : (workerTurn s).Orderly where
  flag h := by
    rw [stopper_workerTurn] at h
    rw [flag_workerTurn]
    exact hs.flag h
  account h q hq := by
    rw [stopper_workerTurn] at h
    rw [backlog_workerTurn] at hq
    exact knows_workerTurn hs.quiet (hs.account h q hq)
  quiet h := by
    rw [stopped_workerTurn] at h
    exact quiet_workerTurn (hs.flag h.1) (hs.quiet h)
  joined h := by
    rw [stopper_workerTurn] at h
    rw [workerTurn_done (hs.joined h)]
    exact hs.joined h
  empty h := by
    rw [stopper_workerTurn] at h
    rw [workerTurn_done (hs.joined (.inr h))]
    exact hs.empty h

end WorkerTurns

section StopperTurns
variable {s : Plugin A}

theorem stopperTurn_cases (s : Plugin A) :
    (s.stopper = .setFlag ∧ stopperTurn s =
      { s with loopShouldStop := true, stopper := .stopDriver, backlog := s.opQueue }) ∨
    (s.stopper = .stopDriver ∧ stopperTurn s = { s with stopper := .join }) ∨
    (s.stopper = .join ∧ s.worker = .done ∧ stopperTurn s = { s with stopper := .queueFree }) ∨
    (s.stopper = .queueFree ∧ stopperTurn s =
      { s with stopper := .finished, freed := s.freed ++ s.opQueue, opQueue := [] }) ∨
    stopperTurn s = s := by
  obtain ⟨queue, flag, worker, stopper, backlog, processed, freed⟩ := s
  cases stopper <;> cases worker <;> simp [stopperTurn]

theorem Plugin.Orderly.stopperTurn (hs : s.Orderly) (hquiet : s.stopper = .stopDriver → s.Quiet) :
    (stopperTurn s).Orderly := by
  obtain ⟨-, h⟩ | ⟨hat, h⟩ | ⟨hat, hdone, h⟩ | ⟨hat, h⟩ | h := stopperTurn_cases s
  · rw [h]
    exact ⟨fun _ => rfl, fun _ q hq => .inl hq, fun hstop => absurd rfl hstop.2, by simp, by simp⟩
  · have hflag : s.stopper ≠ .setFlag := by
      rw [hat]
      decide
    rw [h]
    exact ⟨fun _ => hs.flag hflag, fun _ => hs.account hflag, fun _ => hquiet hat, by simp, by simp⟩
  · have hflag : s.stopper ≠ .setFlag := by
      rw [hat]
      decide
    have hstop : s.Stopped := by
      rw [Plugin.Stopped, hat]
      decide
    rw [h]
    exact ⟨fun _ => hs.flag hflag, fun _ => hs.account hflag, fun _ => hs.quiet hstop, fun _ => hdone, by simp⟩
  · have hdone := hs.joined (.inl hat)
    have hflag : s.stopper ≠ .setFlag := by
      rw [hat]
      decide
    rw [h]
    refine ⟨fun _ => hs.flag hflag, fun _ q hq => ?_, fun _ => ?_, fun _ => hdone, fun _ => rfl⟩
    · obtain hq | hq | hq | hq := hs.account hflag q hq
      · exact .inr (.inr (.inr (List.mem_append_right s.freed hq)))
      · rw [hdone] at hq
        cases hq <;> contradiction
      · exact .inr (.inr (.inl hq))
      · exact .inr (.inr (.inr (List.mem_append_left s.opQueue hq)))
    · rw [Plugin.Quiet, hdone]
      trivial
  · rwa [h]

end StopperTurns

theorem orderly_turn {s : Plugin A} {t : Turn} (hs : s.Orderly) (hquiet : StopsQuiet s t) : (turn s t).Orderly := by
  cases t with
  | worker => exact hs.workerTurn
  | stopper => exact hs.stopperTurn (hquiet rfl)

/-- With work left when `stop_driver` has run, a worker does it. -/
structure Plugin.Restless (s : Plugin A) : Prop where
  stopper : s.stopper = .join
  busy : ¬s.Quiet

theorem Plugin.Restless.stopped {s : Plugin A} (hs : s.Restless) : s.Stopped := by
  rw [Plugin.Stopped, hs.stopper]
  decide

theorem restless_turn {s : Plugin A} (hs : s.Restless) (hsafe : s.Safe) {t : Turn} (hnext : (turn s t).Safe) :
    (turn s t).Restless := by
  have hstop := hs.stopped
  obtain ⟨queue, flag, worker, stopper, backlog, processed, freed⟩ := s
  obtain ⟨hjoin, hbusy⟩ := hs
  obtain rfl : stopper = .join := hjoin
  cases t with
  | worker =>
    cases worker with
    | lock =>
      cases queue with
      | nil => exact absurd rfl hbusy
      | cons a queue => exact ⟨rfl, id⟩
    | got q =>
      cases q with
      | none => exact absurd trivial hbusy
      | some q => exact absurd rfl (hnext hstop q)
    | processing q => exact absurd rfl (hsafe hstop q)
    | freeing q => exact ⟨rfl, hbusy⟩
    | done => exact absurd trivial hbusy
  | stopper =>
    cases worker with
    | done => exact absurd trivial hbusy
    | _ => exact ⟨rfl, hbusy⟩

theorem restless_run {s : Plugin A} {ts : List Turn} (hs : s.Restless) (hsafe : Throughout turn Plugin.Safe s ts) :
    (run s ts).Restless := by
  induction ts generalizing s with
  | nil => exact hs
  | cons t ts ih => exact ih (restless_turn hs hsafe.1 hsafe.2.first) hsafe.2

theorem stopsQuiet_of_safe {s : Plugin A} {ts : List Turn} (hsafe : Throughout turn Plugin.Safe s ts)
    (hfin : (run s ts).stopper = .finished) : Guarded turn StopsQuiet s ts := by
  induction ts generalizing s with
  | nil => trivial
  | cons t ts ih =>
    refine ⟨fun ht hstop => ?_, ih hsafe.2 hfin⟩
    by_contra hbusy
    obtain rfl := ht
    have hnext : turn s .stopper = { s with stopper := .join } := by
      rw [turn, stopperTurn, hstop]
    have hrestless : (turn s .stopper).Restless := by
      rw [hnext]
      exact ⟨rfl, hbusy⟩
    have hjoin := (restless_run hrestless hsafe.2).stopper
    rw [run, List.foldl_cons] at hfin
    rw [run, hfin] at hjoin
    cases hjoin

/-- Under every schedule which stops a quiet worker no work is done after `stop_driver`, and the
backlog is processed before or freed; a run that comes to its end so stopped a quiet worker. -/
theorem noWorkAfterStop_iff (queue : List A) (worker : Worker A) (ts : List Turn) :
    (Guarded turn StopsQuiet (atWork queue worker) ts →
      Throughout turn (fun s => s.Safe ∧ s.Settled) (atWork queue worker) ts) ∧
    ((run (atWork queue worker) ts).stopper = .finished →
      Throughout turn (fun s => s.Safe ∧ s.Settled) (atWork queue worker) ts →
        Guarded turn StopsQuiet (atWork queue worker) ts) := by
  refine ⟨fun hquiet => ?_, fun hfin h => stopsQuiet_of_safe (h.imp fun s hs => hs.1) hfin⟩
  have horderly := hquiet.throughout (fun s t => orderly_turn) (orderly_atWork queue worker)
  exact horderly.imp fun s hs => ⟨hs.safe, hs.settled⟩

/-- One entry in the queue: it is processed after `stop_driver`. -/
theorem workAfterStop : ¬∀ (queue : List ℕ) (worker : Worker ℕ) (ts : List Turn),
    Throughout turn (fun s => s.Safe ∧ s.Settled) (atWork queue worker) ts := by
  intro h
  have hlast := (h [1] .lock [.stopper, .stopper, .worker, .worker]).last
  exact hlast.1 (by decide) 1 rfl

/-- The same entry processed before `stop_driver`, and the worker done before the join. -/
theorem noWorkAfterStop_one : Throughout turn (fun s => s.Safe ∧ s.Settled) (atWork [1] .lock)
    [.worker, .worker, .stopper, .worker, .worker, .stopper, .worker, .worker, .stopper, .stopper] := by
  have hquiet : Guarded turn StopsQuiet (atWork [1] .lock)
      [.worker, .worker, .stopper, .worker, .worker, .stopper, .worker, .worker, .stopper, .stopper] := by
    simp [Guarded, StopsQuiet, Plugin.Quiet, turn, workerTurn, stopperTurn, atWork]
  exact (noWorkAfterStop_iff [1] .lock _).1 hquiet

end Cmoon.PluginStops
