import Cmoon.WorkerQueues
import Mathlib.Logic.Relation

/-! # The backlog of a plugin (`put_in_queue_long`)

The network thread reads the size of a queue up to four times without its lock before it puts an
entry there, and the worker may take entries between any two of these reads. -/
namespace Cmoon.QueueBacklog
open WorkerQueues

def queueSizeWarning : ℕ := 10000
def maxQueueEntry : ℕ := 1048576

/-- The first multiple of a hundred above `maxQueueEntry`. -/
def limit : ℕ := 1048600

variable {A : Type*}

/-- Where the network thread is: outside `put_in_queue_long`, before one of its reads of the size
(two tests of two reads), before it makes the entry, before it takes the lock. -/
inductive Net (A : Type*) where
  | idle
  | warnSize (sync : Bool)
  | warnMod (sync : Bool)
  | busySize (sync : Bool)
  | busyMod (sync : Bool)
  | make (sync : Bool)
  | put (sync : Bool) (e : A)

structure State (A : Type*) where
  queue : Queue A
  net : Net A

def start (prev : A → Option A) : State A := ⟨queueCreate prev, .idle⟩

section Steps
variable [DecidableEq A]

/-- What an allocation promises: its block is not an entry of the queue. -/
def Unqueued (q : Queue A) (e : A) : Prop := ∀ l, Holds q l → e ∉ l

/-- One step of a thread. The mutex makes one step of `queue_get` and of the put; the texts of the
warnings read the size too, and nothing follows from it. -/
inductive Step : State A → State A → Prop
  | take (q : Queue A) (net : Net A) : Step ⟨q, net⟩ ⟨(queueGet q).2, net⟩
  /-- Memory outside the queue is written, but for the entry about to be put. -/
  | outside {q : Queue A} {net : Net A} {e : A} (he : Unqueued q e) (hnet : ∀ sync, net ≠ .put sync e)
      (prev : Option A) : Step ⟨q, net⟩ ⟨{ q with prev := Function.update q.prev e prev }, net⟩
  | arrive (q : Queue A) (sync : Bool) : Step ⟨q, .idle⟩ ⟨q, .warnSize sync⟩
  | warnSize (q : Queue A) (sync : Bool) :
      Step ⟨q, .warnSize sync⟩ ⟨q, if q.size > queueSizeWarning then .warnMod sync else .busySize sync⟩
  | warnMod (q : Queue A) (sync : Bool) : Step ⟨q, .warnMod sync⟩ ⟨q, .busySize sync⟩
  | busySize (q : Queue A) (sync : Bool) :
      Step ⟨q, .busySize sync⟩ ⟨q, if q.size > maxQueueEntry then .busyMod sync else .make sync⟩
  | busyMod (q : Queue A) (sync : Bool) :
      Step ⟨q, .busyMod sync⟩ ⟨q, if q.size % 100 = 0 then .idle else .make sync⟩
  | noMemory (q : Queue A) (sync : Bool) : Step ⟨q, .make sync⟩ ⟨q, .idle⟩
  /-- `make_queue_long_entry`, whose entry has no `prev`. -/
  | made {q : Queue A} {e : A} (he : Unqueued q e) (sync : Bool) :
      Step ⟨q, .make sync⟩ ⟨{ q with prev := Function.update q.prev e none }, .put sync e⟩
  | put (q : Queue A) (sync : Bool) (e : A) :
      Step ⟨q, .put sync e⟩ ⟨if sync then queueCas q e else queuePut q e, .idle⟩

end Steps

/-- Past the tests: the next thing put in the queue is this request. -/
def Net.Admitted : Net A → Prop
  | .make _ => True
  | .put _ _ => True
  | _ => False

def Net.entry : Net A → Option A
  | .put _ e => some e
  | _ => none

/-- The queue holds a sequence of at most `limit` entries, and of fewer past the tests: only the
worker changes the size while the network thread is between its tests and the put. -/
structure Bounded (s : State A) : Prop where
  holds : ∃ l, Holds s.queue l ∧ ∀ e ∈ s.net.entry, Fresh s.queue l e
  size : s.queue.size ≤ limit
  room : s.net.Admitted → s.queue.size < limit

theorem bounded_start (prev : A → Option A) : Bounded (start prev) :=
  ⟨⟨[], holds_create prev, by simp [start, Net.entry]⟩, Nat.zero_le limit, False.elim⟩

/-- A step outside the queue, to a position where no entry is waiting. -/
private theorem Bounded.moves {q : Queue A} {net net' : Net A} (hs : Bounded ⟨q, net⟩)
    (hentry : net'.entry = none) (hroom : net'.Admitted → q.size < limit) : Bounded ⟨q, net'⟩ := by
  obtain ⟨l, hq, -⟩ := hs.holds
  exact ⟨⟨l, hq, by simp [hentry]⟩, hs.size, hroom⟩

theorem Bounded.take {q : Queue A} {net : Net A} (hs : Bounded ⟨q, net⟩) :
    Bounded ⟨(queueGet q).2, net⟩ := by
  obtain ⟨l, hq, hentry⟩ := hs.holds
  have hget := (holds_get hq).2
  have hprev : (queueGet q).2.prev = q.prev := by
    unfold queueGet
    split <;> rfl
  have hless : (queueGet q).2.size ≤ q.size := by
    rw [hget.size, hq.size, List.length_tail]
    omega
  refine ⟨⟨l.tail, hget, fun e he => ?_⟩, Nat.le_trans hless hs.size, fun hnet => Nat.lt_of_le_of_lt hless (hs.room hnet)⟩
  obtain ⟨hmem, hnull⟩ := hentry e he
  exact ⟨fun h => hmem (List.mem_of_mem_tail h), hprev ▸ hnull⟩

section Invariant
variable [DecidableEq A]

theorem Bounded.outside {q : Queue A} {net : Net A} (hs : Bounded ⟨q, net⟩) {e : A} (he : Unqueued q e)
    (hnet : ∀ sync, net ≠ .put sync e) (prev : Option A) :
    Bounded ⟨{ q with prev := Function.update q.prev e prev }, net⟩ := by
  obtain ⟨l, hq, hentry⟩ := hs.holds
  refine ⟨⟨l, holds_outside hq (he l hq) prev, fun f hf => ?_⟩, hs.size, hs.room⟩
  obtain ⟨hmem, hnull⟩ := hentry f hf
  have hne : f ≠ e := by
    rintro rfl
    cases net with
    | put sync g =>
      cases hf
      exact hnet sync rfl
    | _ => cases hf
  exact ⟨hmem, by simpa [hne] using hnull⟩

theorem Bounded.made {q : Queue A} {sync : Bool} (hs : Bounded ⟨q, .make sync⟩) {e : A}
    (he : Unqueued q e) :
    Bounded ⟨{ q with prev := Function.update q.prev e none }, .put sync e⟩ := by
  obtain ⟨l, hq, -⟩ := hs.holds
  have hmem := he l hq
  refine ⟨⟨l, holds_outside hq hmem none, fun f hf => ?_⟩, hs.size, fun _ => hs.room trivial⟩
  cases hf
  exact ⟨hmem, by simp⟩

theorem Bounded.put {q : Queue A} {sync : Bool} {e : A} (hs : Bounded ⟨q, .put sync e⟩) :
    Bounded ⟨if sync then queueCas q e else queuePut q e, .idle⟩ := by
  obtain ⟨l, hq, hentry⟩ := hs.holds
  have he := hentry e rfl
  have hroom : q.size < limit := hs.room trivial
  rw [hq.size] at hroom
  cases sync with
  | true =>
    have hcas := holds_cas hq he
    refine ⟨⟨e :: l, hcas, by simp [Net.entry]⟩, ?_, False.elim⟩
    rw [if_pos rfl, hcas.size, List.length_cons]
    exact hroom
  | false =>
    have hput := holds_put hq he
    refine ⟨⟨l ++ [e], hput, by simp [Net.entry]⟩, ?_, False.elim⟩
    rw [if_neg Bool.false_ne_true, hput.size, List.length_append]
    exact hroom

theorem bounded_step {s s' : State A} (hs : Bounded s) (hstep : Step s s') : Bounded s' := by
  cases hstep with
  | take q net => exact hs.take
  | outside he hnet prev => exact hs.outside he hnet prev
  | arrive q sync => exact hs.moves rfl False.elim
  | warnSize q sync => split <;> exact hs.moves rfl False.elim
  | warnMod q sync => exact hs.moves rfl False.elim
  | busySize q sync =>
    split
    · exact hs.moves rfl False.elim
    · next hsize =>
      apply hs.moves rfl
      intro _
      simp only [maxQueueEntry, limit] at hsize ⊢
      omega
  | busyMod q sync =>
    split
    · exact hs.moves rfl False.elim
    · next hmod =>
      -- the limit itself is a multiple of a hundred, so a size that is none lies below it
      have hsize : q.size ≤ limit := hs.size
      apply hs.moves rfl
      intro _
      simp only [limit] at hsize ⊢
      omega
  | noMemory q sync => exact hs.moves rfl False.elim
  | made he sync => exact hs.made he
  | put q sync e => exact hs.put

theorem bounded_run {s s' : State A} (hs : Bounded s) (hrun : Relation.ReflTransGen Step s s') :
    Bounded s' := by
  induction hrun with
  | refl => exact hs
  | tail _ hstep ih => exact bounded_step ih hstep

/-- Whatever the worker takes and whenever it does, the queue never holds more than `limit`. -/
theorem backlog_bounded {prev : A → Option A} {s : State A}
    (hrun : Relation.ReflTransGen Step (start prev) s) : s.queue.size ≤ limit :=
  (bounded_run (bounded_start prev) hrun).size

/-- The queue with a request that it has been short enough for. -/
def admitted (q : Queue A) (sync : Bool) (e : A) : Queue A :=
  let q := { q with prev := Function.update q.prev e none }
  if sync then queueCas q e else queuePut q e

theorem holds_admitted {q : Queue A} {l : List A} (hq : Holds q l) (sync : Bool) {e : A} (he : e ∉ l) :
    Holds (admitted q sync e) (if sync then e :: l else l ++ [e]) := by
  have hmade := holds_outside hq he none
  have hfresh : Fresh { q with prev := Function.update q.prev e none } l e := ⟨he, Function.update_self ..⟩
  cases sync with
  | true => exact holds_cas hmade hfresh
  | false => exact holds_put hmade hfresh

theorem steps_admitted {q : Queue A} {l : List A} (hq : Holds q l) (hshort : l.length ≤ queueSizeWarning)
    (sync : Bool) {e : A} (he : e ∉ l) : Relation.ReflTransGen Step ⟨q, .idle⟩ ⟨admitted q sync e, .idle⟩ := by
  rw [← hq.size] at hshort
  have hwarn : Step ⟨q, .warnSize sync⟩ ⟨q, .busySize sync⟩ := by
    have h := Step.warnSize q sync
    rwa [if_neg (Nat.not_lt_of_le hshort)] at h
  have hbusy : Step ⟨q, .busySize sync⟩ ⟨q, .make sync⟩ := by
    have h := Step.busySize q sync
    rwa [if_neg (Nat.not_lt_of_le (Nat.le_trans hshort (by decide)))] at h
  have hfree : Unqueued q e := fun l' hl' => hl'.unique hq ▸ he
  exact .tail (.tail (.tail (.tail (.single (.arrive q sync)) hwarn) hbusy) (.made hfree sync)) (.put _ sync e)

/-- Two requests come in, the worker takes the first of them, and one comes in that waits for its reply. -/
def taken : Queue ℕ := (queueGet (admitted (admitted (queueCreate fun _ => none) false 5) false 6)).2

theorem backlog_bounded_taken : Holds (admitted taken true 7) [7, 6] ∧ (admitted taken true 7).size ≤ limit := by
  have hcreate := holds_create fun _ : ℕ => none
  have hfirst := holds_admitted hcreate false (e := 5) List.not_mem_nil
  have hsecond := holds_admitted hfirst false (e := 6) (by decide)
  have htaken : Holds taken [6] := (holds_get hsecond).2
  have hrun : Relation.ReflTransGen Step (start fun _ : ℕ => none) ⟨admitted taken true 7, .idle⟩ :=
    ((steps_admitted hcreate (by decide) false List.not_mem_nil).trans
      (steps_admitted hfirst (by decide) false (by decide))).trans
        (.trans (.single (.take _ .idle)) (steps_admitted htaken (by decide) true (by decide)))
  exact ⟨holds_admitted htaken true (by decide), backlog_bounded hrun⟩

end Invariant
end Cmoon.QueueBacklog
