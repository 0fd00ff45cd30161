import Cmoon.ChatConnects
import Cmoon.ChatLoads
import Cmoon.Histories

/-! # Dead chat servers

The timer looks at the servers with every 31st tick. A server is dead from there on if its last heart beat came more
than 300 seconds before, by a clock that goes with the ticks, until one of its users comes or goes or the timer looks
again. -/
namespace Cmoon.ChatFailures
open DecimalText Datasets ChatDaemon ChatConnects ChatLoads Histories

def isBeat (name : Bytes) (e : Event) : Bool :=
  match said name e with
  | some (.beat _) => true
  | _ => false

/-- One of the users of a server comes or goes. -/
def moves (name : Bytes) (e : Event) : Bool :=
  match said name e with
  | some (.on _) => true
  | some (.off _) => true
  | _ => false

/-- What the clock shows after the events: the time of the last tick. -/
def clockFrom : ℤ → List Event → ℤ
  | t, [] => t
  | _, .tick now :: es => clockFrom now es
  | t, .request _ :: es => clockFrom t es

/-- What the clock shows as the heart beats of a server come in. -/
def beatTimes (name : Bytes) : ℤ → List Event → List ℤ
  | _, [] => []
  | _, .tick now :: es => beatTimes name now es
  | t, .request q :: es => if isBeat name (.request q) then t :: beatTimes name t es else beatTimes name t es

def lastBeat (now : ℤ) (name : Bytes) (events : List Event) : ℤ := (beatTimes name 0 events).getLastD now

/-- At the last check the server had not been heard for more than 300 seconds, and no user of it has moved since. -/
def Dead (now : ℤ) (name : Bytes) (events : List Event) : Prop :=
  ∃ before t after, events = before ++ .tick t :: after ∧ ticks before % 31 = 30 ∧ ticks after < 31 ∧
    300 < t - lastBeat now name before ∧ ∀ e ∈ after, moves name e = false

section Histories
variable {now t : ℤ} {name : Bytes} {q : Request} {e : Event} {events es fs : List Event}

theorem clockFrom_append : clockFrom t (es ++ fs) = clockFrom (clockFrom t es) fs := by
  induction es generalizing t with
  | nil => rfl
  | cons e es ih => cases e <;> exact ih

theorem beatTimes_append : beatTimes name t (es ++ fs) = beatTimes name t es ++ beatTimes name (clockFrom t es) fs := by
  induction es generalizing t with
  | nil => rfl
  | cons e es ih =>
    cases e with
    | tick now => exact ih
    | request q =>
      simp only [List.cons_append, beatTimes, clockFrom, ih]
      split <;> rfl

theorem ticks_append : ticks (es ++ fs) = ticks es + ticks fs := List.countP_append

theorem lastBeat_tick : lastBeat now name (events ++ [.tick t]) = lastBeat now name events := by
  unfold lastBeat
  rw [beatTimes_append]
  exact congrArg (·.getLastD now) (List.append_nil _)

theorem lastBeat_request : lastBeat now name (events ++ [.request q]) =
    if isBeat name (.request q) then clockFrom 0 events else lastBeat now name events := by
  unfold lastBeat
  rw [beatTimes_append]
  simp only [beatTimes]
  split
  · exact List.getLastD_concat
  · rw [List.append_nil]

theorem not_dead_nil : ¬ Dead now name [] := by
  rintro ⟨before, t, after, h, -⟩
  exact List.append_ne_nil_of_right_ne_nil before (List.cons_ne_nil _ after) h.symm

theorem dead_request :
    Dead now name (events ++ [.request q]) ↔ Dead now name events ∧ moves name (.request q) = false := by
  constructor
  · rintro ⟨before, t, after, h, hcheck, hlast, hlate, hquiet⟩
    obtain ⟨-, -, h⟩ | ⟨rest, rfl, rfl⟩ := concat_eq_split.mp h
    · cases h
    · rw [ticks_append] at hlast
      refine ⟨⟨before, t, rest, rfl, hcheck, by omega, hlate, fun e he => hquiet e (List.mem_append_left _ he)⟩, ?_⟩
      exact hquiet _ (List.mem_append_right _ List.mem_cons_self)
  · rintro ⟨⟨before, t, after, rfl, hcheck, hlast, hlate, hquiet⟩, hmoves⟩
    refine ⟨before, t, after ++ [.request q], by simp, hcheck, ?_, hlate, ?_⟩
    · rw [ticks_append]
      exact hlast
    · intro e he
      obtain he | he := List.mem_append.mp he
      · exact hquiet e he
      · rwa [List.mem_singleton.mp he]

theorem ticks_split {before after : List Event} :
    ticks (before ++ .tick t :: after) = ticks before + (ticks after + 1) := by
  rw [ticks_append]
  exact congrArg (ticks before + ·) (List.countP_cons_of_pos rfl)

theorem dead_tick_of_ne (h : ticks events % 31 ≠ 30) :
    Dead now name (events ++ [.tick t]) ↔ Dead now name events := by
  constructor
  · rintro ⟨before, t', after, hsplit, hcheck, hlast, hlate, hquiet⟩
    obtain ⟨-, rfl, -⟩ | ⟨rest, rfl, rfl⟩ := concat_eq_split.mp hsplit
    · exact (h hcheck).elim
    · rw [ticks_append] at hlast
      exact ⟨before, t', rest, rfl, hcheck, by omega, hlate, fun e he => hquiet e (List.mem_append_left _ he)⟩
  · rintro ⟨before, t', after, rfl, hcheck, hlast, hlate, hquiet⟩
    refine ⟨before, t', after ++ [.tick t], by simp, hcheck, ?_, hlate, ?_⟩
    · rw [ticks_split] at h
      rw [ticks_append]
      change ticks after + 1 < 31
      omega
    · intro e he
      obtain he | he := List.mem_append.mp he
      · exact hquiet e he
      · rw [List.mem_singleton.mp he]
        rfl

theorem dead_tick_of_eq (h : ticks events % 31 = 30) :
    Dead now name (events ++ [.tick t]) ↔ 300 < t - lastBeat now name events := by
  constructor
  · rintro ⟨before, t', after, hsplit, hcheck, hlast, hlate, -⟩
    obtain ⟨-, rfl, ht⟩ | ⟨rest, rfl, rfl⟩ := concat_eq_split.mp hsplit
    · cases ht
      exact hlate
    · -- the check would be less than 31 ticks after the one before
      rw [ticks_split] at h
      rw [ticks_append] at hlast
      have hlast : ticks rest + 1 < 31 := hlast
      omega
  · intro hlate
    exact ⟨events, t, [], rfl, h, by decide, hlate, fun e he => by cases he⟩

end Histories

section Entries
variable {met : Surroundings} {d d' : Daemon} {q : Request} {events : List Event} {now : ℤ}

/-- The time of a server after a message of it, and its state. -/
def idleAfter (gTime idle : ℤ) : Change → ℤ
  | .beat _ => gTime
  | _ => idle

def stateAfter (state : SnakeState) : Change → SnakeState
  | .beat _ => state
  | _ => .running

theorem requested_entry (d : Daemon) (q : Request) :
    match heard q with
    | none => (requested d q).stbl = d.stbl
    | some (srcx, c) => ∃ f, (requested d q).stbl = updateSnake d.stbl srcx f ∧
        ∀ s, (f s).name = s.name ∧ (f s).idle = idleAfter d.gTime s.idle c ∧ (f s).state = stateAfter s.state c := by
  unfold requested heard
  cases q.operation with
  | useron =>
    cases userParams q with
    | error e => rfl
    | ok p => exact ⟨comesOn, rfl, fun s => ⟨rfl, rfl, rfl⟩⟩
  | useroff =>
    cases userParams q with
    | error e => rfl
    | ok p => exact ⟨goesOff, rfl, fun s => ⟨rfl, rfl, rfl⟩⟩
  | hb =>
    cases beatParams q with
    | error e => rfl
    | ok p => exact ⟨beats d.gTime p.2, rfl, fun s => ⟨rfl, rfl, rfl⟩⟩
  | msgsnd =>
    cases msgParams q with
    | error e => rfl
    | ok m => rfl
  | msgbrd => rfl
  | connect => rfl
  | state => rfl
  | other number => rfl

/-- A heart beat sets the time of its server, and a user that comes or goes brings it to life. -/
theorem requested_seen {s' : SnakeEntry} (hs' : s' ∈ (requested d q).stbl) :
    ∃ s ∈ d.stbl, s'.name = s.name ∧
      s'.idle = (if isBeat s.name (.request q) then d.gTime else s.idle) ∧
      s'.state = if moves s.name (.request q) then .running else s.state := by
  have hstbl := requested_entry d q
  unfold isBeat moves
  cases hq : heard q with
  | none =>
    rw [hq] at hstbl
    change (requested d q).stbl = d.stbl at hstbl
    rw [hstbl] at hs'
    refine ⟨s', hs', rfl, ?_⟩
    rw [said_request, hq]
    exact ⟨(if_neg Bool.false_ne_true).symm, (if_neg Bool.false_ne_true).symm⟩
  | some p =>
    obtain ⟨srcx, c⟩ := p
    rw [hq] at hstbl
    obtain ⟨f, hstbl, hf⟩ := hstbl
    rw [hstbl] at hs'
    obtain ⟨s, hs, rfl⟩ := mem_updateSnake hs'
    refine ⟨s, hs, ?_⟩
    rw [said_request, hq]
    by_cases hname : s.name = srcx
    · obtain ⟨hsame, hidle, hstate⟩ := hf s
      simp only [hname, if_true]
      refine ⟨hname ▸ hsame, ?_⟩
      cases c <;> exact ⟨hidle, hstate⟩
    · simp [hname, Ne.symm hname]

/-- What the daemon has of a history: the clock, the count to the next check, and of each server the time it was last
heard and whether it is dead. -/
structure Seen (now : ℤ) (events : List Event) (d : Daemon) : Prop where
  gTime : d.gTime = clockFrom 0 events
  intime : d.intime = ticks events % 31
  idle : ∀ s ∈ d.stbl, s.idle = lastBeat now s.name events
  state : ∀ s ∈ d.stbl, s.state = .died ↔ Dead now s.name events

theorem seen_start (met : Surroundings) (now : ℤ) (aped : List (Bytes × Option Bytes)) :
    Seen now [] (extStartDriver met now aped) := by
  have hnew : ∀ s ∈ (extStartDriver met now aped).stbl, s.idle = now ∧ s.state = .running := by
    intro s hs
    obtain ⟨⟨domain, ename⟩, -, hname⟩ := List.mem_filterMap.mp (mem_start hs)
    obtain ⟨name, -, rfl⟩ := Option.map_eq_some_iff.mp hname
    exact ⟨rfl, rfl⟩
  refine ⟨rfl, rfl, fun s hs => (hnew s hs).1, fun s hs => ?_⟩
  rw [(hnew s hs).2]
  exact iff_of_false SnakeState.noConfusion not_dead_nil

theorem seen_request (h : Seen now events d) : Seen now (events ++ [.request q]) (requested d q) := by
  have hleaves := requested_leaves d q
  refine ⟨?_, ?_, fun s' hs' => ?_, fun s' hs' => ?_⟩
  · rw [hleaves.gTime, h.gTime, clockFrom_append]
    rfl
  · rw [hleaves.intime, h.intime, ticks_append]
    rfl
  · obtain ⟨s, hs, hname, hidle, -⟩ := requested_seen hs'
    rw [hidle, hname, lastBeat_request, h.gTime, h.idle s hs]
  · obtain ⟨s, hs, hname, -, hstate⟩ := requested_seen hs'
    rw [hstate, hname, dead_request, ← h.state s hs]
    cases moves s.name (.request q) <;> simp

theorem seen_tick {t : ℤ} (h : Seen now events d) (hstep : step met d (.tick t) = .ok d') :
    Seen now (events ++ [.tick t]) d' := by
  have hclock : clockFrom 0 (events ++ [.tick t]) = t := by
    rw [clockFrom_append]
    rfl
  have hticks : ticks (events ++ [.tick t]) = ticks events + 1 := ticks_append
  have hintime := h.intime
  obtain ⟨hlt, rfl⟩ | ⟨hle, slink, -, rfl⟩ := step_tick hstep
  · refine ⟨hclock.symm, ?_, fun s hs => ?_, fun s hs => ?_⟩
    · change d.intime + 1 = _
      omega
    · rw [lastBeat_tick]
      exact h.idle s hs
    · rw [dead_tick_of_ne (by omega)]
      exact h.state s hs
  · have hcheck : ticks events % 31 = 30 := by omega
    have hentry : ∀ s' ∈ (checkedServers { d with gTime := t, intime := 0 }).stbl,
        ∃ s ∈ d.stbl, s' = checked t s := by
      intro s' hs'
      obtain ⟨s, hs, rfl⟩ := List.mem_map.mp hs'
      exact ⟨s, hs, rfl⟩
    refine ⟨hclock.symm, ?_, fun s' hs' => ?_, fun s' hs' => ?_⟩
    · change 0 = _
      omega
    · obtain ⟨s, hs, rfl⟩ := hentry s' hs'
      rw [lastBeat_tick]
      exact h.idle s hs
    · obtain ⟨s, hs, rfl⟩ := hentry s' hs'
      rw [dead_tick_of_eq hcheck]
      have hidle := h.idle s hs
      change (if 300 < t - s.idle then SnakeState.died else .running) = .died ↔ 300 < t - lastBeat now s.name events
      rw [← hidle]
      split
      · exact iff_of_true rfl ‹_›
      · exact iff_of_false SnakeState.noConfusion ‹_›

end Entries

section Runs
variable {met : Surroundings} {d : Daemon} {events : List Event} {now : ℤ} {aped : List (Bytes × Option Bytes)}

theorem run_seen (hrun : run met (extStartDriver met now aped) events = .ok d) : Seen now events d := by
  induction events using List.reverseRecOn generalizing d with
  | nil =>
    cases hrun
    exact seen_start met now aped
  | append_singleton events e ih =>
    obtain ⟨d₁, hrun₁, hstep⟩ := run_concat_eq_ok.mp hrun
    cases e with
    | request q =>
      rw [step_request hstep]
      exact seen_request (ih hrun₁)
    | tick t => exact seen_tick (ih hrun₁) hstep

/-- In every state that a run reaches, a server is `DIED` if and only if at the last check it had not been heard for
more than `ZOMBLE_SEC`, and none of its users has come or gone since. -/
theorem died_iff (hrun : run met (extStartDriver met now aped) events = .ok d) {s : SnakeEntry} (hs : s ∈ d.stbl) :
    s.state = .died ↔ Dead now s.name events :=
  (run_seen hrun).state s hs

def silence : List Event := List.replicate 31 (.tick 301)

theorem silence_run : ∃ d, run plain (extStartDriver plain 0 [([48], some [97])]) silence = .ok d ∧
    ∃ s ∈ d.stbl, s.name = [97] ∧ s.state = .died :=
  ⟨_, rfl, _, List.mem_cons_self, rfl, rfl⟩

theorem died_iff_silence : Dead 0 [97] silence := by
  obtain ⟨d, hrun, s, hs, hname, hdied⟩ := silence_run
  exact hname ▸ (died_iff hrun hs).mp hdied

end Runs

end Cmoon.ChatFailures
