import Cmoon.ChatDaemon

/-! # The server of a client

`CONNECT` goes through the list of the servers, which the timer builds when it checks them for the first time. Until then
there is none. -/
namespace Cmoon.ChatConnects
open DecimalText Datasets ChatDaemon

def Answers (d : Daemon) : Prop :=
  ∃ r, extCmdConnect d = .ok r ∧
    ((∃ s ∈ d.stbl, s.state = .running ∧ r.reply = .ok (hdfSetValue [] "domain" (some s.domain))) ∨
      ((∀ s ∈ d.stbl, s.state ≠ .running) ∧ r.reply = .error .allDie))

def ticks (events : List Event) : ℕ :=
  events.countP fun e =>
    match e with
    | .tick _ => true
    | .request _ => false

variable {met : Surroundings} {d d' : Daemon} {e : Event} {events : List Event}

theorem snake_of_mem (hnames : (d.stbl.map (·.name)).Nodup) {s : SnakeEntry} (hs : s ∈ d.stbl) :
    d.snake s.name = some s := by
  unfold Daemon.snake
  generalize d.stbl = stbl at hnames hs
  induction stbl with
  | nil => cases hs
  | cons t stbl ih =>
    obtain ⟨hnotMem, hrest⟩ := List.nodup_cons.mp hnames
    obtain rfl | hs := List.mem_cons.mp hs
    · exact List.find?_cons_of_pos (decide_eq_true rfl)
    · rw [List.find?_cons_of_neg]
      · exact ih hrest hs
      · intro hname
        apply hnotMem
        have heq : t.name = s.name := of_decide_eq_true hname
        exact List.mem_map.mpr ⟨s, hs, heq.symm⟩

theorem entries_perm (hnames : (d.stbl.map (·.name)).Nodup) {slink : List Bytes}
    (hslink : slink.Perm (d.stbl.map (·.name))) : (d.entries slink).Perm d.stbl := by
  have hall : (d.stbl.map (·.name)).filterMap d.snake = d.stbl := by
    rw [List.filterMap_map]
    refine (List.filterMap_congr ?_).trans List.filterMap_some
    intro s hs
    exact snake_of_mem hnames hs
  have hperm := hslink.filterMap d.snake
  rwa [hall] at hperm

/-- What holds of the table and the list in every state: the list, once it is there, has all the names. -/
structure Linked (d : Daemon) : Prop where
  nodup : (d.stbl.map (·.name)).Nodup
  length : d.stbl.length ≤ d.snakeNum
  list : ∀ slink, d.slink = some slink → slink.Perm (d.stbl.map (·.name))

theorem linked_start (met : Surroundings) (now : ℤ) (aped : List (Bytes × Option Bytes)) :
    Linked (extStartDriver met now aped) where
  nodup := start_nodup met now aped
  length := start_length met now aped
  list slink h := by cases h

theorem Linked.congr (h : Linked d) (hnames : d'.stbl.map (·.name) = d.stbl.map (·.name))
    (hnum : d'.snakeNum = d.snakeNum) (hlist : d'.slink = d.slink) : Linked d' where
  nodup := hnames ▸ h.nodup
  length := by
    have hlength := congrArg List.length hnames
    rw [List.length_map, List.length_map] at hlength
    rw [hlength, hnum]
    exact h.length
  list := by
    rw [hnames, hlist]
    exact h.list

theorem buildList_perm (h : Linked d) {slink : List Bytes} (hslink : buildList d = .ok slink) :
    slink.Perm (d.stbl.map (·.name)) := by
  unfold buildList at hslink
  split at hslink
  · rename_i slink' hlist
    cases hslink
    exact h.list slink hlist
  · split at hslink
    · cases hslink
    · cases hslink
      rw [List.take_of_length_le h.length]

theorem linked_sorted (h : Linked d) {slink : List Bytes} (hslink : buildList d = .ok slink) :
    Linked (sorted met d slink) where
  nodup := h.nodup
  length := h.length
  list slink' hlist := by
    cases hlist
    exact ((met.qsort_perm _ _).trans (entries_perm h.nodup (buildList_perm h hslink))).map _

theorem step_linked (h : Linked d) (hstep : step met d e = .ok d') : Linked d' := by
  cases e with
  | request q =>
    rw [step_request hstep]
    have hleaves := requested_leaves d q
    exact h.congr hleaves.names hleaves.snakeNum hleaves.slink
  | tick now =>
    obtain ⟨-, rfl⟩ | ⟨-, slink, hslink, rfl⟩ := step_tick hstep
    · exact h.congr rfl rfl rfl
    · apply linked_sorted _ hslink
      exact h.congr (checkedServers_names _) rfl rfl

def Built (d : Daemon) (n : ℕ) : Prop := (d.slink = none ∧ d.intime = n ∧ n ≤ 30) ∨ (d.slink ≠ none ∧ 31 ≤ n)

theorem step_built {n : ℕ} (h : Built d n) (hstep : step met d e = .ok d') : Built d' (n + ticks [e]) := by
  cases e with
  | request q =>
    rw [step_request hstep]
    have hleaves := requested_leaves d q
    unfold Built
    rw [hleaves.slink, hleaves.intime]
    exact h
  | tick now =>
    change Built d' (n + 1)
    obtain ⟨hnone, hintime, hn⟩ | ⟨hsome, hn⟩ := h
    · obtain ⟨hlt, rfl⟩ | ⟨hle, slink, -, rfl⟩ := step_tick hstep
      · refine .inl ⟨hnone, congrArg (· + 1) hintime, ?_⟩
        omega
      · refine .inr ⟨Option.some_ne_none _, ?_⟩
        omega
    · refine .inr ⟨?_, by omega⟩
      obtain ⟨-, rfl⟩ | ⟨-, slink, -, rfl⟩ := step_tick hstep
      · exact hsome
      · exact Option.some_ne_none _

theorem run_built {now : ℤ} {aped : List (Bytes × Option Bytes)}
    (hrun : run met (extStartDriver met now aped) events = .ok d) : Built d (ticks events) := by
  induction events using List.reverseRecOn generalizing d with
  | nil =>
    cases hrun
    exact .inl ⟨rfl, rfl, Nat.zero_le _⟩
  | append_singleton events e ih =>
    obtain ⟨d₁, hrun₁, hstep⟩ := run_concat_eq_ok.mp hrun
    unfold ticks
    rw [List.countP_append]
    exact step_built (ih hrun₁) hstep

theorem run_snakeNum (hrun : run met d events = .ok d') : d'.snakeNum = d.snakeNum := by
  apply run_keeps (I := fun d' => d'.snakeNum = d.snakeNum) _ rfl hrun
  intro d₁ e d₂ h hstep
  cases e with
  | request q =>
    rw [step_request hstep]
    exact (requested_leaves d₁ q).snakeNum.trans h
  | tick now =>
    obtain ⟨-, rfl⟩ | ⟨-, slink, -, rfl⟩ := step_tick hstep
    · exact h
    · exact h

theorem answers_of_list (h : Linked d) {slink : List Bytes} (hlist : d.slink = some slink) : Answers d := by
  have hperm := entries_perm h.nodup (h.list slink hlist)
  unfold Answers extCmdConnect
  rw [hlist]
  dsimp only
  cases hs : (d.entries slink).find? (·.state = .running) with
  | some s =>
    refine ⟨_, rfl, .inl ⟨s, hperm.mem_iff.mp (List.mem_of_find?_eq_some hs), ?_, rfl⟩⟩
    have hrunning := List.find?_some hs
    rwa [decide_eq_true_eq] at hrunning
  | none =>
    refine ⟨_, rfl, .inr ⟨?_, rfl⟩⟩
    intro s hmem hrunning
    exact List.find?_eq_none.mp hs s (hperm.mem_iff.mpr hmem) (decide_eq_true hrunning)

theorem answers_iff (h : Linked d) : Answers d ↔ d.slink ≠ none ∨ d.snakeNum = 0 := by
  cases hlist : d.slink with
  | some slink => exact iff_of_true (answers_of_list h hlist) (.inl (Option.some_ne_none _))
  | none =>
    rw [or_iff_right (fun hne => hne rfl)]
    unfold Answers extCmdConnect
    rw [hlist]
    dsimp only
    by_cases hnum : d.snakeNum = 0
    · rw [if_pos hnum]
      refine iff_of_true ⟨_, rfl, .inr ⟨?_, rfl⟩⟩ hnum
      have hempty : d.stbl = [] := List.length_eq_zero_iff.mp (Nat.le_zero.mp (hnum ▸ h.length))
      rw [hempty]
      exact List.forall_mem_nil _
    · rw [if_neg hnum]
      refine iff_of_false ?_ hnum
      rintro ⟨r, hr, -⟩
      cases hr

/-- **`CONNECT` finds a live server** in a state of a run if and only if the timer has built the list, with its 31st tick,
or no server is configured. -/
theorem run_answers_iff {met : Surroundings} {now : ℤ} {aped : List (Bytes × Option Bytes)} {events : List Event}
    {d : Daemon} (hrun : run met (extStartDriver met now aped) events = .ok d) :
    Answers d ↔ 31 ≤ ticks events ∨ opened met now aped = [] := by
  have hlinked : Linked d := run_keeps step_linked (linked_start met now aped) hrun
  have hnum : d.snakeNum = (opened met now aped).length := run_snakeNum hrun
  rw [answers_iff hlinked, hnum, List.length_eq_zero_iff]
  apply or_congr_left
  obtain ⟨hnone, -, hn⟩ | ⟨hsome, hn⟩ := run_built hrun
  · exact iff_of_false (fun h => h hnone) (by omega)
  · exact iff_of_true hsome hn

/-- One server, and the timer until the servers are checked. -/
theorem answers_checked : ∃ d, run plain (extStartDriver plain 0 [([48], some [97])])
    (List.replicate 31 (.tick 5)) = .ok d ∧ Answers d := by
  obtain ⟨d, hrun⟩ : ∃ d, run plain (extStartDriver plain 0 [([48], some [97])])
      (List.replicate 31 (.tick 5)) = .ok d := ⟨_, rfl⟩
  exact ⟨d, hrun, (run_answers_iff hrun).mpr (.inl (by decide))⟩

/-- **But right after the start** there is no list. -/
theorem not_run_answers : ¬ ∀ (met : Surroundings) (now : ℤ) (aped : List (Bytes × Option Bytes)) (events : List Event)
    (d : Daemon), run met (extStartDriver met now aped) events = .ok d → Answers d := by
  intro h
  obtain ⟨r, hr, -⟩ := h plain 0 [([48], some [97])] [] _ rfl
  cases hr

end Cmoon.ChatConnects
