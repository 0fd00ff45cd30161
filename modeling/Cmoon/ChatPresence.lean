import Cmoon.ChatDaemon

/-! # Chat presence

A user has one flag, and a message of any server sets it. So the flag tells what was said of the user last, and not
whether there is a server that the user is still on at. -/
namespace Cmoon.ChatPresence
open DecimalText Datasets ChatDaemon

/-- What a server says of a user. -/
structure Signal where
  srcx : Bytes
  uin : Bytes
  on : Bool
  deriving DecidableEq

def signal (q : Request) : Option Signal :=
  match q.operation, userParams q with
  | .useron, .ok (srcx, uin) => some ⟨srcx, uin, true⟩
  | .useroff, .ok (srcx, uin) => some ⟨srcx, uin, false⟩
  | _, _ => none

def signals (qs : List Request) : List Signal := qs.filterMap signal

def latest (meant : Signal → Bool) (qs : List Request) : Option Bool :=
  (((signals qs).filter meant).getLast?).map (·.on)

/-- The latest signal for a user, of whatever server. -/
def latestFor (uin : Bytes) (qs : List Request) : Option Bool := latest (fun g => g.uin = uin) qs

def latestFrom (srcx uin : Bytes) (qs : List Request) : Option Bool :=
  latest (fun g => g.srcx = srcx && g.uin = uin) qs

/-- `USERON` and `USEROFF` of configured servers. -/
def Signals (d : Daemon) (qs : List Request) : Prop :=
  ∀ q ∈ qs, ∃ g, signal q = some g ∧ g.srcx ∈ d.stbl.map (·.name)

variable {q : Request} {qs : List Request} {g : Signal}

theorem latest_concat (meant : Signal → Bool) (hg : signal q = some g) :
    latest meant (qs ++ [q]) = if meant g then some g.on else latest meant qs := by
  unfold latest signals
  rw [List.filterMap_append, List.filterMap_cons_some hg, List.filterMap_nil, List.filter_append]
  by_cases hmeant : meant g
  · rw [List.filter_cons_of_pos hmeant, List.filter_nil, List.getLast?_concat, if_pos hmeant]
    rfl
  · rw [List.filter_cons_of_neg hmeant, List.filter_nil, List.append_nil, if_neg hmeant]

theorem online_setUser (d : Daemon) (uin' : Bytes) (u : UserEntry) (uin : Bytes) :
    (d.setUser uin' u).online uin = if uin' = uin then u.online else d.online uin := by
  unfold Daemon.online
  by_cases h : uin' = uin
  · rw [h, setUser_utbl_self, if_pos rfl]
    rfl
  · rw [setUser_utbl_of_ne d (Ne.symm h), if_neg h]

theorem step_signal (met : Surroundings) (d : Daemon) (hg : signal q = some g) :
    ∃ d', step met d (.request q) = .ok d' ∧ ∀ uin, d'.online uin = if g.uin = uin then g.on else d.online uin := by
  unfold signal at hg
  split at hg
  · rename_i srcx uin hop hparams
    cases hg
    refine ⟨userOn d srcx uin, ?_, online_setUser d uin _⟩
    rw [step_useron met d hop, hparams]
    rfl
  · rename_i srcx uin hop hparams
    cases hg
    refine ⟨userOff d srcx uin, ?_, online_setUser d uin _⟩
    rw [step_useroff met d hop, hparams]
    rfl
  · cases hg

/-- **Presence is what was said last**: after every sequence of `USERON` and `USEROFF` a user is marked online if and
only if the latest of those for it is `USERON`. -/
theorem online_iff_latestFor (met : Surroundings) (now : ℤ) (aped : List (Bytes × Option Bytes)) {qs : List Request}
    (hqs : Signals (extStartDriver met now aped) qs) :
    ∃ d, run met (extStartDriver met now aped) (qs.map .request) = .ok d ∧
      ∀ uin, d.online uin = true ↔ latestFor uin qs = some true := by
  induction qs using List.reverseRecOn with
  | nil =>
    refine ⟨_, rfl, ?_⟩
    intro uin
    exact iff_of_false Bool.false_ne_true (fun h => by cases h)
  | append_singleton qs q ih =>
    obtain ⟨d, hrun, hd⟩ := ih fun q' hq' => hqs q' (List.mem_append_left _ hq')
    obtain ⟨g, hg, -⟩ := hqs q (List.mem_append_right _ List.mem_cons_self)
    obtain ⟨d', hstep, hd'⟩ := step_signal met d hg
    refine ⟨d', ?_, ?_⟩
    · rw [List.map_append, List.map_singleton]
      exact run_concat_eq_ok.mpr ⟨d, hrun, hstep⟩
    · intro uin
      rw [hd' uin, latestFor, latest_concat _ hg]
      by_cases huin : g.uin = uin
      · rw [if_pos huin, if_pos (decide_eq_true huin), Option.some_inj]
      · rw [if_neg huin, if_neg (by rwa [decide_eq_true_eq])]
        exact hd uin

def twoServers : List (Bytes × Option Bytes) := [([48], some [97]), ([49], some [98])]

/-- A user comes on at one server, comes on at the other and goes off at the first. -/
def moves : List Request := [useron [97] [117], useron [98] [117], useroff [97] [117]]

theorem signals_moves : Signals (extStartDriver plain 0 twoServers) moves := by
  intro q hq
  rw [moves, List.mem_cons, List.mem_cons, List.mem_singleton] at hq
  obtain rfl | rfl | rfl := hq
  · exact ⟨⟨[97], [117], true⟩, by decide, by decide⟩
  · exact ⟨⟨[98], [117], true⟩, by decide, by decide⟩
  · exact ⟨⟨[97], [117], false⟩, by decide, by decide⟩

theorem online_moves : ∃ d, run plain (extStartDriver plain 0 twoServers) (moves.map .request) = .ok d ∧
    ∀ uin, d.online uin = true ↔ latestFor uin moves = some true :=
  online_iff_latestFor plain 0 twoServers signals_moves

/-- **But a user can be on elsewhere**: it is on at the second server after it goes off at the first. -/
theorem not_online_iff_latestFrom : ¬ ∀ (met : Surroundings) (now : ℤ) (aped : List (Bytes × Option Bytes))
    (qs : List Request), Signals (extStartDriver met now aped) qs →
      ∃ d, run met (extStartDriver met now aped) (qs.map .request) = .ok d ∧
        ∀ uin, d.online uin = true ↔ ∃ srcx, latestFrom srcx uin qs = some true := by
  intro h
  obtain ⟨d, hrun, honline⟩ := h plain 0 twoServers _ signals_moves
  have hoff : d.online [117] = false := by
    cases hrun
    decide
  have hon : ∃ srcx, latestFrom srcx [117] moves = some true := ⟨[98], by decide⟩
  rw [(honline [117]).mpr hon] at hoff
  cases hoff

end Cmoon.ChatPresence
