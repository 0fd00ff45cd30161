import Cmoon.ChatDaemon

/-! # The destinations of messages

A message goes to the server of its destination, if that is online. But a user comes on also when the daemon does not
know the server that says so, and is then online without a server, or with one that is not in the table. -/
namespace Cmoon.ChatDestinations
open DecimalText Datasets ChatDaemon

/-- The server of a user is a key of the table. -/
def Reaches (d : Daemon) (u : UserEntry) : Prop := ∃ name ∈ d.stbl.map (·.name), u.server = some name

/-- Every user marked online has a server. -/
def Served (d : Daemon) : Prop := ∀ uin u, d.utbl uin = some u → u.online = true → Reaches d u

/-- No `NULL` is looked up, and no server that is not there. -/
def Finds (result : Except Fault Handled) : Prop :=
  result ≠ .error .nullServer ∧ ∀ r server, result = .ok r → r.reply ≠ .error (.cantFound server)

section Runs
variable (met : Surroundings)

def LooksUp (d : Daemon) : Event → Prop
  | .request q => Finds (extProcessDriver met d q)
  | .tick _ => True

def Delivers (d : Daemon) (e : Event) : Prop := (∀ d', step met d e = .ok d' → Served d') ∧ LooksUp met d e

/-- The server that marks a user online is in the table, or the user has one from there already. -/
def Known (d : Daemon) : Event → Prop
  | .request q =>
    match q.operation with
    | .useron => ∀ srcx uin, userParams q = .ok (srcx, uin) →
        srcx ∈ d.stbl.map (·.name) ∨ Reaches d (d.user uin)
    | .msgsnd => ∀ m, msgParams q = .ok m → m.srcx ∈ d.stbl.map (·.name)
    | _ => True
  | .tick _ => True

/-- What holds of each step of a run, in the state that it is made in. -/
def Throughout (P : Daemon → Event → Prop) : Daemon → List Event → Prop
  | _, [] => True
  | d, e :: es => P d e ∧ ∀ d', step met d e = .ok d' → Throughout P d' es

end Runs

variable {met : Surroundings} {d d' : Daemon} {e : Event} {q : Request}

theorem mem_names {name : Bytes} : name ∈ d.stbl.map (·.name) ↔ ∃ s, d.snake name = some s := by
  rw [← Option.isSome_iff_exists, ← Option.ne_none_iff_isSome, Ne, snake_eq_none, List.mem_map]
  push Not
  rfl

theorem served_setUser (hd : Served d) {uin : Bytes} {u : UserEntry} :
    Served (d.setUser uin u) ↔ (u.online = true → Reaches d u) := by
  constructor
  · intro h
    exact h uin u (setUser_utbl_self d uin u)
  · intro hu uin' u' hutbl honline
    by_cases huin : uin' = uin
    · rw [huin, setUser_utbl_self] at hutbl
      cases hutbl
      exact hu honline
    · rw [setUser_utbl_of_ne d huin] at hutbl
      exact hd uin' u' hutbl honline

theorem served_congr (hutbl : d'.utbl = d.utbl) (hnames : d'.stbl.map (·.name) = d.stbl.map (·.name)) :
    Served d' ↔ Served d := by
  unfold Served Reaches
  rw [hutbl, hnames]

theorem served_userOn (hd : Served d) (srcx uin : Bytes) :
    Served (userOn d srcx uin) ↔ srcx ∈ d.stbl.map (·.name) ∨ Reaches d (d.user uin) := by
  have hreaches : Reaches d ⟨true, if hasSnake d.stbl srcx then some srcx else (d.user uin).server⟩ ↔
      srcx ∈ d.stbl.map (·.name) ∨ Reaches d (d.user uin) := by
    rw [← hasSnake_iff]
    by_cases hsrcx : hasSnake d.stbl srcx = true
    · rw [if_pos hsrcx]
      exact iff_of_true ⟨srcx, hasSnake_iff.mp hsrcx, rfl⟩ (.inl hsrcx)
    · rw [if_neg hsrcx, or_iff_right hsrcx]
      rfl
  have hnames : (userOn d srcx uin).stbl.map (·.name) = d.stbl.map (·.name) := updateSnake_names fun _ _ => rfl
  have hset : Served (userOn d srcx uin) ↔ Served (d.setUser uin _) := served_congr rfl hnames
  rw [hset, served_setUser hd, ← hreaches]
  exact ⟨fun h => h rfl, fun h _ => h⟩

theorem served_userOff (hd : Served d) (srcx uin : Bytes) : Served (userOff d srcx uin) := by
  have hnames : (userOff d srcx uin).stbl.map (·.name) = d.stbl.map (·.name) := updateSnake_names fun _ _ => rfl
  have hset : Served (userOff d srcx uin) ↔ Served (d.setUser uin _) := served_congr rfl hnames
  rw [hset, served_setUser hd]
  intro honline
  cases honline

theorem served_heartBeat (hd : Served d) (srcx : Bytes) (num : ℤ) : Served (heartBeat d srcx num) := by
  have hnames : (heartBeat d srcx num).stbl.map (·.name) = d.stbl.map (·.name) := updateSnake_names fun _ _ => rfl
  have hset : Served (heartBeat d srcx num) ↔ Served d := served_congr rfl hnames
  exact hset.mpr hd

theorem served_noteSource (hd : Served d) (srcx srcuin : Bytes) :
    Served (noteSource d srcx srcuin) ↔ srcx ∈ d.stbl.map (·.name) := by
  have hreaches : Reaches d ⟨!diedAt d srcx, some srcx⟩ ↔ srcx ∈ d.stbl.map (·.name) := by
    constructor
    · rintro ⟨name, hname, hsome⟩
      rwa [Option.some_inj.mp hsome]
    · intro hsrcx
      exact ⟨srcx, hsrcx, rfl⟩
  refine (served_setUser hd).trans ?_
  rw [hreaches]
  constructor
  · intro h
    by_cases hdied : diedAt d srcx = true
    · unfold diedAt at hdied
      rw [mem_names]
      cases hs : d.snake srcx with
      | none =>
        rw [hs] at hdied
        cases hdied
      | some s => exact ⟨s, rfl⟩
    · rw [Bool.not_eq_true] at hdied
      apply h
      rw [hdied]
      rfl
  · exact fun h _ => h

theorem finds_ok {r : Handled} (h : ∀ server, r.reply ≠ .error (.cantFound server)) : Finds (.ok r) := by
  constructor
  · intro hr
    cases hr
  · intro r' server hr
    cases hr
    exact h server

theorem finds_reply (hdfsnd : Dataset) (sent : List Notice) (d : Daemon) : Finds (.ok ⟨.ok hdfsnd, sent, d⟩) := by
  apply finds_ok
  intro server hr
  cases hr

theorem finds_error {err : ChatErr} (h : ∀ server, err ≠ .cantFound server) (sent : List Notice) (d : Daemon) :
    Finds (.ok ⟨.error err, sent, d⟩) := by
  apply finds_ok
  intro server hr
  exact h server (Except.error.inj hr)

theorem finds_params {α : Type} {x : Except ChatErr α} (hx : NeedsParam x) {err : ChatErr} (h : x = .error err) :
    Finds (.ok ⟨.error err, [], d⟩) := by
  obtain ⟨key, rfl⟩ := hx err h
  exact finds_error (fun _ => ChatErr.noConfusion) [] d

theorem finds_fault {f : Fault} (hf : f ≠ .nullServer) : Finds (.error f) := by
  constructor
  · intro h
    exact hf (Except.error.inj h)
  · intro r server h
    cases h

/-- A message to an online user that has a server is passed on. -/
theorem finds_passOn (hd : Served d) (srcx dstuin : Bytes) : Finds (passOn met d q srcx dstuin) := by
  unfold passOn
  cases hu : (d.utbl dstuin).filter (·.online) with
  | none => exact finds_reply _ _ _
  | some u =>
    obtain ⟨hutbl, honline⟩ := Option.filter_eq_some_iff.mp hu
    obtain ⟨name, hname, hserver⟩ := hd dstuin u hutbl honline
    obtain ⟨s, hs⟩ := mem_names.mp hname
    dsimp only
    rw [hserver]
    dsimp only
    rw [hs]
    dsimp only
    split
    · exact finds_reply _ _ _
    · exact finds_error (fun _ => ChatErr.noConfusion) _ _

theorem finds_extCmdConnect (d : Daemon) : Finds (extCmdConnect d) := by
  unfold extCmdConnect
  split
  · split
    · exact finds_error (fun _ => ChatErr.noConfusion) _ _
    · exact finds_fault Fault.noConfusion
  · split
    · exact finds_reply _ _ _
    · exact finds_error (fun _ => ChatErr.noConfusion) _ _

theorem finds_extCmdHb (d : Daemon) (q : Request) : Finds (.ok (extCmdHb d q)) := by
  unfold extCmdHb
  cases hp : beatParams q with
  | error err => exact finds_params (needsParam_beatParams q) hp
  | ok p =>
    dsimp only
    split
    · exact finds_error (fun _ => ChatErr.noConfusion) _ _
    · exact finds_reply _ _ _

theorem finds_of_ne (h : q.operation ≠ .msgsnd) : Finds (extProcessDriver met d q) := by
  unfold extProcessDriver
  cases hop : q.operation with
  | useron =>
    dsimp only
    unfold extCmdUseron
    cases hp : userParams q with
    | error err => exact finds_params (needsParam_userParams q) hp
    | ok p => exact finds_reply _ _ _
  | useroff =>
    dsimp only
    unfold extCmdUseroff
    cases hp : userParams q with
    | error err => exact finds_params (needsParam_userParams q) hp
    | ok p => exact finds_reply _ _ _
  | msgsnd => exact (h hop).elim
  | msgbrd => exact finds_fault Fault.noConfusion
  | connect => exact finds_extCmdConnect d
  | hb => exact finds_extCmdHb d q
  | state => exact finds_reply _ _ _
  | other number => exact finds_error (fun _ => ChatErr.noConfusion) _ _

theorem delivers_of_ne (h : q.operation ≠ .msgsnd) (hserved : Served (requested d q)) :
    Delivers met d (.request q) := by
  refine ⟨?_, finds_of_ne h⟩
  intro d' hstep
  rwa [step_request hstep]

theorem extCmdMsgsnd_error {f : Fault} (h : extCmdMsgsnd met d q = .error f) : f = .nullServer := by
  unfold extCmdMsgsnd at h
  split at h
  · cases h
  · split at h
    · cases h
    · unfold passOn at h
      split at h
      · cases h
      · split at h
        · cases h
          rfl
        · split at h
          · cases h
          · dsimp only at h
            split at h
            · cases h
            · cases h

theorem finds_extCmdMsgsnd (hserved : ∀ m, msgParams q = .ok m → Served (noteSource d m.srcx m.srcuin)) :
    Finds (extCmdMsgsnd met d q) := by
  unfold extCmdMsgsnd
  cases hm : msgParams q with
  | error err => exact finds_params (needsParam_msgParams q) hm
  | ok m =>
    dsimp only
    split
    · exact finds_error (fun _ => ChatErr.noConfusion) _ _
    · exact finds_passOn (hserved m hm) _ _

theorem requested_msgsnd (d : Daemon) (hop : q.operation = .msgsnd) :
    requested d q = given d (msgParams q) fun m => noteSource d m.srcx m.srcuin := by
  unfold requested
  rw [hop]

theorem delivers_msgsnd_iff (hd : Served d) (hop : q.operation = .msgsnd) :
    Delivers met d (.request q) ↔ ∀ m, msgParams q = .ok m → m.srcx ∈ d.stbl.map (·.name) := by
  have hdriver : extProcessDriver met d q = extCmdMsgsnd met d q := by
    unfold extProcessDriver
    rw [hop]
  constructor
  · rintro ⟨hserved, hfault, -⟩ m hm
    -- the source is updated in any case, unless the destination has no server
    cases hr : extProcessDriver met d q with
    | error f =>
      have hnull : f = .nullServer := extCmdMsgsnd_error (hdriver.symm.trans hr)
      exact (hfault (hnull ▸ hr)).elim
    | ok r =>
      have hafter := hserved r.daemon (step_of_driver hr)
      rw [extProcessDriver_daemon hr, requested_msgsnd d hop, hm] at hafter
      exact (served_noteSource hd _ _).mp hafter
  · intro hknown
    have hserved : ∀ m, msgParams q = .ok m → Served (noteSource d m.srcx m.srcuin) :=
      fun m hm => (served_noteSource hd _ _).mpr (hknown m hm)
    constructor
    · intro d' hstep
      rw [step_request hstep, requested_msgsnd d hop]
      exact given_keeps hd hserved
    · change Finds (extProcessDriver met d q)
      rw [hdriver]
      exact finds_extCmdMsgsnd hserved

theorem requested_useron (d : Daemon) (hop : q.operation = .useron) :
    requested d q = given d (userParams q) fun p => userOn d p.1 p.2 := by
  unfold requested
  rw [hop]

theorem delivers_useron_iff (hd : Served d) (hop : q.operation = .useron) :
    Delivers met d (.request q) ↔ ∀ srcx uin, userParams q = .ok (srcx, uin) →
      srcx ∈ d.stbl.map (·.name) ∨ Reaches d (d.user uin) := by
  constructor
  · rintro ⟨hserved, -⟩ srcx uin hparams
    have hafter := hserved _ (step_useron met d hop)
    rw [hparams] at hafter
    exact (served_userOn hd srcx uin).mp hafter
  · intro hknown
    apply delivers_of_ne (by rw [hop]; exact ReqCmd.noConfusion)
    rw [requested_useron d hop]
    apply given_keeps hd
    intro p hparams
    exact (served_userOn hd p.1 p.2).mpr (hknown p.1 p.2 hparams)

theorem served_requested (hd : Served d) (hon : q.operation ≠ .useron) (hmsg : q.operation ≠ .msgsnd) :
    Served (requested d q) := by
  unfold requested
  split
  · exact (hon ‹_›).elim
  · exact given_keeps hd fun p _ => served_userOff hd p.1 p.2
  · exact (hmsg ‹_›).elim
  · exact given_keeps hd fun p _ => served_heartBeat hd p.1 p.2
  · exact hd

theorem delivers_iff (hd : Served d) : Delivers met d e ↔ Known d e := by
  cases e with
  | tick now =>
    refine iff_of_true ⟨?_, trivial⟩ trivial
    intro d' hstep
    have hutbl : d'.utbl = d.utbl := by
      obtain ⟨-, rfl⟩ | ⟨-, slink, -, rfl⟩ := step_tick hstep
      · rfl
      · rfl
    exact (served_congr hutbl (step_names hstep)).mpr hd
  | request q =>
    unfold Known
    dsimp only
    split
    · exact delivers_useron_iff hd ‹_›
    · exact delivers_msgsnd_iff hd ‹_›
    · rename_i hon hmsg
      exact iff_of_true (delivers_of_ne hmsg (served_requested hd hon hmsg)) trivial

/-- **An online user has a reachable server** throughout a run if and only if each server that marks a user online is in the
table, or the user has one from there already. -/
theorem delivers_throughout_iff (met : Surroundings) (now : ℤ) (aped : List (Bytes × Option Bytes))
    (events : List Event) : Throughout met (Delivers met) (extStartDriver met now aped) events ↔
      Throughout met Known (extStartDriver met now aped) events := by
  have hstart : Served (extStartDriver met now aped) := by
    intro uin u hutbl
    cases hutbl
  generalize extStartDriver met now aped = d at hstart
  induction events generalizing d with
  | nil => exact Iff.rfl
  | cons e events ih =>
    have hstep : Delivers met d e ↔ Known d e := delivers_iff hstart
    constructor
    · rintro ⟨hdelivers, hrest⟩
      exact ⟨hstep.mp hdelivers, fun d' hd' => (ih d' (hdelivers.1 d' hd')).mp (hrest d' hd')⟩
    · rintro ⟨hknown, hrest⟩
      have hdelivers := hstep.mpr hknown
      exact ⟨hdelivers, fun d' hd' => (ih d' (hdelivers.1 d' hd')).mpr (hrest d' hd')⟩

/-- **But a user comes on** from a server that the daemon does not know. -/
theorem not_delivers_throughout : ¬ ∀ (met : Surroundings) (now : ℤ) (aped : List (Bytes × Option Bytes))
    (events : List Event), Throughout met (Delivers met) (extStartDriver met now aped) events := by
  intro h
  have hserved : Served _ := (h plain 0 [([48], some [97])] [.request (useron [120] [117])]).1.1 _ rfl
  obtain ⟨name, -, hname⟩ := hserved [117] ⟨true, none⟩ rfl rfl
  cases hname

end Cmoon.ChatDestinations
