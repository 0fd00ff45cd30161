import Cmoon.ChatFailures
import Cmoon.ChatPresence

/-! # Where chat messages go

A message goes to the server that its destination has come on at last, or sent a message from. What the daemon keeps of
a user is what the last requests about it say, and no server is told twice. -/
namespace Cmoon.ChatRoutes
open DecimalText Datasets ChatDaemon ChatConnects ChatFailures Histories

/-- What a request says of a user, and the server that it comes from. -/
inductive Word where
  | comes (srcx : Bytes)
  | goes (srcx : Bytes)
  | writes (srcx : Bytes)
  deriving DecidableEq

def word (uin : Bytes) : Event → Option Word
  | .request q =>
    match q.operation with
    | .useron => ((userParams q).toOption.filter (·.2 = uin)).map fun p => .comes p.1
    | .useroff => ((userParams q).toOption.filter (·.2 = uin)).map fun p => .goes p.1
    | .msgsnd => ((msgParams q).toOption.filter (·.srcuin = uin)).map fun m => .writes m.srcx
    | _ => none
  | .tick _ => none

section Histories
variable (now : ℤ) (names : List Bytes)

def Died (srcx : Bytes) (events : List Event) : Prop := srcx ∈ names ∧ Dead now srcx events

/-- The last request about a user has it come on, or is a message of it from a server that is not dead. -/
def On (uin : Bytes) (events : List Event) : Prop :=
  Last (fun e => word uin e ≠ none)
    (fun before e => ∃ x, word uin e = some (.comes x) ∨ (word uin e = some (.writes x) ∧ ¬ Died now names x before))
    events

/-- A server that the daemon takes for that of a user: one of the table where it comes on, or any that it writes
from. -/
def Places (uin : Bytes) (e : Event) (x : Bytes) : Prop :=
  (word uin e = some (.comes x) ∧ x ∈ names) ∨ word uin e = some (.writes x)

def At (uin : Bytes) (events : List Event) (x : Bytes) : Prop :=
  Last (fun e => ∃ y, Places names uin e y) (fun _ e => Places names uin e x) events

/-- The servers that are told of a request, and what. -/
inductive Told (events : List Event) (q : Request) : Notice → Prop
  | user {srcx uin server : Bytes} (hop : q.operation = .useron ∨ q.operation = .useroff)
      (hparams : userParams q = .ok (srcx, uin)) (hserver : server ∈ names) (hother : server ≠ srcx) :
      Told events q ⟨server, uin, q.operation, q.hdfrcv⟩
  | message {m : Message} {server : Bytes} (hop : q.operation = .msgsnd) (hparams : msgParams q = .ok m)
      (hsource : ¬ Died now names m.srcx events) (hon : On now names m.dstuin (events ++ [.request q]))
      (hserver : server ∈ names) (hat : At names m.dstuin (events ++ [.request q]) server) :
      Told events q ⟨server, m.srcx, .msgsnd, q.hdfrcv⟩

end Histories

section Users
variable {met : Surroundings} {d d' : Daemon} {q : Request} {now : ℤ} {events : List Event}

theorem user_setUser (d : Daemon) (u uin : Bytes) (e : UserEntry) :
    (d.setUser u e).user uin = if u = uin then e else d.user uin := by
  unfold Daemon.user
  by_cases h : u = uin
  · rw [h, setUser_utbl_self, if_pos rfl]
    rfl
  · rw [setUser_utbl_of_ne d (Ne.symm h), if_neg h]

def userAfter (d : Daemon) (u : UserEntry) : Word → UserEntry
  | .comes srcx => ⟨true, if hasSnake d.stbl srcx then some srcx else u.server⟩
  | .goes _ => { u with online := false }
  | .writes srcx => ⟨!diedAt d srcx, some srcx⟩

theorem requested_user (d : Daemon) (q : Request) (uin : Bytes) :
    (requested d q).user uin = match word uin (.request q) with
      | none => d.user uin
      | some w => userAfter d (d.user uin) w := by
  unfold requested word
  dsimp only
  cases q.operation with
  | useron =>
    cases userParams q with
    | error e => rfl
    | ok p =>
      refine (user_setUser d p.2 uin _).trans ?_
      by_cases hu : p.2 = uin
      · simp [Except.toOption, Option.filter, hu, userAfter]
      · simp [Except.toOption, Option.filter, hu]
  | useroff =>
    cases userParams q with
    | error e => rfl
    | ok p =>
      refine (user_setUser d p.2 uin _).trans ?_
      by_cases hu : p.2 = uin
      · simp [Except.toOption, Option.filter, hu, userAfter]
      · simp [Except.toOption, Option.filter, hu]
  | hb =>
    cases beatParams q with
    | error e => rfl
    | ok p => rfl
  | msgsnd =>
    cases msgParams q with
    | error e => rfl
    | ok m =>
      refine (user_setUser d m.srcuin uin _).trans ?_
      by_cases hu : m.srcuin = uin
      · simp [Except.toOption, Option.filter, hu, userAfter]
      · simp [Except.toOption, Option.filter, hu]
  | msgbrd => rfl
  | connect => rfl
  | state => rfl
  | other number => rfl

/-- The table of the users has what the history says. -/
structure Located (now : ℤ) (events : List Event) (d : Daemon) : Prop where
  seen : Seen now events d
  nodup : (d.stbl.map (·.name)).Nodup
  online : ∀ uin, (d.user uin).online = true ↔ On now (d.stbl.map (·.name)) uin events
  server : ∀ uin x, (d.user uin).server = some x ↔ At (d.stbl.map (·.name)) uin events x

theorem diedAt_iff (h : Located now events d) (srcx : Bytes) :
    diedAt d srcx = true ↔ Died now (d.stbl.map (·.name)) srcx events := by
  unfold diedAt Died
  cases hs : d.snake srcx with
  | none =>
    have hnames : srcx ∉ d.stbl.map (·.name) := fun hmem => by
      obtain ⟨s, hs', hname⟩ := List.mem_map.mp hmem
      exact snake_eq_none.mp hs s hs' hname
    exact iff_of_false Bool.false_ne_true fun hdied => hnames hdied.1
  | some s =>
    have hmem : s ∈ d.stbl := List.mem_of_find?_eq_some hs
    have hname : s.name = srcx := of_decide_eq_true (List.find?_some hs :)
    rw [Option.any_some, decide_eq_true_eq, h.seen.state s hmem, hname]
    exact ⟨fun hdead => ⟨hname ▸ List.mem_map_of_mem hmem, hdead⟩, And.right⟩

theorem word_tick (uin : Bytes) (t : ℤ) : word uin (.tick t) = none := rfl

/-- Whether a user is on after a word about it, and which server is its own. -/
def onAfter (now : ℤ) (names : List Bytes) (events : List Event) : Word → Prop
  | .comes _ => True
  | .goes _ => False
  | .writes x => ¬ Died now names x events

def atAfter (names : List Bytes) (at' : Prop) (x : Bytes) : Word → Prop
  | .comes y => (y ∈ names → y = x) ∧ (y ∉ names → at')
  | .goes _ => at'
  | .writes y => y = x

theorem atAfter_comes_of_mem {names : List Bytes} {at' : Prop} {x y : Bytes} (hy : y ∈ names) :
    atAfter names at' x (.comes y) ↔ y = x :=
  ⟨fun h => h.1 hy, fun h => ⟨fun _ => h, fun hn => absurd hy hn⟩⟩

theorem atAfter_comes_of_notMem {names : List Bytes} {at' : Prop} {x y : Bytes} (hy : y ∉ names) :
    atAfter names at' x (.comes y) ↔ at' :=
  ⟨fun h => h.2 hy, fun h => ⟨fun hm => absurd hm hy, fun _ => h⟩⟩

theorem on_iff_of_word {names : List Bytes} {uin : Bytes} {e : Event} {w : Word} (h : word uin e = some w) :
    On now names uin (events ++ [e]) ↔ onAfter now names events w := by
  unfold On
  rw [last_concat_of_kind (by rw [h]; exact Option.some_ne_none w), h]
  cases w <;> simp [onAfter]

theorem on_iff_of_none {names : List Bytes} {uin : Bytes} {e : Event} (h : word uin e = none) :
    On now names uin (events ++ [e]) ↔ On now names uin events :=
  last_concat_of_not (not_not_intro h)

theorem at_iff_of_none {names : List Bytes} {uin : Bytes} {e : Event} (h : word uin e = none) (x : Bytes) :
    At names uin (events ++ [e]) x ↔ At names uin events x := by
  apply last_concat_of_not
  rintro ⟨y, ⟨hw, -⟩ | hw⟩
  · cases h.symm.trans hw
  · cases h.symm.trans hw

theorem at_iff_of_word {names : List Bytes} {uin : Bytes} {e : Event} {w : Word} (h : word uin e = some w)
    (x : Bytes) : At names uin (events ++ [e]) x ↔ atAfter names (At names uin events x) x w := by
  have hplaces : ∀ y, Places names uin e y ↔ (w = .comes y ∧ y ∈ names) ∨ w = .writes y := by
    intro y
    rw [Places, h, Option.some_inj, Option.some_inj]
  unfold At
  cases w with
  | comes y =>
    by_cases hy : y ∈ names
    · rw [last_concat_of_kind ⟨y, (hplaces y).mpr (.inl ⟨rfl, hy⟩)⟩, hplaces, atAfter_comes_of_mem hy]
      constructor
      · rintro (⟨heq, -⟩ | heq) <;> cases heq
        rfl
      · rintro rfl
        exact .inl ⟨rfl, hy⟩
    · rw [last_concat_of_not, atAfter_comes_of_notMem hy]
      rintro ⟨z, hz⟩
      obtain ⟨hzy, hz⟩ | hzy := (hplaces z).mp hz
      · cases hzy
        exact hy hz
      · cases hzy
  | goes y =>
    apply last_concat_of_not
    rintro ⟨z, hz⟩
    obtain ⟨hzy, -⟩ | hzy := (hplaces z).mp hz
    · cases hzy
    · cases hzy
  | writes y =>
    rw [last_concat_of_kind ⟨y, (hplaces y).mpr (.inr rfl)⟩, hplaces]
    simp [atAfter]

theorem located_start (met : Surroundings) (now : ℤ) (aped : List (Bytes × Option Bytes)) :
    Located now [] (extStartDriver met now aped) where
  seen := seen_start met now aped
  nodup := start_nodup met now aped
  online _ := iff_of_false Bool.false_ne_true not_last_nil
  server _ _ := iff_of_false nofun not_last_nil

theorem located_request (h : Located now events d) : Located now (events ++ [.request q]) (requested d q) := by
  have hnames := (requested_leaves d q).names
  refine ⟨seen_request h.seen, hnames ▸ h.nodup, fun uin => ?_, fun uin x => ?_⟩
  · rw [hnames, requested_user]
    cases hw : word uin (.request q) with
    | none =>
      rw [on_iff_of_none hw]
      exact h.online uin
    | some w =>
      rw [on_iff_of_word hw]
      cases w with
      | comes y => simp [userAfter, onAfter]
      | goes y => simp [userAfter, onAfter]
      | writes y => simp [userAfter, onAfter, ← diedAt_iff h]
  · rw [hnames, requested_user]
    cases hw : word uin (.request q) with
    | none =>
      rw [at_iff_of_none hw]
      exact h.server uin x
    | some w =>
      rw [at_iff_of_word hw]
      cases w with
      | comes y =>
        dsimp only [userAfter]
        by_cases hy : y ∈ d.stbl.map (·.name)
        · rw [if_pos (hasSnake_iff.mpr hy), atAfter_comes_of_mem hy, Option.some_inj]
        · rw [if_neg (mt hasSnake_iff.mp hy), atAfter_comes_of_notMem hy]
          exact h.server uin x
      | goes y => exact h.server uin x
      | writes y => exact Option.some_inj

theorem located_tick {t : ℤ} (h : Located now events d) (hstep : step met d (.tick t) = .ok d') :
    Located now (events ++ [.tick t]) d' := by
  have hnames := step_names hstep
  have huser : ∀ uin, d'.user uin = d.user uin := by
    intro uin
    obtain ⟨-, rfl⟩ | ⟨-, slink, -, rfl⟩ := step_tick hstep
    · rfl
    · rfl
  refine ⟨seen_tick h.seen hstep, hnames ▸ h.nodup, fun uin => ?_, fun uin x => ?_⟩
  · rw [hnames, huser, on_iff_of_none (word_tick uin t)]
    exact h.online uin
  · rw [hnames, huser, at_iff_of_none (word_tick uin t)]
    exact h.server uin x

end Users

section Notices
variable {met : Surroundings} {d : Daemon} {q : Request} {r : Handled} {now : ℤ} {events : List Event}

theorem mem_noticeOthers {srcx uin : Bytes} {n : Notice} : n ∈ noticeOthers d q srcx uin ↔
    ∃ server ∈ d.stbl.map (·.name), server ≠ srcx ∧ n = ⟨server, uin, q.operation, q.hdfrcv⟩ := by
  unfold noticeOthers
  rw [List.mem_map]
  constructor
  · rintro ⟨s, hs, rfl⟩
    obtain ⟨hmem, hne⟩ := List.mem_filter.mp hs
    exact ⟨s.name, List.mem_map_of_mem hmem, of_decide_eq_true hne, rfl⟩
  · rintro ⟨server, hserver, hne, rfl⟩
    obtain ⟨s, hmem, rfl⟩ := List.mem_map.mp hserver
    exact ⟨s, List.mem_filter.mpr ⟨hmem, decide_eq_true hne⟩, rfl⟩

theorem noticeOthers_nodup (h : (d.stbl.map (·.name)).Nodup) (srcx uin : Bytes) :
    (noticeOthers d q srcx uin).Nodup := by
  apply List.Nodup.of_map Notice.server
  have hservers : (noticeOthers d q srcx uin).map Notice.server = (d.stbl.filter (·.name ≠ srcx)).map (·.name) :=
    List.map_map
  rw [hservers]
  exact h.sublist (List.filter_sublist.map _)

/-- A message is passed on to the server of its destination, if that is on and its server in the table. -/
theorem passOn_sent {srcx dstuin : Bytes} (h : passOn met d q srcx dstuin = .ok r) :
    (∀ n, n ∈ r.sent ↔ ∃ server ∈ d.stbl.map (·.name), (d.user dstuin).online = true ∧
      (d.user dstuin).server = some server ∧ n = ⟨server, srcx, .msgsnd, q.hdfrcv⟩) ∧ r.sent.Nodup := by
  unfold passOn at h
  cases hf : (d.utbl dstuin).filter (·.online) with
  | none =>
    rw [hf] at h
    cases h
    have hoff : (d.user dstuin).online = false := by
      unfold Daemon.user
      cases hu : d.utbl dstuin with
      | none => rfl
      | some u => simpa [hu, Option.filter] using hf
    refine ⟨fun n => iff_of_false List.not_mem_nil ?_, List.nodup_nil⟩
    rintro ⟨server, -, hon, -⟩
    exact Bool.false_ne_true (hoff.symm.trans hon)
  | some u =>
    obtain ⟨hu, hon⟩ := Option.filter_eq_some_iff.mp hf
    have huser : d.user dstuin = u := by
      rw [Daemon.user, hu]
      rfl
    rw [hf] at h
    rw [huser]
    dsimp only at h
    cases hserver : u.server with
    | none =>
      rw [hserver] at h
      cases h
    | some server =>
      rw [hserver] at h
      dsimp only at h
      cases hs : d.snake server with
      | none =>
        rw [hs] at h
        cases h
        refine ⟨fun n => iff_of_false List.not_mem_nil ?_, List.nodup_nil⟩
        rintro ⟨server', hmem, -, hsame, -⟩
        obtain rfl := Option.some.inj hsame
        obtain ⟨s, hs', hname⟩ := List.mem_map.mp hmem
        exact snake_eq_none.mp hs s hs' hname
      | some s =>
        have hmem : s ∈ d.stbl := List.mem_of_find?_eq_some hs
        have hname : s.name = server := of_decide_eq_true (List.find?_some hs :)
        have hsent : r.sent = [⟨server, srcx, .msgsnd, q.hdfrcv⟩] := by
          rw [hs] at h
          dsimp only at h
          rw [hname] at h
          split at h
          · cases h
            rfl
          · cases h
            rfl
        rw [hsent]
        refine ⟨fun n => List.mem_singleton.trans ⟨?_, ?_⟩, List.nodup_singleton _⟩
        · rintro rfl
          exact ⟨server, hname ▸ List.mem_map_of_mem hmem, hon, rfl, rfl⟩
        · rintro ⟨server', -, -, hsame, rfl⟩
          rw [Option.some.inj hsame]

theorem run_located {aped : List (Bytes × Option Bytes)} (hrun : run met (extStartDriver met now aped) events = .ok d) :
    Located now events d := by
  induction events using List.reverseRecOn generalizing d with
  | nil =>
    cases hrun
    exact located_start met now aped
  | append_singleton events e ih =>
    obtain ⟨d₁, hrun₁, hstep⟩ := run_concat_eq_ok.mp hrun
    cases e with
    | request q =>
      rw [step_request hstep]
      exact located_request (ih hrun₁)
    | tick t => exact located_tick (ih hrun₁) hstep

/-- `USERON` and `USEROFF` go to all servers but the one that says so. -/
theorem told_user (h : Located now events d) (hop : q.operation = .useron ∨ q.operation = .useroff) {sent : List Notice}
    (hsent : sent = match userParams q with
      | .error _ => []
      | .ok p => noticeOthers d q p.1 p.2) :
    (∀ n, n ∈ sent ↔ Told now (d.stbl.map (·.name)) events q n) ∧ sent.Nodup := by
  have hnotMsg : q.operation ≠ .msgsnd := by
    intro hmsg
    rw [hmsg] at hop
    obtain hop | hop := hop <;> cases hop
  subst hsent
  cases hp : userParams q with
  | error err =>
    refine ⟨fun n => iff_of_false List.not_mem_nil ?_, List.nodup_nil⟩
    rintro (⟨-, hparams, -⟩ | ⟨hmsg, -⟩)
    · cases hp.symm.trans hparams
    · exact hnotMsg hmsg
  | ok p =>
    refine ⟨fun n => mem_noticeOthers.trans ⟨?_, ?_⟩, noticeOthers_nodup h.nodup p.1 p.2⟩
    · rintro ⟨server, hserver, hother, rfl⟩
      exact .user hop hp hserver hother
    · rintro (⟨-, hparams, hserver, hother⟩ | ⟨hmsg, -⟩)
      · cases hp.symm.trans hparams
        exact ⟨_, hserver, hother, rfl⟩
      · exact (hnotMsg hmsg).elim

/-- `MSGSND` goes to one server or to none. -/
theorem told_message (h : Located now events d) (hop : q.operation = .msgsnd) (hr : extCmdMsgsnd met d q = .ok r) :
    (∀ n, n ∈ r.sent ↔ Told now (d.stbl.map (·.name)) events q n) ∧ r.sent.Nodup := by
  have hnotUser : ¬ (q.operation = .useron ∨ q.operation = .useroff) := by
    rw [hop]
    rintro (h | h) <;> cases h
  unfold extCmdMsgsnd at hr
  cases hm : msgParams q with
  | error err =>
    rw [hm] at hr
    cases hr
    refine ⟨fun n => iff_of_false List.not_mem_nil ?_, List.nodup_nil⟩
    rintro (⟨huser, -⟩ | ⟨-, hparams, -⟩)
    · exact hnotUser huser
    · cases hm.symm.trans hparams
  | ok m =>
    rw [hm] at hr
    dsimp only at hr
    split at hr
    · rename_i hdied
      cases hr
      refine ⟨fun n => iff_of_false List.not_mem_nil ?_, List.nodup_nil⟩
      rintro (⟨huser, -⟩ | ⟨-, hparams, hsource, -⟩)
      · exact hnotUser huser
      · cases hm.symm.trans hparams
        exact hsource ((diedAt_iff h m.srcx).mp hdied)
    · rename_i hlives
      have hafter : requested d q = noteSource d m.srcx m.srcuin := by
        rw [requested, hop, hm]
        rfl
      have hlocated := located_request (q := q) h
      rw [hafter] at hlocated
      obtain ⟨hsent, hnodup⟩ := passOn_sent hr
      refine ⟨fun n => (hsent n).trans ⟨?_, ?_⟩, hnodup⟩
      · rintro ⟨server, hserver, hon, hat, rfl⟩
        exact .message hop hm (mt (diedAt_iff h m.srcx).mpr hlives) ((hlocated.online _).mp hon) hserver
          ((hlocated.server _ _).mp hat)
      · rintro (⟨huser, -⟩ | ⟨-, hparams, hsource, hon, hserver, hat⟩)
        · exact (hnotUser huser).elim
        · cases hm.symm.trans hparams
          exact ⟨_, hserver, (hlocated.online _).mpr hon, (hlocated.server _ _).mpr hat, rfl⟩

theorem told_none (hsent : r.sent = []) (huser : ¬ (q.operation = .useron ∨ q.operation = .useroff))
    (hmsg : q.operation ≠ .msgsnd) :
    (∀ n, n ∈ r.sent ↔ Told now (d.stbl.map (·.name)) events q n) ∧ r.sent.Nodup := by
  rw [hsent]
  refine ⟨fun n => iff_of_false List.not_mem_nil ?_, List.nodup_nil⟩
  rintro (⟨hop, -⟩ | ⟨hop, -⟩)
  · exact huser hop
  · exact hmsg hop

theorem extCmdConnect_sent (h : extCmdConnect d = .ok r) : r.sent = [] := by
  unfold extCmdConnect at h
  split at h
  · split at h
    · cases h
      rfl
    · cases h
  · split at h
    · cases h
      rfl
    · cases h
      rfl

theorem extCmdHb_sent (d : Daemon) (q : Request) : (extCmdHb d q).sent = [] := by
  unfold extCmdHb
  cases beatParams q with
  | error err => rfl
  | ok p => cases hs : d.snake p.1 <;> simp [hs]

/-- In every state that a run reaches: a request that the daemon survives makes it tell those servers that the history
says, each once. A server's word about a user goes to all others, and a message to the server where its destination
has come on or written from at last, if that is on and the server of the source is not dead. -/
theorem told_iff {aped : List (Bytes × Option Bytes)} (hrun : run met (extStartDriver met now aped) events = .ok d)
    (hr : extProcessDriver met d q = .ok r) :
    (∀ n, n ∈ r.sent ↔ Told now (d.stbl.map (·.name)) events q n) ∧ r.sent.Nodup := by
  have h := run_located hrun
  have hnone : r.sent = [] → (q.operation ≠ .useron ∧ q.operation ≠ .useroff) ∧ q.operation ≠ .msgsnd →
      (∀ n, n ∈ r.sent ↔ Told now (d.stbl.map (·.name)) events q n) ∧ r.sent.Nodup :=
    fun hsent hother => told_none hsent (not_or.mpr hother.1) hother.2
  unfold extProcessDriver at hr
  cases hop : q.operation with
  | useron =>
    rw [hop] at hr
    cases hr
    refine told_user h (.inl hop) ?_
    unfold extCmdUseron
    cases userParams q <;> rfl
  | useroff =>
    rw [hop] at hr
    cases hr
    refine told_user h (.inr hop) ?_
    unfold extCmdUseroff
    cases userParams q <;> rfl
  | msgsnd =>
    rw [hop] at hr
    exact told_message h hop hr
  | msgbrd =>
    rw [hop] at hr
    cases hr
  | state =>
    rw [hop] at hr
    cases hr
    exact hnone rfl (by simp [hop])
  | connect =>
    rw [hop] at hr
    exact hnone (extCmdConnect_sent hr) (by simp [hop])
  | hb =>
    rw [hop] at hr
    cases hr
    exact hnone (extCmdHb_sent d q) (by simp [hop])
  | other number =>
    rw [hop] at hr
    cases hr
    exact hnone rfl (by simp [hop])

end Notices

/-- The user "u" comes on at the second server, "v" at the first, and writes to "u". -/
def meeting : List Event := [.request (useron [98] [117]), .request (useron [97] [118])]

def hello : Request :=
  ⟨.msgsnd, [("srcx", some [97]), ("srcuin", some [118]), ("dstuin", some [117]), ("msg", some [104])]⟩

theorem meeting_run : ∃ d, run plain (extStartDriver plain 0 ChatPresence.twoServers) meeting = .ok d ∧
    ∃ r, extProcessDriver plain d hello = .ok r ∧ r.sent = [⟨[98], [97], .msgsnd, hello.hdfrcv⟩] :=
  ⟨_, rfl, _, rfl, by decide⟩

/-- The message goes to the second server. -/
theorem told_iff_hello : ∃ names, Told 0 names meeting hello ⟨[98], [97], .msgsnd, hello.hdfrcv⟩ := by
  obtain ⟨d, hrun, r, hr, hsent⟩ := meeting_run
  refine ⟨_, ((told_iff hrun hr).1 _).mp ?_⟩
  rw [hsent]
  exact List.mem_cons_self

end Cmoon.ChatRoutes
