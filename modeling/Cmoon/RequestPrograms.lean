import Mathlib.Algebra.BigOperators.Group.List.Basic
import Mathlib.Algebra.GroupWithZero.Nat
import Mathlib.Data.List.Forall2
import Mathlib.Data.Set.Defs

/-! # Programs that share a server

A program ends with a result, or sends a command and goes on with the reply. Any number of
programs run over one server, which executes one command at a time; between two commands
it may drift, as a cache does that drops an entry. A command leaves notes in a log that only
specifications read. What each command of each program keeps holds at the end of every run. -/
namespace Cmoon.RequestPrograms

universe u

inductive Program (C R N O : Type u) where
  | done (result : O)
  | trigger (command : C) (note : R → List N) (next : R → Program C R N O)

namespace Program
variable {C R N O P : Type u}

def bind : Program C R N O → (O → Program C R N P) → Program C R N P
  | done o, f => f o
  | trigger c note next, f => trigger c note fun r => (next r).bind f

/-- Every command of the program, with its notes, whatever the replies were. -/
def Commands (G : C → (R → List N) → Prop) : Program C R N O → Prop
  | done _ => True
  | trigger c note next => G c note ∧ ∀ r, (next r).Commands G

variable {G : C → (R → List N) → Prop}

@[simp] theorem commands_done (o : O) : (done o : Program C R N O).Commands G := trivial

theorem commands_bind {p : Program C R N O} {f : O → Program C R N P} (hp : p.Commands G)
    (hf : ∀ o, (f o).Commands G) : (p.bind f).Commands G := by
  induction p with
  | done o => exact hf o
  | trigger c note next ih => exact ⟨hp.1, fun r => ih r (hp.2 r)⟩

/-- The program ends with `o` after exactly these replies. -/
inductive Ends : Program C R N O → List R → O → Prop where
  | done (o : O) : Ends (done o) [] o
  | trigger {c : C} {note : R → List N} {next : R → Program C R N O} {r : R} {rs : List R} {o : O}
      (h : Ends (next r) rs o) : Ends (trigger c note next) (r :: rs) o

def relabel {C' : Type u} (f : C → C') : Program C R N O → Program C' R N O
  | done o => done o
  | trigger c note next => trigger (f c) note fun r => (next r).relabel f

theorem Ends.relabel {C' : Type u} (f : C → C') {p : Program C R N O} {rs : List R} {o : O}
    (h : p.Ends rs o) : (p.relabel f).Ends rs o := by
  induction h with
  | done o => exact .done o
  | trigger _ ih => exact .trigger ih

def feed : Program C R N O → List R → Program C R N O
  | p, [] => p
  | done o, _ :: _ => done o
  | trigger _ _ next, r :: rs => (next r).feed rs

def answered (answer : C → R) : Program C R N O → O
  | done o => o
  | trigger c _ next => (next (answer c)).answered answer

theorem answered_bind (answer : C → R) (p : Program C R N O) (f : O → Program C R N P) :
    (p.bind f).answered answer = (f (p.answered answer)).answered answer := by
  induction p with
  | done o => rfl
  | trigger c note next ih => exact ih (answer c)

theorem answered_relabel {C' : Type u} (f : C → C') (answer : C' → R) (p : Program C R N O) :
    (p.relabel f).answered answer = p.answered fun c => answer (f c) := by
  induction p with
  | done o => rfl
  | trigger c note next ih => exact ih (answer (f c))

def command? : Program C R N O → Option C
  | done _ => none
  | trigger c _ _ => some c

theorem commands_feed {p : Program C R N O} (hp : p.Commands G) (rs : List R) : (p.feed rs).Commands G := by
  induction rs generalizing p with
  | nil => rwa [feed]
  | cons r rs ih =>
    cases p with
    | done o => trivial
    | trigger c note next => exact ih (hp.2 r)

/-- What follows a program has to keep a promise for the possible results only. -/
theorem commands_bind_ends {p : Program C R N O} {f : O → Program C R N P} (hp : p.Commands G)
    (hf : ∀ rs o, p.Ends rs o → (f o).Commands G) : (p.bind f).Commands G := by
  induction p with
  | done o => exact hf [] o (.done o)
  | trigger c note next ih => exact ⟨hp.1, fun r => ih r (hp.2 r) fun rs o h => hf (r :: rs) o (.trigger h)⟩

theorem Ends.feed_bind {p : Program C R N O} {rs : List R} {o : O} (h : p.Ends rs o)
    (f : O → Program C R N P) : (p.bind f).feed rs = f o := by
  induction h with
  | done o => simp [bind, feed]
  | trigger h ih => exact ih

end Program

namespace Program
variable {C R N O P : Type u} (weight : N → ℕ)

/-- Of the amount `n` a program notes some, and ends with the result and the rest as `Q` says. -/
def Spends (Q : O → ℕ → Prop) : Program C R N O → ℕ → Prop
  | done o, n => Q o n
  | trigger _ note next, n => ∀ r, ∃ m, n = ((note r).map weight).sum + m ∧ (next r).Spends Q m

variable {weight} {Q Q' : O → ℕ → Prop}

theorem Spends.mono (hQ : ∀ o n, Q o n → Q' o n) {p : Program C R N O} {n : ℕ} (h : p.Spends weight Q n) :
    p.Spends weight Q' n := by
  induction p generalizing n with
  | done o => exact hQ o n h
  | trigger c note next ih =>
    intro r
    obtain ⟨m, hm, hnext⟩ := h r
    exact ⟨m, hm, ih r hnext⟩

theorem spends_bind {f : P → Program C R N O} {p : Program C R N P} {n : ℕ}
    (h : p.Spends weight (fun o m => (f o).Spends weight Q m) n) : (p.bind f).Spends weight Q n := by
  induction p generalizing n with
  | done o => exact h
  | trigger c note next ih =>
    intro r
    obtain ⟨m, hm, hnext⟩ := h r
    exact ⟨m, hm, ih r hnext⟩

end Program

theorem spends_set {α : Type u} {S : α → ℕ → Prop} {ps : List α} {amounts : List ℕ} (h : List.Forall₂ S ps amounts)
    {i : ℕ} {p : α} (hi : ps[i]? = some p) :
    ∃ n, S p n ∧ ∀ p' n', S p' n' → ∃ amounts', List.Forall₂ S (ps.set i p') amounts' ∧
      amounts'.sum + n = amounts.sum + n' := by
  induction h generalizing i with
  | nil => cases hi
  | @cons q n qs amounts hq hqs ih =>
    cases i with
    | zero =>
      cases hi
      refine ⟨n, hq, ?_⟩
      intro p' n' hp'
      refine ⟨n' :: amounts, .cons hp' hqs, ?_⟩
      rw [List.sum_cons, List.sum_cons]
      omega
    | succ i =>
      obtain ⟨k, hk, hset⟩ := ih hi
      refine ⟨k, hk, ?_⟩
      intro p' n' hp'
      obtain ⟨amounts', hall, hsum⟩ := hset p' n' hp'
      refine ⟨n :: amounts', .cons hq hall, ?_⟩
      rw [List.sum_cons, List.sum_cons]
      omega

/-- A server: a command gives a reply and the next state, a drift a state without command. -/
structure Server (S C R D : Type u) where
  exec : S → C → R × S
  drift : S → D → S

structure Pool (S C R N O : Type u) where
  state : S
  running : List (Program C R N O)
  log : List N

inductive Move (C R N O D : Type u) where
  | arrive (p : Program C R N O)
  | advance (i : ℕ)
  | drift (d : D)

namespace Server
variable {S C R D N O : Type u} (server : Server S C R D)

/-- One move; a move of a program that is not there or has ended changes nothing. -/
def act (pool : Pool S C R N O) : Move C R N O D → Pool S C R N O
  | .arrive p => { pool with running := pool.running ++ [p] }
  | .advance i =>
    match pool.running[i]? with
    | some (.trigger c note next) =>
      let (reply, state) := server.exec pool.state c
      ⟨state, pool.running.set i (next reply), pool.log ++ note reply⟩
    | _ => pool
  | .drift d => { pool with state := server.drift pool.state d }

def run (pool : Pool S C R N O) (moves : List (Move C R N O D)) : Pool S C R N O :=
  moves.foldl server.act pool

/-- The command a move executes, with the notes it leaves, satisfies `Q`. -/
def Executes (Q : S → C → List N → Prop) (pool : Pool S C R N O) : Move C R N O D → Prop
  | .advance i =>
    match pool.running[i]? with
    | some (.trigger c note _) => Q pool.state c (note (server.exec pool.state c).1)
    | _ => True
  | _ => True

/-- Every move of a run is one of the states it is made in allows. -/
def Moves (A : Pool S C R N O → Move C R N O D → Prop) :
    Pool S C R N O → List (Move C R N O D) → Prop
  | _, [] => True
  | pool, m :: ms => A pool m ∧ Moves A (server.act pool m) ms

variable {server}

theorem moves_of_forall {A : Pool S C R N O → Move C R N O D → Prop} {pool : Pool S C R N O}
    {moves : List (Move C R N O D)} (h : ∀ pool, ∀ m ∈ moves, A pool m) : server.Moves A pool moves := by
  induction moves generalizing pool with
  | nil => trivial
  | cons m moves ih => exact ⟨h pool m List.mem_cons_self, ih fun pool m hm => h pool m (List.mem_cons_of_mem _ hm)⟩

theorem Moves.mono {A B : Pool S C R N O → Move C R N O D → Prop} (hab : ∀ pool m, A pool m → B pool m)
    {pool : Pool S C R N O} {moves : List (Move C R N O D)} (h : server.Moves A pool moves) :
    server.Moves B pool moves := by
  induction moves generalizing pool with
  | nil => trivial
  | cons m moves ih => exact ⟨hab pool m h.1, ih h.2⟩

theorem executes_true (pool : Pool S C R N O) (m : Move C R N O D) :
    server.Executes (fun _ _ _ => True) pool m := by
  cases m with
  | arrive p => trivial
  | drift d => trivial
  | advance i =>
    simp only [Executes]
    split <;> trivial

section Alone
variable (server)

/-- The result of a program that runs alone, and the state it leaves. -/
def complete (s : S) : Program C R N O → O × S
  | .done o => (o, s)
  | .trigger c _ next => let (reply, s') := server.exec s c; complete s' (next reply)

variable {server} {P : Type u} {G : C → (R → List N) → Prop}

theorem complete_bind (s : S) (p : Program C R N O) (f : O → Program C R N P) :
    server.complete s (p.bind f) = server.complete (server.complete s p).2 (f (server.complete s p).1) := by
  induction p generalizing s with
  | done o => rfl
  | trigger c note next ih => exact ih (server.exec s c).1 (server.exec s c).2

theorem complete_keeps {I : S → Prop} (hcommand : ∀ {c note s}, G c note → I s → I (server.exec s c).2)
    {p : Program C R N O} (hp : p.Commands G) {s : S} (h : I s) : I (server.complete s p).2 := by
  induction p generalizing s with
  | done o => exact h
  | trigger c note next ih => exact ih (server.exec s c).1 (hp.2 _) (hcommand hp.1 h)

theorem complete_alike {Rel : S → S → Prop} (hcommand : ∀ {c note s s'}, G c note → Rel s s' →
      (server.exec s c).1 = (server.exec s' c).1 ∧ Rel (server.exec s c).2 (server.exec s' c).2)
    {p : Program C R N O} (hp : p.Commands G) {s s' : S} (h : Rel s s') :
    (server.complete s p).1 = (server.complete s' p).1 ∧ Rel (server.complete s p).2 (server.complete s' p).2 := by
  induction p generalizing s s' with
  | done o => exact ⟨rfl, h⟩
  | trigger c note next ih =>
    obtain ⟨hreply, hrel⟩ := hcommand hp.1 h
    simp only [complete]
    rw [← hreply]
    exact ih (server.exec s c).1 (hp.2 _) hrel

end Alone

section Amounts
variable {weight : N → ℕ} {Q : O → ℕ → Prop}

theorem spends_act {pool : Pool S C R N O} {amounts : List ℕ}
    (h : List.Forall₂ (Program.Spends weight Q) pool.running amounts) (i : ℕ) :
    ∃ amounts', List.Forall₂ (Program.Spends weight Q) (server.act pool (.advance i)).running amounts' ∧
      ((server.act pool (.advance i)).log.map weight).sum + amounts'.sum =
        (pool.log.map weight).sum + amounts.sum := by
  simp only [act]
  split
  · rename_i c note next hi
    obtain ⟨n, hspends, hset⟩ := spends_set h hi
    obtain ⟨m, hm, hnext⟩ := hspends (server.exec pool.state c).1
    obtain ⟨amounts', hall, hsum⟩ := hset _ _ hnext
    refine ⟨amounts', hall, ?_⟩
    rw [List.map_append, List.sum_append]
    change (pool.log.map weight).sum + ((note (server.exec pool.state c).1).map weight).sum + amounts'.sum = _
    omega
  · exact ⟨amounts, h, rfl⟩

theorem spends_run {pool : Pool S C R N O} {amounts : List ℕ}
    (h : List.Forall₂ (Program.Spends weight Q) pool.running amounts) (schedule : List ℕ) :
    ∃ amounts', List.Forall₂ (Program.Spends weight Q) (server.run pool (schedule.map .advance)).running amounts' ∧
      ((server.run pool (schedule.map .advance)).log.map weight).sum + amounts'.sum =
        (pool.log.map weight).sum + amounts.sum := by
  induction schedule generalizing pool amounts with
  | nil => exact ⟨amounts, h, rfl⟩
  | cons i schedule ih =>
    obtain ⟨amounts', hall, hsum⟩ := @spends_act _ _ _ _ _ _ server _ _ _ _ h i
    obtain ⟨amounts'', hall', hsum'⟩ := ih hall
    exact ⟨amounts'', hall', hsum'.trans hsum⟩

end Amounts

section Invariant
variable {Inv : S → List N → Prop} {Q : S → C → List N → Prop} {G : C → (R → List N) → Prop}

/-- The invariant of the state and the log, and the promise of every program that still runs. -/
structure Upheld (Inv : S → List N → Prop) (G : C → (R → List N) → Prop)
    (pool : Pool S C R N O) : Prop where
  inv : Inv pool.state pool.log
  running : ∀ p ∈ pool.running, p.Commands G

variable (hcommand : ∀ {c note s log}, G c note → Inv s log → Q s c (note (server.exec s c).1) →
    Inv (server.exec s c).2 (log ++ note (server.exec s c).1))
  (hdrift : ∀ {s log} (d : D), Inv s log → Inv (server.drift s d) log)
include hcommand hdrift

theorem upheld_act {pool : Pool S C R N O} (h : Upheld Inv G pool) {m : Move C R N O D}
    (hnew : ∀ p, m = .arrive p → p.Commands G) (hq : server.Executes Q pool m) :
    Upheld Inv G (server.act pool m) := by
  cases m with
  | arrive p =>
    refine ⟨h.inv, fun p' hp' => ?_⟩
    obtain hp' | hp' := List.mem_append.mp hp'
    · exact h.running p' hp'
    · rw [List.mem_singleton.mp hp']
      exact hnew p rfl
  | drift d => exact ⟨hdrift d h.inv, h.running⟩
  | advance i =>
    simp only [act, Executes] at hq ⊢
    split
    · rename_i c note next hi
      rw [hi] at hq
      obtain ⟨hg, hnext⟩ := h.running _ (List.mem_of_getElem? hi)
      refine ⟨hcommand hg h.inv hq, fun p hp => ?_⟩
      obtain hp | rfl := List.mem_or_eq_of_mem_set hp
      · exact h.running p hp
      · exact hnext _
    · exact h

/-- The rule: what every command keeps under `Q` holds after every run whose commands meet `Q`. -/
theorem upheld_run {pool : Pool S C R N O} (h : Upheld Inv G pool) {moves : List (Move C R N O D)}
    (hmoves : server.Moves (fun pool m => (∀ p, m = .arrive p → p.Commands G) ∧
      server.Executes Q pool m) pool moves) : Upheld Inv G (server.run pool moves) := by
  induction moves generalizing pool with
  | nil => exact h
  | cons m moves ih => exact ih (upheld_act hcommand hdrift h hmoves.1.1 hmoves.1.2) hmoves.2

theorem upheld_schedule {pool : Pool S C R N O} (h : Upheld Inv G pool) {schedule : List ℕ}
    (hmoves : server.Moves (server.Executes Q) pool (schedule.map .advance)) :
    Upheld Inv G (server.run pool (schedule.map .advance)) := by
  induction schedule generalizing pool with
  | nil => exact h
  | cons i schedule ih =>
    refine ih (upheld_act hcommand hdrift h ?_ hmoves.1) hmoves.2
    intro p hp
    cases hp

end Invariant
end Server
end Cmoon.RequestPrograms
