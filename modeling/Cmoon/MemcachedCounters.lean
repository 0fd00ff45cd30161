import Cmoon.DecimalText
import Cmoon.RequestPrograms
import Mathlib.Data.Int.ConditionallyCompleteOrder

/-! # Counters in memcached

`mmc_count` increments a counter, and stores the offset when memcached has no such key. Each of the two is one command
of memcached, and other processes may send theirs in between. -/
namespace Cmoon.MemcachedCounters
open DecimalText RequestPrograms

inductive McReturn where
  | success | notFound | notSupported | clientError | failure
  deriving DecidableEq

inductive McCommand where
  | increment (key : Bytes) (offset : UInt32)
  | decrement (key : Bytes) (offset : UInt32)
  | set (key value : Bytes) (exp : ℤ)

def McCommand.key : McCommand → Bytes
  | .increment key _ | .decrement key _ | .set key _ _ => key

/-- `value` is what the client library leaves in `*value`. -/
structure McReply where
  rc : McReturn
  value : ℕ
  deriving DecidableEq

/-- A key that memcached takes: no more than 250 bytes, none of them a blank or a control character. -/
def LegalKey (key : Bytes) : Prop := key ≠ [] ∧ key.length ≤ 250 ∧ ∀ b ∈ key, 32 < b.toNat ∧ b.toNat ≠ 127

instance (key : Bytes) : Decidable (LegalKey key) := inferInstanceAs (Decidable (_ ∧ _ ∧ _))

/-- When a value that is set at `now` expires: a time of more than 30 days is a date. -/
def deadline (now exp : ℤ) : Option ℤ :=
  if exp = 0 then none else if 60 * 60 * 24 * 30 < exp then some exp else some (now + exp)

def passed (till : Option ℤ) (t : ℤ) : Bool := till.any fun till => till ≤ t

/-- What an increment answers where this is held under its key. -/
def incremented (missing : ℕ) (offset : UInt32) : Option (Option ℕ) → McReply
  | none => ⟨.notFound, missing⟩
  | some none => ⟨.clientError, missing⟩
  | some (some n) => ⟨.success, (n + offset.toNat) % 2 ^ 64⟩

/-- memcached with its client library, which nobody can look into. `held` tells what there would be under a key at a
time if nothing else came: nothing, a number to count with, or something else. What is known is what is documented, of
commands with legal keys, and of what they leave from then on. -/
structure Memcached where
  State : Type
  exec : ℤ → State → McCommand → McReply × State
  held : ℤ → State → Bytes → Option (Option ℕ)
  -- what is left in `*value` when there is no number
  missing : ℕ
  exec_increment : ∀ now s offset {key}, LegalKey key →
    (exec now s (.increment key offset)).1 = incremented missing offset (held now s key)
  held_increment : ∀ {now t} s offset {key}, LegalKey key → now ≤ t →
    held t (exec now s (.increment key offset)).2 key =
      (held t s key).map (Option.map fun n => (n + offset.toNat) % 2 ^ 64)
  exec_set : ∀ now s {n} exp {key}, LegalKey key → n < 2 ^ 64 → (exec now s (.set key (printNat n) exp)).1 = ⟨.success, 0⟩
  held_set : ∀ {now t} s {n} exp {key}, LegalKey key → n < 2 ^ 64 → now ≤ t →
    held t (exec now s (.set key (printNat n) exp)).2 key =
      if passed (deadline now exp) t then none else some (some n)
  held_of_ne : ∀ {now t} s {c key}, LegalKey c.key → LegalKey key → c.key ≠ key → now ≤ t →
    held t (exec now s c).2 key = held t s key

abbrev Memcached.Timed (mc : Memcached) : Type := mc.State × (ℕ → ℤ)

/-- It executes each command at the next of the times. -/
def Memcached.server (mc : Memcached) : Server mc.Timed McCommand McReply Empty where
  exec s c := ((mc.exec (s.2 0) s.1 c).1, (mc.exec (s.2 0) s.1 c).2, fun i => s.2 (i + 1))
  drift _ d := d.elim

inductive MmcOp where
  | inc | dec | other
  deriving DecidableEq

/-- What a call has returned, and what it has put into `value`. -/
abbrev Counted := McReturn × ℕ

/-- An offset is noted when the command that carries it succeeds. -/
def noteCounted (offset : UInt32) (r : McReply) : List ℕ := if r.rc = .success then [offset.toNat] else []

/-- `sprintf` of an `uint32_t` with `%d` -/
def offsetText (offset : UInt32) : Bytes := printInt (wrap 32 offset.toNat)

def afterCount (key : Bytes) (offset : UInt32) (exp : ℤ) (r : McReply) : Program McCommand McReply ℕ Counted :=
  if r.rc = .notFound then
    .trigger (.set key (offsetText offset) exp) (noteCounted offset) fun r' => .done (r'.rc, r.value)
  else .done (r.rc, r.value)

def mmcCount (op : MmcOp) (key : Bytes) (offset : UInt32) (exp : ℤ) : Program McCommand McReply ℕ Counted :=
  match op with
  | .inc => .trigger (.increment key offset) (noteCounted offset) (afterCount key offset exp)
  | .dec => .trigger (.decrement key offset) (noteCounted offset) (afterCount key offset exp)
  | .other => .done (.notSupported, 0)

def counting (key : Bytes) (exp : ℤ) : List UInt32 → Program McCommand McReply ℕ (List McReturn)
  | [] => .done []
  | offset :: offsets =>
    (mmcCount .inc key offset exp).bind fun counted =>
      (counting key exp offsets).bind fun rcs => .done (counted.1 :: rcs)

section Counting
variable (mc : Memcached)

/-- The processes over a memcached, before their first commands. -/
def processes (s : mc.Timed) (key : Bytes) (exp : ℤ) (calls : List (List UInt32)) :
    Pool mc.Timed McCommand McReply ℕ (List McReturn) := ⟨s, calls.map (counting key exp), []⟩

def numberOf : Option (Option ℕ) → Option ℕ
  | none => some 0
  | some n => n

def stored (s : mc.Timed) (key : Bytes) : Option ℕ := numberOf (mc.held (s.2 0) s.1 key)

def total (offsets : List UInt32) : ℕ := (offsets.map UInt32.toNat).sum

def AllSuccess (rcs : List McReturn) : Prop := ∀ rc ∈ rcs, rc = .success

variable {mc} in
/-- All calls have returned `MEMCACHED_SUCCESS`. -/
def Returned (pool : Pool mc.Timed McCommand McReply ℕ (List McReturn)) : Prop :=
  ∀ p ∈ pool.running, ∃ rcs, p = .done rcs ∧ AllSuccess rcs

/-- Whatever is set at one of the times is there at the later ones. -/
def NotExpiring (times : ℕ → ℤ) (exp : ℤ) : Prop := ∀ i j, i ≤ j → passed (deadline (times i) exp) (times j) = false

/-- A command that counts on what is stored: an increment that stays below `2 ^ 64`, and a number below `2 ^ 31` that is
stored where there is none yet, or 0. -/
def CountsOn (s : mc.Timed) : McCommand → Prop
  | .increment key offset => ∀ n, stored mc s key = some n → n + offset.toNat < 2 ^ 64
  | .decrement _ _ => True
  | .set key value _ => stored mc s key = some 0 ∧ ∃ n < 2 ^ 31, value = printNat n

/-- The commands of a process that only counts under `key`. -/
def Counts (key : Bytes) (exp : ℤ) (c : McCommand) (note : McReply → List ℕ) : Prop :=
  ∃ offset, note = noteCounted offset ∧ (c = .increment key offset ∨ c = .set key (offsetText offset) exp)

theorem commands_mmcCount (key : Bytes) (offset : UInt32) (exp : ℤ) :
    (mmcCount .inc key offset exp).Commands (Counts key exp) := by
  refine ⟨⟨offset, rfl, .inl rfl⟩, ?_⟩
  intro r
  unfold afterCount
  split
  · refine ⟨⟨offset, rfl, .inr rfl⟩, ?_⟩
    intro r'
    trivial
  · trivial

theorem commands_counting (key : Bytes) (exp : ℤ) (offsets : List UInt32) :
    (counting key exp offsets).Commands (Counts key exp) := by
  induction offsets with
  | nil => trivial
  | cons offset offsets ih =>
    apply Program.commands_bind (commands_mmcCount key offset exp)
    intro counted
    apply Program.commands_bind ih
    intro rcs
    trivial

/-- A command that succeeds takes the offset from the amount, and one that fails leaves the amount. -/
theorem noted_amount (offset : UInt32) (r : McReply) {n rest : ℕ} (hn : offset.toNat + rest ≤ n) :
    ∃ m, n = ((noteCounted offset r).map id).sum + m ∧ (r.rc = .success → m + offset.toNat = n) ∧ rest ≤ m ∧
      (r.rc ≠ .success → m = n) := by
  unfold noteCounted
  by_cases hr : r.rc = .success
  · refine ⟨n - offset.toNat, ?_, ?_, ?_, fun h => (h hr).elim⟩
    · rw [if_pos hr, List.map_singleton, id, List.sum_singleton]
      omega
    · intro _
      omega
    · omega
  · refine ⟨n, ?_, fun h => (hr h).elim, ?_, fun _ => rfl⟩
    · rw [if_neg hr, List.map_nil, List.sum_nil, Nat.zero_add]
    · omega

/-- When all its calls succeed, a process has noted all its offsets. -/
theorem spends_counting (key : Bytes) (exp : ℤ) (offsets : List UInt32) {n : ℕ} (hn : total offsets ≤ n) :
    (counting key exp offsets).Spends id (fun rcs k => AllSuccess rcs → k + total offsets = n) n := by
  induction offsets generalizing n with
  | nil => exact fun _ => rfl
  | cons offset offsets ih =>
    have htotal : total (offset :: offsets) = offset.toNat + total offsets := List.sum_cons
    rw [htotal] at hn ⊢
    -- a call that succeeds has noted its offset, and one that fails has spoilt the result
    have hafter : ∀ rc k, (rc = .success → k + offset.toNat = n) → total offsets ≤ k →
        ((counting key exp offsets).bind fun rcs => Program.done (rc :: rcs)).Spends id
          (fun rcs k => AllSuccess rcs → k + (offset.toNat + total offsets) = n) k := by
      intro rc k hrc hk
      apply Program.spends_bind
      apply (ih hk).mono
      intro rcs m hm hall
      have hsuccess := hrc (hall rc List.mem_cons_self)
      have hrest := hm fun rc' hrc' => hall rc' (List.mem_cons_of_mem _ hrc')
      omega
    apply Program.spends_bind
    intro r
    obtain ⟨m, hm, hsuccess, hrest, hfailed⟩ := noted_amount offset r hn
    refine ⟨m, hm, ?_⟩
    unfold afterCount
    split
    · rename_i hr
      have hmn : m = n := by
        apply hfailed
        rw [hr]
        exact McReturn.noConfusion
      intro r'
      rw [hmn]
      obtain ⟨m', hm', hsuccess', hrest', -⟩ := noted_amount offset r' hn
      exact ⟨m', hm', hafter r'.rc m' hsuccess' hrest'⟩
    · exact hafter r.rc m hsuccess hrest

theorem eq_of_offsetText {offset : UInt32} {n : ℕ} (hn : n < 2 ^ 31) (h : offsetText offset = printNat n) :
    offset.toNat = n := by
  have hlt : offset.toNat < 2 ^ 32 := offset.toNat_lt
  have hwrap : wrap 32 offset.toNat = n := by
    apply printInt_injective
    rw [printInt_natCast]
    exact h
  unfold wrap at hwrap
  rw [Int.bmod_def] at hwrap
  split at hwrap
  · omega
  · omega

/-- At every time to come the counter is the sum of the offsets that are noted. -/
def Summed (key : Bytes) (exp : ℤ) (s : mc.Timed) (log : List ℕ) : Prop :=
  Monotone s.2 ∧ NotExpiring s.2 exp ∧ ∃ h, numberOf h = some log.sum ∧ ∀ i, mc.held (s.2 i) s.1 key = h

variable {mc} {key : Bytes} {exp : ℤ} {offset : UInt32} {s : mc.Timed} {log : List ℕ}

theorem Summed.later (h : Summed mc key exp s log) {s' : mc.State} {log' : List ℕ} {held : Option (Option ℕ)}
    (hsum : numberOf held = some log'.sum) (hheld : ∀ i, mc.held (s.2 (i + 1)) s' key = held) :
    Summed mc key exp (s', fun i => s.2 (i + 1)) log' :=
  ⟨fun _ _ hij => h.1 (Nat.succ_le_succ hij), fun i j hij => h.2.1 (i + 1) (j + 1) (Nat.succ_le_succ hij), held, hsum, hheld⟩

/-- An increment that stays below `2 ^ 64` adds the offset that it notes. -/
theorem summed_increment (hkey : LegalKey key) (h : Summed mc key exp s log) (hlt : log.sum + offset.toNat < 2 ^ 64) :
    Summed mc key exp (mc.server.exec s (.increment key offset)).2
      (log ++ noteCounted offset (mc.server.exec s (.increment key offset)).1) := by
  obtain ⟨hmono, -, held, hsum, hheld⟩ := id h
  have hreply : (mc.server.exec s (.increment key offset)).1 = incremented mc.missing offset held := by
    rw [← hheld 0]
    exact mc.exec_increment _ _ _ hkey
  have hafter : ∀ i, mc.held (s.2 (i + 1)) (mc.exec (s.2 0) s.1 (.increment key offset)).2 key =
      held.map (Option.map fun n => (n + offset.toNat) % 2 ^ 64) := by
    intro i
    rw [mc.held_increment _ _ hkey (hmono (Nat.zero_le _)), hheld (i + 1)]
  rw [hreply]
  refine h.later ?_ hafter
  cases held with
  | none =>
    change some 0 = some (log ++ []).sum
    rw [List.append_nil]
    exact hsum
  | some held =>
    obtain rfl : held = some log.sum := hsum
    change some ((log.sum + offset.toNat) % 2 ^ 64) = some (log ++ [offset.toNat]).sum
    rw [List.sum_append, List.sum_singleton, Nat.mod_eq_of_lt hlt]

/-- A command that counts on what is stored adds the offset that it notes. -/
theorem summed_command (hkey : LegalKey key) {c : McCommand} {note : McReply → List ℕ} (hc : Counts key exp c note)
    (h : Summed mc key exp s log) (hq : CountsOn mc s c) :
    Summed mc key exp (mc.server.exec s c).2 (log ++ note (mc.server.exec s c).1) := by
  obtain ⟨hmono, hexp, held, hsum, hheld⟩ := id h
  have hstored : stored mc s key = some log.sum := by
    rw [stored, hheld 0]
    exact hsum
  obtain ⟨offset, rfl, rfl | rfl⟩ := hc
  · exact summed_increment hkey h (hq _ hstored)
  · -- nothing is stored but 0, so nothing is noted but 0
    obtain ⟨hzero, n, hn, htext⟩ := hq
    have hlog : log.sum = 0 := Option.some_inj.mp (hstored.symm.trans hzero)
    have hsmall : n < 2 ^ 64 := hn.trans (by decide)
    rw [htext]
    have hreply : (mc.server.exec s (.set key (printNat n) exp)).1 = ⟨.success, 0⟩ := mc.exec_set _ _ _ hkey hsmall
    have hafter : ∀ i, mc.held (s.2 (i + 1)) (mc.exec (s.2 0) s.1 (.set key (printNat n) exp)).2 key = some (some n) := by
      intro i
      rw [mc.held_set _ _ hkey hsmall (hmono (Nat.zero_le _)), hexp 0 (i + 1) (Nat.zero_le _)]
      rfl
    rw [hreply]
    refine h.later ?_ hafter
    change some n = some (log ++ [offset.toNat]).sum
    rw [List.sum_append, List.sum_singleton, hlog, Nat.zero_add, eq_of_offsetText hn htext]

theorem sum_returned {ps : List (Program McCommand McReply ℕ (List McReturn))} {amounts : List ℕ}
    (hspends : List.Forall₂ (Program.Spends id fun rcs k => AllSuccess rcs → k = 0) ps amounts)
    (hreturned : ∀ p ∈ ps, ∃ rcs, p = .done rcs ∧ AllSuccess rcs) : amounts.sum = 0 := by
  induction hspends with
  | nil => rfl
  | @cons p n ps amounts hp hps ih =>
    obtain ⟨rcs, rfl, hsuccess⟩ := hreturned p List.mem_cons_self
    rw [List.sum_cons, hp hsuccess, Nat.zero_add]
    apply ih
    intro p' hp'
    exact hreturned p' (List.mem_cons_of_mem _ hp')

theorem spends_processes (s : mc.Timed) (key : Bytes) (exp : ℤ) (calls : List (List UInt32)) :
    List.Forall₂ (Program.Spends id fun rcs k => AllSuccess rcs → k = 0) (processes mc s key exp calls).running
      (calls.map total) := by
  apply List.forall₂_map_left_iff.mpr
  apply List.forall₂_map_right_iff.mpr
  apply List.forall₂_same.mpr
  intro offsets _
  apply (spends_counting key exp offsets le_rfl).mono
  intro rcs k h hall
  have := h hall
  omega

/-- **No increment is lost**: however the commands of the processes follow on one another, and at whatever times, as long
as each counts on what is stored, the counter is the sum of all offsets when all calls have succeeded. -/
theorem stored_total (mc : Memcached) {s : mc.State} {key : Bytes} {times : ℕ → ℤ} {exp : ℤ} (hkey : LegalKey key)
    (hs : ∀ i, mc.held (times i) s key = none) (htimes : Monotone times) (hexp : NotExpiring times exp)
    (calls : List (List UInt32)) (schedule : List ℕ)
    (hcounts : mc.server.Moves (mc.server.Executes fun s c _ => CountsOn mc s c)
      (processes mc (s, times) key exp calls) (schedule.map .advance))
    (hreturned : Returned (mc.server.run (processes mc (s, times) key exp calls) (schedule.map .advance))) :
    stored mc (mc.server.run (processes mc (s, times) key exp calls) (schedule.map .advance)).state key =
      some (calls.map total).sum := by
  have hupheld : Server.Upheld (Summed mc key exp) (Counts key exp)
      (mc.server.run (processes mc (s, times) key exp calls) (schedule.map .advance)) := by
    apply Server.upheld_schedule (summed_command hkey) (fun d => d.elim) _ hcounts
    constructor
    · exact ⟨htimes, hexp, none, rfl, hs⟩
    · intro p hp
      obtain ⟨offsets, -, rfl⟩ := List.mem_map.mp hp
      exact commands_counting key exp offsets
  obtain ⟨amounts, hspends, hsum⟩ :=
    @Server.spends_run _ _ _ _ _ _ mc.server _ _ _ _ (spends_processes (s, times) key exp calls) schedule
  rw [sum_returned hspends hreturned, List.map_id, Nat.add_zero] at hsum
  obtain ⟨-, -, held, hheld, hall⟩ := hupheld.inv
  rw [stored, hall 0, hheld, hsum]
  exact congrArg some (Nat.zero_add _)

end Counting

/-- A value that memcached can count with: the digits of a number of 64 bits. -/
def number (value : Bytes) : Option ℕ :=
  if value ≠ [] ∧ value.all isDigit ∧ readDigits 0 value < 2 ^ 64 then some (readDigits 0 value) else none

theorem number_printNat {n : ℕ} (hn : n < 2 ^ 64) : number (printNat n) = some n := by
  unfold number
  rw [readDigits_printNat, if_pos]
  exact ⟨printNat_ne_nil n, List.all_eq_true.mpr (printNat_digits n), hn⟩

structure McItem where
  value : Bytes
  till : Option ℤ

section Plain
variable (t now : ℤ) (s : Bytes → Option McItem) (key : Bytes)

def plainHeld : Option (Option ℕ) :=
  (s key).bind fun it => if passed it.till t then none else some (number it.value)

def plainCount (missing : ℕ) (next : ℕ → ℕ) : McReply × (Bytes → Option McItem) :=
  match plainHeld now s key with
  | none => (⟨.notFound, missing⟩, s)
  | some none => (⟨.clientError, missing⟩, s)
  | some (some n) =>
    (⟨.success, next n⟩, Function.update s key ((s key).map fun it => { it with value := printNat (next n) }))

variable {t now s key}

theorem passed_mono {till : Option ℤ} (hnow : now ≤ t) (h : passed till now = true) : passed till t = true := by
  cases till with
  | none => exact h
  | some till => exact decide_eq_true ((of_decide_eq_true h).trans hnow)

theorem plainHeld_count (missing : ℕ) {next : ℕ → ℕ} (hnext : ∀ n, next n < 2 ^ 64) (hnow : now ≤ t) :
    plainHeld t (plainCount now s key missing next).2 key = (plainHeld t s key).map (Option.map next) := by
  unfold plainCount
  cases hs : s key with
  | none => simp [plainHeld, hs]
  | some it =>
    cases hgone : passed it.till now with
    | true => simp [plainHeld, hs, hgone, passed_mono hnow hgone]
    | false =>
      cases hnumber : number it.value with
      | none => cases hthen : passed it.till t <;> simp [plainHeld, hs, hgone, hnumber, hthen]
      | some n =>
        cases hthen : passed it.till t <;>
          simp [plainHeld, hs, hgone, hnumber, hthen, number_printNat (hnext n)]

theorem plainHeld_update_of_ne {k : Bytes} (hk : k ≠ key) (it : Option McItem) :
    plainHeld t (Function.update s k it) key = plainHeld t s key := by
  unfold plainHeld
  rw [Function.update_of_ne hk.symm]

theorem plainCount_of_ne {k : Bytes} (hk : k ≠ key) (missing : ℕ) (next : ℕ → ℕ) :
    plainHeld t (plainCount now s k missing next).2 key = plainHeld t s key := by
  unfold plainCount
  split
  · rfl
  · rfl
  · exact plainHeld_update_of_ne hk _

end Plain

def plain (missing : ℕ) : Memcached where
  State := Bytes → Option McItem
  exec now s
    | .increment key offset => plainCount now s key missing fun n => (n + offset.toNat) % 2 ^ 64
    | .decrement key offset => plainCount now s key missing fun n => n - offset.toNat
    | .set key value exp => (⟨.success, 0⟩, Function.update s key (some ⟨value, deadline now exp⟩))
  held := plainHeld
  missing := missing
  exec_increment now s offset key _ := by
    change (plainCount now s key missing _).1 = incremented missing offset (plainHeld now s key)
    unfold plainCount
    split
    · rename_i h
      rw [h]
      rfl
    · rename_i h
      rw [h]
      rfl
    · rename_i h
      rw [h]
      rfl
  held_increment _ _ _ _ hnow := plainHeld_count missing (fun _ => Nat.mod_lt _ (by decide)) hnow
  exec_set _ _ _ _ _ _ _ := rfl
  held_set {now t} s n exp key _ hn _ := by
    change plainHeld t (Function.update s key _) key = _
    rw [plainHeld, Function.update_self, Option.bind_some, number_printNat hn]
  held_of_ne {now t} s c key _ _ hne _ := by
    cases c with
    | increment k offset => exact plainCount_of_ne hne missing _
    | decrement k offset => exact plainCount_of_ne hne missing _
    | set k value exp => exact plainHeld_update_of_ne hne _

theorem returned_of_running {mc : Memcached} {pool : Pool mc.Timed McCommand McReply ℕ (List McReturn)} {n : ℕ}
    (h : pool.running = List.replicate n (.done [.success])) : Returned pool := by
  intro p hp
  rw [h] at hp
  refine ⟨[.success], List.eq_of_mem_replicate hp, ?_⟩
  intro rc hrc
  exact List.mem_singleton.mp hrc

def emptyAtZero : (plain 0).Timed := (fun _ => none, Int.ofNat)

/-- Two processes, of which the second finds what the first has stored. -/
theorem stored_two : stored (plain 0) ((plain 0).server.run (processes (plain 0) emptyAtZero [107] 0 [[1], [1]])
    ([0, 0, 1].map .advance)).state [107] = some 2 := by
  apply stored_total (plain 0) (by decide +kernel) (fun _ => rfl) (fun _ _ h => Int.ofNat_le.mpr h)
    (fun _ _ _ => rfl) [[1], [1]] [0, 0, 1]
  · refine ⟨?_, ?_, ?_, trivial⟩
    · intro n hn
      cases hn
      decide
    · exact ⟨rfl, 1, by decide, by decide⟩
    · intro n hn
      have hstored : stored (plain 0) ((plain 0).server.run (processes (plain 0) emptyAtZero [107] 0 [[1], [1]])
          ([0, 0].map .advance)).state [107] = some 1 := by decide
      have hone : n = 1 := Option.some_inj.mp (hn.symm.trans hstored)
      rw [hone]
      decide
  · exact returned_of_running (n := 2) rfl

/-- **But one is lost** when two processes find no counter and each stores its offset. -/
theorem not_stored_total : ¬ ∀ (s : (plain 0).State) (times : ℕ → ℤ) (key : Bytes) (exp : ℤ)
    (calls : List (List UInt32)) (schedule : List ℕ), LegalKey key → (∀ i, (plain 0).held (times i) s key = none) →
      Monotone times → NotExpiring times exp →
      Returned ((plain 0).server.run (processes (plain 0) (s, times) key exp calls) (schedule.map .advance)) →
        stored (plain 0) ((plain 0).server.run (processes (plain 0) (s, times) key exp calls)
          (schedule.map .advance)).state key = some (calls.map total).sum := by
  intro h
  have hreturned : Returned ((plain 0).server.run (processes (plain 0) emptyAtZero [107] 0 [[1], [1]])
      ([0, 1, 0, 1].map .advance)) := returned_of_running (n := 2) rfl
  have hone := h (fun _ => none) Int.ofNat [107] 0 [[1], [1]] [0, 1, 0, 1] (by decide +kernel) (fun _ => rfl)
    (fun _ _ hij => Int.ofNat_le.mpr hij) (fun _ _ _ => rfl) hreturned
  revert hone
  decide

end Cmoon.MemcachedCounters
