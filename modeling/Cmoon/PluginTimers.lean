import Mathlib.Data.List.Basic
import Mathlib.Algebra.Order.Group.Nat
import Mathlib.Algebra.Order.Ring.Int

/-! # Plugin timers (`clock_handler` in `daemon/common.c`, `mevent_add_timer` in `daemon/mevent.c`)

A one-shot timer that has fired stays in the list of its plugin with a timeout of 0, and
the loop over the list ends at the first timer whose timeout is not positive. -/
namespace Cmoon.PluginTimers

/-- `struct timer_entry` without its link; `timer` is the function it calls. -/
structure Timer (F : Type*) where
  timeout : ℤ
  repeats : Bool
  timer : F
  deriving DecidableEq, Repr

variable {F : Type*}

/-- `mevent_add_timer`, with a null function or none, and whether `calloc` succeeds. -/
def meventAddTimer (timers : List (Timer F)) (timeout : ℤ) (rep : Bool) (timer : Option F) (calloc : Bool) :
    List (Timer F) :=
  match timer with
  | none => timers
  | some timer => if calloc then ⟨timeout, rep, timer⟩ :: timers else timers

/-- The loop of `clock_handler` over the timers of one plugin: the timers after it, and which of
them were called. -/
def tickTimers (intime : ℕ) : List (Timer F) → List (Timer F) × List Bool
  | [] => ([], [])
  | t :: ts =>
    if 0 < t.timeout then
      let fires := intime % t.timeout.toNat = 0
      let t := if fires ∧ !t.repeats then { t with timeout := 0 } else t
      let r := tickTimers intime ts
      (t :: r.1, decide fires :: r.2)
    else (t :: ts, (t :: ts).map fun _ => false)

/-- The static `intime`, an unsigned int, and for every chain of the plugin table the timers of each
of its plugins. -/
structure Clock (F : Type*) where
  intime : ℕ
  table : List (List (List (Timer F)))

def clockHandler (s : Clock F) : Clock F × List (List (List Bool)) :=
  let intime := (s.intime + 1) % 2 ^ 32
  let r := s.table.map fun c => c.map (tickTimers intime)
  (⟨intime, r.map fun c => c.map Prod.fst⟩, r.map fun c => c.map Prod.snd)

def clockAfter (s : Clock F) : ℕ → Clock F
  | 0 => s
  | n + 1 => (clockHandler (clockAfter s n)).1

/-- The timers which tick `n + 1` calls. -/
def called (s : Clock F) (n : ℕ) : List (List (List Bool)) := (clockHandler (clockAfter s n)).2

def due (n : ℕ) (t : Timer F) : Bool :=
  if t.repeats then n % t.timeout.toNat = 0 else n = t.timeout.toNat

def Timer.Positive (t : Timer F) : Prop := 0 < t.timeout ∧ t.timeout < 2 ^ 31

def intimeAt (n : ℕ) : ℕ := n % 2 ^ 32

theorem intimeAt_of_lt {n : ℕ} (hn : n < 2 ^ 32) : intimeAt n = n := Nat.mod_eq_of_lt hn

theorem intimeAt_succ (n : ℕ) : (intimeAt n + 1) % 2 ^ 32 = intimeAt (n + 1) := Nat.mod_add_mod ..

/-- The cut behind a timer: a one-shot timer is passed for the last time when it fires. -/
def cut (c : ℕ) (t : Timer F) : ℕ := if t.repeats then c else min c t.timeout.toNat

/-- The list after `n` ticks of which those up to `c` reached it. -/
def timersAt (n : ℕ) : ℕ → List (Timer F) → List (Timer F)
  | _, [] => []
  | c, t :: ts =>
    (if !t.repeats ∧ t.timeout.toNat ≤ min n c then { t with timeout := 0 } else t) :: timersAt n (cut c t) ts

/-- The tick `n` calls the timer, when the ticks up to `c` reach it. -/
def callsAt (n c : ℕ) (t : Timer F) : Bool :=
  n ≤ c && if t.repeats then intimeAt n % t.timeout.toNat = 0 else n = t.timeout.toNat

section Repeats
variable {n c : ℕ} {t : Timer F}

theorem due_repeating (hr : t.repeats = true) : due n t = true ↔ n % t.timeout.toNat = 0 := by simp [due, hr]

theorem due_once (hr : t.repeats = false) : due n t = true ↔ n = t.timeout.toNat := by simp [due, hr]

theorem callsAt_repeating (hr : t.repeats = true) :
    callsAt n c t = true ↔ n ≤ c ∧ intimeAt n % t.timeout.toNat = 0 := by simp [callsAt, hr]

theorem callsAt_once (hr : t.repeats = false) : callsAt n c t = true ↔ n ≤ c ∧ n = t.timeout.toNat := by
  simp [callsAt, hr]

end Repeats

/-- The timers which the tick `n` calls, when the ticks up to `c` reach the list. -/
def calledAt (n : ℕ) : ℕ → List (Timer F) → List Bool
  | _, [] => []
  | c, t :: ts => callsAt n c t :: calledAt n (cut c t) ts

section Loop
variable {n c : ℕ} {t : Timer F} {l : List (Timer F)}

theorem timersAt_of_le (hc : c ≤ n) (l : List (Timer F)) : timersAt (n + 1) c l = timersAt n c l := by
  induction l generalizing c with
  | nil => rfl
  | cons t l ih =>
    have hcut : cut c t ≤ n := by
      unfold cut
      split <;> omega
    rw [timersAt, timersAt, ih hcut, min_eq_right hc, min_eq_right (by omega)]

theorem calledAt_of_lt (hc : c < n) (l : List (Timer F)) : calledAt n c l = l.map fun _ => false := by
  induction l generalizing c with
  | nil => rfl
  | cons t l ih =>
    have hcut : cut c t < n := by
      unfold cut
      split <;> omega
    have hlate : callsAt n c t = false := by simp [callsAt, hc.not_ge]
    rw [calledAt, ih hcut, hlate, List.map_cons]

theorem length_timersAt (n c : ℕ) (l : List (Timer F)) : (timersAt n c l).length = l.length := by
  induction l generalizing c with
  | nil => rfl
  | cons t l ih => rw [timersAt, List.length_cons, List.length_cons, ih]

theorem tickTimers_timersAt (hl : ∀ t ∈ l, t.Positive) (hc : n + 1 ≤ c) :
    tickTimers (intimeAt (n + 1)) (timersAt n c l) = (timersAt (n + 1) c l, calledAt (n + 1) c l) := by
  induction l generalizing c with
  | nil => rfl
  | cons t l ih =>
    obtain ⟨hpos, hlt⟩ := hl t List.mem_cons_self
    have hrest := fun t ht => hl t (List.mem_cons_of_mem _ ht)
    have hn : min n c = n := by omega
    have hn' : min (n + 1) c = n + 1 := by omega
    rw [timersAt, timersAt, calledAt, hn, hn']
    by_cases hr : t.repeats = true
    · have hcut : cut c t = c := if_pos hr
      simp [tickTimers, callsAt, hc, hr, hpos, ih hrest (c := cut c t) (by omega)]
    · have hcut : cut c t = min c t.timeout.toNat := if_neg hr
      rcases lt_trichotomy t.timeout.toNat (n + 1) with hp | hp | hp
      · -- it has fired and ends the loop
        have hle : cut c t ≤ n := by omega
        have hmask := calledAt_of_lt (Nat.lt_succ_of_le hle) l
        have hlen : (timersAt n (cut c t) l).map (fun _ => false) = l.map fun _ => false := by
          simp only [List.map_const', length_timersAt]
        simp [tickTimers, callsAt, hr, timersAt_of_le hle, hmask, Nat.le_of_lt_succ hp, hp.le, hlen, hp.ne']
      · have hmod : intimeAt (n + 1) % (n + 1) = 0 := by
          rw [intimeAt_of_lt (by omega), Nat.mod_self]
        simp [tickTimers, callsAt, hc, hr, hpos, ih hrest (c := cut c t) (by omega), hmod, hp]
      · have hmod : intimeAt (n + 1) % t.timeout.toNat ≠ 0 := by
          rw [intimeAt_of_lt (by omega), Nat.mod_eq_of_lt hp]
          exact Nat.succ_ne_zero n
        have hlate : ¬ t.timeout.toNat ≤ n + 1 := by omega
        have hlate' : ¬ t.timeout.toNat ≤ n := by omega
        simp [tickTimers, callsAt, hr, hpos, ih hrest (c := cut c t) (by omega), hmod, hlate, hlate', hp.ne]

theorem timersAt_zero (hl : ∀ t ∈ l, t.Positive) : timersAt 0 c l = l := by
  induction l generalizing c with
  | nil => rfl
  | cons t l ih =>
    obtain ⟨hpos, -⟩ := hl t List.mem_cons_self
    have hlate : ¬ t.timeout.toNat ≤ min 0 c := by omega
    rw [timersAt, ih fun t ht => hl t (List.mem_cons_of_mem _ ht), if_neg fun h => hlate h.2]

end Loop

/-- A list which is cut off before the counter wraps around misses the next multiple of `p`. -/
theorem wraps_before_cut {N c p : ℕ} (hpos : 0 < p) (hlt : p < 2 ^ 31) (hc : c = N ∨ c < 2 ^ 31) (hN : 2 ^ 32 ≤ N)
    (hreach : ∀ n ≤ N, n % p = 0 → n ≤ c) : 2 ^ 32 ≤ c := by
  rcases hc with rfl | hc
  · exact hN
  · have hle : c / p * p ≤ c := Nat.div_mul_le_self c p
    have hlt : c < (c / p + 1) * p := by
      rw [mul_comm]
      exact Nat.lt_mul_div_succ c hpos
    have hsucc : (c / p + 1) * p = c / p * p + p := Nat.succ_mul ..
    have hmul := hreach ((c / p + 1) * p) (by omega) (Nat.mul_mod_left ..)
    omega

theorem called_repeating_iff {N c : ℕ} (hc : c = N ∨ c < 2 ^ 31) {t : Timer F} (ht : t.Positive)
    (hr : t.repeats = true) :
    (∀ n < N, callsAt (n + 1) c t = due (n + 1) t) ↔
      (∀ n ≤ N, due n t = true → n ≤ c) ∧ (2 ^ 32 ≤ N → t.timeout.toNat ∣ 2 ^ 32) := by
  obtain ⟨hpos, hlt⟩ := ht
  have hiff : ∀ n, callsAt n c t = due n t ↔
      (n ≤ c ∧ intimeAt n % t.timeout.toNat = 0 ↔ n % t.timeout.toNat = 0) := by
    intro n
    rw [Bool.eq_iff_iff, callsAt_repeating hr, due_repeating hr]
  simp only [hiff, due_repeating hr]
  generalize hp : t.timeout.toNat = p
  constructor
  · intro h
    have hreach : ∀ n ≤ N, n % p = 0 → n ≤ c := by
      intro n hn hd
      rcases Nat.eq_zero_or_pos n with rfl | hn0
      · exact Nat.zero_le c
      · obtain ⟨m, rfl⟩ : ∃ m, n = m + 1 := ⟨n - 1, by omega⟩
        exact ((h m (by omega)).mpr hd).1
    refine ⟨hreach, fun hN => ?_⟩
    have hc32 := wraps_before_cut (by omega) (by omega) hc hN hreach
    have hwrap := h (2 ^ 32 - 1) (by omega)
    rw [Nat.sub_add_cancel (by decide)] at hwrap
    exact Nat.dvd_of_mod_eq_zero (hwrap.mp ⟨hc32, by rw [intimeAt, Nat.mod_self, Nat.zero_mod]⟩)
  · rintro ⟨hreach, hwrap⟩ n hn
    have hmod : intimeAt (n + 1) % p = 0 ↔ (n + 1) % p = 0 := by
      by_cases hN : 2 ^ 32 ≤ N
      · rw [intimeAt, Nat.mod_mod_of_dvd _ (hwrap hN)]
      · rw [intimeAt_of_lt (by omega)]
    rw [hmod]
    exact ⟨fun h => h.2, fun hd => ⟨hreach _ hn hd, hd⟩⟩

theorem called_once_iff {N c : ℕ} {t : Timer F} (ht : t.Positive) (hr : t.repeats = false) :
    (∀ n < N, callsAt (n + 1) c t = due (n + 1) t) ↔ ∀ n ≤ N, due n t = true → n ≤ c := by
  obtain ⟨hpos, -⟩ := ht
  have hiff : ∀ n, callsAt n c t = due n t ↔ (n ≤ c ∧ n = t.timeout.toNat ↔ n = t.timeout.toNat) := by
    intro n
    rw [Bool.eq_iff_iff, callsAt_once hr, due_once hr]
  simp only [hiff, due_once hr]
  constructor
  · rintro h n hn rfl
    obtain ⟨m, hm⟩ : ∃ m, t.timeout.toNat = m + 1 := ⟨t.timeout.toNat - 1, by omega⟩
    rw [hm] at hn ⊢
    exact ((h m (by omega)).mpr hm.symm).1
  · intro hreach n hn
    exact ⟨fun h => h.2, fun hd => ⟨hreach _ hn hd, hd⟩⟩

/-- The timer is called when it is due, as long as its list is reached, and never otherwise. -/
theorem called_eq_due_iff {N c : ℕ} (hc : c = N ∨ c < 2 ^ 31) {t : Timer F} (ht : t.Positive) :
    (∀ n < N, callsAt (n + 1) c t = due (n + 1) t) ↔
      (∀ n ≤ N, due n t = true → n ≤ c) ∧ (2 ^ 32 ≤ N → t.repeats = true → t.timeout.toNat ∣ 2 ^ 32) := by
  cases hr : t.repeats with
  | true => simpa only [true_imp_iff] using called_repeating_iff hc ht hr
  | false => simpa only [Bool.false_eq_true, false_imp_iff, implies_true, and_true] using called_once_iff ht hr

/-- No timer is due after the tick of a one-shot timer in front of it, and the counter does not wrap
around, or wraps around at a common multiple of the repeating timeouts. -/
def Undisturbed (N : ℕ) (l : List (Timer F)) : Prop :=
  l.Pairwise (fun s t => s.repeats = false → ∀ n ≤ N, due n t = true → n ≤ s.timeout.toNat) ∧
    (2 ^ 32 ≤ N → ∀ t ∈ l, t.repeats = true → t.timeout.toNat ∣ 2 ^ 32)

private theorem le_cut_iff {n c : ℕ} (t : Timer F) :
    n ≤ cut c t ↔ n ≤ c ∧ (t.repeats = false → n ≤ t.timeout.toNat) := by
  unfold cut
  cases t.repeats <;> simp

theorem calledAt_eq_due_iff {N c : ℕ} (hc : c = N ∨ c < 2 ^ 31) {l : List (Timer F)}
    (hl : ∀ t ∈ l, t.Positive) :
    (∀ n < N, calledAt (n + 1) c l = l.map (due (n + 1))) ↔
      (∀ t ∈ l, ∀ n ≤ N, due n t = true → n ≤ c) ∧ Undisturbed N l := by
  induction l generalizing c with
  | nil => simp [calledAt, Undisturbed]
  | cons t l ih =>
    have ht := hl t List.mem_cons_self
    have hcut : cut c t = N ∨ cut c t < 2 ^ 31 := by
      obtain ⟨hpos, hlt⟩ := ht
      unfold cut
      split <;> omega
    have hone := called_eq_due_iff hc ht
    have hih := ih hcut fun t ht => hl t (List.mem_cons_of_mem _ ht)
    simp only [calledAt, List.map_cons, List.cons.injEq, forall₂_and]
    rw [hone, hih]
    simp only [Undisturbed, List.pairwise_cons, List.forall_mem_cons, le_cut_iff]
    constructor
    · rintro ⟨⟨h₁, h₂⟩, h₃, h₄, h₅⟩
      exact ⟨⟨h₁, fun s hs n hn hd => (h₃ s hs n hn hd).1⟩,
        ⟨fun s hs hr n hn hd => (h₃ s hs n hn hd).2 hr, h₄⟩, fun hN => ⟨h₂ hN, h₅ hN⟩⟩
    · rintro ⟨⟨h₁, h₂⟩, ⟨h₃, h₄⟩, h₅⟩
      exact ⟨⟨h₁, fun hN => (h₅ hN).1⟩, fun s hs n hn hd => ⟨h₂ s hs n hn hd, fun hr => h₃ s hs hr n hn hd⟩,
        h₄, fun hN => (h₅ hN).2⟩

/-- The timers of the plugin at place `k` of chain `i`. -/
def Clock.timers (s : Clock F) (i k : ℕ) : Option (List (Timer F)) := s.table[i]?.bind fun chain => chain[k]?

/-- Every tick up to `N` calls exactly the timers of the plugin which are due. -/
def OnSchedule (s : Clock F) (N i k : ℕ) : Prop :=
  ∀ n < N, ((called s n)[i]?.bind fun chain => chain[k]?) = (s.timers i k).map fun l => l.map (due (n + 1))

/-- The entry at place `k` of row `i`, when all entries are changed alike. -/
theorem getElem?_map_map {α β : Type*} (f : α → β) (table : List (List α)) (i k : ℕ) :
    ((table.map (List.map f))[i]?.bind fun chain => chain[k]?) =
      (table[i]?.bind fun chain => chain[k]?).map f := by
  rw [List.getElem?_map]
  cases table[i]? with
  | none => rfl
  | some chain => exact List.getElem?_map

theorem clockHandler_timers (s : Clock F) (i k : ℕ) :
    (clockHandler s).1.timers i k = (s.timers i k).map fun l => (tickTimers ((s.intime + 1) % 2 ^ 32) l).1 := by
  have hticked := getElem?_map_map (tickTimers ((s.intime + 1) % 2 ^ 32)) s.table i k
  have hentry := getElem?_map_map Prod.fst (s.table.map (List.map (tickTimers ((s.intime + 1) % 2 ^ 32)))) i k
  rw [hticked, Option.map_map] at hentry
  exact hentry

theorem clockHandler_called (s : Clock F) (i k : ℕ) :
    ((clockHandler s).2[i]?.bind fun chain => chain[k]?) =
      (s.timers i k).map fun l => (tickTimers ((s.intime + 1) % 2 ^ 32) l).2 := by
  have hticked := getElem?_map_map (tickTimers ((s.intime + 1) % 2 ^ 32)) s.table i k
  have hentry := getElem?_map_map Prod.snd (s.table.map (List.map (tickTimers ((s.intime + 1) % 2 ^ 32)))) i k
  rw [hticked, Option.map_map] at hentry
  exact hentry

theorem intime_clockAfter (table : List (List (List (Timer F)))) (n : ℕ) :
    (clockAfter ⟨0, table⟩ n).intime = intimeAt n := by
  induction n with
  | zero => rfl
  | succ n ih =>
    change ((clockAfter ⟨0, table⟩ n).intime + 1) % 2 ^ 32 = _
    rw [ih, intimeAt_succ]

/-- The timers of a plugin in the course of the first `N` ticks. -/
theorem timers_clockAfter {table : List (List (List (Timer F)))} {i k : ℕ} {l : List (Timer F)}
    (hat : (Clock.mk 0 table).timers i k = some l) (hl : ∀ t ∈ l, t.Positive) {N n : ℕ} (hn : n ≤ N) :
    (clockAfter ⟨0, table⟩ n).timers i k = some (timersAt n N l) := by
  induction n with
  | zero => rw [timersAt_zero hl]; exact hat
  | succ n ih =>
    rw [clockAfter, clockHandler_timers, ih (by omega), intime_clockAfter, Option.map_some]
    rw [intimeAt_succ, tickTimers_timersAt hl hn]

/-- One call of `mevent_add_timer`. -/
structure AddCall (F : Type*) where
  timeout : ℤ
  repeats : Bool
  timer : Option F
  calloc : Bool

def built (adds : List (AddCall F)) : List (Timer F) :=
  adds.foldl (fun timers a => meventAddTimer timers a.timeout a.repeats a.timer a.calloc) []

theorem positive_built {adds : List (AddCall F)} (ha : ∀ a ∈ adds, 0 < a.timeout ∧ a.timeout < 2 ^ 31) :
    ∀ t ∈ built adds, t.Positive := by
  have hfold : ∀ l : List (Timer F), (∀ t ∈ l, t.Positive) → ∀ t ∈ adds.foldl
      (fun timers a => meventAddTimer timers a.timeout a.repeats a.timer a.calloc) l, t.Positive := by
    induction adds with
    | nil => exact fun l hl => hl
    | cons a adds ih =>
      refine fun l hl => ih (fun b hb => ha b (List.mem_cons_of_mem _ hb)) _ fun t ht => ?_
      simp only [meventAddTimer] at ht
      split at ht
      · exact hl t ht
      · split at ht
        · rcases List.mem_cons.mp ht with rfl | ht
          · exact ha a List.mem_cons_self
          · exact hl t ht
        · exact hl t ht
  exact hfold [] (by simp)

/-- The timers of a plugin are called on schedule exactly when they are undisturbed. -/
theorem onSchedule_iff {table : List (List (List (Timer F)))} {i k : ℕ} {adds : List (AddCall F)}
    (hat : (Clock.mk 0 table).timers i k = some (built adds))
    (ha : ∀ a ∈ adds, 0 < a.timeout ∧ a.timeout < 2 ^ 31) (N : ℕ) :
    OnSchedule ⟨0, table⟩ N i k ↔ Undisturbed N (built adds) := by
  have hl := positive_built ha
  have hcalled : ∀ n < N, ((called ⟨0, table⟩ n)[i]?.bind fun chain => chain[k]?) =
      some (calledAt (n + 1) N (built adds)) := by
    intro n hn
    rw [called, clockHandler_called, timers_clockAfter hat hl hn.le, intime_clockAfter, intimeAt_succ,
      Option.map_some, tickTimers_timersAt hl hn]
  have hreach := calledAt_eq_due_iff (.inl (Eq.refl N)) hl
  have htrivial : ∀ t ∈ built adds, ∀ n ≤ N, due n t = true → n ≤ N := fun _ _ _ hn _ => hn
  refine (forall₂_congr fun n hn => ?_).trans (hreach.trans (and_iff_right htrivial))
  rw [hcalled n hn, hat, Option.map_some, Option.some.injEq]

/-- A one-shot timer added before a repeating one disturbs nothing. -/
theorem onSchedule_once_first :
    OnSchedule ⟨0, [[built [⟨5, false, some 1, true⟩, ⟨3, true, some 2, true⟩]]]⟩ 30 0 0 := by
  have hat : (Clock.mk 0 [[built [⟨5, false, some 1, true⟩, ⟨3, true, some 2, true⟩]]]).timers 0 0 =
      some (built [⟨5, false, some 1, true⟩, ⟨3, true, some 2, true⟩]) := rfl
  refine (onSchedule_iff hat (by decide) 30).mpr ⟨?_, fun h => absurd h (by decide)⟩
  apply List.pairwise_pair.mpr
  intro hr
  cases hr

/-- A repeating timer is never called again once a one-shot timer added after it has fired. -/
theorem not_onSchedule_once_last :
    ¬ OnSchedule ⟨0, [[built [⟨10, true, some 1, true⟩, ⟨5, false, some 2, true⟩]]]⟩ 10 0 0 := by
  intro h
  have htick := h 9 (by decide)
  revert htick
  decide

end Cmoon.PluginTimers
