import Mathlib.Logic.Function.Basic

/-! # Caches whose entries may go at any time

A cache holds at most one value for a key, and any entry may lapse between two operations. A
value is read from the cache, or fetched and put into it, as far as it can be kept there. -/
namespace Cmoon.LapsingCaches

abbrev Store (K V : Type*) := K → Option V

variable {K V E : Type*}

/-- Some entries are gone, for their age or for want of room. -/
def lapse (c : Store K V) (gone : K → Bool) : Store K V := fun k => if gone k then none else c k

def Backed (P : K → V → Prop) (c : Store K V) : Prop := ∀ k v, c k = some v → P k v

variable {P Q : K → V → Prop} {c : Store K V}

theorem backed_empty : Backed P fun _ => none := by
  intro k v h
  cases h

theorem lapse_eq_some {gone : K → Bool} {k : K} {v : V} (h : lapse c gone k = some v) : c k = some v := by
  unfold lapse at h
  split at h
  · cases h
  · exact h

theorem Backed.lapse (h : Backed P c) (gone : K → Bool) : Backed P (lapse c gone) :=
  fun k v hk => h k v (lapse_eq_some hk)

variable [DecidableEq K]

def put (c : Store K V) (k : K) (v : V) : Store K V := Function.update c k (some v)

def drop (c : Store K V) (k : K) : Store K V := Function.update c k none

/-- The value cached under `k`, or else the one fetched, of which is put in under `k'` what can be kept. -/
def readThrough (kept : V → V) (c : Store K V) (k k' : K) (fetched : Except E V) : Except E V × Store K V :=
  match c k with
  | some v => (.ok v, c)
  | none =>
    match fetched with
    | .ok v => (.ok v, put c k' (kept v))
    | .error e => (.error e, c)

theorem Backed.put (h : Backed P c) {k : K} {v : V} (hv : P k v) : Backed P (put c k v) := by
  intro k' v' hk'
  unfold LapsingCaches.put at hk'
  by_cases hk : k' = k
  · subst hk
    rw [Function.update_self] at hk'
    exact Option.some.inj hk' ▸ hv
  · rw [Function.update_of_ne hk] at hk'
    exact h k' v' hk'

/-- What a key may have can change, when the entries of the other keys stay right. -/
theorem Backed.drop {k : K} (h : ∀ k' v, k' ≠ k → c k' = some v → Q k' v) : Backed Q (drop c k) := by
  intro k' v hk'
  unfold LapsingCaches.drop at hk'
  by_cases hk : k' = k
  · subst hk
    rw [Function.update_self] at hk'
    cases hk'
  · rw [Function.update_of_ne hk] at hk'
    exact h k' v hk hk'

theorem readThrough_fst (kept : V → V) (c : Store K V) (k k' : K) (fetched : Except E V) :
    (readThrough kept c k k' fetched).1 = match c k with
      | some v => .ok v
      | none => fetched := by
  unfold readThrough
  cases c k with
  | some v => rfl
  | none => cases fetched <;> rfl

theorem readThrough_eq_ok {kept : V → V} {k k' : K} {fetched : Except E V} {v : V}
    (h : (readThrough kept c k k' fetched).1 = .ok v) : c k = some v ∨ fetched = .ok v := by
  rw [readThrough_fst] at h
  cases hk : c k with
  | some w =>
    rw [hk] at h
    exact .inl (congrArg some (Except.ok.inj h))
  | none =>
    rw [hk] at h
    exact .inr h

theorem Backed.readThrough {kept : V → V} (h : Backed P c) (k : K) {k' : K} {fetched : Except E V}
    (hf : ∀ v, fetched = .ok v → P k' (kept v)) : Backed P (readThrough kept c k k' fetched).2 := by
  unfold LapsingCaches.readThrough
  split
  · exact h
  · split
    · exact h.put (hf _ rfl)
    · exact h

theorem readThrough_snd_of_ne (kept : V → V) (k : K) {k' l : K} (hl : l ≠ k') (fetched : Except E V) :
    (readThrough kept c k k' fetched).2 l = c l := by
  unfold readThrough
  split
  · rfl
  · split
    · exact Function.update_of_ne hl _ _
    · rfl

end Cmoon.LapsingCaches
