import Cmoon.CacheLifetimes

/-! # Expired entries

Only `cache_get` looks at the clock. An entry which expired stays in its chain until the
next get of its key, and `cache_cas` and `cache_incr` work on it until then. -/
namespace Cmoon.ExpiredEntries
open DecimalText OneAtATimeHash DoublyLinkedLists CacheOperations CacheRefinement CacheInvariant CacheLifetimes

section Calls
variable {cd : Cache} {key : Bytes}

theorem cacheCas_absent (hf : findInCache cd key = some none) (oldval newval : Bytes) (alloc : Bool) :
    cacheCas cd key oldval newval alloc = some (cd, -1) := by simp [cacheCas, hf]

theorem cacheIncr_absent (hf : findInCache cd key = some none) (increment : ℤ) (alloc : Bool) (o : Outside) :
    cacheIncr cd key increment alloc o = some (cd, -1, none) := by simp [cacheIncr, hf]

theorem cacheGet_absent (hf : findInCache cd key = some none) (now : ℤ) :
    cacheGet cd now key = some (cd, none) := by simp [cacheGet, hf]

/-- On a stored entry `cache_cas` never answers that there is none. -/
theorem casIn_stored {l : List Entry} {e : Entry} (hl : lookup key l = some e) (oldval newval : Bytes)
    (alloc : Bool) : (casIn key oldval newval alloc l).2 ≠ -1 := by
  simp only [casIn, hl]
  split
  · simp
  · split <;> simp

theorem call_no_table (hh : cd.hashlen = 0) (now : ℤ) (op : Op) : call cd now op = none := by
  have hc : ∀ key, chainFor cd key = none := fun key => if_pos hh
  cases op <;> simp [call, cacheSet, cacheGet, cacheDel, cacheCas, cacheIncr, findInCache, hc]

end Calls

/-- A cache that answers a get has a chain to look in. -/
theorem four_le_of_reachable {numobjs : ℕ} {cd : Cache} (hr : Reachable numobjs cd) {now : ℤ} {key : Bytes}
    (hg : cacheGet cd now key ≠ none) : 4 ≤ numobjs := by
  obtain ⟨cd₀, ops, hc, -, hcalls⟩ := hr
  by_contra hn
  have hh : cd₀.hashlen = 0 := by
    rw [cacheCreate_eq hc]
    exact Nat.div_eq_of_lt (by omega)
  cases ops with
  | nil =>
    obtain rfl : cd₀ = cd := Option.some.inj hcalls
    have hnone := call_no_table hh now (.get key)
    simp only [call, Option.map_eq_none_iff] at hnone
    exact hg hnone
  | cons step ops =>
    simp [calls, call_no_table hh] at hcalls

/-- A key which a get misses is absent for `cache_cas` and `cache_incr`: they return -1 and change
nothing, and would have done so after the get as well. -/
structure AbsentToAll (cd : Cache) (now : ℤ) (key oldval newval : Bytes) (alloc : Bool) (increment : ℤ)
    (alloc' : Bool) (o : Outside) : Prop where
  cas : cacheCas cd key oldval newval alloc = some (cd, -1)
  incr : cacheIncr cd key increment alloc' o = some (cd, -1, none)
  read_first : ∀ cd' v, cacheGet cd now key = some (cd', v) →
    (cacheCas cd' key oldval newval alloc).map Prod.snd = (cacheCas cd key oldval newval alloc).map Prod.snd ∧
      (cacheIncr cd' key increment alloc' o).map Prod.snd = (cacheIncr cd key increment alloc' o).map Prod.snd

/-- After a miss the key is absent to all exactly when no entry of it is stored: an entry which is
stored and expired is still there for `cache_cas`. -/
theorem absentToAll_iff {numobjs : ℕ} {cd cd' : Cache} (hr : Reachable numobjs cd) {now : ℤ} {key : Bytes}
    (hmiss : cacheGet cd now key = some (cd', none)) (oldval newval : Bytes) (alloc : Bool) (increment : ℤ)
    (alloc' : Bool) (o : Outside) :
    AbsentToAll cd now key oldval newval alloc increment alloc' o ↔ entryOf cd key = none := by
  have hget : cacheGet cd now key ≠ none := by simp [hmiss]
  obtain ⟨reps, hrep, -⟩ := hr.rep (four_le_of_reachable hr hget)
  obtain ⟨c, hat, hc⟩ := hrep.chainFor_eq key
  rw [entryOf_eq hrep, contents]
  constructor
  · intro h
    by_contra hstored
    obtain ⟨e, he⟩ := Option.ne_none_iff_exists'.mp hstored
    obtain ⟨cd₁, hcas, -⟩ := cacheCas_done hat hc (hrep.placed _ (bucket_lt hrep.pos key)).nodup oldval newval alloc
    exact casIn_stored he oldval newval alloc (Prod.mk.inj (Option.some.inj (hcas.symm.trans h.cas))).2
  · intro hnone
    have hf : findInCache cd key = some none := (findInCache_eq_none hrep key).mpr hnone
    refine ⟨cacheCas_absent hf .., cacheIncr_absent hf .., fun cd₁ v hfirst => ?_⟩
    obtain ⟨rfl, -⟩ := Prod.mk.inj (Option.some.inj ((cacheGet_absent hf now).symm.trans hfirst))
    exact ⟨rfl, rfl⟩

/-- The cache of one entry, `k` with the value `v`, which expires at 101. -/
def oneEntry : Cache :=
  ⟨4, 1, 4, [⟨1, some 0, some 0⟩], Function.update (fun _ => none) 0 (some ⟨⟨[107], [118], 101⟩, none, none⟩)⟩

private theorem oneEntry_reachable : Reachable 4 oneEntry :=
  ⟨⟨4, 1, 4, [⟨0, none, none⟩], fun _ => none⟩, [(100, .set [107] [118] 1 ⟨some 0, true, true⟩)], rfl,
    ⟨fun _ _ => rfl, fun _ _ _ => trivial⟩, rfl⟩

/-- A key that was never set. -/
theorem absentToAll_other_key :
    AbsentToAll oneEntry 102 [120] [118] [119] true 1 true ⟨0, []⟩ :=
  have hmiss : cacheGet oneEntry 102 [120] = some (oneEntry, none) := rfl
  (absentToAll_iff oneEntry_reachable hmiss [118] [119] true 1 true ⟨0, []⟩).mpr rfl

/-- A get at 102 misses, and a `cache_cas` at that time still replaces the expired value. -/
theorem cas_of_expired :
    ∃ cd cd', Reachable 4 cd ∧ cacheGet cd 102 [107] = some (cd', none) ∧
      (cacheCas cd [107] [118] [119] true).map Prod.snd = some 1 ∧
      (cacheCas cd' [107] [118] [119] true).map Prod.snd = some (-1) ∧
      ¬ AbsentToAll cd 102 [107] [118] [119] true 1 true ⟨0, []⟩ := by
  refine ⟨oneEntry, _, oneEntry_reachable, rfl, rfl, rfl, fun h => ?_⟩
  have hcas := congrArg (Option.map Prod.snd) h.cas
  revert hcas
  decide

end Cmoon.ExpiredEntries
