import Cmoon.ExpiredEntries
import Cmoon.GuardedRuns
import Mathlib.Algebra.Order.BigOperators.Group.Finset

/-! # How many entries the cache holds

A chain is taken for full when its counter exceeds `chainlen`, so one entry more than
`chainlen` gets in. -/
namespace Cmoon.CacheCapacity
open DecimalText OneAtATimeHash DoublyLinkedLists CacheOperations CacheRefinement CacheInvariant CacheLifetimes
  ExpiredEntries GuardedRuns

/-- The cache after a call; one that faults leaves it as it was. -/
def after (cd : Cache) (step : ℤ × Op) : Cache := ((call cd step.1 step.2).map Prod.fst).getD cd

/-- There is a chain for every hash, no chain holds more than `chainlen` entries, and all of them
together hold no more than `numobjs`. -/
structure WithinCapacity (cd : Cache) (reps : ℕ → Cells) : Prop where
  pos : 0 < cd.hashlen
  chain : ∀ i < cd.hashlen, (reps i).length ≤ cd.chainlen
  whole : ∑ i ∈ Finset.range cd.hashlen, (reps i).length ≤ cd.numobjs

/-- The cells the links of the cache run through are within the capacity. -/
def Bounded (cd : Cache) : Prop := ∃ reps, WellFormed cd reps ∧ WithinCapacity cd reps

/-- The call puts a new entry in: its key is not in the cache and its allocations succeed. -/
def Inserts (cd : Cache) : Op → Prop
  | .set key _ _ m => m.entry.isSome ∧ m.key ∧ m.val ∧ findInCache cd key = some none
  | _ => False

/-- A new entry finds fewer than `chainlen` entries in its chain. -/
def RoomFor (cd : Cache) (step : ℤ × Op) : Prop :=
  Inserts cd step.2 → ∀ i c, chainFor cd step.2.key = some (i, c) → c.len < cd.chainlen

section Buckets
variable {chainlen : ℕ} {now : ℤ} {op : Op} {l : List Entry}

/-- The call puts a new entry in the bucket. -/
def InsertsIn (l : List Entry) : Op → Prop
  | .set key _ _ m => m.entry.isSome ∧ m.key ∧ m.val ∧ lookup key l = none
  | _ => False

theorem callIn_insert (hi : InsertsIn l op) :
    ∃ e, e.key = op.key ∧ (callIn chainlen now op l).1 = e :: kept chainlen l := by
  cases op with
  | set key val timeout m =>
    obtain ⟨hm, hk, hv, hl⟩ := hi
    refine ⟨⟨key, val, expiry now timeout⟩, rfl, ?_⟩
    change (setIn chainlen now key val timeout m l).1 = _
    simp [setIn, hl, hm, hk, hv]
  | get key => exact hi.elim
  | del key => exact hi.elim
  | cas key oldval newval alloc => exact hi.elim
  | incr key increment alloc o => exact hi.elim

theorem length_remove {key : Bytes} {e : Entry} (hl : lookup key l = some e) : (remove key l).length + 1 = l.length :=
  List.length_eraseP_add_one (List.mem_of_find?_eq_some hl) (List.find?_some hl)

theorem callIn_length_le (hi : ¬ InsertsIn l op) : (callIn chainlen now op l).1.length ≤ l.length := by
  have h := callIn_reworked chainlen now op l
  generalize (callIn chainlen now op l).1 = l' at h ⊢
  generalize (callIn chainlen now op l).2 = ans at h
  cases h with
  | inserted hl hm => exact absurd ⟨hm.1, hm.2.1, hm.2.2, hl⟩ hi
  | renewed hl => exact (length_remove hl).le
  | same => exact le_refl _
  | removed => exact (remove_sublist op.key l).length_le
  | revalued hop val => exact (List.length_map ..).le

/-- A call keeps a bucket within `chainlen` unless it inserts into a full one. -/
theorem callIn_length_le_iff (hl : l.length ≤ chainlen) :
    (callIn chainlen now op l).1.length ≤ chainlen ↔ (InsertsIn l op → l.length < chainlen) := by
  by_cases hi : InsertsIn l op
  · obtain ⟨e, -, he⟩ := @callIn_insert chainlen now op l hi
    simp only [he, kept, if_pos hl, List.length_cons, hi, true_imp_iff]
    omega
  · simp only [hi, false_imp_iff, iff_true]
    exact (callIn_length_le hi).trans hl

end Buckets

theorem inserts_iff {cd : Cache} {reps : ℕ → Cells} (hr : Rep cd reps) (op : Op) :
    Inserts cd op ↔ InsertsIn (contents reps (bucket cd.hashlen op.key)) op := by
  cases op with
  | set key val timeout m => simp only [Inserts, InsertsIn, Op.key, findInCache_eq_none hr]
  | get key => exact Iff.rfl
  | del key => exact Iff.rfl
  | cas key oldval newval alloc => exact Iff.rfl
  | incr key increment alloc o => exact Iff.rfl

theorem roomFor_iff {cd : Cache} {reps : ℕ → Cells} (hr : Rep cd reps) (now : ℤ) (op : Op) :
    RoomFor cd (now, op) ↔ (InsertsIn (contents reps (bucket cd.hashlen op.key)) op →
      (contents reps (bucket cd.hashlen op.key)).length < cd.chainlen) := by
  obtain ⟨c, hat, hc⟩ := hr.chainFor_eq op.key
  simp only [RoomFor, inserts_iff hr, hat, Option.some.injEq, Prod.mk.injEq, and_imp,
    forall_apply_eq_imp_iff, forall_eq', contents, length_entries, hc.len_eq]

/-- What the counters say about the cells of a well formed cache. -/
theorem Bounded.len_le {cd : Cache} (hb : Bounded cd) {i : ℕ} {c : CacheChain} (hc : cd.table[i]? = some c) :
    c.len ≤ cd.chainlen := by
  obtain ⟨reps, hwf, hcap⟩ := hb
  rw [(hwf.chains hc).len_eq]
  exact hcap.chain i (hwf.width ▸ (List.getElem?_eq_some_iff.mp hc).1)

/-- The sum over the chains stays within `numobjs` as long as each one stays within `chainlen`. -/
theorem withinCapacity_of_chain {cd : Cache} {reps : ℕ → Cells} (hpos : 0 < cd.hashlen)
    (hnum : cd.hashlen * cd.chainlen ≤ cd.numobjs) (hc : ∀ i < cd.hashlen, (reps i).length ≤ cd.chainlen) :
    WithinCapacity cd reps := by
  refine ⟨hpos, hc, ?_⟩
  calc ∑ i ∈ Finset.range cd.hashlen, (reps i).length
      ≤ ∑ _i ∈ Finset.range cd.hashlen, cd.chainlen :=
        Finset.sum_le_sum fun i hi => hc i (Finset.mem_range.mp hi)
    _ = cd.hashlen * cd.chainlen := by simp
    _ ≤ cd.numobjs := hnum

theorem bounded_after_iff {cd cd' : Cache} {reps reps' : ℕ → Cells} (hr : Rep cd reps) (hr' : Rep cd' reps')
    {now : ℤ} {op : Op} (hcap : WithinCapacity cd reps) (hnum : cd.hashlen * cd.chainlen ≤ cd.numobjs)
    (hcont : contents reps' = (callOn cd.hashlen cd.chainlen now op (contents reps)).1)
    (hhash : cd'.hashlen = cd.hashlen) (hchain : cd'.chainlen = cd.chainlen) (hobjs : cd'.numobjs = cd.numobjs) :
    (WithinCapacity cd' reps' ↔ RoomFor cd (now, op)) ∧ (Bounded cd' → RoomFor cd (now, op)) := by
  have hlt := bucket_lt hr.pos op.key
  have hold : (contents reps (bucket cd.hashlen op.key)).length ≤ cd.chainlen := by
    simpa [contents] using hcap.chain _ hlt
  have hnew : (reps' (bucket cd.hashlen op.key)).length ≤ cd.chainlen ↔ RoomFor cd (now, op) := by
    have hcall : (callIn cd.chainlen now op (contents reps (bucket cd.hashlen op.key))).1.length ≤ cd.chainlen ↔ _ :=
      callIn_length_le_iff hold
    rw [roomFor_iff hr, ← hcall, ← length_entries]
    change (contents reps' _).length ≤ _ ↔ _
    rw [hcont, callOn_self]
  have hother : ∀ i < cd.hashlen, i ≠ bucket cd.hashlen op.key → (reps' i).length ≤ cd.chainlen := by
    intro i hi hne
    have hsame : contents reps' i = contents reps i := by
      rw [hcont]
      exact callOn_of_ne _ _ _ _ _ hne
    rw [← length_entries]
    change (contents reps' i).length ≤ _
    rw [hsame, contents, length_entries]
    exact hcap.chain i hi
  have hlt' : bucket cd.hashlen op.key < cd'.hashlen := by rwa [hhash]
  refine ⟨⟨fun h => ?_, fun h => ?_⟩, fun h => ?_⟩
  · have hle := h.chain _ hlt'
    rw [hchain] at hle
    exact hnew.mp hle
  · apply withinCapacity_of_chain hr'.pos (by rw [hhash, hchain, hobjs]; exact hnum)
    intro i hi
    rw [hhash] at hi
    rw [hchain]
    by_cases hne : i = bucket cd.hashlen op.key
    · rw [hne]
      exact hnew.mpr h
    · exact hother i hi hne
  · rw [← hr'.width] at hlt'
    have hget := List.getElem?_eq_getElem hlt'
    have hle := h.len_le hget
    rw [(hr'.chain hget).len_eq, hchain] at hle
    exact hnew.mp hle

/-- A run of a cache stays within the capacity exactly when every insertion finds room. -/
private theorem bounded_run {cd : Cache} {reps : ℕ → Cells} (hr : Rep cd reps) (hlen : 0 < cd.chainlen)
    (hcap : WithinCapacity cd reps) (hnum : cd.hashlen * cd.chainlen ≤ cd.numobjs) {ops : List (ℤ × Op)}
    (hf : FreshCalls cd ops) : Throughout after Bounded cd ops ↔ Guarded after RoomFor cd ops := by
  induction ops generalizing cd reps with
  | nil => exact iff_of_true ⟨reps, hr.wellFormed, hcap⟩ trivial
  | cons step ops ih =>
    obtain ⟨now, op⟩ := step
    obtain ⟨cd', reps', hcall, hr', hcont, hhash, hchain, hobjs⟩ := call_refines hr hlen now hf.1
    have hafter : after cd (now, op) = cd' := by simp [after, hcall]
    obtain ⟨hiff, himp⟩ := bounded_after_iff hr hr' hcap hnum hcont hhash hchain hobjs
    have hih := fun hroom => ih hr' (hchain ▸ hlen) (hiff.mpr hroom) (by rw [hhash, hchain, hobjs]; exact hnum)
      (hf.2 _ _ hcall)
    simp only [Throughout, Guarded, hafter]
    constructor
    · rintro ⟨-, ht⟩
      have hroom := himp ht.first
      exact ⟨hroom, (hih hroom).mp ht⟩
    · rintro ⟨hroom, hg⟩
      exact ⟨⟨reps, hr.wellFormed, hcap⟩, (hih hroom).mpr hg⟩

/-- A new cache stays within its capacity in every state of a run exactly when it has a chain at all
and every insertion of the run finds fewer than `chainlen` entries in its chain. -/
theorem bounded_throughout_iff {numobjs : ℕ} {cdOk tableOk : Bool} {cd : Cache}
    (hc : cacheCreate numobjs cdOk tableOk = some (some cd)) {ops : List (ℤ × Op)} (hf : FreshCalls cd ops) :
    Throughout after Bounded cd ops ↔ 4 ≤ numobjs ∧ Guarded after RoomFor cd ops := by
  by_cases hn : 4 ≤ numobjs
  · obtain ⟨hr, hhash, hchain⟩ := rep_initial hn hc
    have hnum : cd.numobjs = numobjs := by rw [cacheCreate_eq hc]
    have hle : cd.hashlen * cd.chainlen ≤ cd.numobjs := by
      rw [hhash, hchain, hnum]
      exact Nat.div_mul_le_self numobjs 4
    have hcap : WithinCapacity cd fun _ => [] := withinCapacity_of_chain hr.pos hle fun i _ => Nat.zero_le _
    simp only [hn, true_and]
    exact bounded_run hr (by omega) hcap hle hf
  · refine iff_of_false (fun ht => ?_) fun h => hn h.1
    obtain ⟨reps, -, hcap⟩ := ht.first
    have hzero : cd.hashlen = 0 := by
      rw [cacheCreate_eq hc]
      exact Nat.div_eq_of_lt (by omega)
    exact absurd hcap.pos (by omega)

/-- Four keys fill the only chain of a cache for four objects; one of them leaves before the next comes. -/
def fullChain : List (ℤ × Op) :=
  [(1, .set [97] [1] 0 ⟨some 0, true, true⟩), (1, .set [98] [1] 0 ⟨some 1, true, true⟩),
    (1, .set [99] [1] 0 ⟨some 2, true, true⟩), (1, .set [100] [1] 0 ⟨some 3, true, true⟩), (1, .del [98]),
    (1, .set [101] [1] 0 ⟨some 1, true, true⟩)]

theorem bounded_fullChain :
    ∃ cd, cacheCreate 4 true true = some (some cd) ∧ Throughout after Bounded cd fullChain := by
  have hcreate : cacheCreate 4 true true = some (some ⟨4, 1, 4, [⟨0, none, none⟩], fun _ => none⟩) := rfl
  have hfresh : FreshCalls ⟨4, 1, 4, [⟨0, none, none⟩], fun _ => none⟩ fullChain := by
    unfold fullChain
    iterate 4
      refine ⟨fun a ha => by cases ha; rfl, fun cd ans hcall => ?_⟩
      cases hcall
    refine ⟨trivial, fun cd ans hcall => ?_⟩
    cases hcall
    exact ⟨fun a ha => by cases ha; rfl, fun _ _ _ => trivial⟩
  refine ⟨_, hcreate, (bounded_throughout_iff hcreate hfresh).mpr ⟨le_refl 4, ?_⟩⟩
  unfold fullChain
  iterate 4
    refine ⟨fun _ i c hat => by cases hat; decide, ?_⟩
  refine ⟨False.elim, fun _ i c hat => ?_, trivial⟩
  cases hat
  decide

/-- Five keys set in the only chain of a cache for four objects. -/
def fiveSets : List (ℤ × Op) :=
  [(1, .set [97] [1] 0 ⟨some 0, true, true⟩), (1, .set [98] [1] 0 ⟨some 1, true, true⟩),
    (1, .set [99] [1] 0 ⟨some 2, true, true⟩), (1, .set [100] [1] 0 ⟨some 3, true, true⟩),
    (1, .set [101] [1] 0 ⟨some 4, true, true⟩)]

/-- A cache for four objects comes to hold five, and one for a single object has no chain. -/
theorem not_bounded_small_caches :
    (∃ cd, cacheCreate 4 true true = some (some cd) ∧ FreshCalls cd fiveSets ∧
      ¬ Throughout after Bounded cd fiveSets) ∧
    ∃ cd, cacheCreate 1 true true = some (some cd) ∧ ¬ Throughout after Bounded cd [] := by
  refine ⟨⟨_, rfl, ?_, fun ht => ?_⟩, ⟨_, rfl, fun ht => ?_⟩⟩
  · unfold fiveSets
    iterate 5
      refine ⟨fun a ha => by cases ha; rfl, fun cd ans hcall => ?_⟩
      cases hcall
    trivial
  · have hlen := ht.last.len_le (i := 0) (c := ⟨5, some 4, some 0⟩) rfl
    exact absurd hlen (by decide)
  · obtain ⟨reps, -, hcap⟩ := ht
    exact absurd hcap.pos (by decide)

end Cmoon.CacheCapacity
