import Cmoon.FormattedKeys
import Cmoon.NumberEnds
import Mathlib.Data.List.TakeWhile

/-! # Counters in the cache

`cache_incr` reads the value of an entry as a number and prints the sum back into it, into 23 places and a zero. A
shorter value gets a new buffer first, and the call is refused when there is no memory for it. -/
namespace Cmoon.ExactCounters
open DecimalText NumberEnds DoublyLinkedLists CacheOperations FormattedKeys

theorem readInt_append_zero (s rest : Bytes) : readInt (s ++ 0 :: rest) = readInt s := by
  by_cases hs : s.dropWhile isSpace = []
  · have hdrop : (s ++ 0 :: rest).dropWhile isSpace = 0 :: rest := by
      rw [List.dropWhile_append, if_pos (List.isEmpty_iff.mpr hs)]
      rfl
    unfold readInt
    rw [hdrop, hs]
    rfl
  · exact readInt_append rfl hs rest

theorem readInt_spaces (n : ℕ) (s : Bytes) : readInt (List.replicate n 32 ++ s) = readInt s := by
  have hdrop : (List.replicate n 32 ++ s).dropWhile isSpace = s.dropWhile isSpace := by
    refine List.dropWhile_append_of_pos fun b hb => ?_
    rw [List.eq_of_mem_replicate hb]
    rfl
  unfold readInt
  rw [hdrop]

def InInt64 (x : ℤ) : Prop := -2 ^ 63 ≤ x ∧ x < 2 ^ 63

instance (x : ℤ) : Decidable (InInt64 x) := inferInstanceAs (Decidable (_ ∧ _))

theorem length_printNat_le {n k : ℕ} (hk : 0 < k) (hn : n < 10 ^ k) : (printNat n).length ≤ k := by
  unfold printNat
  split
  · exact hk
  · rw [List.length_map, List.length_reverse]
    exact (Nat.digits_length_le_iff (by omega) n).mpr hn

theorem length_printInt_le {x : ℤ} (hx : InInt64 x) : (printInt x).length ≤ 20 := by
  obtain ⟨hlow, hhigh⟩ := hx
  have hdigits : (printNat x.natAbs).length ≤ 19 := length_printNat_le (by decide) (by omega)
  unfold printInt
  split
  · rw [List.length_cons]
    omega
  · omega

theorem length_printed {x : ℤ} (hx : InInt64 x) : (padLeft 23 (printInt x)).length = 23 := by
  have hlen := length_printInt_le hx
  unfold padLeft
  rw [List.length_append, List.length_replicate]
  omega

/-- What a counter is: a number, and the size of the buffer it is in. -/
structure Counter where
  size : ℕ
  sum : ℤ
  deriving DecidableEq

/-- One call of `cache_incr`, with what `malloc` answers. -/
structure IncrCall where
  increment : ℤ
  alloc : Bool
  outside : Outside

/-- A call is refused when the buffer is short and there is no memory; otherwise it adds. -/
def Counter.incr (c : Counter) (call : IncrCall) : Counter × ℤ × Option ℤ :=
  if c.size < 24 ∧ call.alloc = false then (c, -3, none)
  else (⟨max 24 c.size, c.sum + call.increment⟩, 1, some (c.sum + call.increment))

def Counter.run : Counter → List IncrCall → Counter × List (ℤ × Option ℤ)
  | c, [] => (c, [])
  | c, call :: calls => (((c.incr call).1.run calls).1, (c.incr call).2 :: ((c.incr call).1.run calls).2)

/-- What the calls return when none is refused. -/
def sums : ℤ → List IncrCall → List (ℤ × Option ℤ)
  | _, [] => []
  | sum, call :: calls => (1, some (sum + call.increment)) :: sums (sum + call.increment) calls

theorem Counter.run_eq_sums {c : Counter} {calls : List IncrCall}
    (h : 24 ≤ c.size ∨ ∀ call ∈ calls, call.alloc = true) : (c.run calls).2 = sums c.sum calls := by
  induction calls generalizing c with
  | nil => rfl
  | cons call calls ih =>
    have hadd : c.incr call = (⟨max 24 c.size, c.sum + call.increment⟩, 1, some (c.sum + call.increment)) := by
      refine if_neg ?_
      rintro ⟨hsize, halloc⟩
      rcases h with h | h
      · omega
      · rw [h call List.mem_cons_self] at halloc
        cases halloc
    rw [Counter.run, hadd, sums]
    exact congrArg _ (ih (.inl (le_max_left 24 c.size)))

def Counter.Fits : Counter → List IncrCall → Prop
  | c, [] => InInt64 c.sum
  | c, call :: calls => InInt64 c.sum ∧ (c.incr call).1.Fits calls

def incrs : Cache → Bytes → List IncrCall → Option (Cache × List (ℤ × Option ℤ))
  | cd, _, [] => some (cd, [])
  | cd, key, call :: calls =>
    (cacheIncr cd key call.increment call.alloc call.outside).bind fun r =>
      (incrs r.1 key calls).map fun rest => (rest.1, r.2 :: rest.2)

/-- A buffer with the number as a text that ends with a zero, which also its last byte is. -/
structure Holds (val : Bytes) (c : Counter) : Prop where
  size : val.length = c.size
  last : val.getLast? = some 0
  number : readInt (val.takeWhile (· ≠ 0)) = some c.sum

def Printed (val : Bytes) (c : Counter) : Prop := ∃ rest, val = padLeft 23 (printInt c.sum) ++ 0 :: rest

/-- The entry of a key is a counter. -/
structure Stored (cd : Cache) (key : Bytes) (a : Addr) (nd : Node Addr Entry) (c : Counter) : Prop where
  found : findInCache cd key = some (some a)
  entry : cd.heap a = some nd
  holds : Holds nd.val.val c

variable {cd : Cache} {key : Bytes} {a : Addr} {nd : Node Addr Entry} {c : Counter}

/-- The cache with another value in one entry. -/
def withVal (cd : Cache) (a : Addr) (nd : Node Addr Entry) (val : Bytes) : Cache :=
  { cd with heap := Function.update cd.heap a (some { nd with val := { nd.val with val := val } }) }

theorem findFrom_update {heap : Heap Addr Entry} (h : heap a = some nd) (val key : Bytes) (fuel : ℕ) (p : Option Addr) :
    findFrom (Function.update heap a (some { nd with val := { nd.val with val := val } })) key fuel p =
      findFrom heap key fuel p := by
  induction fuel generalizing p with
  | zero => cases p <;> rfl
  | succ fuel ih =>
    cases p with
    | none => rfl
    | some q =>
      by_cases hq : q = a
      · subst hq
        simp only [findFrom, Function.update_self, h, Option.bind_eq_bind, Option.bind_some, ih]
      · simp only [findFrom, Function.update_of_ne hq, ih]

theorem findInCache_withVal (h : cd.heap a = some nd) (val key : Bytes) :
    findInCache (withVal cd a nd val) key = findInCache cd key := by
  unfold findInCache
  have hchain : chainFor (withVal cd a nd val) key = chainFor cd key := rfl
  rw [hchain]
  refine bind_congr fun at_ => ?_
  exact findFrom_update h val key _ _

theorem Holds.numberText {val : Bytes} (h : Holds val c) (o : Outside) :
    lastByte val o = 0 ∧ strtol (numberText val o) = clamp 64 c.sum := by
  have hne : val ≠ [] := by
    rintro rfl
    cases h.last
  refine ⟨by rw [lastByte, h.last]; rfl, ?_⟩
  have hzero : (0 : UInt8) ∈ val := List.mem_of_getLast? h.last
  obtain ⟨rest, hrest⟩ : ∃ rest, val.dropWhile (· ≠ 0) = 0 :: rest := by
    have hfirst := List.head?_dropWhile_not (· ≠ 0) val
    cases hdrop : val.dropWhile (· ≠ 0) with
    | nil => exact absurd (List.dropWhile_eq_nil_iff.mp hdrop 0 hzero) (by decide)
    | cons b rest =>
      rw [hdrop] at hfirst
      obtain rfl : b = 0 := by simpa using hfirst
      exact ⟨rest, rfl⟩
  have hval : val = val.takeWhile (· ≠ 0) ++ 0 :: rest := by rw [← hrest, List.takeWhile_append_dropWhile]
  have hnumber := h.number
  rw [← readInt_append_zero _ rest, ← hval] at hnumber
  rw [CacheOperations.numberText, if_neg hne, strtol, hnumber, Option.getD_some]

theorem not_zero_mem_printed (x : ℤ) : ∀ b ∈ padLeft 23 (printInt x), decide (b ≠ 0) = true := by
  intro b hb
  rw [padLeft, List.mem_append] at hb
  rcases hb with hblank | hdigit
  · rw [List.eq_of_mem_replicate hblank]
    rfl
  · apply decide_eq_true
    rintro rfl
    exact notMem_printInt rfl (by decide) x hdigit

theorem holds_printCounter {val : Bytes} (h : Holds val c) {x : ℤ} (hx : InInt64 x) :
    Holds (printCounter val x) ⟨max 24 c.size, x⟩ := by
  have hlen := length_printed hx
  have hsize := h.size
  constructor
  · rw [printCounter, List.length_append, List.length_cons, List.length_drop, hlen, hsize]
    change 23 + (c.size - 24 + 1) = max 24 c.size
    omega
  · have hrest : (0 :: val.drop 24).getLast? = some 0 := by
      rw [List.getLast?_cons, List.getLast?_drop, h.last]
      split <;> rfl
    rw [printCounter, List.getLast?_append, hrest]
    rfl
  · have htake : (printCounter val x).takeWhile (· ≠ 0) = padLeft 23 (printInt x) := by
      rw [printCounter, List.takeWhile_append_of_pos (not_zero_mem_printed x)]
      simp
    rw [htake, padLeft, readInt_spaces, readInt_printInt]

theorem wrap_of_inInt64 {x : ℤ} (hx : InInt64 x) : wrap 64 x = x := by
  obtain ⟨hlow, hhigh⟩ := hx
  rw [wrap, Int.bmod_eq_of_le] <;> omega

theorem clamp_of_inInt64 {x : ℤ} (hx : InInt64 x) : clamp 64 x = x := by
  obtain ⟨hlow, hhigh⟩ := hx
  unfold clamp
  omega

theorem cacheIncr_stored (h : Stored cd key a nd c) (call : IncrCall) (hsum : InInt64 c.sum)
    (hnext : InInt64 (c.incr call).1.sum) : ∃ cd' nd', cacheIncr cd key call.increment call.alloc call.outside =
      some (cd', (c.incr call).2) ∧ Stored cd' key a nd' (c.incr call).1 ∧
        (cd' = cd ∧ nd' = nd ∧ (c.incr call).1 = c ∨ Printed nd'.val.val (c.incr call).1) := by
  obtain ⟨hlast, hnumber⟩ := h.holds.numberText call.outside
  have hread : readVal cd.heap (some a) = some nd.val := by
    rw [readVal, Option.bind_some, h.entry, Option.map_some]
  unfold cacheIncr
  simp only [Option.bind_eq_bind, h.found, Option.bind_some, hread, hlast, ne_eq, not_true_eq_false, if_false, hnumber,
    clamp_of_inInt64 hsum, h.holds.size]
  unfold Counter.incr at hnext ⊢
  by_cases hrefused : c.size < 24 ∧ call.alloc = false
  · have hflag : (decide (c.size < 24) && !call.alloc) = true := by simp [hrefused.1, hrefused.2]
    rw [if_pos hflag, if_pos hrefused]
    exact ⟨cd, nd, rfl, h, .inl ⟨rfl, rfl, rfl⟩⟩
  · have hflag : ¬ (decide (c.size < 24) && !call.alloc) = true := by
      simpa using hrefused
    rw [if_neg hrefused] at hnext
    rw [if_neg hflag, if_neg hrefused, wrap_of_inInt64 hnext]
    have hset : setVal cd.heap (some a) { nd.val with val := printCounter nd.val.val (c.sum + call.increment) } =
        some (withVal cd a nd (printCounter nd.val.val (c.sum + call.increment))).heap := by
      rw [setVal, write, Option.bind_some, h.entry, Option.map_some]
      rfl
    rw [hset]
    refine ⟨_, _, rfl, ⟨?_, Function.update_self .., holds_printCounter h.holds hnext⟩, .inr ⟨_, rfl⟩⟩
    exact (findInCache_withVal h.entry _ key).trans h.found

theorem Counter.Fits.sum {c : Counter} {calls : List IncrCall} (h : c.Fits calls) : InInt64 c.sum := by
  cases calls with
  | nil => exact h
  | cons call calls => exact h.1

/-- **Counters accumulate exactly**: every call that is not refused for want of memory returns 1 and the sum so far,
which is then what the entry has. -/
theorem incrs_stored (h : Stored cd key a nd c) (calls : List IncrCall) (hfits : c.Fits calls) :
    ∃ cd' nd', incrs cd key calls = some (cd', (c.run calls).2) ∧ Stored cd' key a nd' (c.run calls).1 ∧
      (cd' = cd ∧ nd' = nd ∧ (c.run calls).1 = c ∨ Printed nd'.val.val (c.run calls).1) := by
  induction calls generalizing cd nd c with
  | nil => exact ⟨cd, nd, rfl, h, .inl ⟨rfl, rfl, rfl⟩⟩
  | cons call calls ih =>
    obtain ⟨cd₁, nd₁, hcall, hstored, hprinted⟩ := cacheIncr_stored h call hfits.1 hfits.2.sum
    obtain ⟨cd₂, nd₂, hcalls, hlast, hprinted'⟩ := ih hstored hfits.2
    refine ⟨cd₂, nd₂, ?_, hlast, ?_⟩
    · rw [incrs, hcall, Option.bind_some, hcalls]
      rfl
    · rcases hprinted' with ⟨rfl, rfl, hsame⟩ | hprinted'
      · have hrun : (c.run (call :: calls)).1 = (c.incr call).1 := hsame
        rwa [hrun]
      · exact .inr hprinted'

/-- The entry `k` with the text `5`. -/
def fiveNode : Node Addr Entry := ⟨⟨[107], [53, 0], 0⟩, none, none⟩

def five : Cache := withVal (oneEntry [107]) 0 ⟨⟨[107], [], 0⟩, none, none⟩ [53, 0]

theorem stored_five : Stored five [107] 0 fiveNode ⟨2, 5⟩ where
  found := by
    rw [five, findInCache_withVal rfl]
    exact findInCache_oneEntry [107]
  entry := rfl
  holds := ⟨rfl, rfl, rfl⟩

/-- Two calls, of which the first gets a new buffer. -/
theorem incrs_five : ∃ cd' nd', incrs five [107] [⟨10, true, ⟨0, []⟩⟩, ⟨-20, false, ⟨0, []⟩⟩] =
    some (cd', [(1, some 15), (1, some (-5))]) ∧ Stored cd' [107] 0 nd' ⟨24, -5⟩ := by
  obtain ⟨cd', nd', hcalls, hstored, -⟩ := incrs_stored stored_five [⟨10, true, ⟨0, []⟩⟩, ⟨-20, false, ⟨0, []⟩⟩]
    ⟨by decide, by decide, by change InInt64 _; decide⟩
  exact ⟨cd', nd', hcalls, hstored⟩

/-- There is no memory for a new buffer. -/
theorem refused_five : Stored five [107] 0 fiveNode ⟨2, 5⟩ ∧ InInt64 5 ∧ InInt64 (5 + 1) ∧
    (incrs five [107] [⟨1, false, ⟨0, []⟩⟩]).map Prod.snd = some [(-3, none)] ∧
      sums 5 [⟨1, false, ⟨0, []⟩⟩] = [(1, some 6)] := by
  refine ⟨stored_five, by decide, by decide, ?_, rfl⟩
  obtain ⟨cd', nd', hcall, -⟩ := cacheIncr_stored stored_five ⟨1, false, ⟨0, []⟩⟩ (by decide) (by decide)
  rw [incrs, hcall]
  rfl

end Cmoon.ExactCounters
