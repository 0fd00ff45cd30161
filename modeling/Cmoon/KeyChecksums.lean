import Cmoon.OnesComplementSums
import Cmoon.ServerChoice

/-! # The checksum of a key (`checksum` and `select_srv` of `libmevent.c`)

The checksum of RFC 1071 takes a text two bytes at a time. The loop of `checksum` takes two bytes off the length but
moves on by one: it adds the first half of the text twice, and never comes to the rest. -/
namespace Cmoon.KeyChecksums
open DecimalText OnesComplementSums ServerChoice

/-- The words of a key as a little-endian machine reads them, the last one of a single byte when the length is odd. -/
def keyWords : Bytes → List ℕ
  | x :: y :: rest => (x.toNat + 256 * y.toNat) :: keyWords rest
  | [x] => [x.toNat]
  | [] => []

def internetChecksum (key : Bytes) : ℕ := 2 ^ 32 - 1 - endAroundSum (2 ^ 16) (keyWords key)

/-- What the loop of `checksum` adds, with `bsize` bytes left from the offset on: the byte at an offset, and how much
it counts. -/
def summands : ℕ → ℕ → List (ℕ × ℕ)
  | off, bsize + 2 => (off, 1) :: (off + 1, 256) :: summands (off + 1) bsize
  | off, 1 => [(off, 1)]
  | _, 0 => []

def weighted (key : Bytes) (l : List (ℕ × ℕ)) : ℕ := (l.map fun p => p.2 * (key.getD p.1 0).toNat).sum

/-- How often `checksum` adds the byte at an offset. -/
def timesAdded (key : Bytes) (i : ℕ) : ℕ := ((summands 0 key.length).map Prod.fst).count i

variable {key key' : Bytes} {off n i : ℕ}

theorem keyWords_lt : ∀ w ∈ keyWords key, w < 2 ^ 16 := by
  fun_induction keyWords key with
  | case1 x y rest ih =>
    rw [List.forall_mem_cons]
    have hx := x.toNat_lt
    have hy := y.toNat_lt
    exact ⟨by omega, ih⟩
  | case2 x =>
    rw [List.forall_mem_singleton]
    exact x.toNat_lt.trans (by norm_num)
  | case3 => exact fun _ h => absurd h List.not_mem_nil

theorem internetChecksum_eq (key : Bytes) :
    internetChecksum key = 2 ^ 32 - 1 - residue (2 ^ 16) (keyWords key).sum := by
  rw [internetChecksum, endAroundSum_eq (by norm_num) keyWords_lt]

theorem sumWords_eq (key : Bytes) (off n : ℕ) (sum : UInt32) :
    sumWords (key.drop off) n sum = sum + UInt32.ofNat (weighted key (summands off n)) := by
  have hhead : ∀ off, (key.drop off).headD 0 = key.getD off 0 := by
    intro off
    rw [List.headD_eq_head?_getD, List.head?_drop, List.getD_eq_getElem?_getD]
  have hbyte : ∀ x : UInt8, UInt32.ofNat x.toNat = x.toUInt32 := fun x => UInt32.ofNat_uInt8ToNat x
  induction n using Nat.twoStepInduction generalizing off sum with
  | zero => simp [sumWords, summands, weighted]
  | one => simp [sumWords, summands, weighted, hbyte]
  | more n ih _ =>
    rw [sumWords, List.tail_drop, ih, hhead, hhead]
    simp only [summands, weighted, List.map_cons, List.sum_cons, Nat.one_mul, UInt32.ofNat_add, UInt32.ofNat_mul, hbyte,
      UInt32.add_assoc]
    rfl

theorem foldSum_eq (n : ℕ) : foldSum n = residue (2 ^ 16) n := by
  fun_induction foldSum n with
  | case1 n hn => exact (residue_of_lt ((Nat.div_eq_zero_iff_lt (by norm_num)).mp hn)).symm
  | case2 n hn ih =>
    rw [ih]
    exact residue_carryAround (by norm_num) n

theorem checksum_eq (key : Bytes) :
    checksum key = 2 ^ 32 - 1 - residue (2 ^ 16) (weighted key (summands 0 key.length) % 2 ^ 32) := by
  have h := sumWords_eq key 0 key.length 0
  rw [List.drop_zero, UInt32.zero_add] at h
  rw [checksum, foldSum_eq, h, UInt32.toNat_ofNat']

/-- The two checksums agree exactly when the sums do, modulo `2 ^ 16 - 1` and in being zero. -/
theorem checksum_eq_internetChecksum_iff (key : Bytes) : checksum key = internetChecksum key ↔
    (weighted key (summands 0 key.length) % 2 ^ 32 = 0 ↔ (keyWords key).sum = 0) ∧
      weighted key (summands 0 key.length) % 2 ^ 32 ≡ (keyWords key).sum [MOD 2 ^ 16 - 1] := by
  have hlt := residue_lt (b := 2 ^ 16) (by norm_num)
  have hadded := hlt (weighted key (summands 0 key.length) % 2 ^ 32)
  have hwords := hlt (keyWords key).sum
  rw [checksum_eq, internetChecksum_eq, ← residue_eq_iff]
  omega

theorem offset_of_mem_summands {p : ℕ × ℕ} (hp : p ∈ summands off n) : p.1 ≤ off + n / 2 := by
  induction n using Nat.twoStepInduction generalizing off with
  | zero => exact absurd hp List.not_mem_nil
  | one => exact (congrArg Prod.fst (List.mem_singleton.mp hp)).le
  | more n ih _ =>
    rcases List.mem_cons.mp hp with rfl | hp
    · exact Nat.le_add_right _ _
    · rcases List.mem_cons.mp hp with rfl | hp
      · change off + 1 ≤ off + (n + 2) / 2
        omega
      · have h := ih hp
        omega

theorem timesAdded_eq_zero (hi : key.length / 2 < i) : timesAdded key i = 0 := by
  rw [timesAdded, List.count_eq_zero]
  intro hmem
  obtain ⟨p, hp, rfl⟩ := List.mem_map.mp hmem
  have h := offset_of_mem_summands hp
  omega

/-- Keys of one length that agree up to the middle have one server, whatever comes behind. -/
theorem selectSrv_congr (servers : List Server) (hlength : key.length = key'.length)
    (hagree : ∀ i ≤ key.length / 2, key.getD i 0 = key'.getD i 0) :
    selectSrv servers key = selectSrv servers key' := by
  have hsum : weighted key (summands 0 key.length) = weighted key' (summands 0 key'.length) := by
    rw [weighted, weighted, ← hlength]
    congr 1
    refine List.map_congr_left fun p hp => ?_
    have h := offset_of_mem_summands hp
    rw [hagree p.1 (by omega)]
  have hchecksum : checksum key = checksum key' := by rw [checksum_eq, checksum_eq, hsum]
  rw [selectSrv, selectSrv, hchecksum]

theorem weighted_of_short (hshort : key.length ≤ 2) :
    weighted key (summands 0 key.length) % 2 ^ 32 = (keyWords key).sum := by
  obtain _ | ⟨x, _ | ⟨y, _ | ⟨z, rest⟩⟩⟩ := key
  · rfl
  · have hx := x.toNat_lt
    simp only [List.length_singleton, weighted, summands, keyWords, List.map_cons, List.map_nil, List.sum_cons,
      List.sum_nil, List.getD_cons_zero]
    omega
  · have hx := x.toNat_lt
    have hy := y.toNat_lt
    simp only [List.length_cons, List.length_nil, weighted, summands, keyWords, List.map_cons, List.map_nil,
      List.sum_cons, List.sum_nil, List.getD_cons_zero, List.getD_cons_succ]
    omega
  · simp at hshort

theorem timesAdded_of_short (hshort : key.length ≤ 2) (hi : i < key.length) : timesAdded key i = 1 := by
  have htable : ∀ n ≤ 2, ∀ i < n, ((summands 0 n).map Prod.fst).count i = 1 := by decide
  exact htable key.length hshort i hi

/-- The checksum is the Internet checksum, made of each byte once, for keys of at most two bytes only. -/
theorem checksum_internet_iff (key : Bytes) :
    checksum key = internetChecksum key ∧ (∀ i < key.length, timesAdded key i = 1) ↔ key.length ≤ 2 := by
  constructor
  · rintro ⟨-, honce⟩
    by_contra! hlong
    have hlast := honce (key.length - 1) (by omega)
    rw [timesAdded_eq_zero (by omega)] at hlast
    exact absurd hlast (by norm_num)
  · intro hshort
    have hsum := weighted_of_short hshort
    refine ⟨(checksum_eq_internetChecksum_iff key).mpr ?_, fun i hi => timesAdded_of_short hshort hi⟩
    rw [hsum]
    exact ⟨Iff.rfl, Nat.ModEq.rfl⟩

/-- Of the key "abc" the b is added twice and the c never, and the checksum is another one. -/
theorem not_internetChecksum_three : checksum [97, 98, 99] ≠ internetChecksum [97, 98, 99] ∧
    timesAdded [97, 98, 99] 1 = 2 ∧ timesAdded [97, 98, 99] 2 = 0 := by
  refine ⟨?_, by decide, by decide⟩
  rw [Ne, checksum_eq_internetChecksum_iff]
  decide

end Cmoon.KeyChecksums
