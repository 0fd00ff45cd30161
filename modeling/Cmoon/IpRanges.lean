import Cmoon.DecimalText

/-! # The search for an address

The IP file of the city plugin has an index of seven bytes a range: the address at which it starts, and where its record
is, which begins with the address at which it ends. `ip_offset` looks an address up by bisection. -/
namespace Cmoon.IpRanges
open DecimalText

/-- A byte of the file; `ne_load_file` has put a zero behind the last. -/
def byteAt (ips : Bytes) (p : ℕ) : UInt8 := ips.getD p 0

def b2int (ips : Bytes) (p count : ℕ) : ℕ :=
  if count < 1 ∨ 4 < count then 0
  else (List.range count).foldl (fun ret i => ret ||| (byteAt ips (p + i)).toNat <<< (8 * i)) (byteAt ips p).toNat

def ipbgn (ips : Bytes) : ℕ := b2int ips 0 4

def ipend (ips : Bytes) : ℕ := b2int ips 4 4

def recordCount (ips : Bytes) : ℕ := (ipend ips + 2 ^ 32 - ipbgn ips) % 2 ^ 32 / 7 + 1

def place (ips : Bytes) (i : ℕ) : ℕ := b2int ips (ipbgn ips + i * 7 + 4) 3

def first (ips : Bytes) (i : ℕ) : ℕ := b2int ips (ipbgn ips + i * 7) 4

def last (ips : Bytes) (i : ℕ) : ℕ := b2int ips (place ips i) 4

/-- The bisection, within some number of passes. `R-1` is unsigned. -/
def search (ips : Bytes) (ip : ℕ) : ℕ → ℕ → ℕ → Option (ℕ × ℕ)
  | 0, _, _ => none
  | passes + 1, L, R =>
    if L < (R + (2 ^ 32 - 1)) % 2 ^ 32 then
      let M := (L + R) / 2
      if ip = first ips M then some (M, R)
      else if first ips M < ip then search ips ip passes M R
      else search ips ip passes L M
    else some (L, R)

def versionBlock (ip : ℕ) : Prop := ip &&& 0xffffff00 = 0xffffff00

instance (ip : ℕ) : Decidable (versionBlock ip) := inferInstanceAs (Decidable (_ = _))

def compared (ip L R : ℕ) : ℕ := if versionBlock ip then R else L

def InRange (ips : Bytes) (i ip : ℕ) : Prop := first ips i ≤ ip ∧ ip ≤ last ips i

instance (ips : Bytes) (i ip : ℕ) : Decidable (InRange ips i ip) := inferInstanceAs (Decidable (_ ∧ _))

/-- What is returned for the bounds at which the search ends. -/
def answer (ips : Bytes) (ip : ℕ) (bounds : ℕ × ℕ) : ℤ :=
  if InRange ips (compared ip bounds.1 bounds.2) ip then place ips bounds.1 else -1

def ipOffset (ips : Bytes) (ip passes : ℕ) : Option ℤ :=
  (search ips ip passes 0 (recordCount ips - 1)).map (answer ips ip)

/-- `ip_offset` comes to an end and returns `r`. -/
def Returns (ips : Bytes) (ip : ℕ) (r : ℤ) : Prop := ∃ passes, ipOffset ips ip passes = some r

/-- A file whose index has its ranges in order, and no two of them meet. -/
structure IpTable where
  ips : Bytes
  ordered : ipbgn ips ≤ ipend ips
  whole : 7 ∣ ipend ips - ipbgn ips
  index_inside : ipend ips + 7 ≤ ips.length
  place_inside : ∀ i < recordCount ips, place ips i + 4 ≤ ips.length
  increasing : ∀ i j, i < j → j < recordCount ips → first ips i < first ips j
  disjoint : ∀ i j, i < j → j < recordCount ips → last ips i < first ips j

def IpTable.n (t : IpTable) : ℕ := recordCount t.ips

/-- The address is found in its range, or nowhere when it is in none. -/
def Finds (t : IpTable) (ip : ℕ) : Prop :=
  ∃ r, Returns t.ips ip r ∧
    ((∃ i < t.n, InRange t.ips i ip ∧ r = place t.ips i) ∨ ((∀ i < t.n, ¬ InRange t.ips i ip) ∧ r = -1))

variable {ips : Bytes} {t : IpTable} {ip L R : ℕ}

theorem recordCount_pos (ips : Bytes) : 0 < recordCount ips := Nat.succ_pos _

theorem recordCount_le (ips : Bytes) : recordCount ips ≤ 2 ^ 32 := by
  unfold recordCount
  omega

theorem search_add {passes : ℕ} {bounds : ℕ × ℕ} (h : search ips ip passes L R = some bounds) (more : ℕ) :
    search ips ip (passes + more) L R = some bounds := by
  induction passes generalizing L R with
  | zero => cases h
  | succ passes ih =>
    rw [Nat.succ_add]
    unfold search at h ⊢
    dsimp only at h ⊢
    split_ifs at h ⊢
    · exact h
    · exact ih h
    · exact ih h
    · exact h

theorem search_lt {passes n : ℕ} {bounds : ℕ × ℕ} (h : search ips ip passes L R = some bounds) (hL : L < n)
    (hR : R < n) : bounds.1 < n ∧ bounds.2 < n := by
  induction passes generalizing L R with
  | zero => cases h
  | succ passes ih =>
    unfold search at h
    dsimp only at h
    split_ifs at h
    · cases h
      exact ⟨by omega, hR⟩
    · exact ih h (by omega) hR
    · exact ih h hL (by omega)
    · cases h
      exact ⟨hL, hR⟩

theorem returns_unique {r r' : ℤ} (h : Returns ips ip r) (h' : Returns ips ip r') : r = r' := by
  obtain ⟨passes, hp⟩ := h
  obtain ⟨passes', hp'⟩ := h'
  obtain ⟨bounds, hs, rfl⟩ := Option.map_eq_some_iff.mp hp
  obtain ⟨bounds', hs', rfl⟩ := Option.map_eq_some_iff.mp hp'
  have hboth := search_add hs passes'
  rw [Nat.add_comm, search_add hs' passes] at hboth
  rw [Option.some.inj hboth]

/-- Between which bounds the search is, or has ended. -/
structure Between (ips : Bytes) (ip L R : ℕ) : Prop where
  lt : L < R
  le : R ≤ recordCount ips - 1
  low : L = 0 ∨ first ips L ≤ ip
  high : R = recordCount ips - 1 ∨ ip < first ips R

theorem unsigned_pred (h : L < R) (hR : R ≤ recordCount ips - 1) : (R + (2 ^ 32 - 1)) % 2 ^ 32 = R - 1 := by
  have hcount := recordCount_le ips
  omega

/-- The search ends at two neighbours, or at a range that starts with the address. -/
theorem search_ends (h : Between ips ip L R) {passes : ℕ} (hpasses : R - L ≤ passes) :
    ∃ L' R', search ips ip passes L R = some (L', R') ∧ L' < R' ∧ R' ≤ recordCount ips - 1 ∧
      (ip = first ips L' ∨ (Between ips ip L' R' ∧ R' = L' + 1)) := by
  induction passes generalizing L R with
  | zero =>
    have hlt := h.lt
    omega
  | succ passes ih =>
    have hlt := h.lt
    unfold search
    rw [unsigned_pred h.lt h.le]
    dsimp only
    split_ifs with hmore heq hgt
    · exact ⟨_, _, rfl, by omega, h.le, .inl heq⟩
    · exact ih ⟨by omega, h.le, .inr hgt.le, h.high⟩ (by omega)
    · have hless : ip < first ips ((L + R) / 2) := by omega
      have hle := h.le
      exact ih ⟨by omega, by omega, h.low, .inr hless⟩ (by omega)
    · exact ⟨L, R, rfl, h.lt, h.le, .inr ⟨h, by omega⟩⟩

theorem between_start (h : 2 ≤ recordCount ips) : Between ips ip 0 (recordCount ips - 1) where
  lt := by omega
  le := le_rfl
  low := .inl rfl
  high := .inl rfl

theorem IpTable.range_unique (t : IpTable) {i j : ℕ} (hi : i < t.n) (hj : j < t.n) (hri : InRange t.ips i ip)
    (hrj : InRange t.ips j ip) : i = j := by
  obtain hlt | heq | hgt := Nat.lt_trichotomy i j
  · have hgap := t.disjoint i j hlt hj
    have hend := hri.2
    have hstart := hrj.1
    omega
  · exact heq
  · have hgap := t.disjoint j i hgt hi
    have hend := hrj.2
    have hstart := hri.1
    omega

theorem IpTable.place_ne (t : IpTable) {i j : ℕ} (hij : i < j) (hj : j < t.n) (hrj : InRange t.ips j ip) :
    place t.ips i ≠ place t.ips j := by
  intro hsame
  have hgap := t.disjoint i j hij hj
  have hlast : last t.ips i = last t.ips j := congrArg (b2int t.ips · 4) hsame
  have hstart := hrj.1
  have hend := hrj.2
  omega

/-- Where the search has ended, the range below is the one of the address, unless that is the last. -/
theorem IpTable.low_eq (t : IpTable) {i : ℕ} (hi : i + 1 < t.n) (hri : InRange t.ips i ip)
    (hends : ip = first t.ips L ∨ (Between t.ips ip L R ∧ R = L + 1)) (hL : L < R) (hR : R ≤ t.n - 1) :
    L = i := by
  obtain hlt | heq | hgt := Nat.lt_trichotomy i L
  · have hgap := t.disjoint i L hlt (show L < t.n by omega)
    have hend := hri.2
    obtain heq | ⟨hbetween, -⟩ := hends
    · omega
    · obtain hzero | hlow := hbetween.low
      · omega
      · omega
  · exact heq.symm
  · have hstart := hri.1
    obtain heq | ⟨hbetween, hnext⟩ := hends
    · have hless := t.increasing L i hgt (show i < t.n by omega)
      omega
    · obtain hlast | hhigh := hbetween.high
      · have hn : R = t.n - 1 := hlast
        omega
      · have hle : first t.ips R ≤ first t.ips i := by
          obtain rfl | hRi := Nat.eq_or_lt_of_le (show R ≤ i by omega)
          · exact le_rfl
          · exact (t.increasing R i hRi (show i < t.n by omega)).le
        omega

theorem finds_iff_of_two (h : 2 ≤ t.n) :
    Finds t ip ↔ ∀ i < t.n, InRange t.ips i ip → i + 1 < t.n ∧ ¬ versionBlock ip := by
  have hstart : Between t.ips ip 0 (recordCount t.ips - 1) := between_start h
  obtain ⟨L, R, hsearch, hlt, hle, hends⟩ := search_ends hstart le_rfl
  have hle : R ≤ t.n - 1 := hle
  have hreturns : Returns t.ips ip (answer t.ips ip (L, R)) := ⟨_, congrArg (Option.map _) hsearch⟩
  constructor
  · rintro ⟨r, hr, hfound⟩ i hi hri
    obtain rfl := returns_unique hr hreturns
    obtain ⟨j, hj, hrj, hplace⟩ | ⟨hnone, -⟩ := hfound
    · obtain rfl := t.range_unique hj hi hrj hri
      unfold answer at hplace
      dsimp only at hplace
      split at hplace
      · rename_i hin
        unfold compared at hin
        split at hin
        · -- the range above is compared with, and the record of the one below is returned
          obtain rfl := t.range_unique (show R < t.n by omega) hj hin hrj
          exact absurd (Int.natCast_inj.mp hplace) (t.place_ne hlt hj hrj)
        · obtain rfl := t.range_unique (show L < t.n by omega) hj hin hrj
          exact ⟨by omega, ‹_›⟩
      · omega
    · exact absurd hri (hnone i hi)
  · intro hall
    refine ⟨_, hreturns, ?_⟩
    by_cases hex : ∃ i < t.n, InRange t.ips i ip
    · obtain ⟨i, hi, hri⟩ := hex
      obtain ⟨hnotLast, hversion⟩ := hall i hi hri
      obtain rfl := t.low_eq hnotLast hri hends hlt hle
      refine .inl ⟨L, hi, hri, ?_⟩
      unfold answer compared
      dsimp only
      rw [if_neg hversion, if_pos hri]
    · have hnone : ∀ i < t.n, ¬ InRange t.ips i ip := fun i hi hri => hex ⟨i, hi, hri⟩
      refine .inr ⟨hnone, if_neg (hnone _ ?_)⟩
      unfold compared
      split
      · exact show R < t.n by omega
      · exact show L < t.n by omega

/-- With one record the bounds stay where they are, and `R-1` is the greatest number. -/
theorem search_one (hip : ip ≠ first ips 0) (passes : ℕ) : search ips ip passes 0 0 = none := by
  induction passes with
  | zero => rfl
  | succ passes ih =>
    unfold search
    dsimp only
    rw [if_pos (by norm_num), if_neg hip]
    split
    · exact ih
    · exact ih

theorem finds_iff_of_one (h : t.n = 1) : Finds t ip ↔ ip = first t.ips 0 := by
  have hR : recordCount t.ips - 1 = 0 := by
    change t.n - 1 = 0
    omega
  constructor
  · rintro ⟨r, ⟨passes, hpasses⟩, -⟩
    by_contra hip
    unfold ipOffset at hpasses
    rw [hR, search_one hip] at hpasses
    cases hpasses
  · intro hip
    have hsearch : search t.ips ip 1 0 (recordCount t.ips - 1) = some (0, 0) := by
      unfold search
      dsimp only
      rw [hR, if_pos (by norm_num)]
      exact if_pos hip
    have hreturns : Returns t.ips ip (answer t.ips ip (0, 0)) := ⟨1, congrArg (Option.map _) hsearch⟩
    have hcompared : compared ip 0 0 = 0 := ite_self 0
    refine ⟨_, hreturns, ?_⟩
    unfold answer
    dsimp only
    rw [hcompared]
    split
    · exact .inl ⟨0, by omega, ‹_›, rfl⟩
    · rename_i hout
      refine .inr ⟨?_, rfl⟩
      intro i hi hri
      obtain rfl : i = 0 := by omega
      exact hout hri

/-- **An address is found** if and only if it is the start of the only range, or there are two ranges or more, and if it
is in one of them, that is not the last, nor is the address one of the last 256. -/
theorem finds_iff (t : IpTable) (ip : UInt32) : Finds t ip.toNat ↔
    (t.n = 1 ∧ ip.toNat = first t.ips 0) ∨
      (2 ≤ t.n ∧ ∀ i < t.n, InRange t.ips i ip.toNat → i + 1 < t.n ∧ ¬ versionBlock ip.toNat) := by
  obtain hone | htwo : t.n = 1 ∨ 2 ≤ t.n := by
    have hpos : 0 < t.n := recordCount_pos t.ips
    omega
  · rw [finds_iff_of_one hone]
    constructor
    · exact fun hip => .inl ⟨hone, hip⟩
    · rintro (⟨-, hip⟩ | ⟨htwo, -⟩)
      · exact hip
      · omega
  · rw [finds_iff_of_two htwo]
    constructor
    · exact fun hall => .inr ⟨htwo, hall⟩
    · rintro (⟨hone, -⟩ | ⟨-, hall⟩)
      · omega
      · exact hall

def halves : Bytes :=
  [16, 0, 0, 0, 23, 0, 0, 0] ++ [255, 255, 255, 0] ++ [255, 255, 255, 255] ++
    ([0, 0, 0, 0] ++ [8, 0, 0]) ++ ([0, 0, 0, 1] ++ [12, 0, 0])

theorem pair_of_two {P : ℕ → ℕ → Prop} (hn : recordCount ips = 2) (h : P 0 1) (i j : ℕ) (hij : i < j)
    (hj : j < recordCount ips) : P i j := by
  obtain rfl : i = 0 := by omega
  obtain rfl : j = 1 := by omega
  exact h

def twoHalves : IpTable where
  ips := halves
  ordered := by decide
  whole := by decide
  index_inside := by decide
  place_inside := by decide
  increasing := pair_of_two (by decide) (by decide)
  disjoint := pair_of_two (by decide) (by decide)

/-- **But the record of the range below** is returned for 255.255.255.1. -/
theorem not_finds : ¬ ∀ (t : IpTable) (ip : UInt32), Finds t ip.toNat := by
  intro h
  obtain ⟨r, hr, hfound⟩ := h twoHalves 0xffffff01
  have hreturns : Returns halves 0xffffff01 8 := ⟨3, by decide⟩
  obtain rfl := returns_unique hr hreturns
  obtain ⟨i, hi, hri, hplace⟩ | ⟨-, hnone⟩ := hfound
  · have hlast : InRange halves 1 0xffffff01 := by decide
    obtain rfl := twoHalves.range_unique hi (show 1 < recordCount halves by decide) hri hlast
    revert hplace
    decide
  · revert hnone
    decide

end Cmoon.IpRanges
