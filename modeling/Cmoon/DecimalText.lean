import Mathlib.Data.Nat.Digits.Lemmas
import Mathlib.Tactic.Linarith

/-! # Decimal text and machine integers

Byte strings, the decimal conversions of the C library (`strtol`, `atoi`, `%d`), and
the two's complement ranges they convert to. -/
namespace Cmoon.DecimalText

abbrev Bytes := List UInt8

/-- Reduction of an integer to a signed machine word of `w` bits. -/
def wrap (w : ℕ) (x : ℤ) : ℤ := x.bmod (2 ^ w)

/-- The nearest representable value, which `strtol` returns on overflow. -/
def clamp (w : ℕ) (x : ℤ) : ℤ := max (-2 ^ (w - 1)) (min x (2 ^ (w - 1) - 1))

def isSpace (b : UInt8) : Bool := b = 32 || (9 ≤ b && b ≤ 13)

def isDigit (b : UInt8) : Bool := 48 ≤ b && b ≤ 57

/-- The value of the leading run of digits, continued from `acc`. -/
def readDigits : ℕ → Bytes → ℕ
  | acc, [] => acc
  | acc, b :: bs => if isDigit b then readDigits (10 * acc + (b.toNat - 48)) bs else acc

def readNat (s : Bytes) : Option ℕ :=
  if (s.head?.map isDigit).getD false then some (readDigits 0 s) else none

/-- Blanks, an optional sign and at least one digit; anything may follow. -/
def readInt (s : Bytes) : Option ℤ :=
  match s.dropWhile isSpace with
  | [] => none
  | b :: r =>
    if b = 45 then (readNat r).map fun n => -(n : ℤ)
    else if b = 43 then (readNat r).map fun n => (n : ℤ)
    else (readNat (b :: r)).map fun n => (n : ℤ)

/-- `strtol` and `strtoll`: zero when there is no number, the nearest bound when it is too big. -/
def strtol (s : Bytes) : ℤ := clamp 64 ((readInt s).getD 0)

/-- `atoi`: the low word of `strtol`. -/
def atoi (s : Bytes) : ℤ := wrap 32 (strtol s)

/-- The digits of a natural number, most significant first. -/
def printNat (n : ℕ) : Bytes :=
  if n = 0 then [48] else (Nat.digits 10 n).reverse.map fun d => UInt8.ofNat (48 + d)

/-- `%d` and `%lld`. -/
def printInt (x : ℤ) : Bytes :=
  if x < 0 then 45 :: printNat x.natAbs else printNat x.natAbs

/-- A field width, filled with blanks on the left. -/
def padLeft (w : ℕ) (s : Bytes) : Bytes := List.replicate (w - s.length) 32 ++ s

private theorem toNat_digit {d : ℕ} (hd : d < 10) : (UInt8.ofNat (48 + d)).toNat = 48 + d := by
  simp only [UInt8.toNat_ofNat']
  omega

private theorem isDigit_digit {d : ℕ} (hd : d < 10) : isDigit (UInt8.ofNat (48 + d)) = true := by
  have h := toNat_digit hd
  simp only [isDigit, Bool.and_eq_true, decide_eq_true_eq, UInt8.le_iff_toNat_le, h]
  exact ⟨by simp, by simp; omega⟩

private theorem readDigits_digits (ds : List ℕ) (hd : ∀ d ∈ ds, d < 10) (acc : ℕ) :
    readDigits acc (ds.map fun d => UInt8.ofNat (48 + d)) = ds.foldl (fun a d => 10 * a + d) acc := by
  induction ds generalizing acc with
  | nil => rfl
  | cons d ds ih =>
    have hlt := hd d (by simp)
    simp only [List.map_cons, readDigits, isDigit_digit hlt, if_true, toNat_digit hlt, List.foldl_cons]
    rw [ih fun e he => hd e (List.mem_cons_of_mem d he)]
    congr 1
    omega

private theorem foldl_digits (n : ℕ) :
    (Nat.digits 10 n).reverse.foldl (fun a d => 10 * a + d) 0 = n := by
  rw [List.foldl_reverse]
  have h := Nat.ofDigits_digits 10 n
  rw [Nat.ofDigits_eq_foldr] at h
  simpa [Nat.add_comm] using h

private theorem printNat_eq_map (n : ℕ) (hn : n ≠ 0) :
    printNat n = (Nat.digits 10 n).reverse.map fun d => UInt8.ofNat (48 + d) := if_neg hn

theorem readDigits_printNat (n : ℕ) : readDigits 0 (printNat n) = n := by
  by_cases hn : n = 0
  · subst hn; rfl
  · rw [printNat_eq_map n hn, readDigits_digits _ ?_ 0, foldl_digits]
    intro d hd
    exact Nat.digits_lt_base (by omega) (List.mem_reverse.mp hd)

theorem printNat_digits (n : ℕ) : ∀ b ∈ printNat n, isDigit b = true := by
  by_cases hn : n = 0
  · subst hn; exact List.forall_mem_singleton.mpr (by decide)
  · intro b hb
    rw [printNat_eq_map n hn] at hb
    obtain ⟨d, hd, rfl⟩ := List.mem_map.mp hb
    exact isDigit_digit (Nat.digits_lt_base (by omega) (List.mem_reverse.mp hd))

theorem printNat_ne_nil (n : ℕ) : printNat n ≠ [] := by
  by_cases hn : n = 0
  · subst hn; decide
  · simp [printNat_eq_map n hn, Nat.digits_ne_nil_iff_ne_zero, hn]

theorem isDigit_ne {b c : UInt8} (hb : isDigit b = true) (hc : isDigit c = false) : b ≠ c := by
  rintro rfl
  rw [hb] at hc
  cases hc

theorem notMem_printNat {c : UInt8} (hc : isDigit c = false) (n : ℕ) : c ∉ printNat n := fun h =>
  isDigit_ne (printNat_digits n c h) hc rfl

theorem notMem_printInt {c : UInt8} (hc : isDigit c = false) (hminus : c ≠ 45) (x : ℤ) : c ∉ printInt x := by
  rw [printInt]
  split
  · exact fun h => (List.mem_cons.mp h).elim hminus (notMem_printNat hc _)
  · exact notMem_printNat hc _

private theorem readNat_digits {s : Bytes} (hne : s ≠ []) (hd : ∀ b ∈ s, isDigit b = true) :
    readNat s = some (readDigits 0 s) := by
  obtain ⟨b, r, rfl⟩ := List.exists_cons_of_ne_nil hne
  simp [readNat, hd b List.mem_cons_self]

private theorem readNat_printNat (n : ℕ) : readNat (printNat n) = some n := by
  rw [readNat_digits (printNat_ne_nil n) (printNat_digits n), readDigits_printNat]

private theorem isDigit_not_space {b : UInt8} (hb : isDigit b = true) :
    isSpace b = false ∧ b ≠ 45 ∧ b ≠ 43 := by
  simp only [isDigit, Bool.and_eq_true, decide_eq_true_eq, UInt8.le_iff_toNat_le] at hb
  simp only [isSpace, Bool.or_eq_false_iff, Bool.and_eq_false_iff, decide_eq_false_iff_not,
    UInt8.le_iff_toNat_le, ← UInt8.toNat_inj, ne_eq]
  simp at hb ⊢
  omega

theorem readInt_digits {s : Bytes} (hne : s ≠ []) (hd : ∀ b ∈ s, isDigit b = true) :
    readInt s = some (readDigits 0 s : ℤ) := by
  have hread := readNat_digits hne hd
  obtain ⟨b, r, rfl⟩ := List.exists_cons_of_ne_nil hne
  obtain ⟨hs, hm, hplus⟩ := isDigit_not_space (hd b List.mem_cons_self)
  simp [readInt, hs, hm, hplus, hread]

theorem atoi_digits {s : Bytes} (hne : s ≠ []) (hd : ∀ b ∈ s, isDigit b = true) (hlt : readDigits 0 s < 2 ^ 31) :
    atoi s = readDigits 0 s := by
  have hs : strtol s = readDigits 0 s := by
    simp only [strtol, readInt_digits hne hd, Option.getD_some, clamp]
    omega
  rw [atoi, hs, wrap, Int.bmod_eq_of_le] <;> omega

/-- Reading what `%d` prints gives the number back. -/
theorem readInt_printNat (n : ℕ) : readInt (printNat n) = some (n : ℤ) := by
  rw [readInt_digits (printNat_ne_nil n) (printNat_digits n), readDigits_printNat]

/-- A number that fits a signed word survives printing and `atoi`. -/
theorem atoi_printNat {n : ℕ} (hn : n < 2 ^ 31) : atoi (printNat n) = n := by
  have hread := readDigits_printNat n
  rw [atoi_digits (printNat_ne_nil n) (printNat_digits n) (hread.symm ▸ hn), hread]

theorem printInt_natCast (n : ℕ) : printInt (n : ℤ) = printNat n := by
  rw [printInt, if_neg (by omega), Int.natAbs_natCast]

theorem readInt_printInt (x : ℤ) : readInt (printInt x) = some x := by
  unfold printInt
  split
  · have hsign : readInt (45 :: printNat x.natAbs) = some (-(x.natAbs : ℤ)) := by
      simp [readInt, isSpace, readNat_printNat]
    rw [hsign]
    congr 1
    omega
  · rw [readInt_printNat]
    congr 1
    omega

theorem printInt_injective : Function.Injective printInt := by
  intro x y h
  have hx := readInt_printInt x
  rw [h, readInt_printInt] at hx
  exact (Option.some.inj hx).symm

theorem printInt_head (x : ℤ) : ∃ b s, printInt x = b :: s ∧ (isDigit b = true ∨ b = 45) := by
  unfold printInt
  split
  · exact ⟨45, _, rfl, .inr rfl⟩
  · cases hp : printNat x.natAbs with
    | nil => exact (printNat_ne_nil _ hp).elim
    | cons b s => exact ⟨b, s, rfl, .inl (printNat_digits x.natAbs b (by simp [hp]))⟩

theorem printInt_ne_cons {a : UInt8} (ha : isDigit a = false) (hsign : a ≠ 45) (x : ℤ) (s : Bytes) :
    printInt x ≠ a :: s := by
  intro h
  obtain ⟨b, s', hb, hdigit | hminus⟩ := printInt_head x
  · rw [(List.cons.inj (hb.symm.trans h)).1, ha] at hdigit
    cases hdigit
  · exact hsign ((List.cons.inj (hb.symm.trans h)).1.symm.trans hminus)

end Cmoon.DecimalText
