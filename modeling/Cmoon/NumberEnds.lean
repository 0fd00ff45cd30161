import Cmoon.DecimalText

/-! # Where a number ends

`atoi` and `strtol` read up to the first byte that is no digit, whatever comes behind it. -/
namespace Cmoon.NumberEnds
open DecimalText

variable {b : UInt8}

theorem readDigits_append (hb : isDigit b = false) (acc : ℕ) (s rest : Bytes) :
    readDigits acc (s ++ b :: rest) = readDigits acc s := by
  induction s generalizing acc with
  | nil => simp [readDigits, hb]
  | cons c s ih => rw [List.cons_append, readDigits, readDigits, ih]

theorem readNat_append (hb : isDigit b = false) (s rest : Bytes) : readNat (s ++ b :: rest) = readNat s := by
  unfold readNat
  rw [readDigits_append hb]
  cases s with
  | nil => simp [hb]
  | cons c s => rfl

theorem readInt_append (hb : isDigit b = false) {s : Bytes} (hs : s.dropWhile isSpace ≠ []) (rest : Bytes) :
    readInt (s ++ b :: rest) = readInt s := by
  have hdrop : (s ++ b :: rest).dropWhile isSpace = s.dropWhile isSpace ++ b :: rest := by
    rw [List.dropWhile_append, if_neg (mt List.isEmpty_iff.mp hs)]
  unfold readInt
  rw [hdrop]
  cases hcons : s.dropWhile isSpace with
  | nil => exact absurd hcons hs
  | cons c r =>
    have hdigits := readNat_append hb r rest
    have hfirst := readNat_append hb (c :: r) rest
    rw [List.cons_append] at hfirst ⊢
    dsimp only
    rw [hdigits, hfirst]

theorem dropWhile_printNat (n : ℕ) : (printNat n).dropWhile isSpace ≠ [] := by
  intro h
  have hread := readInt_printNat n
  unfold readInt at hread
  rw [h] at hread
  cases hread

theorem atoi_printNat_append (hb : isDigit b = false) {n : ℕ} (hn : n < 2 ^ 31) (rest : Bytes) :
    atoi (printNat n ++ b :: rest) = n := by
  rw [← atoi_printNat hn, atoi, atoi, strtol, strtol, readInt_append hb (dropWhile_printNat n)]

end Cmoon.NumberEnds
