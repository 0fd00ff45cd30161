import Mathlib.Data.Nat.ModEq
import Mathlib.Algebra.BigOperators.Group.List.Basic

/-! # Sums with an end-around carry

Words of base `b` are added, and what goes out at the high end comes in again at the low end. Such a sum is the sum
modulo `b - 1`, but that only words which are all zero have the sum zero. -/
namespace Cmoon.OnesComplementSums

variable (b : ℕ)

/-- The part above the base, added to the part below it. -/
def carryAround (n : ℕ) : ℕ := n % b + n / b

def endAroundAdd (x y : ℕ) : ℕ := carryAround b (x + y)

def endAroundSum (words : List ℕ) : ℕ := words.foldl (endAroundAdd b) 0

/-- The residue modulo `b - 1` in `1, ..., b - 1`, but 0 of 0. -/
def residue (n : ℕ) : ℕ := if n = 0 then 0 else (n - 1) % (b - 1) + 1

variable {b} {m n x y : ℕ} {words : List ℕ}

theorem residue_lt (hb : 2 ≤ b) (n : ℕ) : residue b n < b := by
  have hmod : (n - 1) % (b - 1) < b - 1 := Nat.mod_lt _ (by omega)
  unfold residue
  split <;> omega

theorem residue_of_lt (hn : n < b) : residue b n = n := by
  unfold residue
  split
  · exact Eq.symm ‹_›
  · rw [Nat.mod_eq_of_lt (by omega)]
    omega

theorem residue_eq_iff : residue b m = residue b n ↔ (m = 0 ↔ n = 0) ∧ m ≡ n [MOD b - 1] := by
  unfold residue
  by_cases hm : m = 0
  · by_cases hn : n = 0
    · simp [hm, hn, Nat.ModEq.refl]
    · simp [hm, hn]
  · by_cases hn : n = 0
    · simp [hm, hn]
    · obtain ⟨m, rfl⟩ := Nat.exists_eq_succ_of_ne_zero hm
      obtain ⟨n, rfl⟩ := Nat.exists_eq_succ_of_ne_zero hn
      have hsucc : m ≡ n [MOD b - 1] ↔ m + 1 ≡ n + 1 [MOD b - 1] := (Nat.ModEq.add_iff_right Nat.ModEq.rfl).symm
      simpa [Nat.ModEq] using hsucc

theorem carryAround_modEq (hb : 1 ≤ b) (n : ℕ) : carryAround b n ≡ n [MOD b - 1] := by
  have hbase : 1 ≡ b [MOD b - 1] := (Nat.modEq_iff_dvd' hb).mpr dvd_rfl
  calc n % b + n / b = n % b + 1 * (n / b) := by rw [Nat.one_mul]
    _ ≡ n % b + b * (n / b) [MOD b - 1] := (hbase.mul_right _).add_left _
    _ = n := Nat.mod_add_div n b

theorem carryAround_eq_zero_iff : carryAround b n = 0 ↔ n = 0 := by
  constructor
  · intro h
    have hsplit := Nat.mod_add_div n b
    rw [Nat.eq_zero_of_add_eq_zero_left h, Nat.eq_zero_of_add_eq_zero_right h] at hsplit
    exact hsplit.symm
  · rintro rfl
    simp [carryAround]

theorem residue_carryAround (hb : 1 ≤ b) (n : ℕ) : residue b (carryAround b n) = residue b n :=
  residue_eq_iff.mpr ⟨carryAround_eq_zero_iff, carryAround_modEq hb n⟩

theorem endAroundAdd_lt (hx : x < b) (hy : y < b) : endAroundAdd b x y < b := by
  unfold endAroundAdd carryAround
  obtain hlt | hle := Nat.lt_or_ge (x + y) b
  · rw [Nat.mod_eq_of_lt hlt, Nat.div_eq_of_lt hlt]
    exact hlt
  · rw [Nat.mod_eq_sub_mod hle, Nat.mod_eq_of_lt (by omega), Nat.div_eq_of_lt_le (k := 1) (by omega) (by omega)]
    omega

theorem foldl_endAroundAdd (hb : 2 ≤ b) (hx : x < b) (hwords : ∀ w ∈ words, w < b) :
    words.foldl (endAroundAdd b) x = residue b (x + words.sum) := by
  induction words generalizing x with
  | nil => exact (residue_of_lt hx).symm
  | cons w words ih =>
    rw [List.forall_mem_cons] at hwords
    have hmod : endAroundAdd b x w + words.sum ≡ x + w + words.sum [MOD b - 1] :=
      (carryAround_modEq (by omega) _).add_right _
    have hzero : endAroundAdd b x w = 0 ↔ x + w = 0 := carryAround_eq_zero_iff
    rw [List.foldl_cons, ih (endAroundAdd_lt hx hwords.1) hwords.2, List.sum_cons, ← Nat.add_assoc]
    exact residue_eq_iff.mpr ⟨by omega, hmod⟩

theorem endAroundSum_eq (hb : 2 ≤ b) (hwords : ∀ w ∈ words, w < b) :
    endAroundSum b words = residue b words.sum := by
  have h := foldl_endAroundAdd hb (by omega : 0 < b) hwords
  rwa [Nat.zero_add] at h

end Cmoon.OnesComplementSums
