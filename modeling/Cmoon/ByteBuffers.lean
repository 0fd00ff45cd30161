import Cmoon.DecimalText

/-! # Buffers of bytes

Big-endian words, reads at an offset which fail past the end of the buffer, strings
closed by a zero byte, and writes into a buffer of fixed length. -/
namespace Cmoon.ByteBuffers
open DecimalText

theorem forall_byte {P : UInt8 → Prop} (h : ∀ b : BitVec 8, P (.ofBitVec b)) (x : UInt8) : P x := h x.toBitVec

def word (b : Bytes) : ℕ := b.foldl (fun n x => 256 * n + x.toNat) 0

/-- The `w` low bytes of a number, the highest first. -/
def be (w n : ℕ) : Bytes :=
  match w with
  | 0 => []
  | w + 1 => UInt8.ofNat (n / 256 ^ w) :: be w n

@[simp] theorem length_be (w n : ℕ) : (be w n).length = w := by
  induction w <;> simp [be, *]

private theorem foldl_word (b : Bytes) (n : ℕ) :
    b.foldl (fun n x => 256 * n + x.toNat) n = n * 256 ^ b.length + word b := by
  induction b generalizing n with
  | nil => simp [word]
  | cons x b ih =>
    rw [word, List.foldl_cons, List.foldl_cons, ih, ih (256 * 0 + x.toNat), List.length_cons, pow_succ]
    ring

theorem word_cons (x : UInt8) (b : Bytes) : word (x :: b) = x.toNat * 256 ^ b.length + word b := by
  rw [word, List.foldl_cons, foldl_word]
  simp

theorem word_lt (b : Bytes) : word b < 256 ^ b.length := by
  induction b with
  | nil => simp [word]
  | cons x b ih =>
    have hx : x.toNat < 256 := x.toNat_lt
    have hle : x.toNat * 256 ^ b.length ≤ 255 * 256 ^ b.length := Nat.mul_le_mul_right _ (by omega)
    rw [word_cons, List.length_cons, pow_succ]
    omega

theorem word_be (w n : ℕ) : word (be w n) = n % 256 ^ w := by
  induction w with
  | zero => simp [be, word, Nat.mod_one]
  | succ w ih =>
    have hsplit := Nat.mod_mul (x := n) (a := 256 ^ w) (b := 256)
    rw [be, word_cons, length_be, ih, UInt8.toNat_ofNat', pow_succ 256 w, hsplit, Nat.mul_comm, Nat.add_comm]

theorem word_be_of_lt {w n : ℕ} (hn : n < 256 ^ w) : word (be w n) = n := by
  rw [word_be, Nat.mod_eq_of_lt hn]

theorem word_inj {a b : Bytes} (hl : a.length = b.length) (hw : word a = word b) : a = b := by
  induction a generalizing b with
  | nil => exact (List.length_eq_zero_iff.mp hl.symm).symm
  | cons x a ih =>
    obtain _ | ⟨y, b⟩ := b
    · simp at hl
    · have hl : a.length = b.length := by simpa using hl
      rw [word_cons, word_cons, ← hl] at hw
      have ha := word_lt a
      have hb := word_lt b
      rw [← hl] at hb
      have hx : x.toNat = y.toNat := by
        have h := congrArg (· / 256 ^ a.length) hw
        simpa [Nat.add_comm _ (word a), Nat.add_comm _ (word b), Nat.add_mul_div_right,
          Nat.div_eq_of_lt ha, Nat.div_eq_of_lt hb] using h
      rw [hx] at hw
      rw [UInt8.toNat_inj.mp hx, ih hl (Nat.add_left_cancel hw)]

/-- `len` bytes from the offset `off`. -/
def slice (m : Bytes) (off len : ℕ) : Bytes := (m.drop off).take len

/-- The four-byte word at an offset; none past the end. -/
def wordAt (m : Bytes) (off : ℕ) : Option ℕ :=
  if off + 4 ≤ m.length then some (word (slice m off 4)) else none

/-- The string at an offset, up to its zero byte; none when there is none before the end. -/
def cstrAt (m : Bytes) (off : ℕ) : Option Bytes :=
  if 0 ∈ m.drop off then some ((m.drop off).takeWhile (· ≠ 0)) else none

theorem slice_append_left {a : Bytes} {off len : ℕ} (h : off + len ≤ a.length) (b : Bytes) :
    slice (a ++ b) off len = slice a off len := by
  rw [slice, slice, List.drop_append_of_le_length (by omega), List.take_append_of_le_length]
  simp only [List.length_drop]
  omega

theorem wordAt_append_left {a : Bytes} {off : ℕ} (h : off + 4 ≤ a.length) (b : Bytes) :
    wordAt (a ++ b) off = some (word (slice a off 4)) := by
  rw [wordAt, if_pos (by rw [List.length_append]; omega), slice_append_left h]

theorem cstrAt_append_left {a : Bytes} {off : ℕ} (h : 0 ∈ a.drop off) (b : Bytes) :
    cstrAt (a ++ b) off = some ((a.drop off).takeWhile (· ≠ 0)) := by
  have hle : off ≤ a.length := by
    by_contra hlt
    rw [List.drop_eq_nil_of_le (by omega)] at h
    cases h
  rw [cstrAt, List.drop_append_of_le_length hle, if_pos (List.mem_append_left b h)]
  congr 1
  rw [List.takeWhile_append]
  split
  · next hlen =>
    have hall : (a.drop off).takeWhile (· ≠ 0) = a.drop off :=
      (List.takeWhile_prefix _).eq_of_length hlen
    have hne := List.all_takeWhile (p := fun x : UInt8 => decide (x ≠ 0)) (l := a.drop off)
    rw [hall] at hne
    simpa using List.all_eq_true.mp hne 0 h
  · rfl

/-- Bytes written at an offset of a buffer, whose length stays. -/
def overwrite (m : Bytes) (off : ℕ) (data : Bytes) : Bytes :=
  m.take off ++ data ++ m.drop (off + data.length)

theorem overwrite_zero (m data : Bytes) : overwrite m 0 data = data ++ m.drop data.length := by
  simp [overwrite]

theorem take_overwrite {m : Bytes} {off : ℕ} (data : Bytes) (h : off ≤ m.length) :
    (overwrite m off data).take (off + data.length) = m.take off ++ data := by
  have hlen : (m.take off ++ data).length = off + data.length := by
    simp [Nat.min_eq_left h]
  rw [overwrite, ← hlen, List.take_left]

theorem length_overwrite {m data : Bytes} {off : ℕ} (h : off + data.length ≤ m.length) :
    (overwrite m off data).length = m.length := by
  simp only [overwrite, List.length_append, List.length_take, List.length_drop]
  omega

theorem getElem?_overwrite {m data : Bytes} {off : ℕ} (h : off + data.length ≤ m.length) (p : ℕ) :
    (overwrite m off data)[p]? =
      if off ≤ p ∧ p < off + data.length then data[p - off]? else m[p]? := by
  have htake : (m.take off).length = off := by
    simp only [List.length_take]
    omega
  rw [overwrite, List.append_assoc]
  by_cases h₁ : p < off
  · rw [List.getElem?_append_left (by omega), if_neg (by omega), List.getElem?_take_of_lt h₁]
  · rw [List.getElem?_append_right (by omega), htake]
    by_cases h₂ : p < off + data.length
    · rw [List.getElem?_append_left (by omega), if_pos (by omega)]
    · rw [List.getElem?_append_right (by omega), if_neg (by omega), List.getElem?_drop]
      congr 1
      omega

/-- A write over the end of what was written before. -/
theorem overwrite_overwrite {m : Bytes} {off : ℕ} (h : off ≤ m.length) (a : Bytes) {b c : Bytes}
    (hc : c.length ≤ b.length) :
    overwrite (overwrite m off (a ++ c)) (off + a.length) b = overwrite m off (a ++ b) := by
  have htake : (m.take off ++ a).length = off + a.length := by
    simp [Nat.min_eq_left h]
  have hend : (m.take off ++ a ++ c).length = off + a.length + c.length := by
    rw [List.length_append, htake]
  have hsplit : overwrite m off (a ++ c) = m.take off ++ a ++ c ++ m.drop (off + a.length + c.length) := by
    simp only [overwrite, List.append_assoc, List.length_append, Nat.add_assoc]
  have hfirst : (overwrite m off (a ++ c)).take (off + a.length) = m.take off ++ a := by
    rw [hsplit, List.append_assoc, ← htake, List.take_left]
  have hlast : (overwrite m off (a ++ c)).drop (off + a.length + b.length) = m.drop (off + a.length + b.length) := by
    rw [hsplit, List.drop_append, hend, List.drop_eq_nil_of_le (by omega), List.nil_append, List.drop_drop]
    congr 1
    omega
  rw [overwrite, hfirst, hlast, overwrite, List.length_append, ← Nat.add_assoc, List.append_assoc (m.take off)]

theorem slice_take {m : Bytes} {off len n : ℕ} (h : off + len ≤ n) : slice (m.take n) off len = slice m off len := by
  rw [slice, slice, List.drop_take, List.take_take, Nat.min_eq_left (by omega)]

/-- Bytes that are read at an offset stand there between others. -/
theorem mid_of_slice {m b : Bytes} {off : ℕ} (hb : b ≠ []) (h : slice m off b.length = b) :
    m = m.take off ++ (b ++ m.drop (off + b.length)) ∧ off = (m.take off).length := by
  have hpos := List.length_pos_iff.mpr hb
  have hlen := congrArg List.length h
  rw [slice, List.length_take, List.length_drop] at hlen
  refine ⟨?_, ?_⟩
  · nth_rewrite 1 [← List.take_append_drop off m]
    congr 1
    nth_rewrite 1 [← List.take_append_drop b.length (m.drop off)]
    rw [← slice, h, List.drop_drop]
  · rw [List.length_take]
    omega

/-- What is read of the bytes just written to the front of a buffer. -/
theorem slice_overwrite_zero {m data : Bytes} {off len : ℕ} (h : off + len ≤ data.length) :
    slice (overwrite m 0 data) off len = slice data off len := by
  rw [overwrite_zero, slice_append_left h]

def store (m : Bytes) (off : ℕ) (data : Bytes) : Option Bytes :=
  if off + data.length ≤ m.length then some (overwrite m off data) else none

theorem store_eq {m data : Bytes} {off : ℕ} (h : off + data.length ≤ m.length) :
    store m off data = some (overwrite m off data) := if_pos h

theorem store_eq_none {m data : Bytes} {off : ℕ} : store m off data = none ↔ m.length < off + data.length := by
  simp [store]

/-- Two writes, the second over the end of the first, are one. -/
theorem store_over (m : Bytes) (off : ℕ) (a : Bytes) {b c : Bytes} (hc : c.length ≤ b.length) :
    ((store m off (a ++ c)).bind fun m => store m (off + a.length) b) = store m off (a ++ b) := by
  simp only [store, List.length_append]
  by_cases hfirst : off + (a.length + c.length) ≤ m.length
  · have hlen : (overwrite m off (a ++ c)).length = m.length :=
      length_overwrite (by simpa using hfirst)
    rw [if_pos hfirst, Option.bind_some, hlen, overwrite_overwrite (by omega) a hc, Nat.add_assoc]
  · rw [if_neg hfirst, if_neg (by omega)]
    rfl

theorem store_append (m : Bytes) (off : ℕ) (a b : Bytes) :
    ((store m off a).bind fun m => store m (off + a.length) b) = store m off (a ++ b) := by
  simpa using store_over m off a (b := b) (c := []) (Nat.zero_le _)

theorem store_bind_store {α : Type*} {m a : Bytes} {off o : ℕ} (ho : o = off + a.length) (b : Bytes)
    (f : Bytes → Option α) :
    ((store m off a).bind fun m => (store m o b).bind f) = (store m off (a ++ b)).bind f := by
  rw [← store_append, ho, Option.bind_assoc]

/-- A string of C: no zero byte before the one that closes it. -/
structure CString where
  bytes : Bytes
  noZero : 0 ∉ bytes

section Middle
variable {m a c : Bytes} {off : ℕ}

theorem slice_mid {b : Bytes} {len : ℕ} (hm : m = a ++ (b ++ c)) (hoff : off = a.length) (hlen : len = b.length) :
    slice m off len = b := by
  rw [hm, hoff, hlen, slice, List.drop_left, List.take_left]

theorem wordAt_mid {n : ℕ} (hm : m = a ++ (be 4 n ++ c)) (hoff : off = a.length) (hn : n < 2 ^ 32) :
    wordAt m off = some n := by
  have hle : off + 4 ≤ m.length := by simp [hm, hoff]
  rw [wordAt, if_pos hle, slice_mid hm hoff (length_be 4 n).symm, word_be_of_lt hn]

theorem cstrAt_mid {s : CString} (hm : m = a ++ (s.bytes ++ 0 :: c)) (hoff : off = a.length) :
    cstrAt m off = some s.bytes := by
  have hall : ∀ x ∈ s.bytes, decide (x ≠ 0) = true := fun x hx => by
    simpa using fun h : x = 0 => s.noZero (h ▸ hx)
  rw [cstrAt, hm, hoff, List.drop_left, if_pos (by simp), List.takeWhile_append_of_pos hall]
  simp

end Middle

/-- Whether `strncmp` finds the first `n` bytes of two strings equal; past the end of a list
stands the zero byte which closes the string. -/
def strncmpEq : Bytes → Bytes → ℕ → Bool
  | _, _, 0 => true
  | a, b, n + 1 =>
    if a.headD 0 ≠ b.headD 0 then false
    else if a.headD 0 = 0 then true
    else strncmpEq a.tail b.tail n

/-- Limited by the length of `a`, the comparison succeeds on the prefixes of `b`, and on
what has all of `b` and a zero byte in front. -/
theorem strncmpEq_iff {a b : Bytes} (hb : 0 ∉ b) :
    strncmpEq a b a.length = true ↔ a <+: b ∨ (b ++ [0]) <+: a := by
  induction a generalizing b with
  | nil => simp [strncmpEq]
  | cons x a ih =>
    cases b with
    | nil =>
      by_cases hx : x = 0
      · simp [strncmpEq, hx]
      · simp [strncmpEq, hx, Ne.symm hx]
    | cons y b =>
      have hy : y ≠ 0 := fun h => hb (by simp [h])
      have hb' : 0 ∉ b := fun h => hb (List.mem_cons_of_mem y h)
      by_cases hxy : x = y
      · subst hxy
        simp [strncmpEq, hy, ih hb', List.cons_prefix_cons]
      · simp [strncmpEq, hxy, Ne.symm hxy, List.cons_prefix_cons]

end Cmoon.ByteBuffers
