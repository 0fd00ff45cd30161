import Cmoon.Md5Digests

/-! # The text of a digest (`mstr_md5_buf`)

A digest is written in hexadecimal into a buffer of the caller, with one byte more than a text and its
zero byte take. -/
namespace Cmoon.Md5Texts
open DecimalText ByteBuffers Md5Digests

def hex2str (x : UInt8) : UInt8 := if x &&& 0xf < 10 then (x &&& 0xf) + 48 else (x &&& 0xf) - 10 + 97

def hexText (hexin : Bytes) : Bytes := hexin.flatMap fun x : UInt8 => [hex2str (x >>> 4), hex2str x]

/-- The loop of `mstr_hex2str`, with the index it ends at. -/
def hexLoop : Bytes → Bytes → ℕ → Option (Bytes × ℕ)
  | out, [], j => some (out, j)
  | out, x :: hexin, j => do
    let out ← store out j [hex2str (x >>> 4)]
    let out ← store out (j + 1) [hex2str x]
    hexLoop out hexin (j + 2)

def mstrHex2str (hexin charout : Bytes) : Option Bytes := do
  let charout ← store charout 0 (List.replicate (hexin.length * 2 + 1) 0)
  let (charout, j) ← hexLoop charout hexin 0
  store charout (j + 1) [0]

def lenMd5 : ℕ := 33

/-- `mstr_md5_buf`, which does what `md5_signature` does with the length as an `unsigned int`. -/
def mstrMd5Buf (stack input : Bytes) (len : ℕ) (out : Bytes) : Option Bytes := do
  let hexres ← md5Signature stack input (len % 2 ^ 32)
  mstrHex2str hexres out

def digitValue (c : UInt8) : Option UInt8 :=
  if 48 ≤ c ∧ c ≤ 57 then some (c - 48) else if 97 ≤ c ∧ c ≤ 102 then some (c - 97 + 10) else none

def readHex : Bytes → Option Bytes
  | [] => some []
  | a :: b :: l => do
    let hi ← digitValue a
    let lo ← digitValue b
    return (hi * 16 + lo) :: (← readHex l)
  | [_] => none

theorem digitValue_hex2str (x : UInt8) : digitValue (hex2str x) = some (x &&& 0xf) :=
  forall_byte (P := fun x => digitValue (hex2str x) = some (x &&& 0xf)) (by decide +kernel) x

theorem byte_halves (x : UInt8) : (x >>> 4 &&& 0xf) * 16 + (x &&& 0xf) = x :=
  forall_byte (P := fun x => (x >>> 4 &&& 0xf) * 16 + (x &&& 0xf) = x) (by decide +kernel) x

theorem readHex_hexText (d : Bytes) : readHex (hexText d) = some d := by
  induction d with
  | nil => rfl
  | cons x d ih =>
    have hcons : hexText (x :: d) = hex2str (x >>> 4) :: hex2str x :: hexText d := rfl
    rw [hcons, readHex, digitValue_hex2str, digitValue_hex2str, ih]
    simp [byte_halves]

@[simp] theorem length_hexText (d : Bytes) : (hexText d).length = d.length * 2 := by
  simp [hexText]

theorem hex2str_ne_zero (x : UInt8) : hex2str x ≠ 0 := forall_byte (P := fun x => hex2str x ≠ 0) (by decide +kernel) x

theorem hexText_noZero (d : Bytes) : 0 ∉ hexText d := by
  intro hzero
  obtain ⟨x, -, hx⟩ := List.mem_flatMap.mp hzero
  simp only [List.mem_cons, List.not_mem_nil, or_false] at hx
  exact hx.elim (fun h => hex2str_ne_zero _ h.symm) fun h => hex2str_ne_zero _ h.symm

theorem store_spec {m data m' : Bytes} {off : ℕ} (h : store m off data = some m') :
    off + data.length ≤ m.length ∧ m' = overwrite m off data ∧ m'.length = m.length := by
  rw [store] at h
  split at h
  · rename_i hle
    obtain rfl := Option.some.inj h
    exact ⟨hle, rfl, length_overwrite hle⟩
  · cases h

theorem hexLoop_eq {out hexin : Bytes} {j : ℕ} (hj : j ≤ out.length) :
    hexLoop out hexin j = (store out j (hexText hexin)).map (·, j + hexin.length * 2) := by
  induction hexin generalizing out j with
  | nil => simp [hexLoop, hexText, store, hj, overwrite]
  | cons x hexin ih =>
    have htext : hexText (x :: hexin) = [hex2str (x >>> 4)] ++ ([hex2str x] ++ hexText hexin) := rfl
    rw [htext, ← store_append, hexLoop]
    cases hfirst : store out j [hex2str (x >>> 4)] with
    | none => rfl
    | some out₁ =>
      obtain ⟨-, -, hlen₁⟩ := store_spec hfirst
      have hone : ∀ y : UInt8, j + [y].length = j + 1 := fun _ => rfl
      rw [Option.bind_eq_bind, Option.bind_some, Option.bind_some, hone, ← store_append]
      cases hsecond : store out₁ (j + 1) [hex2str x] with
      | none => rfl
      | some out₂ =>
        obtain ⟨hroom, -, hlen₂⟩ := store_spec hsecond
        rw [List.length_singleton] at hroom ⊢
        have hend : j + 2 + hexin.length * 2 = j + (x :: hexin).length * 2 := by
          rw [List.length_cons]
          omega
        rw [Option.bind_some, Option.bind_some, ih (by omega), hend]

theorem mstrHex2str_eq (hexin out : Bytes) :
    mstrHex2str hexin out =
      if hexin.length * 2 + 2 ≤ out.length then
        some (hexText hexin ++ [0, 0] ++ out.drop (hexin.length * 2 + 2))
      else none := by
  have htext := length_hexText hexin
  rw [mstrHex2str]
  cases hclear : store out 0 (List.replicate (hexin.length * 2 + 1) 0) with
  | none =>
    rw [store_eq_none, List.length_replicate] at hclear
    rw [if_neg (by omega)]
    rfl
  | some out₁ =>
    obtain ⟨hroom, rfl, hlen⟩ := store_spec hclear
    rw [List.length_replicate] at hroom
    have hwrite := @store_eq (overwrite out 0 (List.replicate (hexin.length * 2 + 1) 0)) (hexText hexin) 0 (by omega)
    rw [Option.bind_eq_bind, Option.bind_some, hexLoop_eq (Nat.zero_le _), hwrite]
    simp only [Option.bind_eq_bind, Option.map_some, Option.bind_some, Nat.zero_add]
    by_cases hfits : hexin.length * 2 + 2 ≤ out.length
    · have hbehind : overwrite (overwrite out 0 (List.replicate (hexin.length * 2 + 1) 0)) 0 (hexText hexin) =
          (hexText hexin ++ [0]) ++ out.drop (hexin.length * 2 + 1) := by
        rw [overwrite_zero, overwrite_zero, htext, List.length_replicate, List.drop_append_of_le_length (by simp),
          List.drop_replicate, Nat.add_sub_cancel_left, List.append_assoc]
        rfl
      have hfront : (hexText hexin ++ [0]).length = hexin.length * 2 + 1 := by simp
      rw [if_pos hfits, store_eq (by rw [length_overwrite (by omega), hlen]; exact hfits), hbehind, overwrite, ← hfront,
        List.take_left, ← List.drop_drop, List.drop_left, List.drop_drop, hfront]
      simp
    · rw [if_neg hfits, store_eq_none, length_overwrite (by omega), hlen]
      simp only [List.length_singleton]
      omega

/-- `mstr_md5_buf` writes the text of the digest of the first `len` modulo 2^32 bytes, from which the digest
can be read back, into any buffer of 34 bytes; into the 33 bytes of `LEN_MD5` it does not fit. -/
theorem mstrMd5Buf_eq {stack input : Bytes} {len : ℕ} (hstack : stack.length = 64) (hinput : len ≤ input.length)
    (out : Bytes) :
    (mstrMd5Buf stack input len out = if lenMd5 < out.length then
        some (hexText (digest (input.take (len % 2 ^ 32))) ++ [0, 0] ++ out.drop 34)
      else none) ∧
      readHex (hexText (digest (input.take (len % 2 ^ 32)))) = some (digest (input.take (len % 2 ^ 32))) ∧
      0 ∉ hexText (digest (input.take (len % 2 ^ 32))) := by
  have hlt : len % 2 ^ 32 < 2 ^ 32 := Nat.mod_lt len (by decide)
  have hle : len % 2 ^ 32 ≤ input.length := (Nat.mod_le len _).trans hinput
  refine ⟨?_, readHex_hexText _, hexText_noZero _⟩
  rw [mstrMd5Buf, md5Signature_eq hstack hle hlt, Option.bind_eq_bind, Option.bind_some, mstrHex2str_eq, length_digest]
  rfl

theorem hexText_abc : hexText (digest [97, 98, 99]) =
    [57, 48, 48, 49, 53, 48, 57, 56, 51, 99, 100, 50, 52, 102, 98, 48, 100, 54, 57, 54, 51, 102, 55, 100, 50, 56, 101,
      49, 55, 102, 55, 50] := by decide +kernel

theorem mstrMd5Buf_abc :
    mstrMd5Buf (List.replicate 64 0) [97, 98, 99] 3 (List.replicate 33 0) = none ∧
      mstrMd5Buf (List.replicate 64 0) [97, 98, 99] 3 (List.replicate 34 0) =
        some ([57, 48, 48, 49, 53, 48, 57, 56, 51, 99, 100, 50, 52, 102, 98, 48, 100, 54, 57, 54, 51, 102, 55, 100, 50,
          56, 101, 49, 55, 102, 55, 50] ++ [0, 0]) := by
  have hshort := (@mstrMd5Buf_eq (List.replicate 64 0) [97, 98, 99] 3 (by decide) (by decide)
    (List.replicate 33 0)).1
  have hlong := (@mstrMd5Buf_eq (List.replicate 64 0) [97, 98, 99] 3 (by decide) (by decide)
    (List.replicate 34 0)).1
  rw [← hexText_abc]
  exact ⟨hshort, by simpa [lenMd5] using hlong⟩

end Cmoon.Md5Texts
