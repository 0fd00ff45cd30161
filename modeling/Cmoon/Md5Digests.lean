import Cmoon.BlockStreams
import Cmoon.ByteBuffers

/-! # MD5 (`md5c.c`)

The digest is computed from a context that takes the message in pieces. However it is cut, the digest
is that of the padded message, block by block. -/
namespace Cmoon.Md5Digests
open DecimalText ByteBuffers BlockStreams

/-- The registers, `state[4]`. -/
structure State where
  a : UInt32
  b : UInt32
  c : UInt32
  d : UInt32
  deriving DecidableEq, Repr

def f (x y z : UInt32) : UInt32 := (x &&& y) ||| (~~~x &&& z)
def g (x y z : UInt32) : UInt32 := (x &&& z) ||| (y &&& ~~~z)
def h (x y z : UInt32) : UInt32 := x ^^^ y ^^^ z
def i (x y z : UInt32) : UInt32 := y ^^^ (x ||| ~~~z)

def rotateLeft (x n : UInt32) : UInt32 := (x <<< n) ||| (x >>> (32 - n))

/-- `FF`, `GG`, `HH` and `II`. The register that is written is `b` of the next step, the others move on. -/
def step (fn : UInt32 → UInt32 → UInt32 → UInt32) (r : State) (x s ac : UInt32) : State :=
  ⟨r.d, rotateLeft (r.a + (fn r.b r.c r.d + x + ac)) s + r.b, r.b, r.c⟩

/-- The steps of a round: which word of the block, the shift and the constant of each. -/
abbrev Round := List (ℕ × UInt32 × UInt32)

def round1 : Round :=
  [(0, 7, 0xd76aa478), (1, 12, 0xe8c7b756), (2, 17, 0x242070db), (3, 22, 0xc1bdceee),
    (4, 7, 0xf57c0faf), (5, 12, 0x4787c62a), (6, 17, 0xa8304613), (7, 22, 0xfd469501),
    (8, 7, 0x698098d8), (9, 12, 0x8b44f7af), (10, 17, 0xffff5bb1), (11, 22, 0x895cd7be),
    (12, 7, 0x6b901122), (13, 12, 0xfd987193), (14, 17, 0xa679438e), (15, 22, 0x49b40821)]

def round2 : Round :=
  [(1, 5, 0xf61e2562), (6, 9, 0xc040b340), (11, 14, 0x265e5a51), (0, 20, 0xe9b6c7aa),
    (5, 5, 0xd62f105d), (10, 9, 0x2441453), (15, 14, 0xd8a1e681), (4, 20, 0xe7d3fbc8),
    (9, 5, 0x21e1cde6), (14, 9, 0xc33707d6), (3, 14, 0xf4d50d87), (8, 20, 0x455a14ed),
    (13, 5, 0xa9e3e905), (2, 9, 0xfcefa3f8), (7, 14, 0x676f02d9), (12, 20, 0x8d2a4c8a)]

def round3 : Round :=
  [(5, 4, 0xfffa3942), (8, 11, 0x8771f681), (11, 16, 0x6d9d6122), (14, 23, 0xfde5380c),
    (1, 4, 0xa4beea44), (4, 11, 0x4bdecfa9), (7, 16, 0xf6bb4b60), (10, 23, 0xbebfbc70),
    (13, 4, 0x289b7ec6), (0, 11, 0xeaa127fa), (3, 16, 0xd4ef3085), (6, 23, 0x4881d05),
    (9, 4, 0xd9d4d039), (12, 11, 0xe6db99e5), (15, 16, 0x1fa27cf8), (2, 23, 0xc4ac5665)]

def round4 : Round :=
  [(0, 6, 0xf4292244), (7, 10, 0x432aff97), (14, 15, 0xab9423a7), (5, 21, 0xfc93a039),
    (12, 6, 0x655b59c3), (3, 10, 0x8f0ccc92), (10, 15, 0xffeff47d), (1, 21, 0x85845dd1),
    (8, 6, 0x6fa87e4f), (15, 10, 0xfe2ce6e0), (6, 15, 0xa3014314), (13, 21, 0x4e0811a1),
    (4, 6, 0xf7537e82), (11, 10, 0xbd3af235), (2, 15, 0x2ad7d2bb), (9, 21, 0xeb86d391)]

def encode (l : List UInt32) : Bytes :=
  l.flatMap fun x : UInt32 => [x.toUInt8, (x >>> 8).toUInt8, (x >>> 16).toUInt8, (x >>> 24).toUInt8]

def decode : Bytes → List UInt32
  | b₀ :: b₁ :: b₂ :: b₃ :: l =>
    (b₀.toUInt32 ||| (b₁.toUInt32 <<< 8) ||| (b₂.toUInt32 <<< 16) ||| (b₃.toUInt32 <<< 24)) :: decode l
  | _ => []

def runRound (fn : UInt32 → UInt32 → UInt32 → UInt32) (x : List UInt32) (steps : Round) (r : State) : State :=
  steps.foldl (fun r p => step fn r (x.getD p.1 0) p.2.1 p.2.2) r

def md5Transform (state : State) (block : Bytes) : State :=
  let x := decode block
  let r := runRound i x round4 (runRound h x round3 (runRound g x round2 (runRound f x round1 state)))
  ⟨state.a + r.a, state.b + r.b, state.c + r.c, state.d + r.d⟩

/-- `md5_ctx` -/
structure Ctx where
  state : State
  count0 : UInt32
  count1 : UInt32
  buffer : Bytes

def initial : State := ⟨0x67452301, 0xefcdab89, 0x98badcfe, 0x10325476⟩

def md5Init (buffer : Bytes) : Ctx := ⟨initial, 0, 0, buffer⟩

def load (m : Bytes) (off len : ℕ) : Option Bytes :=
  if off + len ≤ m.length then some (slice m off len) else none

/-- The loop of `MD5Update` over the blocks of the input from `i` on. There is no result when it reads
behind the input or does not end. -/
def transformAll : ℕ → State → Bytes → ℕ → ℕ → Option (State × ℕ)
  | 0, _, _, _, _ => none
  | fuel + 1, state, input, inputLen, i =>
    if (i + 63) % 2 ^ 32 < inputLen then do
      let block ← load input i 64
      transformAll fuel (md5Transform state block) input inputLen ((i + 64) % 2 ^ 32)
    else some (state, i)

/-- `(count[0] >> 3) & 0x3F` -/
def Ctx.index (c : Ctx) : ℕ := ((c.count0 >>> 3) &&& 0x3F).toNat

def Ctx.counted (c : Ctx) (inputLen : ℕ) : UInt32 × UInt32 :=
  let bits := UInt32.ofNat inputLen <<< 3
  let count0 := c.count0 + bits
  let count1 := if count0 < bits then c.count1 + 1 else c.count1
  (count0, count1 + UInt32.ofNat inputLen >>> 29)

/-- The blocks that the input completes: the registers and the buffer, where the rest of the input goes
and where it begins. -/
def Ctx.transformed (c : Ctx) (input : Bytes) (inputLen : ℕ) : Option (State × Bytes × ℕ × ℕ) :=
  let index := c.index
  let partLen := 64 - index
  if inputLen ≥ partLen then do
    let part ← load input 0 partLen
    let buffer ← store c.buffer index part
    let (state, i) ← transformAll (inputLen / 64 + 1) (md5Transform c.state buffer) input inputLen partLen
    return (state, buffer, 0, i)
  else some (c.state, c.buffer, index, 0)

def md5Update (c : Ctx) (input : Bytes) (inputLen : ℕ) : Option Ctx := do
  let (count0, count1) := c.counted inputLen
  let (state, buffer, index, i) ← c.transformed input inputLen
  let part ← load input i (inputLen - i)
  let buffer ← store buffer index part
  return ⟨state, count0, count1, buffer⟩

def padding : Bytes := 0x80 :: List.replicate 63 0

def State.words (s : State) : List UInt32 := [s.a, s.b, s.c, s.d]

def md5Final (c : Ctx) : Option Bytes := do
  let bits := encode [c.count0, c.count1]
  let index := c.index
  let padLen := if index < 56 then 56 - index else 120 - index
  let c ← md5Update c padding padLen
  let c ← md5Update c bits 8
  return encode c.state.words

def md5Signature (stack key : Bytes) (length : ℕ) : Option Bytes := do
  let c ← md5Update (md5Init stack) key length
  md5Final c

/-- A message with its padding: a byte 0x80, zeros up to eight bytes before the end of a block, and the
number of bits, the lowest byte first. -/
def padded (m : Bytes) : Bytes :=
  m ++ 0x80 :: List.replicate ((119 - m.length % 64) % 64) 0 ++ (be 8 (8 * m.length)).reverse

def digest (m : Bytes) : Bytes := encode ((blocks 64 (padded m)).foldl md5Transform initial).words

example : digest [] = [0xd4, 0x1d, 0x8c, 0xd9, 0x8f, 0x00, 0xb2, 0x04, 0xe9, 0x80, 0x09, 0x98, 0xec, 0xf8, 0x42, 0x7e] := by
  decide +kernel

/-- The context after the message `m`: its whole blocks are done, the rest stands in front in the buffer
and the bits are counted modulo 2^64. -/
structure Holds (c : Ctx) (m : Bytes) : Prop where
  state : c.state = (blocks 64 m).foldl md5Transform initial
  length : c.buffer.length = 64
  rest : c.buffer.take (m.length % 64) = rest 64 m
  count : c.count1.toNat * 2 ^ 32 + c.count0.toNat = 8 * m.length % 2 ^ 64

theorem holds_init {buffer : Bytes} (h : buffer.length = 64) : Holds (md5Init buffer) [] where
  state := rfl
  length := h
  rest := by simp [BlockStreams.rest]
  count := by simp [md5Init]

section Update
variable {c : Ctx} {m input : Bytes} {n : ℕ}

theorem Holds.index (hc : Holds c m) : c.index = m.length % 64 := by
  have hcount := hc.count
  have hlt := c.count0.toNat_lt
  rw [Ctx.index, UInt32.toNat_and, UInt32.toNat_shiftRight]
  have hmask : (0x3F : UInt32).toNat = 2 ^ 6 - 1 := rfl
  have hshift : (3 : UInt32).toNat % 32 = 3 := rfl
  rw [hmask, hshift, Nat.and_two_pow_sub_one_eq_mod, Nat.shiftRight_eq_div_pow]
  omega

private theorem two_words {w x s : ℕ} (hs : s < w) : x % w * w + s = (x * w + s) % (w * w) := by
  have hw : 0 < w := Nat.zero_lt_of_lt hs
  rw [Nat.mod_mul, Nat.mul_comm x w, Nat.mul_add_mod, Nat.mod_eq_of_lt hs, Nat.mul_add_div hw, Nat.div_eq_of_lt hs,
    Nat.add_zero, Nat.mul_comm, Nat.add_comm]

theorem Holds.counted (hc : Holds c m) (hn : n < 2 ^ 32) :
    (c.counted n).2.toNat * 2 ^ 32 + (c.counted n).1.toNat = 8 * (m.length + n) % 2 ^ 64 := by
  have h0 := c.count0.toNat_lt
  have hbits : (UInt32.ofNat n <<< 3).toNat = 8 * n % 2 ^ 32 := by
    rw [UInt32.toNat_shiftLeft, UInt32.toNat_ofNat_of_lt' hn, Nat.shiftLeft_eq, Nat.mul_comm]
    rfl
  have hhigh : (UInt32.ofNat n >>> 29).toNat = n / 2 ^ 29 := by
    rw [UInt32.toNat_shiftRight, UInt32.toNat_ofNat_of_lt' hn, Nat.shiftRight_eq_div_pow]
    rfl
  have hlow : (c.counted n).1.toNat = (c.count0.toNat + 8 * n % 2 ^ 32) % 2 ^ 32 := by
    rw [Ctx.counted, UInt32.toNat_add, hbits]
  -- the carry of the low word goes to the high one
  obtain ⟨carry, hcarry, hhigh'⟩ : ∃ carry, c.count0.toNat + 8 * n % 2 ^ 32 = carry * 2 ^ 32 + (c.counted n).1.toNat ∧
      (c.counted n).2.toNat = (c.count1.toNat + carry + n / 2 ^ 29) % 2 ^ 32 := by
    rw [hlow]
    simp only [Ctx.counted, UInt32.lt_iff_toNat_lt, UInt32.toNat_add, hbits, hhigh]
    split
    · refine ⟨1, by omega, ?_⟩
      rw [UInt32.toNat_add, Nat.mod_add_mod]
      rfl
    · exact ⟨0, by omega, by rw [Nat.add_zero]⟩
  have hlt : (c.counted n).1.toNat < 2 ^ 32 := (c.counted n).1.toNat_lt
  have hsum : (c.count1.toNat + carry + n / 2 ^ 29) * 2 ^ 32 + (c.counted n).1.toNat =
      c.count1.toNat * 2 ^ 32 + c.count0.toNat + 8 * n := by omega
  have hdouble : 2 ^ 32 * 2 ^ 32 = 2 ^ 64 := rfl
  rw [hhigh', two_words hlt, hsum, hc.count, hdouble, Nat.mod_add_mod, Nat.mul_add]

theorem load_eq {off len : ℕ} (h : off + len ≤ m.length) : load m off len = some (slice m off len) := if_pos h

theorem length_slice {off len : ℕ} (h : off + len ≤ m.length) : (slice m off len).length = len := by
  rw [slice, List.length_take, List.length_drop]
  omega

theorem slice_append_slice {off len len' : ℕ} :
    slice m off (len + len') = slice m off len ++ slice m (off + len) len' := by
  rw [slice, slice, slice, ← List.drop_drop, List.take_add]

/-- The loop over the blocks ends, and where it ends the rest of the input begins. -/
theorem transformAll_eq (hinput : n ≤ input.length) {fuel i : ℕ} (hn : n + (64 - i % 64) % 64 < 2 ^ 32) (hi : i ≤ n)
    (hfuel : (n - i) / 64 < fuel) (s : State) :
    transformAll fuel s input n i =
      some ((blocks 64 (slice input i (n - i))).foldl md5Transform s, n - (n - i) % 64) := by
  induction fuel generalizing i s with
  | zero => omega
  | succ fuel ih =>
    rw [transformAll, Nat.mod_eq_of_lt (by omega)]
    by_cases hlt : i + 63 < n
    · have hsplit : slice input i (n - i) = slice input i 64 ++ slice input (i + 64) (n - (i + 64)) := by
        rw [← slice_append_slice]
        congr 1
        omega
      have hblock : (slice input i 64).length = 64 := length_slice (by omega)
      have hmod : (n - (i + 64)) % 64 = (n - i) % 64 := by omega
      have hnext : (i + 64) % 2 ^ 32 = i + 64 := Nat.mod_eq_of_lt (by omega)
      rw [if_pos hlt, load_eq (by omega), Option.bind_eq_bind, Option.bind_some, hnext,
        ih (by omega) (by omega) (by omega), hsplit, blocks_cons (by decide) hblock, List.foldl_cons, hmod]
    · have hshort : (slice input i (n - i)).length < 64 := by
        rw [length_slice (by omega)]
        omega
      rw [if_neg hlt, blocks_of_lt hshort, Nat.mod_eq_of_lt (by omega)]
      simp only [List.foldl_nil, Nat.sub_sub_self hi]

/-- Past 2^32 the index wraps around, and the loop reads behind the input. -/
theorem transformAll_none (hinput : input.length = n) (hn : n < 2 ^ 32) {fuel i : ℕ}
    (hwrap : 2 ^ 32 ≤ n + (64 - i % 64) % 64) (hi : i ≤ n) (s : State) : transformAll fuel s input n i = none := by
  induction fuel generalizing i s with
  | zero => rfl
  | succ fuel ih =>
    rw [transformAll]
    by_cases hlast : i + 63 < 2 ^ 32
    · have hnext : (i + 64) % 2 ^ 32 = i + 64 := Nat.mod_eq_of_lt (by omega)
      rw [Nat.mod_eq_of_lt hlast, if_pos (by omega), load_eq (by omega), Option.bind_eq_bind, Option.bind_some, hnext]
      exact ih (by omega) (by omega) _
    · have hload : load input i 64 = none := if_neg (by omega)
      rw [if_pos (by omega), hload]
      rfl

/-- The bytes of the input on top of a message: what is done with their blocks, and where the rest goes. -/
theorem Holds.transformed (hc : Holds c m) (hinput : n ≤ input.length) (hn : m.length % 64 + n < 2 ^ 32) :
    ∃ buffer index i, c.transformed input n =
        some ((blocks 64 (m ++ slice input 0 n)).foldl md5Transform initial, buffer, index, i) ∧
      buffer.length = 64 ∧ i ≤ n ∧ index + (n - i) < 64 ∧
      buffer.take index ++ slice input i (n - i) = BlockStreams.rest 64 (m ++ slice input 0 n) := by
  obtain ⟨hblocks, hrest⟩ := @cut_append _ 64 (by decide) m (slice input 0 n)
  have hlen := @length_rest _ 64 m
  have hmod := Nat.mod_lt m.length (y := 64) (by decide)
  rw [hblocks, hrest, List.foldl_append, ← hc.state, Ctx.transformed, hc.index]
  by_cases hpart : n ≥ 64 - m.length % 64
  · generalize hp : 64 - m.length % 64 = p at hpart ⊢
    have hpart' : (slice input 0 p).length = p := length_slice (by omega)
    have hfull : (BlockStreams.rest 64 m ++ slice input 0 p).length = 64 := by
      rw [List.length_append, hlen, hpart']
      omega
    have hsplit : BlockStreams.rest 64 m ++ slice input 0 n =
        (BlockStreams.rest 64 m ++ slice input 0 p) ++ slice input p (n - p) := by
      have hslice : slice input 0 n = slice input 0 p ++ slice input (0 + p) (n - p) := by
        rw [← slice_append_slice]
        congr 1
        omega
      rw [List.append_assoc, hslice, Nat.zero_add]
    -- the buffer is filled to its end
    have hstore : store c.buffer (m.length % 64) (slice input 0 p) =
        some (BlockStreams.rest 64 m ++ slice input 0 p) := by
      rw [store_eq (by rw [hpart', hc.length]; omega), overwrite, hc.rest, List.drop_of_length_le, List.append_nil]
      rw [hpart', hc.length]
      omega
    have hloop := @transformAll_eq _ _ hinput (n / 64 + 1) p (by omega) hpart (by omega)
      (md5Transform c.state (BlockStreams.rest 64 m ++ slice input 0 p))
    refine ⟨BlockStreams.rest 64 m ++ slice input 0 p, 0, n - (n - p) % 64, ?_, hfull, Nat.sub_le .., by omega, ?_⟩
    · rw [if_pos hpart, load_eq (by omega), hsplit, blocks_cons (by decide) hfull]
      simp only [Option.bind_eq_bind, Option.bind_some, hstore, hloop, List.foldl_cons]
      rfl
    · have hi : n - (n - (n - p) % 64) = (n - p) % 64 := by omega
      rw [hsplit, rest_cons hfull, List.take_zero, List.nil_append, BlockStreams.rest, length_slice (by omega), slice, slice,
        List.drop_take, List.drop_drop, hi]
      congr 2 <;> omega
  · have hshort : (BlockStreams.rest 64 m ++ slice input 0 n).length < 64 := by
      rw [List.length_append, hlen, length_slice (by omega)]
      omega
    refine ⟨c.buffer, m.length % 64, 0, ?_, hc.length, Nat.zero_le n, by omega, ?_⟩
    · rw [if_neg hpart, blocks_of_lt hshort, List.foldl_nil]
    · rw [rest_of_lt hshort, hc.rest, Nat.sub_zero]

theorem Holds.update (hc : Holds c m) (hinput : n ≤ input.length) (hn : m.length % 64 + n < 2 ^ 32) :
    ∃ c', md5Update c input n = some c' ∧ Holds c' (m ++ input.take n) := by
  obtain ⟨buffer, index, i, htransformed, hlength, hi, hroom, hrest⟩ := hc.transformed hinput hn
  have hslice : slice input 0 n = input.take n := rfl
  have hpart : (slice input i (n - i)).length = n - i := length_slice (by omega)
  have htake : (input.take n).length = n := by rw [List.length_take, Nat.min_eq_left hinput]
  rw [hslice] at htransformed hrest
  have hindex : index + (slice input i (n - i)).length = (m ++ input.take n).length % 64 := by
    rw [← length_rest, ← hrest, List.length_append, List.length_take, hlength, Nat.min_eq_left (by omega)]
  refine ⟨⟨_, (c.counted n).1, (c.counted n).2, overwrite buffer index (slice input i (n - i))⟩, ?_, rfl, ?_, ?_, ?_⟩
  · have hstore : store buffer index (slice input i (n - i)) = some (overwrite buffer index (slice input i (n - i))) :=
      store_eq (by omega)
    have hload : load input i (n - i) = some (slice input i (n - i)) := load_eq (by omega)
    rw [md5Update, htransformed]
    simp only [Option.bind_eq_bind, Option.bind_some, hload, hstore]
    rfl
  · rw [length_overwrite (by omega), hlength]
  · rw [← hindex, take_overwrite _ (by omega), hrest]
  · rw [hc.counted (by omega), List.length_append, htake]

/-- What does not fit behind the message is read past its end. -/
theorem Holds.update_none (hc : Holds c m) (hinput : input.length = n) (hn : n < 2 ^ 32)
    (hwrap : 2 ^ 32 ≤ m.length % 64 + n) : md5Update c input n = none := by
  have hk := Nat.mod_lt m.length (y := 64) (by decide)
  have hnone : c.transformed input n = none := by
    have hpart : (slice input 0 (64 - m.length % 64)).length = 64 - m.length % 64 := length_slice (by omega)
    rw [Ctx.transformed, hc.index, if_pos (by omega), load_eq (by omega), Option.bind_eq_bind, Option.bind_some,
      store_eq (by rw [hpart, hc.length]; omega), Option.bind_eq_bind, Option.bind_some,
      transformAll_none hinput hn (by omega) (by omega)]
    rfl
  rw [md5Update, hnone]
  rfl

end Update

section Final
variable {c : Ctx} {m : Bytes}

theorem encode_words (x y : UInt32) : encode [x, y] = (be 8 (y.toNat * 2 ^ 32 + x.toNat)).reverse := by
  have hx := x.toNat_lt
  have hy := y.toNat_lt
  simp only [encode, be, List.flatMap_cons, List.flatMap_nil, List.reverse_cons, List.reverse_nil, List.nil_append,
    List.cons_append, List.append_nil, List.cons.injEq, and_true, ← UInt8.toNat_inj, UInt32.toNat_toUInt8,
    UInt32.toNat_shiftRight, UInt8.toNat_ofNat', UInt32.reduceToNat, Nat.reduceMod, Nat.shiftRight_eq_div_pow,
    Nat.reducePow]
  omega

/-- `PADDING` fills up to eight bytes before the end of a block. -/
theorem padding_take {k : ℕ} (hk : k < 64) :
    padding.take (if k < 56 then 56 - k else 120 - k) = 0x80 :: List.replicate ((119 - k) % 64) 0 := by
  obtain ⟨j, hj, hmod⟩ : ∃ j, (if k < 56 then 56 - k else 120 - k) = j + 1 ∧ (119 - k) % 64 = j := by
    split
    · exact ⟨55 - k, by omega, by omega⟩
    · exact ⟨119 - k, by omega, by omega⟩
  rw [hj, hmod, padding, List.take_succ_cons, List.take_replicate, Nat.min_eq_left (by omega)]

/-- `MD5Final` gives the digest of the message. -/
theorem Holds.final (hc : Holds c m) : md5Final c = some (digest m) := by
  have hk := Nat.mod_lt m.length (y := 64) (by decide)
  have hbits : encode [c.count0, c.count1] = (be 8 (8 * m.length)).reverse := by
    have hmod : be 8 (8 * m.length % 256 ^ 8) = be 8 (8 * m.length) := word_inj (by simp) (by simp [word_be])
    rw [encode_words, hc.count, ← hmod]
    rfl
  have hfill := padding_take hk
  have hlen : (if m.length % 64 < 56 then 56 - m.length % 64 else 120 - m.length % 64) ≤ 64 := by split <;> omega
  rw [md5Final, hc.index]
  generalize (if m.length % 64 < 56 then 56 - m.length % 64 else 120 - m.length % 64) = padLen at hfill hlen ⊢
  obtain ⟨c₁, hpad, h₁⟩ := @Holds.update c m padding padLen hc (by simpa [padding] using hlen) (by omega)
  obtain ⟨c₂, hlast, h₂⟩ := @Holds.update c₁ _ (encode [c.count0, c.count1]) 8 h₁ (by simp [hbits]) (by omega)
  have hpadded : m ++ padding.take padLen ++ (encode [c.count0, c.count1]).take 8 = padded m := by
    rw [hfill, hbits, padded, List.take_of_length_le (by simp)]
  rw [hpadded] at h₂
  simp only [Option.bind_eq_bind, hpad, Option.bind_some, hlast, digest, ← h₂.state]
  rfl

end Final

/-- The pieces of a message: memory, and how many bytes of it belong to the message. -/
def message (pieces : List (Bytes × ℕ)) : Bytes := pieces.flatMap fun p => p.1.take p.2

/-- Every piece can be counted through in 32 bits behind the `k` bytes before it. -/
def Fits : ℕ → List (Bytes × ℕ) → Prop
  | _, [] => True
  | k, p :: pieces => k % 64 + p.2 < 2 ^ 32 ∧ Fits (k + p.2) pieces

def md5Updates (c : Ctx) (pieces : List (Bytes × ℕ)) : Option Ctx := pieces.foldlM (fun c p => md5Update c p.1 p.2) c

theorem length_digest (m : Bytes) : (digest m).length = 16 := by
  simp [digest, State.words, encode]

/-- A message in one piece, of any length an `unsigned int` has. -/
theorem md5Signature_eq {stack key : Bytes} {length : ℕ} (hstack : stack.length = 64) (hkey : length ≤ key.length)
    (hlt : length < 2 ^ 32) : md5Signature stack key length = some (digest (key.take length)) := by
  obtain ⟨c, hupdate, hholds⟩ := (holds_init hstack).update hkey (by simpa using hlt)
  rw [md5Signature, hupdate, Option.bind_eq_bind, Option.bind_some, hholds.final, List.nil_append]

section Pieces
variable {c : Ctx} {m stack : Bytes} {pieces : List (Bytes × ℕ)}

theorem Holds.updates (hc : Holds c m) (hpieces : ∀ p ∈ pieces, p.2 ≤ p.1.length) (hfits : Fits m.length pieces) :
    ∃ c', md5Updates c pieces = some c' ∧ Holds c' (m ++ message pieces) := by
  induction pieces generalizing c m with
  | nil => exact ⟨c, rfl, by rwa [message, List.flatMap_nil, List.append_nil]⟩
  | cons p pieces ih =>
    have hinput := hpieces p List.mem_cons_self
    have hlen : (m ++ p.1.take p.2).length = m.length + p.2 := by
      rw [List.length_append, List.length_take, Nat.min_eq_left hinput]
    obtain ⟨c₁, hupdate, h₁⟩ := hc.update hinput hfits.1
    obtain ⟨c₂, hrest, h₂⟩ := ih h₁ (fun q hq => hpieces q (List.mem_cons_of_mem p hq)) (hlen ▸ hfits.2)
    refine ⟨c₂, ?_, ?_⟩
    · rw [md5Updates, List.foldlM_cons, hupdate]
      exact hrest
    · rwa [message, List.flatMap_cons, ← List.append_assoc]

theorem Holds.updates_none (hc : Holds c m) (hpieces : ∀ p ∈ pieces, p.2 = p.1.length ∧ p.2 < 2 ^ 32)
    (hwrap : ¬ Fits m.length pieces) : md5Updates c pieces = none := by
  induction pieces generalizing c m with
  | nil => exact absurd trivial hwrap
  | cons p pieces ih =>
    obtain ⟨hinput, hn⟩ := hpieces p List.mem_cons_self
    rw [md5Updates, List.foldlM_cons]
    by_cases hfirst : m.length % 64 + p.2 < 2 ^ 32
    · have hlen : (m ++ p.1.take p.2).length = m.length + p.2 := by
        rw [List.length_append, List.length_take, Nat.min_eq_left hinput.le]
      obtain ⟨c₁, hupdate, h₁⟩ := hc.update hinput.le hfirst
      rw [hupdate]
      exact ih h₁ (fun q hq => hpieces q (List.mem_cons_of_mem p hq)) fun h => hwrap ⟨hfirst, hlen ▸ h⟩
    · rw [hc.update_none hinput.symm hn (by omega)]
      rfl

/-- However a message is cut into pieces, and whatever the stack held before, the digest is the one of the
message, as long as no piece goes past 2^32 bytes with the rest of the block before it; a piece that does
is read past its end. -/
theorem md5_pieces (hstack : stack.length = 64) (hpieces : ∀ p ∈ pieces, p.2 ≤ p.1.length ∧ p.2 < 2 ^ 32) :
    (Fits 0 pieces → (md5Updates (md5Init stack) pieces).bind md5Final = some (digest (message pieces))) ∧
      (¬ Fits 0 pieces → (∀ p ∈ pieces, p.2 = p.1.length) → md5Updates (md5Init stack) pieces = none) := by
  constructor
  · intro hfits
    obtain ⟨c, hc, hholds⟩ := (holds_init hstack).updates (fun p hp => (hpieces p hp).1) hfits
    rw [hc, Option.bind_some, hholds.final, List.nil_append]
  · exact fun hwrap hexact => (holds_init hstack).updates_none (fun p hp => ⟨hexact p hp, (hpieces p hp).2⟩) hwrap

/-- "abc" in two pieces, the first with more memory behind it. -/
theorem md5_pieces_abc :
    (md5Updates (md5Init (List.replicate 64 0)) [([97, 98, 120], 2), ([99], 1)]).bind md5Final =
      some (digest [97, 98, 99]) :=
  (md5_pieces (by decide) (by decide)).1 ⟨by decide, by decide, trivial⟩

end Pieces

end Cmoon.Md5Digests
