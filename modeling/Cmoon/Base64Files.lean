import Cmoon.BlockStreams
import Cmoon.ByteBuffers

/-! # Files in base64 (`mb64.c`)

`mb64_encode` writes a file in lines of groups of four characters, `mb64_decode` reads the characters of
the alphabet and skips all else. Both read with `getc` until `feof`. -/
namespace Cmoon.Base64Files
open DecimalText ByteBuffers BlockStreams

/-- A file that is read: what is left of it, and whether a read has met its end. -/
structure File where
  left : Bytes
  eof : Bool

/-- The file after `fseek(infile, 0, SEEK_SET)`. -/
def File.rewound (content : Bytes) : File := ⟨content, false⟩

/-- `(unsigned char) getc(infile)`; the end of the file is -1. -/
def File.getc (f : File) : UInt8 × File :=
  match f.left with
  | [] => (255, { f with eof := true })
  | x :: left => (x, { f with left := left })

def cb64 : Bytes :=
  [65, 66, 67, 68, 69, 70, 71, 72, 73, 74, 75, 76, 77, 78, 79, 80, 81, 82, 83, 84, 85, 86, 87, 88, 89, 90,
    97, 98, 99, 100, 101, 102, 103, 104, 105, 106, 107, 108, 109, 110, 111, 112, 113, 114, 115, 116, 117, 118, 119, 120,
    121, 122, 48, 49, 50, 51, 52, 53, 54, 55, 56, 57, 43, 47]

def char64 (x : UInt8) : UInt8 := cb64.getD x.toNat 0

def pad : UInt8 := 61

def mb64Encodeblock (a b c : UInt8) (len : ℕ) : Bytes :=
  [char64 (a >>> 2), char64 (((a &&& 0x03) <<< 4) ||| ((b &&& 0xf0) >>> 4)),
    if len > 1 then char64 (((b &&& 0x0f) <<< 2) ||| ((c &&& 0xc0) >>> 6)) else pad,
    if len > 2 then char64 (c &&& 0x3f) else pad]

/-- One turn of the loop that fills `in`, with what it adds to `len`. -/
def File.getByte (f : File) : UInt8 × ℕ × File :=
  let (x, f) := f.getc
  if !f.eof then (x, 1, f) else (0, 0, f)

def crlf : Bytes := [13, 10]

/-- The loop of `mb64_encode`; `fuel` bounds its turns. -/
def encodeLoop (linesize : ℤ) : ℕ → File → ℕ → Option Bytes
  | 0, _, _ => none
  | fuel + 1, f, blocksout =>
    if f.eof then some []
    else
      let (a, n₀, f) := f.getByte
      let (b, n₁, f) := f.getByte
      let (c, n₂, f) := f.getByte
      let len := n₀ + n₁ + n₂
      let (out, blocksout) := if len ≠ 0 then (mb64Encodeblock a b c len, blocksout + 1) else ([], blocksout)
      let (line, blocksout) :=
        if (blocksout : ℤ) ≥ linesize.tdiv 4 ∨ f.eof then (if blocksout ≠ 0 then crlf else [], 0) else ([], blocksout)
      (encodeLoop linesize fuel f blocksout).map (out ++ line ++ ·)

/-- `mb64_encode`; each turn but the last reads a byte. -/
def mb64Encode (content : Bytes) (linesize : ℤ) : Option Bytes :=
  encodeLoop linesize (content.length + 2) (.rewound content) 0

/-- "|$$$}rstuvwxyz{$$$$$$$>?@ABCDEFGHIJKLMNOPQRSTUVW$$$$$$XYZ[\\]^_`abcdefghijklmnopq" -/
def cd64 : Bytes :=
  [124, 36, 36, 36, 125, 114, 115, 116, 117, 118, 119, 120, 121, 122, 123, 36, 36, 36, 36, 36, 36, 36,
    62, 63, 64, 65, 66, 67, 68, 69, 70, 71, 72, 73, 74, 75, 76, 77, 78, 79, 80, 81, 82, 83, 84, 85, 86, 87,
    36, 36, 36, 36, 36, 36, 88, 89, 90, 91, 92, 93, 94, 95, 96, 97, 98, 99, 100, 101, 102, 103, 104, 105, 106, 107,
    108, 109, 110, 111, 112, 113]

/-- What the two statements under `getc` make of a byte: its number and one, or zero for noise. -/
def value (x : UInt8) : UInt8 :=
  let v := if x < 43 ∨ x > 122 then 0 else cd64.getD (x - 43).toNat 0
  if v ≠ 0 then if v = 36 then 0 else v - 61 else 0

/-- `while (!feof(infile) && v == 0)`, on what is left of the file. -/
def nextValue : Bytes → UInt8 × File
  | [] => (value 255, ⟨[], true⟩)
  | x :: left => if value x = 0 then nextValue left else (value x, ⟨left, false⟩)

/-- The loop that fills `in[i]` on: `in`, `len` and the file. -/
def fillIn : ℕ → ℕ → Bytes → ℕ → File → Bytes × ℕ × File
  | 0, _, inb, len, f => (inb, len, f)
  | turns + 1, i, inb, len, f =>
    if f.eof then (inb, len, f)
    else
      let (v, f) := nextValue f.left
      if !f.eof then fillIn turns (i + 1) (if v ≠ 0 then inb.set i (v - 1) else inb) (len + 1) f
      else fillIn turns (i + 1) (inb.set i 0) len f

def mb64Decodeblock (inb : Bytes) : Bytes :=
  [(inb.getD 0 0 <<< 2) ||| (inb.getD 1 0 >>> 4), (inb.getD 1 0 <<< 4) ||| (inb.getD 2 0 >>> 2),
    ((inb.getD 2 0 <<< 6) &&& 0xc0) ||| inb.getD 3 0]

/-- The loop of `mb64_decode`; `fuel` bounds its turns. -/
def decodeLoop : ℕ → Bytes → File → Option Bytes
  | 0, _, _ => none
  | fuel + 1, inb, f =>
    if f.eof then some []
    else
      let (inb, len, f) := fillIn 4 0 inb 0 f
      let out := if len ≠ 0 then (mb64Decodeblock inb).take (len - 1) else []
      (decodeLoop fuel inb f).map (out ++ ·)

/-- `mb64_decode`, with whatever `in` holds before. -/
def mb64Decode (inb : Bytes) (content : Bytes) : Option Bytes :=
  decodeLoop (content.length + 2) inb (.rewound content)

example : mb64Encode [102, 111, 111, 98] 4 = some [90, 109, 57, 118, 13, 10, 89, 103, 61, 61, 13, 10] := by decide
example : mb64Decode [1, 2, 3, 4] [90, 109, 57, 118, 13, 10, 89, 103, 61, 61, 13, 10] = some [102, 111, 111, 98] := by
  decide

/-- The numbers that the characters of the alphabet in a text stand for. -/
def sextets (t : Bytes) : Bytes := (t.filter (value · ≠ 0)).map (value · - 1)

/-- Four numbers of six bits make three bytes; bits that fill no byte are dropped. -/
def join : Bytes → Bytes
  | a :: b :: c :: d :: l => mb64Decodeblock [a, b, c, d] ++ join l
  | [a, b, c] => [(a <<< 2) ||| (b >>> 4), (b <<< 4) ||| (c >>> 2)]
  | [a, b] => [(a <<< 2) ||| (b >>> 4)]
  | _ => []

theorem sextets_append (t u : Bytes) : sextets (t ++ u) = sextets t ++ sextets u := by
  simp [sextets]

theorem sextets_cons (x : UInt8) (t : Bytes) :
    sextets (x :: t) = if value x = 0 then sextets t else (value x - 1) :: sextets t := by
  by_cases h : value x = 0 <;> simp [sextets, h]

theorem nextValue_none {l : Bytes} (h : sextets l = []) : nextValue l = (0, ⟨[], true⟩) := by
  induction l with
  | nil => rfl
  | cons x l ih =>
    rw [sextets_cons] at h
    split at h
    · rename_i hx
      rw [nextValue, if_pos hx, ih h]
    · cases h

theorem nextValue_some {l : Bytes} {v : UInt8} {vs : Bytes} (h : sextets l = v :: vs) :
    ∃ x left, nextValue l = (x, ⟨left, false⟩) ∧ x ≠ 0 ∧ x - 1 = v ∧ sextets left = vs ∧ left.length < l.length := by
  induction l with
  | nil => cases h
  | cons x l ih =>
    rw [sextets_cons] at h
    split at h
    · rename_i hx
      obtain ⟨y, left, hnext, hy, hv, hvs, hless⟩ := ih h
      exact ⟨y, left, by rw [nextValue, if_pos hx, hnext], hy, hv, hvs, Nat.lt_succ_of_lt hless⟩
    · rename_i hx
      obtain ⟨rfl, rfl⟩ := List.cons.inj h
      exact ⟨value x, l, by rw [nextValue, if_neg hx], hx, rfl, rfl, Nat.lt_succ_self _⟩

section Decoding
variable {turns i len : ℕ} {inb l : Bytes}

theorem fillIn_some (turns i len : ℕ) (inb : Bytes) {v : UInt8} {vs : Bytes} (h : sextets l = v :: vs) :
    ∃ left, fillIn (turns + 1) i inb len ⟨l, false⟩ = fillIn turns (i + 1) (inb.set i v) (len + 1) ⟨left, false⟩ ∧
      sextets left = vs ∧ left.length < l.length := by
  obtain ⟨x, left, hnext, hx, rfl, hvs, hless⟩ := nextValue_some h
  exact ⟨left, by simp [fillIn, hnext, hx], hvs, hless⟩

theorem fillIn_none (h : sextets l = []) :
    fillIn (turns + 1) i inb len ⟨l, false⟩ = (inb.set i 0, len, ⟨[], true⟩) := by
  cases turns <;> simp [fillIn, nextValue_none h]

theorem fillIn_zero (f : File) : fillIn 0 i inb len f = (inb, len, f) := rfl

theorem decodeLoop_eof {fuel : ℕ} (inb left : Bytes) : decodeLoop (fuel + 1) inb ⟨left, true⟩ = some [] := rfl

/-- `mb64_decode` joins the numbers of the characters it finds, whatever stands between them, and whatever
`in` holds before. -/
theorem decodeLoop_eq {fuel : ℕ} (hin : inb.length = 4) (hfuel : l.length + 2 ≤ fuel) :
    decodeLoop fuel inb ⟨l, false⟩ = some (join (sextets l)) := by
  induction fuel using Nat.strongRecOn generalizing inb l with
  | ind fuel ih =>
    obtain ⟨fuel, rfl⟩ : ∃ n, fuel = n + 2 := ⟨fuel - 2, by omega⟩
    obtain ⟨i₀, i₁, i₂, i₃, rfl⟩ : ∃ a b c d, inb = [a, b, c, d] := by
      match inb, hin with
      | [a, b, c, d], _ => exact ⟨a, b, c, d, rfl⟩
    rw [decodeLoop]
    cases h₀ : sextets l with
    | nil => simp [fillIn_none h₀, decodeLoop_eof, join]
    | cons v₀ vs₀ =>
      obtain ⟨l₁, hfill₁, rfl, hless₁⟩ := fillIn_some 3 0 0 [i₀, i₁, i₂, i₃] h₀
      cases h₁ : sextets l₁ with
      | nil => simp [hfill₁, fillIn_none h₁, decodeLoop_eof, join]
      | cons v₁ vs₁ =>
        obtain ⟨l₂, hfill₂, rfl, hless₂⟩ := fillIn_some 2 1 1 [v₀, i₁, i₂, i₃] h₁
        cases h₂ : sextets l₂ with
        | nil => simp [hfill₁, hfill₂, fillIn_none h₂, decodeLoop_eof, join, mb64Decodeblock]
        | cons v₂ vs₂ =>
          obtain ⟨l₃, hfill₃, rfl, hless₃⟩ := fillIn_some 1 2 2 [v₀, v₁, i₂, i₃] h₂
          cases h₃ : sextets l₃ with
          | nil => simp [hfill₁, hfill₂, hfill₃, fillIn_none h₃, decodeLoop_eof, join, mb64Decodeblock]
          | cons v₃ vs₃ =>
            obtain ⟨l₄, hfill₄, rfl, hless₄⟩ := fillIn_some 0 3 3 [v₀, v₁, v₂, i₃] h₃
            have hrest := @ih (fuel + 1) (Nat.lt_succ_self _) [v₀, v₁, v₂, v₃] l₄ rfl (by omega)
            simp [hfill₁, hfill₂, hfill₃, hfill₄, fillIn_zero, hrest, join, mb64Decodeblock]

end Decoding

def groups : Bytes → List Bytes
  | a :: b :: c :: l => mb64Encodeblock a b c 3 :: groups l
  | [a, b] => [mb64Encodeblock a b 0 2]
  | [a] => [mb64Encodeblock a 0 0 1]
  | [] => []

def lineGroups (linesize : ℤ) : ℕ := max 1 (linesize.tdiv 4).toNat

/-- Lines of `q` groups, and a last one with what is left. -/
def wrapped (q : ℕ) (gs : List Bytes) : Bytes :=
  (blocks q gs).flatMap (fun l => l.flatten ++ crlf) ++
    if rest q gs = [] then [] else (rest q gs).flatten ++ crlf

/-- The lines behind the groups `ps` of a line that is not full yet. -/
def emit (q : ℕ) : ℕ → List Bytes → Bytes
  | k, [] => if k ≠ 0 then crlf else []
  | k, g :: gs => g ++ if q ≤ k + 1 then crlf ++ emit q 0 gs else emit q (k + 1) gs

theorem emit_eq {q : ℕ} (ps gs : List Bytes) (hps : ps.length < q) :
    ps.flatten ++ emit q ps.length gs = wrapped q (ps ++ gs) := by
  induction gs generalizing ps with
  | nil =>
    rw [List.append_nil, wrapped, blocks_of_lt hps, rest_of_lt hps, emit]
    cases ps <;> simp
  | cons g gs ih =>
    have hsplit : ps ++ g :: gs = (ps ++ [g]) ++ gs := by simp
    have hlen : (ps ++ [g]).length = ps.length + 1 := by simp
    rw [emit]
    split
    · rename_i hfull
      have hline : (ps ++ [g]).length = q := by omega
      have hrest := ih [] (Nat.zero_lt_of_lt hps)
      rw [List.flatten_nil, List.nil_append, List.nil_append, List.length_nil] at hrest
      rw [hsplit, wrapped, blocks_cons (Nat.zero_lt_of_lt hps) hline, rest_cons hline, List.flatMap_cons, hrest, wrapped]
      simp
    · have hrest := ih (ps ++ [g]) (by omega)
      rw [hsplit, ← hrest, hlen]
      simp

theorem getByte_nil : File.getByte ⟨[], false⟩ = (0, 0, ⟨[], true⟩) := rfl

theorem getByte_eof : File.getByte ⟨[], true⟩ = (0, 0, ⟨[], true⟩) := rfl

theorem getByte_cons (x : UInt8) (l : Bytes) : File.getByte ⟨x :: l, false⟩ = (x, 1, ⟨l, false⟩) := rfl

theorem encodeLoop_eof {linesize : ℤ} {fuel : ℕ} (left : Bytes) (k : ℕ) :
    encodeLoop linesize (fuel + 1) ⟨left, true⟩ k = some [] := rfl

/-- The loop of `mb64_encode` in the middle of a line. -/
theorem encodeLoop_eq {linesize : ℤ} {fuel k : ℕ} {l : Bytes} (hfuel : l.length + 2 ≤ fuel) (hk : k < lineGroups linesize) :
    encodeLoop linesize fuel ⟨l, false⟩ k = some (emit (lineGroups linesize) k (groups l)) := by
  induction fuel using Nat.strongRecOn generalizing k l with
  | ind fuel ih =>
    obtain ⟨fuel, rfl⟩ : ∃ n, fuel = n + 2 := ⟨fuel - 2, by omega⟩
    have hfull : linesize.tdiv 4 ≤ (k : ℤ) + 1 ↔ lineGroups linesize ≤ k + 1 := by
      rw [lineGroups]
      omega
    rw [encodeLoop]
    match l with
    | [] => by_cases h0 : k = 0 <;> simp [getByte_nil, getByte_eof, encodeLoop_eof, groups, emit, h0]
    | [a] => simp [getByte_cons, getByte_nil, getByte_eof, encodeLoop_eof, groups, emit]
    | [a, b] => simp [getByte_cons, getByte_nil, encodeLoop_eof, groups, emit]
    | a :: b :: c :: l =>
      have hlen : l.length + 2 ≤ fuel + 1 := by
        simp only [List.length_cons] at hfuel
        omega
      by_cases hline : lineGroups linesize ≤ k + 1
      · have hrest := ih (fuel + 1) (Nat.lt_succ_self _) (l := l) (k := 0) hlen (by rw [lineGroups]; omega)
        simp [getByte_cons, groups, emit, hfull, hline, hrest]
      · have hrest := ih (fuel + 1) (Nat.lt_succ_self _) (l := l) (k := k + 1) hlen (by omega)
        simp [getByte_cons, groups, emit, hfull, hline, hrest]

/-- `mb64_encode` writes the groups of a file, in lines of a quarter of `linesize`, or one, that all end in
CRLF; a file without bytes has no line. -/
theorem mb64Encode_eq (content : Bytes) (linesize : ℤ) :
    mb64Encode content linesize = some (wrapped (lineGroups linesize) (groups content)) := by
  have hq : 0 < lineGroups linesize := by rw [lineGroups]; omega
  have hemit := emit_eq [] (groups content) hq
  rw [List.flatten_nil, List.nil_append, List.nil_append, List.length_nil] at hemit
  rw [mb64Encode, File.rewound, encodeLoop_eq (Nat.le_refl _) hq, hemit]

def sextetsOf : Bytes → Bytes
  | a :: b :: c :: l =>
    (a >>> 2) :: (((a &&& 0x03) <<< 4) ||| ((b &&& 0xf0) >>> 4)) ::
      (((b &&& 0x0f) <<< 2) ||| ((c &&& 0xc0) >>> 6)) :: (c &&& 0x3f) :: sextetsOf l
  | [a, b] =>
    [a >>> 2, ((a &&& 0x03) <<< 4) ||| ((b &&& 0xf0) >>> 4), ((b &&& 0x0f) <<< 2) ||| (((0 : UInt8) &&& 0xc0) >>> 6)]
  | [a] => [a >>> 2, ((a &&& 0x03) <<< 4) ||| (((0 : UInt8) &&& 0xf0) >>> 4)]
  | [] => []

theorem sextets_char64 {x : UInt8} (hx : x < 64) (t : Bytes) : sextets (char64 x :: t) = x :: sextets t := by
  have hchar : ∀ b : BitVec 8, UInt8.ofBitVec b < 64 →
      value (char64 (.ofBitVec b)) ≠ 0 ∧ value (char64 (.ofBitVec b)) - 1 = .ofBitVec b := by decide +kernel
  obtain ⟨hne, hval⟩ := hchar x.toBitVec hx
  rw [sextets_cons, if_neg hne, hval]

theorem or_lt {x y : UInt8} (hx : x < 64) (hy : y < 64) : x ||| y < 64 := by
  rw [UInt8.lt_iff_toNat_lt] at hx hy ⊢
  rw [UInt8.toNat_or]
  exact Nat.or_lt_two_pow (n := 6) hx hy

theorem shifted_lt (x : UInt8) :
    x >>> 2 < 64 ∧ (x &&& 0x03) <<< 4 < 64 ∧ (x &&& 0xf0) >>> 4 < 64 ∧ (x &&& 0x0f) <<< 2 < 64 ∧
      (x &&& 0xc0) >>> 6 < 64 ∧ x &&& 0x3f < 64 :=
  forall_byte (P := fun x => x >>> 2 < 64 ∧ (x &&& 0x03) <<< 4 < 64 ∧ (x &&& 0xf0) >>> 4 < 64 ∧
    (x &&& 0x0f) <<< 2 < 64 ∧ (x &&& 0xc0) >>> 6 < 64 ∧ x &&& 0x3f < 64) (by decide +kernel) x

theorem sextets_first (a b : UInt8) (t : Bytes) :
    sextets (char64 (a >>> 2) :: char64 (((a &&& 0x03) <<< 4) ||| ((b &&& 0xf0) >>> 4)) :: t) =
      (a >>> 2) :: (((a &&& 0x03) <<< 4) ||| ((b &&& 0xf0) >>> 4)) :: sextets t := by
  obtain ⟨h₁, h₂, -⟩ := shifted_lt a
  obtain ⟨-, -, h₃, -⟩ := shifted_lt b
  rw [sextets_char64 h₁, sextets_char64 (or_lt h₂ h₃)]

theorem sextets_third (b c : UInt8) (t : Bytes) :
    sextets (char64 (((b &&& 0x0f) <<< 2) ||| ((c &&& 0xc0) >>> 6)) :: t) =
      (((b &&& 0x0f) <<< 2) ||| ((c &&& 0xc0) >>> 6)) :: sextets t := by
  obtain ⟨-, -, -, h₁, -⟩ := shifted_lt b
  obtain ⟨-, -, -, -, h₂, -⟩ := shifted_lt c
  rw [sextets_char64 (or_lt h₁ h₂)]

theorem sextets_groups (content : Bytes) : sextets (groups content).flatten = sextetsOf content := by
  fun_induction groups content with
  | case1 a b c l ih =>
    have hlast := (shifted_lt c).2.2.2.2.2
    simp [mb64Encodeblock, sextets_first, sextets_third, sextets_char64 hlast, ih, sextetsOf]
  | case2 a b =>
    have hgroup := sextets_first a b [char64 (((b &&& 0x0f) <<< 2) ||| (((0 : UInt8) &&& 0xc0) >>> 6)), pad]
    rw [sextets_third] at hgroup
    exact hgroup
  | case3 a => exact sextets_first a 0 [pad, pad]
  | case4 => rfl

theorem first_byte (a b : UInt8) :
    (a >>> 2 <<< 2) ||| ((((a &&& 0x03) <<< 4) ||| ((b &&& 0xf0) >>> 4)) >>> 4) = a := by
  have ha := forall_byte (P := fun a => (a >>> 2 <<< 2) ||| (((a &&& 0x03) <<< 4) >>> 4) = a) (by decide +kernel) a
  have hb := forall_byte (P := fun b => ((b &&& 0xf0) >>> 4) >>> 4 = 0) (by decide +kernel) b
  rw [UInt8.shiftRight_or, hb, UInt8.or_zero, ha]

theorem second_byte (a b c : UInt8) :
    ((((a &&& 0x03) <<< 4) ||| ((b &&& 0xf0) >>> 4)) <<< 4) |||
      ((((b &&& 0x0f) <<< 2) ||| ((c &&& 0xc0) >>> 6)) >>> 2) = b := by
  have ha := forall_byte (P := fun a => ((a &&& 0x03) <<< 4) <<< 4 = 0) (by decide +kernel) a
  have hb := forall_byte (P := fun b => (((b &&& 0xf0) >>> 4) <<< 4) ||| (((b &&& 0x0f) <<< 2) >>> 2) = b)
    (by decide +kernel) b
  have hc := forall_byte (P := fun c => ((c &&& 0xc0) >>> 6) >>> 2 = 0) (by decide +kernel) c
  rw [UInt8.shiftLeft_or, UInt8.shiftRight_or, ha, hc, UInt8.zero_or, UInt8.or_zero, hb]

theorem third_byte (b c : UInt8) :
    (((((b &&& 0x0f) <<< 2) ||| ((c &&& 0xc0) >>> 6)) <<< 6) &&& 0xc0) ||| (c &&& 0x3f) = c := by
  have hb := forall_byte (P := fun b => ((b &&& 0x0f) <<< 2) <<< 6 = 0) (by decide +kernel) b
  have hc := forall_byte (P := fun c => ((((c &&& 0xc0) >>> 6) <<< 6) &&& 0xc0) ||| (c &&& 0x3f) = c) (by decide +kernel) c
  rw [UInt8.shiftLeft_or, hb, UInt8.zero_or, hc]

theorem join_sextetsOf (content : Bytes) : join (sextetsOf content) = content := by
  fun_induction sextetsOf content with
  | case1 a b c l ih =>
    simp [join, mb64Decodeblock, first_byte, second_byte, third_byte, ih]
  | case2 a b => rw [join, first_byte, second_byte]
  | case3 a => rw [join, first_byte]
  | case4 => rfl

theorem sextets_crlf (t : Bytes) : sextets (t ++ crlf) = sextets t := by
  have hcrlf : sextets crlf = [] := rfl
  rw [sextets_append, hcrlf, List.append_nil]

theorem sextets_wrapped {q : ℕ} (hq : 0 < q) (gs : List Bytes) : sextets (wrapped q gs) = sextets gs.flatten := by
  have hlines : ∀ ls : List (List Bytes),
      sextets (ls.flatMap fun l => l.flatten ++ crlf) = sextets ls.flatten.flatten := by
    intro ls
    induction ls with
    | nil => rfl
    | cons l ls ih => rw [List.flatMap_cons, sextets_append, sextets_crlf, ih, List.flatten_cons, List.flatten_append,
        sextets_append]
  have hlast : sextets (if rest q gs = [] then [] else (rest q gs).flatten ++ crlf) = sextets (rest q gs).flatten := by
    split
    · rename_i hnil
      rw [hnil, List.flatten_nil]
    · rw [sextets_crlf]
  rw [wrapped, sextets_append, hlines, hlast, ← sextets_append, ← List.flatten_append, ← (cut hq gs).eq]

/-- A file comes back from its encoding, whatever the size of the lines; what is no character of the
alphabet may be put in or taken out anywhere on the way, and it does not matter what `in` holds before. -/
theorem mb64_round_trip {content encoded t inb : Bytes} {linesize : ℤ} (hin : inb.length = 4)
    (hencoded : mb64Encode content linesize = some encoded)
    (ht : t.filter (value · ≠ 0) = encoded.filter (value · ≠ 0)) : mb64Decode inb t = some content := by
  have hq : 0 < lineGroups linesize := by rw [lineGroups]; omega
  rw [mb64Encode_eq, Option.some.injEq] at hencoded
  have hsextets : sextets t = sextetsOf content := by
    rw [sextets, ht, ← hencoded]
    exact (sextets_wrapped hq _).trans (sextets_groups content)
  rw [mb64Decode, File.rewound, decodeLoop_eq hin (Nat.le_refl _), hsextets, join_sextetsOf]

/-- "foob" in one line, with a space and without the padding. -/
theorem mb64_round_trip_foob :
    mb64Decode [1, 2, 3, 4] [90, 109, 57, 32, 118, 89, 103] = some [102, 111, 111, 98] :=
  @mb64_round_trip [102, 111, 111, 98] [90, 109, 57, 118, 89, 103, 61, 61, 13, 10] _ _ 76 rfl (by decide) (by decide)

theorem length_groups (content : Bytes) : (groups content).length = (content.length + 2) / 3 := by
  fun_induction groups content with
  | case1 a b c l ih =>
    simp only [List.length_cons, ih]
    omega
  | _ => simp

theorem char64_mem (x : UInt8) (hx : x < 64) : char64 x ∈ cb64 :=
  forall_byte (P := fun x => x < 64 → char64 x ∈ cb64) (by decide +kernel) x hx

theorem groups_spec (content : Bytes) : ∀ g ∈ groups content, g.length = 4 ∧ ∀ c ∈ g, c ∈ cb64 ∨ c = pad := by
  have hblock : ∀ (a b c : UInt8) (len : ℕ), (mb64Encodeblock a b c len).length = 4 ∧
      ∀ x ∈ mb64Encodeblock a b c len, x ∈ cb64 ∨ x = pad := by
    intro a b c len
    refine ⟨rfl, ?_⟩
    obtain ⟨ha, ha', -⟩ := shifted_lt a
    obtain ⟨-, -, hb, hb', -⟩ := shifted_lt b
    obtain ⟨-, -, -, -, hc, hc'⟩ := shifted_lt c
    simp only [mb64Encodeblock, List.forall_mem_cons, List.not_mem_nil, false_implies, implies_true, and_true]
    refine ⟨.inl (char64_mem _ ha), .inl (char64_mem _ (or_lt ha' hb)), ?_, ?_⟩
    · split
      · exact .inl (char64_mem _ (or_lt hb' hc))
      · exact .inr rfl
    · split
      · exact .inl (char64_mem _ hc')
      · exact .inr rfl
  fun_induction groups content with
  | case1 a b c l ih => exact List.forall_mem_cons.mpr ⟨hblock a b c 3, ih⟩
  | case2 a b => exact List.forall_mem_cons.mpr ⟨hblock a b 0 2, by simp⟩
  | case3 a => exact List.forall_mem_cons.mpr ⟨hblock a 0 0 1, by simp⟩
  | case4 => simp

theorem length_flatten_groups {gs : List Bytes} (h : ∀ g ∈ gs, g.length = 4) : gs.flatten.length = 4 * gs.length := by
  induction gs with
  | nil => rfl
  | cons g gs ih =>
    obtain ⟨hg, hgs⟩ := List.forall_mem_cons.mp h
    rw [List.flatten_cons, List.length_append, hg, ih hgs, List.length_cons]
    omega

/-- The encoding of a file is in lines that end in CRLF, all as long as `linesize` allows in whole groups but
the last, and no line is empty; they hold four characters for each three bytes or part of three. -/
theorem mb64Encode_lines (content : Bytes) (linesize : ℤ) : ∃ (lines : List Bytes) (last : Bytes),
    mb64Encode content linesize = some (lines.flatMap (· ++ crlf) ++ if last = [] then [] else last ++ crlf) ∧
      (∀ l ∈ lines, l.length = 4 * lineGroups linesize) ∧ last.length < 4 * lineGroups linesize ∧
      (lines.flatten ++ last).length = 4 * ((content.length + 2) / 3) ∧
      ∀ c ∈ lines.flatten ++ last, c ∈ cb64 ∨ c = pad := by
  have hq : 0 < lineGroups linesize := by rw [lineGroups]; omega
  have hspec := groups_spec content
  obtain ⟨heq, hwhole, hshort⟩ := cut hq (groups content)
  have hall : ((blocks (lineGroups linesize) (groups content)).map List.flatten).flatten ++
      (rest (lineGroups linesize) (groups content)).flatten = (groups content).flatten := by
    nth_rewrite 3 [heq]
    rw [List.flatten_append, List.flatten_flatten]
  have hlength := length_flatten_groups fun g hg => (hspec g hg).1
  have hlast := length_flatten_groups fun g hg => (hspec g (heq ▸ List.mem_append_right _ hg)).1
  refine ⟨_, _, ?_, ?_, ?_, hall ▸ hlength.trans (by rw [length_groups]), ?_⟩
  · have hempty : (rest (lineGroups linesize) (groups content)).flatten = [] ↔
        rest (lineGroups linesize) (groups content) = [] := by
      rw [← List.length_eq_zero_iff, hlast, ← List.length_eq_zero_iff]
      omega
    simp only [mb64Encode_eq, wrapped, List.flatMap_map, hempty]
  · rintro l hl
    obtain ⟨gs, hgs, rfl⟩ := List.mem_map.mp hl
    rw [length_flatten_groups fun g hg => (hspec g (heq ▸ List.mem_append_left _ (List.mem_flatten_of_mem hgs hg))).1,
      hwhole gs hgs]
  · rw [hlast]
    omega
  · rw [hall]
    intro c hc
    obtain ⟨g, hg, hcg⟩ := List.mem_flatten.mp hc
    exact (hspec g hg).2 c hcg

end Cmoon.Base64Files
