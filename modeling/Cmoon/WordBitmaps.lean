import Cmoon.ByteBuffers
import Mathlib.Logic.Function.Basic

/-! # The bitmap of a dictionary

A dictionary is a bitmap with a bit for each of its words. Where the bit of a word is follows from its bytes: three
bytes that may be a Chinese character count as one, every other byte by itself. -/
namespace Cmoon.WordBitmaps
open DecimalText ByteBuffers

/-- The byte is not the first of a Chinese character. The next two are read as far as they are needed. -/
def narrow : Bytes → Option Bool
  | [] => none
  | x :: m =>
    if x &&& 0xE0 ≠ 0xE0 then some true
    else
      match m with
      | [] => none
      | y :: m =>
        if y &&& 0x80 ≠ 0x80 then some true
        else
          match m with
          | [] => none
          | z :: _ => some (z &&& 0x80 ≠ 0x80)

/-- The first loop of `BITMAP_POS`: the single bytes of a word of `len` bytes, `k` of which have been passed. -/
def countNarrow (len : ℕ) (k : ℕ) : Bytes → Option ℕ
  | [] => none
  | x :: m =>
    if x = 0 ∨ len ≤ k then some 0
    else
      match narrow (x :: m) with
      | none => none
      | some true => (countNarrow len (k + 1) m).map (· + 1)
      | some false =>
        match m with
        | _ :: _ :: m => countNarrow len (k + 3) m
        | _ => none
termination_by structural m => m

/-- A shift of 32 bits or more, which C leaves open. -/
abbrev Wide := BitVec 32 → ℕ → Option (BitVec 32)

section Wide
variable (wide : Wide)

def shl (x : BitVec 32) (k : ℕ) : Option (BitVec 32) := if k < 32 then some (x <<< k) else wide x k

/-- `tc` in the highest four bits -/
def topped (tc : ℕ) (pos : BitVec 32) : BitVec 32 :=
  (pos &&& (0xFFFFFFF : BitVec 32)) ||| (BitVec.ofNat 32 tc &&& (0xF : BitVec 32)) <<< 28

/-- A single byte; `char` is signed. -/
def mixNarrow (tc : ℕ) (pos : BitVec 32) (x : UInt8) : BitVec 32 :=
  topped tc (pos <<< 5 + 5381 + x.toBitVec.signExtend 32)

/-- The `c`-th character of `tc`, whose number is `sum`. -/
def place (tc c : ℕ) (sum pos : BitVec 32) : Option (BitVec 32) :=
  match tc with
  | 2 => some (if pos = 0 then pos ||| (sum &&& 0xFFFF) <<< 12 else pos ||| sum &&& 0xFFF)
  | 1 => some (pos + sum)
  | 3 => (shl wide (sum &&& 0x1FF) ((c - 1) * 9)).map (pos ||| ·)
  | 4 => (shl wide (sum &&& 0x7F) ((c - 1) * 7)).map (pos ||| ·)
  | 5 =>
    if c = 5 then some (pos ||| (sum &&& 0xFF) <<< 20)
    else (shl wide (sum &&& 0x1F) ((c - 1) * 5)).map (pos ||| ·)
  | 6 =>
    if c = 6 then some (pos ||| (sum &&& 0xFF) <<< 20)
    else (shl wide (sum &&& 0xF) ((c - 1) * 4)).map (pos ||| ·)
  | 7 => (shl wide (sum &&& 0xF) ((c - 1) * 4)).map (pos ||| ·)
  | 8 => if c % 2 = 1 then (shl wide (sum &&& 0x7F) ((c - 1) * 7)).map (pos ||| ·) else some pos
  | _ => if c % 2 = 1 ∧ c < 15 then (shl wide (sum &&& 0xF) ((c - 1) * 4)).map (pos ||| ·) else some pos

structure Mix where
  pos : BitVec 32
  sum : BitVec 32
  b : ℕ
  c : ℕ

/-- A byte of a Chinese character, of which `b` bytes are missing. -/
def mixByte (tc : ℕ) (v : Mix) (x : UInt8) : Option Mix :=
  let b := v.b - 1
  let sum : BitVec 32 :=
    if b = 2 then (x.toBitVec.setWidth 32 &&& 0x0F) <<< 12
    else v.sum ||| (x.toBitVec.setWidth 32 &&& 0x3F) <<< (b * 6)
  if b = 0 then (place wide tc (v.c + 1) sum v.pos).map fun pos => ⟨topped tc pos, 0, 3, v.c + 1⟩
  else some { v with sum, b }

def mixAll (len tc : ℕ) (k : ℕ) (v : Mix) : Bytes → Option (BitVec 32)
  | [] => none
  | x :: m =>
    if x = 0 ∨ len ≤ k then some v.pos
    else
      match if v.b = 3 then narrow (x :: m) else some false with
      | none => none
      | some true => mixAll len tc (k + 1) { v with pos := mixNarrow tc v.pos x } m
      | some false => (mixByte wide tc v x).bind fun v => mixAll len tc (k + 1) v m

def bitmapPos (m : Bytes) (len : ℕ) : Option (BitVec 32) :=
  (countNarrow len 0 m).bind fun c => mixAll wide len ((len - c) / 3) 0 ⟨0, 0, 3, 0⟩ m

abbrev Bitmap := ℕ → UInt8

def bitmapSet (bm : Bitmap) (pos : BitVec 32) : Bitmap :=
  Function.update bm (pos.toNat / 8) (bm (pos.toNat / 8) ||| 1 <<< UInt8.ofNat (pos.toNat % 8))

def bitmapGet (bm : Bitmap) (pos : BitVec 32) : Bool :=
  bm (pos.toNat / 8) &&& 1 <<< UInt8.ofNat (pos.toNat % 8) ≠ 0

def maxPhraseSLen : ℕ := 45

def edivWordSet (bm : Bitmap) (w : Bytes) : Option Bitmap :=
  if maxPhraseSLen < w.length then some bm else (bitmapPos wide (w ++ [0]) w.length).map (bitmapSet bm)

/-- The test of `ediv_word_split`. -/
def inBitmap (bm : Bitmap) (m : Bytes) (len : ℕ) : Option Bool := (bitmapPos wide m len).map (bitmapGet bm)

end Wide

/-- A byte by itself, or three that count as one. -/
inductive Piece where
  | narrow (x : UInt8)
  | wide (x y z : UInt8)
  deriving DecidableEq

def Piece.bytes : Piece → Bytes
  | .narrow x => [x]
  | .wide x y z => [x, y, z]

def bytesOf (ps : List Piece) : Bytes := ps.flatMap Piece.bytes

def Piece.isNarrow : Piece → Bool
  | .narrow _ => true
  | .wide _ _ _ => false

def narrows (ps : List Piece) : ℕ := ps.countP (·.isNarrow)

def wides (ps : List Piece) : ℕ := ps.countP (!·.isNarrow)

def three (x y z : UInt8) : Bool := x &&& 0xE0 = 0xE0 ∧ y &&& 0x80 = 0x80 ∧ z &&& 0x80 = 0x80

def startsWide : Bytes → Bool
  | x :: y :: z :: _ => three x y z
  | _ => false

/-- The pieces are those that bytes are read in which `tail` comes behind. -/
def ReadAs : List Piece → Bytes → Prop
  | [], _ => True
  | .narrow x :: ps, tail => startsWide (x :: (bytesOf ps ++ tail)) = false ∧ ReadAs ps tail
  | .wide x y z :: ps, tail => three x y z = true ∧ ReadAs ps tail

/-- Single bytes and characters are mixed into the position one after the other. -/
def mixPiece (wide : Wide) (tc : ℕ) (v : BitVec 32 × ℕ) : Piece → Option (BitVec 32 × ℕ)
  | .narrow x => some (mixNarrow tc v.1 x, v.2)
  | .wide x y z =>
    let sum : BitVec 32 := (x.toBitVec.setWidth 32 &&& 0x0F) <<< 12 ||| (y.toBitVec.setWidth 32 &&& 0x3F) <<< 6 |||
      (z.toBitVec.setWidth 32 &&& 0x3F)
    (place wide tc (v.2 + 1) sum v.1).map fun pos => (topped tc pos, v.2 + 1)

def positionOf (wide : Wide) (tc : ℕ) (ps : List Piece) : Option (BitVec 32) :=
  (ps.foldlM (mixPiece wide tc) (0, 0)).map Prod.fst

/-- A word of `len` bytes ends where the pieces do: after `len` bytes, or before at a zero. -/
def EndsAt (len : ℕ) (ps : List Piece) (tail : Bytes) : Prop :=
  (bytesOf ps).length ≤ len ∧ ((bytesOf ps).length = len ∨ tail.head? = some 0)

variable {wide : Wide} {ps : List Piece} {tail m : Bytes} {len k : ℕ}

@[simp] theorem bytesOf_nil : bytesOf [] = [] := rfl

@[simp] theorem bytesOf_cons (p : Piece) (ps : List Piece) : bytesOf (p :: ps) = p.bytes ++ bytesOf ps :=
  List.flatMap_cons

@[simp] theorem bytesOf_append (ps qs : List Piece) : bytesOf (ps ++ qs) = bytesOf ps ++ bytesOf qs :=
  List.flatMap_append

theorem narrow_eq {x : UInt8} (h : 0 ∈ m) : narrow (x :: m) = some (!startsWide (x :: m)) := by
  unfold narrow
  dsimp only
  by_cases hx : x &&& 0xE0 = 0xE0
  · rw [if_neg (not_not.mpr hx)]
    cases m with
    | nil => cases h
    | cons y m =>
      dsimp only
      by_cases hy : y &&& 0x80 = 0x80
      · rw [if_neg (not_not.mpr hy)]
        cases m with
        | nil =>
          rw [List.mem_singleton] at h
          rw [← h] at hy
          exact absurd hy (by decide)
        | cons z m => simp [startsWide, three, hx, hy]
      · rw [if_pos hy]
        cases m with
        | nil => rfl
        | cons z m => simp [startsWide, three, hy]
  · rw [if_pos hx]
    unfold startsWide
    split
    · rename_i heq
      cases heq
      simp [three, hx]
    · rfl

theorem three_ne {x y z : UInt8} (h : three x y z = true) : x ≠ 0 ∧ y ≠ 0 ∧ z ≠ 0 := by
  unfold three at h
  rw [decide_eq_true_eq] at h
  obtain ⟨hx, hy, hz⟩ := h
  refine ⟨?_, ?_, ?_⟩
  · rintro rfl
    exact absurd hx (by decide)
  · rintro rfl
    exact absurd hy (by decide)
  · rintro rfl
    exact absurd hz (by decide)

/-- After `k` bytes of a word of `len` the loops are at the pieces, with a string behind them that is closed. -/
structure AtPieces (len k : ℕ) (ps : List Piece) (tail : Bytes) : Prop where
  read : ReadAs ps tail
  noZero : 0 ∉ bytesOf ps
  closed : 0 ∈ tail
  le : k + (bytesOf ps).length ≤ len
  stop : k + (bytesOf ps).length = len ∨ tail.head? = some 0

/-- Behind the last piece the loops end. -/
theorem AtPieces.nil (h : AtPieces len k [] tail) : ∃ x m, tail = x :: m ∧ (x = 0 ∨ len ≤ k) := by
  cases tail with
  | nil => cases h.closed
  | cons x m =>
    have hstop := h.stop
    simp only [bytesOf_nil, List.length_nil, Nat.add_zero, List.head?_cons, Option.some.injEq] at hstop
    exact ⟨x, m, rfl, hstop.symm.imp_right Eq.ge⟩

theorem AtPieces.behind {p : Piece} (h : AtPieces len k (p :: ps) tail) (hread : ReadAs ps tail) :
    k + p.bytes.length ≤ len ∧ AtPieces len (k + p.bytes.length) ps tail := by
  have hle := h.le
  have hstop := h.stop
  have hne := h.noZero
  rw [bytesOf_cons, List.length_append, ← Nat.add_assoc] at hle hstop
  rw [bytesOf_cons, List.mem_append, not_or] at hne
  exact ⟨by omega, hread, hne.2, h.closed, hle, hstop⟩

theorem AtPieces.at_narrow {x : UInt8} (h : AtPieces len k (.narrow x :: ps) tail) :
    ¬ (x = 0 ∨ len ≤ k) ∧ narrow (x :: (bytesOf ps ++ tail)) = some true ∧ AtPieces len (k + 1) ps tail := by
  obtain ⟨hle, hnext⟩ := h.behind h.read.2
  have hle : k + 1 ≤ len := hle
  have hx : x ≠ 0 := fun hx => h.noZero (hx ▸ List.mem_append_left _ (List.mem_singleton_self x))
  refine ⟨not_or.mpr ⟨hx, by omega⟩, ?_, hnext⟩
  rw [narrow_eq (List.mem_append_right _ h.closed), h.read.1]
  rfl

theorem AtPieces.at_wide {x y z : UInt8} (h : AtPieces len k (.wide x y z :: ps) tail) :
    ¬ (x = 0 ∨ len ≤ k) ∧ ¬ (y = 0 ∨ len ≤ k + 1) ∧ ¬ (z = 0 ∨ len ≤ k + 2) ∧
      narrow (x :: y :: z :: (bytesOf ps ++ tail)) = some false ∧ AtPieces len (k + 3) ps tail := by
  obtain ⟨hle, hnext⟩ := h.behind h.read.2
  have hle : k + 3 ≤ len := hle
  obtain ⟨hx, hy, hz⟩ := three_ne h.read.1
  refine ⟨not_or.mpr ⟨hx, by omega⟩, not_or.mpr ⟨hy, by omega⟩, not_or.mpr ⟨hz, by omega⟩, ?_, hnext⟩
  have hzero : 0 ∈ y :: z :: (bytesOf ps ++ tail) :=
    List.mem_cons_of_mem _ (List.mem_cons_of_mem _ (List.mem_append_right _ h.closed))
  have hthree : startsWide (x :: y :: z :: (bytesOf ps ++ tail)) = true := h.read.1
  rw [narrow_eq hzero, hthree]
  rfl

theorem countNarrow_eq (h : AtPieces len k ps tail) : countNarrow len k (bytesOf ps ++ tail) = some (narrows ps) := by
  induction ps generalizing k with
  | nil =>
    obtain ⟨x, m, rfl, hstop⟩ := h.nil
    change countNarrow len k (x :: m) = _
    unfold countNarrow
    exact if_pos hstop
  | cons p ps ih =>
    cases p with
    | narrow x =>
      obtain ⟨hgoes, hnarrow, hnext⟩ := h.at_narrow
      change countNarrow len k (x :: (bytesOf ps ++ tail)) = _
      unfold countNarrow
      rw [if_neg hgoes, hnarrow]
      change (countNarrow len (k + 1) (bytesOf ps ++ tail)).map (· + 1) = _
      rw [ih hnext]
      simp [narrows, Piece.isNarrow]
    | wide x y z =>
      obtain ⟨hgoes, -, -, hwide, hnext⟩ := h.at_wide
      change countNarrow len k (x :: y :: z :: (bytesOf ps ++ tail)) = _
      unfold countNarrow
      rw [if_neg hgoes, hwide]
      change countNarrow len (k + 3) (bytesOf ps ++ tail) = _
      rw [ih hnext]
      simp [narrows, Piece.isNarrow]

theorem mixByte_last (tc : ℕ) (pos sum : BitVec 32) (c : ℕ) (x : UInt8) :
    mixByte wide tc ⟨pos, sum, 1, c⟩ x =
      (place wide tc (c + 1) (sum ||| (x.toBitVec.setWidth 32 &&& 0x3F)) pos).map fun pos =>
        ⟨topped tc pos, 0, 3, c + 1⟩ := by
  unfold mixByte
  dsimp only
  rw [if_pos rfl, if_neg (by decide), Nat.sub_self, Nat.zero_mul, BitVec.shiftLeft_zero]

theorem mixAll_eq {tc c : ℕ} {pos : BitVec 32} (h : AtPieces len k ps tail) :
    mixAll wide len tc k ⟨pos, 0, 3, c⟩ (bytesOf ps ++ tail) =
      (ps.foldlM (mixPiece wide tc) (pos, c)).map Prod.fst := by
  induction ps generalizing k pos c with
  | nil =>
    obtain ⟨x, m, rfl, hstop⟩ := h.nil
    exact if_pos hstop
  | cons p ps ih =>
    cases p with
    | narrow x =>
      obtain ⟨hgoes, hnarrow, hnext⟩ := h.at_narrow
      change mixAll wide len tc k ⟨pos, 0, 3, c⟩ (x :: (bytesOf ps ++ tail)) = _
      unfold mixAll
      rw [if_neg hgoes, if_pos rfl, hnarrow]
      exact ih hnext
    | wide x y z =>
      obtain ⟨hx, hy, hz, hwide, hnext⟩ := h.at_wide
      change mixAll wide len tc k ⟨pos, 0, 3, c⟩ (x :: y :: z :: (bytesOf ps ++ tail)) = _
      unfold mixAll
      rw [if_neg hx, if_pos rfl, hwide]
      change mixAll wide len tc (k + 1) ⟨pos, (x.toBitVec.setWidth 32 &&& 0x0F) <<< 12, 2, c⟩ _ = _
      unfold mixAll
      rw [if_neg hy, if_neg (by simp)]
      change mixAll wide len tc (k + 2) ⟨pos, _ ||| (y.toBitVec.setWidth 32 &&& 0x3F) <<< 6, 1, c⟩ _ = _
      unfold mixAll
      rw [if_neg hz, if_neg (by simp)]
      change (mixByte wide tc _ z).bind _ = _
      rw [mixByte_last, List.foldlM_cons, Option.bind_map]
      change (Option.bind _ fun pos => mixAll wide len tc (k + 3) ⟨topped tc pos, 0, 3, c + 1⟩ (bytesOf ps ++ tail)) =
        Option.map Prod.fst (Option.bind (Option.map _ _) _)
      rw [Option.bind_map, Option.map_bind]
      congr 1
      funext pos
      exact ih hnext

/-- The position of a word is mixed from its pieces, whatever comes behind. -/
theorem bitmapPos_eq (hread : ReadAs ps tail) (hne : 0 ∉ bytesOf ps) (htail : 0 ∈ tail) (hend : EndsAt len ps tail) :
    bitmapPos wide (bytesOf ps ++ tail) len = positionOf wide ((len - narrows ps) / 3) ps := by
  obtain ⟨hle, hend⟩ := hend
  rw [← Nat.zero_add (bytesOf ps).length] at hle hend
  have hat : AtPieces len 0 ps tail := ⟨hread, hne, htail, hle, hend⟩
  unfold bitmapPos
  rw [countNarrow_eq hat]
  exact mixAll_eq hat

def pieces : Bytes → List Piece
  | [] => []
  | [x] => [.narrow x]
  | [x, y] => [.narrow x, .narrow y]
  | x :: y :: z :: m => if three x y z then .wide x y z :: pieces m else .narrow x :: pieces (y :: z :: m)

@[simp] theorem bytesOf_pieces (m : Bytes) : bytesOf (pieces m) = m := by
  induction m using pieces.induct with
  | case1 => rfl
  | case2 x => rfl
  | case3 x y => rfl
  | case4 x y z m hthree ih =>
    unfold pieces
    rw [if_pos hthree, bytesOf_cons, ih]
    rfl
  | case5 x y z m hthree ih =>
    unfold pieces
    rw [if_neg hthree, bytesOf_cons, ih]
    rfl

/-- In front of a zero, bytes are read as if nothing came behind. -/
theorem readAs_pieces (m : Bytes) (htail : tail.head? = some 0) : ReadAs (pieces m) tail := by
  obtain ⟨tail, rfl⟩ : ∃ tail', tail = 0 :: tail' := List.head?_eq_some_iff.mp htail
  have hzero : ∀ x z, three x 0 z = false ∧ three x z 0 = false := fun x z => ⟨by simp [three], by simp [three]⟩
  induction m using pieces.induct with
  | case1 => trivial
  | case2 x =>
    refine ⟨?_, trivial⟩
    cases tail with
    | nil => rfl
    | cons z tail => exact (hzero x z).1
  | case3 x y =>
    refine ⟨(hzero x y).2, ?_, trivial⟩
    cases tail with
    | nil => rfl
    | cons z tail => exact (hzero y z).1
  | case4 x y z m hthree ih =>
    unfold pieces
    rw [if_pos hthree]
    exact ⟨hthree, ih⟩
  | case5 x y z m hthree ih =>
    unfold pieces
    rw [if_neg hthree]
    refine ⟨?_, ih⟩
    rw [bytesOf_pieces]
    exact Bool.eq_false_iff.mpr hthree

theorem length_bytesOf (ps : List Piece) : (bytesOf ps).length = narrows ps + 3 * wides ps := by
  induction ps with
  | nil => rfl
  | cons p ps ih =>
    rw [bytesOf_cons, List.length_append, ih]
    cases p with
    | narrow x =>
      simp [narrows, wides, Piece.isNarrow, Piece.bytes]
      omega
    | wide x y z =>
      simp [narrows, wides, Piece.isNarrow, Piece.bytes]
      omega

theorem startsWide_of_append (h : startsWide m = true) (tail : Bytes) : startsWide (m ++ tail) = true := by
  match m with
  | [] => cases h
  | [_] => cases h
  | [_, _] => cases h
  | _ :: _ :: _ :: _ => exact h

theorem startsWide_closed (m : Bytes) : startsWide (m ++ [0]) = startsWide m := by
  match m with
  | [] => rfl
  | [_] => rfl
  | [x, y] =>
    change three x y 0 = false
    simp [three]
  | _ :: _ :: _ :: _ => rfl

theorem narrow_closed (m : Bytes) : narrow (m ++ [0]) = some (!startsWide m) := by
  cases m with
  | nil => rfl
  | cons x m =>
    have hzero : 0 ∈ m ++ [0] := List.mem_append_right m List.mem_cons_self
    change narrow (x :: (m ++ [0])) = _
    rw [narrow_eq hzero]
    exact congrArg (some !·) (startsWide_closed (x :: m))

/-- Pieces of a text are the pieces of the string that ends behind them. -/
theorem ReadAs.closed (h : ReadAs ps tail) : ReadAs ps [0] := by
  induction ps with
  | nil => trivial
  | cons p ps ih =>
    cases p with
    | narrow x =>
      refine ⟨?_, ih h.2⟩
      rw [← List.cons_append, startsWide_closed, Bool.eq_false_iff]
      intro hwide
      exact absurd (startsWide_of_append hwide tail) (Bool.eq_false_iff.mp h.1)
    | wide x y z => exact ⟨h.1, ih h.2⟩

end Cmoon.WordBitmaps
