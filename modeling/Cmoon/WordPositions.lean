import Cmoon.WordBitmaps

/-! # Where words have their bits

The shifts that a position is mixed with, and the index that it is in the bitmap. -/
namespace Cmoon.WordPositions
open DecimalText ByteBuffers WordBitmaps

def noWide : Wide := fun _ _ => none

/-- The bytes of the bitmap of `ediv_init` -/
def bitmapBytes : ℕ := 0xFFFFFFFF / 8

/-- Every shift is by fewer than 32 bits, and the position is in the bitmap. -/
def InRange (w : Bytes) : Prop :=
  ∃ pos, bitmapPos noWide (w ++ [0]) w.length = some pos ∧ pos.toNat / 8 < bitmapBytes

/-- What a string has before its zero byte, in pieces -/
def piecesOf (w : Bytes) : List Piece := pieces (w.takeWhile (· ≠ 0))

def charactersOf (w : Bytes) : ℕ := (w.length - narrows (piecesOf w)) / 3

/-- There are fewer than nine characters, and fewer than seven where eight are expected. -/
def FewCharacters (w : Bytes) : Prop := wides (piecesOf w) < 9 ∧ (charactersOf w = 8 → wides (piecesOf w) < 7)

/-- The shift for the `c`-th character of `tc` -/
def fits (tc c : ℕ) : Bool :=
  match tc with
  | 1 | 2 => true
  | 3 => (c - 1) * 9 < 32
  | 4 => (c - 1) * 7 < 32
  | 5 => c = 5 ∨ (c - 1) * 5 < 32
  | 6 => c = 6 ∨ (c - 1) * 4 < 32
  | 7 => (c - 1) * 4 < 32
  | 8 => c % 2 = 1 → (c - 1) * 7 < 32
  | _ => c % 2 = 1 ∧ c < 15 → (c - 1) * 4 < 32

variable {wide : Wide} {tc c : ℕ} {ps : List Piece} {pos pos' sum : BitVec 32} {w : Bytes}

theorem isSome_shl {x : BitVec 32} {k : ℕ} : (shl noWide x k).isSome = decide (k < 32) := by
  unfold shl
  by_cases hk : k < 32
  · simp [hk]
  · simp [hk, noWide]

theorem isSome_map_or {k : ℕ} {x : BitVec 32} : ((shl noWide x k).map (pos ||| ·)).isSome = decide (k < 32) := by
  rw [Option.isSome_map, isSome_shl]

theorem isSome_place (tc c : ℕ) (sum pos : BitVec 32) : (place noWide tc c sum pos).isSome = fits tc c := by
  match tc with
  | 1 | 2 => rfl
  | 3 => exact isSome_map_or
  | 4 => exact isSome_map_or
  | 5 =>
    change Option.isSome (if c = 5 then _ else _) = decide (_ ∨ _)
    by_cases hc : c = 5
    · simp [hc]
    · simp [hc, isSome_shl]
  | 6 =>
    change Option.isSome (if c = 6 then _ else _) = decide (_ ∨ _)
    by_cases hc : c = 6
    · simp [hc]
    · simp [hc, isSome_shl]
  | 7 => exact isSome_map_or
  | 8 =>
    change Option.isSome (if c % 2 = 1 then _ else _) = decide (_ → _)
    by_cases hc : c % 2 = 1
    · simp [hc, isSome_shl]
    · simp [hc]
  | 0 | _ + 9 =>
    change Option.isSome (if c % 2 = 1 ∧ c < 15 then _ else _) = decide (_ ∧ _ → _)
    by_cases hc : c % 2 = 1 ∧ c < 15
    · simp [hc, isSome_shl]
    · simp [hc]

theorem isSome_foldlM (tc : ℕ) (ps : List Piece) (v : BitVec 32 × ℕ) :
    (ps.foldlM (mixPiece noWide tc) v).isSome ↔ ∀ c, v.2 < c → c ≤ v.2 + wides ps → fits tc c := by
  induction ps generalizing v with
  | nil =>
    constructor
    · intro _ c hlt hle
      have hle : c ≤ v.2 + 0 := hle
      omega
    · exact fun _ => rfl
  | cons p ps ih =>
    rw [List.foldlM_cons]
    cases p with
    | narrow x =>
      have hwides : wides (.narrow x :: ps) = wides ps := rfl
      rw [hwides]
      exact ih _
    | wide x y z =>
      have hwides : wides (.wide x y z :: ps) = wides ps + 1 := by simp [wides, Piece.isNarrow]
      rw [hwides]
      unfold mixPiece
      dsimp only
      generalize _ ||| (z.toBitVec.setWidth 32 &&& 0x3F) = sum
      have hfits := isSome_place tc (v.2 + 1) sum v.1
      cases hplace : place noWide tc (v.2 + 1) sum v.1 with
      | none =>
        rw [hplace] at hfits
        constructor
        · intro h
          cases h
        · intro h
          rw [h (v.2 + 1) (by omega) (by omega)] at hfits
          cases hfits
      | some pos =>
        rw [hplace] at hfits
        refine (ih (topped tc pos, v.2 + 1)).trans ⟨?_, ?_⟩
        · intro h c hlt hle
          obtain rfl | hne := eq_or_ne c (v.2 + 1)
          · exact hfits.symm
          · exact h c (by dsimp only; omega) (by dsimp only; omega)
        · exact fun h c hlt hle => h c (by dsimp only at hlt; omega) (by dsimp only at hle; omega)

/-- The shifts of nine characters do not fit, and the seventh of eight does not. -/
theorem fits_iff {k : ℕ} (hk : k ≤ tc) (htc : tc ≤ 15) :
    (∀ c, 0 < c → c ≤ 0 + k → fits tc c) ↔ k < 9 ∧ (tc = 8 → k < 7) := by
  have htable : ∀ tc < 16, ∀ k < 16, k ≤ tc →
      (List.range k).all (fun c => fits tc (c + 1)) = decide (k < 9 ∧ (tc = 8 → k < 7)) := by decide
  rw [← decide_eq_true_iff (p := k < 9 ∧ _), ← htable tc (by omega) k (by omega) hk, List.all_eq_true]
  constructor
  · exact fun h c hc => h (c + 1) (by omega) (by have := List.mem_range.mp hc; omega)
  · intro h c hpos hle
    have hc := h (c - 1) (List.mem_range.mpr (by omega))
    rwa [Nat.sub_add_cancel hpos] at hc

theorem index_lt {i : ℕ} (h3 : 3 ≤ i) (h32 : i < 32) (hbit : pos.getLsbD i = false) : pos.toNat / 8 < bitmapBytes := by
  by_contra hle
  have hlt := pos.isLt
  have hdiv : pos.toNat / 2 ^ 3 = 2 ^ 29 - 1 := by
    unfold bitmapBytes at hle
    omega
  have htest : (pos.toNat / 2 ^ 3).testBit (i - 3) = false := by
    rw [Nat.testBit_div_two_pow, Nat.sub_add_cancel h3]
    exact hbit
  rw [hdiv, Nat.testBit_two_pow_sub_one, decide_eq_false_iff_not] at htest
  omega

theorem getLsbD_topped_high {i : ℕ} (hi : i < 4) : (topped tc pos).getLsbD (28 + i) = tc.testBit i := by
  have hmask : ∀ i < 4, (0xFFFFFFF : BitVec 32).getLsbD (28 + i) = false ∧ (0xF : BitVec 32).getLsbD i = true := by
    decide
  obtain ⟨hlow, hhigh⟩ := hmask i hi
  have hin : 28 + i < 32 ∧ ¬ 28 + i < 28 ∧ i < 32 := by omega
  unfold topped
  rw [BitVec.getLsbD_or, BitVec.getLsbD_and, hlow, Bool.and_false, Bool.false_or, BitVec.getLsbD_shiftLeft,
    Nat.add_sub_cancel_left, BitVec.getLsbD_and, hhigh, Bool.and_true, BitVec.getLsbD_ofNat]
  simp [hin]

theorem getLsbD_topped_four : (topped tc pos).getLsbD 4 = pos.getLsbD 4 := by
  unfold topped
  rw [BitVec.getLsbD_or, BitVec.getLsbD_and, BitVec.getLsbD_shiftLeft]
  simp

theorem positionOf_keeps {P : BitVec 32 → Prop} (h0 : P 0)
    (hstep : ∀ p ∈ ps, ∀ v v', mixPiece wide tc v p = some v' → P v.1 → P v'.1)
    (h : positionOf wide tc ps = some pos) : P pos := by
  have hfold : ∀ v v', P v.1 → ps.foldlM (mixPiece wide tc) v = some v' → P v'.1 := by
    clear h
    induction ps with
    | nil =>
      intro v v' hv h
      cases h
      exact hv
    | cons p ps ih =>
      intro v v' hv h
      rw [List.foldlM_cons] at h
      obtain ⟨u, hu, hrest⟩ := Option.bind_eq_some_iff.mp h
      exact ih (fun q hq => hstep q (List.mem_cons_of_mem p hq)) u v' (hstep p List.mem_cons_self v u hu hv) hrest
  obtain ⟨v, hv, rfl⟩ := Option.map_eq_some_iff.mp h
  exact hfold (0, 0) v h0 hv

theorem mixPiece_topped {p : Piece} {v v' : BitVec 32 × ℕ} (h : mixPiece wide tc v p = some v') :
    ∃ pos, v'.1 = topped tc pos := by
  cases p with
  | narrow x =>
    cases h
    exact ⟨_, rfl⟩
  | wide x y z =>
    obtain ⟨pos, -, rfl⟩ := Option.map_eq_some_iff.mp h
    exact ⟨pos, rfl⟩

theorem index_of_few (htc : tc < 15) (h : positionOf wide tc ps = some pos) :
    ∃ i, 3 ≤ i ∧ i < 32 ∧ pos.getLsbD i = false := by
  have hbit : ∀ tc < 15, ∃ i < 4, tc.testBit i = false := by decide
  obtain ⟨i, hi, htest⟩ := hbit tc htc
  refine ⟨28 + i, by omega, by omega, ?_⟩
  refine positionOf_keeps (P := fun pos => pos.getLsbD (28 + i) = false) (BitVec.getLsbD_zero) ?_ h
  intro p _ v v' hmix _
  obtain ⟨pos, hpos⟩ := mixPiece_topped hmix
  rw [hpos, getLsbD_topped_high hi, htest]

/-- Fifteen characters without a single byte leave the bit 4 alone. -/
theorem place_fifteen (h : place noWide 15 c sum pos = some pos') (hc : 0 < c) : pos'.getLsbD 4 = pos.getLsbD 4 := by
  change (if c % 2 = 1 ∧ c < 15 then _ else _) = _ at h
  split at h
  · rename_i hodd
    obtain ⟨x, hx, rfl⟩ := Option.map_eq_some_iff.mp h
    unfold shl at hx
    split at hx
    · cases hx
      have hshift : ((sum &&& 0xF) <<< ((c - 1) * 4)).getLsbD 4 = false := by
        rw [BitVec.getLsbD_shiftLeft]
        obtain rfl | hne := eq_or_ne c 1
        · simp
        · have hlt : 4 < (c - 1) * 4 := by omega
          simp [hlt]
      rw [BitVec.getLsbD_or, hshift, Bool.or_false]
    · cases hx
  · cases h
    rfl

theorem index_of_fifteen (hps : narrows ps = 0) (h : positionOf noWide 15 ps = some pos) : pos.getLsbD 4 = false := by
  refine positionOf_keeps (P := fun pos => pos.getLsbD 4 = false) BitVec.getLsbD_zero ?_ h
  intro p hp v v' hmix hv
  cases p with
  | narrow x => exact absurd rfl (List.countP_eq_zero.mp hps _ hp)
  | wide x y z =>
    obtain ⟨pos, hplace, rfl⟩ := Option.map_eq_some_iff.mp hmix
    exact getLsbD_topped_four.trans ((place_fifteen hplace v.2.succ_pos).trans hv)

theorem bitmapPos_alone (wide : Wide) (w : Bytes) :
    bitmapPos wide (w ++ [0]) w.length = positionOf wide (charactersOf w) (piecesOf w) := by
  have htail : (w.dropWhile (· ≠ 0) ++ [0]).head? = some 0 := by
    cases hdrop : w.dropWhile (· ≠ 0) with
    | nil => rfl
    | cons x rest =>
      have hx := List.head_dropWhile_not (fun x : UInt8 => decide (x ≠ 0)) (hdrop ▸ List.cons_ne_nil x rest)
      simp only [hdrop, List.head_cons, decide_eq_false_iff_not, not_not] at hx
      rw [hx]
      rfl
  have hne : 0 ∉ bytesOf (piecesOf w) := by
    unfold piecesOf
    rw [bytesOf_pieces]
    intro hmem
    have hzero := List.all_eq_true.mp (List.all_takeWhile (l := w)) 0 hmem
    simp at hzero
  have hend : EndsAt w.length (piecesOf w) (w.dropWhile (· ≠ 0) ++ [0]) := by
    refine ⟨?_, .inr htail⟩
    unfold piecesOf
    rw [bytesOf_pieces]
    exact (List.takeWhile_prefix _).length_le
  have hread := readAs_pieces (w.takeWhile (· ≠ 0)) htail
  have heq : bitmapPos wide _ w.length = _ := bitmapPos_eq hread hne (List.mem_append_right _ List.mem_cons_self) hend
  rw [bytesOf_pieces, ← List.append_assoc, List.takeWhile_append_dropWhile] at heq
  exact heq

theorem wides_le (w : Bytes) : wides (piecesOf w) ≤ charactersOf w := by
  have hlen := length_bytesOf (piecesOf w)
  have hle := (List.takeWhile_prefix (· ≠ 0) (l := w)).length_le
  unfold charactersOf
  unfold piecesOf at hlen ⊢
  rw [bytesOf_pieces] at hlen
  omega

/-- The arithmetic of a word of up to 45 bytes stays in range exactly if it has few characters. -/
theorem inRange_iff (h : w.length ≤ maxPhraseSLen) : InRange w ↔ FewCharacters w := by
  have htc : charactersOf w ≤ 15 := by
    unfold charactersOf
    unfold maxPhraseSLen at h
    omega
  have hshifts := isSome_foldlM (charactersOf w) (piecesOf w) (0, 0)
  unfold FewCharacters
  rw [← fits_iff (wides_le w) htc, ← hshifts]
  unfold InRange
  rw [bitmapPos_alone]
  constructor
  · rintro ⟨pos, hpos, -⟩
    obtain ⟨v, hv, -⟩ := Option.map_eq_some_iff.mp hpos
    exact Option.isSome_iff_exists.mpr ⟨v, hv⟩
  · intro hsome
    obtain ⟨v, hv⟩ := Option.isSome_iff_exists.mp hsome
    have hpos : positionOf noWide (charactersOf w) (piecesOf w) = some v.1 := congrArg (Option.map Prod.fst) hv
    refine ⟨v.1, hpos, ?_⟩
    obtain hlt | heq := htc.lt_or_eq
    · obtain ⟨i, h3, h32, hbit⟩ := index_of_few hlt hpos
      exact index_lt h3 h32 hbit
    · have hnarrows : narrows (piecesOf w) = 0 := by
        unfold charactersOf at heq
        unfold maxPhraseSLen at h
        omega
      rw [heq] at hpos
      exact index_lt (by decide) (by decide) (index_of_fifteen hnarrows hpos)

/-- 天气 -/
theorem inRange_weather : InRange [0xE5, 0xA4, 0xA9, 0xE6, 0xB0, 0x94] :=
  (inRange_iff (by decide)).mpr ⟨by decide, by decide⟩

/-- 中 eight times: the seventh is shifted by 42 bits. -/
theorem not_inRange : (List.replicate 8 [0xE4, 0xB8, 0xAD]).flatten.length ≤ maxPhraseSLen ∧
    ¬ InRange (List.replicate 8 [0xE4, 0xB8, 0xAD]).flatten := by
  refine ⟨by decide, ?_⟩
  rintro ⟨pos, hpos, -⟩
  rw [bitmapPos_alone] at hpos
  have hnone : positionOf noWide 8 (pieces (List.replicate 8 [0xE4, 0xB8, 0xAD]).flatten) = none := by decide
  exact nomatch hnone.symm.trans hpos

end Cmoon.WordPositions
