import Cmoon.WordBitmaps

/-! # The characters of a text

Texts in UTF-8, and the pieces that their characters are read in, whatever comes behind: a character of three bytes is
one piece, one of four bytes is two. -/
namespace Cmoon.TextCharacters
open DecimalText ByteBuffers WordBitmaps

/-- A well-formed text that is a string of C. -/
structure Text where
  chars : List Char
  noZero : Char.ofNat 0 ∉ chars

def encode (cs : List Char) : Bytes := cs.flatMap String.utf8EncodeChar

def Text.bytes (t : Text) : Bytes := encode t.chars

def charPieces (c : Char) : List Piece := pieces (String.utf8EncodeChar c)

def Single (x : UInt8) : Prop := x &&& 0xE0 ≠ 0xE0

inductive Spelled : Bytes → Prop
  | one {x : UInt8} (hx : Single x) : Spelled [x]
  | two {x y : UInt8} (hx : Single x) (hy : Single y) : Spelled [x, y]
  | three {x y z : UInt8} (h : three x y z = true) : Spelled [x, y, z]
  | four {x y z u : UInt8} (h : WordBitmaps.three x y z = true) (hu : Single u) : Spelled [x, y, z, u]

variable {ps qs : List Piece} {tail : Bytes} {x y z : UInt8} {c : Char} {cs : List Char}

theorem readAs_append : ReadAs (ps ++ qs) tail ↔ ReadAs ps (bytesOf qs ++ tail) ∧ ReadAs qs tail := by
  induction ps with
  | nil => exact (true_and _).symm.to_iff
  | cons p ps ih =>
    cases p with
    | narrow x =>
      change startsWide (x :: (bytesOf (ps ++ qs) ++ tail)) = false ∧ ReadAs (ps ++ qs) tail ↔ (_ ∧ _) ∧ _
      rw [ih, bytesOf_append, List.append_assoc, and_assoc]
    | wide x y z =>
      change _ ∧ ReadAs (ps ++ qs) tail ↔ (_ ∧ _) ∧ _
      rw [ih, and_assoc]

theorem Single.startsWide (h : Single x) (m : Bytes) : startsWide (x :: m) = false := by
  unfold WordBitmaps.startsWide
  split
  · rename_i heq
    cases heq
    exact decide_eq_false fun hthree => h hthree.1
  · rfl

theorem single_ofNat {n : ℕ} (h : n < 224) : Single (UInt8.ofNat n) := by
  have htable : ∀ n < 224, UInt8.ofNat n &&& 0xE0 ≠ 0xE0 := by decide +kernel
  exact htable n h

theorem three_ofNat {a b c : ℕ} (ha : 224 ≤ a) (ha' : a < 256) (hb : 128 ≤ b) (hb' : b < 256) (hc : 128 ≤ c)
    (hc' : c < 256) : three (UInt8.ofNat a) (UInt8.ofNat b) (UInt8.ofNat c) = true := by
  have hlead : ∀ n < 256, 224 ≤ n → UInt8.ofNat n &&& 0xE0 = 0xE0 := by decide +kernel
  have hnext : ∀ n < 256, 128 ≤ n → UInt8.ofNat n &&& 0x80 = 0x80 := by decide +kernel
  exact decide_eq_true ⟨hlead a ha' ha, hnext b hb' hb, hnext c hc' hc⟩

theorem spelled (c : Char) : Spelled (String.utf8EncodeChar c) := by
  unfold String.utf8EncodeChar
  dsimp only
  split
  · exact .one (single_ofNat (by omega))
  · split
    · exact .two (single_ofNat (by omega)) (single_ofNat (by omega))
    · split
      · exact .three (three_ofNat (by omega) (by omega) (by omega) (by omega) (by omega) (by omega))
      · exact .four (three_ofNat (by omega) (by omega) (by omega) (by omega) (by omega) (by omega))
          (single_ofNat (by omega))

theorem readAs_char (c : Char) (tail : Bytes) : ReadAs (charPieces c) tail := by
  unfold charPieces
  have hspelled := spelled c
  generalize String.utf8EncodeChar c = m at hspelled
  cases hspelled with
  | one hx => exact ⟨hx.startsWide _, trivial⟩
  | two hx hy => exact ⟨hx.startsWide _, hy.startsWide _, trivial⟩
  | three h =>
    unfold pieces
    rw [if_pos h]
    exact ⟨h, trivial⟩
  | four h hu =>
    unfold pieces
    rw [if_pos h]
    exact ⟨h, hu.startsWide _, trivial⟩

def textPieces (cs : List Char) : List Piece := cs.flatMap charPieces

@[simp] theorem bytesOf_textPieces (cs : List Char) : bytesOf (textPieces cs) = encode cs := by
  induction cs with
  | nil => rfl
  | cons c cs ih =>
    unfold textPieces encode at ih ⊢
    rw [List.flatMap_cons, List.flatMap_cons, bytesOf_append, ih]
    unfold charPieces
    rw [bytesOf_pieces]

theorem readAs_textPieces (cs : List Char) (tail : Bytes) : ReadAs (textPieces cs) tail := by
  induction cs with
  | nil => trivial
  | cons c cs ih => exact readAs_append.mpr ⟨readAs_char c _, ih⟩

theorem ofNat_ne_zero {n : ℕ} (h0 : 0 < n) (h : n < 256) : UInt8.ofNat n ≠ 0 := by
  have htable : ∀ n < 256, 0 < n → UInt8.ofNat n ≠ 0 := by decide +kernel
  exact htable n h h0

theorem zero_notMem_char (hc : c ≠ Char.ofNat 0) : 0 ∉ String.utf8EncodeChar c := by
  have hpos : 0 < c.val.toNat := by
    refine Nat.pos_of_ne_zero fun h => hc ?_
    rw [← Char.ofNat_toNat c]
    exact congrArg Char.ofNat h
  have hne : ∀ n, 0 < n → n < 256 → 0 ≠ UInt8.ofNat n := fun n h0 h => (ofNat_ne_zero h0 h).symm
  unfold String.utf8EncodeChar
  dsimp only
  split
  · simp only [List.mem_singleton]
    exact hne _ (by omega) (by omega)
  · split
    · simp only [List.mem_cons, List.not_mem_nil, or_false, not_or]
      exact ⟨hne _ (by omega) (by omega), hne _ (by omega) (by omega)⟩
    · split
      · simp only [List.mem_cons, List.not_mem_nil, or_false, not_or]
        exact ⟨hne _ (by omega) (by omega), hne _ (by omega) (by omega), hne _ (by omega) (by omega)⟩
      · simp only [List.mem_cons, List.not_mem_nil, or_false, not_or]
        exact ⟨hne _ (by omega) (by omega), hne _ (by omega) (by omega), hne _ (by omega) (by omega),
          hne _ (by omega) (by omega)⟩

theorem encode_append (cs cs' : List Char) : encode (cs ++ cs') = encode cs ++ encode cs' := List.flatMap_append

theorem encode_injective : Function.Injective encode := by
  intro cs cs' h
  have hbytes : (String.ofList cs).toByteArray = (String.ofList cs').toByteArray := by
    rw [String.toByteArray_ofList, String.toByteArray_ofList]
    exact congrArg List.toByteArray h
  exact String.ofList_injective (String.toByteArray_inj.mp hbytes)

theorem Text.zero_notMem (t : Text) : 0 ∉ t.bytes := by
  unfold Text.bytes encode
  rw [List.mem_flatMap]
  rintro ⟨c, hc, hzero⟩
  exact zero_notMem_char (fun h => t.noZero (h ▸ hc)) hzero

theorem bitmapPos_text (wide : Wide) (w : Text) {tail : Bytes} (htail : 0 ∈ tail) :
    bitmapPos wide (w.bytes ++ tail) w.bytes.length =
      positionOf wide ((w.bytes.length - narrows (textPieces w.chars)) / 3) (textPieces w.chars) := by
  have hread := readAs_textPieces w.chars tail
  have hne : 0 ∉ bytesOf (textPieces w.chars) := by
    rw [bytesOf_textPieces]
    exact w.zero_notMem
  have hend : EndsAt w.bytes.length (textPieces w.chars) tail := by
    unfold EndsAt
    rw [bytesOf_textPieces]
    exact ⟨le_rfl, .inl rfl⟩
  have heq : bitmapPos wide _ w.bytes.length = _ := bitmapPos_eq hread hne htail hend
  rw [bytesOf_textPieces] at heq
  exact heq

/-- A shift of 32 bits or more has some result. -/
def total (far : BitVec 32 → ℕ → BitVec 32) : Wide := fun x k => some (far x k)

theorem exists_shl (far : BitVec 32 → ℕ → BitVec 32) (x : BitVec 32) (k : ℕ) : ∃ y, shl (total far) x k = some y := by
  unfold shl
  split
  · exact ⟨_, rfl⟩
  · exact ⟨_, rfl⟩

theorem exists_map_shl (far : BitVec 32 → ℕ → BitVec 32) (pos x : BitVec 32) (k : ℕ) :
    ∃ y, (shl (total far) x k).map (pos ||| ·) = some y := by
  obtain ⟨y, hy⟩ := exists_shl far x k
  exact ⟨_, congrArg (Option.map (pos ||| ·)) hy⟩

theorem exists_place (far : BitVec 32 → ℕ → BitVec 32) (tc c : ℕ) (sum pos : BitVec 32) :
    ∃ pos', place (total far) tc c sum pos = some pos' := by
  unfold place
  split
  · exact ⟨_, rfl⟩
  · exact ⟨_, rfl⟩
  · exact exists_map_shl _ _ _ _
  · exact exists_map_shl _ _ _ _
  · split
    · exact ⟨_, rfl⟩
    · exact exists_map_shl _ _ _ _
  · split
    · exact ⟨_, rfl⟩
    · exact exists_map_shl _ _ _ _
  · exact exists_map_shl _ _ _ _
  · split
    · exact exists_map_shl _ _ _ _
    · exact ⟨_, rfl⟩
  · split
    · exact exists_map_shl _ _ _ _
    · exact ⟨_, rfl⟩

theorem exists_positionOf (far : BitVec 32 → ℕ → BitVec 32) (tc : ℕ) (ps : List Piece) :
    ∃ pos, positionOf (total far) tc ps = some pos := by
  have hfold : ∀ v, ∃ v', ps.foldlM (mixPiece (total far) tc) v = some v' := by
    induction ps with
    | nil => exact fun v => ⟨v, rfl⟩
    | cons p ps ih =>
      intro v
      have hstep : ∃ u, mixPiece (total far) tc v p = some u := by
        cases p with
        | narrow x => exact ⟨_, rfl⟩
        | wide x y z =>
          obtain ⟨pos, hpos⟩ := exists_place far tc (v.2 + 1) _ v.1
          exact ⟨_, congrArg (Option.map _) hpos⟩
      obtain ⟨u, hu⟩ := hstep
      obtain ⟨v', hv'⟩ := ih u
      rw [List.foldlM_cons, hu]
      exact ⟨v', hv'⟩
  obtain ⟨v, hv⟩ := hfold (0, 0)
  exact ⟨v.1, congrArg (Option.map Prod.fst) hv⟩

theorem bitmapGet_bitmapSet (bm : Bitmap) (pos : BitVec 32) : bitmapGet (bitmapSet bm pos) pos = true := by
  have hbit : ∀ n < 8, (1 : UInt8) <<< UInt8.ofNat n ≠ 0 := by decide
  unfold bitmapGet bitmapSet
  rw [Function.update_self, decide_eq_true_eq]
  generalize hx : (1 : UInt8) <<< UInt8.ofNat (pos.toNat % 8) = x
  have habsorb : (bm (pos.toNat / 8) ||| x) &&& x = x := by
    apply UInt8.toBitVec_inj.mp
    ext i
    simp only [UInt8.toBitVec_and, UInt8.toBitVec_or, BitVec.getElem_and, BitVec.getElem_or]
    cases x.toBitVec[i] with
    | false => exact Bool.and_false _
    | true => rw [Bool.or_true, Bool.and_true]
  rw [habsorb, ← hx]
  exact hbit _ (Nat.mod_lt _ (by decide))

/-- A word of the dictionary is recognised wherever it stands in a text. -/
theorem recognised (far : BitVec 32 → ℕ → BitVec 32) (a w b : Text) (hw : w.bytes.length ≤ maxPhraseSLen) :
    ∃ pos, bitmapPos (total far) (w.bytes ++ [0]) w.bytes.length = some pos ∧
      bitmapPos (total far) ((a.bytes ++ w.bytes ++ b.bytes ++ [0]).drop a.bytes.length) w.bytes.length = some pos ∧
      ∀ bm, ∃ bm', edivWordSet (total far) bm w.bytes = some bm' ∧
        inBitmap (total far) bm' ((a.bytes ++ w.bytes ++ b.bytes ++ [0]).drop a.bytes.length) w.bytes.length =
          some true := by
  have hdrop : (a.bytes ++ w.bytes ++ b.bytes ++ [0]).drop a.bytes.length = w.bytes ++ (b.bytes ++ [0]) := by
    rw [List.append_assoc, List.append_assoc, List.drop_left]
  have halone := bitmapPos_text (total far) w (List.mem_singleton_self 0)
  have hthere := bitmapPos_text (total far) w (List.mem_append_right b.bytes (List.mem_singleton_self 0))
  obtain ⟨pos, hpos⟩ :=
    exists_positionOf far ((w.bytes.length - narrows (textPieces w.chars)) / 3) (textPieces w.chars)
  rw [hpos] at halone hthere
  rw [hdrop]
  refine ⟨pos, halone, hthere, ?_⟩
  intro bm
  refine ⟨bitmapSet bm pos, ?_, ?_⟩
  · unfold edivWordSet
    rw [if_neg (by omega), halone]
    rfl
  · unfold inBitmap
    rw [hthere]
    exact congrArg some (bitmapGet_bitmapSet bm pos)

/-- 姐 behind hold -/
theorem recognised_hold : ∃ pos, bitmapPos (total fun x _ => x) ([0xE5, 0xA7, 0x90] ++ [0]) 3 = some pos ∧
    bitmapPos (total fun x _ => x) ([104, 111, 108, 100, 0xE5, 0xA7, 0x90, 46, 0].drop 4) 3 = some pos ∧
    ∀ bm, ∃ bm', edivWordSet (total fun x _ => x) bm [0xE5, 0xA7, 0x90] = some bm' ∧
      inBitmap (total fun x _ => x) bm' ([104, 111, 108, 100, 0xE5, 0xA7, 0x90, 46, 0].drop 4) 3 = some true :=
  recognised (fun x _ => x) ⟨['h', 'o', 'l', 'd'], by decide⟩ ⟨['姐'], by decide⟩ ⟨['.'], by decide⟩ (by decide)

end Cmoon.TextCharacters
