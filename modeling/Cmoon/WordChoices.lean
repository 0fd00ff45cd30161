import Cmoon.WordDivision
import Mathlib.Order.Bounds.Basic

/-! # The longest words

With `EDIV_SOPT_ONLY_MAXMATCH` each segment should be the longest word of the dictionary that the remaining text begins
with. The inner loop ends at the first one, and it does not look at words of 45 bytes. -/
namespace Cmoon.WordChoices
open DecimalText ByteBuffers WordBitmaps TextCharacters StepMachines GreedyCuts WordDivision

def maxPhraseLen : ℕ := 15

def onlyMaxmatch : Options := ⟨true, false, false, false⟩

def string (text : Text) : CString := ⟨text.bytes, text.zero_notMem⟩

section Dictionary
variable (far : BitVec 32 → ℕ → BitVec 32) (bm : Bitmap)

/-- The first `n` characters are a word of the dictionary. -/
def Word (cs : List Char) (n : ℕ) : Prop :=
  1 ≤ n ∧ n ≤ cs.length ∧ n ≤ maxPhraseLen ∧ (encode (cs.take n)).length ≤ maxPhraseSLen ∧
    hasBit far bm (encode (cs.take n)) = true

def Choice (cs : List Char) (n : ℕ) : Prop :=
  IsGreatest {n | Word far bm cs n} n ∨ ((∀ n, ¬ Word far bm cs n) ∧ n = 1)

def LongestWord (rest : Bytes) (L : ℕ) : Prop :=
  ∃ cs n, rest = encode cs ∧ Choice far bm cs n ∧ L = (encode (cs.take n)).length

def FindsLongest (text : Text) (wnum : Option ℤ) : Prop :=
  ∃ r ns, Halts (step far bm (string text) onlyMaxmatch true) (initial wnum) r ∧
    r.segments = segmentsAt 0 ns ∧ CutBy (LongestWord far bm) text.bytes ns

/-- The inner loop ends at once, or without a word. -/
def Blind (rest : Bytes) : Prop := Probe far bm rest 0 ∨ ∀ L, ¬ Probe far bm rest L

/-- Where the inner loop is blind, no word has more than one character, and the next character is not of two or four
bytes. Where it is not, the first word that it comes to is the longest one. -/
def Agrees (cs : List Char) : Prop :=
  (Blind far bm (encode cs) → (∀ n, Word far bm cs n → n = 1) ∧
    ((encode (cs.take 1)).length = 1 ∨ (encode (cs.take 1)).length = 3)) ∧
  (¬ Blind far bm (encode cs) → ∃ n, IsGreatest {n | Word far bm cs n} n ∧
    IsLeast {L | Probe far bm (encode cs) L} (encode (cs.take n)).length)

end Dictionary

variable {far : BitVec 32 → ℕ → BitVec 32} {bm : Bitmap} {cs : List Char} {rest : Bytes} {n n' L : ℕ}

theorem choice_unique (h : Choice far bm cs n) (h' : Choice far bm cs n') : n = n' := by
  obtain hgreatest | ⟨hnone, rfl⟩ := h
  · obtain hgreatest' | ⟨hnone, -⟩ := h'
    · exact hgreatest.unique hgreatest'
    · exact absurd hgreatest.1 (hnone n)
  · obtain hgreatest' | ⟨-, rfl⟩ := h'
    · exact absurd hgreatest'.1 (hnone n')
    · rfl

theorem longestWord_iff :
    LongestWord far bm (encode cs) L ↔ ∃ n, Choice far bm cs n ∧ L = (encode (cs.take n)).length := by
  constructor
  · rintro ⟨cs', n, hcs, hchoice, hL⟩
    rw [← encode_injective hcs] at hchoice hL
    exact ⟨n, hchoice, hL⟩
  · rintro ⟨n, hchoice, hL⟩
    exact ⟨cs, n, rfl, hchoice, hL⟩

theorem longestWord_unique {L' : ℕ} (h : LongestWord far bm rest L) (h' : LongestWord far bm rest L') : L = L' := by
  obtain ⟨cs, n, rfl, hchoice, rfl⟩ := h
  obtain ⟨n', hchoice', rfl⟩ := longestWord_iff.mp h'
  rw [choice_unique hchoice hchoice']

theorem segmented_of_blind (h : Blind far bm rest) : Segmented far bm rest L ↔ L = unit rest := by
  constructor
  · rintro (⟨hleast, hpos⟩ | ⟨-, hL⟩)
    · obtain hzero | hnone := h
      · exact absurd (hleast.2 hzero) (Nat.not_le.mpr hpos)
      · exact absurd hleast.1 (hnone L)
    · exact hL
  · exact fun hL => .inr ⟨h, hL⟩

theorem segmented_of_not_blind (h : ¬ Blind far bm rest) :
    Segmented far bm rest L ↔ IsLeast {L | Probe far bm rest L} L := by
  constructor
  · rintro (⟨hleast, -⟩ | ⟨hblind, -⟩)
    · exact hleast
    · exact absurd hblind h
  · intro hleast
    refine .inl ⟨hleast, Nat.pos_of_ne_zero ?_⟩
    rintro rfl
    exact h (.inl hleast.1)

theorem segmented_unique {L' : ℕ} (h : Segmented far bm rest L) (h' : Segmented far bm rest L') : L = L' := by
  by_cases hblind : Blind far bm rest
  · rw [(segmented_of_blind hblind).mp h, (segmented_of_blind hblind).mp h']
  · exact ((segmented_of_not_blind hblind).mp h).unique ((segmented_of_not_blind hblind).mp h')

theorem encode_ne_nil (h : cs ≠ []) : encode cs ≠ [] := by
  intro hnil
  exact h (encode_injective hnil)

theorem encode_take_drop (cs : List Char) (n : ℕ) : encode cs = encode (cs.take n) ++ encode (cs.drop n) := by
  rw [← encode_append, List.take_append_drop]

theorem take_encode (cs : List Char) (n : ℕ) : (encode cs).take (encode (cs.take n)).length = encode (cs.take n) := by
  conv_lhs => rw [encode_take_drop cs n, List.take_left]

theorem drop_encode (cs : List Char) (n : ℕ) : (encode cs).drop (encode (cs.take n)).length = encode (cs.drop n) := by
  conv_lhs => rw [encode_take_drop cs n, List.drop_left]

theorem length_encode_take (hlt : n < n') (hle : n' ≤ cs.length) :
    (encode (cs.take n)).length < (encode (cs.take n')).length := by
  have htake : cs.take n' = cs.take n ++ (cs.drop n).take (n' - n) := by
    rw [List.take_add.symm, Nat.add_sub_cancel' hlt.le]
  have hne : (cs.drop n).take (n' - n) ≠ [] := by
    apply List.ne_nil_of_length_pos
    rw [List.length_take, List.length_drop]
    omega
  rw [htake, encode_append, List.length_append]
  exact Nat.lt_add_of_pos_right (List.length_pos_iff.mpr (encode_ne_nil hne))

/-- The next character as the inner loop has it is the next character if that has one byte or three, and shorter if not. -/
theorem unit_encode (h : cs ≠ []) :
    unit (encode cs) = (encode (cs.take 1)).length ∧
        ((encode (cs.take 1)).length = 1 ∨ (encode (cs.take 1)).length = 3) ∨
      unit (encode cs) < (encode (cs.take 1)).length ∧
        ¬ ((encode (cs.take 1)).length = 1 ∨ (encode (cs.take 1)).length = 3) := by
  obtain ⟨c, cs, rfl⟩ := List.exists_cons_of_ne_nil h
  have hfirst : encode ((c :: cs).take 1) = String.utf8EncodeChar c := List.flatMap_singleton _ _
  have hall : encode (c :: cs) = String.utf8EncodeChar c ++ encode cs := rfl
  rw [hfirst, hall]
  unfold unit
  have hspelled := spelled c
  generalize String.utf8EncodeChar c = m at hspelled ⊢
  cases hspelled with
  | one hx => simp [hx.startsWide]
  | two hx hy => simp [hx.startsWide]
  | @three x y z h =>
    have hwide : startsWide (x :: y :: z :: encode cs) = true := h
    simp [hwide]
  | @four x y z u h hu =>
    have hwide : startsWide (x :: y :: z :: u :: encode cs) = true := h
    simp [hwide]

theorem choice_le (h : Choice far bm cs n) : 1 ≤ n ∧ (n = 1 ∨ n ≤ cs.length) := by
  obtain hgreatest | ⟨-, rfl⟩ := h
  · exact ⟨hgreatest.1.1, .inr hgreatest.1.2.1⟩
  · exact ⟨le_rfl, .inl rfl⟩

theorem choice_one (h : ∀ n, Word far bm cs n → n = 1) : Choice far bm cs 1 := by
  by_cases hone : Word far bm cs 1
  · exact .inl ⟨hone, fun n hn => (h n hn).le⟩
  · refine .inr ⟨fun n hn => ?_, rfl⟩
    rw [h n hn] at hn
    exact hone hn

theorem word_of_choice_one (h : Choice far bm cs 1) (hn : Word far bm cs n) : n = 1 := by
  obtain hgreatest | ⟨hnone, -⟩ := h
  · exact le_antisymm (hgreatest.2 hn) hn.1
  · exact absurd hn (hnone n)

theorem longestWord_unit (hcs : cs ≠ []) :
    LongestWord far bm (encode cs) (unit (encode cs)) ↔ (∀ n, Word far bm cs n → n = 1) ∧
      ((encode (cs.take 1)).length = 1 ∨ (encode (cs.take 1)).length = 3) := by
  rw [longestWord_iff]
  constructor
  · rintro ⟨n, hchoice, hunit⟩
    have hone : n = 1 := by
      obtain ⟨hpos, hn | hle⟩ := choice_le hchoice
      · exact hn
      · by_contra hne
        have hlt := length_encode_take (show 1 < n by omega) hle
        obtain ⟨heq, -⟩ | ⟨hshort, -⟩ := unit_encode hcs
        · omega
        · omega
    rw [hone] at hchoice hunit
    obtain ⟨-, hwidth⟩ | ⟨hshort, -⟩ := unit_encode hcs
    · exact ⟨fun m hm => word_of_choice_one hchoice hm, hwidth⟩
    · exact absurd hunit hshort.ne
  · rintro ⟨hwords, hwidth⟩
    obtain ⟨heq, -⟩ | ⟨-, hother⟩ := unit_encode hcs
    · exact ⟨1, choice_one hwords, heq⟩
    · exact absurd hwidth hother

theorem longestWord_of_isLeast (hcs : cs ≠ []) (hleast : IsLeast {L | Probe far bm (encode cs) L} L) :
    LongestWord far bm (encode cs) L ↔ ∃ n, IsGreatest {n | Word far bm cs n} n ∧
      IsLeast {L | Probe far bm (encode cs) L} (encode (cs.take n)).length := by
  rw [longestWord_iff]
  constructor
  · rintro ⟨n, hchoice, rfl⟩
    obtain hgreatest | ⟨hnone, rfl⟩ := hchoice
    · exact ⟨n, hgreatest, hleast⟩
    · -- What the inner loop has found is a word of one character.
      obtain ⟨hlt, -, qs, hqs, hlen, hbit⟩ := hleast.1
      have hpos : 1 ≤ cs.length := List.length_pos_iff.mpr hcs
      have hbytes : bytesOf qs = encode (cs.take 1) := by
        rw [bytesOf_eq_take hqs, hlen, take_encode]
      rw [hbytes] at hbit
      exact absurd ⟨le_rfl, hpos, by decide, hlt.le, hbit⟩ (hnone 1)
  · rintro ⟨n, hgreatest, hleast'⟩
    exact ⟨n, .inl hgreatest, hleast.unique hleast'⟩

theorem exists_isLeast (h : ¬ Blind far bm rest) : ∃ L, IsLeast {L | Probe far bm rest L} L := by
  classical
  obtain ⟨-, hsome⟩ := not_or.mp h
  obtain ⟨L, hL⟩ := not_forall.mp hsome
  have hex : ∃ L, Probe far bm rest L := ⟨L, not_not.mp hL⟩
  exact ⟨Nat.find hex, Nat.find_spec hex, fun L hL => Nat.find_min' hex hL⟩

/-- The inner loop finds the longest word of a text where the two agree. -/
theorem agrees_iff (hcs : cs ≠ []) :
    (∀ L, Segmented far bm (encode cs) L → LongestWord far bm (encode cs) L) ↔ Agrees far bm cs := by
  unfold Agrees
  by_cases hblind : Blind far bm (encode cs)
  · rw [← longestWord_unit hcs]
    simp only [segmented_of_blind hblind, forall_eq, hblind, true_imp_iff, not_true, false_imp_iff, and_true]
  · obtain ⟨L, hL⟩ := exists_isLeast hblind
    rw [← longestWord_of_isLeast hcs hL]
    simp only [segmented_of_not_blind hblind, hblind, false_imp_iff, not_false_iff, true_imp_iff, true_and]
    constructor
    · exact fun h => h L hL
    · intro h L' hL'
      rwa [hL'.unique hL]

theorem left_encode {l l' : Bytes} (h : Left (LongestWord far bm) l l') : ∀ cs, l = encode cs → ∃ cs', l' = encode cs' := by
  induction h with
  | here l => exact fun cs hcs => ⟨cs, hcs⟩
  | there hl hword hrest ih =>
    rintro cs rfl
    obtain ⟨n, -, rfl⟩ := longestWord_iff.mp hword
    exact ih (cs.drop n) (drop_encode cs n)

theorem segmentsAt_injective {s : ℕ} {ns ns' : List ℕ} (h : segmentsAt s ns = segmentsAt s ns') : ns = ns' := by
  have hlens : ∀ s ns, (segmentsAt s ns).map Segment.len = ns := by
    intro s ns
    induction ns generalizing s with
    | nil => rfl
    | cons n ns ih => exact congrArg (n :: ·) (ih (s + n))
  rw [← hlens s ns, h, hlens]

theorem exists_division (far : BitVec 32 → ℕ → BitVec 32) (bm : Bitmap) (text : Text) (wnum : Option ℤ) :
    ∃ r ns, Halts (step far bm (string text) onlyMaxmatch true) (initial wnum) r ∧ r.segments = segmentsAt 0 ns ∧
      CutBy (Segmented far bm) text.bytes ns := by
  by_cases h : text.bytes = []
  · refine ⟨.refused, [], ⟨_, Visits.refl _, if_pos (List.length_eq_zero_iff.mpr h)⟩, rfl, ?_⟩
    rw [h]
    exact .nil
  · have hthrow : onlyMaxmatch.throwUnknown = false := rfl
    have hskip : onlyMaxmatch.skipNutf = false := rfl
    obtain ⟨ns, new, wnum', hhalts, hcut, -, hnew⟩ :=
      split_run far bm hthrow hskip (Nat.zero_le (string text).bytes.length) [] wnum
    have hnonempty : (string text).bytes ≠ [] := h
    exact ⟨_, ns, (initial_visits hnonempty wnum).halts hhalts, hnew rfl, hcut⟩

theorem findsLongest_iff_cutBy {text : Text} {wnum : Option ℤ} {r : Result} {ns : List ℕ}
    (hhalts : Halts (step far bm (string text) onlyMaxmatch true) (initial wnum) r) (hr : r.segments = segmentsAt 0 ns) :
    FindsLongest far bm text wnum ↔ CutBy (LongestWord far bm) text.bytes ns := by
  constructor
  · rintro ⟨r', ns', hhalts', hr', hcut'⟩
    rw [hhalts'.unique hhalts, hr] at hr'
    rwa [segmentsAt_injective hr']
  · exact fun hcut => ⟨r, ns, hhalts, hr, hcut⟩

/-- The longest words are found in the texts of which, wherever the longest words lead, the inner loop finds them. -/
theorem findsLongest_iff (far : BitVec 32 → ℕ → BitVec 32) (bm : Bitmap) (text : Text) (wnum : Option ℤ) :
    FindsLongest far bm text wnum ↔
      ∀ cs, Left (LongestWord far bm) text.bytes (encode cs) → cs ≠ [] → Agrees far bm cs := by
  obtain ⟨r, ns, hhalts, hr, hcut⟩ := exists_division far bm text wnum
  have hR : ∀ l n n', Segmented far bm l n → Segmented far bm l n' → n = n' := fun _ _ _ => segmented_unique
  have hG : ∀ l n n', LongestWord far bm l n → LongestWord far bm l n' → n = n' := fun _ _ _ => longestWord_unique
  rw [findsLongest_iff_cutBy hhalts hr, cutBy_iff hR hG hcut]
  constructor
  · intro h cs hleft hcs
    exact (agrees_iff hcs).mp (h _ hleft (encode_ne_nil hcs))
  · intro h l' hleft hl'
    obtain ⟨cs, rfl⟩ := left_encode hleft text.chars rfl
    have hcs : cs ≠ [] := by
      rintro rfl
      exact hl' rfl
    exact (agrees_iff hcs).mpr (h cs hleft hcs)

def twoWords : Bitmap := [['中'], ['中', '国']].foldl
  (fun bm w => (edivWordSet (total fun x _ => x) bm (encode w)).getD bm) fun _ => 0

def china : Text := ⟨['中', '国'], by decide⟩

theorem china_pieces : pieces china.bytes = [.wide 0xE4 0xB8 0xAD, .wide 0xE5 0x9B 0xBD] := by decide

theorem china_segmented : Segmented (fun x _ => x) twoWords china.bytes 3 := by
  have hprobe : Probe (fun x _ => x) twoWords china.bytes 3 := by
    refine ⟨by decide, by decide, [.wide 0xE4 0xB8 0xAD], ?_, rfl, by decide +kernel⟩
    rw [china_pieces]
    exact ⟨_, rfl⟩
  refine .inl ⟨⟨hprobe, ?_⟩, by decide⟩
  rintro L ⟨-, -, qs, hqs, rfl, hbit⟩
  rw [china_pieces] at hqs
  cases qs with
  | nil =>
    have hzero : hasBit (fun x _ => x) twoWords (bytesOf []) = false := by decide +kernel
    rw [hzero] at hbit
    cases hbit
  | cons p qs =>
    obtain ⟨rfl, -⟩ := List.cons_prefix_cons.mp hqs
    rw [bytesOf_cons, List.length_append]
    exact Nat.le_add_right 3 _

theorem china_word : Word (fun x _ => x) twoWords china.chars 2 :=
  ⟨by decide, by decide, by decide, by decide, by decide +kernel⟩

/-- 中国 is not passed on. -/
theorem not_findsLongest : ¬ FindsLongest (fun x _ => x) twoWords china none := by
  obtain ⟨r, ns, hhalts, hr, hcut⟩ := exists_division (fun x _ => x) twoWords china none
  rw [findsLongest_iff_cutBy hhalts hr]
  intro hcut'
  cases hcut with
  | cons hl hL hrest =>
    cases hcut' with
    | cons _ hword _ =>
      rw [segmented_unique hL china_segmented] at hword
      obtain ⟨n, hchoice, hn⟩ := longestWord_iff.mp hword
      have hone : n = 1 := by
        obtain ⟨hpos, h | hle⟩ := choice_le hchoice
        · exact h
        · have hle : n ≤ 2 := hle
          by_contra hne
          have htwo : n = 2 := by omega
          rw [htwo] at hn
          exact absurd hn (by decide)
      rw [hone] at hchoice
      exact absurd (word_of_choice_one hchoice china_word) (by decide)

end Cmoon.WordChoices
