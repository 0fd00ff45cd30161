import Cmoon.ByteBuffers
import Cmoon.TextLists

/-! # Splitting a string in place (`explode` of `common.c`)

The separators in the string are overwritten with zeros, and pointers to the pieces are stored. The limit is looked at
when a pointer has been stored, so that the first byte of the string can bring a pointer too many. -/
namespace Cmoon.ExplodedTexts
open DecimalText ByteBuffers TextLists

/-- What a call leaves: what it returns, the bytes of the string, and the pointers stored in `tP`, each with its index
and as the offset of the byte pointed at. -/
structure Exploded where
  ret : ℕ
  buf : Bytes
  tP : List (ℕ × ℕ)
  deriving DecidableEq, Repr

/-- `*(input + 1) != '\0' && *(input + 1) != split`, where `rest` is what is behind `input`. -/
def begins (split : UInt8) (rest : Bytes) : Bool := rest.headD 0 ≠ 0 && rest.headD 0 ≠ split

/-- The loop, with the bytes that are behind the pointer `input` already. -/
def explodeLoop (split : UInt8) (limit : ℕ) (before : Bytes) (i : ℕ) (tP : List (ℕ × ℕ)) : Bytes → Exploded
  | [] => ⟨i, before, tP⟩
  | c :: rest =>
    if c = split then
      if begins split rest then
        let i := i + 1
        let tP := tP ++ [(i, before.length + 1)]
        if i + 1 = limit then ⟨i, before ++ 0 :: rest, tP⟩ else explodeLoop split limit (before ++ [0]) i tP rest
      else
        -- `i` is raised and lowered again
        if i + 1 = limit then ⟨i, before ++ 0 :: rest, tP⟩ else explodeLoop split limit (before ++ [0]) i tP rest
    else
      if i + 1 = limit then ⟨i, before ++ c :: rest, tP⟩ else explodeLoop split limit (before ++ [c]) i tP rest

def explode (split : UInt8) (input : CString) (limit : ℕ) : Exploded :=
  explodeLoop split limit [] 0 [(0, 0)] input.bytes

def token (buf : Bytes) (o : ℕ) : Bytes := (buf.drop o).takeWhile (· ≠ 0)

/-- The strings that the stored pointers point to after the call -/
def Exploded.tokens (r : Exploded) : List Bytes := r.tP.map fun p => token r.buf p.2

/-- The splitting of a string respects its limit: pointers are stored below it and one after the other, they are `input`
or point to a byte of it, and a string that does not begin with a separator is cut into its pieces. -/
structure Respects (split : UInt8) (input : CString) (limit : ℕ) : Prop where
  writes : ∀ p ∈ (explode split input limit).tP, p.1 < limit
  points : ∀ p ∈ (explode split input limit).tP, p.2 = 0 ∨ p.2 < input.bytes.length
  numbered : (explode split input limit).tP.map Prod.fst = List.range ((explode split input limit).ret + 1)
  tokens : input.bytes ≠ [] → input.bytes.head? ≠ some split →
    (explode split input limit).tokens = piecesMax split limit input.bytes

/-- The string begins with a separator, and a piece begins behind it. -/
def LateStart (split : UInt8) (s : Bytes) : Prop := ∃ rest, s = split :: rest ∧ begins split rest

section Loop
variable {split c : UInt8} {limit i k o : ℕ} {before rest b : Bytes} {tP : List (ℕ × ℕ)} {os : List ℕ}

/-- In a string without zeros a piece begins with any byte but the separator. -/
theorem begins_cons (hzero : 0 ∉ c :: rest) : begins split (c :: rest) = true ↔ c ≠ split := by
  have hc : c ≠ 0 := fun hc => hzero (hc ▸ List.mem_cons_self)
  simp [begins, hc]

theorem dropWhile_of_not_begins (hzero : 0 ∉ rest) (h : ¬ begins split rest) :
    rest.dropWhile (· ≠ split) = rest := by
  cases rest with
  | nil => rfl
  | cons d rest =>
    rw [begins_cons hzero, not_not] at h
    simp [h]

theorem exists_of_begins (hzero : 0 ∉ rest) (h : begins split rest) : ∃ d rest', rest = d :: rest' ∧ d ≠ split := by
  cases rest with
  | nil => exact absurd h (by simp [begins])
  | cons d rest => exact ⟨d, rest, rfl, (begins_cons hzero).mp h⟩

theorem takeWhile_of_noZero {s : Bytes} (hzero : 0 ∉ s) : s.takeWhile (· ≠ 0) = s := by
  rw [List.takeWhile_eq_self_iff]
  intro x hx
  exact decide_eq_true fun h => hzero (h ▸ hx)

/-- What the loop makes of the rest of a string, where `k` pointers may still be stored: the bytes it leaves, and the
offsets in them of the pointers it stores. -/
structure Cut (split : UInt8) (k : ℕ) (rest b : Bytes) (os : List ℕ) : Prop where
  inside : ∀ o ∈ os, o < rest.length
  room : os.length ≤ k
  first : b.takeWhile (· ≠ 0) = rest.takeWhile (· ≠ split)
  others : os.map (token b) = piecesMax split k (rest.dropWhile (· ≠ split))

theorem Cut.nil (hk : 0 < k) : Cut split k [] [] [] where
  inside := nofun
  room := Nat.zero_le k
  first := rfl
  others := (piecesMax_nil hk).symm

theorem inside_succ (h : ∀ o ∈ os, o < rest.length) : ∀ o ∈ os.map (· + 1), o < (c :: rest).length := by
  intro o ho
  obtain ⟨o, hmem, rfl⟩ := List.mem_map.mp ho
  exact Nat.succ_lt_succ (h o hmem)

theorem map_token_succ (c : UInt8) (b : Bytes) (os : List ℕ) :
    (os.map (· + 1)).map (token (c :: b)) = os.map (token b) := by
  rw [List.map_map]
  rfl

theorem Cut.other (h : Cut split k rest b os) (hc : c ≠ 0) (hsplit : c ≠ split) :
    Cut split k (c :: rest) (c :: b) (os.map (· + 1)) where
  inside := inside_succ h.inside
  room := by rw [List.length_map]; exact h.room
  first := by
    rw [List.takeWhile_cons_of_pos (by simpa using hc), List.takeWhile_cons_of_pos (by simpa using hsplit), h.first]
  others := by
    rw [map_token_succ, h.others, List.dropWhile_cons_of_pos (by simpa using hsplit)]

theorem Cut.gap (h : Cut split k rest b os) (hzero : 0 ∉ rest) (hgap : ¬ begins split rest) :
    Cut split k (split :: rest) (0 :: b) (os.map (· + 1)) where
  inside := inside_succ h.inside
  room := by rw [List.length_map]; exact h.room
  first := by simp
  others := by
    rw [map_token_succ, h.others, dropWhile_of_not_begins hzero hgap, List.dropWhile_cons_of_neg (by simp),
      piecesMax_cons_self]

theorem Cut.piece (h : Cut split k rest b os) (hk : 1 ≤ k) (hzero : 0 ∉ rest) (hbegins : begins split rest) :
    Cut split (k + 1) (split :: rest) (0 :: b) ((0 :: os).map (· + 1)) := by
  obtain ⟨d, rest, rfl, hsplit⟩ := exists_of_begins hzero hbegins
  refine ⟨inside_succ ?_, ?_, by simp, ?_⟩
  · intro o ho
    rcases List.mem_cons.mp ho with rfl | ho
    · exact Nat.succ_pos _
    · exact h.inside o ho
  · rw [List.length_map, List.length_cons]
    exact Nat.succ_le_succ h.room
  · have hfirst : token b 0 = d :: rest.takeWhile (· ≠ split) := by
      have h := h.first
      rwa [List.takeWhile_cons_of_pos (by simpa using hsplit)] at h
    have hgap : (split :: d :: rest).dropWhile (· ≠ split) = split :: d :: rest :=
      List.dropWhile_cons_of_neg (by simp)
    rw [map_token_succ, List.map_cons, hfirst, h.others, hgap, piecesMax_cons_self, piecesMax_cons hsplit hk,
      List.dropWhile_cons_of_pos (by simpa using hsplit)]

theorem Cut.last (hzero : 0 ∉ rest) (hbegins : begins split rest) : Cut split 1 (split :: rest) (0 :: rest) [1] := by
  obtain ⟨d, rest, rfl, hsplit⟩ := exists_of_begins hzero hbegins
  refine ⟨by simp, by simp, by simp, ?_⟩
  change [(d :: rest).takeWhile (· ≠ 0)] = _
  rw [takeWhile_of_noZero hzero, List.dropWhile_cons_of_neg (by simp), piecesMax_cons_self, piecesMax_one hsplit]

def numbers (i pos : ℕ) (os : List ℕ) : List (ℕ × ℕ) := (os.zipIdx (i + 1)).map fun q => (q.2, pos + q.1)

theorem numbers_succ (i pos : ℕ) (os : List ℕ) : numbers i pos (os.map (· + 1)) = numbers i (pos + 1) os := by
  rw [numbers, numbers, List.zipIdx_map, List.map_map]
  refine List.map_congr_left fun q _ => ?_
  have hoff : pos + (q.1 + 1) = pos + 1 + q.1 := by omega
  exact congrArg (Prod.mk q.2) hoff

theorem numbers_cons (i pos o : ℕ) (os : List ℕ) :
    numbers i pos (o :: os) = (i + 1, pos + o) :: numbers (i + 1) pos os := rfl

theorem exploded_succ (before b : Bytes) (c : UInt8) (i : ℕ) (tP : List (ℕ × ℕ)) (os : List ℕ) :
    (⟨i + os.length, before ++ [c] ++ b, tP ++ numbers i (before ++ [c]).length os⟩ : Exploded) =
      ⟨i + (os.map (· + 1)).length, before ++ c :: b, tP ++ numbers i before.length (os.map (· + 1))⟩ := by
  rw [numbers_succ, List.length_append, List.length_singleton, List.length_map, List.append_assoc,
    List.singleton_append]

theorem explodeLoop_cut (split : UInt8) (before : Bytes) (tP : List (ℕ × ℕ)) (hzero : 0 ∉ rest) (hk : 1 ≤ k)
    (hlimit : i + 1 + k = limit) : ∃ b os, Cut split k rest b os ∧
      explodeLoop split limit before i tP rest =
        ⟨i + os.length, before ++ b, tP ++ numbers i before.length os⟩ := by
  induction rest generalizing before i tP k with
  | nil => exact ⟨[], [], Cut.nil hk, by simp [explodeLoop, numbers]⟩
  | cons c rest ih =>
    rw [List.mem_cons, not_or] at hzero
    have hroom : i + 1 ≠ limit := by omega
    by_cases hsplit : c = split
    · subst hsplit
      by_cases hbegins : begins c rest = true
      · obtain rfl | ⟨k, rfl⟩ : k = 1 ∨ ∃ k', k = k' + 1 + 1 := by
          obtain _ | _ | k := k
          · omega
          · exact .inl rfl
          · exact .inr ⟨k, rfl⟩
        · refine ⟨0 :: rest, [1], Cut.last hzero.2 hbegins, ?_⟩
          rw [explodeLoop, if_pos rfl, if_pos hbegins, if_pos hlimit]
          rfl
        · obtain ⟨b, os, hcut, heq⟩ :=
            ih (before ++ [0]) (tP ++ [(i + 1, before.length + 1)]) hzero.2 (Nat.succ_pos k)
              (show i + 1 + 1 + (k + 1) = limit by omega)
          refine ⟨0 :: b, (0 :: os).map (· + 1), hcut.piece (Nat.succ_pos k) hzero.2 hbegins, ?_⟩
          simp only [explodeLoop, if_true, hbegins, if_neg (by omega : ¬ i + 1 + 1 = limit)]
          rw [heq, exploded_succ, List.map_cons, numbers_cons, List.length_cons, List.append_assoc,
            List.singleton_append, Nat.add_right_comm, Nat.add_assoc]
      · obtain ⟨b, os, hcut, heq⟩ := ih (before ++ [0]) tP hzero.2 hk hlimit
        refine ⟨0 :: b, os.map (· + 1), hcut.gap hzero.2 hbegins, ?_⟩
        rw [explodeLoop, if_pos rfl, if_neg hbegins, if_neg hroom, heq, exploded_succ]
    · obtain ⟨b, os, hcut, heq⟩ := ih (before ++ [c]) tP hzero.2 hk hlimit
      refine ⟨c :: b, os.map (· + 1), hcut.other (Ne.symm hzero.1) hsplit, ?_⟩
      rw [explodeLoop, if_neg hsplit, if_neg hroom, heq, exploded_succ]

theorem mem_tP_explodeLoop {p : ℕ × ℕ} (hp : p ∈ tP) : p ∈ (explodeLoop split limit before i tP rest).tP := by
  induction rest generalizing before i tP with
  | nil => exact hp
  | cons c rest ih =>
    simp only [explodeLoop]
    split_ifs
    · exact List.mem_append_left _ hp
    · exact ih (List.mem_append_left _ hp)
    · exact hp
    · exact ih hp
    · exact hp
    · exact ih hp

theorem map_fst_numbers (i pos : ℕ) (os : List ℕ) :
    (numbers i pos os).map Prod.fst = List.range' (i + 1) os.length := by
  rw [numbers, List.map_map]
  exact List.zipIdx_map_snd (i + 1) os

theorem map_snd_numbers (i : ℕ) (os : List ℕ) : (numbers i 0 os).map Prod.snd = os := by
  rw [numbers, List.map_map]
  calc ((os.zipIdx (i + 1)).map (Prod.snd ∘ fun q => (q.2, 0 + q.1)))
      = (os.zipIdx (i + 1)).map Prod.fst := List.map_congr_left fun q _ => Nat.zero_add q.1
    _ = os := List.zipIdx_map_fst (i + 1) os

end Loop

variable {split : UInt8} {input : CString} {limit : ℕ}

/-- The first byte of a string that neither is empty nor begins with a separator -/
theorem exists_cons_of_head (hne : input.bytes ≠ []) (hhead : input.bytes.head? ≠ some split) :
    ∃ c rest, input.bytes = c :: rest ∧ c ≠ split := by
  obtain ⟨c, rest, hinput⟩ := List.exists_cons_of_ne_nil hne
  refine ⟨c, rest, hinput, ?_⟩
  rintro rfl
  exact hhead (hinput ▸ rfl)

/-- With a limit of two or more there is room for the pointer that the first byte may bring. -/
theorem respects_of_two_le (hlimit : 2 ≤ limit) : Respects split input limit := by
  obtain ⟨k, rfl⟩ := Nat.exists_eq_add_of_le' (Nat.le_of_succ_le hlimit)
  obtain ⟨b, os, hcut, heq⟩ :=
    explodeLoop_cut split [] [(0, 0)] input.noZero (by omega : 1 ≤ k) (Nat.add_comm _ _ : 0 + 1 + k = k + 1)
  have hexplode : explode split input (k + 1) = ⟨os.length, b, (0, 0) :: numbers 0 0 os⟩ := by
    rw [explode, heq, Nat.zero_add]
    rfl
  have hfst : ((0, 0) :: numbers 0 0 os).map Prod.fst = List.range (os.length + 1) := by
    rw [List.map_cons, map_fst_numbers, List.range_eq_range', List.range'_succ]
  have hsnd : ((0, 0) :: numbers 0 0 os).map Prod.snd = 0 :: os := by rw [List.map_cons, map_snd_numbers]
  refine ⟨fun p hp => ?_, fun p hp => ?_, ?_, fun hne hhead => ?_⟩
  · have hmem := List.mem_map_of_mem (f := Prod.fst) (hexplode ▸ hp)
    rw [hfst, List.mem_range] at hmem
    exact hmem.trans_le (Nat.succ_le_succ hcut.room)
  · have hmem := List.mem_map_of_mem (f := Prod.snd) (hexplode ▸ hp)
    rw [hsnd] at hmem
    exact (List.mem_cons.mp hmem).imp_right (hcut.inside p.2)
  · rw [hexplode]
    exact hfst
  · obtain ⟨c, rest, hinput, hc⟩ := exists_cons_of_head hne hhead
    have htokens : (explode split input (k + 1)).tokens = ((0, 0) :: numbers 0 0 os).map fun p => token b p.2 := by
      rw [hexplode]
      rfl
    have hfirst := hcut.first
    have hothers := hcut.others
    rw [hinput, List.takeWhile_cons_of_pos (by simpa using hc)] at hfirst
    rw [hinput, List.dropWhile_cons_of_pos (by simpa using hc)] at hothers
    calc (explode split input (k + 1)).tokens
        = (((0, 0) :: numbers 0 0 os).map Prod.snd).map (token b) := by rw [htokens, List.map_map]; rfl
      _ = b.takeWhile (· ≠ 0) :: os.map (token b) := by rw [hsnd]; rfl
      _ = piecesMax split (k + 1) input.bytes := by rw [hfirst, hothers, hinput, piecesMax_cons hc (by omega)]

/-- With the limit one, the loop ends at the first byte, but not when that byte brings a pointer. -/
theorem explode_one (hlate : ¬ LateStart split input.bytes) :
    ∃ buf, explode split input 1 = ⟨0, buf, [(0, 0)]⟩ ∧ (input.bytes.head? ≠ some split → buf = input.bytes) := by
  unfold explode
  cases hinput : input.bytes with
  | nil => exact ⟨[], rfl, fun _ => rfl⟩
  | cons c rest =>
    by_cases hc : c = split
    · subst hc
      have hbegins : ¬ begins c rest = true := fun hbegins => hlate ⟨rest, hinput, hbegins⟩
      exact ⟨0 :: rest, by simp [explodeLoop, hbegins], fun h => absurd rfl h⟩
    · exact ⟨c :: rest, by simp [explodeLoop, hc], fun _ => rfl⟩

theorem respects_one_iff : Respects split input 1 ↔ ¬ LateStart split input.bytes := by
  constructor
  · rintro h ⟨rest, hinput, hbegins⟩
    have hmem : (1, 1) ∈ (explode split input 1).tP := by
      simp only [explode, hinput, explodeLoop, if_true, hbegins]
      exact mem_tP_explodeLoop (by simp)
    exact absurd (h.writes _ hmem) (lt_irrefl 1)
  · intro hlate
    obtain ⟨buf, hexplode, hbuf⟩ := explode_one hlate
    refine ⟨?_, ?_, ?_, fun hne hhead => ?_⟩
    · simp [hexplode]
    · simp [hexplode]
    · simp [hexplode]
    · have hwhole : token input.bytes 0 = input.bytes := takeWhile_of_noZero input.noZero
      have htokens : (explode split input 1).tokens = [token buf 0] := by
        rw [hexplode]
        rfl
      obtain ⟨c, rest, hinput, hc⟩ := exists_cons_of_head hne hhead
      rw [htokens, hbuf hhead, hwhole, hinput, piecesMax_one hc]

/-- The limit is respected unless it is one and the string begins with a separator and then a piece. -/
theorem explode_respects_iff (hlimit : 1 ≤ limit) :
    Respects split input limit ↔ 2 ≤ limit ∨ ¬ LateStart split input.bytes := by
  obtain rfl | hlimit := hlimit.eq_or_lt
  · simp [respects_one_iff]
  · exact iff_of_true (respects_of_two_le hlimit) (.inl hlimit)

/-- "a,,b,c" at commas, with room for two -/
theorem explode_respects_two :
    1 ≤ 2 ∧ Respects 44 ⟨[97, 44, 44, 98, 44, 99], by decide⟩ 2 :=
  ⟨by decide, (explode_respects_iff (by decide)).mpr (.inl (by decide))⟩

/-- ",a" at commas, with room for one: the pointer to the a is stored behind the end of `tP`. -/
theorem not_respects_late : ¬ Respects 44 ⟨[44, 97], by decide⟩ 1 := by
  intro h
  exact absurd (h.writes (1, 1) (by decide)) (by decide)

end Cmoon.ExplodedTexts
