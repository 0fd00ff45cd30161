import Mathlib.Data.List.Basic

/-! # Streams in blocks

A list is cut into blocks of one size and a rest shorter than a block. The cut is the only one there
is, so a list that comes in pieces can be cut piece by piece. -/
namespace Cmoon.BlockStreams

variable {A : Type*} {size : ℕ}

def blocks (size : ℕ) (l : List A) : List (List A) :=
  (List.range (l.length / size)).map fun k => (l.drop (k * size)).take size

def rest (size : ℕ) (l : List A) : List A := l.drop (l.length - l.length % size)

/-- A cut of a list into blocks and a rest. -/
structure Cut (size : ℕ) (l : List A) (bs : List (List A)) (r : List A) : Prop where
  eq : l = bs.flatten ++ r
  whole : ∀ b ∈ bs, b.length = size
  short : r.length < size

section Cuts
variable {l m r : List A} {bs : List (List A)}

theorem blocks_of_lt (h : l.length < size) : blocks size l = [] := by
  rw [blocks, Nat.div_eq_of_lt h, List.range_zero, List.map_nil]

theorem blocks_cons {b : List A} (hsize : 0 < size) (hb : b.length = size) :
    blocks size (b ++ l) = b :: blocks size l := by
  have hcount : (b ++ l).length / size = l.length / size + 1 := by
    rw [List.length_append, hb, Nat.add_div_left _ hsize]
  rw [blocks, hcount, List.range_succ_eq_map, List.map_cons, List.map_map, blocks]
  congr 1
  · rw [Nat.zero_mul, List.drop_zero, ← hb, List.take_left]
  · refine List.map_congr_left fun k _ => ?_
    rw [Function.comp_apply, Nat.succ_mul, Nat.add_comm, ← hb, ← List.drop_drop, List.drop_left]

theorem rest_of_lt (h : l.length < size) : rest size l = l := by
  rw [rest, Nat.mod_eq_of_lt h, Nat.sub_self, List.drop_zero]

theorem length_rest (l : List A) : (rest size l).length = l.length % size := by
  have := Nat.mod_le l.length size
  rw [rest, List.length_drop]
  omega

theorem rest_cons {b : List A} (hb : b.length = size) : rest size (b ++ l) = rest size l := by
  have hmod : (b ++ l).length % size = l.length % size := by rw [List.length_append, hb, Nat.add_mod_left]
  have hle := Nat.mod_le l.length size
  rw [rest, hmod, rest, List.length_append, Nat.add_sub_assoc hle, List.drop_append, List.drop_of_length_le (by omega)]
  simp

theorem Cut.unique (h : Cut size l bs r) : blocks size l = bs ∧ rest size l = r := by
  have hsize : 0 < size := Nat.zero_lt_of_lt h.short
  obtain ⟨rfl, hwhole, hshort⟩ := h
  induction bs with
  | nil => exact ⟨blocks_of_lt hshort, rest_of_lt hshort⟩
  | cons b bs ih =>
    have hb := hwhole b List.mem_cons_self
    obtain ⟨hblocks, hrest⟩ := ih fun c hc => hwhole c (List.mem_cons_of_mem b hc)
    rw [List.flatten_cons, List.append_assoc, blocks_cons hsize hb, rest_cons hb, hblocks, hrest]
    exact ⟨rfl, rfl⟩

theorem cut (hsize : 0 < size) (l : List A) : Cut size l (blocks size l) (rest size l) := by
  induction hn : l.length using Nat.strongRecOn generalizing l with
  | ind n ih =>
    by_cases hlt : l.length < size
    · rw [blocks_of_lt hlt, rest_of_lt hlt]
      exact ⟨rfl, by simp, hlt⟩
    · have htake : (l.take size).length = size := by rw [List.length_take]; omega
      have hless : (l.drop size).length < n := by rw [List.length_drop]; omega
      obtain ⟨heq, hwhole, hshort⟩ := ih _ hless (l.drop size) rfl
      have hblocks := blocks_cons (l := l.drop size) hsize htake
      have hrest := rest_cons (l := l.drop size) htake
      rw [List.take_append_drop] at hblocks hrest
      rw [hblocks, hrest]
      refine ⟨?_, ?_, hshort⟩
      · rw [List.flatten_cons, List.append_assoc, ← heq, List.take_append_drop]
      · rintro b (- | ⟨-, hb⟩)
        · exact htake
        · exact hwhole b hb

/-- A list that comes in two pieces: the rest of the first goes in front of the second. -/
theorem cut_append (hsize : 0 < size) (l m : List A) :
    blocks size (l ++ m) = blocks size l ++ blocks size (rest size l ++ m) ∧
      rest size (l ++ m) = rest size (rest size l ++ m) := by
  obtain ⟨heq, hwhole, -⟩ := cut hsize l
  obtain ⟨heq', hwhole', hshort'⟩ := cut hsize (rest size l ++ m)
  refine Cut.unique ⟨?_, ?_, hshort'⟩
  · rw [List.flatten_append, List.append_assoc, ← heq', ← List.append_assoc, ← heq]
  · intro b hb
    exact (List.mem_append.mp hb).elim (hwhole b) (hwhole' b)

end Cuts

end Cmoon.BlockStreams
