import Mathlib.Data.List.Nodup
import Mathlib.Order.Nat

/-! # Memory in blocks

Blocks of memory are allocated one behind the other, and freed. An address that has been given away is not given away
again, so that a use of a freed block is seen. A program that starts in some memory keeps the blocks there are, and owns
those that it has allocated. -/
namespace Cmoon.BlockMemory

abbrev Memory (B : Type*) := List (Option B)

variable {B : Type*}

def blockAt (mem : Memory B) (a : ℕ) : Option B := mem[a]?.join

def malloc (ok : Bool) (b : B) (mem : Memory B) : Option ℕ × Memory B :=
  if ok then (some mem.length, mem ++ [some b]) else (none, mem)

def store (mem : Memory B) (a : ℕ) (b : B) : Option (Memory B) := (blockAt mem a).map fun _ => mem.set a (some b)

def free (mem : Memory B) : Option ℕ → Option (Memory B)
  | none => some mem
  | some a => (blockAt mem a).map fun _ => mem.set a none

def freeAll (mem : Memory B) (ps : List ℕ) : Option (Memory B) := ps.foldlM (fun mem a => free mem (some a)) mem

/-- The memory has the blocks of the old one, and those that are owned. -/
structure Extends (old mem : Memory B) (owned : List ℕ) : Prop where
  length_le : old.length ≤ mem.length
  kept : ∀ a < old.length, blockAt mem a = blockAt old a
  nodup : owned.Nodup
  new : ∀ a ∈ owned, old.length ≤ a
  live_iff : ∀ a, old.length ≤ a → ((blockAt mem a).isSome ↔ a ∈ owned)

variable {old mem : Memory B} {owned olds ps : List ℕ} {a c : ℕ} {b : B}

theorem blockAt_eq_none (h : mem.length ≤ a) : blockAt mem a = none := by
  rw [blockAt, List.getElem?_eq_none h]
  rfl

theorem lt_of_blockAt (h : (blockAt mem a).isSome) : a < mem.length := by
  by_contra hle
  rw [blockAt_eq_none (Nat.le_of_not_lt hle)] at h
  cases h

theorem blockAt_append_of_lt (h : a < mem.length) : blockAt (mem ++ [some b]) a = blockAt mem a := by
  rw [blockAt, List.getElem?_append_left h, blockAt]

theorem blockAt_append_self : blockAt (mem ++ [some b]) mem.length = some b := by
  rw [blockAt, List.getElem?_append_right le_rfl, Nat.sub_self]
  rfl

theorem blockAt_set_self (h : (blockAt mem a).isSome) : blockAt (mem.set a (some b)) a = some b := by
  rw [blockAt, List.getElem?_set_self (lt_of_blockAt h)]
  rfl

theorem blockAt_set_of_ne {x : Option B} (h : c ≠ a) : blockAt (mem.set a x) c = blockAt mem c := by
  rw [blockAt, List.getElem?_set_ne (Ne.symm h), blockAt]

theorem blockAt_set_none : blockAt (mem.set a none) c = if c = a then none else blockAt mem c := by
  by_cases hc : c = a
  · subst hc
    rw [if_pos rfl, blockAt, List.getElem?_set, if_pos rfl]
    split <;> rfl
  · rw [if_neg hc, blockAt_set_of_ne hc]

theorem store_eq (h : (blockAt mem a).isSome) : store mem a b = some (mem.set a (some b)) := by
  obtain ⟨x, hx⟩ := Option.isSome_iff_exists.mp h
  rw [store, hx]
  rfl

theorem free_eq_freeAll (p : Option ℕ) : free mem p = freeAll mem p.toList := by
  cases p with
  | none => rfl
  | some a => simp [freeAll]

theorem freeAll_append (ps qs : List ℕ) : freeAll mem (ps ++ qs) = (freeAll mem ps).bind fun mem => freeAll mem qs := by
  rw [freeAll, List.foldlM_append]
  rfl

theorem freeAll_eq (hlive : ∀ a ∈ ps, (blockAt mem a).isSome) (hnodup : ps.Nodup) :
    ∃ mem', freeAll mem ps = some mem' ∧ ∀ a, blockAt mem' a = if a ∈ ps then none else blockAt mem a := by
  induction ps generalizing mem with
  | nil => exact ⟨mem, rfl, fun a => rfl⟩
  | cons p ps ih =>
    rw [List.forall_mem_cons] at hlive
    obtain ⟨hp, hnodup⟩ := List.nodup_cons.mp hnodup
    obtain ⟨x, hx⟩ := Option.isSome_iff_exists.mp hlive.1
    have hrest : ∀ a ∈ ps, (blockAt (mem.set p none) a).isSome := by
      intro a ha
      rw [blockAt_set_of_ne fun (h : a = p) => hp (h ▸ ha)]
      exact hlive.2 a ha
    obtain ⟨mem', hfree, hblocks⟩ := ih hrest hnodup
    refine ⟨mem', ?_, fun a => ?_⟩
    · rw [freeAll, List.foldlM_cons, free, hx]
      exact hfree
    · rw [hblocks, blockAt_set_none]
      by_cases hap : a = p <;> simp [hap]

theorem Extends.refl (old : Memory B) : Extends old old [] where
  length_le := le_rfl
  kept _ _ := rfl
  nodup := List.nodup_nil
  new := nofun
  live_iff a ha := by simp [blockAt_eq_none ha]

theorem Extends.malloc (h : Extends old mem owned) (b : B) : Extends old (mem ++ [some b]) (mem.length :: owned) where
  length_le := by
    rw [List.length_append]
    exact h.length_le.trans (Nat.le_add_right _ _)
  kept a ha := (blockAt_append_of_lt (ha.trans_le h.length_le)).trans (h.kept a ha)
  nodup := by
    refine List.nodup_cons.mpr ⟨fun hmem => ?_, h.nodup⟩
    exact absurd (lt_of_blockAt ((h.live_iff _ h.length_le).mpr hmem)) (lt_irrefl _)
  new := List.forall_mem_cons.mpr ⟨h.length_le, h.new⟩
  live_iff a ha := by
    obtain hlt | heq | hgt := Nat.lt_trichotomy a mem.length
    · rw [blockAt_append_of_lt hlt, h.live_iff a ha, List.mem_cons, or_iff_right hlt.ne]
    · rw [heq, blockAt_append_self]
      simp
    · have hout : (mem ++ [some b]).length ≤ a := by
        rw [List.length_append]
        exact hgt
      have hnew : a ∉ owned := by
        rw [← h.live_iff a ha, blockAt_eq_none hgt.le]
        exact nofun
      rw [blockAt_eq_none hout, List.mem_cons]
      simp [hgt.ne', hnew]

theorem Extends.isSome (h : Extends old mem owned) (ha : a ∈ owned) : (blockAt mem a).isSome :=
  (h.live_iff a (h.new a ha)).mpr ha

theorem Extends.set (h : Extends old mem owned) (ha : a ∈ owned) (b : B) : Extends old (mem.set a (some b)) owned where
  length_le := by
    rw [List.length_set]
    exact h.length_le
  kept c hc := (blockAt_set_of_ne (hc.trans_le (h.new a ha)).ne).trans (h.kept c hc)
  nodup := h.nodup
  new := h.new
  live_iff c hc := by
    by_cases hca : c = a
    · rw [hca, blockAt_set_self (h.isSome ha)]
      simp [ha]
    · rw [blockAt_set_of_ne hca]
      exact h.live_iff c hc

/-- When all that is owned is freed, with some old blocks, the others are left. -/
theorem Extends.freeAll (h : Extends old mem owned) (hperm : ps.Perm (owned ++ olds))
    (holds : ∀ a ∈ olds, (blockAt old a).isSome) (hnodup : olds.Nodup) :
    ∃ mem', freeAll mem ps = some mem' ∧ ∀ a, blockAt mem' a = if a ∈ olds then none else blockAt old a := by
  have hlive : ∀ a ∈ ps, (blockAt mem a).isSome := by
    intro a ha
    rcases List.mem_append.mp (hperm.mem_iff.mp ha) with ha | ha
    · exact h.isSome ha
    · rw [h.kept a (lt_of_blockAt (holds a ha))]
      exact holds a ha
  have hdisjoint : ∀ a ∈ owned, a ∉ olds := fun a ha hold =>
    absurd (lt_of_blockAt (holds a hold)) (Nat.not_lt.mpr (h.new a ha))
  have hps : ps.Nodup := by
    rw [hperm.nodup_iff, List.nodup_append]
    exact ⟨h.nodup, hnodup, fun a ha c hc hac => hdisjoint a ha (hac ▸ hc)⟩
  obtain ⟨mem', hfree, hblocks⟩ := freeAll_eq hlive hps
  refine ⟨mem', hfree, fun a => ?_⟩
  rw [hblocks]
  obtain hlt | hle := Nat.lt_or_ge a old.length
  · have hnew : a ∉ owned := fun ha => absurd hlt (Nat.not_lt.mpr (h.new a ha))
    simp only [hperm.mem_iff, List.mem_append, hnew, false_or, h.kept a hlt]
  · have hout : blockAt old a = none := blockAt_eq_none hle
    by_cases ha : a ∈ owned
    · simp [hperm.mem_iff, ha, hdisjoint a ha, hout]
    · have hmem : blockAt mem a = none := by
        rw [← Option.not_isSome_iff_eq_none, h.live_iff a hle]
        exact ha
      simp [hout, hmem]

end Cmoon.BlockMemory
