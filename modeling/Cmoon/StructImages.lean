import Cmoon.ByteBuffers

/-! # Images of structures

Structures are cached as they lie in memory: the least significant byte of an `int` or a pointer comes first, and the
strings that the pointers point to come behind. A pointer of an image is of use only in the process that made it. -/
namespace Cmoon.StructImages
open DecimalText ByteBuffers

abbrev Addr := BitVec 64

def intBytes (x : BitVec 32) : Bytes := (be 4 x.toNat).reverse

def addrBytes (a : Addr) : Bytes := (be 8 a.toNat).reverse

/-- An `int` at an offset; none past the end. -/
def intAt (buf : Bytes) (p : ℕ) : Option (BitVec 32) :=
  if p + 4 ≤ buf.length then some (BitVec.ofNat 32 (word (slice buf p 4).reverse)) else none

def addrAt (buf : Bytes) (p : ℕ) : Option Addr :=
  if p + 8 ≤ buf.length then some (BitVec.ofNat 64 (word (slice buf p 8).reverse)) else none

/-- A field of the type `char*`. -/
inductive Str where
  | null
  | str (a : Addr) (ha : a ≠ 0) (text : CString)

def Str.addr : Str → Addr
  | .null => 0
  | .str a _ _ => a

def Str.value : Str → Option Bytes
  | .null => none
  | .str _ _ text => some text.bytes

/-- `STRUCT_PACK_STR` -/
def Str.packed : Str → Bytes
  | .null => [0]
  | .str _ _ text => text.bytes ++ [0]

/-- A field that has been unpacked: the pointer of the image, or a copy of what is behind it. -/
inductive Field where
  | kept (a : Addr)
  | fresh (text : Bytes)

/-- `STRUCT_UNPACK_STR` with the pointer of the image, and where it goes on. The end of the buffer is looked at behind
the string only. -/
def structUnpackStr (buf : Bytes) (p : ℕ) (a : Addr) : Option (Field × ℕ) :=
  match buf[p]? with
  | none => none
  | some x => if x = 0 then some (.kept a, p + 1) else (cstrAt buf p).map fun t => (.fresh t, p + t.length + 1)

/-- The string of a field that has been unpacked, in a process that has `text` at the addresses of an image. -/
def Field.value (text : Addr → Option Bytes) : Field → Option (Option Bytes)
  | .kept a => if a = 0 then some none else (text a).map some
  | .fresh t => some (some t)

def SameStr (text : Addr → Option Bytes) (s : Str) (f : Field) : Prop := f.value text = some s.value

def noText : Addr → Option Bytes := fun _ => none

/-- Some bytes are written one after the other. -/
def writeAll (buf : Bytes) (pos : ℕ) : List Bytes → Option Bytes
  | [] => some buf
  | c :: cs => (store buf pos c).bind fun buf => writeAll buf (pos + c.length) cs

def zeros (n : ℕ) : Bytes := List.replicate n 0

def ZeroFrom (buf : Bytes) (x : ℕ) : Prop := ∀ i, x ≤ i → ∀ v, buf[i]? = some v → v = 0

variable {buf m : Bytes} {p pos x y : ℕ} {a : Addr} {s : Str} {f : Field}

@[simp] theorem length_intBytes (x : BitVec 32) : (intBytes x).length = 4 := by simp [intBytes]

@[simp] theorem length_addrBytes (a : Addr) : (addrBytes a).length = 8 := by simp [addrBytes]

theorem writeAll_eq {cs : List Bytes} (h : pos ≤ buf.length) : writeAll buf pos cs = store buf pos cs.flatten := by
  induction cs generalizing buf pos with
  | nil =>
    rw [List.flatten_nil, store_eq (by simpa using h)]
    simp [writeAll, overwrite]
  | cons c cs ih =>
    rw [List.flatten_cons, ← store_append]
    unfold writeAll
    by_cases hfits : pos + c.length ≤ buf.length
    · rw [store_eq hfits, Option.bind_some, Option.bind_some]
      exact ih (by rwa [length_overwrite hfits])
    · have hnone : store buf pos c = none := store_eq_none.mpr (by omega)
      rw [hnone]
      rfl

theorem ZeroFrom.mono (h : ZeroFrom buf x) (hle : x ≤ y) : ZeroFrom buf y := fun i hi => h i (hle.trans hi)

theorem ZeroFrom.slice (h : ZeroFrom buf x) (hle : x ≤ p) (n : ℕ) : ∀ v ∈ slice buf p n, v = 0 := by
  intro v hv
  obtain ⟨i, hi⟩ := List.mem_iff_getElem?.mp (List.mem_of_mem_take hv)
  rw [List.getElem?_drop] at hi
  exact h (p + i) (hle.trans (Nat.le_add_right _ _)) v hi

theorem word_zeros (h : ∀ v ∈ m, v = 0) : word m = 0 := by
  induction m with
  | nil => rfl
  | cons x m ih =>
    rw [word_cons, h x List.mem_cons_self, ih fun v hv => h v (List.mem_cons_of_mem x hv)]
    simp

theorem zeroFrom_zeros (n : ℕ) : ZeroFrom (zeros n) 0 := by
  intro i _ v hv
  exact List.eq_of_mem_replicate (List.mem_of_getElem? hv)

theorem ZeroFrom.extend {b c : Bytes} (hbuf : buf = b ++ (m ++ c)) (hm : ∀ v ∈ m, v = 0)
    (h : ZeroFrom buf (max (b.length + m.length) y)) : ZeroFrom buf (max b.length y) := by
  intro i hi v hv
  by_cases hlt : i < b.length + m.length
  · rw [hbuf, List.getElem?_append_right (by omega), List.getElem?_append_left (by omega)] at hv
    exact hm v (List.mem_of_getElem? hv)
  · exact h i (by omega) v hv

theorem ZeroFrom.intAt (h : ZeroFrom buf x) (hle : x ≤ p) {v : BitVec 32} (hv : intAt buf p = some v) : v = 0 := by
  unfold StructImages.intAt at hv
  split at hv
  · cases hv
    rw [word_zeros fun v hv => h.slice hle 4 v (List.mem_reverse.mp hv)]
    rfl
  · cases hv

theorem ZeroFrom.intAt_eq (h : ZeroFrom buf x) (hle : x ≤ p) (hp : p + 4 ≤ buf.length) :
    StructImages.intAt buf p = some 0 := by
  have hsome : ∃ v, StructImages.intAt buf p = some v := by
    unfold StructImages.intAt
    rw [if_pos hp]
    exact ⟨_, rfl⟩
  obtain ⟨v, hv⟩ := hsome
  rw [hv, h.intAt hle hv]

theorem intAt_mid {b c : Bytes} {v : BitVec 32} (hbuf : buf = b ++ (intBytes v ++ c)) (hp : p = b.length) :
    intAt buf p = some v := by
  have hle : p + 4 ≤ buf.length := by simp [hbuf, hp]
  unfold intAt
  rw [if_pos hle, slice_mid hbuf hp (length_intBytes v).symm]
  unfold intBytes
  rw [List.reverse_reverse, word_be_of_lt (by exact v.isLt)]
  simp

theorem fresh_last {t : Bytes} {q : ℕ} (h : structUnpackStr buf p a = some (.fresh t, q)) :
    p < q - 1 ∧ ∃ v, v ≠ 0 ∧ buf[q - 2]? = some v := by
  unfold structUnpackStr at h
  split at h
  · cases h
  · rename_i x hx
    split at h
    · cases h
    · rename_i hne
      obtain ⟨t', ht, heq⟩ := Option.map_eq_some_iff.mp h
      cases heq
      unfold cstrAt at ht
      split at ht
      · have ht : (buf.drop p).takeWhile (· ≠ 0) = t := Option.some.inj ht
        have hdrop : buf.drop p = x :: buf.drop (p + 1) := by
          obtain ⟨hlt, rfl⟩ := List.getElem?_eq_some_iff.mp hx
          exact List.drop_eq_getElem_cons hlt
        have hpos : 0 < t.length := by
          rw [← ht, hdrop, List.takeWhile_cons_of_pos (by simpa using hne)]
          exact Nat.succ_pos _
        have hlast : t.length - 1 < t.length := by omega
        refine ⟨by omega, t[t.length - 1], ?_, ?_⟩
        · have hmem : t[t.length - 1] ∈ (buf.drop p).takeWhile (· ≠ 0) := ht ▸ List.getElem_mem hlast
          have hall := List.all_eq_true.mp List.all_takeWhile _ hmem
          simpa using hall
        · obtain ⟨rest, hrest⟩ : t <+: buf.drop p := ht ▸ List.takeWhile_prefix _
          have hget : (buf.drop p)[t.length - 1]? = some t[t.length - 1] := by
            rw [← hrest, List.getElem?_append_left hlast, List.getElem?_eq_getElem hlast]
          rw [List.getElem?_drop] at hget
          rw [← hget]
          congr 1
          omega
      · cases ht

theorem same_kept (h : SameStr noText s (.kept a)) : a = 0 ∧ s = .null := by
  change (if a = 0 then some none else none) = _ at h
  split at h
  · rename_i ha
    cases s with
    | null => exact ⟨ha, rfl⟩
    | str a' ha' text => cases h
  · cases h

theorem same_length {q : ℕ} (h : structUnpackStr buf p a = some (f, q)) (hsame : SameStr noText s f) :
    q = p + s.packed.length := by
  cases f with
  | kept a' =>
    obtain ⟨-, rfl⟩ := same_kept hsame
    unfold structUnpackStr at h
    split at h
    · cases h
    · split at h
      · cases h
        rfl
      · obtain ⟨t, -, heq⟩ := Option.map_eq_some_iff.mp h
        cases heq
  | fresh t =>
    unfold structUnpackStr at h
    split at h
    · cases h
    · split at h
      · cases h
      · obtain ⟨t', -, heq⟩ := Option.map_eq_some_iff.mp h
        cases heq
        cases s with
        | null => cases hsame
        | str a' ha' text =>
          cases hsame
          simp [Str.packed]
          omega

end Cmoon.StructImages
