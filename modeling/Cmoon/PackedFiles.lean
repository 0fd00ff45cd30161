import Cmoon.DamagedRecords

/-! # Files in the cache

A file is packed as its image with the strings behind it. A string that is not there and an empty one are written alike,
and where one of them is read the pointer of the image is kept. -/
namespace Cmoon.PackedFiles
open DecimalText ByteBuffers StructImages DamagedRecords
open PackedMembers (structAddLen structAddLen_eq Ret)

def ints {σ : Type} (file : File σ) : List (BitVec 32) :=
  [file.id, file.aid, file.pid, file.uid, file.gid, file.mode, file.reqtype, file.lmttype]

def strs {σ : Type} (file : File σ) : List σ :=
  [file.name, file.remark, file.uri, file.dataer, file.render, file.intime, file.uptime]

/-- `sizeof(file_t)` bytes -/
def image (file : File Str) : Bytes :=
  ((ints file).map intBytes).flatten ++ ((strs file).map fun s => addrBytes s.addr).flatten

def filePack (file : File Str) : Option Bytes :=
  let len := 88 + ((strs file).map structAddLen).sum + 1
  writeAll (zeros len) 0 (image file :: (strs file).map Str.packed)

/-- The string is there again, as one of its own: `NULL`, or a copy. -/
def Copied (s : Str) (f : Field) : Prop :=
  match s with
  | .null => f = .kept 0
  | .str _ _ text => f = .fresh text.bytes

/-- The file comes back the same, wherever the buffer lies. -/
def Survives (file : File Str) : Prop :=
  ∀ behind, ∃ buf file' c, filePack file = some buf ∧
    fileUnpack (buf ++ behind) buf.length = some (.ok (file', c)) ∧ ints file' = ints file ∧
    List.Forall₂ Copied (strs file) (strs file')

theorem length_image (file : File Str) : (image file).length = 88 := by
  simp [image, ints, strs]

theorem length_packed_strs (ss : List Str) : (ss.map Str.packed).flatten.length = (ss.map structAddLen).sum := by
  have hlens : (ss.map Str.packed).map List.length = ss.map structAddLen := by
    rw [List.map_map]
    exact List.map_congr_left fun s _ => (structAddLen_eq s).symm
  rw [List.length_flatten, hlens]

theorem filePack_eq (file : File Str) :
    filePack file = some (image file ++ (((strs file).map Str.packed).flatten ++ [0])) := by
  have hlen : (image file :: (strs file).map Str.packed).flatten.length = 88 + ((strs file).map structAddLen).sum := by
    rw [List.flatten_cons, List.length_append, length_image, length_packed_strs]
  have hfits : 0 + (image file :: (strs file).map Str.packed).flatten.length ≤
      (zeros (88 + ((strs file).map structAddLen).sum + 1)).length := by
    rw [hlen, zeros, List.length_replicate]
    omega
  rw [filePack, writeAll_eq (Nat.zero_le _), store_eq hfits, overwrite_zero, hlen, zeros, List.drop_replicate,
    Nat.add_sub_cancel_left, List.flatten_cons, List.append_assoc]
  rfl

variable {mem : Bytes} {inlen off : ℕ} {c : Cursor} {r : Bytes}

theorem intAt_of_drop {x : BitVec 32} (h : mem.drop off = intBytes x ++ r) : intAt mem off = some x := by
  have hlen := congrArg List.length h
  simp only [List.length_drop, List.length_append, length_intBytes] at hlen
  refine intAt_mid (b := mem.take off) (c := r) ?_ ?_
  · rw [← h, List.take_append_drop]
  · rw [List.length_take]
    omega

theorem addrAt_of_drop {a : Addr} (h : mem.drop off = addrBytes a ++ r) : addrAt mem off = some a := by
  have hlen := congrArg List.length h
  simp only [List.length_drop, List.length_append, length_addrBytes] at hlen
  rw [addrAt, if_pos (by omega), slice, h, List.take_left' (length_addrBytes a), addrBytes, List.reverse_reverse,
    word_be_of_lt (by exact a.isLt)]
  simp

theorem intsAt_of_drop {xs : List (BitVec 32)} (h : mem.drop off = (xs.map intBytes).flatten ++ r) :
    intsAt mem xs.length off = some xs := by
  induction xs generalizing off with
  | nil => rfl
  | cons x xs ih =>
    rw [List.map_cons, List.flatten_cons, List.append_assoc] at h
    have hrest : mem.drop (off + 4) = (xs.map intBytes).flatten ++ r := by
      rw [← List.drop_drop, h, List.drop_left' (length_intBytes x)]
    rw [List.length_cons, intsAt, intAt_of_drop h, ih hrest]
    rfl

def unpacked : Str → Field
  | .null => .kept 0
  | .str a _ text => unpackedAs a text.bytes

theorem Str.packed_eq (s : Str) : ∃ t, s.packed = t ++ [0] ∧ 0 ∉ t ∧ unpackedAs s.addr t = unpacked s := by
  cases s with
  | null => exact ⟨[], rfl, List.not_mem_nil, rfl⟩
  | str a ha text => exact ⟨text.bytes, rfl, text.noZero, rfl⟩

theorem unpackStrs_packed {ss : List Str} {q : Bytes} (hptr : mem.drop off = (ss.map fun s => addrBytes s.addr).flatten ++ r)
    (hstr : (mem.take inlen).drop c.next = (ss.map Str.packed).flatten ++ q) :
    ∃ c', unpackStrs mem inlen ss.length off c = some (ss.map unpacked, c') := by
  induction ss generalizing off c with
  | nil => exact ⟨c, rfl⟩
  | cons s ss ih =>
    rw [List.map_cons, List.flatten_cons, List.append_assoc] at hptr hstr
    obtain ⟨t, ht, hno, has⟩ := Str.packed_eq s
    rw [ht, List.append_assoc, List.singleton_append] at hstr
    have hstep := (unpackStrWithin_inside (a := s.addr) hstr hno).1
    have hptr' : mem.drop (off + 8) = (ss.map fun s => addrBytes s.addr).flatten ++ r := by
      rw [← List.drop_drop, hptr, List.drop_left' (length_addrBytes _)]
    have hstr' : (mem.take inlen).drop (c.next + t.length + 1) = (ss.map Str.packed).flatten ++ q := by
      rw [Nat.add_assoc, ← List.drop_drop, hstr, ← List.drop_drop, List.drop_left, List.drop_one, List.tail_cons]
    obtain ⟨c', hc'⟩ := ih (c := ⟨c.next + t.length + 1, max c.seen (c.next + t.length + 1)⟩) hptr' hstr'
    refine ⟨c', ?_⟩
    rw [List.length_cons, unpackStrs, addrAt_of_drop hptr]
    simp only [Option.bind_eq_bind, Option.bind_some, hstep, hc', has, List.map_cons]

def unpackedFile (file : File Str) : File Field :=
  ⟨file.id, file.aid, file.pid, file.uid, file.gid, file.mode, file.reqtype, file.lmttype, unpacked file.name,
    unpacked file.remark, unpacked file.uri, unpacked file.dataer, unpacked file.render, unpacked file.intime,
    unpacked file.uptime⟩

theorem fileUnpack_packed {file : File Str} {buf : Bytes} (h : filePack file = some buf) (behind : Bytes) :
    ∃ c, fileUnpack (buf ++ behind) buf.length = some (.ok (unpackedFile file, c)) := by
  rw [filePack_eq] at h
  have hbuf : buf = image file ++ (((strs file).map Str.packed).flatten ++ [0]) := (Option.some.inj h).symm
  have hlong : ¬ buf.length < 4 * 8 + 8 * 7 := by
    rw [hbuf, List.length_append, length_image]
    omega
  have hints : (buf ++ behind).drop 0 = ((ints file).map intBytes).flatten ++
      (((strs file).map fun s => addrBytes s.addr).flatten ++ (((strs file).map Str.packed).flatten ++ [0] ++ behind)) := by
    rw [List.drop_zero, hbuf, image]
    simp only [List.append_assoc]
  have hptr : (buf ++ behind).drop (4 * 8) = ((strs file).map fun s => addrBytes s.addr).flatten ++
      (((strs file).map Str.packed).flatten ++ [0] ++ behind) := by
    have hlen : ((ints file).map intBytes).flatten.length = 4 * 8 := by simp [ints]
    rw [← List.drop_zero (l := buf ++ behind), hints, List.drop_left' hlen]
  have hstr : ((buf ++ behind).take buf.length).drop (4 * 8 + 8 * 7) =
      ((strs file).map Str.packed).flatten ++ [0] := by
    rw [List.take_left, hbuf, List.drop_left' (length_image file)]
  obtain ⟨c, hc⟩ := unpackStrs_packed (c := ⟨4 * 8 + 8 * 7, 4 * 8 + 8 * 7⟩) hptr hstr
  refine ⟨c, ?_⟩
  have hxs : intsAt (buf ++ behind) 8 0 = some (ints file) := intsAt_of_drop hints
  have hfs : unpackStrs (buf ++ behind) buf.length 7 (4 * 8) ⟨4 * 8 + 8 * 7, 4 * 8 + 8 * 7⟩ =
      some ((strs file).map unpacked, c) := hc
  rw [fileUnpack, structUnpack, if_neg hlong, hxs]
  simp only [Option.bind_eq_bind, Option.bind_some, hfs]
  rfl

theorem copied_unpacked_iff (s : Str) : Copied s (unpacked s) ↔ s.value ≠ some [] := by
  cases s with
  | null => exact iff_of_true rfl (Option.some_ne_none _).symm
  | str a ha text =>
    simp only [Copied, unpacked, unpackedAs, Str.value, ne_eq, Option.some.injEq]
    split
    · rename_i hnil
      refine iff_of_false (fun h => ?_) fun h => h hnil
      cases h
    · rename_i hne
      exact iff_of_true rfl hne

theorem forall₂_unpacked_iff (ss : List Str) :
    List.Forall₂ Copied ss (ss.map unpacked) ↔ ∀ s ∈ ss, s.value ≠ some [] := by
  induction ss with
  | nil => simp
  | cons s ss ih => rw [List.map_cons, List.forall₂_cons, ih, copied_unpacked_iff, List.forall_mem_cons]

/-- **A file survives the cache** exactly when none of its strings is empty. -/
theorem file_survives_iff (file : File Str) : Survives file ↔ ∀ s ∈ strs file, s.value ≠ some [] := by
  have hstrs : strs (unpackedFile file) = (strs file).map unpacked := rfl
  rw [← forall₂_unpacked_iff, ← hstrs]
  constructor
  · intro h
    obtain ⟨buf, file', c, hpack, hunpack, -, hcopied⟩ := h []
    obtain ⟨c', hc'⟩ := fileUnpack_packed hpack []
    rw [hc'] at hunpack
    cases hunpack
    exact hcopied
  · intro h behind
    obtain ⟨c, hc⟩ := fileUnpack_packed (filePack_eq file) behind
    exact ⟨_, _, c, filePack_eq file, hc, rfl, h⟩

theorem noZero_nil : (0 : UInt8) ∉ ([] : Bytes) := List.not_mem_nil

def emptyStr : Str := .str 12288 (by decide) ⟨[], noZero_nil⟩

/-- Of an empty name the address comes back that it had when it was packed. -/
theorem not_survives_emptyName :
    ¬ Survives ⟨1, 0, 0, 0, 0, 0, 0, 0, emptyStr, .null, .null, .null, .null, .null, .null⟩ := by
  intro h
  obtain ⟨buf, file', c, hpack, hunpack, -, hcopied⟩ := h []
  obtain ⟨c', hc'⟩ := fileUnpack_packed hpack []
  rw [hc'] at hunpack
  cases hunpack
  cases hcopied with
  | cons hname _ => cases hname

end Cmoon.PackedFiles
