import Cmoon.EventDaemon

/-! # Packing a dataset (`packet.c`)

`pack_hdf` writes the text of a dataset into the middle of a buffer of fixed size; a write past the
end of the buffer has no result. The layout it leaves is read back by `unpack_hdf`. -/
namespace Cmoon.PacketWriting
open DecimalText ByteBuffers EventDaemon

def root : CString := ⟨rootName, by decide⟩

def textA : CString := ⟨[97], by decide⟩

/-- The value size of a packet: the text with its zero byte, or what the reserve leaves. -/
def valueSize (val : CString) (len : ℕ) : ℕ := min (val.bytes.length + 1) (len - reserveSize)

/-- `pack_data_str` into `m` at the offset `off`, with the size it returns. -/
def packDataStrAt (m : Bytes) (off : ℕ) (key : CString) (val : Option CString) (len : ℕ) : Option (Bytes × ℕ) := do
  let ksize := key.bytes.length
  let vsize := match val with
    | none => 0
    | some v => v.bytes.length + 1
  let vsize := if vsize > len - reserveSize then len - reserveSize else vsize
  let m ← store m off (be 4 dataTypeString)
  let m ← store m (off + 4) (be 4 ksize)
  let m ← store m (off + 8) key.bytes
  let m ← store m (off + 8 + ksize) (be 4 vsize)
  let m ← if vsize > 0 then store m (off + 8 + ksize + 4) (((val.map CString.bytes).getD [] ++ [0]).take vsize)
    else some m
  let m ← store m (off + 8 + ksize + 4 + vsize) [0]
  return (m, 8 + ksize + 4 + vsize)

variable {D : Type*} (hdfWriteString : D → Option CString)

def packHdfAt (m : Bytes) (off : ℕ) (hdf : D) (len : ℕ) : Option (Bytes × ℕ) :=
  match hdfWriteString hdf with
  | none => some (m, 0)
  | some p => do
    let (m, vsize) ← packDataStrAt m off root (some p) len
    let m ← store m (off + vsize) (be 4 dataTypeEof)
    return (m, vsize + 4)

theorem valueSize_le (p : CString) : valueSize p maxPacketLen ≤ 65024 := min_le_right _ _

/-- What `pack_hdf` writes for a text. -/
def packed (p : CString) (len : ℕ) : Bytes := packDataStr rootName (some p.bytes) len ++ be 4 dataTypeEof

theorem packDataStr_root (p : CString) (len : ℕ) :
    packDataStr rootName (some p.bytes) len =
      be 4 dataTypeString ++ be 4 4 ++ rootName ++ be 4 (valueSize p len) ++
        (p.bytes ++ [0]).take (valueSize p len) := by
  have hsize : (if p.bytes.length + 1 > len - reserveSize then len - reserveSize else p.bytes.length + 1) =
      valueSize p len := by
    rw [valueSize]
    split <;> omega
  simp only [packDataStr, hsize]
  rfl

theorem length_take_text (p : CString) (len : ℕ) :
    ((p.bytes ++ [0]).take (valueSize p len)).length = valueSize p len := by
  simp [valueSize]

theorem length_packed (p : CString) (len : ℕ) : (packed p len).length = 20 + valueSize p len := by
  have hroot : rootName.length = 4 := rfl
  rw [packed, packDataStr_root]
  simp only [List.length_append, length_be, length_take_text, hroot]
  omega

theorem packDataStrAt_eq (m : Bytes) (off : ℕ) (p : CString) (len : ℕ) :
    packDataStrAt m off root (some p) len =
      (store m off (packDataStr rootName (some p.bytes) len ++ [0])).map (·, 16 + valueSize p len) := by
  have hsize : (if p.bytes.length + 1 > len - reserveSize then len - reserveSize else p.bytes.length + 1) =
      valueSize p len := by
    rw [valueSize]
    split <;> omega
  have hroot : root.bytes.length = 4 := rfl
  simp only [packDataStrAt, hsize, hroot, Option.map_some, Option.getD_some]
  generalize htext : (p.bytes ++ [0]).take (valueSize p len) = text
  have hlen : text.length = valueSize p len := by rw [← htext, length_take_text]
  rw [packDataStr_root, htext]
  simp only [bind, pure]
  rw [store_bind_store (by simp), store_bind_store (by simp), store_bind_store (by simp [hroot])]
  rw [Option.map_eq_bind]
  by_cases hpos : valueSize p len > 0
  · simp only [if_pos hpos]
    rw [store_bind_store (by simp [hroot]), store_bind_store (by simp [hroot, hlen]; omega)]
    rfl
  · have hzero : valueSize p len = 0 := by omega
    obtain rfl : text = [] := List.length_eq_zero_iff.mp (hlen.trans hzero)
    simp only [if_neg hpos, Option.bind_some]
    rw [store_bind_store (by simp [hroot, hzero]), List.append_nil]
    rfl

/-- All writes of `pack_hdf` are one: the EOF word goes over the zero byte. -/
theorem packHdfAt_eq {hdf : D} {p : CString} (hp : hdfWriteString hdf = some p) (m : Bytes) (off len : ℕ) :
    packHdfAt hdfWriteString m off hdf len = (store m off (packed p len)).map (·, (packed p len).length) := by
  have hlen : (packDataStr rootName (some p.bytes) len).length = 16 + valueSize p len := by
    have hpacked := length_packed p len
    rw [packed, List.length_append, length_be] at hpacked
    omega
  have hover := store_over m off (packDataStr rootName (some p.bytes) len) (b := be 4 dataTypeEof) (c := [0])
    (by simp)
  rw [hlen] at hover
  simp only [packHdfAt, hp, packDataStrAt_eq, bind, pure, Option.map_eq_bind, Option.bind_assoc, Function.comp_apply,
    Option.bind_some]
  rw [packed, ← hover, Option.bind_assoc, List.length_append, hlen]
  rfl

/-- `pack_hdf` at the start of a buffer as `reply_trigger` has one. -/
theorem packHdfAt_zero {hdf : D} {p : CString} (hp : hdfWriteString hdf = some p) {m : Bytes}
    (hm : m.length = maxPacketLen) :
    ∃ m', packHdfAt hdfWriteString m 0 hdf maxPacketLen = some (m', (packed p maxPacketLen).length) ∧
      m'.take (packed p maxPacketLen).length = packed p maxPacketLen := by
  have hfit : 0 + (packed p maxPacketLen).length ≤ m.length := by
    have hsize := valueSize_le p
    rw [length_packed, hm]
    simp only [maxPacketLen] at hsize ⊢
    omega
  refine ⟨overwrite m 0 (packed p maxPacketLen), ?_, ?_⟩
  · rw [packHdfAt_eq hdfWriteString hp, store_eq hfit]
    rfl
  · rw [overwrite_zero, List.take_left]

def kept (p : CString) : CString := ⟨p.bytes.take 65024, fun h => p.noZero (List.mem_of_mem_take h)⟩

/-- A text of any size ends in its packet: with its own zero byte, or where it was cut with the first
byte of the EOF word. -/
theorem text_ends (p : CString) : ∃ c, (p.bytes ++ [0]).take (valueSize p maxPacketLen) ++ be 4 dataTypeEof =
    (kept p).bytes ++ 0 :: c := by
  have hsize : valueSize p maxPacketLen = min (p.bytes.length + 1) 65024 := rfl
  by_cases hcut : p.bytes.length + 1 ≤ 65024
  · refine ⟨be 4 dataTypeEof, ?_⟩
    have hall : (kept p).bytes = p.bytes := List.take_of_length_le (by omega)
    rw [hsize, Nat.min_eq_left hcut, hall, List.take_of_length_le (by simp), List.append_assoc]
    rfl
  · refine ⟨be 3 dataTypeEof, ?_⟩
    rw [hsize, Nat.min_eq_right (by omega), List.take_append_of_le_length (by omega)]
    rfl

/-- `unpack_hdf` on a packet between other bytes: its size is the one `pack_hdf` returned, and the text
is what was written, up to where it was cut. -/
theorem unpackHdf_packed {m a c : Bytes} {p : CString} {off : ℕ} (hm : m = a ++ (packed p maxPacketLen ++ c))
    (hoff : off = a.length) (len : ℕ) :
    unpackHdf m off len = .ok ((packed p maxPacketLen).length, some (kept p).bytes) := by
  obtain ⟨e, he⟩ := text_ends p
  have hsize := valueSize_le p
  have hm' : m = a ++ (be 4 dataTypeString ++ (be 4 4 ++ (rootName ++ (be 4 (valueSize p maxPacketLen) ++
      ((kept p).bytes ++ 0 :: (e ++ c)))))) := by
    rw [hm, packed, packDataStr_root]
    simp only [List.append_assoc]
    rw [← List.append_assoc (List.take _ _), he, List.append_assoc, List.cons_append]
  have hroot : rootName.length = 4 := rfl
  have hvtype : wordAt m off = some dataTypeString := wordAt_mid hm' hoff (by decide)
  have hksize : wordAt m (off + 4) = some 4 :=
    wordAt_mid (a := a ++ be 4 dataTypeString) (by rw [hm', List.append_assoc]) (by simp [hoff]) (by decide)
  have hvsize : wordAt m (off + 8 + 4) = some (valueSize p maxPacketLen) :=
    wordAt_mid (a := a ++ be 4 dataTypeString ++ be 4 4 ++ rootName)
      (hm'.trans (by rw [List.append_assoc, List.append_assoc, List.append_assoc])) (by simp [hoff, hroot]) (by omega)
  have htext : cstrAt m (off + 12 + 4) = some (kept p).bytes :=
    cstrAt_mid (a := a ++ be 4 dataTypeString ++ be 4 4 ++ rootName ++ be 4 (valueSize p maxPacketLen))
      (hm'.trans (by rw [List.append_assoc, List.append_assoc, List.append_assoc, List.append_assoc]))
      (by simp [hoff, hroot])
  have htotal : (16 + 4 + valueSize p maxPacketLen) % 2 ^ 32 = (packed p maxPacketLen).length := by
    rw [length_packed]
    omega
  simp only [unpackHdf, unpackDataStr, hvtype, hksize, hvsize, htext, inside, bind, Except.bind, pure, Except.pure,
    ne_eq, not_true_eq_false, if_false, htotal]

/-- What `CACHE_HDF` hands to the cache; a dataset that cannot be written leaves it empty. -/
def pack (hdf : D) : Bytes :=
  match hdfWriteString hdf with
  | none => []
  | some p => packed p maxPacketLen

/-- `unpack_hdf` of a cached value, which sets all of the reply; `hdf_read_string` is `read`. -/
def unpack (read : Bytes → D) (val : Bytes) : Option D :=
  match unpackHdf val 0 val.length with
  | .ok (_, text) => some (read (text.getD []))
  | .error _ => none

variable {hdfWriteString} {hdf : D}

theorem unpackHdf_pack {p : CString} (hp : hdfWriteString hdf = some p) :
    unpackHdf (pack hdfWriteString hdf) 0 (pack hdfWriteString hdf).length =
      .ok ((packed p maxPacketLen).length, some (kept p).bytes) := by
  unfold pack
  rw [hp]
  exact @unpackHdf_packed (packed p maxPacketLen) [] [] p 0 (by simp) rfl _

/-- A value that was cached is read back up to where its text was cut. -/
theorem unpack_pack {read : Bytes → D} {r : D} (h : unpack read (pack hdfWriteString hdf) = some r) :
    ∃ p, hdfWriteString hdf = some p ∧ r = read (kept p).bytes := by
  cases hp : hdfWriteString hdf with
  | none =>
    unfold pack at h
    rw [hp] at h
    cases h
  | some p =>
    unfold unpack at h
    rw [unpackHdf_pack hp] at h
    exact ⟨p, rfl, (Option.some.inj h).symm⟩

/-- The whole text of a dataset is in a cached value. -/
def Holds (hdfWriteString : D → Option CString) (val : Bytes) (hdf : D) : Prop :=
  ∃ p n, hdfWriteString hdf = some p ∧ unpackHdf val 0 val.length = .ok (n, some p.bytes)

/-- It is so for a text that `pack_hdf` need not cut. -/
theorem holds_pack_iff :
    Holds hdfWriteString (pack hdfWriteString hdf) hdf ↔ ∃ p, hdfWriteString hdf = some p ∧ p.bytes.length ≤ 65024 := by
  constructor
  · rintro ⟨p, n, hp, hread⟩
    rw [unpackHdf_pack hp] at hread
    have hwhole : p.bytes.take 65024 = p.bytes := Option.some.inj (Prod.mk.inj (Except.ok.inj hread)).2
    exact ⟨p, hp, List.take_eq_self_iff _ |>.mp hwhole⟩
  · rintro ⟨p, hp, hlen⟩
    have hwhole : (kept p).bytes = p.bytes := List.take_of_length_le hlen
    refine ⟨p, (packed p maxPacketLen).length, hp, ?_⟩
    rw [unpackHdf_pack hp, hwhole]

end Cmoon.PacketWriting
