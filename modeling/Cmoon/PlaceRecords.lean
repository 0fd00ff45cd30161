import Cmoon.UnknownAddresses

/-! # Records of places

A record begins with the address at which its range ends. Behind it are a country and an area, each as a string or as a
redirect to one. `ip_place` reads them of the file in memory; `get_addr` of the locator that it was made after reads
them of the file itself. -/
namespace Cmoon.PlaceRecords
open DecimalText IpRanges UnknownAddresses

/-- An array of bytes, of which some have not been written yet. -/
abbrev Buf := List (Option UInt8)

/-- `read_from_file`, into the whole of a buffer. Behind the end of the file nothing is written, unless nothing at all
can be read. -/
def readFromFile (fp : Bytes) (offset : ℕ) (buf : Buf) : Buf :=
  if fp.length ≤ offset then List.replicate buf.length (some 0)
  else
    let got := (fp.drop offset).take buf.length
    got.map some ++ buf.drop got.length

def bytes2integer (buf : Buf) (count : ℕ) : Option ℕ :=
  ((buf.take count).mapM id).map fun ip => b2int ip 0 count

def strdup : Buf → Option Bytes
  | some x :: buf => if x = 0 then some [] else (strdup buf).map (x :: ·)
  | _ => none

/-- `get_string`; none if the string is not closed within its buffer. -/
def getString (fp : Bytes) (offset : ℕ) : Option Bytes := strdup (readFromFile fp offset (List.replicate 256 none))

def getAreaAddr (fp : Bytes) (offset : ℕ) : Option Bytes := do
  let buf := readFromFile fp offset (List.replicate 4 none)
  let byte ← buf.headD none
  if byte = redirectMode1 ∨ byte = redirectMode2 then
    let p ← bytes2integer buf.tail 3
    if p ≠ 0 then getString fp p else some []
  else getString fp offset

/-- `get_addr` up to the country and the area, which it puts into one text then. -/
def getAddr (fp : Bytes) (offset : ℕ) : Option (Bytes × Bytes) := do
  let buf := readFromFile fp (offset + 4) (List.replicate 4 none)
  let byte ← buf.headD none
  if byte = redirectMode1 then
    let countryOffset ← bytes2integer buf.tail 3
    let buf := readFromFile fp countryOffset buf
    let byte ← buf.headD none
    if byte = redirectMode2 then
      let q ← bytes2integer buf.tail 3
      let country ← getString fp q
      let area ← getAreaAddr fp (countryOffset + 4)
      some (country, area)
    else
      let country ← getString fp countryOffset
      let area ← getAreaAddr fp (countryOffset + country.length + 1)
      some (country, area)
  else if byte = redirectMode2 then
    let buf := readFromFile fp (offset + 4 + 1) (buf.take 3)
    let countryOffset ← bytes2integer buf 3
    let country ← getString fp countryOffset
    let area ← getAreaAddr fp (offset + 4 + 4)
    some (country, area)
  else
    let country ← getString fp (offset + 4)
    let area ← getAreaAddr fp (offset + 4 + country.length + 1)
    some (country, area)

section Layouts
variable (file : Bytes)

/-- A string stands in the file, which the locator has a buffer for. -/
structure StringAt (p : ℕ) (s : Bytes) : Prop where
  noZero : 0 ∉ s
  fits : s.length < 256
  stands : s ++ [0] <+: file.drop p

structure RedirectAt (mode : UInt8) (p q : ℕ) : Prop where
  inside : p + 4 ≤ file.length
  mode : byteAt file p = mode
  target : b2int file (p + 1) 3 = q

inductive AreaAt (p : ℕ) : Option Bytes → Prop
  | inline {s : Bytes} (h₁ : byteAt file p ≠ redirectMode1) (h₂ : byteAt file p ≠ redirectMode2)
      (hs : StringAt file p s) : AreaAt p (some s)
  | redirect {mode : UInt8} {q : ℕ} {s : Bytes} (hmode : mode = redirectMode1 ∨ mode = redirectMode2)
      (h : RedirectAt file mode p q) (hq : q ≠ 0) (hs : StringAt file q s) : AreaAt p (some s)
  | nowhere {mode : UInt8} (hmode : mode = redirectMode1 ∨ mode = redirectMode2) (h : RedirectAt file mode p 0) :
      AreaAt p none

/-- The record at an offset has a country and maybe an area, in one of the layouts. -/
inductive RecordAt (offset : ℕ) : Bytes → Option Bytes → Prop
  | inline {c : Bytes} {a : Option Bytes} (h₁ : byteAt file (offset + 4) ≠ redirectMode1)
      (h₂ : byteAt file (offset + 4) ≠ redirectMode2) (hc : StringAt file (offset + 4) c)
      (ha : AreaAt file (offset + 4 + c.length + 1) a) : RecordAt offset c a
  | mode1 {c : Bytes} {a : Option Bytes} {o : ℕ} (h : RedirectAt file redirectMode1 (offset + 4) o)
      (h₂ : byteAt file o ≠ redirectMode2) (hc : StringAt file o c) (ha : AreaAt file (o + c.length + 1) a) :
      RecordAt offset c a
  | mode1mode2 {c : Bytes} {a : Option Bytes} {o q : ℕ} (h : RedirectAt file redirectMode1 (offset + 4) o)
      (h₂ : RedirectAt file redirectMode2 o q) (hc : StringAt file q c) (ha : AreaAt file (o + 4) a) :
      RecordAt offset c a
  | mode2 {c : Bytes} {a : Option Bytes} {o : ℕ} (h : RedirectAt file redirectMode2 (offset + 4) o)
      (hc : StringAt file o c) (ha : AreaAt file (offset + 4 + 4) a) : RecordAt offset c a

end Layouts

section Law
variable (libc : Libc) (ips : Bytes)

/-- `readarea` and what it has pointed to read no byte behind the zero that closes the file in memory. -/
def AreaInside (p : ℕ) : Prop :=
  p ≤ ips.length ∧ (byteAt ips p = redirectMode1 ∨ byteAt ips p = redirectMode2 →
    p + 3 ≤ ips.length ∧ b2int ips (p + 1) 3 ≤ ips.length)

/-- The same for `ip_place`. -/
def PlaceInside (offset : ℕ) : Prop :=
  let p := offset + 4
  p ≤ ips.length ∧
    if byteAt ips p = redirectMode1 then
      let o := b2int ips (p + 1) 3
      p + 3 ≤ ips.length ∧ o ≤ ips.length ∧
        if byteAt ips o = redirectMode2 then
          o + 3 ≤ ips.length ∧ b2int ips (o + 1) 3 ≤ ips.length ∧ AreaInside ips (o + 4)
        else AreaInside ips (o + (cstr ips o).length + 1)
    else if byteAt ips p = redirectMode2 then
      let o := b2int ips (p + 1) 3
      p + 3 ≤ ips.length ∧ o ≤ ips.length ∧ AreaInside ips (o + 4 + 4)
    else AreaInside ips (p + (cstr ips p).length + 1)

def areaText (p : ℕ) : Option Bytes := (readarea ips p).bind fun a => gb2utf8 libc (cstr ips a)

/-- `ip_place` stays in the file and gives the country and the area of the locator. -/
def LikeLocator (offset : ℕ) : Prop :=
  ∃ country area, getAddr ips offset = some (country, area) ∧ PlaceInside ips offset ∧
    ipPlace libc ips offset = (gb2utf8 libc country, gb2utf8 libc area)

end Law

variable {libc : Libc} {file : Bytes} {offset p q o : ℕ} {s c : Bytes} {a : Option Bytes} {mode : UInt8} {buf : Buf}

theorem byteAt_eq (h : p < file.length) : byteAt file p = file[p] := by
  unfold byteAt
  rw [List.getD_eq_getElem?_getD, List.getElem?_eq_getElem h]
  rfl

theorem StringAt.lt (h : StringAt file p s) : p + s.length < file.length := by
  have hle := h.stands.length_le
  rw [List.length_append, List.length_drop, List.length_singleton] at hle
  omega

theorem StringAt.cstr (h : StringAt file p s) : cstr file p = s := by
  obtain ⟨rest, hrest⟩ := h.stands
  have hall : ∀ x ∈ s, decide (x ≠ 0) = true := fun x hx => by
    simpa using fun h0 : x = 0 => h.noZero (h0 ▸ hx)
  unfold UnknownAddresses.cstr
  rw [← hrest, List.append_assoc, List.takeWhile_append_of_pos hall]
  simp

theorem strdup_some (h : 0 ∉ s) (buf : Buf) : strdup ((s ++ [0]).map some ++ buf) = some s := by
  induction s with
  | nil => rfl
  | cons x s ih =>
    obtain ⟨hx, hs⟩ := not_or.mp (List.mem_cons.not.mp h)
    rw [List.cons_append, List.map_cons, List.cons_append, strdup, if_neg (Ne.symm hx), ih hs]
    rfl

theorem readFromFile_eq (h : p < file.length) (buf : Buf) :
    readFromFile file p buf =
      ((file.drop p).take buf.length).map some ++ buf.drop ((file.drop p).take buf.length).length :=
  if_neg (by omega)

theorem StringAt.getString (h : StringAt file p s) : getString file p = some s := by
  have hlt := h.lt
  obtain ⟨rest, hrest⟩ := h.stands
  have hread : (file.drop p).take 256 = s ++ [0] ++ rest.take (256 - (s ++ [0]).length) := by
    rw [← hrest, List.take_append, List.take_of_length_le]
    simpa using h.fits
  unfold PlaceRecords.getString
  rw [readFromFile_eq (by omega), List.length_replicate, hread, List.map_append, List.append_assoc]
  exact strdup_some h.noZero _

theorem headD_readFromFile (h : p < file.length) (hbuf : buf ≠ []) :
    (readFromFile file p buf).headD none = some (byteAt file p) := by
  obtain ⟨x, buf, rfl⟩ := List.exists_cons_of_ne_nil hbuf
  rw [readFromFile_eq h, byteAt_eq h, List.drop_eq_getElem_cons h]
  rfl

theorem b2int_take {n : ℕ} (h : p + n ≤ file.length) (m : Bytes) :
    b2int ((file.drop p).take n ++ m) 0 n = b2int file p n := by
  have hbyte : ∀ i < n, byteAt ((file.drop p).take n ++ m) i = byteAt file (p + i) := by
    intro i hi
    unfold byteAt
    rw [List.getD_eq_getElem?_getD, List.getD_eq_getElem?_getD, List.getElem?_append_left, List.getElem?_take_of_lt hi,
      List.getElem?_drop]
    rw [List.length_take, List.length_drop]
    omega
  unfold b2int
  by_cases hn : n < 1 ∨ 4 < n
  · rw [if_pos hn, if_pos hn]
  · rw [if_neg hn, if_neg hn, hbyte 0 (by omega)]
    refine List.foldl_ext _ _ _ fun ret i hi => ?_
    rw [Nat.zero_add, hbyte i (List.mem_range.mp hi)]

theorem mapM_some (m : Bytes) : (m.map some).mapM id = some m := by
  induction m with
  | nil => rfl
  | cons x m ih =>
    rw [List.map_cons, List.mapM_cons, ih]
    rfl

/-- A number of the file that is read into a buffer. -/
theorem bytes2integer_eq {n : ℕ} (h : p + n ≤ file.length) (hbuf : buf.take n = ((file.drop p).take n).map some) :
    bytes2integer buf n = some (b2int file p n) := by
  have htake := b2int_take h []
  rw [List.append_nil] at htake
  unfold bytes2integer
  rw [hbuf, mapM_some, Option.map_some, htake]

theorem length_readFromFile (file : Bytes) (p : ℕ) (buf : Buf) : (readFromFile file p buf).length = buf.length := by
  unfold readFromFile
  split
  · exact List.length_replicate
  · simp

/-- Where a redirect goes, with what the buffer has behind its first byte. -/
theorem RedirectAt.read (h : RedirectAt file mode p q) (hbuf : buf.length = 4) :
    bytes2integer (readFromFile file p buf).tail 3 = some q := by
  have hin := h.inside
  rw [← h.target]
  refine bytes2integer_eq (by omega) ?_
  rw [readFromFile_eq (by omega), hbuf, List.drop_eq_getElem_cons (by omega), List.take_succ_cons, List.map_cons]
  rw [List.cons_append, List.tail_cons, List.take_append_of_le_length, List.take_of_length_le]
  · simp
  · simp
    omega

/-- The same, read once more without its first byte. -/
theorem RedirectAt.reread (h : RedirectAt file mode p q) (hbuf : buf.length = 3) :
    bytes2integer (readFromFile file (p + 1) buf) 3 = some q := by
  have hin := h.inside
  rw [← h.target]
  refine bytes2integer_eq (by omega) ?_
  rw [readFromFile_eq (by omega), hbuf, List.take_append_of_le_length, List.take_of_length_le]
  · simp
  · simp
    omega

theorem RedirectAt.lt (h : RedirectAt file mode p q) : p < file.length := by
  have hin := h.inside
  omega

theorem RedirectAt.byte (h : RedirectAt file mode p q) (hbuf : buf ≠ []) :
    (readFromFile file p buf).headD none = some mode := by
  rw [headD_readFromFile h.lt hbuf, h.mode]

theorem gb2utf8_nil (libc : Libc) : gb2utf8 libc [] = none := if_pos rfl

theorem AreaAt.lt (h : AreaAt file p a) : p < file.length := by
  cases h with
  | inline h₁ h₂ hs =>
    have hlt := hs.lt
    omega
  | redirect hmode h hq hs => exact h.lt
  | nowhere hmode h => exact h.lt

theorem AreaAt.getAreaAddr (h : AreaAt file p a) : getAreaAddr file p = some (a.getD []) := by
  unfold PlaceRecords.getAreaAddr
  simp only [Option.bind_eq_bind]
  cases h with
  | inline h₁ h₂ hs =>
    have hlt := hs.lt
    rw [headD_readFromFile (by omega) (by decide), Option.bind_some, if_neg (not_or.mpr ⟨h₁, h₂⟩), hs.getString]
    rfl
  | redirect hmode h hq hs =>
    rw [h.byte (by decide), Option.bind_some, if_pos hmode, h.read rfl, Option.bind_some, if_pos hq, hs.getString]
    rfl
  | nowhere hmode h =>
    rw [h.byte (by decide), Option.bind_some, if_pos hmode, h.read rfl]
    rfl

theorem AreaAt.inside (h : AreaAt file p a) : AreaInside file p := by
  refine ⟨h.lt.le, fun hredirect => ?_⟩
  cases h with
  | inline h₁ h₂ hs => exact absurd hredirect (not_or.mpr ⟨h₁, h₂⟩)
  | redirect hmode h hq hs =>
    have hin := h.inside
    have hlt := hs.lt
    rw [h.target]
    omega
  | nowhere hmode h =>
    have hin := h.inside
    rw [h.target]
    omega

theorem AreaAt.text (libc : Libc) (h : AreaAt file p a) : areaText libc file p = gb2utf8 libc (a.getD []) := by
  unfold areaText readarea
  cases h with
  | inline h₁ h₂ hs =>
    rw [if_neg (not_or.mpr ⟨h₁, h₂⟩), Option.bind_some, hs.cstr]
    rfl
  | redirect hmode h hq hs =>
    rw [h.mode, if_pos hmode, h.target, if_neg hq, Option.bind_some, hs.cstr]
    rfl
  | nowhere hmode h =>
    rw [h.mode, if_pos hmode, h.target, if_pos rfl]
    exact (gb2utf8_nil libc).symm

/-- The locator gives the country and the area of every layout. -/
theorem RecordAt.getAddr (h : RecordAt file offset c a) : getAddr file offset = some (c, a.getD []) := by
  have hlen : (readFromFile file (offset + 4) (List.replicate 4 none)).length = 4 := length_readFromFile _ _ _
  have hne : readFromFile file (offset + 4) (List.replicate 4 none) ≠ [] := List.ne_nil_of_length_pos (by omega)
  unfold PlaceRecords.getAddr
  simp only [Option.bind_eq_bind]
  cases h with
  | inline h₁ h₂ hc ha =>
    have hlt := hc.lt
    rw [headD_readFromFile (by omega) (by decide), Option.bind_some, if_neg h₁, if_neg h₂, hc.getString,
      Option.bind_some, ha.getAreaAddr]
    rfl
  | mode1 h h₂ hc ha =>
    have hlt := hc.lt
    rw [h.byte (by decide), Option.bind_some, if_pos rfl, h.read rfl, Option.bind_some,
      headD_readFromFile (by omega) hne, Option.bind_some, if_neg h₂, hc.getString, Option.bind_some, ha.getAreaAddr]
    rfl
  | mode1mode2 h h₂ hc ha =>
    rw [h.byte (by decide), Option.bind_some, if_pos rfl, h.read rfl, Option.bind_some, h₂.byte hne, Option.bind_some,
      if_pos rfl, h₂.read hlen, Option.bind_some, hc.getString, Option.bind_some, ha.getAreaAddr]
    rfl
  | mode2 h hc ha =>
    have htake : ((readFromFile file (offset + 4) (List.replicate 4 none)).take 3).length = 3 := by
      rw [List.length_take, hlen]
      rfl
    rw [h.byte (by decide), Option.bind_some, if_neg (by decide), if_pos rfl, h.reread htake, Option.bind_some,
      hc.getString, Option.bind_some, ha.getAreaAddr]
    rfl

/-- What `ip_place` gives when country and area are at two places. -/
theorem ipPlace_eq {place : ℕ} {area : Option ℕ} (h : placeAt file offset = (place, area)) :
    ipPlace libc file offset = (gb2utf8 libc (cstr file place), area.bind fun a => gb2utf8 libc (cstr file a)) := by
  unfold ipPlace
  rw [h]

theorem toNat_offset (offset : ℕ) : ((offset : ℤ) + 4).toNat = offset + 4 := by omega

/-- `ip_place` looks for the area behind the string that it is redirected to, where that is behind the redirect. -/
theorem RecordAt.ipPlace (libc : Libc) (h : RecordAt file offset c a) :
    ipPlace libc file offset = (gb2utf8 libc c,
      if byteAt file (offset + 4) = redirectMode2 then areaText libc file (b2int file (offset + 5) 3 + 8)
      else gb2utf8 libc (a.getD [])) := by
  cases h with
  | inline h₁ h₂ hc ha =>
    have hplace : placeAt file offset = (offset + 4, readarea file (offset + 4 + c.length + 1)) := by
      unfold placeAt
      rw [toNat_offset]
      dsimp only
      rw [if_neg h₁, if_neg h₂, hc.cstr]
    rw [ipPlace_eq hplace, hc.cstr, if_neg h₂, ← ha.text]
    rfl
  | @mode1 o h h₂ hc ha =>
    have hplace : placeAt file offset = (o, readarea file (o + c.length + 1)) := by
      unfold placeAt
      rw [toNat_offset]
      dsimp only
      rw [if_pos h.mode, h.target, if_neg h₂, hc.cstr]
    rw [ipPlace_eq hplace, hc.cstr, h.mode, if_neg (by decide), ← ha.text]
    rfl
  | @mode1mode2 o q h h₂ hc ha =>
    have hplace : placeAt file offset = (q, readarea file (o + 4)) := by
      unfold placeAt
      rw [toNat_offset]
      dsimp only
      rw [if_pos h.mode, h.target, if_pos h₂.mode, h₂.target]
    rw [ipPlace_eq hplace, hc.cstr, h.mode, if_neg (by decide), ← ha.text]
    rfl
  | @mode2 o h hc ha =>
    have hplace : placeAt file offset = (o, readarea file (o + 4 + 4)) := by
      unfold placeAt
      rw [toNat_offset]
      dsimp only
      rw [h.mode, if_neg (by decide), if_pos rfl, h.target]
    rw [ipPlace_eq hplace, hc.cstr, h.mode, if_pos rfl, h.target]
    rfl

/-- Whether `ip_place` stays in the file depends on where it looks for that area. -/
theorem RecordAt.placeInside_iff (h : RecordAt file offset c a) : PlaceInside file offset ↔
    (byteAt file (offset + 4) = redirectMode2 → AreaInside file (b2int file (offset + 5) 3 + 8)) := by
  unfold PlaceInside
  dsimp only
  cases h with
  | inline h₁ h₂ hc ha =>
    have hlt := hc.lt
    rw [if_neg h₁, if_neg h₂, hc.cstr]
    exact ⟨fun _ hmode => absurd hmode h₂, fun _ => ⟨by omega, ha.inside⟩⟩
  | mode1 h h₂ hc ha =>
    have hin := h.inside
    have hlt := hc.lt
    rw [if_pos h.mode, h.target, if_neg h₂, hc.cstr, h.mode]
    exact ⟨fun _ hmode => absurd hmode (by decide), fun _ => ⟨by omega, by omega, by omega, ha.inside⟩⟩
  | mode1mode2 h h₂ hc ha =>
    have hin := h.inside
    have hin₂ := h₂.inside
    have hlt := hc.lt
    rw [if_pos h.mode, h.target, if_pos h₂.mode, h₂.target, h.mode]
    exact ⟨fun _ hmode => absurd hmode (by decide),
      fun _ => ⟨by omega, by omega, by omega, by omega, by omega, ha.inside⟩⟩
  | mode2 h hc ha =>
    have hin := h.inside
    have hlt := hc.lt
    rw [h.mode, if_neg (by decide), if_pos rfl, h.target]
    exact ⟨fun hall _ => hall.2.2.2, fun harea => ⟨by omega, by omega, by omega, harea rfl⟩⟩

theorem RecordAt.area_mode2 (libc : Libc) (h : RecordAt file offset c a)
    (hmode : byteAt file (offset + 4) = redirectMode2) :
    gb2utf8 libc (a.getD []) = areaText libc file (offset + 8) := by
  cases h with
  | inline h₁ h₂ hc ha => exact absurd hmode h₂
  | mode1 h h₂ hc ha => exact absurd (h.mode.symm.trans hmode) (by decide)
  | mode1mode2 h h₂ hc ha => exact absurd (h.mode.symm.trans hmode) (by decide)
  | mode2 h hc ha => exact (ha.text libc).symm

/-- **A place is read like the locator reads it** if and only if the record is not a redirect of mode 2, or the area
that stands eight bytes behind where it goes is the one that stands eight bytes behind the record itself. -/
theorem likeLocator_iff (libc : Libc) (h : RecordAt file offset c a) :
    LikeLocator libc file offset ↔ (byteAt file (offset + 4) = redirectMode2 →
      AreaInside file (b2int file (offset + 5) 3 + 8) ∧
        areaText libc file (b2int file (offset + 5) 3 + 8) = areaText libc file (offset + 8)) := by
  unfold LikeLocator
  simp only [h.getAddr, h.ipPlace libc, h.placeInside_iff]
  constructor
  · rintro ⟨country, area, heq, hinside, hsame⟩ hmode
    cases heq
    rw [if_pos hmode] at hsame
    refine ⟨hinside hmode, ?_⟩
    exact (Prod.ext_iff.mp hsame).2.trans (h.area_mode2 libc hmode)
  · intro hall
    refine ⟨c, a.getD [], rfl, fun hmode => (hall hmode).1, ?_⟩
    split
    · rename_i hmode
      rw [(hall hmode).2, h.area_mode2 libc hmode]
    · rfl

/-- The record at 0 is redirected to the country "C" at 10, and has the area "A"; eight bytes behind 10 there is "B". -/
def redirected : Bytes := [0, 0, 0, 0] ++ [2, 10, 0, 0] ++ [65, 0] ++ [67, 0, 0, 0, 0, 0, 0, 0] ++ [66, 0]

theorem record_redirected : RecordAt redirected 0 [67] (some [65]) :=
  .mode2 (o := 10) ⟨by decide, by decide, by decide⟩ ⟨by decide, by decide, by decide⟩
    (.inline (by decide) (by decide) ⟨by decide, by decide, by decide⟩)

/-- A C library in which texts come out of `iconv` as they are. -/
def asTheyAre : Libc := ⟨fun _ => 0, some⟩

theorem likeLocator_redirected : LikeLocator asTheyAre redirected 0 ↔ (byteAt redirected (0 + 4) = redirectMode2 →
    AreaInside redirected (b2int redirected (0 + 5) 3 + 8) ∧
      areaText asTheyAre redirected (b2int redirected (0 + 5) 3 + 8) = areaText asTheyAre redirected (0 + 8)) :=
  likeLocator_iff asTheyAre record_redirected

/-- **But the area "B"** is given for it. -/
theorem not_likeLocator : ¬ ∀ (libc : Libc) (file : Bytes) (offset : ℕ) (c : Bytes) (a : Option Bytes),
    RecordAt file offset c a → LikeLocator libc file offset := by
  intro h
  obtain ⟨country, area, hget, -, hplace⟩ := h asTheyAre redirected 0 [67] (some [65]) record_redirected
  rw [record_redirected.getAddr] at hget
  cases hget
  revert hplace
  decide

end Cmoon.PlaceRecords
