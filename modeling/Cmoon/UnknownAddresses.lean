import Cmoon.Datasets
import Cmoon.IpRanges

/-! # Addresses that are nowhere

`ip2place` puts the place of an address into a dataset. What `ip_offset` returns is a number with a sign, and the
variable that it goes into has none. -/
namespace Cmoon.UnknownAddresses
open DecimalText Datasets IpRanges

/-- What is outside the plugin: `inet_addr`, and `iconv` from GB2312 to UTF-8. -/
structure Libc where
  inetAddr : Bytes → UInt32
  iconv : Bytes → Option Bytes

def inaddrNone : UInt32 := 0xffffffff

/-- The bytes of a word the other way round. -/
def ntohl (x : UInt32) : UInt32 :=
  let second : UInt32 := 0xff00
  x <<< 24 ||| (x &&& second) <<< 8 ||| (x >>> 8 &&& second) ||| x >>> 24

def cstr (ips : Bytes) (p : ℕ) : Bytes := (ips.drop p).takeWhile (· ≠ 0)

def redirectMode1 : UInt8 := 1

def redirectMode2 : UInt8 := 2

def readarea (ips : Bytes) (offset : ℕ) : Option ℕ :=
  let mode := byteAt ips offset
  if mode = redirectMode1 ∨ mode = redirectMode2 then
    let offset := b2int ips (offset + 1) 3
    if offset = 0 then none else some offset
  else some offset

section Libc
variable (libc : Libc)

def gb2utf8 (s : Bytes) : Option Bytes := if s = [] then none else libc.iconv s

/-- Country and area of the record at `offset`, before they are converted. -/
def placeAt (ips : Bytes) (offset : ℤ) : ℕ × Option ℕ :=
  let p := (offset + 4).toNat
  let mode := byteAt ips p
  if mode = redirectMode1 then
    let offset := b2int ips (p + 1) 3
    if byteAt ips offset = redirectMode2 then (b2int ips (offset + 1) 3, readarea ips (offset + 4))
    else (offset, readarea ips (offset + (cstr ips offset).length + 1))
  else if mode = redirectMode2 then
    let offset := b2int ips (p + 1) 3
    (offset, readarea ips (offset + 4 + 4))
  else (p, readarea ips (p + (cstr ips p).length + 1))

def ipPlace (ips : Bytes) (offset : ℤ) : Option Bytes × Option Bytes :=
  let (c, a) := placeAt ips offset
  (gb2utf8 libc (cstr ips c), a.bind fun a => gb2utf8 libc (cstr ips a))

/-- Where the place goes: to the root, or below a key. -/
def below (key : Option String) (name : String) : String :=
  match key with
  | none => name
  | some key => key ++ "." ++ name

/-- What `ip2place` returns, what it makes of the dataset, and the offsets that it has `ip_place` read a place at. -/
structure Told where
  found : Bool
  hdf : Dataset
  read : List ℤ

def setPlace (hdf : Dataset) (key : Option String) (ip c a : Bytes) : Dataset :=
  let hdf := hdfSetValue hdf (below key "ip") (some ip)
  let hdf := hdfSetValue hdf (below key "c") (some c)
  hdfSetValue hdf (below key "a") (some a)

def tell (ips : Bytes) (hdf : Dataset) (key : Option String) (ip : Bytes) (offset : ℤ) : Told :=
  match ipPlace libc ips offset with
  | (some c, some a) => ⟨true, setPlace hdf key ip c a, [offset]⟩
  | _ => ⟨false, hdf, [offset]⟩

/-- `offset` is unsigned where it is compared with zero, and an `int` again as the argument of `ip_place`. -/
def told (ips : Bytes) (hdf : Dataset) (key : Option String) (ip : Bytes) (offset : ℤ) : Told :=
  if 0 ≤ offset % 2 ^ 32 then tell libc ips hdf key ip (wrap 32 (offset % 2 ^ 32)) else ⟨false, hdf, []⟩

def ip2place (ips : Bytes) (hdf : Dataset) (key : Option String) (ip : Bytes) (passes : ℕ) : Option Told :=
  if libc.inetAddr ip = inaddrNone then some ⟨false, hdf, []⟩
  else (ipOffset ips (ntohl (libc.inetAddr ip)).toNat passes).map (told libc ips hdf key ip)

def Nowhere (t : IpTable) (ip : Bytes) : Prop :=
  ∀ i < t.n, ¬ InRange t.ips i (ntohl (libc.inetAddr ip)).toNat

def Unknown (t : IpTable) (hdf : Dataset) (key : Option String) (ip : Bytes) : Prop :=
  ∃ passes o, ip2place libc t.ips hdf key ip passes = some o ∧ o.found = false ∧ o.hdf = hdf ∧ o.read = []

variable {libc} {t : IpTable} {hdf : Dataset} {key : Option String} {ip : Bytes}

theorem told_eq (ips : Bytes) (hdf : Dataset) (key : Option String) (ip : Bytes) (offset : ℤ) :
    told libc ips hdf key ip offset = tell libc ips hdf key ip (wrap 32 (offset % 2 ^ 32)) :=
  if_pos (by omega)

theorem tell_read (ips : Bytes) (hdf : Dataset) (key : Option String) (ip : Bytes) (offset : ℤ) :
    (tell libc ips hdf key ip offset).read = [offset] := by
  unfold tell
  split <;> rfl

theorem returns_nowhere {ip : ℕ} (hip : ∀ i < t.n, ¬ InRange t.ips i ip) {r : ℤ} (hr : Returns t.ips ip r) :
    r = -1 := by
  obtain ⟨passes, hpasses⟩ := hr
  obtain ⟨⟨L, R⟩, hsearch, rfl⟩ := Option.map_eq_some_iff.mp hpasses
  refine if_neg (hip _ ?_)
  have hpos : 0 < t.n := recordCount_pos t.ips
  have hstart : t.n - 1 < t.n := by omega
  have hbounds : L < t.n ∧ R < t.n := search_lt hsearch hpos hstart
  unfold compared
  split
  · exact hbounds.2
  · exact hbounds.1

/-- What is told then is what is read as a place behind the third byte of the file. -/
theorem ip2place_nowhere (hip : Nowhere libc t ip) (hany : libc.inetAddr ip ≠ inaddrNone) {passes : ℕ} {o : Told}
    (ho : ip2place libc t.ips hdf key ip passes = some o) : o = tell libc t.ips hdf key ip (-1) := by
  unfold ip2place at ho
  rw [if_neg hany] at ho
  obtain ⟨r, hr, rfl⟩ := Option.map_eq_some_iff.mp ho
  obtain rfl := returns_nowhere hip ⟨passes, hr⟩
  exact told_eq _ _ _ _ _

/-- **An address that is nowhere is told to be unknown** if and only if `inet_addr` takes it for none. -/
theorem unknown_iff (hip : Nowhere libc t ip) (hdf : Dataset) (key : Option String) :
    Unknown libc t hdf key ip ↔ libc.inetAddr ip = inaddrNone := by
  constructor
  · rintro ⟨passes, o, ho, -, -, hread⟩
    by_contra hany
    rw [ip2place_nowhere hip hany ho, tell_read] at hread
    cases hread
  · intro hnone
    exact ⟨0, _, if_pos hnone, rfl, rfl, rfl⟩

end Libc

def apart : Bytes :=
  [16, 0, 0, 0, 23, 0, 0, 0] ++ [255, 255, 255, 1] ++ [255, 255, 255, 3] ++
    ([0, 0, 0, 1] ++ [8, 0, 0]) ++ ([0, 0, 0, 3] ++ [12, 0, 0])

def twoApart : IpTable where
  ips := apart
  ordered := by decide
  whole := by decide
  index_inside := by decide
  place_inside := by decide
  increasing := pair_of_two (by decide) (by decide)
  disjoint := pair_of_two (by decide) (by decide)

/-- A C library in which the address that is asked for is 2.0.0.1 in network order, and texts come out of `iconv` as
they are. -/
def between : Libc := ⟨fun _ => 0x01000002, some⟩

def dotted : Bytes := [50, 46, 48, 46, 48, 46, 49]

theorem nowhere_between : Nowhere between twoApart dotted := by
  unfold Nowhere
  change ∀ i < recordCount apart, _
  decide

theorem unknown_between : Unknown between twoApart [] none dotted ↔ between.inetAddr dotted = inaddrNone :=
  unknown_iff nowhere_between [] none

/-- **But a place is read** for it. -/
theorem not_unknown : ¬ ∀ (libc : Libc) (t : IpTable) (hdf : Dataset) (key : Option String) (ip : Bytes),
    Nowhere libc t ip → Unknown libc t hdf key ip := by
  intro h
  obtain ⟨passes, o, ho, -, -, hread⟩ := h between twoApart [] none dotted nowhere_between
  rw [ip2place_nowhere nowhere_between (by decide) ho, tell_read] at hread
  cases hread

end Cmoon.UnknownAddresses
