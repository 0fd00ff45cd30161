import Cmoon.DecimalText

/-! # The hash of a member's name

`hash_string_rev` reads a name from its last byte to its first, without its case, and
keeps 31 bits. A name is a C string: no byte of it is zero. -/
namespace Cmoon.NameHashing
open DecimalText

def tolower (c : UInt8) : UInt8 := if 65 ≤ c ∧ c ≤ 90 then c + 32 else c

/-- A `char` as an `int`: bytes from 128 on are negative. `tolower` is only meant for an `unsigned char`; here it is
taken to return a negative one as it is, where the table of glibc gives 128 to 254. -/
def charInt (c : UInt8) : UInt32 := if c < 128 then c.toUInt32 else c.toUInt32 + 0xFFFFFF00

def hashStep (c : UInt8) (hash : UInt32) : UInt32 := ((hash <<< 5) + hash) + charInt (tolower c)

def hashStringRev (s : Bytes) : ℕ := (s.foldr hashStep 5381 &&& 0x7FFFFFFF).toNat

theorem hashStringRev_lt (s : Bytes) : hashStringRev s < 2 ^ 31 := by
  rw [hashStringRev, UInt32.toNat_and]
  exact Nat.lt_of_le_of_lt Nat.and_le_right (by decide)

end Cmoon.NameHashing
