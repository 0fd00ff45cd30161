import Cmoon.DecimalText

/-! # The one-at-a-time hash

`hash` stands twice in the source, with one body: over cache keys (`cache.c`) and over
plugin names (`mevent.c`). -/
namespace Cmoon.OneAtATimeHash
open DecimalText

/-- The body of the loop, for one byte of the key. -/
def mix (h : UInt32) (b : UInt8) : UInt32 :=
  let h := h + b.toUInt32
  let h := h + (h <<< 10)
  h ^^^ (h >>> 6)

def hash (key : Bytes) : UInt32 :=
  let h := key.foldl mix 0
  let h := h + (h <<< 3)
  let h := h ^^^ (h >>> 11)
  h + (h <<< 15)

/-- The bucket of a key in a table of `n` chains. -/
def bucket (n : ℕ) (key : Bytes) : ℕ := (hash key).toNat % n

theorem bucket_lt {n : ℕ} (hn : 0 < n) (key : Bytes) : bucket n key < n := Nat.mod_lt _ hn

end Cmoon.OneAtATimeHash
