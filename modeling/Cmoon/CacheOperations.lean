import Cmoon.DoublyLinkedLists
import Cmoon.OneAtATimeHash

/-! # The hash-table cache (`lib/mevent/cache.c`)

The table of chains and the heap of entries are explicit. Every operation follows
the links through the heap and rewrites them one by one; `none` is a fault: a null
or dead pointer followed, a chain index past the table, or the `%` by zero of an
empty table. What `malloc` answers is an argument of the operation. -/
namespace Cmoon.CacheOperations
open DecimalText OneAtATimeHash DoublyLinkedLists

/-- `struct cache_entry` without its links; `ksize` and `vsize` are the two lengths. -/
structure Entry where
  key : Bytes
  val : Bytes
  expire : ℤ
  deriving DecidableEq, Repr

abbrev Addr := ℕ

structure CacheChain where
  len : ℕ
  first : Option Addr
  last : Option Addr
  deriving DecidableEq, Repr

structure Cache where
  numobjs : ℕ
  hashlen : ℕ
  chainlen : ℕ
  table : List CacheChain
  heap : Heap Addr Entry

/-- `cache_create`, which returns null when one of its two allocations fails; the flags tell
whether they succeed. The size of the table is computed in 64 bits: when it wraps around,
the loop which clears the chains runs past the table. -/
def cacheCreate (numobjs : ℕ) (cdOk tableOk : Bool) : Option (Option Cache) :=
  if !cdOk then some none
  else
    let chainlen := 4
    let hashlen := numobjs / chainlen
    let size := 24 * hashlen
    if !tableOk then some none
    else if size % 2 ^ 64 < size then none
    else some (some {
      numobjs := numobjs
      hashlen := hashlen
      chainlen := chainlen
      table := List.replicate hashlen ⟨0, none, none⟩
      heap := fun _ => none })

/-- The loop of `find_in_chain`, over at most `fuel` entries: a chain that has more
entries than its `len` says counts as a fault. -/
def findFrom (h : Heap Addr Entry) (key : Bytes) : ℕ → Option Addr → Option (Option Addr)
  | _, none => some none
  | 0, some _ => none
  | fuel + 1, some a => do
    let nd ← h a
    if key.length ≠ nd.val.key.length then findFrom h key fuel nd.next
    else if key = nd.val.key then some (some a)
    else findFrom h key fuel nd.next

def findInChain (h : Heap Addr Entry) (c : CacheChain) (key : Bytes) : Option (Option Addr) :=
  findFrom h key c.len c.first

/-- `c = cd->table + hash(key, ksize) % cd->hashlen`, with the index. -/
def chainFor (cd : Cache) (key : Bytes) : Option (ℕ × CacheChain) :=
  if cd.hashlen = 0 then none
  else
    let h := bucket cd.hashlen key
    (cd.table[h]?).map fun c => (h, c)

def findInCache (cd : Cache) (key : Bytes) : Option (Option Addr) := do
  let (_, c) ← chainFor cd key
  findInChain cd.heap c key

/-- The cache after chain `h` was rewritten. -/
def Cache.withChain (cd : Cache) (h : ℕ) (p : Heap Addr Entry × CacheChain) : Cache :=
  { cd with heap := p.1, table := cd.table.set h p.2 }

/-- What the three allocations of `cache_set` return. -/
structure SetMallocs where
  entry : Option Addr
  key : Bool
  val : Bool
  deriving DecidableEq, Repr

/-- The `expire` field of a new entry. -/
def expiry (now timeout : ℤ) : ℤ := if timeout = 0 then 0 else now + timeout

/-- `cache_set`, "and put it in": link the new entry first, evicting the last one of a full chain. -/
def putIn (chainlen : ℕ) (heap : Heap Addr Entry) (c : CacheChain) (new : Addr) :
    Option (Heap Addr Entry × CacheChain) :=
  if c.len = 0 then
    some (heap, { first := some new, last := some new, len := 1 })
  else if c.len ≤ chainlen then do
    let heap ← setNext heap (some new) c.first
    let heap ← setPrev heap c.first (some new)
    return (heap, { c with first := some new, len := c.len + 1 })
  else do
    let e := c.last
    let c := { c with last := ← readPrev heap e }
    let heap ← setNext heap c.last none
    let heap ← free heap e
    let heap ← setNext heap (some new) c.first
    let heap ← setPrev heap c.first (some new)
    return (heap, { c with first := some new })

/-- `e->prev->next = e->next;` and, if there is a next entry, `e->next->prev = e->prev;` -/
def bypass (heap : Heap Addr Entry) (e : Addr) : Option (Heap Addr Entry) := do
  let heap ← setNext heap (← readPrev heap (some e)) (← readNext heap (some e))
  let next ← readNext heap (some e)
  let prev ← readPrev heap (some e)
  setPrevIf heap next prev

/-- `if (c->last == e) c->last = e->prev;` -/
def moveLast (heap : Heap Addr Entry) (c : CacheChain) (e : Addr) : Option CacheChain :=
  if c.last = some e then (readPrev heap (some e)).map fun p => { c with last := p } else some c

/-- `cache_set`, "promote the entry to the top of the list if necessary". -/
def promote (heap : Heap Addr Entry) (c : CacheChain) (e : Addr) :
    Option (Heap Addr Entry × CacheChain) :=
  if c.first = some e then some (heap, c)
  else do
    let c ← moveLast heap c e
    let heap ← bypass heap e
    let heap ← setPrev heap (some e) none
    let heap ← setNext heap (some e) c.first
    let heap ← setPrev heap c.first (some e)
    return (heap, { c with first := some e })

def cacheSet (cd : Cache) (now : ℤ) (key val : Bytes) (timeout : ℤ) (m : SetMallocs) :
    Option (Cache × ℤ) := do
  let (h, c) ← chainFor cd key
  match ← findInChain cd.heap c key with
  | none =>
    match m.entry with
    | none => return (cd, 0)
    | some new =>
      if !m.key then return (cd, 0)
      else if !m.val then return (cd, 0)
      else
        let heap := Function.update cd.heap new (some ⟨⟨key, val, expiry now timeout⟩, none, none⟩)
        return (cd.withChain h (← putIn cd.chainlen heap c new), 1)
  | some e =>
    if !m.val then return (cd, 0)
    else
      -- "we've got a match, just replace the value in place"
      let old ← readVal cd.heap (some e)
      let heap ← setVal cd.heap (some e) { old with val := val }
      return (cd.withChain h (← promote heap c e), 1)

/-- `cache_del`, when `c->first == e`. -/
def dropFirst (heap : Heap Addr Entry) (c : CacheChain) (e : Addr) :
    Option (Heap Addr Entry × CacheChain) := do
  let next ← readNext heap (some e)
  let heap ← setPrevIf heap next none
  return (heap, { c with first := next })

/-- `cache_del`, the two ways in which the neighbours of `e` are joined. -/
def joinAround (heap : Heap Addr Entry) (c : CacheChain) (e : Addr) :
    Option (Heap Addr Entry × CacheChain) :=
  if c.first = some e then dropFirst heap c e
  else (bypass heap e).map fun heap => (heap, c)

/-- The links `cache_del` rewrites around the entry `e`, which it then frees. -/
def takeOut (heap : Heap Addr Entry) (c : CacheChain) (e : Addr) :
    Option (Heap Addr Entry × CacheChain) := do
  let (heap, c) ← joinAround heap c e
  let c ← moveLast heap c e
  let heap ← free heap (some e)
  return (heap, { c with len := c.len - 1 })

def cacheDel (cd : Cache) (key : Bytes) : Option (Cache × ℤ) := do
  let (h, c) ← chainFor cd key
  match ← findInChain cd.heap c key with
  | none => return (cd, 0)
  | some e => return (cd.withChain h (← takeOut cd.heap c e), 1)

/-- `e->expire > 0 && e->expire < g_ctime` -/
def expired (now : ℤ) (e : Entry) : Bool := 0 < e.expire && e.expire < now

def cacheGet (cd : Cache) (now : ℤ) (key : Bytes) : Option (Cache × Option Bytes) := do
  match ← findInCache cd key with
  | none => return (cd, none)
  | some a =>
    let e ← readVal cd.heap (some a)
    if expired now e then
      let (cd, _) ← cacheDel cd key
      return (cd, none)
    else return (cd, some e.val)

/-- `cache_cas`; `alloc` tells whether its allocation succeeds. -/
def cacheCas (cd : Cache) (key oldval newval : Bytes) (alloc : Bool) : Option (Cache × ℤ) := do
  match ← findInCache cd key with
  | none => return (cd, -1)
  | some a =>
    let e ← readVal cd.heap (some a)
    if e.val.length ≠ oldval.length then return (cd, 0)
    else if e.val ≠ oldval then return (cd, 0)
    else if !alloc then return (cd, -2)
    else return ({ cd with heap := ← setVal cd.heap (some a) { e with val := newval } }, 1)

/-- What lies around the zero-sized allocation of an empty value, where `val[vsize - 1]`
and `strtoll` read outside it. -/
structure Outside where
  before : UInt8
  after : Bytes
  deriving DecidableEq, Repr

/-- `val[vsize - 1]` -/
def lastByte (val : Bytes) (o : Outside) : UInt8 := val.getLast?.getD o.before

def numberText (val : Bytes) (o : Outside) : Bytes := if val = [] then o.after else val

/-- The value after `snprintf(val, vsize, "%23lld", intval)` into the old buffer, or into a
new one of 24 bytes when the old one is shorter. -/
def printCounter (val : Bytes) (intval : ℤ) : Bytes :=
  padLeft 23 (printInt intval) ++ 0 :: val.drop 24

/-- `cache_incr`, with the `newval` it stores on success. -/
def cacheIncr (cd : Cache) (key : Bytes) (increment : ℤ) (alloc : Bool) (o : Outside) :
    Option (Cache × ℤ × Option ℤ) := do
  match ← findInCache cd key with
  | none => return (cd, -1, none)
  | some a =>
    let e ← readVal cd.heap (some a)
    if lastByte e.val o ≠ 0 then return (cd, -2, none)
    else
      let intval := wrap 64 (strtol (numberText e.val o) + increment)
      if e.val.length < 24 && !alloc then return (cd, -3, none)
      else
        let heap ← setVal cd.heap (some a) { e with val := printCounter e.val intval }
        return ({ cd with heap := heap }, 1, some intval)

/-- One call on a cache, with what its allocations return. -/
inductive Op where
  | set (key val : Bytes) (timeout : ℤ) (m : SetMallocs)
  | get (key : Bytes)
  | del (key : Bytes)
  | cas (key oldval newval : Bytes) (alloc : Bool)
  | incr (key : Bytes) (increment : ℤ) (alloc : Bool) (o : Outside)
  deriving DecidableEq, Repr

/-- What a call returns. -/
inductive Answer where
  | status (rv : ℤ)
  | value (val : Option Bytes)
  | count (rv : ℤ) (newval : Option ℤ)
  deriving DecidableEq, Repr

def Op.key : Op → Bytes
  | .set key .. => key
  | .get key => key
  | .del key => key
  | .cas key .. => key
  | .incr key .. => key

/-- A call made while `g_ctime` is `now`. -/
def call (cd : Cache) (now : ℤ) : Op → Option (Cache × Answer)
  | .set key val timeout m => (cacheSet cd now key val timeout m).map fun r => (r.1, .status r.2)
  | .get key => (cacheGet cd now key).map fun r => (r.1, .value r.2)
  | .del key => (cacheDel cd key).map fun r => (r.1, .status r.2)
  | .cas key old new alloc => (cacheCas cd key old new alloc).map fun r => (r.1, .status r.2)
  | .incr key n alloc o => (cacheIncr cd key n alloc o).map fun r => (r.1, .count r.2.1 r.2.2)

/-- What `malloc` guarantees: it never returns an address which is in use. -/
def Op.Fresh (cd : Cache) : Op → Prop
  | .set _ _ _ m => ∀ a, m.entry = some a → cd.heap a = none
  | _ => True

/-- A sequence of calls, each with its clock; a fault ends it. -/
def calls : Cache → List (ℤ × Op) → Option Cache
  | cd, [] => some cd
  | cd, (now, op) :: ops => do
    let (cd, _) ← call cd now op
    calls cd ops

/-- `malloc` keeps its guarantee along a sequence of calls. -/
def FreshCalls : Cache → List (ℤ × Op) → Prop
  | _, [] => True
  | cd, (now, op) :: ops =>
    op.Fresh cd ∧ ∀ cd' ans, call cd now op = some (cd', ans) → FreshCalls cd' ops

end Cmoon.CacheOperations
