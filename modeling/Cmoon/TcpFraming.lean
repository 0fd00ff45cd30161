import Cmoon.ByteBuffers

/-! # Receiving frames on a TCP connection (`tcp.c`)

`tcp_recv` reads into the buffer all connections share, or into one of its own while a
message is incomplete, and `process_buf` cuts frames off. Leftovers of a read are moved to the
front of the buffer and processed again, under the length of the frame before them. -/
namespace Cmoon.TcpFraming
open DecimalText ByteBuffers

/-- `struct tcp_socket` with what the connection did so far: the bodies given to `parse_message`,
its share of `stats.msg_tcp`, and whether it was closed. -/
structure Conn where
  buf : Option Bytes
  pktsize : ℕ
  len : ℕ
  excess : ℕ
  calls : List Bytes
  msgTcp : ℕ
  closed : Bool
  deriving DecidableEq, Repr

/-- A connection as `tcp_newconnection` sets it up. -/
def Conn.new : Conn := ⟨none, 0, 0, 0, [], 0, false⟩

/-- `error_exit` -/
def Conn.close (c : Conn) : Conn := { c with closed := true }

def sbsize : ℕ := 68 * 1024

/-- The length word of a buffer, or as much as is needed to read one. -/
def totaltoget (buf : Bytes) (len : ℕ) : ℕ := if 4 ≤ len then word (buf.take 4) else 4

/-- `process_buf`, given what `parse_message` returns and what `malloc(SBSIZE)` returns. A
connection with a buffer of its own calls it on that buffer, which then changes with `buf`. -/
def processBuf (parse : Bytes → Bool) (block : Option Bytes) (c : Conn) (buf : Bytes) (len : ℕ) : Conn :=
  let need := totaltoget buf len
  if 4 ≤ len ∧ (need > 64 * 1024 ∨ need ≤ 8) then c.close
  else if need > len then
    match c.buf with
    | none =>
      match block with
      | none => c.close
      | some b => { c with buf := some (overwrite b 0 (buf.take len)), len := len, pktsize := need }
    | some _ => { c with buf := some buf, len := len, pktsize := need }
  else
    let excess := if need < len then len - need else c.excess
    let body := slice buf 4 (need - 4)
    let c' := { c with excess := excess, calls := c.calls ++ [body], msgTcp := c.msgTcp + 1 }
    if parse body then
      if excess = 0 then
        match c.buf with
        | none => c'
        | some _ => { c' with buf := none, len := 0, pktsize := 0, excess := 0 }
      else
        let buf := overwrite buf 0 (slice buf need excess)
        -- the leftovers are processed as if they were as long as the frame before them
        processBuf parse block { c' with buf := c.buf.map fun _ => buf, len := excess, excess := 0 } buf need
    else c'.close
termination_by (len, c.excess)
decreasing_by
  rename_i hexc
  simp only [Prod.lex_def]
  by_cases hlt : need < len
  · exact .inl hlt
  · have heq : need = len := by omega
    have hnz : c.excess ≠ 0 := by simpa [excess, hlt] using hexc
    exact .inr ⟨heq, Nat.pos_of_ne_zero hnz⟩

/-- What `recv` returns: nothing yet, the end of the connection or an error, or bytes. -/
inductive Received where
  | again
  | shutdown
  | data (chunk : Bytes)
  deriving DecidableEq, Repr

/-- One readable event: what `recv` returns, what the shared buffer held before, and the block
`malloc` would return. -/
structure Recv where
  result : Received
  stale : Bytes
  block : Option Bytes

def tcpRecv (parse : Bytes → Bool) (c : Conn) (r : Recv) : Conn :=
  if c.closed then c
  else
    match r.result with
    | .again => c
    | .shutdown => c.close
    | .data chunk =>
      match c.buf with
      | none => processBuf parse r.block c (overwrite r.stale 0 chunk) chunk.length
      | some m =>
        let m := overwrite m c.len chunk
        processBuf parse r.block { c with buf := some m, len := c.len + chunk.length } m
          (c.len + chunk.length)

/-- The size `tcp_recv` asks for. -/
def asked (c : Conn) : ℕ :=
  match c.buf with
  | none => sbsize
  | some _ => c.pktsize - c.len

def run (parse : Bytes → Bool) (c : Conn) (events : List Recv) : Conn := events.foldl (tcpRecv parse) c

section Steps
variable {parse : Bytes → Bool} {block : Option Bytes} {c : Conn} {buf : Bytes} {len : ℕ}

/-- An incomplete message on a connection without a buffer. -/
theorem processBuf_save {b : Bytes} (hblock : block = some b) (hbuf : c.buf = none)
    (hok : 4 ≤ len → 8 < totaltoget buf len ∧ totaltoget buf len ≤ 65536)
    (hshort : len < totaltoget buf len) :
    processBuf parse block c buf len =
      { c with
        buf := some (overwrite b 0 (buf.take len))
        len := len
        pktsize := totaltoget buf len } := by
  rw [processBuf.eq_def]
  simp only
  rw [if_neg (fun h => by have := hok h.1; omega), if_pos hshort, hbuf, hblock]

theorem processBuf_wait (hbuf : c.buf = some buf)
    (hok : 4 ≤ len → 8 < totaltoget buf len ∧ totaltoget buf len ≤ 65536)
    (hshort : len < totaltoget buf len) :
    processBuf parse block c buf len = { c with len := len, pktsize := totaltoget buf len } := by
  rw [processBuf.eq_def]
  simp only
  rw [if_neg (fun h => by have := hok h.1; omega), if_pos hshort, hbuf]

theorem processBuf_exact (hex : c.excess = 0) (hlen : 8 < len ∧ len ≤ 65536)
    (hneed : word (buf.take 4) = len) (hparse : parse (slice buf 4 (len - 4)) = true) :
    processBuf parse block c buf len =
      { c with
        buf := none
        len := if c.buf = none then c.len else 0
        pktsize := if c.buf = none then c.pktsize else 0
        calls := c.calls ++ [slice buf 4 (len - 4)]
        msgTcp := c.msgTcp + 1 } := by
  have htotal : totaltoget buf len = len := by rw [totaltoget, if_pos (by omega), hneed]
  rw [processBuf.eq_def]
  simp only [htotal, hparse, hex]
  rw [if_neg (by omega), if_neg (lt_irrefl _), if_neg (lt_irrefl _), if_pos trivial, if_pos rfl]
  cases hb : c.buf <;> simp

theorem processBuf_more {need : ℕ} (hneed : word (buf.take 4) = need) (hok : 8 < need ∧ need ≤ 65536)
    (hmore : need < len) (hparse : parse (slice buf 4 (need - 4)) = true) (hbuf : c.buf = none) :
    processBuf parse block c buf len =
      processBuf parse block
        { c with
          len := len - need
          excess := 0
          calls := c.calls ++ [slice buf 4 (need - 4)]
          msgTcp := c.msgTcp + 1 }
        (overwrite buf 0 (slice buf need (len - need))) need := by
  have htotal : totaltoget buf len = need := by rw [totaltoget, if_pos (by omega), hneed]
  rw [processBuf.eq_def]
  simp only [htotal, hparse]
  rw [if_neg (by omega), if_neg (by omega), if_pos hmore, if_pos trivial, if_neg (by omega), hbuf]
  rfl

end Steps

/-- A frame: its total length and its body. -/
def wire (body : Bytes) : Bytes := be 4 (body.length + 4) ++ body

@[simp] theorem length_wire (body : Bytes) : (wire body).length = body.length + 4 := by
  simp [wire]
  omega

def stream (bodies : List Bytes) : Bytes := (bodies.map wire).flatten

@[simp] theorem stream_nil : stream [] = [] := rfl

@[simp] theorem stream_cons (b : Bytes) (bs : List Bytes) : stream (b :: bs) = wire b ++ stream bs := rfl

/-- A message that `parse_message` takes, of a size that a frame may have. -/
def Acceptable (parse : Bytes → Bool) (body : Bytes) : Prop :=
  17 ≤ body.length ∧ body.length ≤ 65532 ∧ parse body = true

/-- The frames still missing, and the bytes had of the first of them, `k` bytes later. -/
def advance : List Bytes → ℕ → ℕ → List Bytes × ℕ
  | [], _, _ => ([], 0)
  | b :: bs, got, k =>
    if got + k < b.length + 4 then (b :: bs, got + k) else advance bs 0 (got + k - (b.length + 4))

theorem advance_zero (bs : List Bytes) : advance bs 0 0 = (bs, 0) := by
  cases bs with
  | nil => rfl
  | cons b bs => simp [advance]

/-- A read of `k` bytes which starts with these frames leaves no more behind a frame than that
frame is long, and then just as much. -/
def LeftoversFit : ℕ → List Bytes → Prop
  | _, [] => True
  | k, b :: bs => k ≤ b.length + 4 ∨ (k = 2 * (b.length + 4) ∧ LeftoversFit (b.length + 4) bs)

/-- The reads of the given sizes which start at a frame boundary all do so. -/
def CutsFit : List Bytes → ℕ → List ℕ → Prop
  | _, _, [] => True
  | bs, got, k :: ks =>
    (got = 0 → LeftoversFit k bs) ∧ CutsFit (advance bs got k).1 (advance bs got k).2 ks

/-- A connection which has handed over the bodies before `bs` and has `got` bytes of the first
frame of `bs` in its buffer. -/
structure Between (bodies : List Bytes) (c : Conn) (bs : List Bytes) (got : ℕ) : Prop where
  opened : c.closed = false
  calls : c.calls ++ bs = bodies
  excess : c.excess = 0
  idle : got = 0 → c.buf = none
  partly : 0 < got → ∃ b bs' m, bs = b :: bs' ∧ got < b.length + 4 ∧ c.buf = some m ∧
    m.take got = (wire b).take got ∧ c.len = got ∧ c.pktsize = if got < 4 then 4 else b.length + 4

theorem between_new (bodies : List Bytes) : Between bodies Conn.new bodies 0 :=
  ⟨rfl, rfl, rfl, fun _ => rfl, fun h => absurd h (lt_irrefl 0)⟩

/-- Agreement on the first bytes is agreement on fewer of them. -/
private theorem take_of_take {m s : Bytes} {k j : ℕ} (h : m.take k = s.take k) (hj : j ≤ k) :
    m.take j = s.take j := by
  have h := congrArg (List.take j) h
  rwa [List.take_take, List.take_take, Nat.min_eq_left hj] at h

private theorem word_header {parse : Bytes → Bool} {b : Bytes} (hb : Acceptable parse b) {buf : Bytes}
    {k : ℕ} (hk : 4 ≤ k) (htake : buf.take k = (wire b).take k) : word (buf.take 4) = b.length + 4 := by
  have hbody := hb.2.1
  have hw : (wire b).take 4 = be 4 (b.length + 4) := List.take_left' (length_be 4 _)
  rw [take_of_take htake hk, hw, word_be_of_lt (by omega)]

private theorem slice_body {b buf : Bytes} (hfront : buf.take (b.length + 4) = wire b) :
    slice buf 4 (b.length + 4 - 4) = b := by
  have hdrop : slice buf 4 (b.length + 4 - 4) = (buf.take (b.length + 4)).drop 4 := by
    rw [slice, List.drop_take]
  rw [hdrop, hfront, wire]
  exact List.drop_left' (length_be 4 _)

section Runs
variable {parse : Bytes → Bool} {bodies : List Bytes}

private theorem take_stream {b : Bytes} {bs : List Bytes} {buf : Bytes} {k j : ℕ}
    (h : buf.take k = (stream (b :: bs)).take k) (hjk : j ≤ k) (hj : j ≤ b.length + 4) :
    buf.take j = (wire b).take j := by
  rw [take_of_take h hjk, stream_cons, List.take_append_of_le_length (by simpa using hj)]

private theorem totaltoget_eq {b : Bytes} (hb : Acceptable parse b) {buf : Bytes} {k : ℕ}
    (h : buf.take k = (wire b).take k) : totaltoget buf k = if k < 4 then 4 else b.length + 4 := by
  unfold totaltoget
  split
  · next hk => rw [word_header hb hk h, if_neg (by omega)]
  · rw [if_pos (by omega)]

private theorem processBuf_frame {b : Bytes} {bs : List Bytes} (hb : Acceptable parse b) {c : Conn}
    (hopen : c.closed = false) (hcalls : c.calls ++ b :: bs = bodies) (hex : c.excess = 0) {buf : Bytes}
    (hfront : buf.take (b.length + 4) = wire b) {block : Option Bytes} :
    Between bodies (processBuf parse block c buf (b.length + 4)) bs 0 := by
  have ⟨h17, hmax, hparse⟩ := hb
  have hhead := word_header (k := b.length + 4) hb (by omega) (hfront.trans (List.take_of_length_le (by simp)).symm)
  have hslice := slice_body hfront
  rw [processBuf_exact hex (by omega) hhead (by rwa [hslice]), hslice]
  refine ⟨hopen, ?_, hex, fun _ => rfl, fun h => absurd h (lt_irrefl 0)⟩
  simpa using hcalls

/-- The first part of a frame goes into a buffer of the connection. -/
private theorem processBuf_part {b : Bytes} {bs : List Bytes} (hb : Acceptable parse b) {c : Conn}
    (hc : Between bodies c (b :: bs) 0) {buf : Bytes} {k : ℕ} (hk : 0 < k) (hshort : k < b.length + 4)
    (htake : buf.take k = (wire b).take k) {blk : Bytes} :
    Between bodies (processBuf parse (some blk) c buf k) (b :: bs) k := by
  have htotal := totaltoget_eq hb htake
  have hneed : k < totaltoget buf k := by
    rw [htotal]
    split <;> omega
  have hrange : 4 ≤ k → 8 < totaltoget buf k ∧ totaltoget buf k ≤ 65536 := by
    have ⟨h17, hmax, _⟩ := hb
    intro h4
    rw [htotal, if_neg (by omega)]
    omega
  have hlen : (buf.take k).length = k := by
    rw [htake, List.length_take, length_wire]
    omega
  rw [processBuf_save rfl (hc.idle rfl) hrange hneed]
  refine ⟨hc.opened, hc.calls, hc.excess, fun h => by omega, fun _ => ?_⟩
  refine ⟨b, bs, _, rfl, hshort, rfl, ?_, rfl, htotal⟩
  rw [overwrite_zero, List.take_left' hlen, htake]

/-- A frame with just as much behind it is handed over, and the rest is taken for a read of its own. -/
private theorem processBuf_twice {b : Bytes} {bs : List Bytes} (hb : Acceptable parse b) {c : Conn}
    (hc : Between bodies c (b :: bs) 0) {buf : Bytes} {k : ℕ} (htwice : k = 2 * (b.length + 4))
    (hks : k ≤ (stream (b :: bs)).length) (hbuf : buf.take k = (stream (b :: bs)).take k)
    (hfront : buf.take (b.length + 4) = wire b) {block : Option Bytes} :
    ∃ c' buf', Between bodies c' bs 0 ∧ buf'.take (b.length + 4) = (stream bs).take (b.length + 4) ∧
      processBuf parse block c buf k = processBuf parse block c' buf' (b.length + 4) := by
  have ⟨h17, hmax, hparse⟩ := hb
  have hhead : word (buf.take 4) = b.length + 4 :=
    word_header hb (by omega) (hfront.trans (List.take_of_length_le (by simp)).symm)
  have hslice := slice_body hfront
  have hlen : k - (b.length + 4) = b.length + 4 := by omega
  have hrest : slice buf (b.length + 4) (b.length + 4) = (stream bs).take (b.length + 4) := by
    have h := congrArg (List.drop (b.length + 4)) hbuf
    rw [List.drop_take, List.drop_take, hlen, stream_cons, List.drop_left' (length_wire b)] at h
    exact h
  have hrlen : (slice buf (b.length + 4) (b.length + 4)).length = b.length + 4 := by
    rw [stream_cons, List.length_append, length_wire] at hks
    rw [hrest, List.length_take]
    omega
  have hnext : Between bodies { c with
      len := b.length + 4
      excess := 0
      calls := c.calls ++ [b]
      msgTcp := c.msgTcp + 1 } bs 0 :=
    ⟨hc.opened, by simpa using hc.calls, rfl, hc.idle, fun h => absurd h (lt_irrefl 0)⟩
  refine ⟨_, overwrite buf 0 (slice buf (b.length + 4) (b.length + 4)), hnext, ?_, ?_⟩
  · rw [overwrite_zero, List.take_left' hrlen, hrest]
  · rw [processBuf_more hhead (by omega) (by omega) (by rwa [hslice]) (hc.idle rfl), hslice, hlen]

theorem processBuf_idle {bs : List Bytes} (hbs : ∀ b ∈ bs, Acceptable parse b) {c : Conn}
    (hc : Between bodies c bs 0) {buf : Bytes} {k : ℕ} (hk : 0 < k) (hks : k ≤ (stream bs).length)
    (hbuf : buf.take k = (stream bs).take k) (hfit : LeftoversFit k bs) {blk : Bytes} :
    Between bodies (processBuf parse (some blk) c buf k) (advance bs 0 k).1 (advance bs 0 k).2 := by
  induction bs generalizing c buf k with
  | nil =>
    simp at hks
    omega
  | cons b bs ih =>
    have hb := hbs b (by simp)
    have hbs' : ∀ b' ∈ bs, Acceptable parse b' := fun b' hb' => hbs b' (List.mem_cons_of_mem b hb')
    by_cases hshort : k < b.length + 4
    · -- the read ends inside the frame
      rw [advance, if_pos (by omega), Nat.zero_add]
      exact processBuf_part hb hc hk hshort (take_stream hbuf (le_refl k) hshort.le)
    have hfront : buf.take (b.length + 4) = wire b := by
      rw [take_stream hbuf (by omega) (le_refl _), List.take_of_length_le (by simp)]
    rw [advance, if_neg (by omega), Nat.zero_add]
    by_cases hexact : k = b.length + 4
    · -- the read ends with the frame
      subst hexact
      rw [Nat.sub_self, advance_zero]
      exact processBuf_frame hb hc.opened hc.calls hc.excess hfront
    · -- just as much follows as the frame is long
      obtain hle | ⟨htwice, hfit'⟩ := hfit
      · omega
      obtain ⟨c', buf', hc', hbuf', heq⟩ := processBuf_twice hb hc htwice hks hbuf hfront
      have hlen : k - (b.length + 4) = b.length + 4 := by omega
      have hroom : b.length + 4 ≤ (stream bs).length := by
        rw [stream_cons, List.length_append, length_wire] at hks
        omega
      rw [heq, hlen]
      exact ih hbs' hc' (by omega) hroom hbuf' hfit'

theorem processBuf_partly {b : Bytes} {bs : List Bytes} (hb : Acceptable parse b) {c : Conn}
    {got : ℕ} (hc : Between bodies c (b :: bs) got) {m : Bytes} {k : ℕ} {block : Option Bytes}
    (hgot : 0 < got) (hk : 0 < k)
    (hroom : got + k ≤ if got < 4 then 4 else b.length + 4)
    (hm : m.take (got + k) = (wire b).take (got + k)) :
    Between bodies (processBuf parse block { c with buf := some m, len := got + k } m (got + k))
      (advance (b :: bs) got k).1 (advance (b :: bs) got k).2 := by
  have ⟨h17, hmax, hparse⟩ := hb
  have hroom' : got + k ≤ b.length + 4 := by
    split at hroom <;> omega
  have htotal := totaltoget_eq hb hm
  by_cases hshort : got + k < b.length + 4
  · have hneed : got + k < totaltoget m (got + k) := by
      rw [htotal]
      split <;> omega
    have hrange : 4 ≤ got + k → 8 < totaltoget m (got + k) ∧ totaltoget m (got + k) ≤ 65536 := by
      intro h4
      rw [htotal, if_neg (by omega)]
      omega
    rw [processBuf_wait rfl hrange hneed, advance, if_pos hshort]
    exact ⟨hc.opened, hc.calls, hc.excess, fun h => by omega,
      fun _ => ⟨b, bs, m, rfl, hshort, rfl, hm, rfl, htotal⟩⟩
  · have hexact : got + k = b.length + 4 := by omega
    rw [hexact] at hm
    have hfront : m.take (b.length + 4) = wire b := hm.trans (List.take_of_length_le (by simp))
    have hopen : ({ c with buf := some m, len := b.length + 4 } : Conn).closed = false := hc.opened
    rw [advance, if_neg hshort, hexact, Nat.sub_self, advance_zero]
    exact processBuf_frame hb hopen hc.calls hc.excess hfront

def Recv.chunk (r : Recv) : Bytes :=
  match r.result with
  | .data chunk => chunk
  | _ => []

/-- What `recv` does on an open connection: it returns nothing yet, or some bytes, and not more
than it was asked for. -/
def Obeys (parse : Bytes → Bool) : Conn → List Recv → Prop
  | _, [] => True
  | c, r :: rs =>
    (r.result = .again ∨ r.result = .data r.chunk ∧ r.chunk ≠ [] ∧ r.chunk.length ≤ asked c) ∧
    Obeys parse (tcpRecv parse c r) rs

/-- A read into the buffer of the connection, inside the frame or up to its end. -/
private theorem tcpRecv_partly {b : Bytes} {bs : List Bytes} (hb : Acceptable parse b) {c : Conn} {got : ℕ}
    (hc : Between bodies c (b :: bs) got) (hgot : 0 < got) {r : Recv} (hdata : r.result = .data r.chunk)
    (hne : r.chunk ≠ []) (hask : r.chunk.length ≤ asked c)
    (htake : ((stream (b :: bs)).drop got).take r.chunk.length = r.chunk) :
    Between bodies (tcpRecv parse c r) (advance (b :: bs) got r.chunk.length).1
        (advance (b :: bs) got r.chunk.length).2 := by
  obtain ⟨b', bs', m, hbs, hlt, hbuf, hm, hlen, hsize⟩ := hc.partly hgot
  obtain ⟨rfl, rfl⟩ := List.cons.inj hbs
  have hask : got + r.chunk.length ≤ if got < 4 then 4 else b.length + 4 := by
    rw [asked, hbuf] at hask
    simp only [hsize, hlen] at hask
    split_ifs at hask ⊢ <;> omega
  have hwire : got + r.chunk.length ≤ (wire b).length := by
    rw [length_wire]
    split at hask <;> omega
  have hmlen : got ≤ m.length := by
    have hl := congrArg List.length hm
    rw [List.length_take, List.length_take, length_wire] at hl
    omega
  have hchunk : ((wire b).drop got).take r.chunk.length = r.chunk := by
    rw [stream_cons, List.drop_append_of_le_length (by omega),
      List.take_append_of_le_length (by rw [List.length_drop]; omega)] at htake
    exact htake
  rw [tcpRecv, if_neg (by simp [hc.opened]), hdata]
  simp only [hbuf, hlen]
  apply processBuf_partly hb hc hgot (List.length_pos_iff.mpr hne) hask
  rw [take_overwrite _ hmlen, hm, List.take_add, hchunk]

theorem tcpRecv_between {bs : List Bytes} (hbs : ∀ b ∈ bs, Acceptable parse b) {c : Conn} {got : ℕ}
    (hc : Between bodies c bs got) {r : Recv} (hblk : r.block ≠ none)
    (hr : r.result = .again ∨ r.result = .data r.chunk ∧ r.chunk ≠ [] ∧ r.chunk.length ≤ asked c)
    (hpre : r.chunk <+: (stream bs).drop got) (hfit : got = 0 → LeftoversFit r.chunk.length bs) :
    Between bodies (tcpRecv parse c r) (advance bs got r.chunk.length).1
        (advance bs got r.chunk.length).2 := by
  obtain ⟨blk, hblk⟩ := Option.ne_none_iff_exists'.mp hblk
  rcases hr with hagain | ⟨hdata, hne, hask⟩
  · have hchunk : r.chunk = [] := by simp [Recv.chunk, hagain]
    have hsame : tcpRecv parse c r = c := by simp [tcpRecv, hagain]
    rw [hsame, hchunk]
    rcases Nat.eq_zero_or_pos got with rfl | hgot
    · simpa [advance_zero] using hc
    · obtain ⟨b, bs', m, rfl, hlt, -⟩ := hc.partly hgot
      simpa [advance, hlt] using hc
  · have htake : ((stream bs).drop got).take r.chunk.length = r.chunk :=
      (List.prefix_iff_eq_take.mp hpre).symm
    rcases Nat.eq_zero_or_pos got with rfl | hgot
    · rw [tcpRecv, if_neg (by simp [hc.opened]), hdata]
      simp only [hc.idle rfl, hblk]
      refine processBuf_idle hbs hc (List.length_pos_iff.mpr hne) hpre.length_le ?_ (hfit rfl)
      rw [overwrite_zero, List.take_left' rfl]
      exact htake.symm
    · obtain ⟨b, bs', m, rfl, -⟩ := hc.partly hgot
      exact tcpRecv_partly (hbs b (by simp)) hc hgot hdata hne hask htake

private theorem mem_advance {bs : List Bytes} {got k : ℕ} {b : Bytes} (hb : b ∈ (advance bs got k).1) : b ∈ bs := by
  induction bs generalizing got k with
  | nil => exact hb
  | cons d bs ih =>
    rw [advance] at hb
    split at hb
    · exact hb
    · exact List.mem_cons_of_mem d (ih hb)

private theorem stream_advance {bs : List Bytes} {got k : ℕ} (hgot : got = 0 ∨ got < (stream bs).length) :
    (stream (advance bs got k).1).drop (advance bs got k).2 = (stream bs).drop (got + k) := by
  induction bs generalizing got k with
  | nil => simp [advance]
  | cons b bs ih =>
    rw [advance]
    split
    · rfl
    · next hge =>
      have hle : (wire b).length ≤ got + k := by
        rw [length_wire]
        omega
      rw [ih (.inl rfl), stream_cons, Nat.zero_add, List.drop_append, List.drop_eq_nil_of_le hle,
        List.nil_append, length_wire]

theorem run_between {bs : List Bytes} (hbs : ∀ b ∈ bs, Acceptable parse b) {c : Conn} {got : ℕ}
    (hc : Between bodies c bs got) {rs : List Recv} (hblk : ∀ r ∈ rs, r.block ≠ none)
    (hobey : Obeys parse c rs) (hpre : (rs.map Recv.chunk).flatten <+: (stream bs).drop got)
    (hfit : CutsFit bs got (rs.map fun r => r.chunk.length)) :
    ∃ bs' got', Between bodies (run parse c rs) bs' got' ∧
      (stream bs).drop got = (rs.map Recv.chunk).flatten ++ (stream bs').drop got' := by
  induction rs generalizing c bs got with
  | nil => exact ⟨bs, got, hc, rfl⟩
  | cons r rs ih =>
    obtain ⟨hr, hobey⟩ := hobey
    obtain ⟨hfit, hfit'⟩ := hfit
    rw [List.map_cons, List.flatten_cons] at hpre
    have hstep := tcpRecv_between hbs hc (hblk r (by simp)) hr ((List.prefix_append _ _).trans hpre) hfit
    have hgot : got = 0 ∨ got < (stream bs).length := by
      rcases Nat.eq_zero_or_pos got with h | h
      · exact .inl h
      · obtain ⟨b, bs', m, rfl, hlt, -⟩ := hc.partly h
        right
        rw [stream_cons, List.length_append, length_wire]
        omega
    have hrest := stream_advance (k := r.chunk.length) hgot
    obtain ⟨s, hs⟩ := hpre
    have hdrop : (stream bs).drop (got + r.chunk.length) = (rs.map Recv.chunk).flatten ++ s := by
      rw [← List.drop_drop, ← hs, List.append_assoc, List.drop_left' rfl]
    have hsub : ∀ b ∈ (advance bs got r.chunk.length).1, Acceptable parse b := fun b hb => hbs b (mem_advance hb)
    obtain ⟨bs', got', hend, hsplit⟩ := ih hsub hstep (fun r' hr' => hblk r' (List.mem_cons_of_mem r hr'))
      hobey (by rw [hrest, hdrop]; exact List.prefix_append _ _) hfit'
    refine ⟨bs', got', hend, ?_⟩
    rw [hrest, hdrop] at hsplit
    rw [← hs, List.map_cons, List.flatten_cons, List.append_assoc, List.append_assoc, hsplit]

end Runs

/-- While the reads leave such leftovers only, a connection hands over the bodies of the frames in
order, each once, and stays open; when all bytes have come it has handed over all of them. -/
theorem run_frames {parse : Bytes → Bool} {bodies : List Bytes} (hbodies : ∀ b ∈ bodies, Acceptable parse b)
    {events : List Recv} (hblk : ∀ r ∈ events, r.block ≠ none) (hobey : Obeys parse Conn.new events)
    (hcut : (events.map Recv.chunk).flatten <+: stream bodies)
    (hfit : CutsFit bodies 0 (events.map fun r => r.chunk.length)) :
    (run parse Conn.new events).closed = false ∧ (run parse Conn.new events).calls <+: bodies ∧
      ((events.map Recv.chunk).flatten = stream bodies → (run parse Conn.new events).calls = bodies) := by
  obtain ⟨bs, got, hend, hsplit⟩ := run_between hbodies (between_new bodies) hblk hobey hcut hfit
  refine ⟨hend.opened, ⟨bs, hend.calls⟩, fun hall => ?_⟩
  have hempty : (stream bs).drop got = [] := by
    rw [hall, List.drop_zero] at hsplit
    exact List.append_right_eq_self.mp hsplit.symm
  have hbs : bs = [] := by
    rcases Nat.eq_zero_or_pos got with rfl | hpos
    · cases bs with
      | nil => rfl
      | cons b bs =>
        have hlen := congrArg List.length hempty
        simp at hlen
    · obtain ⟨b, bs', m, rfl, hlt, -⟩ := hend.partly hpos
      have hlen := congrArg List.length hempty
      simp at hlen
      omega
  have hcalls := hend.calls
  rwa [hbs, List.append_nil] at hcalls

/-- Two frames of 21 bytes in one read. -/
theorem run_frames_two :
    let bodies : List Bytes := [List.replicate 17 0, List.replicate 17 0]
    (run (fun _ => true) Conn.new [⟨.data (stream bodies), [], some []⟩]).calls = bodies := by
  intro bodies
  let events : List Recv := [⟨.data (stream bodies), [], some []⟩]
  have hbodies : ∀ b ∈ bodies, Acceptable (fun _ => true) b := by
    intro b hb
    obtain rfl : b = List.replicate 17 0 := by simpa [bodies] using hb
    exact ⟨by decide, by decide, rfl⟩
  have hobey : Obeys (fun _ => true) Conn.new events := ⟨.inr ⟨rfl, by decide, by decide⟩, trivial⟩
  have hfit : CutsFit bodies 0 (events.map fun r => r.chunk.length) :=
    ⟨fun _ => .inr ⟨by decide, .inl (by decide)⟩, trivial⟩
  have hall : (events.map Recv.chunk).flatten = stream bodies := List.append_nil _
  exact (run_frames hbodies (by simp [events]) hobey (hall ▸ List.prefix_refl _) hfit).2.2 hall

def twoFrames : List Bytes := [List.replicate 17 0, List.replicate 18 0]

private theorem run_twoFrames (stale block : Bytes) :
    (run (fun _ => true) Conn.new [⟨.data (stream twoFrames), stale, some block⟩]).calls =
      [List.replicate 17 0] := by
  let buf := overwrite stale 0 (stream twoFrames)
  let next := overwrite buf 0 (slice buf 21 22)
  have hmore : processBuf (fun _ => true) (some block) Conn.new buf 43 =
      processBuf (fun _ => true) (some block)
        { Conn.new with
          len := 22
          excess := 0
          calls := [slice buf 4 17]
          msgTcp := 1 } next 21 :=
    processBuf_more (show word (buf.take 4) = 21 from rfl) (by decide) (by decide) rfl rfl
  have hhead : totaltoget next 21 = 22 := rfl
  change (processBuf _ (some block) Conn.new buf 43).calls = _
  rw [hmore, processBuf_save rfl rfl (fun _ => by rw [hhead]; decide) (by rw [hhead]; decide)]
  rfl

/-- The second frame is never handed over. -/
theorem run_twoFrames_lost :
    let events : List Recv := [⟨.data (stream twoFrames), List.replicate sbsize 0, some (List.replicate sbsize 0)⟩]
    (∀ b ∈ twoFrames, Acceptable (fun _ => true) b) ∧ Obeys (fun _ => true) Conn.new events ∧
      (events.map Recv.chunk).flatten = stream twoFrames ∧
      (run (fun _ => true) Conn.new events).calls ≠ twoFrames := by
  intro events
  refine ⟨?_, ⟨.inr ⟨rfl, by decide, by decide⟩, trivial⟩, List.append_nil _, ?_⟩
  · intro b hb
    rcases List.mem_cons.mp hb with rfl | hb
    · exact ⟨by decide, by decide, rfl⟩
    · obtain rfl := List.mem_singleton.mp hb
      exact ⟨by decide, by decide, rfl⟩
  · rw [run_twoFrames]
    decide

end Cmoon.TcpFraming
