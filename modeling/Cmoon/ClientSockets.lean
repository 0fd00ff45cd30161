import Cmoon.CutSequences
import Cmoon.EventDaemon

/-! # Receiving replies (`libmevent.c`, `tcp.c` and `udp.c` of the client)

`tcp_get_rep` reads as much as has arrived and then completes the frame in front; what it has read
behind the frame is gone with the buffer. -/
namespace Cmoon.ClientSockets
open DecimalText ByteBuffers EventDaemon CutSequences

/-- What a `recv` comes upon: an error, as which a timeout counts too, or a piece of the stream. An
empty piece is the end of the connection. -/
inductive Arrival where
  | fails
  | data (chunk : Bytes)
  deriving DecidableEq

/-- The stream as it will arrive; when nothing more does, `recv` times out. -/
abbrev Socket := List Arrival

/-- `recv`: a piece longer than asked for stays there with its rest. -/
def recv : Socket → ℕ → Option Bytes × Socket
  | [], _ => (none, [])
  | .fails :: s, _ => (none, s)
  | .data chunk :: s, count =>
    if chunk.length ≤ count then (some chunk, s) else (some (chunk.take count), .data (chunk.drop count) :: s)

/-- `srecv`: whether it failed, and what it has put into the buffer. -/
def srecv (s : Socket) (count : ℕ) : Bool × Bytes × Socket :=
  if count = 0 then (false, [], s)
  else
    match recv s count with
    | (none, s) => (true, [], s)
    | (some got, s) =>
      if got = [] then (false, [], s)
      else
        let (failed, rest, s) := srecv s (count - got.length)
        (failed, got ++ rest, s)
termination_by count
decreasing_by
  rename_i hcount hgot
  exact Nat.sub_lt (Nat.pos_of_ne_zero hcount) (List.length_pos_iff.mpr hgot)

/-- `if (rv < n)` of `recv_msg`, with `t = srecv(fd, buf + rv, n - rv, 0)`; no number stands for one
below 1. -/
def complete (buf : Bytes) (rv n : ℕ) (s : Socket) : Option ℕ × Bytes × Socket :=
  if rv < n then
    let (failed, got, s) := srecv s (n - rv)
    (if failed ∨ got = [] then none else some (rv + got.length), overwrite buf rv got, s)
  else (some rv, buf, s)

/-- `recv_msg` into the receive buffer of `MAX_PACKET_LEN` bytes. -/
def recvMsg (buf : Bytes) (s : Socket) : Option ℕ × Bytes × Socket :=
  match recv s maxPacketLen with
  | (none, s) => (none, buf, s)
  | (some got, s) =>
    if got = [] then (none, buf, s)
    else
      match complete (overwrite buf 0 got) got.length 4 s with
      | (none, buf, s) => (none, buf, s)
      | (some rv, buf, s) =>
        let msgsize := word (buf.take 4)
        if msgsize > maxPacketLen then (none, buf, s) else complete buf rv msgsize s

def weight (s : Socket) : ℕ :=
  (s.map fun a => match a with
    | .fails => 1
    | .data chunk => 1 + chunk.length).sum

theorem weight_recv_le (s : Socket) (count : ℕ) : weight (recv s count).2 ≤ weight s := by
  cases s with
  | nil => exact le_refl _
  | cons a s =>
    cases a with
    | fails => simp [recv, weight]
    | data chunk =>
      rw [recv]
      split <;> simp [weight]

theorem weight_recv_lt {s s' : Socket} {count : ℕ} (hcount : 0 < count) {got : Bytes}
    (h : recv s count = (some got, s')) : weight s' < weight s := by
  cases s with
  | nil => cases h
  | cons a s =>
    cases a with
    | fails => cases h
    | data chunk =>
      rw [recv] at h
      split at h
      · obtain ⟨-, rfl⟩ := Prod.mk.inj h
        simp [weight]
      · obtain ⟨-, rfl⟩ := Prod.mk.inj h
        simp only [weight, List.map_cons, List.sum_cons, List.length_drop]
        omega

theorem weight_srecv_le (s : Socket) (count : ℕ) : weight (srecv s count).2.2 ≤ weight s := by
  induction count using Nat.strong_induction_on generalizing s with
  | _ count ih =>
    rw [srecv]
    split
    · exact le_refl _
    · next hcount =>
      have hle := weight_recv_le s count
      split
      · next heq =>
        rw [heq] at hle
        exact hle
      · next got s' heq =>
        rw [heq] at hle
        split
        · exact hle
        · next hgot =>
          have hpos := List.length_pos_iff.mpr hgot
          exact (ih (count - got.length) (by omega) s').trans hle

theorem weight_complete_le (buf : Bytes) (rv n : ℕ) (s : Socket) : weight (complete buf rv n s).2.2 ≤ weight s := by
  rw [complete]
  split
  · exact weight_srecv_le s (n - rv)
  · exact le_refl _

theorem weight_recvMsg_lt {buf buf' : Bytes} {s s' : Socket} {rv : ℕ} (h : recvMsg buf s = (some rv, buf', s')) :
    weight s' < weight s := by
  rw [recvMsg] at h
  split at h
  · cases h
  · next got s₁ hrecv =>
    have hlt := weight_recv_lt (by decide) hrecv
    split at h
    · cases h
    · have hword := weight_complete_le (overwrite buf 0 got) got.length 4 s₁
      split at h
      · cases h
      · next rv₁ buf₁ s₂ heq =>
        rw [heq] at hword
        dsimp only at h
        split at h
        · cases h
        · have hbody := weight_complete_le buf₁ rv₁ (word (buf₁.take 4)) s₂
          rw [h] at hbody
          exact Nat.lt_of_le_of_lt (Nat.le_trans hbody hword) hlt

/-- What `tcp_get_rep` and `udp_get_rep` return where they return -1. -/
def noReply : ℕ := 2 ^ 32 - 1

/-- `tcp_get_rep`: the code, the payload's size and the buffer, where the payload starts at byte 12. -/
def tcpGetRep (greqid : ℕ) (buf : Bytes) (s : Socket) : (ℕ × ℕ) × Bytes × Socket :=
  match hmsg : recvMsg buf s with
  | (none, buf, s) => ((noReply, 0), buf, s)
  | (some rv, buf, s) =>
    let id := word (slice buf 4 4)
    let reply := word (slice buf 8 4)
    if id < greqid then tcpGetRep greqid buf s
    else ((reply, (rv + 2 ^ 64 - 12) % 2 ^ 64), buf, s)
termination_by weight s
decreasing_by exact weight_recvMsg_lt hmsg

/-- `udp_get_rep` on the datagrams that will arrive, `none` being an error; the payload starts at
byte 8. -/
def udpGetRep (greqid : ℕ) (buf : Bytes) : List (Option Bytes) → (ℕ × ℕ) × Bytes × List (Option Bytes)
  | [] => ((noReply, 0), buf, [])
  | none :: s => ((noReply, 0), buf, s)
  | some datagram :: s =>
    let got := datagram.take maxPacketLen
    let buf := overwrite buf 0 got
    if got.length < 8 then ((noReply, 0), buf, s)
    else
      let id := word (slice buf 0 4)
      let reply := word (slice buf 4 4)
      if id < greqid then udpGetRep greqid buf s
      else ((reply, got.length - 8), buf, s)

def arriving (cs : List Bytes) (tail : Socket) : Socket := cs.map .data ++ tail

section Arriving
variable {cs : List Bytes} (tail : Socket)

theorem recv_arriving {c : Bytes} (hcs : Pieces (c :: cs)) (count : ℕ) :
    recv (arriving (c :: cs) tail) count =
      (some ((c :: cs).flatten.take (min c.length count)), arriving (after (min c.length count) (c :: cs)) tail) := by
  rw [List.flatten_cons, List.take_append_of_le_length (Nat.min_le_left _ _)]
  rcases Nat.lt_or_ge count c.length with hlt | hle
  · rw [Nat.min_eq_right hlt.le, after_of_lt hlt]
    simp [arriving, recv, hlt]
  · rw [Nat.min_eq_left hle, after_of_le (le_refl _), Nat.sub_self, after_zero hcs.tail, List.take_length]
    simp [arriving, recv, hle]

/-- As long as enough arrives `srecv` completes its read. -/
theorem srecv_arriving (hcs : Pieces cs) {count : ℕ} (hle : count ≤ cs.flatten.length) :
    srecv (arriving cs tail) count = (false, cs.flatten.take count, arriving (after count cs) tail) := by
  induction count using Nat.strong_induction_on generalizing cs with
  | _ count ih =>
    rw [srecv]
    rcases Nat.eq_zero_or_pos count with rfl | hpos
    · simp [after_zero hcs]
    · cases cs with
      | nil => exact absurd hle (Nat.not_le_of_lt hpos)
      | cons c cs =>
        have hc := hcs.head_pos
        obtain ⟨a, ha⟩ : ∃ a, a = min c.length count := ⟨_, rfl⟩
        have hlen : ((c :: cs).flatten.take a).length = a := by
          rw [List.length_take]
          omega
        have hgot : (c :: cs).flatten.take a ≠ [] := List.ne_nil_of_length_pos (by omega)
        have hrest := ih (count - a) (by omega) (hcs.after a) (by rw [flatten_after, List.length_drop]; omega)
        have hsum : a + (count - a) = count := by omega
        rw [if_neg (by omega), recv_arriving tail hcs count, ← ha]
        simp only [if_neg hgot, hlen, hrest]
        rw [after_after hcs, flatten_after, ← List.take_add, hsum]

/-- The same for a message whose first `rv` bytes are in the buffer. -/
theorem complete_arriving (hcs : Pieces cs) {rv n : ℕ} (hrv : rv ≤ cs.flatten.length) (hn : n ≤ cs.flatten.length)
    (buf : Bytes) :
    complete (overwrite buf 0 (cs.flatten.take rv)) rv n (arriving (after rv cs) tail) =
      (some (max rv n), overwrite buf 0 (cs.flatten.take (max rv n)), arriving (after (max rv n) cs) tail) := by
  rw [complete]
  rcases Nat.lt_or_ge rv n with hlt | hge
  · have hsum : rv + (n - rv) = n := by omega
    have hgot : ((cs.flatten.drop rv).take (n - rv)).length = n - rv := by
      rw [List.length_take, List.length_drop]
      omega
    have hne : (cs.flatten.drop rv).take (n - rv) ≠ [] := List.ne_nil_of_length_pos (by omega)
    have hfirst : (cs.flatten.take rv).length = rv := by
      rw [List.length_take]
      omega
    have hover := overwrite_overwrite (Nat.zero_le buf.length) (cs.flatten.take rv)
      (b := (cs.flatten.drop rv).take (n - rv)) (c := []) (Nat.zero_le _)
    rw [List.append_nil, Nat.zero_add, hfirst, ← List.take_add, hsum] at hover
    rw [if_pos hlt, srecv_arriving tail (hcs.after rv) (by rw [flatten_after, List.length_drop]; omega), flatten_after,
      after_after hcs, hsum, Nat.max_eq_right hlt.le]
    simp only [Bool.false_eq_true, false_or, if_neg hne, hgot, hsum, hover]
  · rw [if_neg (by omega), Nat.max_eq_left hge]

/-- `recv_msg` once four bytes have come: the size they give decides how it goes on. -/
theorem recvMsg_head {c : Bytes} (hcs : Pieces (c :: cs)) (buf : Bytes) (hlen : 4 ≤ (c :: cs).flatten.length) {rv : ℕ}
    (hrv : rv = max (min c.length maxPacketLen) 4) :
    recvMsg buf (arriving (c :: cs) tail) =
      if word ((c :: cs).flatten.take 4) > maxPacketLen then
        (none, overwrite buf 0 ((c :: cs).flatten.take rv), arriving (after rv (c :: cs)) tail)
      else complete (overwrite buf 0 ((c :: cs).flatten.take rv)) rv (word ((c :: cs).flatten.take 4))
        (arriving (after rv (c :: cs)) tail) := by
  have hc := hcs.head_pos
  obtain ⟨a, ha⟩ : ∃ a, a = min c.length maxPacketLen := ⟨_, rfl⟩
  have hpos : 0 < a := by
    rw [ha, maxPacketLen]
    omega
  have hle : a ≤ (c :: cs).flatten.length := by
    rw [ha, List.flatten_cons, List.length_append]
    omega
  have hgot : ((c :: cs).flatten.take a).length = a := by
    rw [List.length_take]
    omega
  have hne : (c :: cs).flatten.take a ≠ [] := List.ne_nil_of_length_pos (by omega)
  have hword : (overwrite buf 0 ((c :: cs).flatten.take rv)).take 4 = (c :: cs).flatten.take 4 := by
    rw [overwrite_zero, List.take_append_of_le_length, List.take_take]
    · congr 1
      omega
    · rw [List.length_take]
      omega
  rw [← ha] at hrv
  rw [recvMsg, recv_arriving tail hcs, ← ha]
  simp only [if_neg hne, hgot, complete_arriving tail hcs hle hlen, ← hrv, hword]

/-- `recv_msg` reads the frame in front, and what of the next ones came with its first piece. -/
theorem recvMsg_arriving {c : Bytes} (hcs : Pieces (c :: cs)) (buf : Bytes) {m : ℕ} (hm : 4 ≤ m ∧ m ≤ maxPacketLen)
    (hlen : m ≤ (c :: cs).flatten.length) (hsize : word ((c :: cs).flatten.take 4) = m) :
    recvMsg buf (arriving (c :: cs) tail) =
      (some (max (min c.length maxPacketLen) m),
        overwrite buf 0 ((c :: cs).flatten.take (max (min c.length maxPacketLen) m)),
        arriving (after (max (min c.length maxPacketLen) m) (c :: cs)) tail) := by
  have hc : c.length ≤ (c :: cs).flatten.length := by
    rw [List.flatten_cons, List.length_append]
    omega
  have hmax : max (max (min c.length maxPacketLen) 4) m = max (min c.length maxPacketLen) m := by omega
  rw [recvMsg_head tail hcs buf (by omega) rfl, hsize, if_neg (by omega), complete_arriving tail hcs (by omega) hlen, hmax]

def Stuck : Socket → Prop
  | [] => True
  | .fails :: _ => True
  | _ => False

variable {tail} (htail : Stuck tail)
include htail

theorem recv_stuck (count : ℕ) : (recv tail count).1 = none := by
  obtain _ | ⟨_ | _, _⟩ := tail
  · rfl
  · rfl
  · exact htail.elim

theorem srecv_short (hcs : Pieces cs) {count : ℕ} (hlt : cs.flatten.length < count) :
    (srecv (arriving cs tail) count).1 = true := by
  induction cs generalizing count with
  | nil =>
    have hrecv := recv_stuck htail count
    rw [srecv, if_neg (by omega)]
    split
    · rfl
    · next got s heq =>
      rw [arriving, List.map_nil, List.nil_append] at heq
      rw [heq] at hrecv
      cases hrecv
  | cons c cs ih =>
    rw [List.flatten_cons, List.length_append] at hlt
    have hrecv : recv (arriving (c :: cs) tail) count = (some c, arriving cs tail) := by
      simp [arriving, recv, (by omega : c.length ≤ count)]
    rw [srecv, if_neg (by omega), hrecv]
    simp only [if_neg (hcs c List.mem_cons_self)]
    exact ih hcs.tail (by omega)

theorem complete_short (hcs : Pieces cs) {rv n : ℕ} (hrv : rv ≤ cs.flatten.length) (hn : cs.flatten.length < n) (buf : Bytes) :
    (complete buf rv n (arriving (after rv cs) tail)).1 = none := by
  have hlt : (after rv cs).flatten.length < n - rv := by
    rw [flatten_after, List.length_drop]
    omega
  have hfail := srecv_short htail (hcs.after rv) hlt
  rw [complete, if_pos (by omega)]
  simp only [hfail, true_or, if_true]

theorem recvMsg_short (hcs : Pieces cs) (buf : Bytes) {frame : Bytes} (hflat : cs.flatten <+: frame)
    (hlt : cs.flatten.length < frame.length) (hsize : word (frame.take 4) = frame.length) :
    (recvMsg buf (arriving cs tail)).1 = none := by
  obtain _ | ⟨c, cs⟩ := cs
  · have hrecv := recv_stuck htail maxPacketLen
    rw [recvMsg, arriving, List.map_nil, List.nil_append]
    split
    · rfl
    · next heq =>
      rw [heq] at hrecv
      cases hrecv
  rcases Nat.lt_or_ge (c :: cs).flatten.length 4 with hfew | hhead
  · have hc := hcs.head_pos
    have hle : c.length ≤ (c :: cs).flatten.length := by
      rw [List.flatten_cons, List.length_append]
      omega
    have hmin : min c.length maxPacketLen = c.length := by
      simp only [maxPacketLen]
      omega
    have hnone := complete_short htail hcs hle hfew (overwrite buf 0 c)
    rw [recvMsg, recv_arriving tail hcs, hmin, List.flatten_cons, List.take_left]
    simp only [if_neg (hcs c List.mem_cons_self)]
    split
    · rfl
    · next heq =>
      rw [heq] at hnone
      cases hnone
  · have hword : word ((c :: cs).flatten.take 4) = frame.length := by
      rw [← hsize, List.prefix_iff_eq_take.mp hflat, List.take_take, Nat.min_eq_left hhead]
    rw [recvMsg_head tail hcs buf hhead rfl, hword]
    split
    · rfl
    · refine complete_short htail hcs ?_ hlt _
      rw [List.flatten_cons, List.length_append] at hhead ⊢
      omega

end Arriving

/-- A reply as the server frames it. -/
structure RepFrame where
  id : ℕ
  reply : ℕ
  payload : Bytes
  id_lt : id < 2 ^ 32
  reply_lt : reply < 2 ^ 32
  fits : 12 + payload.length ≤ maxPacketLen

def RepFrame.bytes (f : RepFrame) : Bytes := be 4 (12 + f.payload.length) ++ be 4 f.id ++ be 4 f.reply ++ f.payload

@[simp] theorem length_bytes (f : RepFrame) : f.bytes.length = 12 + f.payload.length := by
  simp only [RepFrame.bytes, List.length_append, length_be]

section Fields
variable (f : RepFrame) (rest : Bytes)

private theorem bytes_append : f.bytes ++ rest =
    be 4 (12 + f.payload.length) ++ (be 4 f.id ++ (be 4 f.reply ++ (f.payload ++ rest))) := by
  simp only [RepFrame.bytes, List.append_assoc]

theorem size_bytes : word ((f.bytes ++ rest).take 4) = f.bytes.length := by
  have hfits := f.fits
  simp only [maxPacketLen] at hfits
  rw [bytes_append, List.take_left' (length_be 4 _), word_be_of_lt (by omega), length_bytes]

theorem id_bytes : word (slice (f.bytes ++ rest) 4 4) = f.id := by
  rw [slice_mid (bytes_append f rest) (length_be 4 _).symm (length_be 4 _).symm, word_be_of_lt f.id_lt]

theorem reply_bytes : word (slice (f.bytes ++ rest) 8 4) = f.reply := by
  rw [slice_mid (a := be 4 (12 + f.payload.length) ++ be 4 f.id) ((bytes_append f rest).trans (List.append_assoc ..).symm)
    (by simp) (length_be 4 _).symm, word_be_of_lt f.reply_lt]

theorem payload_bytes (len : ℕ) : slice (f.bytes ++ rest) 12 len = (f.payload ++ rest).take len := by
  have hhead : (be 4 (12 + f.payload.length) ++ be 4 f.id ++ be 4 f.reply).length = 12 := by simp
  rw [slice, RepFrame.bytes, List.append_assoc, List.drop_left' hhead]

end Fields

/-- How much the first `recv` of a message reads when this is what arrives. -/
def firstRead (cs : List Bytes) : ℕ := min (cs.headD []).length maxPacketLen

section Frames
variable {cs : List Bytes} {greqid : ℕ} {f : RepFrame} {rest : Bytes} (tail : Socket)

/-- `recv_msg` with a frame in front: its fields, and all that was read behind them. -/
theorem recvMsg_frame (hcs : Pieces cs) (hflat : cs.flatten = f.bytes ++ rest) (buf : Bytes) {n : ℕ}
    (hn : n = max (firstRead cs) f.bytes.length) :
    ∃ buf', recvMsg buf (arriving cs tail) = (some n, buf', arriving (after n cs) tail) ∧
      word (slice buf' 4 4) = f.id ∧ word (slice buf' 8 4) = f.reply ∧
      slice buf' 12 (n - 12) = (f.payload ++ rest).take (n - 12) ∧ (n + 2 ^ 64 - 12) % 2 ^ 64 = n - 12 := by
  obtain _ | ⟨c, cs⟩ := cs
  · have hlen := congrArg List.length hflat
    simp at hlen
    omega
  have hfits := f.fits
  have hfirst : firstRead (c :: cs) = min c.length maxPacketLen := rfl
  have hlen : (c :: cs).flatten.length = 12 + f.payload.length + rest.length := by
    rw [hflat, List.length_append, length_bytes]
  have hc : c.length ≤ (c :: cs).flatten.length := by
    rw [List.flatten_cons, List.length_append]
    omega
  have hbounds : 12 ≤ n ∧ n ≤ (c :: cs).flatten.length ∧ n ≤ maxPacketLen := by
    rw [length_bytes] at hn
    omega
  have hsize : word ((c :: cs).flatten.take 4) = f.bytes.length := by rw [hflat, size_bytes]
  have hgot : ((c :: cs).flatten.take n).length = n := by
    rw [List.length_take]
    omega
  have hread : ∀ {off len : ℕ}, off + len ≤ n →
      slice (overwrite buf 0 ((c :: cs).flatten.take n)) off len = slice (f.bytes ++ rest) off len := fun h => by
    rw [slice_overwrite_zero (by omega), slice_take h, hflat]
  have hrecv := recvMsg_arriving tail hcs buf (m := f.bytes.length) (by rw [length_bytes]; omega)
    (by rw [length_bytes]; omega) hsize
  rw [hfirst] at hn
  rw [← hn] at hrecv
  refine ⟨overwrite buf 0 ((c :: cs).flatten.take n), hrecv, ?_, ?_, ?_, ?_⟩
  · rw [hread (by omega), id_bytes]
  · rw [hread (by omega), reply_bytes]
  · rw [hread (by omega), payload_bytes]
  · simp only [maxPacketLen] at hbounds
    omega

theorem tcpGetRep_of_none {buf buf' : Bytes} {s s' : Socket} (h : recvMsg buf s = (none, buf', s')) :
    tcpGetRep greqid buf s = ((noReply, 0), buf', s') := by
  rw [tcpGetRep]
  split
  · next hmsg =>
    rw [h] at hmsg
    cases hmsg
    rfl
  · next hmsg =>
    rw [h] at hmsg
    cases hmsg

theorem tcpGetRep_of_some {buf buf' : Bytes} {s s' : Socket} {rv : ℕ} (h : recvMsg buf s = (some rv, buf', s')) :
    tcpGetRep greqid buf s =
      if word (slice buf' 4 4) < greqid then tcpGetRep greqid buf' s'
      else ((word (slice buf' 8 4), (rv + 2 ^ 64 - 12) % 2 ^ 64), buf', s') := by
  rw [tcpGetRep]
  split
  · next hmsg =>
    rw [h] at hmsg
    cases hmsg
  · next hmsg =>
    rw [h] at hmsg
    cases hmsg
    rfl

/-- `tcp_get_rep` with a frame in front: its code, and all that was read as payload. -/
theorem tcpGetRep_arriving (hcs : Pieces cs) (hflat : cs.flatten = f.bytes ++ rest) (hid : greqid ≤ f.id)
    (buf : Bytes) {n : ℕ} (hn : n = max (firstRead cs) f.bytes.length) :
    ∃ buf', tcpGetRep greqid buf (arriving cs tail) = ((f.reply, n - 12), buf', arriving (after n cs) tail) ∧
      slice buf' 12 (n - 12) = (f.payload ++ rest).take (n - 12) := by
  obtain ⟨buf', hrecv, hidw, hreply, hslice, hpsize⟩ := recvMsg_frame tail hcs hflat buf hn
  refine ⟨buf', ?_, hslice⟩
  rw [tcpGetRep_of_some hrecv, hidw, hreply, hpsize, if_neg (by omega)]

/-- A frame with a smaller id is passed over, with all that was read as its payload. -/
theorem tcpGetRep_stale (hcs : Pieces cs) (hflat : cs.flatten = f.bytes ++ rest) (hid : f.id < greqid) (buf : Bytes)
    {n : ℕ} (hn : n = max (firstRead cs) f.bytes.length) :
    ∃ buf', tcpGetRep greqid buf (arriving cs tail) = tcpGetRep greqid buf' (arriving (after n cs) tail) := by
  obtain ⟨buf', hrecv, hidw, -⟩ := recvMsg_frame tail hcs hflat buf hn
  refine ⟨buf', ?_⟩
  rw [tcpGetRep_of_some hrecv, hidw, if_pos hid]

/-- Without a following frame in the first read, the frame alone is taken off the stream. -/
theorem tcpGetRep_frame (hcs : Pieces cs) (hflat : cs.flatten = f.bytes ++ rest) (hid : greqid ≤ f.id)
    (hfirst : firstRead cs ≤ f.bytes.length) (buf : Bytes) :
    ∃ buf', tcpGetRep greqid buf (arriving cs tail) =
        ((f.reply, f.payload.length), buf', arriving (after f.bytes.length cs) tail) ∧
      slice buf' 12 f.payload.length = f.payload := by
  have hsize : f.bytes.length - 12 = f.payload.length := by
    rw [length_bytes]
    omega
  obtain ⟨buf', hget, hslice⟩ := tcpGetRep_arriving tail hcs hflat hid buf (Nat.max_eq_right hfirst).symm
  rw [hsize] at hget hslice
  exact ⟨buf', hget, hslice.trans (List.take_left' rfl)⟩

/-- As many calls of `tcp_get_rep` as given: codes and payloads, and what is left of the stream. -/
def tcpGetReps (greqid : ℕ) : ℕ → Bytes → Socket → List (ℕ × Bytes) × Socket
  | 0, _, s => ([], s)
  | k + 1, buf, s =>
    let ((reply, psize), buf, s) := tcpGetRep greqid buf s
    let (reps, s) := tcpGetReps greqid k buf s
    ((reply, slice buf 12 psize) :: reps, s)

/-- Where a frame but the last begins, no more arrives in one piece than the frame. -/
def PiecesFit : List RepFrame → List Bytes → Prop
  | [], _ => True
  | f :: fs, cs => (fs ≠ [] → firstRead cs ≤ f.bytes.length) ∧ PiecesFit fs (after f.bytes.length cs)

theorem firstRead_le (cs : List Bytes) : firstRead cs ≤ cs.flatten.length := by
  cases cs with
  | nil => exact Nat.zero_le _
  | cons c cs =>
    rw [firstRead, List.headD_cons, List.flatten_cons, List.length_append]
    omega

/-- What was read beyond a frame is returned as its payload. -/
theorem take_payload_ne (hflat : cs.flatten = f.bytes ++ rest) (hover : f.bytes.length < firstRead cs) :
    (f.payload ++ rest).take (firstRead cs - 12) ≠ f.payload := by
  intro h
  have hlen := congrArg List.length h
  have hle := firstRead_le cs
  rw [hflat, List.length_append, length_bytes] at hle
  rw [length_bytes] at hover
  rw [List.length_take, List.length_append] at hlen
  omega

/-- However the frames are cut into pieces, one call gives one frame and all bytes of the next ones are
still there, exactly when no first read of a frame runs into the next one. -/
theorem tcpGetReps_frames_iff {frames : List RepFrame} (hcs : Pieces cs)
    (hflat : cs.flatten = (frames.map RepFrame.bytes).flatten) (hid : ∀ f ∈ frames, greqid ≤ f.id) (buf : Bytes) :
    tcpGetReps greqid frames.length buf (arriving cs []) = (frames.map fun f => (f.reply, f.payload), []) ↔
      PiecesFit frames cs := by
  induction frames generalizing cs buf with
  | nil =>
    have hnil : cs = [] := hcs.eq_nil hflat
    simp [tcpGetReps, PiecesFit, hnil, arriving]
  | cons f fs ih =>
    have hflat' : cs.flatten = f.bytes ++ (fs.map RepFrame.bytes).flatten := hflat
    have hidf := hid f List.mem_cons_self
    have hrest : (after f.bytes.length cs).flatten = (fs.map RepFrame.bytes).flatten := by
      rw [flatten_after, hflat', List.drop_left]
    have hnext := ih (hcs.after f.bytes.length) hrest fun g hg => hid g (List.mem_cons_of_mem f hg)
    by_cases hfirst : firstRead cs ≤ f.bytes.length
    · obtain ⟨buf', hget, hslice⟩ := tcpGetRep_frame [] hcs hflat' hidf hfirst buf
      rw [PiecesFit, ← hnext buf', and_iff_right fun _ => hfirst]
      simp only [tcpGetReps, List.length_cons, hget, hslice, List.map_cons, Prod.ext_iff, List.cons.injEq, true_and]
    · obtain ⟨buf', hget, hslice⟩ := tcpGetRep_arriving [] hcs hflat' hidf buf (Nat.max_eq_left (Nat.le_of_not_le hfirst)).symm
      have hne : fs ≠ [] := by
        rintro rfl
        have hle := firstRead_le cs
        simp only [hflat', List.map_nil, List.flatten_nil, List.append_nil] at hle
        exact hfirst hle
      refine iff_of_false (fun h => ?_) fun h => hfirst (h.1 hne)
      simp only [tcpGetReps, List.length_cons, hget, hslice, List.map_cons, Prod.ext_iff, List.cons.injEq] at h
      exact take_payload_ne hflat' (Nat.lt_of_not_le hfirst) h.1.1.2

end Frames

/-- The reply to a first request: its code alone. -/
def oneFrame : RepFrame := ⟨1, 1000, [], by decide, by decide, by decide⟩

/-- Two such frames which arrive together: the first call takes the second frame for its payload. -/
theorem tcpGetReps_together : ¬∀ (frames : List RepFrame) (cs : List Bytes) (greqid : ℕ) (buf : Bytes), Pieces cs →
    cs.flatten = (frames.map RepFrame.bytes).flatten → (∀ f ∈ frames, greqid ≤ f.id) →
      tcpGetReps greqid frames.length buf (arriving cs []) = (frames.map fun f => (f.reply, f.payload), []) := by
  intro h
  let both : Bytes := oneFrame.bytes ++ oneFrame.bytes
  have hcs : Pieces [both] := fun c hc => List.mem_singleton.mp hc ▸ by decide
  have hflat : [both].flatten = oneFrame.bytes ++ oneFrame.bytes := List.append_nil _
  have hall := h [oneFrame, oneFrame] [both] 0 [] hcs rfl fun g _ => Nat.zero_le _
  obtain ⟨buf', hget, hslice⟩ := tcpGetRep_arriving [] hcs hflat (Nat.zero_le _) [] rfl
  simp only [tcpGetReps, List.length_cons, hget, hslice, List.map_cons, Prod.ext_iff, List.cons.injEq] at hall
  have hlen := congrArg List.length hall.1.1.2
  revert hlen
  decide

/-- The same two frames, cut where the second one begins. -/
theorem tcpGetReps_apart :
    tcpGetReps 1 2 [] (arriving [oneFrame.bytes, oneFrame.bytes] []) = ([(1000, []), (1000, [])], []) := by
  have hcs : Pieces [oneFrame.bytes, oneFrame.bytes] := fun c hc => by
    have hc : c = oneFrame.bytes := by simpa using hc
    rw [hc]
    decide
  have hid : ∀ f ∈ [oneFrame, oneFrame], 1 ≤ f.id := by simp [oneFrame]
  have hfit : PiecesFit [oneFrame, oneFrame] [oneFrame.bytes, oneFrame.bytes] :=
    ⟨fun _ => by decide, fun h => absurd rfl h, trivial⟩
  exact (tcpGetReps_frames_iff hcs rfl hid []).mpr hfit

end Cmoon.ClientSockets
