import Cmoon.ReplyStreams
import Mathlib.Algebra.BigOperators.Intervals

/-! # When a reply ends (`rep_send` in `tcp.c`, `udp.c` and `tipc.c`)

A failed send is answered by another reply, which is sent the same way. The calls return when the
innermost one does, which may be never. -/
namespace Cmoon.ReplyEndings
open DecimalText ByteBuffers EventDaemon ReplyPackets ReplyStreams

/-- The reply of `tcp_reply_mini` or `tcp_reply_long`; a passive server sends nothing. -/
def tcpReply (passive : Bool) (id : Bytes) (r : Replied) : Conn :=
  if passive then next [] [] else start [(id, r)]

/-- The connection after `n` calls of `send`, the call `i` with the outcome `os i`. -/
def sends (os : ℕ → SendOutcome) (s : Conn) : ℕ → Conn
  | 0 => s
  | n + 1 => sendStep (sends os s n) (os n)

/-- The reply returns after finitely many calls of `send`. -/
def TcpReturns (os : ℕ → SendOutcome) (s : Conn) : Prop := ∃ n, (sends os s n).current = none

def accepted : SendOutcome → ℕ
  | .accepted n => n
  | _ => 0

/-- From the call `m` on no `send` fails until `len` bytes are taken or one of them returns 0. -/
def Through (os : ℕ → SendOutcome) (m len : ℕ) : Prop :=
  ∃ n, (∀ i, m ≤ i → i < n → os i ≠ .error) ∧
    ((∃ i, m ≤ i ∧ i < n ∧ os i = .accepted 0) ∨ len ≤ ∑ i ∈ Finset.Ico m n, accepted (os i))

/-- The reply itself gets through, or the error reply after one of the failures does. -/
def SomeThrough (os : ℕ → SendOutcome) (id : Bytes) (r : Replied) : Prop :=
  Through os 0 (r.packet .tcp id).length ∨
    ∃ m, os m = .error ∧ Through os (m + 1) (Replied.packet .tcp id (.mini repErrSend)).length

/-- The only reply of a connection, under way since the call `m`: the bytes it has taken. -/
structure UnderWay (os : ℕ → SendOutcome) (m n : ℕ) (s : Conn) (a : Attempt) : Prop where
  le : m ≤ n
  current : s.current = some a
  pending : s.pending = []
  unbroken : ∀ i, m ≤ i → i < n → os i ≠ .error
  positive : ∀ i, m ≤ i → i < n → os i ≠ .accepted 0
  written : a.written = ∑ i ∈ Finset.Ico m n, accepted (os i)
  incomplete : a.written < a.frame.length

section Steps
variable {os : ℕ → SendOutcome} {m n : ℕ} {s : Conn} {a : Attempt}

theorem UnderWay.fresh (hc : s.current = some a) (hp : s.pending = []) (hw : a.written = 0) :
    UnderWay os n n s a :=
  ⟨le_refl n, hc, hp, fun i hi hlt => by omega, fun i hi hlt => by omega, by simp [hw], hw ▸ frame_pos a⟩

theorem sendStep_error (hc : s.current = some a) (hp : s.pending = []) :
    sendStep s .error = ⟨s.ended ++ [a], some ⟨a.id, .mini repErrSend, 0⟩, []⟩ := by
  simp only [sendStep, hc, hp]

theorem forall_lt_succ {P : ℕ → Prop} (h : ∀ i, m ≤ i → i < n → P i) (hn : P n) : ∀ i, m ≤ i → i < n + 1 → P i := by
  intro i hi hlt
  rcases Nat.lt_succ_iff_lt_or_eq.mp hlt with hlt | rfl
  · exact h i hi hlt
  · exact hn

/-- A `send` that does not fail ends the reply, which is through, or takes it further. -/
theorem UnderWay.step (h : UnderWay os m n s a) (ho : os n ≠ .error) :
    ((sendStep s (os n)).current = none ∧ Through os m a.frame.length) ∨
      ∃ b : Attempt, b.frame = a.frame ∧ b.id = a.id ∧ UnderWay os m (n + 1) (sendStep s (os n)) b := by
  obtain ⟨hle, hc, hp, hun, hpos, hw, hinc⟩ := h
  have hun' : ∀ i, m ≤ i → i < n + 1 → os i ≠ .error := forall_lt_succ hun ho
  have hsum : ∑ i ∈ Finset.Ico m (n + 1), accepted (os i) = a.written + accepted (os n) := by
    rw [Finset.sum_Ico_succ_top hle, hw]
  obtain ⟨ended, current, pending⟩ := s
  obtain rfl : current = some a := hc
  obtain rfl : pending = [] := hp
  cases hos : os n with
  | error => exact absurd hos ho
  | again =>
    have hnone : os n ≠ .accepted 0 := by
      rw [hos]
      exact nofun
    exact .inr ⟨a, rfl, rfl, by omega, rfl, rfl, hun', forall_lt_succ hpos hnone, by rw [hsum, hos]; rfl, hinc⟩
  | accepted k =>
    have hlen : Attempt.frame { a with written := a.written + min k (a.frame.length - a.written) } = a.frame := rfl
    rw [hos] at hsum
    change _ = a.written + k at hsum
    simp only [sendStep, hlen]
    split
    · next hend =>
      refine .inl ⟨rfl, n + 1, hun', ?_⟩
      rcases hend with hzero | hall
      · exact .inl ⟨n, hle, Nat.lt_succ_self n, by rw [hos]; congr; omega⟩
      · exact .inr (by omega)
    · next hmore =>
      rw [not_or] at hmore
      refine .inr ⟨_, hlen, rfl, by omega, rfl, rfl, hun', forall_lt_succ hpos ?_, ?_, ?_⟩
      · rw [hos]
        rintro ⟨⟩
        omega
      · change a.written + min k (a.frame.length - a.written) = _
        omega
      · rw [hlen]
        change a.written + min k (a.frame.length - a.written) < _
        omega

end Steps

section Runs
variable {os : ℕ → SendOutcome} {id : Bytes} {r : Replied}

/-- All attempts of one reply are for one request, and nothing else waits to be sent. -/
theorem sends_alone (os : ℕ → SendOutcome) (id : Bytes) (r : Replied) (n : ℕ) :
    (sends os (start [(id, r)]) n).pending = [] ∧ ∀ a ∈ (sends os (start [(id, r)]) n).current, a.id = id := by
  induction n with
  | zero => exact ⟨rfl, fun a ha => by cases ha; rfl⟩
  | succ n ih =>
    rw [sends]
    generalize sends os (start [(id, r)]) n = s at ih ⊢
    obtain ⟨ended, current, pending⟩ := s
    obtain ⟨rfl, hid⟩ : pending = [] ∧ ∀ a ∈ current, a.id = id := ih
    cases current with
    | none => exact ⟨rfl, hid⟩
    | some a =>
      have ha : a.id = id := hid a rfl
      cases os n with
      | again => exact ⟨rfl, hid⟩
      | error => exact ⟨rfl, fun b hb => by cases hb; exact ha⟩
      | accepted k =>
        simp only [sendStep]
        split
        · exact ⟨rfl, fun b hb => by cases hb⟩
        · exact ⟨rfl, fun b hb => by cases hb; exact ha⟩

/-- A reply under way started with the first call, or after a failure. -/
def Since (os : ℕ → SendOutcome) (id : Bytes) (r : Replied) (m : ℕ) (a : Attempt) : Prop :=
  m = 0 ∧ a.frame.length = (r.packet .tcp id).length ∨
    ∃ k, m = k + 1 ∧ os k = .error ∧ a.frame.length = (Replied.packet .tcp id (.mini repErrSend)).length

theorem someThrough_of_since {m : ℕ} {a : Attempt} (hs : Since os id r m a) (ht : Through os m a.frame.length) :
    SomeThrough os id r := by
  rcases hs with ⟨rfl, hlen⟩ | ⟨k, rfl, herr, hlen⟩
  · exact .inl (hlen ▸ ht)
  · exact .inr ⟨k, herr, hlen ▸ ht⟩

theorem underWay_run (os : ℕ → SendOutcome) (id : Bytes) (r : Replied) (n : ℕ) :
    SomeThrough os id r ∨ ∃ m a, Since os id r m a ∧ UnderWay os m n (sends os (start [(id, r)]) n) a := by
  induction n with
  | zero => exact .inr ⟨0, ⟨id, r, 0⟩, .inl ⟨rfl, rfl⟩, UnderWay.fresh rfl rfl rfl⟩
  | succ n ih =>
    rcases ih with ht | ⟨m, a, hs, hu⟩
    · exact .inl ht
    · obtain ⟨hpend, hid⟩ := sends_alone os id r n
      rw [sends]
      by_cases herr : os n = .error
      · -- the error reply starts after this call
        rw [herr, sendStep_error hu.current hpend, hid a hu.current]
        exact .inr ⟨n + 1, _, .inr ⟨n, rfl, herr, rfl⟩, UnderWay.fresh rfl rfl rfl⟩
      · rcases hu.step herr with ⟨-, ht⟩ | ⟨b, hframe, -, hb⟩
        · exact .inl (someThrough_of_since hs ht)
        · refine .inr ⟨m, b, ?_, hb⟩
          rw [Since, hframe]
          exact hs

theorem underWay_of_never {s : Conn} (hnever : ∀ n, (sends os s n).current ≠ none) {m n : ℕ} {a : Attempt}
    (hm : UnderWay os m m (sends os s m) a) (hn : m ≤ n) (hun : ∀ i, m ≤ i → i < n → os i ≠ .error) :
    ∃ b : Attempt, b.frame = a.frame ∧ UnderWay os m n (sends os s n) b := by
  induction n, hn using Nat.le_induction with
  | base => exact ⟨a, rfl, hm⟩
  | succ n hn ih =>
    obtain ⟨b, hframe, hb⟩ := ih fun i hi hlt => hun i hi (by omega)
    rcases hb.step (hun n hn (Nat.lt_succ_self n)) with ⟨hnone, -⟩ | ⟨c, hframe', -, hc⟩
    · exact absurd hnone (hnever (n + 1))
    · exact ⟨c, hframe'.trans hframe, hc⟩

theorem not_through_of_never {s : Conn} (hnever : ∀ n, (sends os s n).current ≠ none) {m : ℕ} {a : Attempt}
    (hm : UnderWay os m m (sends os s m) a) : ¬ Through os m a.frame.length := by
  rintro ⟨n, hun, hend⟩
  by_cases hn : m ≤ n
  · obtain ⟨b, hframe, hb⟩ := underWay_of_never hnever hm hn hun
    rcases hend with ⟨i, hi, hlt, hzero⟩ | hsum
    · exact hb.positive i hi hlt hzero
    · have hinc := hb.incomplete
      rw [hb.written, hframe] at hinc
      omega
  · have hpos := frame_pos a
    rcases hend with ⟨i, hi, hlt, -⟩ | hsum
    · omega
    · rw [Finset.Ico_eq_empty (by omega), Finset.sum_empty] at hsum
      omega

theorem not_through_of_errors {m len : ℕ} (hlen : 0 < len) : ¬ Through (fun _ => .error) m len := by
  rintro ⟨n, hun, hend⟩
  have hle : n ≤ m := not_lt.mp fun hlt => hun m (le_refl m) hlt rfl
  rcases hend with ⟨i, hi, hlt, -⟩ | hsum
  · omega
  · rw [Finset.Ico_eq_empty (by omega), Finset.sum_empty] at hsum
    omega

/-- A reply over TCP returns exactly when some frame of it gets through. -/
theorem tcpReturns_iff : TcpReturns os (start [(id, r)]) ↔ SomeThrough os id r := by
  constructor
  · rintro ⟨n, hn⟩
    rcases underWay_run os id r n with ht | ⟨m, a, -, hu⟩
    · exact ht
    · rw [hu.current] at hn
      cases hn
  · intro h
    by_contra hnot
    have hnever : ∀ n, (sends os (start [(id, r)]) n).current ≠ none := not_exists.mp hnot
    rcases h with ht | ⟨k, herr, ht⟩
    · exact not_through_of_never hnever (a := ⟨id, r, 0⟩) (UnderWay.fresh rfl rfl rfl) ht
    · obtain ⟨a, ha⟩ := Option.ne_none_iff_exists'.mp (hnever k)
      obtain ⟨hpend, hid⟩ := sends_alone os id r k
      have hfresh : UnderWay os (k + 1) (k + 1) (sends os (start [(id, r)]) (k + 1)) ⟨id, .mini repErrSend, 0⟩ := by
        rw [sends, herr, sendStep_error ha hpend, hid a ha]
        exact UnderWay.fresh rfl rfl rfl
      exact not_through_of_never hnever hfresh ht

end Runs

/-- One `sendto` of `rep_send`, whose packet is kept until all calls have returned: after any failure an
error reply is sent. -/
def sendtoStep (type : ReqType) (id : Bytes) (packet : Option Bytes) (failed : Bool) : Option Bytes :=
  match packet with
  | none => none
  | some _ => if failed then some (replyMini type id repErrSend) else none

/-- The packet after `n` calls of `sendto`, of which the call `i` fails when `failed i` holds. -/
def sendtos (type : ReqType) (id : Bytes) (failed : ℕ → Bool) (packet : Option Bytes) : ℕ → Option Bytes
  | 0 => packet
  | n + 1 => sendtoStep type id (sendtos type id failed packet n) (failed n)

/-- The reply of `udp_reply_mini` or `udp_reply_long`, and of their like in `tipc.c`. -/
def datagramReply (passive : Bool) (type : ReqType) (id : Bytes) (r : Replied) : Option Bytes :=
  if passive then none else some (r.packet type id)

/-- The reply returns after finitely many calls of `sendto`. -/
def DatagramReturns (type : ReqType) (id : Bytes) (failed : ℕ → Bool) (packet : Option Bytes) : Prop :=
  ∃ n, sendtos type id failed packet n = none

theorem datagramReturns_iff {type : ReqType} {id packet : Bytes} {failed : ℕ → Bool} :
    DatagramReturns type id failed (some packet) ↔ ∃ n, failed n = false := by
  constructor
  · rintro ⟨n, hn⟩
    by_contra hall
    have hfail : ∀ n, failed n = true := fun n => Bool.not_eq_false _ ▸ not_exists.mp hall n
    have hsome : ∀ n, (sendtos type id failed (some packet) n).isSome := by
      intro n
      induction n with
      | zero => rfl
      | succ n ih =>
        obtain ⟨p, hp⟩ := Option.isSome_iff_exists.mp ih
        rw [sendtos, hp, sendtoStep, hfail n]
        rfl
    have hcontra := hsome n
    rw [hn] at hcontra
    cases hcontra
  · rintro ⟨n, hn⟩
    refine ⟨n + 1, ?_⟩
    rw [sendtos, hn]
    cases sendtos type id failed (some packet) n <;> rfl

/-- Which replies end: over TCP those of which some frame gets through, the first or that of an error
reply after a failure; over UDP and TIPC those for which not every `sendto` fails. -/
theorem reply_returns_iff (passive : Bool) (id : Bytes) (r : Replied) :
    (∀ os, TcpReturns os (tcpReply passive id r) ↔ passive = true ∨ SomeThrough os id r) ∧
      ∀ type ∈ [ReqType.udp, .tipc], ∀ failed,
        DatagramReturns type id failed (datagramReply passive type id r) ↔ passive = true ∨ ∃ n, failed n = false := by
  cases passive with
  | true => exact ⟨fun os => iff_of_true ⟨0, rfl⟩ (.inl rfl), fun type _ failed => iff_of_true ⟨0, rfl⟩ (.inl rfl)⟩
  | false =>
    simp only [Bool.false_eq_true, false_or]
    exact ⟨fun os => tcpReturns_iff, fun type _ failed => datagramReturns_iff⟩

/-- When every call fails no reply ends, and none of the failures is for want of room in the socket. -/
theorem reply_never_returns :
    (∃ os : ℕ → SendOutcome, (∀ n, os n ≠ .again) ∧ ¬ TcpReturns os (tcpReply false [0, 0, 0, 1] (.mini 1000))) ∧
      ∀ type ∈ [ReqType.udp, .tipc], ∃ failed : ℕ → Bool,
        ¬ DatagramReturns type [0, 0, 0, 1] failed (datagramReply false type [0, 0, 0, 1] (.mini 1000)) := by
  refine ⟨⟨fun _ => .error, fun n => nofun, ?_⟩, fun type _ => ⟨fun _ => true, ?_⟩⟩
  · intro h
    rcases tcpReturns_iff.mp h with ht | ⟨m, -, ht⟩ <;> exact not_through_of_errors (by decide) ht
  · rintro h
    obtain ⟨n, hn⟩ := datagramReturns_iff.mp h
    cases hn

end Cmoon.ReplyEndings
