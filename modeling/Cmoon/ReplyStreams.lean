import Cmoon.GuardedRuns
import Cmoon.ReplyPackets
import Mathlib.Data.List.Infix

/-! # The replies of one connection (`rep_send`)

The replies of a connection are sent one after the other; `rep_send` calls `send` until the frame is
written, and replies an error on the same stream when `send` fails. -/
namespace Cmoon.ReplyStreams
open DecimalText ByteBuffers EventDaemon ReplyPackets GuardedRuns

/-- What one `send` does: it takes up to as many bytes, asks to come again (`EAGAIN`), or fails. -/
inductive SendOutcome where
  | accepted (n : ℕ)
  | again
  | error

/-- A call of `rep_send`: the reply, and how much of its frame the socket has taken (`c`). -/
structure Attempt where
  id : Bytes
  reply : Replied
  written : ℕ

def Attempt.frame (a : Attempt) : Bytes := a.reply.packet .tcp a.id

def Attempt.taken (a : Attempt) : Bytes := a.frame.take a.written

/-- A connection: the calls of `rep_send` that are over, the one under way, the replies to come. -/
structure Conn where
  ended : List Attempt
  current : Option Attempt
  pending : List (Bytes × Replied)

/-- The next reply, when `rep_send` has returned. -/
def next (ended : List Attempt) : List (Bytes × Replied) → Conn
  | [] => ⟨ended, none, []⟩
  | (id, r) :: rs => ⟨ended, some ⟨id, r, 0⟩, rs⟩

def start (replies : List (Bytes × Replied)) : Conn := next [] replies

/-- One `send` of the loop in `rep_send` and what comes of its result. -/
def sendStep (s : Conn) (o : SendOutcome) : Conn :=
  match s.current with
  | none => s
  | some a =>
    match o with
    | .again => s
    -- `tcp_reply_mini(req, REP_ERR_SEND)`
    | .error => ⟨s.ended ++ [a], some ⟨a.id, .mini repErrSend, 0⟩, s.pending⟩
    | .accepted n =>
      let rv := min n (a.frame.length - a.written)
      let a := { a with written := a.written + rv }
      if rv = 0 ∨ a.written = a.frame.length then next (s.ended ++ [a]) s.pending
      else { s with current := some a }

/-- All calls of `rep_send` there were. -/
def Conn.attempts (s : Conn) : List Attempt := s.ended ++ s.current.toList

def Conn.stream (s : Conn) : Bytes := (s.attempts.map Attempt.taken).flatten

def Attempt.Clean (a : Attempt) : Prop := a.written = 0 ∨ a.written = a.frame.length

instance (a : Attempt) : Decidable a.Clean := inferInstanceAs (Decidable (_ ∨ _))

/-- No frame is started before the ones in front of it are written completely. -/
def Conn.Whole (s : Conn) : Prop := s.attempts.Pairwise fun a b => a.Clean ∨ b.written = 0

/-- `send` neither fails nor returns 0 inside a frame. -/
def Unbroken (s : Conn) (o : SendOutcome) : Prop :=
  (o = .error ∨ o = .accepted 0) → ∀ a ∈ s.current, a.written = 0

/-- The calls which are over left nothing half written, the one under way is not complete. -/
structure Conn.Tidy (s : Conn) : Prop where
  ended : ∀ a ∈ s.ended, a.Clean
  current : ∀ a ∈ s.current, a.written < a.frame.length

theorem frame_pos (a : Attempt) : 0 < a.frame.length := by
  obtain ⟨id, r, written⟩ := a
  cases r with
  | mini reply => simp [Attempt.frame, Replied.packet, replyMini, tcpReplyMini]
  | long reply val => simp [Attempt.frame, Replied.packet, replyLong, tcpReplyLong]

theorem Conn.Tidy.whole {s : Conn} (h : s.Tidy) : s.Whole := by
  refine List.pairwise_append.mpr ⟨?_, ?_, fun a ha b hb => .inl (h.ended a ha)⟩
  · exact List.pairwise_of_forall_mem_list fun a ha b hb => .inl (h.ended a ha)
  · cases s.current <;> simp

theorem next_ended (ended : List Attempt) (rs : List (Bytes × Replied)) : (next ended rs).ended = ended := by
  cases rs <;> rfl

theorem next_current (ended : List Attempt) (rs : List (Bytes × Replied)) : ∀ a ∈ (next ended rs).current, a.written = 0 := by
  cases rs <;> simp [next]

/-- The call under way is never complete. -/
theorem current_step {s : Conn} (h : ∀ a ∈ s.current, a.written < a.frame.length) (o : SendOutcome) :
    ∀ a ∈ (sendStep s o).current, a.written < a.frame.length := by
  obtain ⟨ended, current, pending⟩ := s
  cases current with
  | none => exact h
  | some a =>
    have hlt : a.written < a.frame.length := h a rfl
    cases o with
    | again => exact h
    | error => exact fun b hb => Option.some.inj hb ▸ frame_pos _
    | accepted n =>
      simp only [sendStep]
      split
      · intro b hb
        rw [next_current _ _ b hb]
        exact frame_pos b
      · next hend =>
        intro b hb
        obtain rfl := Option.some.inj hb
        have hlen : Attempt.frame { a with written := a.written + min n (a.frame.length - a.written) } = a.frame := rfl
        rw [not_or, hlen] at hend
        simp only [hlen] at hend ⊢
        omega

theorem current_run {s : Conn} (h : ∀ a ∈ s.current, a.written < a.frame.length) (os : List SendOutcome) :
    ∀ a ∈ (os.foldl sendStep s).current, a.written < a.frame.length := by
  induction os generalizing s with
  | nil => exact h
  | cons o os ih => exact ih (current_step h o)

theorem tidy_step {s : Conn} {o : SendOutcome} (h : s.Tidy) (ho : Unbroken s o) : (sendStep s o).Tidy := by
  refine ⟨?_, current_step h.current o⟩
  obtain ⟨ended, current, pending⟩ := s
  cases current with
  | none => exact h.ended
  | some a =>
    have hlt : a.written < a.frame.length := h.current a rfl
    have hended : ∀ {a' : Attempt}, a'.Clean → ∀ b ∈ ended ++ [a'], b.Clean := by
      intro a' ha' b hb
      obtain hb | hb := List.mem_append.mp hb
      · exact h.ended b hb
      · rwa [List.mem_singleton.mp hb]
    cases o with
    | again => exact h.ended
    | error => exact hended (.inl (ho (.inl rfl) a rfl))
    | accepted n =>
      simp only [sendStep]
      split
      · next hend =>
        rw [next_ended]
        apply hended
        obtain hzero | hall := hend
        · have hn : n = 0 := by omega
          have hstart := ho (.inr (by rw [hn])) a rfl
          exact .inl (show a.written + _ = 0 by omega)
        · exact .inr hall
      · exact h.ended

theorem taken_nil {as : List Attempt} (h : ∀ a ∈ as, a.written = 0) : (as.map Attempt.taken).flatten = [] := by
  rw [List.flatten_eq_nil_iff]
  intro bytes hmem
  obtain ⟨a, ha, rfl⟩ := List.mem_map.mp hmem
  rw [Attempt.taken, h a ha, List.take_zero]

theorem whole_bytes {as : List Attempt} (h : as.Pairwise fun a b => a.Clean ∨ b.written = 0) :
    ∃ (full : List Attempt) (part : Bytes), full.Sublist as ∧
      (as.map Attempt.taken).flatten = (full.map Attempt.frame).flatten ++ part ∧
      (part = [] ∨ ∃ a ∈ as, part <+: a.frame) := by
  induction as with
  | nil => exact ⟨[], [], List.Sublist.refl [], rfl, .inl rfl⟩
  | cons a as ih =>
    obtain ⟨hfirst, hrest⟩ := List.pairwise_cons.mp h
    obtain ⟨full, part, hsub, hbytes, hpart⟩ := ih hrest
    have hpart' : part = [] ∨ ∃ b ∈ a :: as, part <+: b.frame :=
      hpart.imp_right fun ⟨b, hb, hp⟩ => ⟨b, List.mem_cons_of_mem a hb, hp⟩
    rw [List.map_cons, List.flatten_cons]
    by_cases hclean : a.Clean
    · obtain hnone | hall := hclean
      · refine ⟨full, part, hsub.cons a, ?_, hpart'⟩
        rw [Attempt.taken, hnone, List.take_zero, List.nil_append, hbytes]
      · refine ⟨a :: full, part, hsub.cons_cons a, ?_, hpart'⟩
        rw [Attempt.taken, hall, List.take_length, hbytes, List.map_cons, List.flatten_cons, List.append_assoc]
    · -- behind a part of a frame there is nothing
      have hnil := taken_nil fun b hb => (hfirst b hb).resolve_left hclean
      refine ⟨[], a.taken, List.nil_sublist _, ?_, .inr ⟨a, List.mem_cons_self, List.take_prefix _ _⟩⟩
      rw [hnil, List.append_nil]
      rfl

theorem ended_step (s : Conn) (o : SendOutcome) : s.ended <+: (sendStep s o).ended := by
  obtain ⟨ended, current, pending⟩ := s
  cases current with
  | none => exact List.prefix_refl _
  | some a =>
    cases o with
    | again => exact List.prefix_refl _
    | error => exact List.prefix_append _ _
    | accepted n =>
      simp only [sendStep]
      split
      · rw [next_ended]
        exact List.prefix_append _ _
      · exact List.prefix_refl _

theorem ended_run (s : Conn) (os : List SendOutcome) : s.ended <+: (os.foldl sendStep s).ended := by
  induction os generalizing s with
  | nil => exact List.prefix_refl _
  | cons o os ih => exact (ended_step s o).trans (ih _)

/-- Behind a frame which was broken off, a whole stream does not go on. -/
theorem stream_of_broken {s : Conn} {a : Attempt} (ha : a ∈ s.ended) (hbroken : ¬a.Clean)
    (hnext : ∀ b ∈ s.current, b.written = 0) {os : List SendOutcome} (hwhole : (os.foldl sendStep s).Whole) :
    (os.foldl sendStep s).stream = s.stream := by
  obtain ⟨more, hmore⟩ := ended_run s os
  have hsplit : (os.foldl sendStep s).attempts = s.ended ++ (more ++ (os.foldl sendStep s).current.toList) := by
    rw [Conn.attempts, ← hmore, List.append_assoc]
  rw [Conn.Whole, hsplit] at hwhole
  have hlater := fun b hb => ((List.pairwise_append.mp hwhole).2.2 a ha b hb).resolve_left hbroken
  rw [Conn.stream, Conn.stream, hsplit, Conn.attempts, List.map_append, List.flatten_append, taken_nil hlater,
    List.map_append, List.flatten_append, taken_nil fun b hb => hnext b (Option.mem_toList.mp hb)]

/-- A break inside a frame ends its call with a part of the frame on the stream, which stays as it was. -/
theorem step_of_not_unbroken {s : Conn} (hcur : ∀ a ∈ s.current, a.written < a.frame.length) {o : SendOutcome}
    (ho : ¬Unbroken s o) :
    (∃ a ∈ (sendStep s o).ended, ¬a.Clean) ∧ (∀ b ∈ (sendStep s o).current, b.written = 0) ∧
      (sendStep s o).stream = s.stream := by
  obtain ⟨ended, current, pending⟩ := s
  simp only [Unbroken, Classical.not_imp, not_forall] at ho
  obtain ⟨hbreak, a, ha, hstarted⟩ := ho
  obtain rfl : current = some a := ha
  have hlt : a.written < a.frame.length := hcur a rfl
  have hbroken : ¬a.Clean := fun h => h.elim hstarted (by omega)
  have hstream : ∀ {s' : Conn}, s'.ended = ended ++ [a] → (∀ b ∈ s'.current, b.written = 0) →
      s'.stream = Conn.stream ⟨ended, some a, pending⟩ := by
    intro s' hended h
    rw [Conn.stream, Conn.attempts, List.map_append, List.flatten_append,
      taken_nil fun b hb => h b (Option.mem_toList.mp hb), hended, List.append_nil]
    rfl
  obtain rfl | rfl := hbreak
  · have h : ∀ b ∈ (sendStep ⟨ended, some a, pending⟩ .error).current, b.written = 0 := by simp [sendStep]
    exact ⟨⟨a, by simp [sendStep], hbroken⟩, h, hstream rfl h⟩
  · have hstep : sendStep ⟨ended, some a, pending⟩ (.accepted 0) = next (ended ++ [a]) pending := by
      simp [sendStep]
    rw [hstep]
    have h := next_current (ended ++ [a]) pending
    exact ⟨⟨a, by simp [next_ended], hbroken⟩, h, hstream (next_ended _ _) h⟩

def Conn.Framed (s : Conn) : Prop :=
  ∃ (full : List Attempt) (part : Bytes), full.Sublist s.attempts ∧
    s.stream = (full.map Attempt.frame).flatten ++ part ∧ (part = [] ∨ ∃ a ∈ s.attempts, part <+: a.frame)

theorem tidy_start (replies : List (Bytes × Replied)) : (start replies).Tidy := by
  refine ⟨?_, fun a ha => ?_⟩
  · rw [start, next_ended]
    simp
  · rw [next_current [] replies a ha]
    exact frame_pos a

/-- As long as no `send` fails or returns 0 inside a frame the stream is one of whole frames; once one
does, it is none any more with the next byte. -/
theorem wholeFrames (replies : List (Bytes × Replied)) (os : List SendOutcome) :
    (Guarded sendStep Unbroken (start replies) os →
      Throughout sendStep (fun s => s.Whole ∧ s.Framed) (start replies) os) ∧
    ∀ pre o post, os = pre ++ o :: post → ¬Unbroken (pre.foldl sendStep (start replies)) o →
      (os.foldl sendStep (start replies)).stream ≠ (pre.foldl sendStep (start replies)).stream →
        ¬(os.foldl sendStep (start replies)).Whole := by
  refine ⟨fun h => ?_, ?_⟩
  · have htidy := h.throughout (fun s o => tidy_step) (tidy_start replies)
    exact htidy.imp fun s hs => ⟨hs.whole, whole_bytes hs.whole⟩
  · rintro pre o post rfl hbreak hmore hwhole
    rw [List.foldl_append, List.foldl_cons] at hmore hwhole
    obtain ⟨⟨a, ha, hbroken⟩, hnext, hsame⟩ := step_of_not_unbroken (current_run (tidy_start replies).current pre) hbreak
    exact hmore ((stream_of_broken ha hbroken hnext hwhole).trans hsame)

/-- A code alone of which the socket takes five bytes before `send` fails: the error reply starts inside it. -/
theorem wholeFrames_broken : ¬∀ (replies : List (Bytes × Replied)) (os : List SendOutcome),
    Throughout sendStep (fun s => s.Whole ∧ s.Framed) (start replies) os := by
  intro h
  have hwhole := (h [([0, 0, 0, 1], .mini 1000)] [.accepted 5, .error, .accepted 12]).last.1
  have hpair := List.pairwise_pair.mp (show [(⟨[0, 0, 0, 1], .mini 1000, 5⟩ : Attempt),
    ⟨[0, 0, 0, 1], .mini repErrSend, 12⟩].Pairwise fun a b => a.Clean ∨ b.written = 0 from hwhole)
  revert hpair
  decide

/-- The same with the socket full after five bytes. -/
theorem wholeFrames_again : Throughout sendStep (fun s => s.Whole ∧ s.Framed) (start [([0, 0, 0, 1], .mini 1000)])
    [.accepted 5, .again, .accepted 7] := by
  have hunbroken : Guarded sendStep Unbroken (start [([0, 0, 0, 1], .mini 1000)]) [.accepted 5, .again, .accepted 7] := by
    simp [Guarded, Unbroken]
  exact (wholeFrames _ _).1 hunbroken

end Cmoon.ReplyStreams
