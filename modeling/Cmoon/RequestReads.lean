import Cmoon.EventDaemon

/-! # Which bytes a request is read from

`parse_message` follows three lengths out of the message before it compares any of them
with the length of the message, so what it does can depend on what an earlier packet
left behind in the receive buffer. -/
namespace Cmoon.RequestReads
open DecimalText ByteBuffers EventDaemon

/-- Every receive buffer of `cap` bytes with `msg` in front gives the same outcome. -/
def SameOnEveryBuffer (d : Daemon) (env : Env) (req : ReqInfo) (msg : Bytes) (cap : ℕ) : Prop :=
  ∃ o, o ≠ .error .outside ∧ ∀ rest : Bytes, rest.length = cap - msg.length →
    parseMessage d env req (msg ++ rest) msg.length = o

/-- The offset behind the event name. -/
def bodyAt (msg : Bytes) : ℕ := 12 + word (slice msg 8 4)

/-- A received byte of the type word of the body rules out a string. -/
def NotString (msg : Bytes) (cap : ℕ) : Prop :=
  bodyAt msg + 4 ≤ cap ∧
    ∃ i < 4, bodyAt msg + i < msg.length ∧ msg[bodyAt msg + i]? ≠ (be 4 dataTypeString)[i]?

/-- The body is a string variable which ends inside the message. -/
def Received (msg : Bytes) : Prop :=
  wordAt msg (bodyAt msg) = some dataTypeString ∧
    ∃ ksize vsize text, wordAt msg (bodyAt msg + 4) = some ksize ∧
      wordAt msg (bodyAt msg + 8 + ksize) = some vsize ∧
      cstrAt msg (bodyAt msg + 12 + ksize) = some text

theorem wordAt_append_of_some {m : Bytes} {off w : ℕ} (h : wordAt m off = some w) (rest : Bytes) :
    wordAt (m ++ rest) off = some w := by
  unfold wordAt at h
  split at h
  · next hle => rw [wordAt_append_left hle, h]
  · cases h

theorem wordAt_of_append {m rest : Bytes} {off w : ℕ} (hle : off + 4 ≤ m.length)
    (h : wordAt (m ++ rest) off = some w) : wordAt m off = some w := by
  rw [wordAt_append_left hle] at h
  rw [wordAt, if_pos hle, h]

theorem wordAt_le {m : Bytes} {off w : ℕ} (h : wordAt m off = some w) : off + 4 ≤ m.length := by
  unfold wordAt at h
  split at h
  · assumption
  · cases h

theorem cstrAt_append_of_some {m t : Bytes} {off : ℕ} (h : cstrAt m off = some t) (rest : Bytes) :
    cstrAt (m ++ rest) off = some t := by
  unfold cstrAt at h
  split at h
  · next hz => rw [cstrAt_append_left hz, h]
  · cases h

section Events
variable {msg : Bytes} (hlen : 17 ≤ msg.length)
include hlen

private theorem esize_eq (rest : Bytes) : wordAt (msg ++ rest) 8 = some (word (slice msg 8 4)) :=
  wordAt_append_left (by omega) rest

/-- A body which ends inside the message is read the same from every buffer. -/
theorem readEvent_received (hr : Received msg) (psize : ℕ) :
    ∃ r, ∀ rest, readEvent (msg ++ rest) psize = .ok r := by
  obtain ⟨htype, ksize, vsize, text, hk, hv, ht⟩ := hr
  have hbody : 12 + word (slice msg 8 4) ≤ msg.length := Nat.le_of_add_right_le (wordAt_le htype)
  let rsize := (16 + ksize + vsize) % 2 ^ 32
  refine ⟨if rsize = 0 ∨ (rsize + word (slice msg 8 4)) % 2 ^ 32 + 4 > maxPacketLen ∨
    psize < word (slice msg 8 4) then none else some (slice msg 12 (word (slice msg 8 4)), some text),
    fun rest => ?_⟩
  have hname : slice (msg ++ rest) 12 (word (slice msg 8 4)) = slice msg 12 (word (slice msg 8 4)) :=
    slice_append_left hbody rest
  have h₁ := wordAt_append_of_some htype rest
  have h₂ := wordAt_append_of_some hk rest
  have h₃ := wordAt_append_of_some hv rest
  have h₄ := cstrAt_append_of_some ht rest
  simp only [bodyAt] at h₁ h₂ h₃ h₄
  simp only [readEvent, unpackHdf, unpackDataStr, esize_eq hlen rest, inside, h₁, h₂, h₃, h₄, hname,
    bind, Except.bind, pure, Except.pure, ne_eq, not_true_eq_false, if_false]
  split <;> rfl

/-- A body of another type is broken, whatever the rest of its type word is. -/
theorem readEvent_notString {cap : ℕ} (hn : NotString msg cap) (psize : ℕ) {rest : Bytes}
    (hrest : rest.length = cap - msg.length) : readEvent (msg ++ rest) psize = .ok none := by
  obtain ⟨hcap, i, hi, hlt, hne⟩ := hn
  have hle : bodyAt msg + 4 ≤ (msg ++ rest).length := by
    rw [List.length_append, hrest]
    omega
  have htype : wordAt (msg ++ rest) (bodyAt msg) = some (word (slice (msg ++ rest) (bodyAt msg) 4)) :=
    if_pos hle
  have hother : word (slice (msg ++ rest) (bodyAt msg) 4) ≠ dataTypeString := by
    intro hw
    have hs : slice (msg ++ rest) (bodyAt msg) 4 = be 4 dataTypeString := by
      refine word_inj ?_ (hw.trans (word_be_of_lt (by decide)).symm)
      simp only [slice, List.length_take, List.length_drop, length_be]
      omega
    apply hne
    rw [← hs, slice, List.getElem?_take_of_lt hi, List.getElem?_drop, List.getElem?_append_left hlt]
  simp only [bodyAt] at htype hother
  simp [readEvent, unpackHdf, unpackDataStr, esize_eq hlen rest, inside, htype, hother, bind, Except.bind,
    pure, Except.pure]

end Events

/-- The message in a buffer of `cap` bytes with no zero byte behind it. -/
def padded (msg : Bytes) (cap : ℕ) : Bytes := msg ++ List.replicate (cap - msg.length) 255

/-- The padded message with the type word of a string behind the event name. -/
def completed (msg : Bytes) (cap : ℕ) : Bytes := overwrite (padded msg cap) (bodyAt msg) (be 4 dataTypeString)

theorem length_padded {msg : Bytes} {cap : ℕ} (hle : msg.length ≤ cap) : (padded msg cap).length = cap := by
  rw [padded, List.length_append, List.length_replicate]
  omega

theorem padded_ne_zero {msg : Bytes} {cap p : ℕ} (hp : msg.length ≤ p) : (padded msg cap)[p]? ≠ some 0 := by
  intro hz
  rw [padded, List.getElem?_append_right hp] at hz
  have hbyte := (List.mem_replicate.mp (List.mem_of_getElem? hz)).2
  exact absurd hbyte (by decide)

section Completed
variable {msg : Bytes} {cap : ℕ} (hle : msg.length ≤ cap) (hcap : bodyAt msg + 4 ≤ cap)
include hle hcap

theorem length_completed : (completed msg cap).length = cap := by
  rw [completed, length_overwrite (by rw [length_be, length_padded hle]; exact hcap), length_padded hle]

private theorem getElem?_completed (p : ℕ) : (completed msg cap)[p]? =
    if bodyAt msg ≤ p ∧ p < bodyAt msg + 4 then (be 4 dataTypeString)[p - bodyAt msg]?
    else (padded msg cap)[p]? := by
  rw [completed, getElem?_overwrite (by rw [length_be, length_padded hle]; exact hcap), length_be]

theorem wordAt_completed : wordAt (completed msg cap) (bodyAt msg) = some dataTypeString := by
  have hslice : slice (completed msg cap) (bodyAt msg) 4 = be 4 dataTypeString := by
    refine List.ext_getElem? fun i => ?_
    rw [slice]
    by_cases hi : i < 4
    · rw [List.getElem?_take_of_lt hi, List.getElem?_drop, getElem?_completed hle hcap, if_pos (by omega),
        Nat.add_sub_cancel_left]
    · rw [List.getElem?_eq_none (by simp; omega), List.getElem?_eq_none (by simp; omega)]
  rw [wordAt, if_pos (by rw [length_completed hle hcap]; exact hcap), hslice, word_be_of_lt (by decide)]

theorem completed_ne_zero {p : ℕ} (hbody : bodyAt msg + 4 ≤ p) (hp : msg.length ≤ p) :
    (completed msg cap)[p]? ≠ some 0 := by
  rw [getElem?_completed hle hcap, if_neg (by omega)]
  exact padded_ne_zero hp

variable (hn : ¬ NotString msg cap)
include hn

theorem completed_received {p : ℕ} (hp : p < msg.length) : (completed msg cap)[p]? = msg[p]? := by
  have hpad : (padded msg cap)[p]? = msg[p]? := List.getElem?_append_left hp
  rw [getElem?_completed hle hcap, hpad]
  split
  · rename_i hmid
    by_contra hne
    refine hn ⟨hcap, p - bodyAt msg, by omega, by omega, ?_⟩
    rw [Nat.add_sub_of_le hmid.1]
    exact fun h => hne h.symm
  · rfl

theorem append_drop_completed : msg ++ (completed msg cap).drop msg.length = completed msg cap := by
  have hlen := length_completed hle hcap
  have htake : (completed msg cap).take msg.length = msg := by
    refine List.ext_getElem? fun p => ?_
    by_cases hp : p < msg.length
    · rw [List.getElem?_take_of_lt hp, completed_received hle hcap hn hp]
    · rw [List.getElem?_eq_none (by simp; omega), List.getElem?_eq_none (by omega)]
  calc msg ++ (completed msg cap).drop msg.length
      = (completed msg cap).take msg.length ++ (completed msg cap).drop msg.length := by rw [htake]
    _ = completed msg cap := List.take_append_drop ..

/-- A string found there would end inside the message. -/
theorem received_of_completed {ksize vsize : ℕ} {text : Bytes}
    (hk : wordAt (completed msg cap) (bodyAt msg + 4) = some ksize)
    (hv : wordAt (completed msg cap) (bodyAt msg + 8 + ksize) = some vsize)
    (ht : cstrAt (completed msg cap) (bodyAt msg + 12 + ksize) = some text) : Received msg := by
  have hzero : (0 : UInt8) ∈ (completed msg cap).drop (bodyAt msg + 12 + ksize) := by
    by_contra hz
    rw [cstrAt, if_neg hz] at ht
    cases ht
  obtain ⟨q, hq⟩ := List.mem_iff_getElem?.mp hzero
  rw [List.getElem?_drop] at hq
  have hin : bodyAt msg + 12 + ksize + q < msg.length := by
    by_contra hge
    exact completed_ne_zero hle hcap (by omega) (by omega) hq
  have htype := wordAt_completed hle hcap
  rw [← append_drop_completed hle hcap hn] at htype hk hv
  refine ⟨wordAt_of_append (by omega) htype, ksize, vsize, _, wordAt_of_append (by omega) hk,
    wordAt_of_append (by omega) hv, if_pos ?_⟩
  refine List.mem_iff_getElem?.mpr ⟨q, ?_⟩
  rw [List.getElem?_drop, ← completed_received hle hcap hn hin, hq]

end Completed

/-- Otherwise there is a buffer in which the read runs out of the buffer: one that completes the
type word and holds no zero byte after it. -/
theorem readEvent_outside {msg : Bytes} (hlen : 17 ≤ msg.length) {cap : ℕ} (hle : msg.length ≤ cap)
    (hn : ¬ NotString msg cap) (hr : ¬ Received msg) (psize : ℕ) :
    ∃ rest : Bytes, rest.length = cap - msg.length ∧
      readEvent (msg ++ rest) psize = .error .outside := by
  by_cases hcap : bodyAt msg + 4 ≤ cap
  · refine ⟨(completed msg cap).drop msg.length, by rw [List.length_drop, length_completed hle hcap], ?_⟩
    have hesize := esize_eq hlen ((completed msg cap).drop msg.length)
    have htype := wordAt_completed hle hcap
    have hreads := @received_of_completed _ _ hle hcap hn
    rw [append_drop_completed hle hcap hn] at hesize ⊢
    simp only [bodyAt] at htype hreads
    simp only [readEvent, unpackHdf, unpackDataStr, hesize, inside, htype, bind, Except.bind, ne_eq,
      not_true_eq_false, if_false]
    cases hk : wordAt (completed msg cap) (12 + word (slice msg 8 4) + 4) with
    | none => rfl
    | some ksize =>
      cases hv : wordAt (completed msg cap) (12 + word (slice msg 8 4) + 8 + ksize) with
      | none => simp [hv]
      | some vsize =>
        cases ht : cstrAt (completed msg cap) (12 + word (slice msg 8 4) + 12 + ksize) with
        | none => simp [hv, ht, pure, Except.pure]
        | some text => exact (hr (hreads hk hv ht)).elim
  · -- not even the type word is inside the buffer
    refine ⟨List.replicate (cap - msg.length) 255, List.length_replicate, ?_⟩
    have hesize := esize_eq hlen (List.replicate (cap - msg.length) 255)
    have htype : wordAt (padded msg cap) (bodyAt msg) = none := if_neg (by rw [length_padded hle]; exact hcap)
    simp only [bodyAt, padded] at htype
    simp [readEvent, unpackHdf, unpackDataStr, hesize, inside, htype, bind, Except.bind]

/-- The outcome of a message of the right version, once its event is read. -/
theorem parseMessage_eq {d : Daemon} {env : Env} {req : ReqInfo} {msg : Bytes} (hlen : 17 ≤ msg.length)
    (hver : version msg = protoVer) (rest : Bytes) :
    parseMessage d env req (msg ++ rest) msg.length = do
      let d ← takeEvent d env (req.filled msg) (← readEvent (msg ++ rest) (msg.length - 8))
      return (d, 1) := by
  have hhdr : slice (msg ++ rest) 0 4 = slice msg 0 4 := slice_append_left (by omega) rest
  have hcmd : slice (msg ++ rest) 4 2 = slice msg 4 2 := slice_append_left (by omega) rest
  have hflags : slice (msg ++ rest) 6 2 = slice msg 6 2 := slice_append_left (by omega) rest
  have hver' : version (msg ++ rest) = protoVer := by rw [version, hhdr, ← version, hver]
  have hfill : req.filled (msg ++ rest) = req.filled msg := by
    simp only [ReqInfo.filled, msgId, hhdr, hcmd, hflags]
  rw [parseMessage, if_neg (by omega), if_neg (not_not.mpr hver'), hfill]
  simp only [parseEvent, bind_assoc]

private theorem bind_ne_outside {α β : Type} {x : Except Fault α} {f : α → Except Fault β}
    (hx : x ≠ .error .outside) (hf : ∀ a, f a ≠ .error .outside) : (x >>= f) ≠ .error .outside := by
  cases x with
  | error e => simpa [bind, Except.bind] using hx
  | ok a => exact hf a

theorem makeQueueLongEntry_ne_outside (env : Env) (req : ReqInfo) (ename : Bytes)
    (hdfrcv : Option Bytes) : makeQueueLongEntry env req ename hdfrcv ≠ .error .outside := by
  unfold makeQueueLongEntry
  split_ifs <;> simp

theorem putInQueueLong_ne_outside (d : Daemon) (env : Env) (req : ReqInfo) (sync : Bool) (ename : Bytes)
    (hdfrcv : Option Bytes) : putInQueueLong d env req sync ename hdfrcv ≠ .error .outside := by
  have hmake := makeQueueLongEntry_ne_outside env req ename hdfrcv
  unfold putInQueueLong
  split
  · split
    · apply bind_ne_outside hmake
      intro e
      cases e <;> simp [pure, Except.pure]
    · simp [pure, Except.pure]
  · simp only
    split
    · simp [pure, Except.pure]
    · apply bind_ne_outside hmake
      intro e
      cases e <;> simp [pure, Except.pure]

theorem takeEvent_ne_outside (d : Daemon) (env : Env) (req : ReqInfo)
    (r : Option (Bytes × Option Bytes)) : takeEvent d env req r ≠ .error .outside := by
  obtain _ | ⟨ename, hdfrcv⟩ := r
  · simp [takeEvent]
  · apply bind_ne_outside (putInQueueLong_ne_outside d env req req.sync ename hdfrcv)
    intro p
    simp [pure, Except.pure]

/-- A message is handled by its own bytes alone exactly when its version is refused, or its body
is not a string variable for every buffer, or is one which ends inside the message. -/
theorem sameOnEveryBuffer_iff (d : Daemon) (env : Env) (req : ReqInfo) {msg : Bytes} {cap : ℕ}
    (hlen : 17 ≤ msg.length) (hcap : msg.length ≤ cap) :
    SameOnEveryBuffer d env req msg cap ↔
      version msg ≠ protoVer ∨ NotString msg cap ∨ Received msg := by
  by_cases hver : version msg = protoVer
  swap
  · let d' := { d with stats := { d.stats with netVersionMismatch := d.stats.netVersionMismatch + 1 } }
    refine iff_of_true ⟨.ok (d'.reply (.mini (req.hostId msg) .errVer), 0), ?_, fun rest _ => ?_⟩
      (.inl hver)
    · simp
    · have hhdr : slice (msg ++ rest) 0 4 = slice msg 0 4 := slice_append_left (by omega) rest
      have hver' : version (msg ++ rest) ≠ protoVer := by rwa [version, hhdr, ← version]
      have hid : req.hostId (msg ++ rest) = req.hostId msg := by simp only [ReqInfo.hostId, msgId, hhdr]
      rw [parseMessage, if_neg (by omega), if_pos hver', hid]
  have hconst : ∀ r, (∀ rest : Bytes, rest.length = cap - msg.length →
      readEvent (msg ++ rest) (msg.length - 8) = .ok r) → SameOnEveryBuffer d env req msg cap := by
    intro r hr
    refine ⟨do return (← takeEvent d env (req.filled msg) r, 1), ?_, fun rest hrest => ?_⟩
    · apply bind_ne_outside (takeEvent_ne_outside d env (req.filled msg) r)
      intro d'
      simp [pure, Except.pure]
    · rw [parseMessage_eq hlen hver, hr rest hrest]
      rfl
  constructor
  · rintro ⟨o, ho, hall⟩
    right
    by_contra hnot
    obtain ⟨hn, hr⟩ := not_or.mp hnot
    obtain ⟨rest, hrest, hout⟩ := readEvent_outside hlen hcap hn hr (msg.length - 8)
    have hpar := hall rest hrest
    rw [parseMessage_eq hlen hver, hout] at hpar
    exact ho hpar.symm
  · rintro (hv | hn | hr)
    · exact absurd hver hv
    · exact hconst none fun rest hrest => readEvent_notString hlen hn _ hrest
    · obtain ⟨r, hread⟩ := readEvent_received hlen hr (msg.length - 8)
      exact hconst r fun rest _ => hread rest

/-- A request for the event "a" with an empty body. -/
theorem sameOnEveryBuffer_request :
    SameOnEveryBuffer (.initial []) (.plenty fun _ => none) ⟨4, .tcp, [], [0, 0, 0, 0], 0, 0⟩
      [16, 0, 0, 7, 0, 1, 0, 0, 0, 0, 0, 1, 97, 0, 0, 0, 3, 0, 0, 0, 0, 0, 0, 0, 1, 0] 69628 :=
  (sameOnEveryBuffer_iff _ _ _ (by decide) (by decide)).mpr
    (.inr (.inr ⟨by decide, 0, 1, [], by decide, by decide, by decide⟩))

private theorem parseMessage_stats {msg pre : Bytes} (hlen : 17 ≤ msg.length)
    (hver : version msg = protoVer) (hr : Received (msg ++ pre)) (d : Daemon) (env : Env) (req : ReqInfo)
    (rest : Bytes) :
    parseMessage d env req (msg ++ (pre ++ rest)) msg.length = do
      let d ← takeEvent d env (req.filled msg) (← readEvent (msg ++ pre) (msg.length - 8))
      return (d, 1) := by
  obtain ⟨r, hread⟩ := readEvent_received (by simp; omega) hr (msg.length - 8)
  have hnil := hread []
  rw [List.append_nil] at hnil
  rw [parseMessage_eq hlen hver, ← List.append_assoc, hread rest, hnil]

/-- Seventeen bytes which end behind the type word, for the event "a" and without `FLAGS_SYNC`. -/
def shortRequest : Bytes := [16, 0, 0, 7, 0, 1, 0, 0, 0, 0, 0, 1, 97, 0, 0, 0, 3]

private theorem shortRequest_sync (req : ReqInfo) : (req.filled shortRequest).sync = false := by
  have hflags : word (slice shortRequest 6 2) = 0 := by decide
  simp [ReqInfo.sync, ReqInfo.filled, hflags]

private theorem shortRequest_taken {pre : Bytes} (hr : Received (shortRequest ++ pre))
    {event : Option (Bytes × Option Bytes)} (hread : readEvent (shortRequest ++ pre) 9 = .ok event) {d : Daemon}
    {env : Env} {req : ReqInfo} {rest : Bytes} :
    (parseMessage d env req (shortRequest ++ (pre ++ rest)) 17).map (·.1.stats) =
      (takeEvent d env (req.filled shortRequest) event).map Daemon.stats := by
  have hmsg := parseMessage_stats (by decide) (by decide) hr d env req rest
  have hlen : shortRequest.length = 17 := rfl
  rw [hlen, hread] at hmsg
  rw [hmsg]
  cases htaken : takeEvent d env (req.filled shortRequest) event with
  | error f => simp only [bind, Except.bind, htaken, Except.map]
  | ok d' => simp only [bind, Except.bind, htaken, Except.map, pure, Except.pure]

/-- With zeros behind it in the buffer it is a request for an unknown event, with another value size
there it is a broken request. -/
theorem shortRequest_depends :
    let env : Env := .plenty fun _ => none
    let req : ReqInfo := ⟨4, .tcp, [], [0, 0, 0, 0], 0, 0⟩
    ∃ rest₁ rest₂ : Bytes, rest₁.length = 69628 - 17 ∧ rest₂.length = 69628 - 17 ∧
      (parseMessage (.initial []) env req (shortRequest ++ rest₁) 17).map (·.1.stats) =
        .ok ⟨0, 0, 0, 0, 0, 0, 1, 0⟩ ∧
      (parseMessage (.initial []) env req (shortRequest ++ rest₂) 17).map (·.1.stats) =
        .ok ⟨0, 0, 0, 0, 0, 1, 0, 0⟩ := by
  intro env req
  refine ⟨[0, 0, 0, 0, 0, 0, 0, 0, 0] ++ List.replicate 69602 0,
    [0, 0, 0, 0, 0, 1, 0, 0, 0] ++ List.replicate 69602 0, ?_, ?_, ?_, ?_⟩
  · rw [List.length_append, List.length_replicate]
    rfl
  · rw [List.length_append, List.length_replicate]
    rfl
  · have hr : Received (shortRequest ++ [0, 0, 0, 0, 0, 0, 0, 0, 0]) :=
      ⟨by decide, 0, 0, [], by decide, by decide, by decide⟩
    have hread : readEvent (shortRequest ++ [0, 0, 0, 0, 0, 0, 0, 0, 0]) 9 = .ok (some ([97], some [])) := rfl
    rw [shortRequest_taken hr hread]
    simp only [takeEvent, shortRequest_sync]
    rfl
  · have hr : Received (shortRequest ++ [0, 0, 0, 0, 0, 1, 0, 0, 0]) :=
      ⟨by decide, 0, 65536, [], by decide, by decide, by decide⟩
    have hread : readEvent (shortRequest ++ [0, 0, 0, 0, 0, 1, 0, 0, 0]) 9 = .ok none := rfl
    rw [shortRequest_taken hr hread]
    simp only [takeEvent, shortRequest_sync]
    rfl

end Cmoon.RequestReads
