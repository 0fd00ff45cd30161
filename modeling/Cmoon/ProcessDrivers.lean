import Cmoon.Datasets
import Cmoon.ExceptResults
import Cmoon.ReplyPackets

/-! # `process_driver`

Every plugin takes an entry alike: one of its commands, the statistics or an unknown command, then the
bookkeeping, and a reply if the request has `FLAGS_SYNC`. -/
namespace Cmoon.ProcessDrivers
open DecimalText Datasets ByteBuffers ExceptResults ReplyPackets
open EventDaemon hiding Dataset

/-- The counters of a plugin, `struct skeleton_stats`. -/
structure Counters where
  msgTotal : ℕ
  msgUnrec : ℕ
  msgBadparam : ℕ
  msgStats : ℕ
  procSuc : ℕ
  procFai : ℕ
  deriving DecidableEq, Repr

def Counters.zero : Counters := ⟨0, 0, 0, 0, 0, 0⟩

/-- A link of an error: `nerr_pass` hands on the error behind it. -/
inductive Link where
  | pass
  | raised (code : ℕ)
  deriving DecidableEq, Repr

/-- `mcs_err_valid`: the code of the first link that passes nothing on. -/
def mcsErrValid : List Link → Option ℕ
  | [] => none
  | .pass :: err => mcsErrValid err
  | .raised code :: _ => some code

def repOk : ℕ := 1000
def repErrBadparam : ℕ := 23
def reqCmdStats : ℕ := 1000

def processOk (ret : ℕ) : Bool := repOk ≤ ret

/-- What a command leaves: the state of the plugin, its error and `hdfsnd`. -/
structure Done (E : Type) where
  own : E
  err : List Link
  hdfsnd : Dataset

/-- A plugin: the labels of its `switch` with the commands behind them, those of `CASE_SYS_CMD`
among them, and what it has of the libraries. -/
structure Plugin (E : Type) where
  commands : ℕ → Option (E → QueueEntry → Except Fault (Done E))
  traceback : List Link → Bytes
  hdfWriteString : Dataset → Option CString

/-- A running plugin. -/
structure Driver (E : Type) where
  own : E
  st : Counters

variable {E : Type}

/-- The dataset of `REQ_CMD_STATS`; `hdf_set_int_value` takes an `int`. -/
def Counters.data (st : Counters) : Dataset :=
  [("msg_total", st.msgTotal), ("msg_unrec", st.msgUnrec), ("msg_badparam", st.msgBadparam),
    ("msg_stats", st.msgStats), ("proc_suc", st.procSuc), ("proc_fai", st.procFai)].foldl
    (fun d p => hdfSetIntValue d p.1 (wrap 32 p.2)) []

def dispatch (p : Plugin E) (e : Driver E) (q : QueueEntry) : Except Fault (Driver E × List Link × Dataset) :=
  if q.operation = reqCmdStats then
    let st := { e.st with msgStats := e.st.msgStats + 1 }
    .ok ({ e with st := st }, [], st.data)
  else
    match p.commands q.operation with
    | some command => do
      let r ← command e.own q
      return ({ e with own := r.own }, r.err, r.hdfsnd)
    | none =>
      .ok ({ e with st := { e.st with msgUnrec := e.st.msgUnrec + 1 } }, [.raised (repCode .errUnkreq)], [])

def settle (st : Counters) (ret : ℕ) : Counters :=
  if processOk ret then { st with procSuc := st.procSuc + 1 }
  else
    { st with
      procFai := st.procFai + 1
      msgBadparam := if ret = repErrBadparam then st.msgBadparam + 1 else st.msgBadparam }

def traceErr (p : Plugin E) (hdfsnd : Dataset) (err : List Link) : Dataset :=
  hdfSetValue hdfsnd "Output.errtrace" (some (p.traceback err))

/-- `xxx_process_driver`, with its reply. -/
def processDriver (p : Plugin E) (calloc : Bool) (e : Driver E) (q : QueueEntry) :
    Except Fault (Driver E × Option Replied) := do
  let e := { e with st := { e.st with msgTotal := e.st.msgTotal + 1 } }
  let (e, err, hdfsnd) ← dispatch p e q
  let ret := (mcsErrValid err).getD repOk
  let hdfsnd := if processOk ret then hdfsnd else traceErr p hdfsnd err
  return ({ e with st := settle e.st ret },
    if q.req.sync then some (replied (fun hdf => hdf ≠ []) p.hdfWriteString calloc (some hdfsnd) ret).1 else none)

/-- Every entry has come to a good or a bad end, and a refused one is counted once more. -/
structure Counters.Balanced (st : Counters) : Prop where
  total : st.procSuc + st.procFai = st.msgTotal
  refused : st.msgUnrec + st.msgBadparam ≤ st.procFai
  stats : st.msgStats ≤ st.procSuc

theorem Counters.balanced_zero : Counters.zero.Balanced := ⟨rfl, Nat.le_refl 0, Nat.le_refl 0⟩

/-- The counters while an entry is with its command: one entry is counted and has no end yet. -/
theorem settle_balanced {st : Counters} {ret : ℕ} (htotal : st.procSuc + st.procFai + 1 = st.msgTotal)
    (hrefused : st.msgUnrec + st.msgBadparam ≤ st.procFai) (hstats : st.msgStats ≤ st.procSuc) :
    (settle st ret).Balanced := by
  unfold settle
  cases hok : processOk ret with
  | true => exact ⟨by simp; omega, by simpa using hrefused, by simp; omega⟩
  | false =>
    refine ⟨by simp; omega, ?_, by simpa using hstats⟩
    simp only [Bool.false_eq_true, if_false]
    split <;> omega

theorem settle_unrec {st : Counters} (h : st.Balanced) :
    (settle { st with msgTotal := st.msgTotal + 1, msgUnrec := st.msgUnrec + 1 } (repCode .errUnkreq)).Balanced := by
  have hne : processOk (repCode .errUnkreq) = false := by decide
  have hbad : repCode .errUnkreq ≠ repErrBadparam := by decide
  have := h.total
  have := h.refused
  simp only [settle, hne, Bool.false_eq_true, if_false, if_neg hbad]
  exact ⟨by simp only; omega, by simp only; omega, h.stats⟩

theorem settle_stats {st : Counters} (h : st.Balanced) :
    (settle { st with msgTotal := st.msgTotal + 1, msgStats := st.msgStats + 1 } repOk).Balanced := by
  have hok : processOk repOk = true := by decide
  have := h.total
  have := h.stats
  simp only [settle, hok, if_true]
  exact ⟨by simp only; omega, h.refused, by simp only; omega⟩

@[simp] theorem settle_msgTotal (st : Counters) (ret : ℕ) : (settle st ret).msgTotal = st.msgTotal := by
  unfold settle
  split <;> rfl

/-- The three branches of the `switch`, each with its end. -/
theorem dispatch_spec {p : Plugin E} {e d : Driver E} {q : QueueEntry} {err : List Link} {hdfsnd : Dataset}
    (h : dispatch p { e with st := { e.st with msgTotal := e.st.msgTotal + 1 } } q = .ok (d, err, hdfsnd)) :
    d.st.msgTotal = e.st.msgTotal + 1 ∧
      (e.st.Balanced → (settle d.st ((mcsErrValid err).getD repOk)).Balanced) := by
  unfold dispatch at h
  split at h
  · obtain ⟨rfl, rfl, rfl⟩ := by simpa using h
    exact ⟨rfl, settle_stats⟩
  · split at h
    · obtain ⟨r, -, h⟩ := bind_eq_ok_iff.mp h
      obtain ⟨rfl, rfl, rfl⟩ := by simpa [pure, Except.pure] using h
      exact ⟨rfl, fun hb => settle_balanced (congrArg (· + 1) hb.total) hb.refused hb.stats⟩
    · obtain ⟨rfl, rfl, rfl⟩ := by simpa using h
      exact ⟨rfl, settle_unrec⟩

/-- What `process_driver` does, whatever the command: it counts the entry once, keeps the counters
balanced, and replies exactly to those who wait for it. -/
theorem processDriver_spec {p : Plugin E} {calloc : Bool} {e e' : Driver E} {q : QueueEntry}
    {r : Option Replied} (h : processDriver p calloc e q = .ok (e', r)) :
    e'.st.msgTotal = e.st.msgTotal + 1 ∧ (e.st.Balanced → e'.st.Balanced) ∧ r.isSome = q.req.sync := by
  obtain ⟨⟨d, err, hdfsnd⟩, hdispatch, h⟩ := bind_eq_ok_iff.mp h
  obtain ⟨rfl, rfl⟩ := Prod.mk.inj (Except.ok.inj h)
  obtain ⟨htotal, hbalanced⟩ := dispatch_spec hdispatch
  refine ⟨?_, hbalanced, by split <;> simp_all⟩
  rw [← htotal]
  exact settle_msgTotal d.st _

end Cmoon.ProcessDrivers
