import Cmoon.CommentPages
import Cmoon.EntryOrigins
import Cmoon.ExactCounters
import Cmoon.PacketWriting
import Cmoon.PartialRuns
import Cmoon.StatementTexts

/-! # How old a page of comments may be

The pages of `CMT_GET` stay in the cache for `CMT_CC_SEC` seconds. A comment that is added has only the first page of
its own object dropped there, and one that is deleted has none. Here the cache is the one of `cache.c`, the table
changes, and the clock goes on. -/
namespace Cmoon.CommentAges
open DecimalText Datasets ByteBuffers StatementBuilding StatementTexts MemberTables CacheKeys CacheOperations
  CacheLifetimes EntryOrigins EventDaemon PacketWriting PartialRuns
open MemoryReads (AuxErr)
open PlanReads (reqGetParamInt)
open CommentPages (Cmts CmtReply CmtRequested selectCmts)

def cmtCcSec : ℤ := 60

def insertColComment : List ColumnSpec :=
  [intCol "type" true, intCol "oid" true, intCol "pid" false, strCol "ip" 64 false, strCol "addr" 256 false,
    strCol "author" 64 false, strCol "contact" 256 false, ⟨"content", "content", .str, none, true⟩]

/-- The defaults of `CREATE TABLE comment`, with the number of the row and its time. -/
def cmtNew (id : ℤ) (intime : Bytes) : Row := fun col =>
  if col = "id" then .int id
  else if col ∈ ["type", "statu", "oid", "pid"] then .int 0
  else if col ∈ ["intime", "uptime"] then .text intime
  else .text []

def cmtStDel : ℤ := 1

/-- `UPDATE comment SET statu=%d WHERE id=%d`, with what the trigger does to `uptime`. -/
def cmtUpdate (id : ℤ) (today : Bytes) (row : Row) : Row :=
  if row "id" = .int id then row.assign [("statu", .int cmtStDel), ("uptime", .str today none)] else row

/-- `PREFIX_COMMENT"%d:%d_0"` -/
def objText (type oid : ℤ) : Bytes := ascii "Comment" ++ printInt type ++ 58 :: printInt oid ++ ascii "_0"

inductive CmtCmd where
  | cmtGet | cmtAdd | cmtDel
  deriving DecidableEq

/-- A request, the seconds since the one before it, and what it meets: whether the server takes a statement, the
number and the time of a new row, what `malloc` gives to `cache_set`, and the stack behind the key of `cache_delf`.
Which entries are gone is for the cache to say. -/
structure Turn where
  operation : CmtCmd
  request : CmtRequested
  passed : ℕ
  accepts : Assignments → Bool
  id : ℤ
  today : Bytes
  mallocs : SetMallocs
  delStack : ℕ → UInt8

/-- The comments from the newest on; `clock` is `g_ctime`. -/
structure CmtPlugin where
  clock : ℤ
  comment : List Row
  cd : Cache

section Commands
-- `neos_html_escape`, `hdf_write_string` and `hdf_read_string`
variable (escape : Bytes → Bytes) (write : Cmts → Option CString) (read : Bytes → Cmts)

/-- `aux_cmd_cmtget`; `malloc` gives no address that is in use. -/
def auxCmdCmtget (s : CmtPlugin) (q : Turn) : Option (CmtReply × CmtPlugin) :=
  match q.request.asked with
  | .error err => some (.error err, s)
  | .ok a => do
    let (cd, val) ← cacheGet s.cd s.clock (formattedKey q.request.met.getStack a.text)
    match val with
    | some val => return (.ok (← unpack read val), { s with cd := cd })
    | none =>
      match selectCmts escape s.comment q.request.met a with
      | .error err => return (.error err, { s with cd := cd })
      | .ok r =>
        if q.mallocs.entry.all fun new => (cd.heap new).isNone then
          let (cd, _) ← cacheSet cd s.clock (formattedKey q.request.met.setStack a.text) (pack write r) cmtCcSec q.mallocs
          return (.ok r, { s with cd := cd })
        else none

/-- The object and the columns of the comment that a request inserts. -/
def Turn.inserts (q : Turn) : Except AuxErr (ℤ × ℤ × Assignments) :=
  match reqGetParamInt q.request.hdfrcv "type" with
  | .error err => .error (.rep err)
  | .ok type =>
    match reqGetParamInt q.request.hdfrcv "oid" with
    | .error err => .error (.rep err)
    | .ok oid =>
      match mdbBuildIncol q.request.hdfrcv insertColComment with
      | .error err => .error (.rep (.build err))
      | .ok cols => if q.accepts cols then .ok (type, oid, cols) else .error (.rep .db)

def auxCmdCmtadd (s : CmtPlugin) (q : Turn) : Option (Except AuxErr Unit × CmtPlugin) :=
  match q.inserts with
  | .error err => some (.error err, s)
  | .ok (type, oid, cols) => do
    let (cd, _) ← cacheDel s.cd (formattedKey q.delStack (objText type oid))
    return (.ok (), { s with comment := (cmtNew q.id q.today).assign cols :: s.comment, cd := cd })

def auxCmdCmtdel (s : CmtPlugin) (q : Turn) : Except AuxErr Unit × CmtPlugin :=
  match reqGetParamInt q.request.hdfrcv "id" with
  | .error err => (.error (.rep err), s)
  | .ok id =>
    if q.request.met.queries then (.ok (), { s with comment := s.comment.map (cmtUpdate id q.today) })
    else (.error (.rep .db), s)

def CmtPlugin.at (s : CmtPlugin) (q : Turn) : CmtPlugin := { s with clock := s.clock + q.passed }

/-- `aux_process_driver`, with the state alone; there is none where a read leaves the memory of the plugin. -/
def step (s : CmtPlugin) (q : Turn) : Option CmtPlugin :=
  match q.operation with
  | .cmtGet => (auxCmdCmtget escape write read (s.at q) q).map Prod.snd
  | .cmtAdd => (auxCmdCmtadd (s.at q) q).map Prod.snd
  | .cmtDel => some (auxCmdCmtdel (s.at q) q).2

/-- After the requests `es` a request has put the reply together for a key, from the table of that time. -/
def Fetches (s₀ : CmtPlugin) (es : List Turn) (q : Turn) (t : ℤ) (key : Bytes) (r : Cmts) : Prop :=
  ∃ s a, run (step escape write read) s₀ es = some s ∧ t = s.clock + q.passed ∧ q.operation = .cmtGet ∧
    q.request.asked = .ok a ∧ key = formattedKey q.request.met.setStack a.text ∧
    selectCmts escape s.comment q.request.met a = .ok r

def Turn.Drops (q : Turn) (key : Bytes) : Prop :=
  q.operation = .cmtAdd ∧ ∃ type oid cols, q.inserts = .ok (type, oid, cols) ∧
    formattedKey q.delStack (objText type oid) = key

/-- The value was put together by one of the requests `es`, and nothing has dropped it since. -/
def Young (s₀ : CmtPlugin) (es : List Turn) (clock : ℤ) (key : Bytes) (e : Entry) : Prop :=
  0 < e.expire ∧ ∃ es₁ q es₂ t r, es = es₁ ++ q :: es₂ ∧ Fetches escape write read s₀ es₁ q t key r ∧
    e.val = pack write r ∧ t ≤ clock ∧ e.expire ≤ t + cmtCcSec ∧ ∀ q' ∈ es₂, ¬ q'.Drops key

/-- A reply is the page in the table, or the one that an earlier request for the same key has found in the table of its
own time, no more than a minute ago; and no comment has been added since to the object whose first page the key is
for. -/
def Recent (s₀ : CmtPlugin) (es : List Turn) (s : CmtPlugin) (q : Turn) (a : CommentPages.Asked) (r : Cmts) : Prop :=
  selectCmts escape s.comment q.request.met a = .ok r ∨
    ∃ es₁ q₀ es₂ t r₀ p, es = es₁ ++ q₀ :: es₂ ∧
      Fetches escape write read s₀ es₁ q₀ t (formattedKey q.request.met.getStack a.text) r₀ ∧
      write r₀ = some p ∧ r = read (kept p).bytes ∧ t ≤ s.clock + q.passed ∧ s.clock + q.passed ≤ t + cmtCcSec ∧
      ∀ q' ∈ es₂, q'.operation = .cmtAdd → ∀ type oid cols, q'.inserts = .ok (type, oid, cols) →
        a.text ≠ objText type oid

end Commands

section Run
variable {escape : Bytes → Bytes} {write : Cmts → Option CString} {read : Bytes → Cmts} {s₀ s s' : CmtPlugin}
  {es : List Turn} {q : Turn} {clock : ℤ} {key : Bytes} {e : Entry}

theorem Young.later (h : Young escape write read s₀ es clock key e) (hq : ¬ q.Drops key) (n : ℕ) :
    Young escape write read s₀ (es ++ [q]) (clock + n) key e := by
  obtain ⟨hpos, es₁, q₀, es₂, t, r, rfl, hfetch, hval, ht, hexpire, hdrops⟩ := h
  refine ⟨hpos, es₁, q₀, es₂ ++ [q], t, r, by simp, hfetch, hval, by omega, hexpire, ?_⟩
  intro q' hq'
  rcases List.mem_append.mp hq' with hin | hlast
  · exact hdrops q' hin
  · exact List.mem_singleton.mp hlast ▸ hq

/-- What the plugin keeps: each entry is young, and the clock shows no time before its first. -/
def Kept (escape : Bytes → Bytes) (write : Cmts → Option CString) (read : Bytes → Cmts) (s₀ : CmtPlugin)
    (es : List Turn) (s : CmtPlugin) : Prop :=
  Holding (Young escape write read s₀ es s.clock) s.cd ∧ 0 ≤ s.clock

theorem Kept.later (h : Kept escape write read s₀ es s) (hq : q.operation ≠ .cmtAdd) :
    Holding (Young escape write read s₀ (es ++ [q]) (s.clock + q.passed)) s.cd :=
  h.1.imp fun _ _ he => he.later (fun hd => hq hd.1) q.passed

theorem kept_cmtget (hrun : run (step escape write read) s₀ es = some s) (h : Kept escape write read s₀ es s)
    (hop : q.operation = .cmtGet) (hstep : (auxCmdCmtget escape write read (s.at q) q).map Prod.snd = some s') :
    Kept escape write read s₀ (es ++ [q]) s' := by
  have hadd : q.operation ≠ .cmtAdd := by rw [hop]; decide
  have hclock : 0 ≤ s.clock + q.passed := by have := h.2; omega
  have hlater := h.later hadd
  obtain ⟨⟨reply, s''⟩, hget, hsnd⟩ := Option.map_eq_some_iff.mp hstep
  obtain rfl : s'' = s' := hsnd
  unfold auxCmdCmtget at hget
  cases ha : q.request.asked with
  | error err =>
    simp only [ha, Option.some.injEq, Prod.mk.injEq] at hget
    obtain ⟨-, rfl⟩ := hget
    exact ⟨hlater, hclock⟩
  | ok a =>
    obtain ⟨cd, val, hcache, hholding, -, -⟩ :=
      hlater.get (s.clock + q.passed) (formattedKey q.request.met.getStack a.text)
    simp only [ha, CmtPlugin.at, hcache, Option.bind_eq_bind, Option.bind_some] at hget
    cases val with
    | some val =>
      obtain ⟨r, -, hr⟩ := Option.bind_eq_some_iff.mp hget
      obtain ⟨-, rfl⟩ := Prod.mk.inj (Option.some.inj hr)
      exact ⟨hholding, hclock⟩
    | none =>
      cases hselect : selectCmts escape s.comment q.request.met a with
      | error err =>
        simp only [hselect] at hget
        obtain ⟨-, rfl⟩ := Prod.mk.inj (Option.some.inj hget)
        exact ⟨hholding, hclock⟩
      | ok r =>
        simp only [hselect] at hget
        split at hget
        · next hfree =>
          have hfresh : (Op.set (formattedKey q.request.met.setStack a.text) (pack write r) cmtCcSec q.mallocs).Fresh
              cd := by
            intro new hnew
            rw [hnew, Option.all_some, Option.isNone_iff_eq_none] at hfree
            exact hfree
          have hfetches : Fetches escape write read s₀ es q (s.clock + q.passed)
              (formattedKey q.request.met.setStack a.text) r := ⟨s, a, hrun, rfl, hop, ha, rfl, hselect⟩
          have hnew : ∀ expire, 0 < expire → expire ≤ s.clock + q.passed + cmtCcSec →
              Young escape write read s₀ (es ++ [q]) (s.clock + q.passed) (formattedKey q.request.met.setStack a.text)
                ⟨formattedKey q.request.met.setStack a.text, pack write r, expire⟩ :=
            fun expire hpos hle => ⟨hpos, es, q, [], _, r, rfl, hfetches, rfl, le_refl _, hle, by simp⟩
          have hexpiry : expiry (s.clock + q.passed) cmtCcSec = s.clock + q.passed + cmtCcSec := if_neg (by decide)
          have hcc : (0 : ℤ) < cmtCcSec := by decide
          -- where the value takes the place of another, it keeps the time of that one
          obtain ⟨cd', rv, hset, hholding'⟩ := hholding.set hfresh (hnew _ (by omega) hexpiry.le)
            (fun e he => by
              obtain ⟨hpos, -, -, -, t, -, -, -, -, ht, hexpire, -⟩ := he
              exact ⟨hpos, es, q, [], _, r, rfl, hfetches, rfl, le_refl _, by show e.expire ≤ _; omega, by simp⟩)
            fun _ _ he => he
          rw [hset] at hget
          obtain ⟨-, rfl⟩ := Prod.mk.inj (Option.some.inj hget)
          exact ⟨hholding', hclock⟩
        · cases hget

theorem kept_cmtadd (h : Kept escape write read s₀ es s)
    (hstep : (auxCmdCmtadd (s.at q) q).map Prod.snd = some s') : Kept escape write read s₀ (es ++ [q]) s' := by
  have hclock : 0 ≤ s.clock + q.passed := by have := h.2; omega
  obtain ⟨⟨reply, s''⟩, hadd, hsnd⟩ := Option.map_eq_some_iff.mp hstep
  obtain rfl : s'' = s' := hsnd
  unfold auxCmdCmtadd at hadd
  cases hins : q.inserts with
  | error err =>
    simp only [hins, Option.some.injEq, Prod.mk.injEq] at hadd
    obtain ⟨-, rfl⟩ := hadd
    refine ⟨h.1.imp fun _ _ he => he.later ?_ q.passed, hclock⟩
    rintro ⟨-, type, oid, cols, hok, -⟩
    cases hins.symm.trans hok
  | ok r =>
    obtain ⟨type, oid, cols⟩ := r
    obtain ⟨cd, rv, hdel, hholding⟩ := h.1.del (formattedKey q.delStack (objText type oid))
    simp only [hins, CmtPlugin.at, hdel, Option.bind_eq_bind, Option.bind_some] at hadd
    obtain ⟨-, rfl⟩ := Prod.mk.inj (Option.some.inj hadd)
    refine ⟨hholding.imp fun key e he => he.1.later ?_ q.passed, hclock⟩
    rintro ⟨-, type', oid', cols', hok, hkey⟩
    obtain ⟨rfl, rfl, -⟩ : type = type' ∧ oid = oid' ∧ cols = cols' := by simpa using hins.symm.trans hok
    exact he.2 hkey.symm

theorem kept_cmtdel (h : Kept escape write read s₀ es s) (hop : q.operation = .cmtDel) :
    Kept escape write read s₀ (es ++ [q]) (auxCmdCmtdel (s.at q) q).2 := by
  have hclock : 0 ≤ s.clock + q.passed := by have := h.2; omega
  have hlater := h.later (q := q) (by rw [hop]; decide)
  unfold auxCmdCmtdel
  split
  · exact ⟨hlater, hclock⟩
  · split
    · exact ⟨hlater, hclock⟩
    · exact ⟨hlater, hclock⟩

theorem kept_step (hrun : run (step escape write read) s₀ es = some s) (h : Kept escape write read s₀ es s)
    (hstep : step escape write read s q = some s') : Kept escape write read s₀ (es ++ [q]) s' := by
  unfold step at hstep
  cases hop : q.operation with
  | cmtGet =>
    simp only [hop] at hstep
    exact kept_cmtget hrun h hop hstep
  | cmtAdd =>
    simp only [hop] at hstep
    exact kept_cmtadd h hstep
  | cmtDel =>
    simp only [hop] at hstep
    exact Option.some.inj hstep ▸ kept_cmtdel h hop

theorem inInt64_param {hdf : Datasets.Dataset} {name : String} {x : ℤ} (h : reqGetParamInt hdf name = .ok x) :
    ExactCounters.InInt64 x := by
  have hwrap : ∀ y : ℤ, ExactCounters.InInt64 (wrap 32 y) := fun y => by
    have hle := Int.le_bmod (x := y) (m := 2 ^ 32) (by decide)
    have hlt := Int.bmod_lt (x := y) (m := 2 ^ 32) (by decide)
    unfold ExactCounters.InInt64 wrap
    omega
  unfold reqGetParamInt hdfGetIntValue at h
  split at h
  · obtain rfl := Except.ok.inj h
    split
    · exact ⟨by decide, by decide⟩
    · exact hwrap _
  · cases h

theorem inserts_ok {type oid : ℤ} {cols : Assignments} (h : q.inserts = .ok (type, oid, cols)) :
    ExactCounters.InInt64 type ∧ ExactCounters.InInt64 oid := by
  unfold Turn.inserts at h
  split at h
  · cases h
  · next htype =>
    split at h
    · cases h
    · next hoid =>
      split at h
      · cases h
      · split at h
        · obtain ⟨rfl, rfl, -⟩ := by simpa using h
          exact ⟨inInt64_param htype, inInt64_param hoid⟩
        · cases h

/-- The key that `CMT_ADD` drops is never cut. -/
theorem objText_short {type oid : ℤ} (htype : ExactCounters.InInt64 type) (hoid : ExactCounters.InInt64 oid) :
    (objText type oid).length < maxCachekeyLen := by
  have h₁ := ExactCounters.length_printInt_le htype
  have h₂ := ExactCounters.length_printInt_le hoid
  have hcomment : (ascii "Comment").length = 7 := rfl
  have hend : (ascii "_0").length = 2 := rfl
  simp only [objText, List.length_append, List.length_cons, hcomment, hend, maxCachekeyLen]
  omega

/-- The command on pages of comments gives the same reply, where its cache has the reply that the cached value is
unpacked to. -/
theorem auxCmdCmtget_eq_pages {kept : Cmts → Cmts} {cd : LapsingCaches.Store Bytes Cmts} {cd' : Cache} {val : Option Bytes}
    {a : CommentPages.Asked} {reply : CmtReply} (ha : q.request.asked = .ok a)
    (hcache : cacheGet s.cd s.clock (formattedKey q.request.met.getStack a.text) = some (cd', val))
    (hcd : cd (formattedKey q.request.met.getStack a.text) = val.bind (unpack read))
    (hget : auxCmdCmtget escape write read s q = some (reply, s')) :
    reply = (CommentPages.auxCmdCmtget escape kept s.comment cd q.request).1 := by
  unfold auxCmdCmtget at hget
  simp only [ha, hcache, Option.bind_eq_bind, Option.bind_some] at hget
  rw [CommentPages.auxCmdCmtget, ha]
  dsimp only
  rw [LapsingCaches.readThrough_fst, hcd]
  cases val with
  | some val =>
    obtain ⟨r, hunpack, hr⟩ := Option.bind_eq_some_iff.mp hget
    rw [← (Prod.mk.inj (Option.some.inj hr)).1, Option.bind_some, hunpack]
  | none =>
    dsimp only [Option.bind_none]
    cases hselect : selectCmts escape s.comment q.request.met a with
    | error err =>
      simp only [hselect] at hget
      exact (Prod.mk.inj (Option.some.inj hget)).1.symm
    | ok r =>
      simp only [hselect] at hget
      split at hget
      · obtain ⟨x, -, hx⟩ := Option.bind_eq_some_iff.mp hget
        exact (Prod.mk.inj (Option.some.inj hx)).1.symm
      · cases hget

/-- In every run of the plugin, however the cache evicts and the server fails, the replies of `CMT_GET` are recent. -/
theorem cmtget_recent {numobjs : ℕ} (hn : 4 ≤ numobjs) {cd : Cache}
    (hcreate : cacheCreate numobjs true true = some (some cd)) (hclock : 0 ≤ clock) {comment : List Row}
    (hrun : run (step escape write read) ⟨clock, comment, cd⟩ es = some s) {a : CommentPages.Asked} {r : Cmts}
    (ha : q.request.asked = .ok a) (hget : auxCmdCmtget escape write read (s.at q) q = some (.ok r, s')) :
    Recent escape write read ⟨clock, comment, cd⟩ es s q a r := by
  have hkept : Kept escape write read ⟨clock, comment, cd⟩ es s :=
    run_history ⟨holding_new hn hcreate, hclock⟩ (fun _ _ _ _ hrun h hstep => kept_step hrun h hstep) hrun
  obtain ⟨cd', val, hcache, -, hhit, -⟩ :=
    hkept.1.get (s.clock + q.passed) (formattedKey q.request.met.getStack a.text)
  unfold auxCmdCmtget at hget
  simp only [ha, CmtPlugin.at, hcache, Option.bind_eq_bind, Option.bind_some] at hget
  cases val with
  | none =>
    left
    cases hselect : selectCmts escape s.comment q.request.met a with
    | error err =>
      simp only [hselect] at hget
      cases (Prod.mk.inj (Option.some.inj hget)).1
    | ok r' =>
      simp only [hselect] at hget
      split at hget
      · obtain ⟨x, -, hx⟩ := Option.bind_eq_some_iff.mp hget
        exact (Prod.mk.inj (Option.some.inj hx)).1
      · cases hget
  | some val =>
    right
    obtain ⟨r', hunpack, hr'⟩ := Option.bind_eq_some_iff.mp hget
    obtain rfl : r' = r := Except.ok.inj (Prod.mk.inj (Option.some.inj hr')).1
    obtain ⟨e, ⟨hpos, es₁, q₀, es₂, t, r₀, hes, hfetches, hval, ht, hexpire, hdrops⟩, rfl, hx⟩ := hhit val rfl
    rw [hval] at hunpack
    obtain ⟨p, hwrite, hread⟩ := unpack_pack hunpack
    have hfresh : s.clock + q.passed ≤ e.expire := by
      simp only [expired, hpos, decide_true, Bool.true_and, decide_eq_false_iff_not, not_lt] at hx
      exact hx
    refine ⟨es₁, q₀, es₂, t, r₀, p, hes, hfetches, hwrite, hread, by omega, by omega, ?_⟩
    intro q' hq' hadd type oid cols hins htext
    obtain ⟨htype, hoid⟩ := inserts_ok hins
    have hshort := objText_short htype hoid
    refine hdrops q' hq' ⟨hadd, type, oid, cols, hins, ?_⟩
    rw [formattedKey_short hshort, htext, formattedKey_short hshort]

end Run

def smallCache : Cache := ⟨4, 1, 4, [⟨0, none, none⟩], fun _ => none⟩

/-- A request for the comments on the memories 1 and 2, made `passed` seconds after the one before it. -/
def asks (passed : ℕ) : Turn :=
  ⟨.cmtGet, CommentPages.asks [49], passed, fun _ => true, 0, [], ⟨some 0, true, true⟩, fun _ => 0⟩

def adds : Turn :=
  ⟨.cmtAdd, ⟨[("type", some [48]), ("oid", some [49]), ("content", some [33])], CommentPages.fair⟩, 0, fun _ => true, 1,
    [], ⟨none, false, false⟩, fun _ => 0⟩

def noComments : CString :=
  ⟨ascii "_npp = 1\n_npg = 1\n_nst = 0\n0 \x7b\n  1 \x7b\n    _ntt = 0\n  \x7d\n  2 \x7b\n    _ntt = 0\n  \x7d\n\x7d\n",
    by decide⟩

def readNoComments (_ : Bytes) : Cmts := ⟨⟨1, 0, 1⟩, fun obj => if obj.1 = 0 then some 0 else none, fun _ => []⟩

def begin : CmtPlugin := ⟨0, [], smallCache⟩

/-- A minute after the comment the list of two objects is still shown without it. -/
theorem cmtget_recent_list :
    ∃ s s' r, run (step id (fun _ => some noComments) readNoComments) begin [asks 0, adds] = some s ∧
      auxCmdCmtget id (fun _ => some noComments) readNoComments (s.at (asks 60)) (asks 60) = some (.ok r, s') ∧
      s.comment.length = 1 ∧ r.cmts (0, 1) = [] ∧
      Recent id (fun _ => some noComments) readNoComments begin [asks 0, adds] s (asks 60)
        ⟨[48, 58, 49, 44, 48, 58, 50], ⟨1, 0, 1⟩⟩ r := by
  have hall : (run (step id (fun _ => some noComments) readNoComments) begin [asks 0, adds]).any (fun s =>
      s.comment.length = 1 &&
        (auxCmdCmtget id (fun _ => some noComments) readNoComments (s.at (asks 60)) (asks 60)).any fun x =>
          x.1.toOption.any fun r => r.cmts (0, 1) = []) = true := by decide +kernel
  obtain ⟨s, hrun, hs⟩ := (Option.any_eq_true _ _).mp hall
  obtain ⟨hlen, hget⟩ := by simpa only [Bool.and_eq_true, decide_eq_true_eq] using hs
  obtain ⟨⟨reply, s'⟩, hget, hreply⟩ := (Option.any_eq_true _ _).mp hget
  obtain ⟨r, hr, hnone⟩ := (Option.any_eq_true _ _).mp hreply
  cases reply with
  | error err => cases hr
  | ok r' =>
    obtain rfl : r' = r := Option.some.inj hr
    exact ⟨s, s', r', hrun, hget, hlen, of_decide_eq_true hnone,
      cmtget_recent (le_refl 4) rfl le_rfl hrun rfl hget⟩

end Cmoon.CommentAges
