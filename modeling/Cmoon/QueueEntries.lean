import Cmoon.BlockMemory
import Cmoon.EventDaemon
import Cmoon.ExceptResults

/-! # Queue entries in memory (`make_queue_long_entry` of `parse.c`, `queue.c`)

An entry owns copies of the name, the request and the address of the client, and both datasets. When there is no memory
for one of them, `queue_entry_free` is called on what is there. `queue_entry_create` sets all fields but the request. -/
namespace Cmoon.QueueEntries
open DecimalText BlockMemory ExceptResults

/-- What leaves the behaviour of C: a field is read that was never set, or a block is used that is not there. -/
inductive Fault where
  | unset
  | dead
  deriving DecidableEq, Repr

/-- `struct queue_entry`; a field that was never set is none. -/
structure Entry where
  operation : Option ℕ
  req : Option (Option ℕ)
  ename : Option (Option ℕ)
  esize : Option ℕ
  hdfrcv : Option (Option ℕ)
  hdfsnd : Option (Option ℕ)
  prev : Option (Option ℕ)
  deriving DecidableEq, Repr

/-- `struct req_info` without its functions -/
structure Req where
  fd : ℤ
  type : EventDaemon.ReqType
  clisa : Option ℕ
  clilen : ℕ
  id : Bytes
  cmd : ℕ
  flags : ℕ
  payload : Option ℕ
  psize : ℕ
  deriving DecidableEq, Repr

inductive Block where
  | raw                 -- nothing is stored in it yet
  | entry (e : Entry)
  | req (r : Req)
  | bytes (b : Bytes)
  | hdf (text : Bytes)  -- a dataset, by the text it is read from
  deriving DecidableEq, Repr

/-- What the mallocs of a call give: for the entry, in `hdf_init`, for the name, the request, and the address. -/
structure Mallocs where
  entry : Bool
  hdfsnd : Bool
  ename : Bool
  req : Bool
  clisa : Bool
  deriving DecidableEq, Repr

/-- A call: the memory, the request with what is at `req->clisa`, what is at `ename` if it is not `NULL`, and the
dataset that was received. -/
structure Call where
  mem : Memory Block
  req : Req
  clisa : Bytes
  ename : Option Bytes
  esize : ℕ
  hdfrcv : Option ℕ
  clilen_le : req.clilen ≤ clisa.length
  esize_le : ∀ name, ename = some name → esize ≤ name.length
  hdfrcv_live : ∀ a, hdfrcv = some a → ∃ text, blockAt mem a = some (.hdf text)

def stored {α : Type} (field : Option α) : Except Fault α :=
  match field with
  | none => .error .unset
  | some x => .ok x

def live {α : Type} (r : Option α) : Except Fault α :=
  match r with
  | none => .error .dead
  | some x => .ok x

def entryAt (mem : Memory Block) (e : ℕ) : Except Fault Entry :=
  match blockAt mem e with
  | some (.entry ent) => .ok ent
  | _ => .error .dead

def reqAt (mem : Memory Block) (r : ℕ) : Except Fault Req :=
  match blockAt mem r with
  | some (.req rq) => .ok rq
  | _ => .error .dead

/-- `hdf_init`; without memory it leaves `NULL`. -/
def hdfInit (ok : Bool) (mem : Memory Block) : Option ℕ × Memory Block := malloc ok (.hdf []) mem

def hdfDestroy (mem : Memory Block) (hdf : Option ℕ) : Except Fault (Memory Block) := live (free mem hdf)

def queueEntryCreate (m : Mallocs) (mem : Memory Block) : Except Fault (Option ℕ × Memory Block) :=
  match malloc m.entry .raw mem with
  | (none, mem) => .ok (none, mem)
  | (some e, mem) => do
    let (hdfsnd, mem) := hdfInit m.hdfsnd mem
    let ent : Entry := ⟨some 0, none, some none, some 0, some none, some hdfsnd, some none⟩
    return (some e, ← live (store mem e (.entry ent)))

/-- `if (e->req) { free(e->req->clisa); free(e->req); }` -/
def freeReq (mem : Memory Block) : Option ℕ → Except Fault (Memory Block)
  | none => .ok mem
  | some r => do
    let rq ← reqAt mem r
    let mem ← live (free mem rq.clisa)
    live (free mem (some r))

def queueEntryFree (mem : Memory Block) (e : ℕ) : Except Fault (Memory Block) := do
  let ent ← entryAt mem e
  let mem ← freeReq mem (← stored ent.req)
  let mem ← live (free mem (← stored ent.ename))
  let mem ← hdfDestroy mem (← stored ent.hdfrcv)
  let mem ← hdfDestroy mem (← stored ent.hdfsnd)
  live (free mem (some e))

/-- `queue_entry_free(e); return NULL;` -/
def giveUp (mem : Memory Block) (e : ℕ) : Except Fault (Option ℕ × Memory Block) := do
  return (none, ← queueEntryFree mem e)

def copyClisa (m : Mallocs) (c : Call) (mem : Memory Block) (e r : ℕ) : Except Fault (Option ℕ × Memory Block) := do
  match malloc m.clisa .raw mem with
  | (none, mem) => giveUp (← live (store mem r (.req { c.req with clisa := none }))) e
  | (some s, mem) =>
    let mem ← live (store mem s (.bytes (c.clisa.take c.req.clilen)))
    return (some e, ← live (store mem r (.req { c.req with clisa := some s, payload := none, psize := 0 })))

/-- "Create a copy of req, including clisa", where `e->req` is set for the first time. -/
def copyReq (m : Mallocs) (c : Call) (mem : Memory Block) (e : ℕ) : Except Fault (Option ℕ × Memory Block) := do
  let ent ← entryAt mem e
  match malloc m.req (.req c.req) mem with
  | (none, mem) => giveUp (← live (store mem e (.entry { ent with req := some none }))) e
  | (some r, mem) => copyClisa m c (← live (store mem e (.entry { ent with req := some (some r) }))) e r

/-- What comes behind the copy of the name. -/
def fillEntry (m : Mallocs) (c : Call) (mem : Memory Block) (e : ℕ) (ecopy : Option ℕ) :
    Except Fault (Option ℕ × Memory Block) := do
  let ent ← entryAt mem e
  let ent := { ent with
    operation := some c.req.cmd, ename := some ecopy, esize := some c.esize, hdfrcv := some c.hdfrcv }
  copyReq m c (← live (store mem e (.entry ent))) e

def makeQueueLongEntry (m : Mallocs) (c : Call) : Except Fault (Option ℕ × Memory Block) := do
  match ← queueEntryCreate m c.mem with
  | (none, mem) => return (none, mem)
  | (some e, mem) =>
    match c.ename with
    | none => fillEntry m c mem e none
    | some name =>
      match malloc m.ename .raw mem with
      | (none, mem) => giveUp mem e
      | (some ecopy, mem) =>
        fillEntry m c (← live (store mem ecopy (.bytes (name.take c.esize)))) e (some ecopy)

/-- Where a name is given, the pointer is to its copy. -/
def Named (c : Call) (mem : Memory Block) : Option ℕ → Prop
  | none => c.ename = none
  | some a => ∃ name, c.ename = some name ∧ blockAt mem a = some (.bytes (name.take c.esize))

/-- The entry owns its copies, in blocks that were not there before, and the memory is otherwise as it was. -/
structure Built (c : Call) (mem : Memory Block) (e r s : ℕ) (ecopy hdfsnd : Option ℕ) : Prop where
  entry : blockAt mem e = some (.entry ⟨some c.req.cmd, some (some r), some ecopy, some c.esize, some c.hdfrcv,
    some hdfsnd, some none⟩)
  req : blockAt mem r = some (.req { c.req with clisa := some s, payload := none, psize := 0 })
  clisa : blockAt mem s = some (.bytes (c.clisa.take c.req.clilen))
  ename : Named c mem ecopy
  owned : Extends c.mem mem (s :: r :: (ecopy.toList ++ (hdfsnd.toList ++ [e])))

/-- What is left when an entry is freed: the blocks before the call but the received dataset. -/
def Released (c : Call) (mem : Memory Block) : Prop :=
  ∀ a, blockAt mem a = if c.hdfrcv = some a then none else blockAt c.mem a

/-- An entry is built, and can be freed again, or `NULL` is returned with the blocks that were there before; no field is
read that was never set. -/
def Complete (m : Mallocs) (c : Call) : Prop :=
  (∃ e mem, makeQueueLongEntry m c = .ok (some e, mem) ∧ (∃ r s ecopy hdfsnd, Built c mem e r s ecopy hdfsnd) ∧
    ∃ mem', queueEntryFree mem e = .ok mem' ∧ Released c mem') ∨
  ∃ mem, makeQueueLongEntry m c = .ok (none, mem) ∧ ∀ a, blockAt mem a = blockAt c.mem a

variable {m : Mallocs} {c : Call} {mem mem' : Memory Block} {e r s : ℕ} {ent : Entry} {rq : Req} {owned : List ℕ}
  {p clisa ecopy hdfsnd : Option ℕ} {name : Bytes}

@[simp] theorem stored_some {α : Type} (x : α) : stored (some x) = .ok x := rfl

@[simp] theorem live_some {α : Type} (x : α) : live (some x) = .ok x := rfl

theorem live_bind {α β : Type} (x : Option α) (f : α → Option β) :
    live (x.bind f) = (live x >>= fun a => live (f a)) := by
  cases x <;> rfl

theorem live_store_bind {α : Type} {a : ℕ} (h : (blockAt mem a).isSome) (b : Block)
    (f : Memory Block → Except Fault α) : (live (store mem a b) >>= f) = f (mem.set a (some b)) := by
  rw [store_eq h, live_some, ok_bind]

theorem entryAt_eq (h : blockAt mem e = some (.entry ent)) : entryAt mem e = .ok ent := by rw [entryAt, h]

/-- The blocks that an entry points to, and it itself, in the order in which they are freed -/
def parts (p clisa ecopy hdfrcv hdfsnd : Option ℕ) (e : ℕ) : List ℕ :=
  clisa.toList ++ (p.toList ++ (ecopy.toList ++ (hdfrcv.toList ++ (hdfsnd.toList ++ [e]))))

/-- Where `p` points to a request, `clisa` is its address; where it is `NULL` there is none. -/
def ReqBlock (mem : Memory Block) (p clisa : Option ℕ) : Prop :=
  match p with
  | none => clisa = none
  | some r => ∃ rq, blockAt mem r = some (.req rq) ∧ rq.clisa = clisa

theorem freeReq_eq (h : ReqBlock mem p clisa) : freeReq mem p = live (freeAll mem (clisa.toList ++ p.toList)) := by
  cases p with
  | none =>
    obtain rfl : clisa = none := h
    rfl
  | some r =>
    obtain ⟨rq, hr, rfl⟩ := h
    simp only [freeAll_append, live_bind, ← free_eq_freeAll, freeReq, reqAt, hr]
    rfl

/-- `queue_entry_free` frees the parts of an entry, when all fields it reads are set. -/
theorem queueEntryFree_eq (hent : blockAt mem e = some (.entry ent)) (hreq : ent.req = some p)
    (hename : ent.ename = some ecopy) (hhdfrcv : ent.hdfrcv = some c.hdfrcv) (hhdfsnd : ent.hdfsnd = some hdfsnd)
    (hblock : ReqBlock mem p clisa) :
    queueEntryFree mem e = live (freeAll mem (parts p clisa ecopy c.hdfrcv hdfsnd e)) := by
  have hparts : parts p clisa ecopy c.hdfrcv hdfsnd e = (clisa.toList ++ p.toList) ++
      (ecopy.toList ++ (c.hdfrcv.toList ++ (hdfsnd.toList ++ (some e).toList))) := by
    simp only [parts, List.append_assoc, Option.toList_some]
  rw [hparts, freeAll_append, live_bind, ← freeReq_eq hblock]
  simp only [freeAll_append, live_bind, ← free_eq_freeAll, queueEntryFree, entryAt_eq hent, hreq, hename, hhdfrcv,
    hhdfsnd, hdfDestroy, ok_bind, stored_some]

theorem parts_perm (c : Call) (p clisa ecopy hdfsnd : Option ℕ) (e : ℕ) : (parts p clisa ecopy c.hdfrcv hdfsnd e).Perm
    (clisa.toList ++ (p.toList ++ (ecopy.toList ++ (hdfsnd.toList ++ [e]))) ++ c.hdfrcv.toList) := by
  rw [List.perm_iff_count]
  intro a
  simp only [parts, List.count_append]
  omega

/-- When an entry's parts are all that is owned, nothing is left of the call. -/
theorem queueEntryFree_released (hblock : ReqBlock mem p clisa)
    (h : Extends c.mem mem (clisa.toList ++ (p.toList ++ (ecopy.toList ++ (hdfsnd.toList ++ [e])))))
    (hent : blockAt mem e = some (.entry ent)) (hreq : ent.req = some p) (hename : ent.ename = some ecopy)
    (hhdfrcv : ent.hdfrcv = some c.hdfrcv) (hhdfsnd : ent.hdfsnd = some hdfsnd) :
    ∃ mem', queueEntryFree mem e = .ok mem' ∧ Released c mem' := by
  have hold : ∀ a ∈ c.hdfrcv.toList, (blockAt c.mem a).isSome := by
    intro a ha
    obtain ⟨text, htext⟩ := c.hdfrcv_live a (Option.mem_toList.mp ha)
    rw [htext]
    rfl
  have hnodup : c.hdfrcv.toList.Nodup := by cases c.hdfrcv <;> simp
  obtain ⟨mem', hfree, hblocks⟩ := h.freeAll (parts_perm c p clisa ecopy hdfsnd e) hold hnodup
  refine ⟨mem', ?_, fun a => ?_⟩
  · rw [queueEntryFree_eq hent hreq hename hhdfrcv hhdfsnd hblock, hfree, live_some]
  · rw [hblocks]
    simp only [Option.mem_toList]

/-- An entry in the making: its fields, and all that is owned. -/
structure Making (c : Call) (mem : Memory Block) (e : ℕ) (ent : Entry) (owned : List ℕ) : Prop where
  extends_mem : Extends c.mem mem owned
  entry : blockAt mem e = some (.entry ent)
  mem_owned : e ∈ owned

theorem Making.isSome (h : Making c mem e ent owned) : (blockAt mem e).isSome := h.extends_mem.isSome h.mem_owned

theorem Making.set_entry (h : Making c mem e ent owned) (ent' : Entry) :
    Making c (mem.set e (some (.entry ent'))) e ent' owned where
  extends_mem := h.extends_mem.set h.mem_owned _
  entry := blockAt_set_self h.isSome
  mem_owned := h.mem_owned

theorem Making.lt_length (h : Making c mem e ent owned) : e < mem.length := lt_of_blockAt h.isSome

theorem Making.malloc (h : Making c mem e ent owned) (b : Block) :
    Making c (mem ++ [some b]) e ent (mem.length :: owned) where
  extends_mem := h.extends_mem.malloc b
  entry := (blockAt_append_of_lt h.lt_length).trans h.entry
  mem_owned := List.mem_cons_of_mem _ h.mem_owned

theorem Making.set (h : Making c mem e ent owned) {a : ℕ} (ha : a ∈ owned) (hne : a ≠ e) (b : Block) :
    Making c (mem.set a (some b)) e ent owned where
  extends_mem := h.extends_mem.set ha b
  entry := (blockAt_set_of_ne (Ne.symm hne)).trans h.entry
  mem_owned := h.mem_owned

/-- The fields of an entry that `queue_entry_create` sets -/
def created (hdfsnd : Option ℕ) : Entry := ⟨some 0, none, some none, some 0, some none, some hdfsnd, some none⟩

theorem queueEntryCreate_eq (hm : m.entry = true) : ∃ mem hdfsnd,
    queueEntryCreate m c.mem = .ok (some c.mem.length, mem) ∧
      Making c mem c.mem.length (created hdfsnd) (hdfsnd.toList ++ [c.mem.length]) := by
  have hraw := (Extends.refl c.mem).malloc Block.raw
  cases hs : m.hdfsnd with
  | false =>
    have hsome : (blockAt (c.mem ++ [some Block.raw]) c.mem.length).isSome := hraw.isSome List.mem_cons_self
    refine ⟨_, none, ?_, hraw.set List.mem_cons_self (.entry (created none)), blockAt_set_self hsome,
      List.mem_cons_self⟩
    simp only [queueEntryCreate, malloc, hm, if_true, hdfInit, hs, Bool.false_eq_true, if_false, live_store_bind hsome]
    rfl
  | true =>
    have hboth := hraw.malloc (Block.hdf [])
    have hmem : c.mem.length ∈ (c.mem ++ [some Block.raw]).length :: [c.mem.length] :=
      List.mem_cons_of_mem _ List.mem_cons_self
    have hsome := hboth.isSome hmem
    refine ⟨_, some (c.mem ++ [some Block.raw]).length, ?_, hboth.set hmem (.entry (created _)),
      blockAt_set_self hsome, hmem⟩
    simp only [queueEntryCreate, malloc, hm, if_true, hdfInit, hs, live_store_bind hsome]
    rfl

/-- The fields of an entry that has its name, and perhaps its request -/
def filled (c : Call) (req : Option (Option ℕ)) (ecopy hdfsnd : Option ℕ) : Entry :=
  ⟨some c.req.cmd, req, some ecopy, some c.esize, some c.hdfrcv, some hdfsnd, some none⟩

theorem Named.malloc (h : Named c mem ecopy) (b : Block) : Named c (mem ++ [some b]) ecopy := by
  cases ecopy with
  | none => exact h
  | some a =>
    obtain ⟨name, hname, ha⟩ := h
    exact ⟨name, hname, (blockAt_append_of_lt (lt_of_blockAt (by rw [ha]; rfl))).trans ha⟩

theorem Named.set (h : Named c mem ecopy) {a : ℕ} (hne : ecopy ≠ some a) (x : Option Block) :
    Named c (mem.set a x) ecopy := by
  cases ecopy with
  | none => exact h
  | some b =>
    obtain ⟨name, hname, hb⟩ := h
    exact ⟨name, hname, (blockAt_set_of_ne fun hba => hne (congrArg some hba)).trans hb⟩

theorem Named.ne_length (h : Named c mem ecopy) : ecopy ≠ some mem.length := by
  rintro rfl
  obtain ⟨name, -, ha⟩ := h
  rw [blockAt_eq_none le_rfl] at ha
  cases ha

theorem Making.ecopy_ne (h : Making c mem e ent (ecopy.toList ++ (hdfsnd.toList ++ [e]))) : ecopy ≠ some e := by
  rintro rfl
  have hnodup := h.extends_mem.nodup
  simp at hnodup

theorem fillEntry_eq (h : Making c mem e (created hdfsnd) (ecopy.toList ++ (hdfsnd.toList ++ [e])))
    (hname : Named c mem ecopy) : ∃ mem', fillEntry m c mem e ecopy = copyReq m c mem' e ∧
      Making c mem' e (filled c none ecopy hdfsnd) (ecopy.toList ++ (hdfsnd.toList ++ [e])) ∧ Named c mem' ecopy := by
  refine ⟨_, ?_, h.set_entry (filled c none ecopy hdfsnd), hname.set h.ecopy_ne _⟩
  rw [fillEntry, entryAt_eq h.entry, ok_bind]
  exact live_store_bind h.isSome _ _

theorem copyReq_noReq (hm : m.req = false)
    (h : Making c mem e (filled c none ecopy hdfsnd) (ecopy.toList ++ (hdfsnd.toList ++ [e]))) :
    ∃ mem', copyReq m c mem e = .ok (none, mem') ∧ Released c mem' := by
  have hmaking := h.set_entry (filled c (some none) ecopy hdfsnd)
  have hblock : ReqBlock (mem.set e (some (.entry (filled c (some none) ecopy hdfsnd)))) none none := rfl
  obtain ⟨mem', hfree, hreleased⟩ :=
    queueEntryFree_released hblock hmaking.extends_mem hmaking.entry rfl rfl rfl rfl
  refine ⟨mem', ?_, hreleased⟩
  rw [copyReq, entryAt_eq h.entry, ok_bind]
  simp only [BlockMemory.malloc, hm, Bool.false_eq_true, if_false]
  change (live (store mem e (.entry (filled c (some none) ecopy hdfsnd))) >>= fun mem => giveUp mem e) = _
  rw [live_store_bind h.isSome, giveUp, hfree]
  rfl

theorem copyReq_copied (hm : m.req = true)
    (h : Making c mem e (filled c none ecopy hdfsnd) (ecopy.toList ++ (hdfsnd.toList ++ [e])))
    (hname : Named c mem ecopy) : ∃ mem', copyReq m c mem e = copyClisa m c mem' e mem.length ∧
      Making c mem' e (filled c (some (some mem.length)) ecopy hdfsnd)
        (mem.length :: (ecopy.toList ++ (hdfsnd.toList ++ [e]))) ∧ Named c mem' ecopy := by
  have hcopy := h.malloc (.req c.req)
  refine ⟨_, ?_, hcopy.set_entry (filled c (some (some mem.length)) ecopy hdfsnd),
    (hname.malloc (.req c.req)).set h.ecopy_ne _⟩
  rw [copyReq, entryAt_eq h.entry, ok_bind]
  simp only [BlockMemory.malloc, hm, if_true]
  exact live_store_bind hcopy.isSome _ _

/-- The request is neither the entry nor its name. -/
theorem Making.req_ne (h : Making c mem e ent (r :: (ecopy.toList ++ (hdfsnd.toList ++ [e])))) :
    r ≠ e ∧ ecopy ≠ some r := by
  have hnodup := (List.nodup_cons.mp h.extends_mem.nodup).1
  refine ⟨?_, ?_⟩
  · rintro rfl
    simp at hnodup
  · rintro rfl
    simp at hnodup

theorem copyClisa_noClisa (hm : m.clisa = false)
    (h : Making c mem e (filled c (some (some r)) ecopy hdfsnd) (r :: (ecopy.toList ++ (hdfsnd.toList ++ [e])))) :
    ∃ mem', copyClisa m c mem e r = .ok (none, mem') ∧ Released c mem' := by
  have hsome := h.extends_mem.isSome List.mem_cons_self
  have hmaking := h.set List.mem_cons_self h.req_ne.1 (.req { c.req with clisa := none })
  have hblock : ReqBlock (mem.set r (some (.req { c.req with clisa := none }))) (some r) none :=
    ⟨_, blockAt_set_self hsome, rfl⟩
  obtain ⟨mem', hfree, hreleased⟩ :=
    queueEntryFree_released hblock hmaking.extends_mem hmaking.entry rfl rfl rfl rfl
  refine ⟨mem', ?_, hreleased⟩
  simp only [copyClisa, BlockMemory.malloc, hm, Bool.false_eq_true, if_false, live_store_bind hsome, giveUp,
    hfree]
  rfl

theorem copyClisa_built (hm : m.clisa = true)
    (h : Making c mem e (filled c (some (some r)) ecopy hdfsnd) (r :: (ecopy.toList ++ (hdfsnd.toList ++ [e]))))
    (hname : Named c mem ecopy) :
    ∃ mem', copyClisa m c mem e r = .ok (some e, mem') ∧ Built c mem' e r mem.length ecopy hdfsnd := by
  have hs := h.malloc .raw
  have hse : mem.length ≠ e := h.lt_length.ne'
  have hsr : mem.length ≠ r := (lt_of_blockAt (h.extends_mem.isSome List.mem_cons_self)).ne'
  have hbytes := hs.set List.mem_cons_self hse (.bytes (c.clisa.take c.req.clilen))
  have hmem : r ∈ mem.length :: r :: (ecopy.toList ++ (hdfsnd.toList ++ [e])) :=
    List.mem_cons_of_mem _ List.mem_cons_self
  have hreq := hbytes.set hmem h.req_ne.1 (.req { c.req with clisa := some mem.length, payload := none, psize := 0 })
  have hbuilt : Built c _ e r mem.length ecopy hdfsnd := {
    entry := hreq.entry
    req := blockAt_set_self (hbytes.extends_mem.isSome hmem)
    clisa := (blockAt_set_of_ne hsr).trans (blockAt_set_self (hs.extends_mem.isSome List.mem_cons_self))
    ename := ((hname.malloc .raw).set hname.ne_length _).set h.req_ne.2 _
    owned := hreq.extends_mem }
  refine ⟨_, ?_, hbuilt⟩
  simp only [copyClisa, BlockMemory.malloc, hm, if_true, live_store_bind (hs.extends_mem.isSome List.mem_cons_self),
    live_store_bind (hbytes.extends_mem.isSome hmem)]
  rfl

theorem Built.free (h : Built c mem e r s ecopy hdfsnd) :
    ∃ mem', queueEntryFree mem e = .ok mem' ∧ Released c mem' := by
  have hblock : ReqBlock mem (some r) (some s) := ⟨_, h.req, rfl⟩
  exact queueEntryFree_released hblock h.owned h.entry rfl rfl rfl rfl

/-- From an entry with its name on, an entry is built, or all is freed, with the received dataset. -/
theorem copyReq_cases (h : Making c mem e (filled c none ecopy hdfsnd) (ecopy.toList ++ (hdfsnd.toList ++ [e])))
    (hname : Named c mem ecopy) :
    (m.req = true ∧ m.clisa = true ∧ ∃ mem' r s, copyReq m c mem e = .ok (some e, mem') ∧
      Built c mem' e r s ecopy hdfsnd) ∨
    ¬ (m.req = true ∧ m.clisa = true) ∧ ∃ mem', copyReq m c mem e = .ok (none, mem') ∧ Released c mem' := by
  cases hreq : m.req with
  | false => exact .inr ⟨nofun, copyReq_noReq hreq h⟩
  | true =>
    obtain ⟨mem', heq, hmaking, hname'⟩ := copyReq_copied hreq h hname
    rw [heq]
    cases hclisa : m.clisa with
    | false => exact .inr ⟨nofun, copyClisa_noClisa hclisa hmaking⟩
    | true =>
      obtain ⟨mem'', hok, hbuilt⟩ := copyClisa_built hclisa hmaking hname'
      exact .inl ⟨rfl, rfl, mem'', _, _, hok, hbuilt⟩

theorem makeQueueLongEntry_noEntry (hm : m.entry = false) : makeQueueLongEntry m c = .ok (none, c.mem) := by
  simp only [makeQueueLongEntry, queueEntryCreate, malloc, hm, Bool.false_eq_true, if_false, ok_bind]
  rfl

/-- Without memory for the name, the request of the entry is read, which was never set. -/
theorem makeQueueLongEntry_noName (hm : m.entry = true) (hname : c.ename = some name) (hm' : m.ename = false) :
    makeQueueLongEntry m c = .error .unset := by
  obtain ⟨mem, hdfsnd, hcreate, hmaking⟩ := queueEntryCreate_eq (c := c) hm
  have hfree : queueEntryFree mem c.mem.length = .error .unset := by
    rw [queueEntryFree, entryAt_eq hmaking.entry]
    rfl
  simp only [makeQueueLongEntry, hcreate, ok_bind, hname, malloc, hm', Bool.false_eq_true, if_false, giveUp, hfree]
  rfl

theorem makeQueueLongEntry_named (hm : m.entry = true) (hname : c.ename = none ∨ m.ename = true) :
    ∃ mem ecopy hdfsnd, makeQueueLongEntry m c = copyReq m c mem c.mem.length ∧
      Making c mem c.mem.length (filled c none ecopy hdfsnd) (ecopy.toList ++ (hdfsnd.toList ++ [c.mem.length])) ∧
      Named c mem ecopy := by
  obtain ⟨mem, hdfsnd, hcreate, hmaking⟩ := queueEntryCreate_eq (c := c) hm
  cases hgiven : c.ename with
  | none =>
    have hnamed : Named c mem none := hgiven
    obtain ⟨mem', hfill, hmaking', hname'⟩ := fillEntry_eq (m := m) hmaking hnamed
    refine ⟨mem', none, hdfsnd, ?_, hmaking', hname'⟩
    simp only [makeQueueLongEntry, hcreate, ok_bind, hgiven]
    exact hfill
  | some name =>
    have hm' : m.ename = true := hname.resolve_left (by rw [hgiven]; exact nofun)
    have hcopy := hmaking.malloc .raw
    have hbytes := hcopy.set List.mem_cons_self hmaking.lt_length.ne' (.bytes (name.take c.esize))
    have hsome := hcopy.extends_mem.isSome List.mem_cons_self
    have hnamed : Named c _ (some mem.length) := ⟨name, hgiven, blockAt_set_self hsome⟩
    obtain ⟨mem', hfill, hmaking', hname'⟩ := fillEntry_eq (m := m) hbytes hnamed
    refine ⟨mem', some mem.length, hdfsnd, ?_, hmaking', hname'⟩
    simp only [makeQueueLongEntry, hcreate, ok_bind, hgiven, malloc, hm', if_true, live_store_bind hsome]
    exact hfill

/-- The received dataset is freed as well, so that the blocks are as before only if there is none. -/
theorem Released.unchanged_iff (h : Released c mem) : (∀ a, blockAt mem a = blockAt c.mem a) ↔ c.hdfrcv = none := by
  constructor
  · intro hsame
    by_contra hrcv
    obtain ⟨a, ha⟩ := Option.ne_none_iff_exists'.mp hrcv
    obtain ⟨text, htext⟩ := c.hdfrcv_live a ha
    have hfreed := h a
    rw [hsame, htext, if_pos ha] at hfreed
    cases hfreed
  · intro hrcv a
    rw [h a, hrcv]
    rfl

/-- An entry is built or cleaned up completely exactly when there is no memory for the entry itself, or there is for the
name, and for the request and its address too when a dataset was received. -/
theorem complete_iff (m : Mallocs) (c : Call) : Complete m c ↔ m.entry = false ∨
    (c.ename = none ∨ m.ename = true) ∧ (c.hdfrcv = none ∨ m.req = true ∧ m.clisa = true) := by
  cases hm : m.entry with
  | false => exact iff_of_true (.inr ⟨_, makeQueueLongEntry_noEntry hm, fun _ => rfl⟩) (.inl rfl)
  | true =>
    rw [or_iff_right nofun]
    by_cases hname : c.ename = none ∨ m.ename = true
    · rw [and_iff_right hname]
      obtain ⟨mem, ecopy, hdfsnd, heq, hmaking, hnamed⟩ := makeQueueLongEntry_named hm hname
      obtain ⟨hreq, hclisa, mem', r, s, hok, hbuilt⟩ | ⟨hfails, mem', hok, hreleased⟩ := copyReq_cases hmaking hnamed
      · exact iff_of_true (.inl ⟨_, mem', heq.trans hok, ⟨r, s, _, _, hbuilt⟩, hbuilt.free⟩) (.inr ⟨hreq, hclisa⟩)
      · rw [or_iff_left hfails, ← hreleased.unchanged_iff]
        constructor
        · rintro (⟨e, mem'', hok', -⟩ | ⟨mem'', hok', hsame⟩)
          · rw [heq, hok] at hok'
            cases hok'
          · rw [heq, hok] at hok'
            cases hok'
            exact hsame
        · exact fun hsame => .inr ⟨mem', heq.trans hok, hsame⟩
    · rw [not_or] at hname
      obtain ⟨name, hgiven⟩ := Option.ne_none_iff_exists'.mp hname.1
      have hunset := makeQueueLongEntry_noName hm hgiven (Bool.eq_false_of_not_eq_true hname.2)
      refine iff_of_false ?_ fun h => h.1.elim hname.1 hname.2
      rintro (⟨e, mem, hok, -⟩ | ⟨mem, hok, -⟩) <;> rw [hunset] at hok <;> cases hok

def unnamed : Call where
  mem := []
  req := ⟨5, .tcp, some 0, 1, [0, 0, 0, 0], 1, 0, none, 0⟩
  clisa := [0]
  ename := some [97]
  esize := 1
  hdfrcv := none
  clilen_le := le_rfl
  esize_le := by rintro name ⟨⟩; exact le_rfl
  hdfrcv_live := nofun

theorem not_complete_unnamed : ¬ Complete ⟨true, true, false, true, true⟩ unnamed := by
  have hunset : makeQueueLongEntry ⟨true, true, false, true, true⟩ unnamed = .error .unset :=
    makeQueueLongEntry_noName rfl rfl rfl
  rintro (⟨e, mem, hok, -⟩ | ⟨mem, hok, -⟩) <;> rw [hunset] at hok <;> cases hok

def hdfText (mem : Memory Block) (hdf : Option ℕ) : Option Bytes :=
  match hdf.bind (blockAt mem) with
  | some (.hdf text) => some text
  | _ => none

def bytesAt (mem : Memory Block) (p : Option ℕ) : Option Bytes :=
  match p.bind (blockAt mem) with
  | some (.bytes b) => some b
  | _ => none

def reqInfo (rq : Req) (clisa : Bytes) : EventDaemon.ReqInfo := ⟨rq.fd, rq.type, clisa, rq.id, rq.cmd, rq.flags⟩

def entryOf (mem : Memory Block) (e : ℕ) : Option EventDaemon.QueueEntry :=
  match blockAt mem e with
  | some (.entry ⟨some op, some (some r), some ecopy, _, some hdfrcv, _, _⟩) =>
    match blockAt mem r with
    | some (.req rq) => do
      let name ← bytesAt mem ecopy
      return ⟨op, reqInfo rq (← bytesAt mem rq.clisa), name, hdfText mem hdfrcv⟩
    | _ => none
  | _ => none

theorem Built.entryOf (h : Built c mem e r s ecopy hdfsnd) (hgiven : c.ename = some name) :
    entryOf mem e = some ⟨c.req.cmd, reqInfo c.req (c.clisa.take c.req.clilen), name.take c.esize,
      hdfText c.mem c.hdfrcv⟩ := by
  have hcopy : bytesAt mem ecopy = some (name.take c.esize) := by
    cases ecopy with
    | none => exact absurd (hgiven.symm.trans h.ename) nofun
    | some a =>
      obtain ⟨name', hname', ha⟩ := h.ename
      obtain rfl := Option.some.inj (hgiven.symm.trans hname')
      rw [bytesAt, Option.bind_some, ha]
  have hclisa : bytesAt mem (some s) = some (c.clisa.take c.req.clilen) := by
    rw [bytesAt, Option.bind_some, h.clisa]
  have htext : hdfText mem c.hdfrcv = hdfText c.mem c.hdfrcv := by
    cases hrcv : c.hdfrcv with
    | none => rfl
    | some a =>
      obtain ⟨text, ha⟩ := c.hdfrcv_live a hrcv
      rw [hdfText, hdfText, Option.bind_some, Option.bind_some, h.owned.kept a (lt_of_blockAt (by rw [ha]; rfl))]
  rw [QueueEntries.entryOf, h.entry]
  simp only [h.req, hcopy, hclisa, htext]
  rfl

/-- In memory `make_queue_long_entry` does what the model of the daemon says, with a name and whatever memory there is
for the dataset of the reply. -/
theorem makeQueueLongEntry_refines (env : EventDaemon.Env) (hdfsnd : Bool) (hgiven : c.ename = some name) :
    EventDaemon.makeQueueLongEntry env (reqInfo c.req (c.clisa.take c.req.clilen)) (name.take c.esize)
      (hdfText c.mem c.hdfrcv) =
    match makeQueueLongEntry ⟨env.entry, hdfsnd, env.ename, env.req, env.clisa⟩ c with
    | .error _ => .error .unset
    | .ok (none, _) => .ok none
    | .ok (some e, mem) => .ok (entryOf mem e) := by
  cases hentry : env.entry with
  | false =>
    rw [makeQueueLongEntry_noEntry rfl, EventDaemon.makeQueueLongEntry, hentry]
    rfl
  | true =>
    cases hename : env.ename with
    | false =>
      rw [makeQueueLongEntry_noName rfl hgiven rfl, EventDaemon.makeQueueLongEntry, hentry, hename]
      rfl
    | true =>
      obtain ⟨mem, ecopy, snd, heq, hmaking, hnamed⟩ :=
        makeQueueLongEntry_named (m := ⟨true, hdfsnd, true, env.req, env.clisa⟩) (c := c) rfl (.inr rfl)
      rw [heq, EventDaemon.makeQueueLongEntry, hentry, hename]
      obtain ⟨hreq, hclisa, mem', r, s, hok, hbuilt⟩ | ⟨hfails, mem', hok, -⟩ := copyReq_cases hmaking hnamed
      · rw [hok]
        simp only [hbuilt.entryOf hgiven]
        rw [show env.req = true from hreq, show env.clisa = true from hclisa]
        rfl
      · rw [hok]
        cases hreq : env.req with
        | false => rfl
        | true =>
          cases hclisa : env.clisa with
          | false => rfl
          | true => exact absurd ⟨hreq, hclisa⟩ hfails

end Cmoon.QueueEntries
