import Cmoon.PlanReads

/-! # The cached memories

`MEMORY_GET` of a number shows the newest memory up to it that is not deleted, and caches it under the number that was
asked for. A memory that is changed has only the entry of its own number dropped, and one that is added drops none. -/
namespace Cmoon.MemoryReads
open DecimalText Datasets StatementBuilding MemberTables MemberPlugin LapsingCaches GuardedRuns
open PlanReads (reqGetParamInt stampNew stampUpdate)

def colMemory : List String :=
  ["id", "statu", "title", "hint", "content", "previd", "nextid", "intime", "uptime"]

def insertColMemory : List ColumnSpec :=
  [strCol "title" 256 true, strCol "hint" 256 false, ⟨"content", "content", .str, none, true⟩]
def updateColMemory : List ColumnSpec :=
  [strCol "title" 256 false, strCol "hint" 256 false, ⟨"content", "content", .str, none, false⟩, intCol "statu" false]

def memoryStOk : ℤ := 0

/-- The defaults of `CREATE TABLE memory`, with the number of the row. -/
def memoryNew (id : ℕ) : Row := fun col =>
  if col = "id" then .int id
  else if col ∈ ["statu", "previd", "nextid"] then .int 0
  else .text []

/-- The rows, and the last number that the sequence of `id` has given out. -/
structure MemoryTable where
  row : ℕ → Option Row
  last : ℕ
  outside : ∀ id, id = 0 ∨ last < id → row id = none
  fits : last < 2 ^ 31

/-- `UPDATE memory SET cols WHERE id=%d` -/
def MemoryTable.update (t : MemoryTable) (id : ℕ) (cols : Assignments) : MemoryTable where
  row := Function.update t.row id ((t.row id).map (·.assign cols))
  last := t.last
  fits := t.fits
  outside := by
    intro j hj
    by_cases h : j = id
    · subst h
      rw [Function.update_self, t.outside j hj]
      rfl
    · rw [Function.update_of_ne h, t.outside j hj]

/-- `INSERT INTO memory`: statements that were refused may have used up some numbers. -/
def MemoryTable.insert (t : MemoryTable) (skip : ℕ) (h : t.last + 1 + skip < 2 ^ 31) (cols : Assignments) :
    MemoryTable where
  row := Function.update t.row (t.last + 1 + skip) (some ((memoryNew (t.last + 1 + skip)).assign cols))
  last := t.last + 1 + skip
  fits := h
  outside := by
    intro j hj
    have hne : j ≠ t.last + 1 + skip := by omega
    rw [Function.update_of_ne hne]
    exact t.outside j (by omega)

def MemoryTable.visible (t : MemoryTable) (id : ℕ) : Option Row :=
  (t.row id).filter fun row => row "statu" = .int memoryStOk

/-- `id<=%d AND statu=%d ORDER BY id DESC LIMIT 1` -/
def MemoryTable.newest (t : MemoryTable) (k : ℕ) : Option Row :=
  t.visible (Nat.findGreatest (fun id => (t.visible id).isSome) k)

def memoryData (row : Row) : Dataset := mdbSetRow [] row colMemory

def MemoryTable.shown (t : MemoryTable) (k : ℕ) : Option Dataset := (t.newest k).map memoryData

section Table
variable {t t' : MemoryTable} {i j k : ℕ} {row : Row} {cols : Assignments}

theorem visible_zero (t : MemoryTable) : t.visible 0 = none := by
  rw [MemoryTable.visible, t.outside 0 (.inl rfl)]
  rfl

theorem newest_zero (t : MemoryTable) : t.newest 0 = none := visible_zero t

theorem newest_succ (t : MemoryTable) (k : ℕ) : t.newest (k + 1) = (t.visible (k + 1)).or (t.newest k) := by
  unfold MemoryTable.newest
  rw [Nat.findGreatest_succ]
  cases h : t.visible (k + 1) with
  | some row => exact h
  | none => rfl

/-- The row of the largest number up to `k` that is not deleted. -/
def Newest (t : MemoryTable) (k : ℕ) (row : Row) : Prop :=
  ∃ id ≤ k, t.visible id = some row ∧ ∀ j, id < j → j ≤ k → t.visible j = none

theorem newest_eq_some : t.newest k = some row ↔ Newest t k row := by
  induction k with
  | zero =>
    rw [newest_zero]
    constructor
    · exact nofun
    · rintro ⟨id, hid, hrow, -⟩
      obtain rfl : id = 0 := by omega
      rw [visible_zero] at hrow
      exact hrow
  | succ k ih =>
    rw [newest_succ]
    cases h : t.visible (k + 1) with
    | some new =>
      rw [Option.some_or]
      constructor
      · rintro ⟨⟩
        exact ⟨k + 1, le_rfl, h, fun j hj hjk => by omega⟩
      · rintro ⟨id, hid, hrow, hnone⟩
        by_cases hlt : id < k + 1
        · rw [hnone (k + 1) hlt le_rfl] at h
          cases h
        · obtain rfl : id = k + 1 := by omega
          rw [← h, hrow]
    | none =>
      rw [Option.none_or, ih]
      constructor
      · rintro ⟨id, hid, hrow, hnone⟩
        refine ⟨id, by omega, hrow, ?_⟩
        intro j hj hjk
        by_cases hlast : j = k + 1
        · rw [hlast, h]
        · exact hnone j hj (by omega)
      · rintro ⟨id, hid, hrow, hnone⟩
        have hne : id ≠ k + 1 := by
          rintro rfl
          rw [h] at hrow
          cases hrow
        exact ⟨id, by omega, hrow, fun j hj hjk => hnone j hj (by omega)⟩

theorem newest_eq_none (h : t.newest k = none) {id : ℕ} (hid : id ≤ k) : t.visible id = none := by
  induction k with
  | zero =>
    obtain rfl : id = 0 := by omega
    exact visible_zero t
  | succ k ih =>
    rw [newest_succ, Option.or_eq_none_iff] at h
    by_cases hlast : id = k + 1
    · rw [hlast, h.1]
    · exact ih h.2 (by omega)

theorem shown_congr (h : ∀ j ≤ k, (t.visible j).map memoryData = (t'.visible j).map memoryData) :
    t.shown k = t'.shown k := by
  induction k with
  | zero => rw [MemoryTable.shown, MemoryTable.shown, newest_zero, newest_zero]
  | succ k ih =>
    have hk := ih fun j hj => h j (by omega)
    unfold MemoryTable.shown at hk ⊢
    rw [newest_succ, newest_succ, Option.map_or, Option.map_or, h (k + 1) le_rfl, hk]

/-- A row between `i` and the number keeps the row `i` from being shown. -/
def Covered (t : MemoryTable) (i k : ℕ) : Prop := ∃ j, i < j ∧ j ≤ k ∧ t.visible j ≠ none

theorem shown_of_covered (h : ∀ j, j ≠ i → t'.visible j = t.visible j) (hc : Covered t i k) :
    t'.shown k = t.shown k := by
  obtain ⟨j, hij, hjk, hj⟩ := hc
  unfold MemoryTable.shown
  congr 1
  induction k with
  | zero => omega
  | succ k ih =>
    rw [newest_succ, newest_succ, h (k + 1) (by omega)]
    by_cases hlast : j = k + 1
    · subst hlast
      obtain ⟨row, hrow⟩ := Option.ne_none_iff_exists'.mp hj
      rw [hrow, Option.some_or, Option.some_or]
    · rw [ih (by omega)]

theorem visible_update_of_ne (h : j ≠ i) : (t.update i cols).visible j = t.visible j :=
  congrArg (Option.filter _) (Function.update_of_ne h _ _)

theorem visible_update_zero (j : ℕ) : (t.update 0 cols).visible j = t.visible j := by
  by_cases h : j = 0
  · rw [h, visible_zero, visible_zero]
  · exact visible_update_of_ne h

theorem visible_insert_of_lt {skip : ℕ} (h : t.last + 1 + skip < 2 ^ 31) (hj : j < t.last + 1 + skip) :
    (t.insert skip h cols).visible j = t.visible j :=
  congrArg (Option.filter _) (Function.update_of_ne (by omega) _ _)

end Table

/-- What a command meets: the number that `neo_rand` makes, and those that the sequence has left out, too. -/
structure Surroundings extends PlanReads.Surroundings where
  rand : ℤ
  skip : ℕ

inductive AuxErr where
  | rep (err : RepErr)
  | mem
  | emptyMemory
  deriving DecidableEq

abbrev AuxReply := Except AuxErr Dataset

inductive MemoryCmd where
  | memoryGet | memoryAdd | memoryMod
  deriving DecidableEq

structure MemoryRequested where
  operation : MemoryCmd
  hdfrcv : Dataset
  met : Surroundings

/-- `m_memory_maxid` is an `unsigned int`. -/
structure AuxPlugin where
  memory : MemoryTable
  maxid : ℕ
  cd : Store Bytes Dataset

/-- `PREFIX_MEMORY"%d"` -/
def memoryKey (id : ℤ) : Bytes := [77, 101, 109, 111, 114, 121] ++ printInt id

theorem memoryKey_injective {id id' : ℤ} (h : memoryKey id = memoryKey id') : id = id' :=
  printInt_injective (List.append_cancel_left h)

/-- The number that is asked for: a random one when the request has none, or 0. -/
def MemoryRequested.id (q : MemoryRequested) : ℤ :=
  let id := hdfGetIntValue q.hdfrcv "id" 0
  if id = 0 then q.met.rand + 1 else id

/-- The row from the table, and the memory that `CACHE_HDF` asks for. -/
def selectMemory (met : Surroundings) (t : MemoryTable) (id : ℤ) : AuxReply :=
  if met.queries then
    match t.newest id.toNat with
    | some row => if met.calloc then .ok (memoryData row) else .error .mem
    | none => .error (.rep .notFound)
  else .error (.rep .db)

section Commands
-- what `unpack_hdf` makes of a dataset that was packed
variable (kept : Dataset → Dataset)

def auxCmdMemoryget (p : AuxPlugin) (q : MemoryRequested) : AuxReply × AuxPlugin :=
  if p.maxid < 1 then (.error .emptyMemory, p)
  else
    let out := readThrough kept p.cd (memoryKey q.id) (memoryKey q.id) (selectMemory q.met p.memory q.id)
    (out.1, { p with cd := out.2 })

/-- The sequence ends with the greatest `int`. -/
def auxCmdMemoryadd (p : AuxPlugin) (q : MemoryRequested) : AuxReply × AuxPlugin :=
  match mdbBuildIncol q.hdfrcv insertColMemory with
  | .error err => (.error (.rep (.build err)), p)
  | .ok cols =>
    if h : q.met.accepts cols = true ∧ p.memory.last + 1 + q.met.skip < 2 ^ 31 then
      (.ok [], { p with
        memory := p.memory.insert q.met.skip h.2 (stampNew q.met.today cols)
        maxid := (p.maxid + 1) % 2 ^ 32 })
    else (.error (.rep .db), p)

def auxCmdMemorymod (p : AuxPlugin) (q : MemoryRequested) : AuxReply × AuxPlugin :=
  match reqGetParamInt q.hdfrcv "id" with
  | .error err => (.error (.rep err), p)
  | .ok id =>
    match mdbBuildUpcol q.hdfrcv updateColMemory with
    | .error err => (.error (.rep (.build err)), p)
    | .ok cols =>
      if q.met.accepts cols then
        (.ok [], { p with
          memory := p.memory.update id.toNat (stampUpdate q.met.today cols)
          cd := drop p.cd (memoryKey id) })
      else (.error (.rep .db), p)

def auxProcessDriver (p : AuxPlugin) (q : MemoryRequested) : AuxReply × AuxPlugin :=
  match q.operation with
  | .memoryGet => auxCmdMemoryget kept p q
  | .memoryAdd => auxCmdMemoryadd p q
  | .memoryMod => auxCmdMemorymod p q

/-- The plugin without the cache entries that are gone. -/
def AuxPlugin.lapsed (p : AuxPlugin) (gone : Bytes → Bool) : AuxPlugin := { p with cd := lapse p.cd gone }

def served (p : AuxPlugin) (q : MemoryRequested) : AuxReply × AuxPlugin :=
  auxProcessDriver kept (p.lapsed q.met.gone) q

def step (p : AuxPlugin) (q : MemoryRequested) : AuxPlugin := (served kept p q).2

end Commands

/-- `aux_init_driver` reads the greatest number of the table. -/
def start (t : MemoryTable) : AuxPlugin :=
  ⟨t, Nat.findGreatest (fun id => (t.row id).isSome) t.last, fun _ => none⟩

/-- A cached dataset is what is to be shown under the number of its key. -/
def Shown (t : MemoryTable) (key : Bytes) (d : Dataset) : Prop :=
  ∃ id : ℤ, key = memoryKey id ∧ t.shown id.toNat = some d

/-- The cache agrees with the table, and memories are counted as long as there are any. -/
structure Coherent (p : AuxPlugin) : Prop where
  backed : Backed (Shown p.memory) p.cd
  counted : p.maxid ≤ p.memory.last
  positive : ∀ id row, p.memory.row id = some row → 0 < p.maxid

variable {kept : Dataset → Dataset} {p : AuxPlugin} {q : MemoryRequested} {id : ℤ} {d : Dataset}

theorem coherent_start (t : MemoryTable) : Coherent (start t) := by
  refine ⟨backed_empty, Nat.findGreatest_le _, ?_⟩
  intro id row hrow
  have hinside : id ≠ 0 ∧ id ≤ t.last := by
    by_contra h
    have hout := t.outside id (by omega)
    have hrow' : t.row id = some row := hrow
    rw [hout] at hrow'
    cases hrow'
  apply Nat.findGreatest_pos.mpr
  exact ⟨id, Nat.pos_of_ne_zero hinside.1, hinside.2, Option.isSome_of_eq_some hrow⟩

theorem Coherent.lapsed (h : Coherent p) (gone : Bytes → Bool) : Coherent (p.lapsed gone) :=
  ⟨h.backed.lapse gone, h.counted, h.positive⟩

theorem Coherent.entry (h : Coherent p) (hd : p.cd (memoryKey id) = some d) : p.memory.shown id.toNat = some d := by
  obtain ⟨id', hkey, hshown⟩ := h.backed _ d hd
  rw [memoryKey_injective hkey]
  exact hshown

/-- What is to be shown comes out of the cache as it was put in. -/
def Packable (kept : Dataset → Dataset) (t : MemoryTable) (id : ℤ) : Prop :=
  ∀ d, t.shown id.toNat = some d → kept d = d

def Modifies (q : MemoryRequested) (id : ℤ) (cols : Assignments) : Prop :=
  q.operation = .memoryMod ∧ reqGetParamInt q.hdfrcv "id" = .ok id ∧
    mdbBuildUpcol q.hdfrcv updateColMemory = .ok cols ∧ q.met.accepts cols = true

def Adds (p : AuxPlugin) (q : MemoryRequested) : Prop :=
  q.operation = .memoryAdd ∧ ∃ cols, mdbBuildIncol q.hdfrcv insertColMemory = .ok cols ∧ q.met.accepts cols = true ∧
    p.memory.last + 1 + q.met.skip < 2 ^ 31

/-- What is read is cached as it is; a memory that changes is not shown under a greater number that is cached, before
or after, or shown the same; and no number from the one of a new memory on is cached. -/
structure Harmless (kept : Dataset → Dataset) (p : AuxPlugin) (q : MemoryRequested) : Prop where
  packable : q.operation = .memoryGet → Packable kept p.memory q.id
  changed : ∀ id cols, Modifies q id cols → ∀ k, id < k → lapse p.cd q.met.gone (memoryKey k) ≠ none →
    Covered p.memory id.toNat k.toNat ∨
      ((p.memory.update id.toNat (stampUpdate q.met.today cols)).visible id.toNat).map memoryData =
        (p.memory.visible id.toNat).map memoryData
  added : Adds p q → ∀ k : ℤ, p.memory.last + 1 + q.met.skip ≤ k → lapse p.cd q.met.gone (memoryKey k) = none

theorem selectMemory_eq_ok {met : Surroundings} {t : MemoryTable} (h : selectMemory met t id = .ok d) :
    t.shown id.toNat = some d := by
  unfold selectMemory at h
  split at h
  · split at h
    · rename_i row hrow
      split at h
      · cases h
        rw [MemoryTable.shown, hrow]
        rfl
      · cases h
    · cases h
  · cases h

theorem coherent_get (hp : Coherent p) (hpack : Packable kept p.memory q.id) :
    Coherent (auxCmdMemoryget kept p q).2 := by
  unfold auxCmdMemoryget
  split
  · exact hp
  · refine ⟨?_, hp.counted, hp.positive⟩
    apply hp.backed.readThrough (memoryKey q.id)
    intro d hd
    have hshown := selectMemory_eq_ok hd
    exact ⟨q.id, rfl, (hpack d hshown).symm ▸ hshown⟩

theorem coherent_add (hp : Coherent p) {cols : Assignments} {skip : ℕ} (h : p.memory.last + 1 + skip < 2 ^ 31)
    (hadded : ∀ k : ℤ, p.memory.last + 1 + skip ≤ k → p.cd (memoryKey k) = none) :
    Coherent { p with memory := p.memory.insert skip h cols, maxid := (p.maxid + 1) % 2 ^ 32 } := by
  have hcounted := hp.counted
  have hmod : (p.maxid + 1) % 2 ^ 32 = p.maxid + 1 := Nat.mod_eq_of_lt (by omega)
  refine ⟨?_, ?_, ?_⟩
  · intro key d hd
    obtain ⟨k, rfl, hshown⟩ := hp.backed key d hd
    refine ⟨k, rfl, ?_⟩
    have hlt : k.toNat < p.memory.last + 1 + skip := by
      by_contra hge
      have hnone := hadded k (by omega)
      have hd' : p.cd (memoryKey k) = some d := hd
      rw [hnone] at hd'
      cases hd'
    rw [← hshown]
    apply shown_congr
    intro j hj
    rw [visible_insert_of_lt h (by omega)]
  · rw [hmod]
    simp only [MemoryTable.insert]
    omega
  · intro id row _
    rw [hmod]
    exact Nat.succ_pos _

/-- A change leaves what is cached under smaller numbers, and under greater ones unless it is shown there. -/
theorem coherent_mod (hp : Coherent p) {cols : Assignments}
    (hchanged : ∀ k, id < k → p.cd (memoryKey k) ≠ none → Covered p.memory id.toNat k.toNat ∨
      ((p.memory.update id.toNat cols).visible id.toNat).map memoryData =
        (p.memory.visible id.toNat).map memoryData) :
    Coherent { p with memory := p.memory.update id.toNat cols, cd := drop p.cd (memoryKey id) } := by
  refine ⟨?_, hp.counted, ?_⟩
  · apply Backed.drop
    intro key d hkey hd
    obtain ⟨k, rfl, hshown⟩ := hp.backed key d hd
    refine ⟨k, rfl, ?_⟩
    rw [← hshown]
    have hothers : ∀ j, j ≠ id.toNat → (p.memory.update id.toNat cols).visible j = p.memory.visible j :=
      fun j hj => visible_update_of_ne hj
    have hne : k ≠ id := by
      rintro rfl
      exact hkey rfl
    by_cases hlt : k < id
    · -- the row has a greater number than those that are looked at, or there is none
      apply shown_congr
      intro j hj
      by_cases hzero : id.toNat = 0
      · rw [hzero, visible_update_zero]
      · rw [hothers j (by omega)]
    · have hthere : p.cd (memoryKey k) ≠ none := by
        rw [hd]
        exact Option.some_ne_none _
      rcases hchanged k (by omega) hthere with hcovered | hsame
      · exact shown_of_covered hothers hcovered
      · apply shown_congr
        intro j hj
        by_cases hj' : j = id.toNat
        · rw [hj', hsame]
        · rw [hothers j hj']
  · intro j row hrow
    simp only [MemoryTable.update] at hrow
    by_cases hj : j = id.toNat
    · subst hj
      rw [Function.update_self] at hrow
      obtain ⟨old, hold, -⟩ := Option.map_eq_some_iff.mp hrow
      exact hp.positive _ old hold
    · rw [Function.update_of_ne hj] at hrow
      exact hp.positive j row hrow

theorem coherent_step (hp : Coherent p) (hq : Harmless kept p q) : Coherent (step kept p q) := by
  have hl := hp.lapsed q.met.gone
  unfold step served auxProcessDriver
  cases hop : q.operation with
  | memoryGet => exact coherent_get hl (hq.packable hop)
  | memoryAdd =>
    unfold auxCmdMemoryadd
    dsimp only
    split
    · exact hl
    · rename_i cols hcols
      split
      · rename_i h
        exact coherent_add hl h.2 (hq.added ⟨hop, cols, hcols, h⟩)
      · exact hl
  | memoryMod =>
    unfold auxCmdMemorymod
    dsimp only
    split
    · exact hl
    · rename_i id hid
      split
      · exact hl
      · rename_i cols hcols
        split
        · rename_i hacc
          exact coherent_mod hl (hq.changed id cols ⟨hop, hid, hcols, hacc⟩)
        · exact hl

def Gets (q : MemoryRequested) (k : ℤ) : Prop :=
  q.operation = .memoryGet ∧ hdfGetIntValue q.hdfrcv "id" 0 = k ∧ 1 ≤ k

/-- A reply shows the row that the query yields; a request fails when there is none, no server or no memory. -/
def Answered (met : Surroundings) (t : MemoryTable) (k : ℤ) : AuxReply → Prop
  | .ok d => ∃ row, Newest t k.toNat row ∧ d = memoryData row
  | .error _ => (∀ id ≤ k.toNat, t.visible id = none) ∨ met.queries = false ∨ met.calloc = false

def ReadsNow (kept : Dataset → Dataset) (p : AuxPlugin) (qs : List MemoryRequested) : Prop :=
  ∀ before get rest k, qs = before ++ get :: rest → Gets get k →
    Answered get.met (before.foldl (step kept) p).memory k (served kept (before.foldl (step kept) p) get).1

theorem answered_of_shown {met : Surroundings} {t : MemoryTable} (h : t.shown id.toNat = some d) :
    Answered met t id (.ok d) := by
  obtain ⟨row, hrow, rfl⟩ := Option.map_eq_some_iff.mp h
  exact ⟨row, newest_eq_some.mp hrow, rfl⟩

theorem selectMemory_answered (met : Surroundings) (t : MemoryTable) (id : ℤ) :
    Answered met t id (selectMemory met t id) := by
  cases hq : met.queries with
  | false =>
    simp only [selectMemory, hq, Bool.false_eq_true, if_false]
    exact .inr (.inl hq)
  | true =>
    cases hrow : t.newest id.toNat with
    | none =>
      simp only [selectMemory, hq, hrow, if_true]
      exact .inl fun j hj => newest_eq_none hrow hj
    | some row =>
      cases hcalloc : met.calloc with
      | true =>
        simp only [selectMemory, hq, hrow, hcalloc, if_true]
        exact ⟨row, newest_eq_some.mp hrow, rfl⟩
      | false =>
        simp only [selectMemory, hq, hrow, hcalloc, if_true, Bool.false_eq_true, if_false]
        exact .inr (.inr hcalloc)

theorem gets_answered (hp : Coherent p) (hq : Gets q id) : Answered q.met p.memory id (served kept p q).1 := by
  obtain ⟨hop, hid, hpos⟩ := hq
  have hasked : q.id = id := by
    simp only [MemoryRequested.id, hid]
    exact if_neg (by omega)
  have hl := hp.lapsed q.met.gone
  simp only [served, auxProcessDriver, hop, auxCmdMemoryget]
  split
  · rename_i hzero
    left
    intro j _
    cases hrow : p.memory.row j with
    | none =>
      rw [MemoryTable.visible, hrow]
      rfl
    | some row =>
      have hpositive := hl.positive j row hrow
      omega
  · rw [hasked, readThrough_fst]
    split
    · rename_i d hd
      exact answered_of_shown (hl.entry hd)
    · exact selectMemory_answered q.met p.memory id

/-- Memories are shown as they are, as long as no change or new memory touches what is cached under other numbers. -/
theorem readsNow_of_harmless (kept : Dataset → Dataset) (t : MemoryTable) {qs : List MemoryRequested}
    (hqs : Guarded (step kept) (Harmless kept) (start t) qs) : ReadsNow kept (start t) qs := by
  intro before get rest k hsplit hget
  rw [hsplit] at hqs
  have hcoherent : Throughout (step kept) Coherent (start t) before :=
    Guarded.throughout (fun _ _ h hq => coherent_step h hq) (coherent_start t) (guarded_append.mp hqs).1
  exact gets_answered hcoherent.last hget

/-- Nothing is gone, and the server answers and takes everything. -/
def fair : Surroundings := ⟨⟨fun _ => false, true, fun _ => true, true, [50]⟩, 0, 0⟩

def oneMemory : MemoryTable where
  row id := if id = 1 then some (memoryNew 1) else none
  last := 1
  fits := by decide
  outside id hid := if_neg (by omega)

def asks (operation : MemoryCmd) (id : Bytes) (hdfrcv : Dataset) : MemoryRequested :=
  ⟨operation, ("id", some id) :: hdfrcv, fair⟩

/-- The title of the memory is changed between two requests for number 2. -/
def titleChanged : List MemoryRequested :=
  [asks .memoryGet [50] [], asks .memoryMod [49] [("title", some [53])], asks .memoryGet [50] []]

theorem not_readsNow_titleChanged : ¬ ReadsNow (fun d => d) (start oneMemory) titleChanged := by
  intro h
  obtain ⟨row, hrow, hd⟩ : ∃ row, Newest _ 2 row ∧ memoryData (memoryNew 1) = memoryData row :=
    h [asks .memoryGet [50] [], asks .memoryMod [49] [("title", some [53])]] (asks .memoryGet [50] []) [] 2 rfl
      ⟨rfl, by decide, by decide⟩
  have htitle : (([asks .memoryGet [50] [], asks .memoryMod [49] [("title", some [53])]].foldl
      (step fun d => d) (start oneMemory)).memory.newest 2).map (· "title") = some (.text [53]) := by decide
  rw [newest_eq_some.mpr hrow] at htitle
  have hdata := congrArg (hdfGetValue · "title") hd
  simp only [memoryData, hdfGetValue_mdbSetRow, Option.some.inj htitle] at hdata
  exact absurd hdata (by decide)

def ownNumber : List MemoryRequested :=
  [asks .memoryGet [49] [], asks .memoryMod [49] [("title", some [53])], asks .memoryGet [49] [],
    asks .memoryAdd [] [("title", some [54]), ("content", some [55])], asks .memoryGet [50] []]

theorem ownNumber_readsNow : ReadsNow (fun d => d) (start oneMemory) ownNumber := by
  have hread : ∀ (p : AuxPlugin) q, q.operation ≠ .memoryMod → q.operation ≠ .memoryAdd → Harmless (fun d => d) p q :=
    fun p q hmod hadd => ⟨fun _ _ _ => rfl, fun _ _ h => (hmod h.1).elim, fun h => (hadd h.1).elim⟩
  refine readsNow_of_harmless _ _ ⟨hread _ _ nofun nofun, ⟨nofun, ?_, nofun⟩, hread _ _ nofun nofun,
    ⟨nofun, nofun, ?_⟩, hread _ _ nofun nofun, trivial⟩
  · rintro id cols ⟨-, hid, -⟩ k hk hthere
    obtain rfl : id = 1 := Except.ok.inj (hid.symm.trans (by rfl))
    have hne : memoryKey k ≠ memoryKey 1 := fun h => by
      have hone := memoryKey_injective h
      omega
    exact (hthere (Function.update_of_ne hne _ _)).elim
  · intro _ k hk
    have htwo : (2 : ℤ) ≤ k := hk
    have hne : memoryKey k ≠ memoryKey 1 := fun h => by
      have hone := memoryKey_injective h
      omega
    exact (Function.update_of_ne hne _ _).trans
      ((Function.update_of_ne hne _ _).trans (Function.update_of_ne hne _ _))

end Cmoon.MemoryReads
