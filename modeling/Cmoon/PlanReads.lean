import Cmoon.PlanOwnership
import Cmoon.LapsingCaches
import Cmoon.GuardedRuns

/-! # The cached plans

A plan is read under `Plan%d`, or with the phone and the contact of its poster under `PlanPriv%d`. An update reads
it under the first key and drops that entry; it leaves the one under the second key. -/
namespace Cmoon.PlanReads
open DecimalText Datasets StatementBuilding MemberTables MemberPlugin PlanOwnership LapsingCaches GuardedRuns

/-- `_COL_PLAN` and `_COL_PLAN_ADMIN` -/
def colPlan : List String :=
  ["id", "mid", "ori", "ourl", "dad", "nick", "statu", "repeat", "seat", "fee", "attach", "cityid", "scityid",
    "ecityid", "saddr", "eaddr", "marks", "rect", "route", "km", "sdate", "edate", "stime", "etime", "estmin",
    "intime", "uptime"]
def colPlanAdmin : List String :=
  ["id", "mid", "phone", "contact", "ori", "ourl", "dad", "nick", "statu", "repeat", "seat", "fee", "attach",
    "cityid", "scityid", "ecityid", "saddr", "eaddr", "marks", "rect", "route", "km", "sdate", "edate", "stime",
    "etime", "estmin", "intime", "uptime"]

def updateColPlan : List ColumnSpec :=
  [strCol "phone" 128 false, strCol "contact" 128 false, intCol "ori" false, strCol "oid" 64 false,
    intCol "statu" false, intCol "scityid" false, intCol "ecityid" false, strCol "saddr" 256 false,
    strCol "eaddr" 256 false, convertedCol "sgeo" .point, convertedCol "egeo" .point, convertedCol "rect" .box,
    convertedCol "route" .path, convertedCol "km" .float, strCol "sdate" 16 false, strCol "edate" 16 false,
    convertedCol "stime" .str, convertedCol "etime" .str]

/-- The texts among the defaults of `CREATE TABLE plan` that are not empty, as the server prints them. -/
def planTexts : List (String × Bytes) :=
  [("rect", [40, 49, 44, 49, 41, 44, 40, 48, 44, 48, 41]),
    ("route", [91, 40, 48, 44, 48, 41, 44, 40, 49, 44, 49, 41, 93]), ("km", [48, 46, 49]),
    ("sgeo", [40, 48, 44, 48, 41]), ("egeo", [40, 48, 44, 48, 41]),
    ("sdate", [50, 48, 49, 49, 45, 49, 49, 45, 49, 49]), ("edate", [50, 48, 49, 49, 45, 49, 49, 45, 49, 49]),
    ("stime", [48, 56, 58, 48, 48, 58, 48, 48]), ("etime", [48, 57, 58, 48, 48, 58, 48, 48])]

def planDefault : Row := fun col =>
  if col ∈ ["mid", "ori", "dad", "statu", "repeat", "fee", "cityid", "scityid", "ecityid", "estmin"] then .int 0
  else if col = "seat" then .int 4
  else .text ((planTexts.lookup col).getD [])

/-- A row before anything but its number is written. -/
def planNew (id : ℤ) : Row := Function.update planDefault "id" (.int id)

def planRow (plan : List Assignments) (id : ℤ) : Option Row :=
  if id ≤ 0 then none else plan[(id - 1).toNat]?.map (planNew id).assign

/-- `UPDATE plan SET cols WHERE id=%d` -/
def planUpdate (plan : List Assignments) (id : ℤ) (cols : Assignments) : List Assignments :=
  if id ≤ 0 then plan else plan.modify (id - 1).toNat (cols ++ ·)

/-- The day of `now()`, the default of both times. -/
def stampNew (today : Bytes) (cols : Assignments) : Assignments :=
  cols ++ [("intime", .str today none), ("uptime", .str today none)]

/-- The trigger `tg_uptime_plan`. -/
def stampUpdate (today : Bytes) (cols : Assignments) : Assignments := ("uptime", .str today none) :: cols

theorem assign_append (row : Row) (a b : Assignments) : row.assign (a ++ b) = (row.assign b).assign a := by
  funext col
  simp only [Row.assign, List.lookup_append]
  cases a.lookup col <;> rfl

theorem planRow_update (plan : List Assignments) (id : ℤ) (cols : Assignments) :
    planRow (planUpdate plan id cols) id = (planRow plan id).map (·.assign cols) := by
  unfold planRow planUpdate
  split
  · rfl
  · rw [List.getElem?_modify_eq, Option.map_map]
    cases plan[(id - 1).toNat]? with
    | none => rfl
    | some old => exact congrArg some (assign_append _ cols old)

theorem planRow_update_of_ne (plan : List Assignments) {id id' : ℤ} (hne : id' ≠ id) (cols : Assignments) :
    planRow (planUpdate plan id cols) id' = planRow plan id' := by
  unfold planRow planUpdate
  split
  · rfl
  · split
    · rfl
    · have hidx : (id - 1).toNat ≠ (id' - 1).toNat := by omega
      rw [List.getElem?_modify_ne _ _ hidx]

theorem planRow_append {plan : List Assignments} {id : ℤ} {row : Row} (h : planRow plan id = some row)
    (cols : List Assignments) : planRow (plan ++ cols) id = some row := by
  unfold planRow at h ⊢
  split at h
  · cases h
  · rename_i hid
    obtain ⟨old, hold, rfl⟩ := Option.map_eq_some_iff.mp h
    rw [if_neg hid, List.getElem?_append_left (List.getElem?_eq_some_iff.mp hold).1, hold]
    rfl

structure PlanPlugin where
  entry : PlanEntry
  cd : Store Bytes Dataset

/-- What a command meets: the cache entries that are gone by then, whether the server answers a query and takes a
statement, whether there is memory to pack a dataset, and the day. -/
structure Surroundings where
  gone : Bytes → Bool
  queries : Bool
  accepts : Assignments → Bool
  calloc : Bool
  today : Bytes

inductive PlanErr where
  | rep (err : RepErr)
  | mem
  | planNexist
  deriving DecidableEq

abbrev PlanReply := Except PlanErr Dataset

inductive PlanCmd where
  | planGet | planPrivGet | planAdd | planUp
  deriving DecidableEq

structure PlanRequested where
  operation : PlanCmd
  hdfrcv : Dataset
  met : Surroundings

/-- `PREFIX_PLAN`, `PREFIX_PLAN_PRIV` and `PREFIX_SPD` -/
def prefixPlan : Bytes := [80, 108, 97, 110]
def prefixPlanPriv : Bytes := [80, 108, 97, 110, 80, 114, 105, 118]
def prefixSpd : Bytes := [83, 112, 100]

/-- The columns that are read, and the text before the id in the key they are cached under. -/
structure PlanView where
  start : Bytes
  cols : List String

def planView : PlanView := ⟨prefixPlan, colPlan⟩
def planPrivView : PlanView := ⟨prefixPlanPriv, colPlanAdmin⟩

def PlanView.key (view : PlanView) (id : ℤ) : Bytes := view.start ++ printInt id

def PlanView.shows (view : PlanView) (row : Row) : Dataset := mdbSetRow [] row view.cols

def PlanCmd.view : PlanCmd → Option PlanView
  | .planGet | .planUp => some planView
  | .planPrivGet => some planPrivView
  | .planAdd => none

def reqGetParamInt (hdf : Dataset) (key : String) : Except RepErr ℤ :=
  match hdfGetValue hdf key with
  | some _ => .ok (hdfGetIntValue hdf key 0)
  | none => .error (.badparam key)

/-- The row of a plan from the table, and the memory that `CACHE_HDF` asks for. -/
def PlanView.select (view : PlanView) (met : Surroundings) (plan : List Assignments) (id : ℤ) : PlanReply :=
  if met.queries then
    match planRow plan id with
    | some row => if met.calloc then .ok (view.shows row) else .error .mem
    | none => .error (.rep .notFound)
  else .error (.rep .db)

section Commands
-- what `unpack_hdf` makes of a dataset that was packed
variable (kept : Dataset → Dataset)

def PlanView.read (view : PlanView) (met : Surroundings) (p : PlanPlugin) (id : ℤ) : PlanReply × PlanPlugin :=
  let out := readThrough kept p.cd (view.key id) (view.key id) (view.select met p.entry.plan id)
  (out.1, { p with cd := out.2 })

def PlanView.get (view : PlanView) (met : Surroundings) (p : PlanPlugin) (hdfrcv : Dataset) : PlanReply × PlanPlugin :=
  match reqGetParamInt hdfrcv "id" with
  | .ok id => view.read kept met p id
  | .error err => (.error (.rep err), p)

def planCmdPlanGet := planView.get kept
def planCmdPlanPrivGet := planPrivView.get kept

/-- The plan that the server has inserted gets its times. -/
def planAdded (today : Bytes) (e : PlanEntry) (out : PlanOutcome) : PlanEntry :=
  match out.inserted with
  | some cols => { out.entry with plan := e.plan ++ [stampNew today cols] }
  | none => out.entry

/-- The row is written, and the entry under the first key dropped. -/
def PlanPlugin.updated (p : PlanPlugin) (id : ℤ) (cols : Assignments) : PlanPlugin where
  entry := { p.entry with plan := planUpdate p.entry.plan id cols }
  cd := drop p.cd (planView.key id)

def planCmdPlanUp (met : Surroundings) (p : PlanPlugin) (hdfrcv : Dataset) : PlanReply × PlanPlugin :=
  match reqGetParamInt hdfrcv "id" with
  | .error err => (.error (.rep err), p)
  | .ok id =>
    let out := planCmdPlanGet kept met p hdfrcv
    match out.1 with
    | .error err => (.error err, out.2)
    | .ok hdfsnd =>
      if (hdfGetObj hdfsnd "mid").isNone then (.error .planNexist, out.2)
      else
        match mdbBuildUpcol hdfrcv updateColPlan with
        | .error err => (.error (.rep (.build err)), out.2)
        | .ok cols =>
          if met.accepts cols then (.ok hdfsnd, out.2.updated id (stampUpdate met.today cols))
          else (.error (.rep .db), out.2)

def planProcessDriver (p : PlanPlugin) (q : PlanRequested) : PlanReply × PlanPlugin :=
  match q.operation with
  | .planGet => planCmdPlanGet kept q.met p q.hdfrcv
  | .planPrivGet => planCmdPlanPrivGet kept q.met p q.hdfrcv
  | .planAdd =>
    let out := planCmdPlanAdd q.met.accepts p.entry q.hdfrcv
    (out.reply.mapError .rep, { p with entry := planAdded q.met.today p.entry out })
  | .planUp => planCmdPlanUp kept q.met p q.hdfrcv

/-- The plugin without the cache entries that are gone. -/
def PlanPlugin.lapsed (p : PlanPlugin) (gone : Bytes → Bool) : PlanPlugin where
  entry := { p.entry with spd := fun key => p.entry.spd key && !gone (prefixSpd ++ key) }
  cd := lapse p.cd gone

def served (p : PlanPlugin) (q : PlanRequested) : PlanReply × PlanPlugin :=
  planProcessDriver kept (p.lapsed q.met.gone) q

def step (p : PlanPlugin) (q : PlanRequested) : PlanPlugin := (served kept p q).2

end Commands

/-- A cached dataset is what the row of its key shows. -/
def Shown (plan : List Assignments) (key : Bytes) (d : Dataset) : Prop :=
  ∃ view ∈ [planView, planPrivView], ∃ id row, key = view.key id ∧ planRow plan id = some row ∧ d = view.shows row

theorem key_injective {view view' : PlanView} (hv : view ∈ [planView, planPrivView])
    (hv' : view' ∈ [planView, planPrivView]) {id id' : ℤ} (h : view.key id = view'.key id') :
    view = view' ∧ id = id' := by
  have hne : ∀ i j, planView.key i ≠ planPrivView.key j := by
    intro i j hkey
    have hhead : printInt i = 80 :: 114 :: 105 :: 118 :: printInt j := List.append_cancel_left hkey
    exact printInt_ne_cons (by decide) (by decide) i _ hhead
  simp only [List.mem_cons, List.not_mem_nil, or_false] at hv hv'
  rcases hv with rfl | rfl <;> rcases hv' with rfl | rfl
  · exact ⟨rfl, printInt_injective (List.append_cancel_left h)⟩
  · exact (hne _ _ h).elim
  · exact (hne _ _ h.symm).elim
  · exact ⟨rfl, printInt_injective (List.append_cancel_left h)⟩

variable {kept : Dataset → Dataset} {view : PlanView} {met : Surroundings} {p p' : PlanPlugin} {q : PlanRequested}
  {id : ℤ} {row : Row} {d : Dataset}

/-- The row of `id`, as it is shown, comes out of the cache as it was put in. -/
def Packable (kept : Dataset → Dataset) (view : PlanView) (plan : List Assignments) (id : ℤ) : Prop :=
  ∀ row, planRow plan id = some row → kept (view.shows row) = view.shows row

theorem select_eq_ok (h : view.select met p.entry.plan id = .ok d) :
    ∃ row, planRow p.entry.plan id = some row ∧ d = view.shows row := by
  unfold PlanView.select at h
  split at h
  · split at h
    · rename_i row hrow
      split at h
      · cases h
        exact ⟨row, hrow, rfl⟩
      · cases h
    · cases h
  · cases h

/-- A read shows the row in the table, and puts nothing else into the cache. -/
theorem read_spec (hview : view ∈ [planView, planPrivView]) (hp : Backed (Shown p.entry.plan) p.cd)
    (hpack : Packable kept view p.entry.plan id) :
    (∀ d, (view.read kept met p id).1 = .ok d → ∃ row, planRow p.entry.plan id = some row ∧ d = view.shows row) ∧
      Backed (Shown p.entry.plan) (view.read kept met p id).2.cd := by
  constructor
  · intro d hd
    rcases readThrough_eq_ok hd with hcached | hfetched
    · obtain ⟨view', hview', id', row, hkey, hrow, rfl⟩ := hp _ d hcached
      obtain ⟨rfl, rfl⟩ := key_injective hview hview' hkey
      exact ⟨row, hrow, rfl⟩
    · exact select_eq_ok hfetched
  · apply hp.readThrough (view.key id)
    intro d hd
    obtain ⟨row, hrow, rfl⟩ := select_eq_ok hd
    exact ⟨view, hview, id, row, rfl, hrow, hpack row hrow⟩

def Reads (q : PlanRequested) (view : PlanView) (id : ℤ) : Prop :=
  q.operation.view = some view ∧ reqGetParamInt q.hdfrcv "id" = .ok id

/-- The statement of an update, when the server takes it. -/
def Writes (q : PlanRequested) (id : ℤ) (cols : Assignments) : Prop :=
  q.operation = .planUp ∧ reqGetParamInt q.hdfrcv "id" = .ok id ∧
    mdbBuildUpcol q.hdfrcv updateColPlan = .ok cols ∧ q.met.accepts cols = true

/-- What a command may do: fail at once, insert a plan, read, read in vain, or write what it has read. -/
inductive Effect (kept : Dataset → Dataset) (p : PlanPlugin) (q : PlanRequested) : PlanReply × PlanPlugin → Prop
  | failed (err : PlanErr) : Effect kept p q (.error err, p)
  | added (reply : PlanReply) (e : PlanEntry) (cols : List Assignments) (hop : q.operation = .planAdd)
      (he : e.plan = p.entry.plan ++ cols) : Effect kept p q (reply, { p with entry := e })
  | read (view : PlanView) (id : ℤ) (hread : Reads q view id) (hop : q.operation ≠ .planUp) :
      Effect kept p q (view.read kept q.met p id)
  | inVain (id : ℤ) (err : PlanErr) (hread : Reads q planView id) :
      Effect kept p q (.error err, (planView.read kept q.met p id).2)
  | wrote (id : ℤ) (d : Dataset) (cols : Assignments) (hwrites : Writes q id cols)
      (hd : (planView.read kept q.met p id).1 = .ok d) :
      Effect kept p q
        (.ok d, (planView.read kept q.met p id).2.updated id (stampUpdate q.met.today cols))

theorem view_mem (h : q.operation.view = some view) : view ∈ [planView, planPrivView] := by
  cases hop : q.operation <;> rw [hop] at h <;> cases h <;> simp

theorem effect_get (hview : q.operation.view = some view) (hop : q.operation ≠ .planUp) :
    Effect kept p q (view.get kept q.met p q.hdfrcv) := by
  unfold PlanView.get
  cases hid : reqGetParamInt q.hdfrcv "id" with
  | error err => exact .failed _
  | ok id => exact .read view id ⟨hview, hid⟩ hop

theorem planSpdExist_plan (e : PlanEntry) (ori id : Option Bytes) : (planSpdExist e ori id).2.plan = e.plan := by
  unfold planSpdExist
  split
  · dsimp only
    split
    · rfl
    · split
      · rfl
      · split <;> rfl
  · rfl

/-- The plans that were there stay, and at most one comes behind them. -/
theorem planAdded_plan (accepts : Assignments → Bool) (today : Bytes) (e : PlanEntry) (hdfrcv : Dataset) :
    (planAdded today e (planCmdPlanAdd accepts e hdfrcv)).plan =
      e.plan ++ ((planCmdPlanAdd accepts e hdfrcv).inserted.map (stampNew today)).toList := by
  have hspd := planSpdExist_plan e (nonempty hdfrcv "ori") (nonempty hdfrcv "oid")
  have hnone : ∀ reply e', e'.plan = e.plan →
      (planAdded today e ⟨reply, e', none⟩).plan = e.plan ++ (Option.map (stampNew today) none).toList :=
    fun reply e' h => h.trans (List.append_nil e.plan).symm
  unfold planCmdPlanAdd
  dsimp only
  split
  · exact hnone _ _ rfl
  · split
    · exact hnone _ _ hspd
    · split
      · exact hnone _ _ hspd
      · split
        · rfl
        · exact hnone _ _ hspd

theorem effect_up (hop : q.operation = .planUp) : Effect kept p q (planCmdPlanUp kept q.met p q.hdfrcv) := by
  have hview : q.operation.view = some planView := by rw [hop]; rfl
  cases hid : reqGetParamInt q.hdfrcv "id" with
  | error err =>
    simp only [planCmdPlanUp, hid]
    exact .failed _
  | ok id =>
    have hget : planCmdPlanGet kept q.met p q.hdfrcv = planView.read kept q.met p id := by
      simp only [planCmdPlanGet, PlanView.get, hid]
    simp only [planCmdPlanUp, hid, hget]
    split
    · exact .inVain id _ ⟨hview, hid⟩
    · rename_i d hd
      split
      · exact .inVain id _ ⟨hview, hid⟩
      · split
        · exact .inVain id _ ⟨hview, hid⟩
        · rename_i cols hcols
          split
          · rename_i hacc
            exact .wrote id d cols ⟨hop, hid, hcols, hacc⟩ hd
          · exact .inVain id _ ⟨hview, hid⟩

theorem effect_served (kept : Dataset → Dataset) (p : PlanPlugin) (q : PlanRequested) :
    Effect kept (p.lapsed q.met.gone) q (served kept p q) := by
  unfold served planProcessDriver
  cases hop : q.operation with
  | planGet => exact effect_get (by rw [hop]; rfl) (by rw [hop]; decide)
  | planPrivGet => exact effect_get (by rw [hop]; rfl) (by rw [hop]; decide)
  | planAdd => exact .added _ _ _ hop (planAdded_plan _ _ _ _)
  | planUp => exact effect_up hop

def Updates (kept : Dataset → Dataset) (p : PlanPlugin) (q : PlanRequested) (id : ℤ) : Prop :=
  q.operation = .planUp ∧ reqGetParamInt q.hdfrcv "id" = .ok id ∧ ∃ d, (served kept p q).1 = .ok d

/-- A command that shows the plan `id`, other than the update. -/
def Gets (kept : Dataset → Dataset) (p : PlanPlugin) (q : PlanRequested) (view : PlanView) (id : ℤ) (d : Dataset) :
    Prop :=
  Reads q view id ∧ q.operation ≠ .planUp ∧ (served kept p q).1 = .ok d

/-- What is shown of a plan after an update of it is the row as that update, or a later one, has left it. -/
def ReadsUpdated (kept : Dataset → Dataset) (p : PlanPlugin) (qs : List PlanRequested) : Prop :=
  ∀ before up between get rest view id d, qs = before ++ up :: (between ++ get :: rest) →
    Updates kept (before.foldl (step kept) p) up id →
    Gets kept ((before ++ up :: between).foldl (step kept) p) get view id d →
    ∃ mid up' late, up :: between = mid ++ up' :: late ∧ Updates kept ((before ++ mid).foldl (step kept) p) up' id ∧
      ∃ row, planRow ((before ++ mid ++ [up']).foldl (step kept) p).entry.plan id = some row ∧ d = view.shows row

/-- The row that a command reads is cached as it is, and an update changes nothing that a cached entry under the
second key shows. -/
structure Harmless (kept : Dataset → Dataset) (p : PlanPlugin) (q : PlanRequested) : Prop where
  packable : ∀ view id, Reads q view id → Packable kept view p.entry.plan id
  apart : ∀ id cols row, Writes q id cols → planRow p.entry.plan id = some row →
    lapse p.cd q.met.gone (planPrivView.key id) ≠ none →
    planPrivView.shows (row.assign (stampUpdate q.met.today cols)) = planPrivView.shows row

def Coherent (p : PlanPlugin) : Prop := Backed (Shown p.entry.plan) p.cd

theorem Coherent.lapsed (h : Coherent p) (gone : Bytes → Bool) : Coherent (p.lapsed gone) := Backed.lapse h gone

theorem Shown.mono {plan plan' : List Assignments} {key : Bytes}
    (hrow : ∀ id row, planRow plan id = some row → planRow plan' id = some row) (h : Shown plan key d) :
    Shown plan' key d := by
  obtain ⟨view, hview, id, row, hkey, hr, hd⟩ := h
  exact ⟨view, hview, id, row, hkey, hrow id row hr, hd⟩

/-- An update leaves what is cached of other plans, and of its own the entry it would not change. -/
theorem coherent_updated {cols : Assignments} (hp : Coherent p) (hpack : Packable kept planView p.entry.plan id)
    (hd : (planView.read kept met p id).1 = .ok d)
    (hapart : ∀ row, planRow p.entry.plan id = some row → p.cd (planPrivView.key id) ≠ none →
      planPrivView.shows (row.assign cols) = planPrivView.shows row) :
    Coherent ((planView.read kept met p id).2.updated id cols) := by
  obtain ⟨hreply, hcd⟩ := read_spec (by simp) hp hpack
  apply Backed.drop
  intro key v hkey hv
  obtain ⟨view, hview, id', row, rfl, hrow, rfl⟩ := hcd key v hv
  have hrow' : planRow p.entry.plan id' = some row := hrow
  by_cases hid : id' = id
  · subst hid
    have hafter : planRow (planUpdate p.entry.plan id' cols) id' = some (row.assign cols) := by
      rw [planRow_update, hrow']
      rfl
    simp only [List.mem_cons, List.not_mem_nil, or_false] at hview
    rcases hview with rfl | rfl
    · exact (hkey rfl).elim
    · -- the entry under the second key was there before the read
      have hne : planPrivView.key id' ≠ planView.key id' := fun h =>
        absurd (congrArg PlanView.start (key_injective (by simp) (by simp) h).1) (by decide)
      have hsame : (planView.read kept met p id').2.cd (planPrivView.key id') = p.cd (planPrivView.key id') :=
        readThrough_snd_of_ne kept _ hne _
      have hthere : p.cd (planPrivView.key id') ≠ none := by
        rw [← hsame, hv]
        exact Option.some_ne_none _
      exact ⟨planPrivView, by simp, id', row.assign cols, rfl, hafter, (hapart row hrow' hthere).symm⟩
  · have hafter : planRow (planUpdate p.entry.plan id cols) id' = some row := by
      rw [planRow_update_of_ne _ hid, hrow']
    exact ⟨view, hview, id', row, rfl, hafter, rfl⟩

theorem coherent_step (hp : Coherent p) (hq : Harmless kept p q) : Coherent (step kept p q) := by
  have hl := hp.lapsed q.met.gone
  have heffect := effect_served kept p q
  unfold step
  generalize served kept p q = out at heffect
  cases heffect with
  | failed err => exact hl
  | added reply e cols hop he =>
    intro key d hd
    apply (hl key d hd).mono
    intro id row hrow
    rw [he]
    exact planRow_append hrow cols
  | read view id hread hop => exact (read_spec (view_mem hread.1) hl (hq.packable view id hread)).2
  | inVain id err hread => exact (read_spec (view_mem hread.1) hl (hq.packable planView id hread)).2
  | wrote id d cols hwrites hd =>
    have hread : Reads q planView id := ⟨by rw [hwrites.1]; rfl, hwrites.2.1⟩
    exact coherent_updated hl (hq.packable planView id hread) hd (hq.apart id cols · hwrites)

theorem planRow_step (hrow : planRow p.entry.plan id = some row) (hq : ¬ Updates kept p q id) :
    planRow (step kept p q).entry.plan id = some row := by
  have heffect := effect_served kept p q
  have hupdates : ∀ d, q.operation = .planUp → reqGetParamInt q.hdfrcv "id" = .ok id → (served kept p q).1 ≠ .ok d :=
    fun d hop hid h => hq ⟨hop, hid, d, h⟩
  unfold step
  generalize served kept p q = out at heffect hupdates
  cases heffect with
  | failed err => exact hrow
  | added reply e cols hop he =>
    rw [he]
    exact planRow_append hrow cols
  | read view id' hread hop => exact hrow
  | inVain id' err hread => exact hrow
  | wrote id' d cols hwrites hd =>
    have hne : id ≠ id' := fun h => hupdates d hwrites.1 (h ▸ hwrites.2.1) rfl
    exact (planRow_update_of_ne _ hne _).trans hrow

/-- A successful update was of a plan that is in the table, and leaves it there. -/
theorem planRow_updates (hp : Coherent p) (hpack : Packable kept planView p.entry.plan id) (hq : Updates kept p q id) :
    ∃ row, planRow (step kept p q).entry.plan id = some row := by
  obtain ⟨hop, hid, d, hd⟩ := hq
  have heffect := effect_served kept p q
  unfold step
  generalize served kept p q = out at heffect hd
  cases heffect with
  | failed err => cases hd
  | added reply e cols hop' he => rw [hop] at hop'; cases hop'
  | read view id' hread hop' => exact (hop' hop).elim
  | inVain id' err hread => cases hd
  | wrote id' d' cols hwrites hread =>
    obtain rfl : id = id' := Except.ok.inj (hid.symm.trans hwrites.2.1)
    obtain ⟨row, hrow, -⟩ := (read_spec (by simp) (hp.lapsed q.met.gone) hpack).1 d' hread
    exact ⟨_, (planRow_update _ _ _).trans (congrArg (Option.map _) hrow)⟩

theorem gets_row (hp : Coherent p) (hpack : Packable kept view p.entry.plan id) (hq : Gets kept p q view id d) :
    ∃ row, planRow p.entry.plan id = some row ∧ d = view.shows row := by
  obtain ⟨⟨hview, hid⟩, hop, hd⟩ := hq
  have heffect := effect_served kept p q
  generalize served kept p q = out at heffect hd
  cases heffect with
  | failed err => cases hd
  | added reply e cols hop' he => rw [hop'] at hview; cases hview
  | read view' id' hread hop' =>
    obtain rfl : view = view' := Option.some.inj (hview.symm.trans hread.1)
    obtain rfl : id = id' := Except.ok.inj (hid.symm.trans hread.2)
    exact (read_spec (view_mem hview) (hp.lapsed q.met.gone) hpack).1 d hd
  | inVain id' err hread => cases hd
  | wrote id' d' cols hwrites hread => exact (hop hwrites.1).elim

theorem last_update {p : PlanPlugin} {up : PlanRequested} (between : List PlanRequested)
    (hup : Updates kept p up id) :
    ∃ mid up' late, up :: between = mid ++ up' :: late ∧ Updates kept (mid.foldl (step kept) p) up' id ∧
      ∀ row, planRow ((mid ++ [up']).foldl (step kept) p).entry.plan id = some row →
        planRow ((up :: between).foldl (step kept) p).entry.plan id = some row := by
  induction between using List.reverseRecOn with
  | nil => exact ⟨[], up, [], rfl, hup, fun row hrow => hrow⟩
  | append_singleton between q ih =>
    by_cases hq : Updates kept ((up :: between).foldl (step kept) p) q id
    · exact ⟨up :: between, q, [], rfl, hq, fun row hrow => hrow⟩
    · obtain ⟨mid, up', late, heq, hup', hlast⟩ := ih
      refine ⟨mid, up', late ++ [q], ?_, hup', fun row hrow => ?_⟩
      · rw [← List.cons_append, heq, List.append_assoc, List.cons_append]
      · rw [← List.cons_append, List.foldl_append]
        exact planRow_step (hlast row hrow) hq

theorem coherent_run {qs before rest : List PlanRequested} (hp : Coherent p)
    (hqs : Guarded (step kept) (Harmless kept) p qs) (hsplit : qs = before ++ q :: rest) :
    Coherent (before.foldl (step kept) p) ∧ Harmless kept (before.foldl (step kept) p) q := by
  subst hsplit
  obtain ⟨hbefore, hq, -⟩ := guarded_append.mp hqs
  have hcoherent : Throughout (step kept) Coherent p before :=
    Guarded.throughout (fun _ _ h hq => coherent_step h hq) hp hbefore
  exact ⟨hcoherent.last, hq⟩

def start (e : PlanEntry) : PlanPlugin := ⟨e, fun _ => none⟩

/-- Plans are shown as the last update of them has left them, as long as no update changes what is cached of its plan
under the second key, and rows are cached as they are. -/
theorem readsUpdated_of_harmless (kept : Dataset → Dataset) (e : PlanEntry) {qs : List PlanRequested}
    (hqs : Guarded (step kept) (Harmless kept) (start e) qs) : ReadsUpdated kept (start e) qs := by
  have hstart : Coherent (start e) := backed_empty
  intro before up between get rest view id d hsplit hup hget
  obtain ⟨mid, up', late, heq, hup', hlast⟩ := last_update between hup
  have hsplit' : qs = (before ++ mid) ++ up' :: (late ++ get :: rest) := by
    rw [hsplit, ← List.cons_append, heq]
    simp only [List.append_assoc, List.cons_append]
  have hsplit'' : qs = (before ++ up :: between) ++ get :: rest := by
    rw [hsplit, List.append_assoc, List.cons_append]
  rw [← List.foldl_append] at hup'
  obtain ⟨hcoherent, hharmless⟩ := coherent_run hstart hqs hsplit'
  obtain ⟨row, hrow⟩ := planRow_updates hcoherent
    (hharmless.packable planView id ⟨by rw [hup'.1]; rfl, hup'.2.1⟩) hup'
  obtain ⟨hcoherentGet, hharmlessGet⟩ := coherent_run hstart hqs hsplit''
  obtain ⟨row', hrow', hd⟩ := gets_row hcoherentGet (hharmlessGet.packable view id hget.1) hget
  refine ⟨mid, up', late, heq, hup', row, ?_, ?_⟩
  · rw [List.foldl_append]
    exact hrow
  · have hstays := hlast row
    rw [← List.foldl_append, ← List.foldl_append, ← List.append_assoc, List.foldl_append, List.foldl_cons,
      List.foldl_nil] at hstays
    rw [hstays hrow] at hrow'
    cases hrow'
    exact hd

/-- Nothing is gone, and the server takes everything. -/
def fair : Surroundings := ⟨fun _ => false, true, fun _ => true, true, [50]⟩

def onePlan : PlanPlugin := start ⟨[[("mid", .int 7)]], fun _ => false⟩

def asks (operation : PlanCmd) (hdfrcv : Dataset) : PlanRequested := ⟨operation, ("id", some [49]) :: hdfrcv, fair⟩

def phoneChanged : List PlanRequested :=
  [asks .planPrivGet [], asks .planUp [("phone", some [53])], asks .planPrivGet []]

theorem not_readsUpdated_phoneChanged : ¬ ReadsUpdated (fun d => d) onePlan phoneChanged := by
  intro h
  obtain ⟨mid, up', late, heq, -, row, hrow, hd⟩ :=
    h [asks .planPrivGet []] (asks .planUp [("phone", some [53])]) [] (asks .planPrivGet []) [] planPrivView 1
      (planPrivView.shows ((planNew 1).assign [("mid", .int 7)])) rfl ⟨rfl, by decide, _, rfl⟩
      ⟨⟨rfl, by decide⟩, by decide, rfl⟩
  obtain ⟨rfl, rfl⟩ : mid = [] ∧ up' = asks .planUp [("phone", some [53])] := by
    cases mid with
    | nil => exact ⟨rfl, (List.cons.inj heq).1.symm⟩
    | cons q mid => exact absurd (congrArg List.length heq) (by simp)
  have hafter : planRow (([asks .planPrivGet []] ++ [] ++ [asks .planUp [("phone", some [53])]]).foldl
      (step fun d => d) onePlan).entry.plan 1 =
      some ((planNew 1).assign [("uptime", .str [50] none), ("phone", .str [53] (some 128)), ("mid", .int 7)]) := rfl
  cases Option.some.inj (hafter.symm.trans hrow)
  exact absurd (congrArg (hdfGetValue · "phone") hd) (by decide)

/-- The phone is changed before the plan is read under the second key. -/
def phoneFirst : List PlanRequested :=
  [asks .planGet [], asks .planUp [("phone", some [53])], asks .planPrivGet []]

theorem phoneFirst_readsUpdated : ReadsUpdated (fun d => d) onePlan phoneFirst := by
  refine readsUpdated_of_harmless _ _ ⟨⟨fun _ _ _ _ _ => rfl, ?_⟩, ⟨fun _ _ _ _ _ => rfl, ?_⟩,
    ⟨fun _ _ _ _ _ => rfl, ?_⟩, trivial⟩
  · rintro id cols row ⟨hop, -⟩
    cases hop
  · rintro id cols row ⟨-, hid, -⟩ - hthere
    obtain rfl : id = 1 := Except.ok.inj (hid.symm.trans (by rfl))
    exact (hthere (by decide)).elim
  · rintro id cols row ⟨hop, -⟩
    cases hop

end Cmoon.PlanReads
