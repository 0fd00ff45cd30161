import Cmoon.PlanReads
import Cmoon.CacheKeys

/-! # The plans a spider has brought

A spider tells where a plan is from and what it is called there. Whether such a plan is there already is remembered
under the number of the origin and the name, one right behind the other, and an error of the query counts as a plan. -/
namespace Cmoon.SpideredPlans
open DecimalText Datasets StatementBuilding MemberTables MemberPlugin PlanOwnership LapsingCaches GuardedRuns CacheKeys
open PlanReads (prefixSpd)

/-- The number of an origin, and the name of a plan there. -/
structure Pair where
  ori : Bytes
  oid : Bytes
  deriving DecidableEq

/-- `PREFIX_SPD"%s%s"` -/
def spdText (ori oid : Bytes) : Bytes := prefixSpd ++ ori ++ oid

def Pair.text (x : Pair) : Bytes := spdText x.ori x.oid

/-- `ori=$1 AND oid=$2` -/
def Pair.Of (x : Pair) (cols : Assignments) : Prop := planInt cols "ori" = atoi x.ori ∧ planOid cols = .text x.oid

instance (x : Pair) (cols : Assignments) : Decidable (x.Of cols) := inferInstanceAs (Decidable (_ ∧ _))

/-- What does not get into the key is the same, and the numbers of the origins are of one length. -/
def CutAlike (x y : Pair) : Prop :=
  x.text.drop (maxCachekeyLen - 1) = y.text.drop (maxCachekeyLen - 1) ∧ x.ori.length = y.ori.length

/-- Two pairs have different keys, exactly when those that look alike in the buffer agree in what was cut and in
the length of the number. -/
theorem formattedKey_apart_iff (x y : Pair) (stack stack' : ℕ → UInt8) :
    (formattedKey stack x.text = formattedKey stack' y.text → x = y) ↔
      (HeldAlike stack stack' x.text y.text → CutAlike x y) := by
  rw [formattedKey_eq_iff]
  apply forall_congr'
  intro hheld
  constructor
  · rintro rfl
    exact ⟨rfl, rfl⟩
  · rintro ⟨hcut, hlen⟩
    have htext : x.text = y.text := by
      rw [← List.take_append_drop (maxCachekeyLen - 1) x.text, hheld.2.1, hcut, List.take_append_drop]
    unfold Pair.text spdText at htext
    rw [List.append_assoc, List.append_assoc] at htext
    obtain ⟨hori, hoid⟩ := List.append_inj (List.append_cancel_left htext) hlen
    cases x
    cases y
    cases hori
    cases hoid
    rfl

/-- What becomes of a query: the server refuses it, the rows come, or they cannot be taken. -/
inductive Fate where
  | refused | answered | broken
  deriving DecidableEq

/-- What one look into the cache meets: the entries that are gone by then, the stack behind the buffers of
`cache_getf` and `cache_setf`, the fate of the query, and whether there is memory to pack what was read. -/
structure Look where
  gone : Bytes → Bool
  getStack : ℕ → UInt8
  setStack : ℕ → UInt8
  fate : Fate
  calloc : Bool

/-- What was packed is never read, but that it is there. -/
structure SpdPlugin where
  plan : List Assignments
  cd : Store Bytes Unit

inductive SpdCmd where
  | planAdd | spdPeel
  deriving DecidableEq

/-- `oids` is what stands below `oids`; `looks` are met one after the other. -/
structure SpdRequested where
  operation : SpdCmd
  hdfrcv : Dataset
  oids : List (Option Bytes)
  looks : ℕ → Look
  accepts : Assignments → Bool

/-- What `plan_spd_exist` has said. -/
structure Told where
  ori : Option Bytes
  id : Option Bytes
  exist : Bool

inductive SpdReply where
  | id (n : ℕ)
  | oids (ids : List (Option Bytes))

structure Served where
  reply : Except RepErr SpdReply
  told : List Told
  plugin : SpdPlugin

section Commands
-- `Odomain` of the configuration
variable (odomain : Bytes → Option Bytes)

/-- The entry is put into the cache, if there is memory. -/
def SpdPlugin.remember (p : SpdPlugin) (met : Look) (text : Bytes) : SpdPlugin :=
  if met.calloc then { p with cd := put p.cd (formattedKey met.setStack text) () } else p

def planSpdExist (met : Look) (p : SpdPlugin) (ori id : Option Bytes) : Bool × SpdPlugin :=
  match ori, id with
  | some ori, some id =>
    let p := { p with cd := lapse p.cd met.gone }
    let number := odomain ori
    let text := spdText (number.getD nullText) id
    if (p.cd (formattedKey met.getStack text)).isSome then (true, p)
    else
      match met.fate with
      -- the error that `MDB_QUERY_RAW` returns is not `NULL`, and taken for `true`
      | .refused => (true, p)
      | .answered =>
        -- no row has an origin that is `NULL`
        if ∃ number ∈ odomain ori, ∃ cols ∈ p.plan, Pair.Of ⟨number, id⟩ cols then (true, p.remember met text)
        else (false, p)
      -- `nerr_ignore`
      | .broken => (true, p.remember met text)
  | _, _ => (false, p)

def peel (looks : ℕ → Look) (ori : Bytes) : ℕ → SpdPlugin → List (Option Bytes) → List Told × SpdPlugin
  | _, p, [] => ([], p)
  | i, p, id :: ids =>
    let out := planSpdExist odomain (looks i) p (some ori) id
    let rest := peel looks ori (i + 1) out.2 ids
    (⟨some ori, id, out.1⟩ :: rest.1, rest.2)

def planCmdSpdPeel (q : SpdRequested) (p : SpdPlugin) : Served :=
  match reqGetParamStr q.hdfrcv "ori" with
  | .error err => ⟨.error err, [], p⟩
  | .ok ori =>
    if q.oids = [] then ⟨.error (.badparam "oids"), [], p⟩
    else
      let out := peel odomain q.looks ori 0 p q.oids
      ⟨.ok (.oids ((out.1.filter fun told => !told.exist).map Told.id)), out.1, out.2⟩

def insertPlan (q : SpdRequested) (told : List Told) (p : SpdPlugin) (hdfrcv : Dataset) : Served :=
  match mdbBuildIncol hdfrcv insertColPlan with
  | .error err => ⟨.error (.build err), told, p⟩
  | .ok cols =>
    if q.accepts cols then ⟨.ok (.id (p.plan.length + 1)), told, { p with plan := p.plan ++ [cols] }⟩
    else ⟨.error .db, told, p⟩

def planCmdPlanAdd (q : SpdRequested) (p : SpdPlugin) : Served :=
  let ori := nonempty q.hdfrcv "ori"
  let oid := nonempty q.hdfrcv "oid"
  match memberSetParamMid q.hdfrcv with
  | .error err => ⟨.error err, [], p⟩
  | .ok hdfrcv =>
    match ori with
    | none => insertPlan q [] p hdfrcv
    | some number =>
      let out := planSpdExist odomain (q.looks 0) p ori oid
      let told := [⟨ori, oid, out.1⟩]
      if out.1 then ⟨.error .planed, told, out.2⟩
      else
        insertPlan q told out.2 (match odomain number with
          | some v => hdfSetValue hdfrcv "ori" (some v)
          | none => hdfrcv)

def planProcessDriver (p : SpdPlugin) (q : SpdRequested) : Served :=
  match q.operation with
  | .planAdd => planCmdPlanAdd odomain q p
  | .spdPeel => planCmdSpdPeel odomain q p

def step (p : SpdPlugin) (q : SpdRequested) : SpdPlugin := (planProcessDriver odomain p q).plugin

/-- If the origin has a number, the table has a row of it with that name. -/
def InTable (plan : List Assignments) (ori id : Option Bytes) : Prop :=
  ∀ o ∈ ori, ∀ oid ∈ id, ∀ number ∈ odomain o, ∃ cols ∈ plan, Pair.Of ⟨number, oid⟩ cols

def Truthful (p : SpdPlugin) (q : SpdRequested) : Prop :=
  ∀ told ∈ (planProcessDriver odomain p q).told, told.exist = true → InTable odomain p.plan told.ori told.id

/-- A pair, and what is met when it is looked for. -/
structure Asked where
  pair : Pair
  met : Look

def asks (met : Look) (ori id : Option Bytes) : List Asked :=
  match ori.bind odomain, id with
  | some number, some id => [⟨⟨number, id⟩, met⟩]
  | _, _ => []

def SpdRequested.asked (q : SpdRequested) : List Asked :=
  match q.operation with
  | .planAdd => asks odomain (q.looks 0) (nonempty q.hdfrcv "ori") (nonempty q.hdfrcv "oid")
  | .spdPeel => (q.oids.mapIdx fun i id => asks odomain (q.looks i) (nonempty q.hdfrcv "ori") id).flatten

/-- Any two pairs of the run that look alike in the buffer agree in what was cut, too. -/
def AllCutAlike (qs : List SpdRequested) : Prop :=
  ∀ a ∈ qs.flatMap (·.asked odomain), ∀ b ∈ qs.flatMap (·.asked odomain),
    HeldAlike a.met.getStack b.met.setStack a.pair.text b.pair.text → CutAlike a.pair b.pair

end Commands

def AllAnswered (q : SpdRequested) : Prop := ∀ i, (q.looks i).fate = .answered

/-- What is cached under the key of a pair is in the table. -/
def Cached (as : List Asked) (plan : List Assignments) (key : Bytes) (_ : Unit) : Prop :=
  ∃ a ∈ as, key = formattedKey a.met.setStack a.pair.text ∧ ∃ cols ∈ plan, a.pair.Of cols

section Run
variable {odomain : Bytes → Option Bytes} {as : List Asked} {p : SpdPlugin} {q : SpdRequested} {met : Look}
  {ori id : Option Bytes}

theorem Cached.append {plan : List Assignments} {key : Bytes} {u : Unit} (h : Cached as plan key u)
    (more : List Assignments) : Cached as (plan ++ more) key u := by
  obtain ⟨a, ha, hkey, cols, hcols, hof⟩ := h
  exact ⟨a, ha, hkey, cols, List.mem_append_left _ hcols, hof⟩

theorem mem_asks {o oid number : Bytes} (h : odomain o = some number) :
    ⟨⟨number, oid⟩, met⟩ ∈ asks odomain met (some o) (some oid) := by
  simp only [asks, Option.bind_some, h]
  exact List.mem_singleton_self _

theorem remember_plan (text : Bytes) : (p.remember met text).plan = p.plan := by
  unfold SpdPlugin.remember
  split <;> rfl

theorem remember_backed {text : Bytes} (hcd : Backed (Cached as p.plan) p.cd)
    (h : Cached as p.plan (formattedKey met.setStack text) ()) :
    Backed (Cached as p.plan) (p.remember met text).cd := by
  unfold SpdPlugin.remember
  split
  · exact hcd.put h
  · exact hcd

variable (has : ∀ a ∈ as, ∀ b ∈ as, HeldAlike a.met.getStack b.met.setStack a.pair.text b.pair.text →
  CutAlike a.pair b.pair)
include has

/-- A look tells of plans in the table, and leaves what is cached in order. -/
theorem planSpdExist_spec (hcd : Backed (Cached as p.plan) p.cd) (hin : ∀ a ∈ asks odomain met ori id, a ∈ as)
    (hfate : met.fate = .answered) :
    (planSpdExist odomain met p ori id).2.plan = p.plan ∧
      Backed (Cached as p.plan) (planSpdExist odomain met p ori id).2.cd ∧
      ((planSpdExist odomain met p ori id).1 = true → InTable odomain p.plan ori id) := by
  cases ori with
  | none => exact ⟨rfl, hcd, fun _ => nofun⟩
  | some ori =>
    cases id with
    | none => exact ⟨rfl, hcd, fun _ _ _ => nofun⟩
    | some oid =>
      have hl : Backed (Cached as p.plan) (lapse p.cd met.gone) := hcd.lapse met.gone
      simp only [planSpdExist, hfate]
      split
      · rename_i hhit
        refine ⟨rfl, hl, ?_⟩
        rintro - o ⟨⟩ oid' ⟨⟩ number hnumber
        have hnumber : odomain ori = some number := hnumber
        rw [hnumber, Option.getD_some] at hhit
        obtain ⟨u, hu⟩ := Option.isSome_iff_exists.mp hhit
        obtain ⟨b, hb, hkey, hrow⟩ := hl _ u hu
        have hasked : ⟨⟨number, oid⟩, met⟩ ∈ as := hin _ (mem_asks hnumber)
        have hpair : (⟨number, oid⟩ : Pair) = b.pair :=
          (formattedKey_apart_iff ⟨number, oid⟩ b.pair met.getStack b.met.setStack).mpr (has _ hasked b hb) hkey
        rw [hpair]
        exact hrow
      · split
        · rename_i hrow
          obtain ⟨number, hnumber, hrow⟩ := hrow
          have hnumber : odomain ori = some number := hnumber
          have hasked : ⟨⟨number, oid⟩, met⟩ ∈ as := hin _ (mem_asks hnumber)
          refine ⟨remember_plan _, remember_backed hl ?_, ?_⟩
          · rw [hnumber]
            exact ⟨_, hasked, rfl, hrow⟩
          · rintro - o ⟨⟩ oid' ⟨⟩ number' hnumber'
            obtain rfl : number = number' := Option.some.inj (hnumber.symm.trans hnumber')
            exact hrow
        · exact ⟨rfl, hl, nofun⟩

theorem peel_spec {looks : ℕ → Look} (ori : Bytes) (hfate : ∀ i, (looks i).fate = .answered)
    (ids : List (Option Bytes)) (i : ℕ) (hcd : Backed (Cached as p.plan) p.cd)
    (hin : ∀ j id, ids[j]? = some id → ∀ a ∈ asks odomain (looks (i + j)) (some ori) id, a ∈ as) :
    (peel odomain looks ori i p ids).2.plan = p.plan ∧
      Backed (Cached as p.plan) (peel odomain looks ori i p ids).2.cd ∧
      ∀ told ∈ (peel odomain looks ori i p ids).1, told.exist = true →
        InTable odomain p.plan told.ori told.id := by
  induction ids generalizing i p with
  | nil => exact ⟨rfl, hcd, nofun⟩
  | cons id ids ih =>
    obtain ⟨hplan, hcd', htrue⟩ := planSpdExist_spec has hcd (hin 0 id rfl) (hfate i)
    rw [← hplan] at hcd'
    have hrest := ih (i + 1) hcd' fun j id hj => by
      have hshift : i + 1 + j = i + (j + 1) := by omega
      rw [hshift]
      exact hin (j + 1) id hj
    rw [hplan] at hrest
    obtain ⟨hplan', hcd'', htold⟩ := hrest
    refine ⟨hplan', hcd'', ?_⟩
    intro told hmem
    rcases List.mem_cons.mp hmem with rfl | hmem
    · exact htrue
    · exact htold told hmem

omit has in
/-- A plan that is added hides none, and nothing is looked for. -/
theorem insertPlan_spec {p' : SpdPlugin} (told : List Told) (hdfrcv : Dataset) (hplan : p'.plan = p.plan)
    (hcd : Backed (Cached as p.plan) p'.cd) :
    (insertPlan q told p' hdfrcv).told = told ∧
      Backed (Cached as (insertPlan q told p' hdfrcv).plugin.plan) (insertPlan q told p' hdfrcv).plugin.cd := by
  rw [← hplan] at hcd
  unfold insertPlan
  split
  · exact ⟨rfl, hcd⟩
  · split
    · exact ⟨rfl, fun key u hu => (hcd key u hu).append _⟩
    · exact ⟨rfl, hcd⟩

theorem planCmdPlanAdd_spec (hcd : Backed (Cached as p.plan) p.cd) (hq : AllAnswered q)
    (hin : ∀ a ∈ asks odomain (q.looks 0) (nonempty q.hdfrcv "ori") (nonempty q.hdfrcv "oid"), a ∈ as) :
    (∀ told ∈ (planCmdPlanAdd odomain q p).told, told.exist = true → InTable odomain p.plan told.ori told.id) ∧
      Backed (Cached as (planCmdPlanAdd odomain q p).plugin.plan) (planCmdPlanAdd odomain q p).plugin.cd := by
  simp only [planCmdPlanAdd]
  cases hmid : memberSetParamMid q.hdfrcv with
  | error err => exact ⟨List.forall_mem_nil _, hcd⟩
  | ok hdfrcv =>
    cases hori : nonempty q.hdfrcv "ori" with
    | none =>
      obtain ⟨htold, hcd'⟩ := @insertPlan_spec as p q p [] hdfrcv rfl hcd
      dsimp only
      rw [htold]
      exact ⟨List.forall_mem_nil _, hcd'⟩
    | some ori =>
      rw [hori] at hin
      obtain ⟨hplan, hcd', htrue⟩ := planSpdExist_spec has hcd hin (hq 0)
      have hfirst : ∀ told ∈ [Told.mk (some ori) (nonempty q.hdfrcv "oid")
          (planSpdExist odomain (q.looks 0) p (some ori) (nonempty q.hdfrcv "oid")).1], told.exist = true →
          InTable odomain p.plan told.ori told.id := by
        intro told hmem
        obtain rfl := List.mem_singleton.mp hmem
        exact htrue
      dsimp only
      split
      · refine ⟨hfirst, ?_⟩
        rw [hplan]
        exact hcd'
      · have hinsert := fun told hdfrcv => @insertPlan_spec as p q _ told hdfrcv hplan hcd'
        refine ⟨?_, (hinsert _ _).2⟩
        rw [(hinsert _ _).1]
        exact hfirst

theorem planCmdSpdPeel_spec (hcd : Backed (Cached as p.plan) p.cd) (hq : AllAnswered q)
    (hin : ∀ a ∈ (q.oids.mapIdx fun i id => asks odomain (q.looks i) (nonempty q.hdfrcv "ori") id).flatten, a ∈ as) :
    (∀ told ∈ (planCmdSpdPeel odomain q p).told, told.exist = true → InTable odomain p.plan told.ori told.id) ∧
      Backed (Cached as (planCmdSpdPeel odomain q p).plugin.plan) (planCmdSpdPeel odomain q p).plugin.cd := by
  simp only [planCmdSpdPeel, reqGetParamStr]
  cases hori : nonempty q.hdfrcv "ori" with
  | none => exact ⟨List.forall_mem_nil _, hcd⟩
  | some ori =>
    rw [hori] at hin
    dsimp only
    split
    · exact ⟨List.forall_mem_nil _, hcd⟩
    · obtain ⟨hplan, hcd', htold⟩ := peel_spec has ori hq q.oids 0 hcd fun j id hj a ha => by
        rw [Nat.zero_add] at ha
        apply hin
        apply List.mem_flatten.mpr
        refine ⟨_, List.mem_of_getElem? (i := j) ?_, ha⟩
        rw [List.getElem?_mapIdx, hj]
        rfl
      refine ⟨htold, ?_⟩
      rw [hplan]
      exact hcd'

theorem step_spec (hcd : Backed (Cached as p.plan) p.cd) (hin : ∀ a ∈ q.asked odomain, a ∈ as) (hq : AllAnswered q) :
    Truthful odomain p q ∧ Backed (Cached as (step odomain p q).plan) (step odomain p q).cd := by
  unfold Truthful step planProcessDriver
  unfold SpdRequested.asked at hin
  cases hop : q.operation with
  | planAdd =>
    rw [hop] at hin
    exact planCmdPlanAdd_spec has hcd hq hin
  | spdPeel =>
    rw [hop] at hin
    exact planCmdSpdPeel_spec has hcd hq hin

end Run

def start (plan : List Assignments) : SpdPlugin := ⟨plan, fun _ => none⟩

theorem run_truthful {odomain : Bytes → Option Bytes} {qs : List SpdRequested} (hqs : ∀ q ∈ qs, AllAnswered q)
    (hcut : AllCutAlike odomain qs) (plan : List Assignments) :
    Guarded (step odomain) (Truthful odomain) (start plan) qs := by
  have hstart : Backed (Cached (qs.flatMap (·.asked odomain)) plan) fun _ => none := backed_empty
  apply Guarded.of_invariant (I := fun p => Backed (Cached (qs.flatMap (·.asked odomain)) p.plan) p.cd) ?_ hstart
  intro p q hq hcd
  exact step_spec hcut hcd (fun a ha => List.mem_flatMap.mpr ⟨q, hq, ha⟩) (hqs q hq)

/-- Pairs have keys of their own exactly when nothing is lost in them. When that holds of any two pairs of a run, and
the server answers every query, only what is in the table is told to exist. -/
theorem duplicates_exact_iff (odomain : Bytes → Option Bytes) :
    (∀ (x y : Pair) (stack stack' : ℕ → UInt8),
      (formattedKey stack x.text = formattedKey stack' y.text → x = y) ↔
        (HeldAlike stack stack' x.text y.text → CutAlike x y)) ∧
    ∀ plan qs, (∀ q ∈ qs, AllAnswered q) → AllCutAlike odomain qs →
      Guarded (step odomain) (Truthful odomain) (start plan) qs :=
  ⟨formattedKey_apart_iff, fun plan _ hqs hcut => run_truthful hqs hcut plan⟩

def shipped (ori : Bytes) : Option Bytes := odomain.lookup ori

/-- With its numbers of one digit nothing is lost of a name of up to 1019 bytes. -/
theorem cutAlike_of_short {ori ori' : Bytes} {x y : Pair} (hx : shipped ori = some x.ori)
    (hy : shipped ori' = some y.ori) (hxlen : x.oid.length < maxCachekeyLen - 4)
    (hylen : y.oid.length < maxCachekeyLen - 4) : CutAlike x y := by
  have hone : ∀ entry ∈ odomain, entry.2.length = 1 := by decide
  have hnumber : ∀ {o number : Bytes}, shipped o = some number → number.length = 1 := by
    intro o number h
    obtain ⟨l, r, heq, -⟩ := List.lookup_eq_some_iff.mp h
    exact hone (o, number) (by rw [heq]; exact List.mem_append_right _ List.mem_cons_self)
  have hshort : ∀ z : Pair, z.ori.length = 1 → z.oid.length < maxCachekeyLen - 4 →
      z.text.drop (maxCachekeyLen - 1) = [] := by
    intro z hori hoid
    apply List.drop_eq_nil_of_le
    simp only [Pair.text, spdText, prefixSpd, List.length_append, hori, List.length_cons, List.length_nil]
    omega
  refine ⟨?_, (hnumber hx).trans (hnumber hy).symm⟩
  rw [hshort x (hnumber hx) hxlen, hshort y (hnumber hy) hylen]

/-- Nothing is gone, and the query has the given fate. -/
def meets (fate : Fate) : Look := ⟨fun _ => false, fun _ => 0, fun _ => 0, fate, true⟩

/-- `SPD_PEEL` with names at `58` -/
def peels (fate : Fate) (oids : List (Option Bytes)) : SpdRequested :=
  ⟨.spdPeel, [("ori", some [53, 56])], oids, fun _ => meets fate, fun _ => true⟩

/-- `PLAN_ADD` of a plan at `58` -/
def adds (oid : Bytes) : SpdRequested :=
  ⟨.planAdd, [("mid", some [55]), ("phone", some [49]), ("dad", some [48]), ("repeat", some [48]),
    ("sdate", some [49]), ("ori", some [53, 56]), ("oid", some oid)], [], fun _ => meets .answered, fun _ => true⟩

/-- The first name is taken for a plan in an empty table; and with `a` for 1 and `b` for 10, `05` at the first is
cached as `5` at the second. -/
theorem not_exact_refused :
    ¬ Guarded (step shipped) (Truthful shipped) (start []) [peels .refused [some [49]]] ∧
      formattedKey (fun _ => 0) (Pair.text ⟨[49], [48, 53]⟩) =
        formattedKey (fun _ => 0) (Pair.text ⟨[49, 48], [53]⟩) ∧
      (⟨[49], [48, 53]⟩ : Pair) ≠ ⟨[49, 48], [53]⟩ := by
  refine ⟨?_, by decide, by decide⟩
  rintro ⟨h, -⟩
  obtain ⟨cols, hcols, -⟩ := h ⟨some [53, 56], some [49], true⟩ List.mem_cons_self rfl [53, 56] rfl [49] rfl [49] rfl
  cases hcols

/-- Nothing of the kind is there, one plan is added, and it is found by its name. -/
def addedBetween : List SpdRequested :=
  [peels .answered [some [55]], adds [55], peels .answered [some [56], none, some [55]]]

theorem addedBetween_truthful :
    Guarded (step shipped) (Truthful shipped) (start []) addedBetween := by
  apply (duplicates_exact_iff shipped).2
  · intro q hq i
    simp only [addedBetween, List.mem_cons, List.not_mem_nil, or_false] at hq
    rcases hq with rfl | rfl | rfl <;> rfl
  · intro a ha b hb _
    have hpairs : ∀ a ∈ addedBetween.flatMap (·.asked shipped),
        a.pair.ori = [49] ∧ a.pair.oid.length < maxCachekeyLen - 4 := by decide
    obtain ⟨haori, halen⟩ := hpairs a ha
    obtain ⟨hbori, hblen⟩ := hpairs b hb
    have hshipped : ∀ x : Pair, x.ori = [49] → shipped [53, 56] = some x.ori := by
      intro x hx
      rw [hx]
      rfl
    exact cutAlike_of_short (hshipped _ haori) (hshipped _ hbori) halen hblen

end Cmoon.SpideredPlans
