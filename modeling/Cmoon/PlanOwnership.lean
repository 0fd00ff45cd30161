import Cmoon.MemberRequests

/-! # Whose plan it is

A new plan is sent as the query has it, with the name of the member who is logged in or, for
nobody, with the id 0. The plan plugin makes the id from the name when there is no id yet. -/
namespace Cmoon.PlanOwnership
open DecimalText Datasets StatementBuilding MemberTables NameHashing MemberPlugin MemberCommands MemberRequests
  RequestPrograms

def convertedCol (name : String) (type : ColumnType) : ColumnSpec := ⟨name, name, type, none, false⟩

def insertColPlan : List ColumnSpec :=
  [intCol "mid" true, strCol "phone" 128 true, strCol "contact" 128 false, intCol "ori" false,
    strCol "oid" 64 false, strCol "ourl" 256 false, intCol "dad" true, strCol "nick" 32 false,
    intCol "statu" false, intCol "repeat" true, intCol "seat" false, intCol "fee" false,
    strCol "attach" 256 false, intCol "cityid" false, intCol "scityid" false, intCol "ecityid" false,
    strCol "saddr" 256 false, strCol "eaddr" 256 false, convertedCol "sgeo" .point,
    convertedCol "egeo" .point, strCol "marks" 256 false, convertedCol "rect" .box,
    convertedCol "route" .path, convertedCol "km" .float, strCol "sdate" 16 true, strCol "edate" 16 false,
    convertedCol "stime" .str, convertedCol "etime" .str, intCol "estmin" false]

/-- A plan is kept as the columns that were written; `ori` is 0 and `oid` empty by default. -/
structure PlanEntry where
  plan : List Assignments
  spd : Bytes → Bool

def planInt (cols : Assignments) (col : String) : ℤ :=
  match cols.lookup col with
  | some (.int n) => n
  | _ => 0

def planMid (cols : Assignments) : ℤ := planInt cols "mid"

def planOid (cols : Assignments) : Value :=
  match cols.lookup "oid" with
  | some lit => lit.store
  | none => .text []

/-- `(null)`, which `%s` prints for an origin without a number. -/
def nullText : Bytes := [40, 110, 117, 108, 108, 41]

def planSpdExist (e : PlanEntry) (ori id : Option Bytes) : Bool × PlanEntry :=
  match ori, id with
  | some ori, some id =>
    let number := odomain.lookup ori
    let key := number.getD nullText ++ id
    if e.spd key then (true, e)
    else
      match number with
      | none => (false, e)
      | some number =>
        if e.plan.any fun cols => planInt cols "ori" = atoi number && planOid cols = .text id then
          (true, { e with spd := Function.update e.spd key true })
        else (false, e)
  | _, _ => (false, e)

structure PlanOutcome where
  reply : Reply
  entry : PlanEntry
  inserted : Option Assignments

def planCmdPlanAdd (accepts : Assignments → Bool) (e : PlanEntry) (hdfrcv : Dataset) : PlanOutcome :=
  let ori := nonempty hdfrcv "ori"
  let oid := nonempty hdfrcv "oid"
  match memberSetParamMid hdfrcv with
  | .error err => ⟨.error err, e, none⟩
  | .ok hdfrcv =>
    let (planed, e) := planSpdExist e ori oid
    if planed then ⟨.error .planed, e, none⟩
    else
      match mdbBuildIncol (numberOri hdfrcv) insertColPlan with
      | .error err => ⟨.error (.build err), e, none⟩
      | .ok cols =>
        if accepts cols then
          ⟨.ok [("id", some (printNat (e.plan.length + 1)))], { e with plan := e.plan ++ [cols] }, some cols⟩
        else ⟨.error .db, e, none⟩

/-- A command of one of the two plugins. -/
inductive SiteCommand where
  | member (c : Command)
  | planAdd (hdfsnd : Dataset)

/-- `plan` is what stands below `Query.plan`. -/
structure PlanRequest extends Request where
  plan : Option Dataset

/-- What is sent for the result of the login check. -/
def planData (plan : Dataset) : Except Failure (Option Bytes) → Dataset
  | .ok reserve => hdfSetValue (hdfCopy [] plan) "mname" reserve
  | .error _ => hdfSetValue (hdfCopy [] plan) "mid" (some [48])

/-- Up to the id of the new plan; subscriptions and letters follow. -/
def planLeaveDataAdd (req : PlanRequest) : Program SiteCommand Reply Note (Except Failure ℤ) :=
  match req.plan with
  | none => .done (.error (.need "Query.plan"))
  | some plan =>
    ((memberCheckLoginDataGet req.toRequest).relabel .member).bind fun result =>
      .trigger (.planAdd (planData plan result)) (fun _ => []) fun reply =>
        match reply with
        | .error err => .done (.error (.pro err))
        | .ok hdfrcv =>
          let id := hdfGetIntValue hdfrcv "id" 0
          .done (if id ≤ 0 then .error .addPlan else .ok id)

theorem memberSetParamMid_mid {hdf : Dataset} {v : Bytes} (hv : hdfGetValue hdf "mid" = some v) :
    memberSetParamMid hdf = .ok hdf := by
  rw [memberSetParamMid, hv]

section Add
variable {accepts : Assignments → Bool}

theorem planMid_givenCols {hdf : Dataset} {v : Bytes} (hv : nonempty hdf "mid" = some v) :
    planMid (givenCols hdf insertColPlan) = atoi v := by
  rw [planMid, planInt, givenCols, insertColPlan, List.filterMap_cons]
  simp only [intCol, hv, Option.map_some, ColumnSpec.literal]
  rfl

theorem inserted_mid {e : PlanEntry} {hdf : Dataset} {cols : Assignments}
    (h : (planCmdPlanAdd accepts e hdf).inserted = some cols) :
    ∃ hdf' v, memberSetParamMid hdf = .ok hdf' ∧ nonempty hdf' "mid" = some v ∧ planMid cols = atoi v ∧
      Complete (numberOri hdf') insertColPlan ∧ cols = givenCols (numberOri hdf') insertColPlan ∧
      accepts cols = true := by
  cases hset : memberSetParamMid hdf with
  | error err =>
    simp only [planCmdPlanAdd, hset] at h
    cases h
  | ok hdf' =>
    simp only [planCmdPlanAdd, hset] at h
    split at h
    · cases h
    · split at h
      · cases h
      · rename_i cols' hbuild
        split at h
        · rename_i hacc
          cases h
          obtain ⟨hc, rfl, -⟩ := mdbBuildIncol_ok.mp hbuild
          have hmid : nonempty (numberOri hdf') "mid" ≠ none := hc (intCol "mid" true) (by simp [insertColPlan]) rfl
          rw [nonempty_numberOri hdf' (by decide)] at hmid
          obtain ⟨v, hv⟩ := Option.ne_none_iff_exists'.mp hmid
          have hv' : nonempty (numberOri hdf') "mid" = some v := by rw [nonempty_numberOri hdf' (by decide), hv]
          exact ⟨hdf', v, rfl, hv, planMid_givenCols hv', hc, rfl, hacc⟩
        · cases h

/-- With the required columns there is a statement, as the id is one of them. -/
theorem mdbBuildIncol_plan {data : Dataset} (hc : Complete data insertColPlan) :
    mdbBuildIncol data insertColPlan = .ok (givenCols data insertColPlan) := by
  have hmid := hc (intCol "mid" true) (by simp [insertColPlan]) rfl
  obtain ⟨v, hv⟩ := Option.ne_none_iff_exists'.mp hmid
  apply mdbBuildIncol_ok.mpr
  refine ⟨hc, rfl, ?_⟩
  exact List.ne_nil_of_mem (mem_givenCols.mpr ⟨intCol "mid" true, by simp [insertColPlan], v, hv, rfl, rfl⟩)

/-- In a plugin without plans nothing but the values stands against a plan. -/
theorem inserted_empty {hdf hdf' : Dataset} (hset : memberSetParamMid hdf = .ok hdf')
    (hc : Complete (numberOri hdf') insertColPlan)
    (hacc : accepts (givenCols (numberOri hdf') insertColPlan) = true) :
    (planCmdPlanAdd accepts ⟨[], fun _ => false⟩ hdf).inserted = some (givenCols (numberOri hdf') insertColPlan) := by
  have hspd : ∀ ori oid, planSpdExist ⟨[], fun _ => false⟩ ori oid = (false, ⟨[], fun _ => false⟩) := by
    intro ori oid
    rcases ori with _ | ori <;> rcases oid with _ | oid <;> try rfl
    simp only [planSpdExist, Bool.false_eq_true, if_false, List.any_nil]
    split <;> rfl
  have hbuild := mdbBuildIncol_plan hc
  simp only [planCmdPlanAdd, hset, hspd, Bool.false_eq_true, if_false, hbuild, hacc, if_true]

end Add

def requiredPlan : List String := ["phone", "dad", "repeat", "sdate"]

/-- The columns of a plan whose id is not made by the plugin. -/
def planCols (plan : Dataset) : Assignments := givenCols (numberOri plan) insertColPlan

theorem nonempty_numberOri_mname (plan : Dataset) (reserve : Option Bytes) {name : String} (hn : name ≠ "mname") :
    nonempty (numberOri (hdfSetValue plan "mname" reserve)) name = nonempty (numberOri plan) name := by
  have hori : nonempty (hdfSetValue plan "mname" reserve) "ori" = nonempty plan "ori" := by
    rw [nonempty_set, if_neg (by decide)]
  unfold numberOri
  rw [hori]
  split
  · rw [nonempty_set, nonempty_set, nonempty_set, if_neg hn]
  · rw [nonempty_set, if_neg hn]

theorem planCols_mname (plan : Dataset) (reserve : Option Bytes) :
    planCols (hdfSetValue plan "mname" reserve) = planCols plan := by
  have hne : ∀ spec ∈ insertColPlan, spec.name ≠ "mname" := by decide
  exact givenCols_congr fun spec hspec => nonempty_numberOri_mname plan reserve (hne spec hspec)

theorem complete_plan {plan : Dataset} {v : Bytes} (hv : nonempty plan "mid" = some v) (reserve : Option Bytes) :
    Complete (numberOri (hdfSetValue plan "mname" reserve)) insertColPlan ↔
      ∀ name ∈ requiredPlan, nonempty plan name ≠ none := by
  have hread : ∀ {name}, name ≠ "mname" → name ≠ "ori" →
      nonempty (numberOri (hdfSetValue plan "mname" reserve)) name = nonempty plan name := by
    intro name hname hori
    rw [nonempty_numberOri_mname plan reserve hname, nonempty_numberOri plan hori]
  constructor
  · intro hc name hname
    have hspec : ∀ name ∈ requiredPlan, ∃ spec ∈ insertColPlan, spec.name = name ∧ spec.require = true ∧
        name ≠ "mname" ∧ name ≠ "ori" := by decide
    obtain ⟨spec, hin, rfl, hreq, hne, hori⟩ := hspec name hname
    rw [← hread hne hori]
    exact hc spec hin hreq
  · intro hreq spec hspec hrequire
    have hrequired : ∀ spec ∈ insertColPlan, spec.require = true →
        (spec.name = "mid" ∨ spec.name ∈ requiredPlan) ∧ spec.name ≠ "mname" ∧ spec.name ≠ "ori" := by decide
    obtain ⟨hmid | hin, hne, hori⟩ := hrequired spec hspec hrequire
    · rw [hread hne hori, hmid, hv]
      exact Option.some_ne_none v
    · rw [hread hne hori]
      exact hreq _ hin

/-- Who a plan belongs to: the member the check has passed for, and otherwise nobody. -/
def owner (req : Request) : Except Failure (Option Bytes) → ℤ
  | .ok _ =>
    match credentials req with
    | .ok cred => hashStringRev cred.mname
    | .error _ => 0
  | .error _ => 0

/-- The plan says no id, or the member's own; or it is not inserted, since a field is missing or
the server refuses a value. -/
def OwnerKept (accepts : Assignments → Bool) (plan : Dataset) (mname : Bytes) : Prop :=
  (∀ v, nonempty plan "mid" = some v → atoi v = hashStringRev mname) ∨
    (∃ name ∈ requiredPlan, nonempty plan name = none) ∨ accepts (planCols plan) = false

theorem credentials_reserve {req : Request} {cred : Credentials} (hc : credentials req = .ok cred) {mname : Bytes}
    (hr : cred.reserve = some mname) : cred.mname = mname := by
  unfold credentials at hc
  split at hc
  · cases hc
    cases hr
  · split at hc
    · cases hc
    · split at hc
      · cases hc
      · cases hc
        exact Option.some.inj hr

section Owner
variable {accepts : Assignments → Bool}

/-- Nobody's plan gets the id 0, whatever the query says. -/
theorem nobody_owned {e : PlanEntry} {plan : Dataset} {cols : Assignments}
    (h : (planCmdPlanAdd accepts e (hdfSetValue plan "mid" (some [48]))).inserted = some cols) : planMid cols = 0 := by
  obtain ⟨hdf', v, hset, hv, hmid, -⟩ := inserted_mid h
  rw [memberSetParamMid_mid (by rw [hdfGetValue_set, if_pos rfl])] at hset
  cases hset
  rw [nonempty_set, if_pos rfl] at hv
  cases hv
  rw [hmid]
  decide

section Member
variable {plan : Dataset} {mname : Bytes} {reserve : Option Bytes}

theorem hdfGetValue_mid (plan : Dataset) (reserve : Option Bytes) :
    hdfGetValue (hdfSetValue plan "mname" reserve) "mid" = hdfGetValue plan "mid" := by
  rw [hdfGetValue_set, if_neg (by decide)]

theorem nonempty_mid (plan : Dataset) (reserve : Option Bytes) :
    nonempty (hdfSetValue plan "mname" reserve) "mid" = nonempty plan "mid" := by
  rw [nonempty, hdfGetValue_mid, nonempty]

/-- A `mid` in the plan goes into the row. -/
theorem ownerKept_of_owned
    (h : ∀ e cols, (planCmdPlanAdd accepts e (hdfSetValue plan "mname" reserve)).inserted = some cols →
      planMid cols = hashStringRev mname) : OwnerKept accepts plan mname := by
  by_contra hcon
  simp only [OwnerKept, not_or, not_forall, not_exists, not_and, Bool.not_eq_false] at hcon
  obtain ⟨⟨v, hv, hne⟩, hreq, hacc⟩ := hcon
  have hset := memberSetParamMid_mid ((hdfGetValue_mid plan reserve).trans (nonempty_eq_some.mp hv).1)
  rw [← planCols_mname plan reserve] at hacc
  have hinserted := h _ _ (inserted_empty hset ((complete_plan hv reserve).mpr hreq) hacc)
  rw [planMid_givenCols (by rw [nonempty_numberOri _ (by decide), nonempty_mid, hv])] at hinserted
  exact hne hinserted

theorem memberSetParamMid_name {hdf' : Dataset} {v : Bytes} (hvalue : hdfGetValue plan "mid" = none)
    (hset : memberSetParamMid (hdfSetValue plan "mname" reserve) = .ok hdf') (hv : nonempty hdf' "mid" = some v) :
    ∃ m, reserve = some m ∧ atoi v = hashStringRev m := by
  have hname : nonempty (hdfSetValue plan "mname" reserve) "mname" = reserve.filter (· ≠ []) := by
    rw [nonempty_set, if_pos rfl]
  rw [memberSetParamMid, hdfGetValue_mid, hvalue] at hset
  simp only [reqGetParamStr, hname] at hset
  split at hset
  · rename_i m hm
    cases hset
    rw [nonempty_setInt] at hv
    cases hv
    exact ⟨m, (Option.filter_eq_some_iff.mp hm).1, atoi_printNat (hashStringRev_lt m)⟩
  · cases hset

theorem member_owned_iff (hr : ∀ m, reserve = some m → mname = m) :
    (∀ e cols, (planCmdPlanAdd accepts e (hdfSetValue plan "mname" reserve)).inserted = some cols →
      planMid cols = hashStringRev mname) ↔ OwnerKept accepts plan mname := by
  refine ⟨ownerKept_of_owned, fun hcond e cols h => ?_⟩
  obtain ⟨hdf', v, hset, hv, hmid, hc, hcols, hacc⟩ := inserted_mid h
  rw [hmid]
  cases hvalue : hdfGetValue plan "mid" with
  | some w =>
    rw [memberSetParamMid_mid ((hdfGetValue_mid plan reserve).trans hvalue)] at hset
    cases hset
    rw [nonempty_mid] at hv
    rcases hcond with hown | ⟨name, hin, hnone⟩ | hrefused
    · exact hown v hv
    · exact ((complete_plan hv reserve).mp hc name hin hnone).elim
    · have hsame : cols = planCols plan := hcols.trans (planCols_mname plan reserve)
      rw [hsame, hrefused] at hacc
      cases hacc
  | none =>
    obtain ⟨m, hreserve, hatoi⟩ := memberSetParamMid_name hvalue hset hv
    rw [hatoi, hr m hreserve]

end Member

end Owner

def planFields : Dataset :=
  [("phone", some [49]), ("dad", some [48]), ("repeat", some [48]), ("sdate", some [50])]

/-- `a` posts a plan under the id 5. -/
def foreignPlan : PlanRequest :=
  ⟨⟨[], [("mname", some [97]), ("mmsn", some [84])]⟩, some (("mid", some [53]) :: planFields)⟩

/-- `a` posts a plan that names no id. -/
def ownPlan : PlanRequest := ⟨⟨[], [("mname", some [97]), ("mmsn", some [84])]⟩, some planFields⟩

end Cmoon.PlanOwnership
