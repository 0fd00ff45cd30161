import Cmoon.PlanMatching
import Cmoon.PlanOwnership

/-! # Leaving a plan

`plan_leave_data_add` adds the plan, then its subscription, and then looks for the subscriptions that the plan meets.
Each of the three goes to a plugin, which checks its parameters when the command comes. -/
namespace Cmoon.PlanLeaving
open DecimalText Datasets StatementBuilding MemberTables MemberPlugin RequestPrograms MemberRequests StatementTexts
open PlanOwnership (PlanEntry PlanRequest SiteCommand insertColPlan planCmdPlanAdd planData planSpdExist)
open PlanReads (reqGetParamInt)
open PlanMatching (plain nearby)

def insertColExpect : List ColumnSpec :=
  [intCol "mid" true, strCol "mname" 256 true, intCol "pid" true, intCol "addrtype" true, intCol "gotime" false,
    intCol "dad" false, PlanOwnership.convertedCol "sgeo" .point, PlanOwnership.convertedCol "rect" .box,
    PlanOwnership.convertedCol "km" .float, intCol "repeat" false, strCol "sdate" 16 false,
    PlanOwnership.convertedCol "stime" .str]

theorem unquoted_rect : (ascii "((rect - @@rect) * point(1.6,0) + @@rect) @>").all (· != 39) = true := by decide

theorem unquoted_km : (ascii "(km / 1.8) <").all (· != 39) = true := by decide

theorem closed_nil : QuotedText.lex sql [] ≠ none := by decide

def queryCondExpect : List QuerySpec :=
  [⟨"dad", plain "dad !=" (by decide), some .int, none, true⟩,
    ⟨"statu", plain "statu =" (by decide), some .int, none, true⟩,
    ⟨"rect", plain "((rect - @@rect) * point(1.6,0) + @@rect) @>" unquoted_rect, some .box, none, false⟩,
    ⟨"sgeo", nearby, some .point, none, false⟩,
    ⟨"km", plain "(km / 1.8) <" unquoted_km, some .float, none, false⟩]

/-- What the search can fail for: the memory or the server. -/
inductive SearchErr where
  | mem
  | db
  deriving DecidableEq

inductive FftErr where
  | rep (err : RepErr)
  | build (err : TextError)
  | search (err : SearchErr)
  deriving DecidableEq

/-- `render` is what the templates of the letters end with: there may be none, or it may not render. -/
inductive LeaveErr where
  | handler (failure : Failure)
  | notLogin
  | fft (err : FftErr)
  | noReceiver
  | noAddress
  | render
  deriving DecidableEq

/-- What a request meets: how the member plugin answers, the plan plugin when the plan comes, the statements that are
taken, what is found for a condition among the subscriptions, and whether the templates of a letter render. -/
structure Met where
  answer : Command → Reply
  plan : PlanEntry
  acceptsPlan : Assignments → Bool
  acceptsExpect : Assignments → Bool
  found : Bytes → Dataset → Except SearchErr (List Dataset)
  renders : String → Bool

/-- The row that `EXPECT_ADD` inserts; nobody waits for its reply. -/
def fftCmdExpectAdd (accepts : Assignments → Bool) (hdfrcv : Dataset) : Option Assignments :=
  match memberSetParamMid hdfrcv with
  | .error _ => none
  | .ok hdfrcv =>
    match StatementBuilding.mdbBuildIncol hdfrcv insertColExpect with
    | .error _ => none
    | .ok cols => if accepts cols then some cols else none

section Request
variable (print : FloatText) (met : Met)

def fftCmdExpectMatch (hdfrcv : Dataset) : Except FftErr (List Dataset) :=
  match reqGetParamInt hdfrcv "id", reqGetParamStr hdfrcv "sdate", reqGetParamStr hdfrcv "stime" with
  | .error err, _, _ | .ok _, .error err, _ | .ok _, .ok _, .error err => .error (.rep err)
  | .ok _, .ok _, .ok _ =>
    match mdbBuildQuerycond print none ⟨[], closed_nil⟩ (hdfSetIntValue hdfrcv "statu" 0) queryCondExpect with
    | .error err => .error (.build err)
    | .ok cond =>
      match met.found (text cond) hdfrcv with
      | .error err => .error (.search err)
      | .ok expects => .ok expects

def fftExpectEmail : ℤ := 2

/-- `inbox_multi_add` and `email_multi_add`, for the subscriptions that are found. -/
def notify (expects : List Dataset) : Option LeaveErr :=
  if expects.all fun expect => hdfGetIntValue expect "mid" 0 ≤ 0 then some .noReceiver
  else if !met.renders "inbox" then some .render
  else
    let byEmail := expects.filter fun expect => hdfGetIntValue expect "addrtype" 0 = fftExpectEmail
    if byEmail.all fun expect => hdfGetValue expect "mname" = none then some .noAddress
    else if !met.renders "email" then some .render
    else none

/-- How a request ends, `none` being `STATUS_OK`, and the rows that were inserted for it. -/
structure Left where
  result : Option LeaveErr
  plan : Option Assignments
  expect : Option Assignments
  deriving DecidableEq

/-- What is sent to the fft plugin with the id of the new plan. -/
def expectData (plan : Dataset) (id expect : ℤ) (mname : Bytes) : Dataset :=
  hdfSetIntValue (hdfSetValue (hdfSetIntValue (hdfCopy [] plan) "addrtype" expect) "mname" (some mname)) "pid" id

def meetExpect (plan : Dataset) (id : ℤ) (inserted expect : Option Assignments) : Left :=
  match fftCmdExpectMatch print met (hdfSetIntValue (hdfCopy [] plan) "id" id) with
  | .error err => ⟨some (.fft err), inserted, expect⟩
  | .ok [] => ⟨none, inserted, expect⟩
  | .ok expects => ⟨notify met expects, inserted, expect⟩

def addSubscribe (plan : Dataset) (mname : Option Bytes) (id : ℤ) (inserted : Option Assignments) : Left :=
  let expect := hdfGetIntValue plan "subscribe" 0
  if expect ≠ 0 then
    match mname with
    | none => ⟨some .notLogin, inserted, none⟩
    | some mname =>
      meetExpect print met plan id inserted (fftCmdExpectAdd met.acceptsExpect (expectData plan id expect mname))
  else meetExpect print met plan id inserted none

/-- The result of the login check; an error is ignored. -/
def login (req : Request) : Except Failure (Option Bytes) := (memberCheckLoginDataGet req).answered met.answer

def planLeaveDataAdd (req : PlanRequest) : Left :=
  match req.plan with
  | none => ⟨some (.handler (.need "Query.plan")), none, none⟩
  | some plan =>
    let result := login met req.toRequest
    let added := planCmdPlanAdd met.acceptsPlan met.plan (planData plan result)
    match added.reply with
    | .error err => ⟨some (.handler (.pro err)), added.inserted, none⟩
    | .ok hdfrcv =>
      let id := hdfGetIntValue hdfrcv "id" 0
      if id ≤ 0 then ⟨some (.handler .addPlan), added.inserted, none⟩
      else addSubscribe print met (hdfSetIntValue plan "id" id) result.toOption.join id added.inserted

/-- The answers of the two plugins up to the id of the plan. -/
def site : SiteCommand → Reply
  | .member c => met.answer c
  | .planAdd hdfsnd => (planCmdPlanAdd met.acceptsPlan met.plan hdfsnd).reply

end Request

def planInserted (met : Met) (req : PlanRequest) : Option Assignments :=
  req.plan.bind fun plan =>
    (planCmdPlanAdd met.acceptsPlan met.plan (planData plan (login met req.toRequest))).inserted

/-- Up to the id it is the handler that the plans of the members are followed through. -/
theorem planLeaveDataAdd_begins (print : FloatText) (met : Met) (req : PlanRequest) :
    planLeaveDataAdd print met req =
      match (PlanOwnership.planLeaveDataAdd req).answered (site met) with
      | .error failure => ⟨some (.handler failure), planInserted met req, none⟩
      | .ok id => addSubscribe print met (hdfSetIntValue (req.plan.getD []) "id" id)
          (login met req.toRequest).toOption.join id (planInserted met req) := by
  unfold PlanOwnership.planLeaveDataAdd planLeaveDataAdd planInserted
  cases req.plan with
  | none => rfl
  | some plan =>
    have hlogin : (memberCheckLoginDataGet req.toRequest).answered (fun c => site met (.member c)) =
        login met req.toRequest := rfl
    dsimp only
    rw [Program.answered_bind, Program.answered_relabel, hlogin, Program.answered, site]
    cases (planCmdPlanAdd met.acceptsPlan met.plan (planData plan (login met req.toRequest))).reply with
    | error err => rfl
    | ok hdfrcv =>
      dsimp only
      by_cases hid : hdfGetIntValue hdfrcv "id" 0 ≤ 0
      · rw [if_pos hid, if_pos hid]
        rfl
      · rw [if_neg hid, if_neg hid]
        rfl

/-- `LERR_NOTLOGIN`, or an error for a parameter that is missing. -/
def LeaveErr.Refuses : LeaveErr → Prop
  | .handler (.need _) | .handler (.loginNeed _) | .handler (.notLogin _) | .handler (.pro (.badparam _))
  | .handler (.pro (.build (.require _ _))) | .notLogin | .fft (.rep (.badparam _))
  | .fft (.build (.require _ _)) => True
  | _ => False

/-- A request that is refused has had nothing inserted. -/
def NotStored (print : FloatText) (met : Met) (req : PlanRequest) : Prop :=
  ∀ err, (planLeaveDataAdd print met req).result = some err → err.Refuses →
    (planLeaveDataAdd print met req).plan = none ∧ (planLeaveDataAdd print met req).expect = none

def added (met : Met) : Dataset := [("id", some (printNat (met.plan.plan.length + 1)))]

def number (met : Met) : ℤ := hdfGetIntValue (added met) "id" 0

/-- The plan plugin inserts what is sent to it: the id is given or made, no other plan has the origin, the columns
are there, and the server takes them and gives the row a number. -/
structure PlanTaken (met : Met) (data : Dataset) : Prop where
  columns : ∃ hdfrcv, memberSetParamMid data = .ok hdfrcv ∧ Complete (MemberPlugin.numberOri hdfrcv) insertColPlan ∧
    met.acceptsPlan (givenCols (MemberPlugin.numberOri hdfrcv) insertColPlan) = true
  fresh : (planSpdExist met.plan (nonempty data "ori") (nonempty data "oid")).1 = false
  number : 0 < number met

/-- The cookies of the request have the name and the token of a member. -/
def LoggedIn (met : Met) (req : Request) : Prop :=
  ∃ cred mname, credentials req = .ok cred ∧ cred.reserve = some mname ∧
    Passed cred (met.answer ⟨.memberGet, [("mname", some cred.mname)]⟩)

/-- Whoever subscribes is logged in by the cookies, and the plan has its time. -/
def Whole (met : Met) (req : PlanRequest) : Prop :=
  ∀ plan, req.plan = some plan → PlanTaken met (planData plan (login met req.toRequest)) →
    (hdfGetIntValue plan "subscribe" 0 = 0 ∨ LoggedIn met req.toRequest) ∧ nonempty plan "stime" ≠ none

variable {print : FloatText} {met : Met} {req : PlanRequest} {plan data : Dataset}

theorem loggedIn_iff : LoggedIn met req.toRequest ↔ (login met req.toRequest).toOption.join ≠ none := by
  unfold LoggedIn login
  rw [checkLogin_answered]
  cases hcred : credentials req.toRequest with
  | error failure =>
    constructor
    · rintro ⟨cred, mname, hok, -⟩
      cases hok
    · intro h
      exact (h rfl).elim
  | ok cred =>
    dsimp only
    cases hreply : met.answer ⟨.memberGet, [("mname", some cred.mname)]⟩ with
    | error err =>
      constructor
      · rintro ⟨cred', mname, hok, -, hdfrcv, hanswer, -⟩
        cases hok
        rw [hreply] at hanswer
        cases hanswer
      · intro h
        exact (h rfl).elim
    | ok hdfrcv =>
      dsimp only
      by_cases htoken : hdfGetValue hdfrcv "mmsn" = some cred.mmsn
      · rw [if_pos htoken]
        constructor
        · rintro ⟨cred', mname, hok, hreserve, -⟩
          cases hok
          change cred.reserve ≠ none
          rw [hreserve]
          exact Option.some_ne_none mname
        · intro h
          obtain ⟨mname, hreserve⟩ := Option.ne_none_iff_exists'.mp h
          exact ⟨cred, mname, rfl, hreserve, hdfrcv, hreply, htoken⟩
      · rw [if_neg htoken]
        constructor
        · rintro ⟨cred', mname, hok, -, hdfrcv', hanswer, htoken'⟩
          cases hok
          rw [hreply] at hanswer
          cases hanswer
          exact (htoken htoken').elim
        · intro h
          exact (h rfl).elim

theorem PlanTaken.of_set (h : PlanTaken met data) {hdfrcv : Dataset} (hset : memberSetParamMid data = .ok hdfrcv) :
    Complete (MemberPlugin.numberOri hdfrcv) insertColPlan ∧
      met.acceptsPlan (givenCols (MemberPlugin.numberOri hdfrcv) insertColPlan) = true := by
  obtain ⟨⟨hdfrcv', hok, hcomplete, haccepted⟩, -, -⟩ := h
  rw [hset] at hok
  cases hok
  exact ⟨hcomplete, haccepted⟩

/-- The plugin inserts a plan and tells its number, or it raises an error. -/
theorem planAdd_cases (met : Met) (data : Dataset) :
    ((planCmdPlanAdd met.acceptsPlan met.plan data).inserted ≠ none ∧
        (planCmdPlanAdd met.acceptsPlan met.plan data).reply = .ok (added met) ∧
        (PlanTaken met data ↔ 0 < number met)) ∨
      ((planCmdPlanAdd met.acceptsPlan met.plan data).inserted = none ∧
        (∃ err, (planCmdPlanAdd met.acceptsPlan met.plan data).reply = .error err) ∧ ¬ PlanTaken met data) := by
  have hplan := PlanReads.planSpdExist_plan met.plan (nonempty data "ori") (nonempty data "oid")
  unfold planCmdPlanAdd
  dsimp only
  cases hset : memberSetParamMid data with
  | error err =>
    refine .inr ⟨rfl, ⟨err, rfl⟩, ?_⟩
    rintro ⟨⟨hdfrcv, hok, -⟩, -, -⟩
    rw [hset] at hok
    cases hok
  | ok hdfrcv =>
    dsimp only
    cases hspd : (planSpdExist met.plan (nonempty data "ori") (nonempty data "oid")).1 with
    | true =>
      refine .inr ⟨rfl, ⟨_, rfl⟩, ?_⟩
      rintro ⟨-, hfresh, -⟩
      rw [hspd] at hfresh
      cases hfresh
    | false =>
      rw [if_neg Bool.false_ne_true]
      by_cases hcomplete : Complete (MemberPlugin.numberOri hdfrcv) insertColPlan
      · rw [PlanOwnership.mdbBuildIncol_plan hcomplete]
        dsimp only
        cases hacc : met.acceptsPlan (givenCols (MemberPlugin.numberOri hdfrcv) insertColPlan) with
        | true =>
          rw [if_pos rfl, hplan]
          refine .inl ⟨Option.some_ne_none _, rfl, ?_⟩
          constructor
          · intro htaken
            exact htaken.number
          · intro hnumber
            exact ⟨⟨hdfrcv, hset, hcomplete, hacc⟩, hspd, hnumber⟩
        | false =>
          refine .inr ⟨rfl, ⟨_, rfl⟩, ?_⟩
          intro htaken
          exact Bool.false_ne_true (hacc.symm.trans (htaken.of_set hset).2)
      · cases hbuild : mdbBuildIncol (MemberPlugin.numberOri hdfrcv) insertColPlan with
        | ok cols => exact (hcomplete (mdbBuildIncol_ok.mp hbuild).1).elim
        | error err =>
          refine .inr ⟨rfl, ⟨_, rfl⟩, ?_⟩
          intro htaken
          exact hcomplete (htaken.of_set hset).1

/-- Apart from the id nothing is made of what is sent. -/
theorem nonempty_memberSetParamMid {hdf hdf' : Dataset} (h : memberSetParamMid hdf = .ok hdf') {name : String}
    (hname : name ≠ "mid") : nonempty hdf' name = nonempty hdf name := by
  unfold memberSetParamMid at h
  split at h
  · cases h
    rfl
  · unfold reqGetParamStr at h
    split at h
    · cases h
      exact nonempty_setInt_of_ne hdf hname _
    · cases h

theorem PlanTaken.given {result : Except Failure (Option Bytes)} (h : PlanTaken met (planData plan result))
    {name : String} (hname : name = "dad" ∨ name = "sdate") : nonempty plan name ≠ none := by
  obtain ⟨⟨hdfrcv, hset, hcomplete, -⟩, -, -⟩ := h
  have hspec : ∃ spec ∈ insertColPlan, spec.name = name ∧ spec.require = true := by
    rcases hname with rfl | rfl
    · exact ⟨intCol "dad" true, by simp [insertColPlan], rfl, rfl⟩
    · exact ⟨strCol "sdate" 16 true, by simp [insertColPlan], rfl, rfl⟩
  have hne : name ≠ "mid" ∧ name ≠ "mname" ∧ name ≠ "ori" := by
    rcases hname with rfl | rfl <;> decide
  obtain ⟨spec, hin, rfl, hrequire⟩ := hspec
  have hgiven := hcomplete spec hin hrequire
  rw [MemberCommands.nonempty_numberOri hdfrcv hne.2.2, nonempty_memberSetParamMid hset hne.1] at hgiven
  cases result with
  | ok reserve =>
    rw [planData, nonempty_set, if_neg hne.2.1, hdfCopy, List.append_nil] at hgiven
    exact hgiven
  | error failure =>
    rw [planData, nonempty_set, if_neg hne.1, hdfCopy, List.append_nil] at hgiven
    exact hgiven

theorem fftCmdExpectMatch_cases (print : FloatText) (met : Met) {hdfrcv : Dataset}
    (hid : hdfGetValue hdfrcv "id" ≠ none) (hdad : nonempty hdfrcv "dad" ≠ none)
    (hsdate : nonempty hdfrcv "sdate" ≠ none) :
    (nonempty hdfrcv "stime" = none ∧
        fftCmdExpectMatch print met hdfrcv = .error (.rep (.badparam "stime"))) ∨
      (nonempty hdfrcv "stime" ≠ none ∧ ((∃ expects, fftCmdExpectMatch print met hdfrcv = .ok expects) ∨
        ∃ err, fftCmdExpectMatch print met hdfrcv = .error (.search err))) := by
  obtain ⟨id, hid⟩ := Option.ne_none_iff_exists'.mp hid
  obtain ⟨sdate, hsdate⟩ := Option.ne_none_iff_exists'.mp hsdate
  obtain ⟨out, hcond⟩ : ∃ out, eachCol (hdfSetIntValue hdfrcv "statu" 0) (addQuerycond print)
      [.fixed []] queryCondExpect = .ok out := by
    apply PlanMatching.eachCol_ok_iff.mpr
    have hrequired : ∀ spec ∈ queryCondExpect, spec.require = true → spec.name = "dad" ∨ spec.name = "statu" := by
      decide
    intro spec hspec hrequire
    rcases hrequired spec hspec hrequire with hname | hname
    · rw [hname, nonempty_setInt_of_ne hdfrcv (by decide)]
      exact hdad
    · have hstatu := nonempty_setInt hdfrcv "statu" 0
      rw [Nat.cast_zero] at hstatu
      rw [hname, hstatu]
      exact Option.some_ne_none _
  unfold fftCmdExpectMatch mdbBuildQuerycond reqGetParamInt reqGetParamStr
  rw [hid, hsdate, hcond]
  cases hstime : nonempty hdfrcv "stime" with
  | none => exact .inl ⟨rfl, rfl⟩
  | some stime =>
    refine .inr ⟨Option.some_ne_none stime, ?_⟩
    dsimp only [Except.map]
    cases met.found (text (orDefault none out)) hdfrcv with
    | error err => exact .inr ⟨err, rfl⟩
    | ok expects => exact .inl ⟨expects, rfl⟩

def Left.Refused (left : Left) : Prop := ∃ err, left.result = some err ∧ err.Refuses

theorem not_refused_of_ok {left : Left} (h : left.result = none) : ¬ left.Refused := by
  rintro ⟨err, herr, -⟩
  rw [h] at herr
  cases herr

theorem refused_iff_of_error {left : Left} {err : LeaveErr} (h : left.result = some err) :
    left.Refused ↔ err.Refuses := by
  constructor
  · rintro ⟨err', herr, hrefuses⟩
    rw [h] at herr
    cases herr
    exact hrefuses
  · intro hrefuses
    exact ⟨err, h, hrefuses⟩

theorem notify_not_refuses (expects : List Dataset) {err : LeaveErr} (h : notify met expects = some err) :
    ¬ err.Refuses := by
  unfold notify at h
  dsimp only at h
  repeat' split at h
  all_goals cases h
  all_goals exact id

theorem meetExpect_refused_iff {id : ℤ} {inserted expect : Option Assignments} (hdad : nonempty plan "dad" ≠ none)
    (hsdate : nonempty plan "sdate" ≠ none) :
    (meetExpect print met plan id inserted expect).Refused ↔ nonempty plan "stime" = none := by
  have hread : ∀ name, name ≠ "id" → nonempty (hdfSetIntValue (hdfCopy [] plan) "id" id) name = nonempty plan name := by
    intro name hname
    rw [nonempty_setInt_of_ne _ hname, hdfCopy, List.append_nil]
  have hid : hdfGetValue (hdfSetIntValue (hdfCopy [] plan) "id" id) "id" ≠ none := by
    rw [hdfSetIntValue, hdfGetValue_set, if_pos rfl]
    exact Option.some_ne_none _
  have hcases := fftCmdExpectMatch_cases print met hid (by rw [hread _ (by decide)]; exact hdad)
    (by rw [hread _ (by decide)]; exact hsdate)
  rw [hread "stime" (by decide)] at hcases
  unfold meetExpect
  rcases hcases with ⟨hstime, herr⟩ | ⟨hstime, ⟨expects, hok⟩ | ⟨err, herr⟩⟩
  · rw [herr]
    exact iff_of_true ⟨_, rfl, trivial⟩ hstime
  · rw [hok]
    apply iff_of_false _ hstime
    cases expects with
    | nil => exact not_refused_of_ok rfl
    | cons first rest =>
      rintro ⟨err, hnotify, hrefuses⟩
      exact notify_not_refuses _ hnotify hrefuses
  · rw [herr]
    apply iff_of_false _ hstime
    rw [refused_iff_of_error rfl]
    exact fun hrefuses => hrefuses

theorem meetExpect_plan (plan : Dataset) (id : ℤ) (inserted expect : Option Assignments) :
    (meetExpect print met plan id inserted expect).plan = inserted := by
  unfold meetExpect
  split <;> rfl

theorem addSubscribe_plan (plan : Dataset) (mname : Option Bytes) (id : ℤ) (inserted : Option Assignments) :
    (addSubscribe print met plan mname id inserted).plan = inserted := by
  unfold addSubscribe
  dsimp only
  split
  · cases mname with
    | none => rfl
    | some mname => exact meetExpect_plan ..
  · exact meetExpect_plan ..

theorem addSubscribe_refused_iff {mname : Option Bytes} {id : ℤ} {inserted : Option Assignments}
    (hdad : nonempty plan "dad" ≠ none) (hsdate : nonempty plan "sdate" ≠ none) :
    (addSubscribe print met plan mname id inserted).Refused ↔
      ¬ ((hdfGetIntValue plan "subscribe" 0 = 0 ∨ mname ≠ none) ∧ nonempty plan "stime" ≠ none) := by
  unfold addSubscribe
  dsimp only
  by_cases hexpect : hdfGetIntValue plan "subscribe" 0 = 0
  · rw [if_neg (not_not_intro hexpect), meetExpect_refused_iff hdad hsdate]
    constructor
    · intro hstime hboth
      exact hboth.2 hstime
    · intro hnot
      by_contra hstime
      exact hnot ⟨.inl hexpect, hstime⟩
  · rw [if_pos hexpect]
    cases mname with
    | none =>
      apply iff_of_true ⟨_, rfl, trivial⟩
      rintro ⟨hsubscribe | hmname, -⟩
      · exact hexpect hsubscribe
      · exact hmname rfl
    | some mname =>
      dsimp only
      rw [meetExpect_refused_iff hdad hsdate]
      constructor
      · intro hstime hboth
        exact hboth.2 hstime
      · intro hnot
        by_contra hstime
        exact hnot ⟨.inr (Option.some_ne_none mname), hstime⟩

/-- A plan that is taken stays, whether the request is refused behind it or not. -/
theorem planLeaveDataAdd_taken (print : FloatText) (hplan : req.plan = some plan)
    (h : PlanTaken met (planData plan (login met req.toRequest))) :
    (planLeaveDataAdd print met req).plan ≠ none ∧
      ((planLeaveDataAdd print met req).Refused ↔
        ¬ ((hdfGetIntValue plan "subscribe" 0 = 0 ∨ LoggedIn met req.toRequest) ∧ nonempty plan "stime" ≠ none)) := by
  rcases planAdd_cases met (planData plan (login met req.toRequest)) with
    ⟨hinserted, hreply, -⟩ | ⟨-, -, hnot⟩
  · have hread : ∀ name, name ≠ "id" → nonempty (hdfSetIntValue plan "id" (number met)) name = nonempty plan name :=
      fun name hname => nonempty_setInt_of_ne plan hname _
    have hsubscribe : hdfGetIntValue (hdfSetIntValue plan "id" (number met)) "subscribe" 0 =
        hdfGetIntValue plan "subscribe" 0 := by
      rw [hdfGetIntValue, hdfSetIntValue, hdfGetValue_set, if_neg (by decide), hdfGetIntValue]
    have heq : planLeaveDataAdd print met req =
        addSubscribe print met (hdfSetIntValue plan "id" (number met)) (login met req.toRequest).toOption.join
          (number met) (planCmdPlanAdd met.acceptsPlan met.plan (planData plan (login met req.toRequest))).inserted := by
      unfold planLeaveDataAdd
      rw [hplan]
      dsimp only
      rw [hreply]
      exact if_neg (not_le.mpr h.number)
    have hdad := h.given (.inl rfl)
    have hsdate := h.given (.inr rfl)
    rw [← hread "dad" (by decide)] at hdad
    rw [← hread "sdate" (by decide)] at hsdate
    rw [heq, addSubscribe_plan, addSubscribe_refused_iff hdad hsdate, hsubscribe, hread "stime" (by decide),
      loggedIn_iff]
    exact ⟨hinserted, Iff.rfl⟩
  · exact (hnot h).elim

theorem planLeaveDataAdd_not_taken (print : FloatText) (hplan : req.plan = some plan)
    (h : ¬ PlanTaken met (planData plan (login met req.toRequest))) : NotStored print met req := by
  unfold NotStored planLeaveDataAdd
  rw [hplan]
  dsimp only
  rcases planAdd_cases met (planData plan (login met req.toRequest)) with
    ⟨-, hreply, htaken⟩ | ⟨hnone, ⟨err, hreply⟩, -⟩
  · have hid : hdfGetIntValue (added met) "id" 0 ≤ 0 := not_lt.mp fun hnumber => h (htaken.mpr hnumber)
    rw [hreply]
    dsimp only
    rw [if_pos hid]
    intro err herr hrefuses
    cases herr
    exact hrefuses.elim
  · rw [hreply, hnone]
    intro _ _ _
    exact ⟨rfl, rfl⟩

/-- A subscription of somebody who is not logged in, with all that a plan needs. -/
def nobodySubscribes : PlanRequest :=
  ⟨⟨[], []⟩, some (("subscribe", some [49]) :: ("stime", some [49]) :: PlanOwnership.planFields)⟩

def taking : Met where
  answer _ := .error .notFound
  plan := ⟨[], fun _ => false⟩
  acceptsPlan _ := true
  acceptsExpect _ := true
  found _ _ := .ok []
  renders _ := true

def noFloats : FloatText := ⟨fun _ => [], fun _ => List.forall_mem_nil _⟩

end Cmoon.PlanLeaving
