import Cmoon.Datasets

/-! # Plans sorted by time

The functions of `mevent_public.c` that give each plan the second at which it starts, and sort plans by how far that is
from the second that was asked for. -/
namespace Cmoon.PlanTimes
open DecimalText Datasets

/-- A child of `plans`: the id of a row, and its columns. -/
structure PlanNode where
  name : Bytes
  cols : Dataset
  deriving DecidableEq

/-- The C library at the time of a call: `localtime` of a second with its day, as `strftime` prints it, and its day of the
week, `wday` in the `struct tm` to which `todaystm` points, and `strptime` and `mktime` of a text, in a `struct tm` that
nobody has initialised. `strptime` leaves its `tm_isdst` as it was, and `mktime` reads it: `tmLeft` is what the one of
`pub_plan_get_abssec` holds before, `tmLeftOf` what that of `plan_prepare_time` holds for a plan. Further
`string_array_split`, the time of a plan moved by the difference of two lengths in kilometres, and `hdf_sort_obj`, which
loses no plan. -/
structure Clock (F : Type) where
  mktime : Bytes → Bytes → ℤ
  tmLeft : Bytes
  tmLeftOf : PlanNode → Bytes
  day : ℤ → Bytes
  weekday : ℤ → ℤ
  wday : ℤ
  split : Bytes → List Bytes
  stretch : F → F → ℤ → ℤ → ℤ
  sortObj : (PlanNode → PlanNode → ℤ) → List PlanNode → List PlanNode
  sortObj_perm : ∀ compare plans, (sortObj compare plans).Perm plans

/-- `localtime` has one `struct tm` for all its results, the one of `todaystm` too. -/
def Clock.localtime {F : Type} (clock : Clock F) (sec : ℤ) : Clock F := { clock with wday := clock.weekday sec }

/-- `strtof`; nothing when there is no number. -/
structure Floats (F : Type) where
  strtof : Bytes → Option F
  zero : F

def lenTm : ℕ := 25

def snprintfTm (s : Bytes) : Bytes := s.take (lenTm - 1)

/-- `PLAN_RPT_NONE`, `PLAN_RPT_DAY` and `PLAN_RPT_WEEK` -/
def planRptNone : ℤ := 0
def planRptDay : ℤ := 1
def planRptWeek : ℤ := 2

/-- `08:00:00` and `2011-11-11` -/
def defaultTime : Bytes := [48, 56, 58, 48, 48, 58, 48, 48]
def defaultDate : Bytes := [50, 48, 49, 49, 45, 49, 49, 45, 49, 49]

/-- An `unsigned int`, read by `strtoul`. -/
def mcsGetUintValue (d : Dataset) (name : String) : ℤ :=
  match (hdfGetValue d name).bind readInt with
  | some x => if 2 ^ 64 ≤ |x| then 2 ^ 32 - 1 else x % 2 ^ 32
  | none => 0

def mcsSetUintValue (d : Dataset) (name : String) (x : ℤ) : Dataset :=
  hdfSetValue d name (some (printInt (x % 2 ^ 32)))

section Times
variable {F : Type} [DecidableEq F] (floats : Floats F) (clock : Clock F)

def mcsGetFloatValue (d : Dataset) (name : String) : F :=
  ((hdfGetValue d name).bind floats.strtof).getD floats.zero

def pubPlanGetAbssec (pdate ptime : Bytes) : ℤ := clock.mktime clock.tmLeft (snprintfTm (pdate ++ 32 :: ptime))

/-- The days from that of `todaystm` to the nearest of the days of the week; 7 when none is nearer. -/
def minday (sdate : Bytes) : ℤ :=
  (clock.split sdate).foldl
    (fun minday item =>
      let away := atoi item - (clock.wday + 1)
      if away.natAbs < minday.natAbs then away else minday) 7

def sdate (cols : Dataset) : Bytes := (hdfGetValue cols "sdate").getD defaultDate

def rpt (cols : Dataset) : ℤ := hdfGetIntValue cols "repeat" planRptNone

/-- A second of the nearest date. -/
def nearsec (thatsec : ℤ) (cols : Dataset) : ℤ := thatsec + minday clock (sdate cols) * (60 * 60 * 24)

def datetime (date : Bytes) (thatsec : ℤ) (cols : Dataset) : Bytes :=
  let stime := (hdfGetValue cols "stime").getD defaultTime
  if rpt cols = planRptDay then snprintfTm (date ++ 32 :: stime)
  else if rpt cols = planRptWeek then snprintfTm (clock.day (nearsec clock thatsec cols) ++ 32 :: stime)
  else snprintfTm (sdate cols ++ 32 :: stime)

/-- The second at which a plan starts; `km` moves it. -/
def startsec (km : F) (thatsec : ℤ) (node : PlanNode) (datetime : Bytes) : ℤ :=
  let tm := clock.mktime (clock.tmLeftOf node) datetime
  if km ≠ floats.zero then clock.stretch km (mcsGetFloatValue floats node.cols "km") thatsec tm else tm

def planPrepareTime (date : Bytes) (km : F) (thatsec : ℤ) (node : PlanNode) : PlanNode :=
  if (hdfGetValue node.cols "epochsec").isSome then node
  else
    let datetime := datetime clock date thatsec node.cols
    { node with
      cols := mcsSetUintValue (hdfSetValue node.cols "datetime" (some datetime)) "epochsec"
        (startsec floats clock km thatsec node datetime) }

/-- The clock behind `plan_prepare_time`: a weekly plan has its day from `localtime`. -/
def afterPrepare (thatsec : ℤ) (node : PlanNode) : Clock F :=
  if (hdfGetValue node.cols "epochsec").isSome then clock
  else if rpt node.cols = planRptWeek then clock.localtime (nearsec clock thatsec node.cols)
  else clock

/-- One plan after the other, each with the clock that those before it have left. -/
def planPrepareTimes (date : Bytes) (km : F) (thatsec : ℤ) (clock : Clock F) : List PlanNode → List PlanNode
  | [] => []
  | node :: nodes =>
    planPrepareTime floats clock date km thatsec node ::
      planPrepareTimes date km thatsec (afterPrepare clock thatsec node) nodes

def pubPlanGetRelsec (node : PlanNode) (thatsec : ℤ) : ℤ :=
  |wrap 32 (mcsGetUintValue node.cols "epochsec" - thatsec)|

def planCompare (thatsec : ℤ) (a b : PlanNode) : ℤ := pubPlanGetRelsec a thatsec - pubPlanGetRelsec b thatsec

def pubPlanSortByTime (plans : List PlanNode) (km : F) (thatsec : ℤ) (pdate : Bytes) : List PlanNode :=
  clock.sortObj (planCompare thatsec) (planPrepareTimes floats pdate km thatsec clock plans)

end Times

/-- What is cut from a text does not matter when more is put behind it and cut. -/
theorem take_append_of_take {α : Type} {n : ℕ} {s t : List α} (h : s.take n = t.take n) (u : List α) :
    (s ++ u).take n = (t ++ u).take n := by
  have hcut : ∀ s : List α, (s ++ u).take n = (s.take n ++ u).take n := by
    intro s
    rw [List.take_append, List.take_append, List.take_take, Nat.min_self, List.length_take]
    congr 2
    omega
  rw [hcut s, hcut t, h]

variable {F : Type} [DecidableEq F] (floats : Floats F) (clock : Clock F)

theorem planPrepareTime_congr {date date' : Bytes} (h : snprintfTm (date ++ [32]) = snprintfTm (date' ++ [32])) (km : F)
    (thatsec : ℤ) : planPrepareTime floats clock date km thatsec = planPrepareTime floats clock date' km thatsec := by
  have hdatetime : datetime clock date thatsec = datetime clock date' thatsec := by
    funext cols
    have htake : ∀ stime, snprintfTm (date ++ 32 :: stime) = snprintfTm (date' ++ 32 :: stime) := by
      intro stime
      have hmore := take_append_of_take h stime
      rw [List.append_assoc, List.append_assoc] at hmore
      exact hmore
    simp only [datetime, htake]
  funext node
  simp only [planPrepareTime, hdatetime]

theorem planPrepareTimes_congr {date date' : Bytes} (h : snprintfTm (date ++ [32]) = snprintfTm (date' ++ [32])) (km : F)
    (thatsec : ℤ) (plans : List PlanNode) :
    planPrepareTimes floats date km thatsec clock plans = planPrepareTimes floats date' km thatsec clock plans := by
  induction plans generalizing clock with
  | nil => rfl
  | cons node plans ih => rw [planPrepareTimes, planPrepareTimes, planPrepareTime_congr floats clock h, ih]

theorem length_planPrepareTimes (date : Bytes) (km : F) (thatsec : ℤ) (plans : List PlanNode) :
    (planPrepareTimes floats date km thatsec clock plans).length = plans.length := by
  induction plans generalizing clock with
  | nil => rfl
  | cons node plans ih => rw [planPrepareTimes, List.length_cons, List.length_cons, ih]

end Cmoon.PlanTimes
