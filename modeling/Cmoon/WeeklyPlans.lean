import Cmoon.NumberEnds
import Cmoon.PlanSorting
import Cmoon.TextLists

/-! # Plans of the week

A weekly plan has a list of weekdays, 1 for Sunday to 7 for Saturday. `plan_prepare_time` takes the one nearest to that of
`todaystm`, without going around the week, and moves the date of the request by as many days. `todaystm` has the weekday of
today, until `localtime` has been asked for the day of another weekly plan. -/
namespace Cmoon.WeeklyPlans
open DecimalText NumberEnds Datasets PlanTimes TextLists
open PlanSorting (inserting)
open MatchingKeys (wholeFloats)
open StatementTexts (ascii)

def nearest (days : List ℤ) (today : ℤ) : Option ℤ := days.minOn? fun day => |day - today|

def nearer (today minday day : ℤ) : ℤ := if (day - today).natAbs < minday.natAbs then day - today else minday

theorem foldl_nearer (today day : ℤ) (days : List ℤ) : days.foldl (nearer today) (day - today) =
    days.foldl (minOn fun day => |day - today|) day - today := by
  induction days generalizing day with
  | nil => rfl
  | cons next days ih =>
    rw [List.foldl_cons, List.foldl_cons, ← ih]
    congr 1
    have hle : |day - today| ≤ |next - today| ↔ ¬ (next - today).natAbs < (day - today).natAbs := by
      rw [Int.abs_eq_natAbs, Int.abs_eq_natAbs]
      omega
    unfold nearer minOn
    by_cases hnear : (next - today).natAbs < (day - today).natAbs
    · rw [if_pos hnear, if_neg (mt hle.mp (not_not_intro hnear))]
    · rw [if_neg hnear, if_pos (hle.mpr hnear)]

theorem foldl_nearer_seven {today : ℤ} {days : List ℤ} (hne : days ≠ [])
    (hnear : ∀ day ∈ days, (day - today).natAbs < 7) :
    ∃ day, nearest days today = some day ∧ days.foldl (nearer today) 7 = day - today := by
  obtain ⟨first, days, rfl⟩ := List.exists_cons_of_ne_nil hne
  have hfirst : nearer today 7 first = first - today := if_pos (hnear first List.mem_cons_self)
  refine ⟨_, rfl, ?_⟩
  rw [List.foldl_cons, hfirst, foldl_nearer]

/-- The weekday of a day since 1970-01-01, which was a Thursday. -/
def weekday (d : ℤ) : ℤ := (d + 4) % 7 + 1

/-- How far it is from a weekday to another one, around the week. -/
def around (a b : ℤ) : ℤ := min ((b - a) % 7) ((a - b) % 7)

theorem around_le {r d : ℤ} : around (weekday r) (weekday d) ≤ |d - r| := by
  have hforth : (weekday d - weekday r) % 7 = (d - r) % 7 := by
    unfold weekday
    omega
  have hback : (weekday r - weekday d) % 7 = (r - d) % 7 := by
    unfold weekday
    omega
  rw [around, hforth, hback, min_le_iff]
  rcases abs_cases (d - r) with ⟨h, hsign⟩ | ⟨h, hsign⟩
  · rw [h]
    exact .inl (by omega)
  · rw [h]
    right
    omega

theorem exists_around (r : ℤ) {day : ℤ} (hday : 1 ≤ day ∧ day ≤ 7) :
    ∃ d, weekday d = day ∧ |d - r| = around (weekday r) day := by
  unfold around weekday
  rcases le_total ((day - ((r + 4) % 7 + 1)) % 7) (((r + 4) % 7 + 1 - day) % 7) with h | h
  · refine ⟨r + (day - ((r + 4) % 7 + 1)) % 7, ?_, ?_⟩
    · omega
    · rw [min_eq_left h, abs_of_nonneg (by omega)]
      omega
  · refine ⟨r - ((r + 4) % 7 + 1 - day) % 7, ?_, ?_⟩
    · omega
    · rw [min_eq_right h, abs_of_nonpos (by omega)]
      omega

/-- A date is the nearest if and only if it is as near as the weekdays are around the week. -/
theorem nearest_iff {days : List ℤ} (hdays : ∀ day ∈ days, 1 ≤ day ∧ day ≤ 7) (r n : ℤ) :
    (∀ d, weekday d ∈ days → n ≤ |d - r|) ↔ ∀ day ∈ days, n ≤ around (weekday r) day := by
  constructor
  · intro h day hday
    obtain ⟨d, rfl, hd⟩ := exists_around r (hdays day hday)
    rw [← hd]
    exact h d hday
  · exact fun h d hd => (h _ hd).trans around_le

def weekText (days : List ℤ) : Bytes := [44].intercalate (days.map printInt)

theorem atoi_weekday {day : ℤ} (hday : 1 ≤ day ∧ day ≤ 7) (rest : Bytes) :
    atoi (printInt day) = day ∧ atoi (printInt day ++ 44 :: rest) = day := by
  obtain ⟨n, rfl⟩ := Int.eq_ofNat_of_zero_le (show 0 ≤ day by omega)
  have hsmall : n < 2 ^ 31 := by omega
  rw [printInt_natCast]
  exact ⟨atoi_printNat hsmall, atoi_printNat_append rfl hsmall rest⟩

theorem atoi_weekText {day : ℤ} (hday : 1 ≤ day ∧ day ≤ 7) (days : List ℤ) : atoi (weekText (day :: days)) = day := by
  unfold weekText
  rw [List.map_cons]
  cases days with
  | nil =>
    rw [List.map_nil, List.intercalate_singleton]
    exact (atoi_weekday hday []).1
  | cons next days =>
    rw [List.map_cons, List.intercalate_cons_cons, List.append_assoc, List.singleton_append]
    exact (atoi_weekday hday _).2

/-- What the code reads of the list: everything up to where it is not cut any more, and one more. -/
theorem atoi_split {days : List ℤ} (hne : days ≠ []) (hdays : ∀ day ∈ days, 1 ≤ day ∧ day ≤ 7) (max : ℕ) :
    (splitMax 44 max (weekText days)).map atoi = days.take (max + 1) := by
  have hitems : days.map printInt ≠ [] := mt List.map_eq_nil_iff.mp hne
  have hcomma : ∀ item ∈ days.map printInt, (44 : UInt8) ∉ item := by
    intro item hitem
    obtain ⟨day, hday, rfl⟩ := List.mem_map.mp hitem
    obtain ⟨hlow, hhigh⟩ := hdays day hday
    interval_cases day <;> decide
  have hread : ∀ days : List ℤ, (∀ day ∈ days, 1 ≤ day ∧ day ≤ 7) → (days.map printInt).map atoi = days := by
    intro days hdays
    rw [List.map_map]
    exact (List.map_congr_left fun day hday => (atoi_weekday (hdays day hday) []).1).trans (List.map_id days)
  rw [weekText, splitMax_intercalate hitems hcomma, List.map_append, ← List.map_take,
    hread _ fun day hday => hdays day (List.mem_of_mem_take hday), List.length_map]
  split
  · rename_i hmore
    rw [List.take_succ_eq_append_getElem hmore, ← List.map_drop, List.drop_eq_getElem_cons hmore]
    exact congrArg (fun day => days.take max ++ [day]) (atoi_weekText (hdays _ (List.getElem_mem hmore)) _)
  · rename_i hall
    rw [List.map_nil, List.append_nil, List.take_of_length_le (by omega), List.take_of_length_le (by omega)]

section Dates
variable {F : Type} [DecidableEq F]

/-- What the C library does with local dates: it knows the day of every second, counted from 1970-01-01, and from
`first` to `last`, the days of the years with four digits, it prints them, each in ten characters of its own. -/
structure Calendar (clock : Clock F) where
  first : ℤ
  last : ℤ
  dayOf : ℤ → ℤ
  text : ℤ → Bytes
  day_eq : ∀ sec, first ≤ dayOf sec → dayOf sec ≤ last → clock.day sec = text (dayOf sec)
  text_length : ∀ d, first ≤ d → d ≤ last → (text d).length = 10
  text_inj : ∀ d e, first ≤ d → d ≤ last → first ≤ e → e ≤ last → text d = text e → d = e
  wday_bounds : 0 ≤ clock.wday ∧ clock.wday < 7

variable {clock : Clock F} (cal : Calendar clock)

/-- The second of a request for a date; it may be one of another day, for what was left in the `struct tm`. -/
def Calendar.thatsec (requested : ℤ) (time : Bytes) : ℤ := pubPlanGetAbssec clock (cal.text requested) time

/-- The day `n` times 24 hours away from a second. -/
def Calendar.moved (sec n : ℤ) : ℤ := cal.dayOf (sec + n * (60 * 60 * 24))

/-- The columns of a weekly plan that has not been dated yet. -/
structure Weekly (cols : Dataset) (days : List ℤ) : Prop where
  fresh : hdfGetValue cols "epochsec" = none
  weekly : hdfGetIntValue cols "repeat" planRptNone = planRptWeek
  sdate : hdfGetValue cols "sdate" = some (weekText days)
  days_ne : days ≠ []
  days_mem : ∀ day ∈ days, 1 ≤ day ∧ day ≤ 7

/-- A request for a date, a week away from the ends of the calendar. -/
def Requested (requested : ℤ) (time : Bytes) : Prop :=
  ∀ n, |n| < 7 → cal.first ≤ cal.moved (cal.thatsec requested time) n ∧
    cal.moved (cal.thatsec requested time) n ≤ cal.last

/-- The plan is dated on one of its weekdays, and no date on one of them is nearer to the requested one. -/
def Dated (floats : Floats F) (km : F) (requested : ℤ) (time : Bytes) (node : PlanNode) (days : List ℤ) : Prop :=
  ∃ d, cal.first ≤ d ∧ d ≤ cal.last ∧
    hdfGetValue (planPrepareTime floats clock (cal.text requested) km (cal.thatsec requested time) node).cols "datetime" =
      some (snprintfTm (cal.text d ++ 32 :: (hdfGetValue node.cols "stime").getD defaultTime)) ∧
    weekday d ∈ days ∧ ∀ d', weekday d' ∈ days → |d - requested| ≤ |d' - requested|

/-- As many days as the nearest weekday of the list, up to the 101st, is away from the one of `todaystm` without going
around the week, it is also from the second of the request to a date on a weekday of the list; and around the week none
is nearer to the requested date. -/
def Follows (requested : ℤ) (time : Bytes) (days : List ℤ) : Prop :=
  ∀ day ∈ nearest (days.take 101) (clock.wday + 1),
    let reached := cal.moved (cal.thatsec requested time) (day - (clock.wday + 1))
    weekday reached ∈ days ∧ ∀ other ∈ days, |reached - requested| ≤ around (weekday requested) other

variable {cal} {node : PlanNode} {days : List ℤ} {requested : ℤ} {time : Bytes}

omit [DecidableEq F] in
theorem minday_eq (hsplit : ∀ s, clock.split s = splitMax 44 100 s) (hweekly : Weekly node.cols days)
    (cal : Calendar clock) :
    ∃ day, nearest (days.take 101) (clock.wday + 1) = some day ∧ |day - (clock.wday + 1)| < 7 ∧
      minday clock (weekText days) = day - (clock.wday + 1) := by
  have hwday := cal.wday_bounds
  have hmem : ∀ day ∈ days.take 101, (day - (clock.wday + 1)).natAbs < 7 := by
    intro day hday
    have hbounds := hweekly.days_mem day (List.mem_of_mem_take hday)
    omega
  have hne : days.take 101 ≠ [] := by
    rw [ne_eq, List.take_eq_nil_iff]
    rintro (h | h)
    · cases h
    · exact hweekly.days_ne h
  obtain ⟨day, hday, hfold⟩ := foldl_nearer_seven hne hmem
  refine ⟨day, hday, ?_, ?_⟩
  · have hnear := hmem day (List.minOn?_mem hday)
    rw [Int.abs_eq_natAbs]
    omega
  · rw [← hfold, ← atoi_split hweekly.days_ne hweekly.days_mem, ← hsplit, List.foldl_map]
    rfl

omit [DecidableEq F] in
theorem snprintfTm_inj {d e : ℤ} (hd : cal.first ≤ d ∧ d ≤ cal.last) (he : cal.first ≤ e ∧ e ≤ cal.last)
    {stime : Bytes} (h : snprintfTm (cal.text d ++ 32 :: stime) = snprintfTm (cal.text e ++ 32 :: stime)) : d = e := by
  have hcut : ∀ c, cal.first ≤ c ∧ c ≤ cal.last → (snprintfTm (cal.text c ++ 32 :: stime)).take 10 = cal.text c := by
    intro c hc
    rw [snprintfTm, List.take_take]
    exact List.take_left' (cal.text_length c hc.1 hc.2)
  apply cal.text_inj d e hd.1 hd.2 he.1 he.2
  rw [← hcut d hd, h, hcut e he]

theorem datetime_weekly (floats : Floats F) (km : F) (hsplit : ∀ s, clock.split s = splitMax 44 100 s)
    (hweekly : Weekly node.cols days) (hrequest : Requested cal requested time) :
    ∃ day, nearest (days.take 101) (clock.wday + 1) = some day ∧
      (cal.first ≤ cal.moved (cal.thatsec requested time) (day - (clock.wday + 1)) ∧
        cal.moved (cal.thatsec requested time) (day - (clock.wday + 1)) ≤ cal.last) ∧
      hdfGetValue (planPrepareTime floats clock (cal.text requested) km (cal.thatsec requested time) node).cols
        "datetime" = some (snprintfTm (cal.text (cal.moved (cal.thatsec requested time) (day - (clock.wday + 1))) ++
          32 :: (hdfGetValue node.cols "stime").getD defaultTime)) := by
  obtain ⟨day, hday, hnear, hminday⟩ := minday_eq hsplit hweekly cal
  have hrange := hrequest _ hnear
  refine ⟨day, hday, hrange, ?_⟩
  have hvalue : hdfGetValue (planPrepareTime floats clock (cal.text requested) km (cal.thatsec requested time) node).cols
      "datetime" = some (datetime clock (cal.text requested) (cal.thatsec requested time) node.cols) := by
    unfold planPrepareTime
    rw [hweekly.fresh]
    simp [mcsSetUintValue]
  rw [hvalue]
  unfold datetime nearsec rpt sdate
  dsimp only
  rw [hweekly.weekly, if_neg (by decide), if_pos rfl, hweekly.sdate, Option.getD_some, hminday,
    cal.day_eq _ hrange.1 hrange.2]
  rfl

end Dates

def twoDigits (n : ℤ) : Bytes := [UInt8.ofNat (48 + (n / 10).toNat), UInt8.ofNat (48 + (n % 10).toNat)]

/-- The days of January 2012, of which the first, a Sunday, is the 15340th since 1970-01-01. -/
def january (d : ℤ) : Bytes := ascii "2012-01-" ++ twoDigits (d - 15339)

/-- The C library in Greenwich, as far as the month goes; there is no other time in summer. -/
def greenwich (wday : ℤ) : Clock ℤ := { inserting with
  mktime := fun _ s =>
    (15339 + atoi (s.drop 8)) * 86400 + (atoi (s.drop 11) * 60 + atoi (s.drop 14)) * 60 + atoi (s.drop 17)
  day := fun sec => january (sec / 86400)
  weekday := fun sec => weekday (sec / 86400) - 1
  wday := wday
  split := splitMax 44 100 }

theorem atoi_january {d : ℤ} (hfirst : 15340 ≤ d) (hlast : d ≤ 15370) : 15339 + atoi ((january d).drop 8) = d := by
  interval_cases d <;> rfl

def calendar (wday : ℤ) (h : 0 ≤ wday ∧ wday < 7) : Calendar (greenwich wday) where
  first := 15340
  last := 15370
  dayOf := (· / 86400)
  text := january
  day_eq := fun _ _ _ => rfl
  text_length := fun _ _ _ => rfl
  text_inj := by
    intro d e hd hd' he he' h
    rw [← atoi_january hd hd', h, atoi_january he he']
  wday_bounds := h

def twice : PlanNode := ⟨[55], [("repeat", some [50]), ("sdate", some (weekText [2, 5]))]⟩

theorem weekly_twice : Weekly twice.cols [2, 5] where
  fresh := rfl
  weekly := rfl
  sdate := rfl
  days_ne := List.cons_ne_nil 2 [5]
  days_mem := by decide

theorem requested_eleventh (wday : ℤ) (h : 0 ≤ wday ∧ wday < 7) :
    Requested (calendar wday h) 15350 defaultTime := by
  intro n hn
  have hsec : (calendar wday h).thatsec 15350 defaultTime = 1326268800 := rfl
  change 15340 ≤ ((calendar wday h).thatsec 15350 defaultTime + n * (60 * 60 * 24)) / 86400 ∧
    ((calendar wday h).thatsec 15350 defaultTime + n * (60 * 60 * 24)) / 86400 ≤ 15370
  rw [hsec]
  rw [abs_lt] at hn
  omega

end Cmoon.WeeklyPlans
