import Cmoon.MatchingAnswers
import Cmoon.MatchingTables

/-! # Requests of which not the same is used

There are tables and times at which they are answered differently. -/
namespace Cmoon.MatchingTells
open DecimalText Datasets PlanTimes PlanMatching StatementTexts MatchingAnswers MatchingTables

section One
variable {F : Type}

def Keeps (lim : Limit) (relsec : ℤ) : Prop :=
  match lim with
  | .secs n => relsec < n
  | .count n => 0 < n

theorem cut_near {lim : Limit} {thatsec : ℤ} {node : PlanNode} (h : Keeps lim (pubPlanGetRelsec node thatsec)) :
    lim.cut thatsec [node] 1 = [node] := by
  cases lim with
  | secs n =>
    have hnear : pubPlanGetRelsec node thatsec < n := h
    rw [Limit.cut, List.filter_cons, if_pos (decide_eq_true hnear), List.filter_nil]
  | count n =>
    have hn : 0 < n := h
    rw [Limit.cut, if_neg (by omega)]

theorem cut_far {n thatsec : ℤ} {node : PlanNode} (h : n ≤ pubPlanGetRelsec node thatsec) :
    (Limit.secs n).cut thatsec [node] 1 = [] := by
  have hfar : ¬ decide (pubPlanGetRelsec node thatsec < n) = true := fun hnear =>
    absurd (of_decide_eq_true hnear) (not_lt.mpr h)
  rw [Limit.cut, List.filter_cons, if_neg hfar, List.filter_nil]

/-- A clock that leaves plans in their order, whatever was left in a `struct tm`. -/
def steady (mktime : Bytes → ℤ) (day : ℤ → Bytes) (stretch : F → ℤ) : Clock F where
  mktime _ := mktime
  tmLeft := []
  tmLeftOf _ := []
  day := day
  weekday _ := 0
  wday := 0
  split _ := []
  stretch km _ _ _ := stretch km
  sortObj _ plans := plans
  sortObj_perm _ plans := .refl plans

def planRow (rpt : ℕ) (sdate : Bytes) : PlanNode :=
  ⟨[], hdfSetIntValue [("sdate", some sdate), ("stime", some [])] "repeat" rpt⟩

variable [DecidableEq F] {floats : Floats F} {mktime : Bytes → ℤ} {dayOf : ℤ → Bytes} {stretch : F → ℤ}

/-- The text that the plan gets; `day` is the beginning of the date. -/
def rowText (dayOf : ℤ → Bytes) (day : Bytes) (thatsec : ℤ) (rpt : ℕ) (sdate : Bytes) : Bytes :=
  if rpt = 1 then day
  else if rpt = 2 then snprintfTm (dayOf (thatsec + 7 * (60 * 60 * 24)) ++ [32])
  else snprintfTm (sdate ++ [32])

def rowStart (floats : Floats F) (mktime : Bytes → ℤ) (stretch : F → ℤ) (km : F) (text : Bytes) : ℤ :=
  if km ≠ floats.zero then stretch km else mktime text

def Shows (text : Bytes) (start : ℤ) (node : PlanNode) : Prop :=
  hdfGetValue node.cols "datetime" = some text ∧ hdfGetValue node.cols "epochsec" = some (printInt (start % 2 ^ 32))

theorem hdfGetValue_copy_self (d : Dataset) (name : String) : hdfGetValue (hdfCopy d d) name = hdfGetValue d name := by
  rw [hdfGetValue_copy, ite_self]

theorem prepared_shows (pdate : Bytes) (km : F) (thatsec : ℤ) {rpt : ℕ} (hrpt : rpt < 2 ^ 31) (sdate : Bytes) :
    ∃ node, planPrepareTimes floats pdate km thatsec (steady mktime dayOf stretch)
        (foundOne (planRow rpt sdate)).plans = [node] ∧
      Shows (rowText dayOf (snprintfTm (pdate ++ [32])) thatsec rpt sdate)
        (rowStart floats mktime stretch km (rowText dayOf (snprintfTm (pdate ++ [32])) thatsec rpt sdate)) node := by
  let cols := hdfCopy (planRow rpt sdate).cols (planRow rpt sdate).cols
  have hread : ∀ name, name ≠ "repeat" → hdfGetValue cols name =
      hdfGetValue [("sdate", some sdate), ("stime", some [])] name := by
    intro name hname
    exact (hdfGetValue_copy_self _ name).trans ((hdfGetValue_set _ _ _ _).trans (if_neg hname))
  have hepochsec : hdfGetValue cols "epochsec" = none := hread "epochsec" (by decide)
  have hstime : hdfGetValue cols "stime" = some [] := hread "stime" (by decide)
  have hsdate : hdfGetValue cols "sdate" = some sdate := hread "sdate" (by decide)
  have hrepeat : hdfGetIntValue cols "repeat" planRptNone = rpt := by
    rw [hdfGetIntValue, hdfGetValue_copy_self]
    exact hdfGetIntValue_set _ _ hrpt _
  have hdatetime : datetime (steady mktime dayOf stretch) pdate thatsec cols =
      rowText dayOf (snprintfTm (pdate ++ [32])) thatsec rpt sdate := by
    have hday : ((rpt : ℤ) = planRptDay) = (rpt = 1) := propext Nat.cast_eq_one
    have hweek : ((rpt : ℤ) = planRptWeek) = (rpt = 2) := by
      unfold planRptWeek
      apply propext
      omega
    simp only [datetime, PlanTimes.rpt, PlanTimes.sdate, hstime, hsdate, hrepeat, Option.getD_some, rowText, hday, hweek]
    unfold nearsec PlanTimes.sdate
    rw [hsdate]
    rfl
  have hunset : ¬ (hdfGetValue cols "epochsec").isSome = true := by
    rw [hepochsec, Option.isSome_none]
    exact Bool.false_ne_true
  refine ⟨_, rfl, ?_⟩
  unfold planPrepareTime
  rw [if_neg hunset, hdatetime]
  unfold Shows mcsSetUintValue
  dsimp only
  rw [hdfGetValue_set, hdfGetValue_set, hdfGetValue_set, if_neg (by decide), if_pos rfl, if_pos rfl]
  exact ⟨rfl, rfl⟩

theorem relsec_shows {text : Bytes} {start : ℤ} {node : PlanNode} (h : Shows text start node) (thatsec : ℤ) :
    pubPlanGetRelsec node thatsec = |wrap 32 (start % 2 ^ 32 - thatsec)| := by
  have hpos : 0 ≤ start % 2 ^ 32 := Int.emod_nonneg start (by decide)
  have hlt : start % 2 ^ 32 < 2 ^ 32 := Int.emod_lt_of_pos start (by decide)
  have hfits : ¬ 2 ^ 64 ≤ |start % 2 ^ 32| := by
    rw [abs_of_nonneg hpos]
    omega
  have hread : mcsGetUintValue node.cols "epochsec" = start % 2 ^ 32 := by
    rw [mcsGetUintValue, h.2, Option.bind_some, readInt_printInt]
    dsimp only
    rw [if_neg hfits]
    exact Int.emod_eq_of_lt hpos hlt
  rw [pubPlanGetRelsec, hread]

variable {p : Params F} {day that : Bytes} {km : F} {lim : Limit}

theorem reply_one (h : used p = .sorted day that km lim) {rpt : ℕ} (hrpt : rpt < 2 ^ 31) (sdate : Bytes) :
    ∃ node, Shows (rowText dayOf day (mktime that) rpt sdate)
        (rowStart floats mktime stretch km (rowText dayOf day (mktime that) rpt sdate)) node ∧
      (reply floats (steady mktime dayOf stretch) p (foundOne (planRow rpt sdate))).plans =
        lim.cut (mktime that) [node] 1 := by
  obtain ⟨pdate, -, -, rfl, -⟩ := used_eq_sorted h
  obtain ⟨node, hnode, hshows⟩ := @prepared_shows F _ floats mktime dayOf stretch pdate km (mktime that) _ hrpt sdate
  refine ⟨node, hshows, ?_⟩
  have hsort : pubPlanSortByTime floats (steady mktime dayOf stretch) (foundOne (planRow rpt sdate)).plans km
      (mktime that) pdate = [node] := hnode
  rw [reply_sorted floats _ _ h]
  exact congrArg (fun plans => lim.cut (mktime that) plans 1) hsort

end One

section Sorted
variable {F : Type} [DecidableEq F] {floats : Floats F} {p p' : Params F} {day day' that that' : Bytes} {km km' : F}
  {lim lim' : Limit}

def RepliedAlike (floats : Floats F) (p p' : Params F) : Prop :=
  ∀ clock found, Findable found → reply floats clock p found = reply floats clock p' found

theorem RepliedAlike.symm (h : RepliedAlike floats p p') : RepliedAlike floats p' p :=
  fun clock found hfound => (h clock found hfound).symm

omit [DecidableEq F] in
theorem keeps_small (h : used p = .sorted day that km lim) (hn : 0 < p.nmax) {relsec : ℤ} (hrel : relsec < 128) :
    Keeps lim relsec := by
  cases lim with
  | secs n => exact lt_of_lt_of_le hrel (secs_of_sorted h)
  | count n =>
    obtain ⟨pdate, -, -, -, -, -, hlimit⟩ := used_eq_sorted h
    unfold limit at hlimit
    split at hlimit
    · cases hlimit
    · rw [← Limit.count.inj hlimit]
      exact hn

def Small (x : ℤ) : Prop := 0 ≤ x ∧ x < 128

instance (x : ℤ) : Decidable (Small x) := inferInstanceAs (Decidable (_ ∧ _))

theorem relsec_small {x y : ℤ} (hx : Small x) (hy : Small y) : |wrap 32 (x % 2 ^ 32 - y)| < 128 := by
  obtain ⟨hx₀, hx₁⟩ := hx
  obtain ⟨hy₀, hy₁⟩ := hy
  rw [abs_lt, wrap, Int.bmod_def]
  split <;> constructor <;> omega

section Tell
variable {mktime : Bytes → ℤ} {dayOf : ℤ → Bytes} {stretch : F → ℤ} (hmktime : ∀ text, Small (mktime text))
  (hstretch : ∀ km, Small (stretch km))
include hmktime hstretch

theorem reply_small (h : used p = .sorted day that km lim) (hn : 0 < p.nmax) {rpt : ℕ} (hrpt : rpt < 2 ^ 31)
    (sdate : Bytes) : ∃ node, Shows (rowText dayOf day (mktime that) rpt sdate)
        (rowStart floats mktime stretch km (rowText dayOf day (mktime that) rpt sdate)) node ∧
      (reply floats (steady mktime dayOf stretch) p (foundOne (planRow rpt sdate))).plans = [node] := by
  obtain ⟨node, hshows, hplans⟩ := @reply_one F _ floats mktime dayOf stretch p day that km lim h rpt hrpt sdate
  refine ⟨node, hshows, hplans.trans (cut_near ?_)⟩
  rw [relsec_shows hshows]
  apply keeps_small h hn
  apply relsec_small _ (hmktime that)
  unfold rowStart
  split
  · exact hstretch km
  · exact hmktime _

theorem shows_alike (halike : RepliedAlike floats p p') (h : used p = .sorted day that km lim)
    (h' : used p' = .sorted day' that' km' lim') (hn : 0 < p.nmax) (hn' : 0 < p'.nmax) {rpt : ℕ} (hrpt : rpt < 2 ^ 31)
    (sdate : Bytes) :
    rowText dayOf day (mktime that) rpt sdate = rowText dayOf day' (mktime that') rpt sdate ∧
      rowStart floats mktime stretch km (rowText dayOf day (mktime that) rpt sdate) % 2 ^ 32 =
        rowStart floats mktime stretch km' (rowText dayOf day' (mktime that') rpt sdate) % 2 ^ 32 := by
  obtain ⟨node, hshows, hplans⟩ := @reply_small F _ floats p day that km lim mktime dayOf stretch hmktime hstretch h hn
    rpt hrpt sdate
  obtain ⟨node', hshows', hplans'⟩ := @reply_small F _ floats p' day' that' km' lim' mktime dayOf stretch hmktime
    hstretch h' hn' rpt hrpt sdate
  have hsame : [node] = [node'] := by
    rw [← hplans, ← hplans', halike _ _ (findable_one _)]
  obtain rfl := List.singleton_inj.mp hsame
  exact ⟨Option.some.inj (hshows.1.symm.trans hshows'.1),
    printInt_injective (Option.some.inj (hshows.2.symm.trans hshows'.2))⟩

end Tell

theorem small_zero : Small 0 := by decide

def still (F : Type) : Clock F := steady (fun _ => 0) (fun _ => []) fun _ => 0

/-- A daily plan gets the date of the request. -/
theorem reply_still (h : used p = .sorted day that km lim) (hn : 0 < p.nmax) :
    ∃ node, hdfGetValue node.cols "datetime" = some day ∧
      (reply floats (still F) p (foundOne (planRow 1 []))).plans = [node] := by
  have hzero : ∀ {α : Type} (_ : α), Small 0 := fun _ => small_zero
  obtain ⟨node, hshows, hplans⟩ := @reply_small F _ floats p day that km lim (fun _ => 0) (fun _ => []) (fun _ => 0) hzero
    hzero h hn 1 (by decide) []
  exact ⟨node, hshows.1, hplans⟩

theorem day_of_alike (halike : RepliedAlike floats p p') (h : used p = .sorted day that km lim)
    (h' : used p' = .sorted day' that' km' lim') (hn : 0 < p.nmax) (hn' : 0 < p'.nmax) : day = day' := by
  obtain ⟨node, hday, hplans⟩ := @reply_still F _ floats p day that km lim h hn
  obtain ⟨node', hday', hplans'⟩ := @reply_still F _ floats p' day' that' km' lim' h' hn'
  rw [halike (still F) _ (findable_one _), hplans'] at hplans
  obtain rfl := List.singleton_inj.mp hplans
  exact Option.some.inj (hday.symm.trans hday')

/-- A weekly plan, when only the second asked for is the beginning of time. -/
theorem that_of_alike (halike : RepliedAlike floats p p') (h : used p = .sorted day that km lim)
    (h' : used p' = .sorted day' that' km' lim') (hn : 0 < p.nmax) (hn' : 0 < p'.nmax) : that = that' := by
  let mktime : Bytes → ℤ := fun text => if text = that then 0 else 1
  let dayOf : ℤ → Bytes := fun s => if s = 0 + 7 * (60 * 60 * 24) then [1] else []
  have hmktime : ∀ text, Small (mktime text) := by
    intro text
    dsimp only [mktime]
    split <;> decide
  have htext := (@shows_alike F _ floats p p' day day' that that' km km' lim lim' mktime dayOf (fun _ => 0) hmktime
    (fun _ => small_zero) halike h h' hn hn' 2 (by decide) []).1
  by_contra hne
  have hthat : mktime that = 0 := if_pos rfl
  have hthat' : mktime that' = 1 := if_neg (Ne.symm hne)
  rw [hthat, hthat'] at htext
  have hnext : rowText dayOf day 0 2 [] = [1, 32] := rfl
  have hlast : rowText dayOf day' 1 2 [] = [32] := rfl
  rw [hnext, hlast] at htext
  exact absurd htext (by decide)

theorem km_of_alike (halike : RepliedAlike floats p p') (h : used p = .sorted day that km lim)
    (h' : used p' = .sorted day' that' km' lim') (hn : 0 < p.nmax) (hn' : 0 < p'.nmax) : km = km' := by
  let stretch : F → ℤ := fun k => if k = km then 1 else 2
  have hstretch : ∀ k, Small (stretch k) := by
    intro k
    dsimp only [stretch]
    split <;> decide
  have hstart := (@shows_alike F _ floats p p' day day' that that' km km' lim lim' (fun _ => 0) (fun _ => []) stretch
    (fun _ => small_zero) hstretch halike h h' hn hn' 1 (by decide) []).2
  by_contra hne
  have hkm : stretch km = 1 := if_pos rfl
  have hkm' : stretch km' = 2 := if_neg (Ne.symm hne)
  unfold rowStart at hstart
  rw [hkm, hkm'] at hstart
  by_cases hzero : km = floats.zero
  · have hzero' : km' ≠ floats.zero := fun hzero' => hne (hzero.trans hzero'.symm)
    rw [if_neg (not_not.mpr hzero), if_pos hzero'] at hstart
    exact absurd (show (0 : ℤ) % 2 ^ 32 = 2 % 2 ^ 32 from hstart) (by decide)
  · rw [if_pos hzero] at hstart
    split at hstart
    · exact absurd hstart (by decide)
    · exact absurd (show (1 : ℤ) % 2 ^ 32 = 0 % 2 ^ 32 from hstart) (by decide)

/-- A plan that is as far away as one limit only lets through. -/
theorem not_secs_of_alike {n : ℤ} (halike : RepliedAlike floats p p') (h : used p = .sorted day that km (.secs n))
    (h' : used p' = .sorted day that km lim') (hkeep : Keeps lim' n) : False := by
  obtain ⟨sdate, hsdate⟩ : ∃ sdate, snprintfTm (sdate ++ [32]) ≠ that := by
    by_cases hempty : that = [32]
    · exact ⟨[1], fun heq => absurd (heq.trans hempty) (by decide)⟩
    · exact ⟨[], fun heq => hempty heq.symm⟩
  let mktime : Bytes → ℤ := fun text => if text = that then 0 else n
  have hthat : mktime that = 0 := if_pos rfl
  have hstart : rowStart floats mktime (fun _ => n) km (rowText (fun _ => []) day (mktime that) 0 sdate) = n := by
    unfold rowStart
    split
    · rfl
    · exact if_neg hsdate
  have hmax : n < 2 ^ 31 := by
    obtain ⟨pdate, -, -, -, -, -, hlimit⟩ := used_eq_sorted h
    unfold limit at hlimit
    split at hlimit
    · rw [← Limit.secs.inj hlimit, maxsec, wrap, Int.bmod_def]
      split <;> omega
    · cases hlimit
  have hrel : |wrap 32 (n % 2 ^ 32 - 0)| = n := by
    have hn : 128 ≤ n := secs_of_sorted h
    have hwrap : wrap 32 (n % 2 ^ 32 - 0) = n := by
      rw [wrap, Int.bmod_def]
      split <;> omega
    rw [hwrap, abs_of_nonneg (by omega)]
  obtain ⟨node, hshows, hplans⟩ := @reply_one F _ floats mktime (fun _ => []) (fun _ => n) p day that km _ h 0 (by decide)
    sdate
  obtain ⟨node', hshows', hplans'⟩ := @reply_one F _ floats mktime (fun _ => []) (fun _ => n) p' day that km _ h' 0
    (by decide) sdate
  have hfar : pubPlanGetRelsec node (mktime that) = n := by
    rw [relsec_shows hshows, hstart, hthat, hrel]
  have hnear : pubPlanGetRelsec node' (mktime that) = n := by
    rw [relsec_shows hshows', hstart, hthat, hrel]
  have hsame := congrArg Matched.plans (halike (steady mktime (fun _ => []) fun _ => n) _
    (findable_one (planRow 0 sdate)))
  rw [hplans, hplans', cut_far hfar.ge, cut_near (hnear.symm ▸ hkeep)] at hsame
  cases hsame

theorem not_count_of_alike {n n' : ℤ} (halike : RepliedAlike floats p p')
    (h : used p = .sorted day that km (.count n)) (h' : used p' = .sorted day that km (.count n')) (hn : 0 < n)
    (hlt : n < n') : False := by
  obtain ⟨plans, hlength, hfound⟩ := @findable_many (n.toNat + 1) (Nat.succ_pos _)
  obtain ⟨pdate, -, -, rfl, -⟩ := used_eq_sorted h
  have hsame := congrArg (fun reply => reply.plans.length) (halike (still F) _ hfound)
  rw [reply_sorted floats _ _ h, reply_sorted floats _ _ h'] at hsame
  have hfew : n < ((n.toNat + 1 : ℕ) : ℤ) := by omega
  have hall : ¬ n' < ((n.toNat + 1 : ℕ) : ℤ) := by omega
  simp only [Limit.cut, if_pos hfew, if_neg hall, pubPlanSortByTime, still, steady, List.length_take,
    length_planPrepareTimes, hlength] at hsame
  omega

theorem limit_of_alike (halike : RepliedAlike floats p p') (h : used p = .sorted day that km lim)
    (h' : used p' = .sorted day that km lim') (hn : 0 < p.nmax) (hn' : 0 < p'.nmax) : lim = lim' := by
  have hcount : ∀ {p : Params F} {n : ℤ}, used p = .sorted day that km (.count n) → 0 < p.nmax → 0 < n :=
    fun h hn => keeps_small h hn (show (0 : ℤ) < 128 by decide)
  cases lim with
  | secs n =>
    cases lim' with
    | secs n' =>
      rcases lt_trichotomy n n' with hlt | rfl | hlt
      · exact (not_secs_of_alike halike h h' hlt).elim
      · rfl
      · exact (not_secs_of_alike halike.symm h' h hlt).elim
    | count n' => exact (not_secs_of_alike halike h h' (hcount h' hn')).elim
  | count n =>
    cases lim' with
    | secs n' => exact (not_secs_of_alike halike.symm h' h (hcount h hn)).elim
    | count n' =>
      rcases lt_trichotomy n n' with hlt | rfl | hlt
      · exact (not_count_of_alike halike h h' (hcount h hn) hlt).elim
      · rfl
      · exact (not_count_of_alike halike.symm h' h (hcount h' hn') hlt).elim

/-- Without a date a daily plan is left as it is. -/
theorem asFound_of_alike (halike : RepliedAlike floats p p') (hn' : 0 < p'.nmax) (h : used p = .asFound) :
    used p' = .asFound := by
  have hsame := congrArg Matched.plans (halike (still F) _ (findable_one (planRow 1 [])))
  rw [reply_asFound floats _ _ h] at hsame
  cases h' : used p' with
  | asFound => rfl
  | nothing =>
    rw [reply_nothing floats _ _ h'] at hsame
    cases hsame
  | sorted day' that' km' lim' =>
    obtain ⟨node, hday, hplans⟩ := @reply_still F _ floats p' day' that' km' lim' h' hn'
    rw [hplans] at hsame
    rw [← List.singleton_inj.mp hsame] at hday
    cases hday

theorem nothing_of_alike (halike : RepliedAlike floats p p') (hn' : 0 < p'.nmax) (h : used p = .nothing) :
    used p' = .nothing := by
  have hsame := congrArg Matched.plans (halike (still F) _ (findable_one (planRow 1 [])))
  rw [reply_nothing floats _ _ h] at hsame
  cases h' : used p' with
  | asFound =>
    rw [reply_asFound floats _ _ h'] at hsame
    cases hsame
  | nothing => rfl
  | sorted day' that' km' lim' =>
    obtain ⟨node, -, hplans⟩ := @reply_still F _ floats p' day' that' km' lim' h' hn'
    rw [hplans] at hsame
    cases hsame

theorem used_of_alike (halike : RepliedAlike floats p p') (hn : 0 < p.nmax) (hn' : 0 < p'.nmax) : used p = used p' := by
  cases h : used p with
  | asFound => rw [asFound_of_alike halike hn' h]
  | nothing => rw [nothing_of_alike halike hn' h]
  | sorted day that km lim =>
    cases h' : used p' with
    | asFound =>
      rw [asFound_of_alike halike.symm hn h'] at h
      cases h
    | nothing =>
      rw [nothing_of_alike halike.symm hn h'] at h
      cases h
    | sorted day' that' km' lim' =>
      obtain rfl := day_of_alike halike h h' hn hn'
      obtain rfl := that_of_alike halike h h' hn hn'
      obtain rfl := km_of_alike halike h h' hn hn'
      rw [limit_of_alike halike h h' hn hn']

end Sorted

section Answers
variable {F M : Type} [DecidableEq F] {floats : Floats F} {print : FloatText} {meaning : Bytes → M} {p p' : Params F}
  {q q' : Dataset} {conds conds' : Conds M}

theorem outcome_of_answer (hq : conditions print meaning q = .ok conds) (server : M → Option (List PlanNode))
    (clock : Clock F) :
    (answer floats print meaning ⟨server, clock, true⟩ p q).map (fun _ => ()) = outcome server conds := by
  unfold answer outcome
  rw [hq]
  dsimp only
  cases search server conds with
  | error err => rfl
  | ok found => rfl

theorem reply_of_answer (hq : conditions print meaning q = .ok conds) {found : Found} {rows : List PlanNode}
    (hrows : ∀ {M : Type} (conds : Conds M), search (fun _ => some rows) conds = .ok found) (clock : Clock F) :
    answer floats print meaning ⟨fun _ => some rows, clock, true⟩ p q = .ok (reply floats clock p found) := by
  unfold answer
  rw [hq]
  dsimp only
  rw [hrows conds]
  rfl

theorem answers_iff (hn : 0 < p.nmax) (hn' : 0 < p'.nmax) :
    (∀ env, answer floats print meaning env p q = answer floats print meaning env p' q') ↔
      digest print meaning p q = digest print meaning p' q' := by
  refine ⟨fun h => ?_, answer_congr⟩
  let clock : Clock F := still F
  obtain ⟨rows, hrows⟩ := findable_one row
  have hfailed : ∀ {p : Params F} {q : Dataset} {err : TextError}, conditions print meaning q = .error err →
      answer floats print meaning ⟨fun _ => some rows, clock, true⟩ p q = .error (.build err) := by
    intro p q err hq
    rw [answer, hq]
  have hanswer := h ⟨fun _ => some rows, clock, true⟩
  unfold digest
  cases hq : conditions print meaning q with
  | error err =>
    cases hq' : conditions print meaning q' with
    | error err' =>
      rw [hfailed hq, hfailed hq'] at hanswer
      cases hanswer
      rfl
    | ok conds' =>
      rw [hfailed hq, reply_of_answer hq' hrows] at hanswer
      cases hanswer
  | ok conds =>
    cases hq' : conditions print meaning q' with
    | error err' =>
      rw [reply_of_answer hq hrows, hfailed hq'] at hanswer
      cases hanswer
    | ok conds' =>
      have hconds : conds = conds' := by
        apply conds_of_outcomes
        intro server
        rw [← outcome_of_answer hq server clock, h, outcome_of_answer hq']
      have halike : RepliedAlike floats p p' := by
        rintro clock found ⟨rows, hrows⟩
        have hreply := h ⟨fun _ => some rows, clock, true⟩
        rw [reply_of_answer hq hrows, reply_of_answer hq' hrows] at hreply
        exact Except.ok.inj hreply
      rw [hconds, used_of_alike halike hn hn']

end Answers

end Cmoon.MatchingTells
