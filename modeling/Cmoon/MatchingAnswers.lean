import Cmoon.PlanMatching

/-! # What the answer to a match depends on

Of a request the answer depends on the three conditions. If there is a date, it also depends on the beginning of the
date, the second, the length, and the limit. -/
namespace Cmoon.MatchingAnswers
open DecimalText Datasets PlanTimes PlanMatching StatementTexts

/-- Plans are removed that are too far away, or too many. -/
inductive Limit where
  | secs (n : ℤ)
  | count (n : ℤ)
  deriving DecidableEq

/-- What is used of a request but the conditions. -/
inductive Used (F : Type) where
  | asFound
  | nothing
  | sorted (day that : Bytes) (km : F) (limit : Limit)
  deriving DecidableEq

/-- What is used of a request. -/
structure Digest (F M : Type) where
  conds : Conds M
  used : Used F
  deriving DecidableEq

section Digests
variable {F M : Type} (print : FloatText) (meaning : Bytes → M)

def maxsec (p : Params F) : ℤ := wrap 32 (p.maxday * (24 * 60 * 60))

def limit (p : Params F) : Limit := if 0 < p.maxday then .secs (maxsec p) else .count p.nmax

/-- No plan is near enough when the days are too many for the seconds. -/
def Overflown (p : Params F) : Prop := 0 < p.maxday ∧ maxsec p ≤ 0

instance (p : Params F) : Decidable (Overflown p) := inferInstanceAs (Decidable (_ ∧ _))

def used (p : Params F) : Used F :=
  match p.pdate with
  | none => .asFound
  | some pdate =>
    if Overflown p then .nothing
    else .sorted (snprintfTm (pdate ++ [32])) (snprintfTm (pdate ++ 32 :: p.ptime)) p.km (limit p)

def digest (p : Params F) (hdfrcv : Dataset) : Except TextError (Digest F M) :=
  (conditions print meaning hdfrcv).map fun conds => ⟨conds, used p⟩

end Digests

section Replies
variable {F : Type} {p p' : Params F} {day that : Bytes} {km : F} {lim : Limit}

theorem used_eq_asFound : used p = .asFound ↔ p.pdate = none := by
  unfold used
  cases p.pdate with
  | none => exact iff_of_true rfl rfl
  | some pdate =>
    dsimp only
    split <;> exact iff_of_false nofun nofun

theorem used_eq_nothing : used p = .nothing ↔ p.pdate.isSome ∧ Overflown p := by
  unfold used
  cases p.pdate with
  | none => exact iff_of_false nofun fun h => nomatch h.1
  | some pdate =>
    dsimp only
    split
    · exact iff_of_true rfl ⟨rfl, ‹_›⟩
    · exact iff_of_false nofun fun h => absurd h.2 ‹_›

theorem used_eq_sorted (h : used p = .sorted day that km lim) :
    ∃ pdate, p.pdate = some pdate ∧ ¬ Overflown p ∧ snprintfTm (pdate ++ [32]) = day ∧
      snprintfTm (pdate ++ 32 :: p.ptime) = that ∧ p.km = km ∧ limit p = lim := by
  unfold used at h
  cases hd : p.pdate with
  | none =>
    rw [hd] at h
    cases h
  | some pdate =>
    rw [hd] at h
    dsimp only at h
    split at h
    · cases h
    · obtain ⟨hday, hthat, hkm, hlimit⟩ := Used.sorted.inj h
      exact ⟨pdate, rfl, ‹_›, hday, hthat, hkm, hlimit⟩

theorem secs_of_sorted {n : ℤ} (h : used p = .sorted day that km (.secs n)) : 128 ≤ n := by
  obtain ⟨pdate, -, hover, -, -, -, hlimit⟩ := used_eq_sorted h
  unfold limit at hlimit
  split at hlimit
  · rename_i hday
    have hn : maxsec p = n := Limit.secs.inj hlimit
    have hpos : 0 < maxsec p := not_le.mp fun h => hover ⟨hday, h⟩
    unfold maxsec wrap at hn hpos
    have hmod : (p.maxday * (24 * 60 * 60)).bmod (2 ^ 32) % 128 = 0 := by
      rw [Int.bmod_def]
      split <;> omega
    omega
  · cases hlimit

def Limit.cut (lim : Limit) (thatsec : ℤ) (plans : List PlanNode) (ttnum : ℕ) : List PlanNode :=
  match lim with
  | .secs n => plans.filter fun node => pubPlanGetRelsec node thatsec < n
  | .count n => if n < ttnum then plans.take n.toNat else plans

theorem cutPlans_eq (thatsec : ℤ) (plans : List PlanNode) (ttnum : ℕ) :
    cutPlans p.maxday p.nmax thatsec plans ttnum =
      ⟨(limit p).cut thatsec plans ttnum, ttnum - (plans.length - ((limit p).cut thatsec plans ttnum).length : ℕ)⟩ := by
  unfold cutPlans limit
  by_cases hday : 0 < p.maxday
  · simp only [if_pos hday]
    rfl
  · simp only [if_neg hday]
    rfl

variable [DecidableEq F] (floats : Floats F) (clock : Clock F) (found : Found)

theorem reply_asFound (h : used p = .asFound) : reply floats clock p found = ⟨found.plans, found.ttnum⟩ := by
  rw [used_eq_asFound] at h
  rw [reply, h]

theorem reply_nothing (h : used p = .nothing) :
    reply floats clock p found = ⟨[], found.ttnum - found.plans.length⟩ := by
  rw [used_eq_nothing] at h
  obtain ⟨hd, hday, hmax⟩ := h
  obtain ⟨pdate, hd⟩ := Option.isSome_iff_exists.mp hd
  have hcut : ∀ thatsec plans, (limit p).cut thatsec plans found.ttnum = [] := by
    intro thatsec plans
    rw [limit, if_pos hday, Limit.cut, List.filter_eq_nil_iff]
    intro node _ hnear
    have hrel : 0 ≤ pubPlanGetRelsec node thatsec := abs_nonneg _
    exact absurd (of_decide_eq_true hnear) (by omega)
  have hlength := fun compare => (clock.sortObj_perm compare
    (planPrepareTimes floats pdate p.km (pubPlanGetAbssec clock pdate p.ptime) clock found.plans)).length_eq
  simp only [reply, hd, cutPlans_eq, hcut, pubPlanSortByTime, hlength, length_planPrepareTimes, List.length_nil,
    Nat.sub_zero]

theorem reply_sorted {pdate : Bytes} (h : used p = .sorted (snprintfTm (pdate ++ [32])) that km lim) :
    reply floats clock p found =
      let thatsec := clock.mktime clock.tmLeft that
      let plans := pubPlanSortByTime floats clock found.plans km thatsec pdate
      ⟨lim.cut thatsec plans found.ttnum, found.ttnum - (plans.length - (lim.cut thatsec plans found.ttnum).length : ℕ)⟩
    := by
  obtain ⟨pdate', hd, -, hday, rfl, rfl, rfl⟩ := used_eq_sorted h
  have hprepare := planPrepareTimes_congr floats clock hday p.km (pubPlanGetAbssec clock pdate' p.ptime) found.plans
  simp only [reply, hd, cutPlans_eq, pubPlanSortByTime, hprepare]
  rfl

theorem reply_congr (h : used p = used p') : reply floats clock p found = reply floats clock p' found := by
  cases hu : used p with
  | asFound => rw [reply_asFound floats clock found hu, reply_asFound floats clock found (h.symm.trans hu)]
  | nothing => rw [reply_nothing floats clock found hu, reply_nothing floats clock found (h.symm.trans hu)]
  | sorted day that km lim =>
    obtain ⟨pdate, -, -, rfl, -⟩ := used_eq_sorted hu
    rw [reply_sorted floats clock found hu, reply_sorted floats clock found (h.symm.trans hu)]

end Replies

theorem answer_congr {F M : Type} [DecidableEq F] {floats : Floats F} {print : FloatText} {meaning : Bytes → M}
    {p p' : Params F} {q q' : Dataset} (h : digest print meaning p q = digest print meaning p' q') (env : Env F M) :
    answer floats print meaning env p q = answer floats print meaning env p' q' := by
  unfold digest at h
  unfold answer
  cases hq : conditions print meaning q with
  | error err =>
    cases hq' : conditions print meaning q' with
    | error err' =>
      rw [hq, hq'] at h
      cases h
      rfl
    | ok conds' =>
      rw [hq, hq'] at h
      cases h
  | ok conds =>
    cases hq' : conditions print meaning q' with
    | error err' =>
      rw [hq, hq'] at h
      cases h
    | ok conds' =>
      rw [hq, hq'] at h
      obtain ⟨rfl, hused⟩ := Digest.mk.inj (Except.ok.inj h)
      simp only [reply_congr floats env.clock _ hused]

end Cmoon.MatchingAnswers
