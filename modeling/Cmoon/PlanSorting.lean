import Cmoon.MatchingKeys

/-! # Plans sorted by how far away they are

`plan_compare` takes `abs` of the low words of two differences. A word holds a difference only up to the multiples of
`2 ^ 32`, so what it compares is how far the differences are from the nearest of them. -/
namespace Cmoon.PlanSorting
open DecimalText Datasets PlanTimes
open MatchingTells (still)
open MatchingKeys (wholeFloats)
open StatementTexts (ascii)

/-- `abs` of a `long`, of which an `int` is taken; the least `int` has none. -/
def absInt (x : ℤ) : Option ℤ := if wrap 32 x = -2 ^ 31 then none else some |wrap 32 x|

theorem absInt_eq_some_iff {x : ℤ} : absInt x = some |wrap 32 x| ↔ |x| % 2 ^ 32 ≠ 2 ^ 31 := by
  have hword : wrap 32 x = -2 ^ 31 ↔ |x| % 2 ^ 32 = 2 ^ 31 := by
    rw [wrap, Int.bmod_def]
    rcases abs_cases x with ⟨h, -⟩ | ⟨h, -⟩ <;> rw [h] <;> split <;> omega
  unfold absInt
  split
  · rename_i h
    exact iff_of_false (Option.some_ne_none _).symm (not_not_intro (hword.mp h))
  · rename_i h
    exact iff_of_true rfl (mt hword.mpr h)

theorem abs_wrap_abs (x : ℤ) : |wrap 32 x| = |wrap 32 (|x|)| := by
  rcases abs_cases x with ⟨h, -⟩ | ⟨h, -⟩
  · rw [h]
  · rw [h, wrap, wrap, Int.bmod_def, Int.bmod_def]
    split <;> split <;> simp only [abs_eq_max_neg] <;> omega

/-- The low words of two distances less than `2 ^ 32` apart are in their order when, with all that is more than `2 ^ 33`
left out, the sum of the two is less than `2 ^ 32`. -/
theorem abs_wrap_lt_iff {x y : ℤ} (hlt : |x| < |y|) (hnear : |y| < |x| + 2 ^ 32) :
    |wrap 32 x| < |wrap 32 y| ↔ 0 < (|x| + |y|) % 2 ^ 33 ∧ (|x| + |y|) % 2 ^ 33 < 2 ^ 32 := by
  rw [abs_wrap_abs x, abs_wrap_abs y]
  generalize |x| = x at *
  generalize |y| = y at *
  rw [wrap, wrap, Int.bmod_def, Int.bmod_def]
  split <;> split <;> simp only [abs_eq_max_neg] <;> omega

/-- `plan_compare`, where it is defined: of two values of `abs` the difference is an `int`. -/
def planCompareInt (thatsec : ℤ) (a b : PlanNode) : Option ℤ :=
  (absInt (mcsGetUintValue a.cols "epochsec" - thatsec)).bind fun seca =>
    (absInt (mcsGetUintValue b.cols "epochsec" - thatsec)).map fun secb => seca - secb

def away (thatsec : ℤ) (node : PlanNode) : ℤ := |mcsGetUintValue node.cols "epochsec" - thatsec|

/-- What `hdf_sort_obj` needs of a comparison. -/
structure TotalPreorder (compare : PlanNode → PlanNode → ℤ) : Prop where
  total : ∀ a b, compare a b ≤ 0 ∨ compare b a ≤ 0
  trans : ∀ a b c, compare a b ≤ 0 → compare b c ≤ 0 → compare a c ≤ 0

/-- `hdf_sort_obj` sorts by a total preorder. -/
def Sorts (sortObj : (PlanNode → PlanNode → ℤ) → List PlanNode → List PlanNode) : Prop :=
  ∀ compare plans, TotalPreorder compare → (sortObj compare plans).Pairwise fun a b => compare a b ≤ 0

/-- `plan_compare` is a total preorder, the one of the distances. -/
structure ByDistance (thatsec : ℤ) (plans : List PlanNode) : Prop where
  preorder : TotalPreorder (planCompare thatsec)
  sign : ∀ a ∈ plans, ∀ b ∈ plans, ∃ c, planCompareInt thatsec a b = some c ∧
    c.sign = (away thatsec a - away thatsec b).sign

/-- No plan is `2 ^ 31` away, but for multiples of `2 ^ 32`, and two that are not equally far are less than `2 ^ 32`
away together, but for multiples of `2 ^ 33`. -/
def WithinWords (thatsec : ℤ) (plans : List PlanNode) : Prop :=
  (∀ a ∈ plans, away thatsec a % 2 ^ 32 ≠ 2 ^ 31) ∧
    ∀ a ∈ plans, ∀ b ∈ plans, away thatsec a < away thatsec b →
      0 < (away thatsec a + away thatsec b) % 2 ^ 33 ∧ (away thatsec a + away thatsec b) % 2 ^ 33 < 2 ^ 32

section Compare
variable {thatsec : ℤ} {plans : List PlanNode} {a b : PlanNode}

theorem totalPreorder_planCompare (thatsec : ℤ) : TotalPreorder (planCompare thatsec) := by
  constructor
  · intro a b
    unfold planCompare
    omega
  · intro a b c
    unfold planCompare
    omega

theorem planCompareInt_eq_some_iff {c : ℤ} : planCompareInt thatsec a b = some c ↔
    away thatsec a % 2 ^ 32 ≠ 2 ^ 31 ∧ away thatsec b % 2 ^ 32 ≠ 2 ^ 31 ∧ c = planCompare thatsec a b := by
  have hcases : ∀ x, (∃ n, absInt x = some n) → absInt x = some |wrap 32 x| := by
    rintro x ⟨n, hn⟩
    unfold absInt at hn ⊢
    split
    · rename_i hword
      rw [if_pos hword] at hn
      cases hn
    · rfl
  constructor
  · intro h
    obtain ⟨seca, ha, h⟩ := Option.bind_eq_some_iff.mp h
    obtain ⟨secb, hb, rfl⟩ := Option.map_eq_some_iff.mp h
    have ha' := hcases _ ⟨seca, ha⟩
    have hb' := hcases _ ⟨secb, hb⟩
    refine ⟨absInt_eq_some_iff.mp ha', absInt_eq_some_iff.mp hb', ?_⟩
    rw [ha] at ha'
    rw [hb] at hb'
    rw [Option.some.inj ha', Option.some.inj hb']
    rfl
  · rintro ⟨ha, hb, rfl⟩
    unfold planCompareInt
    rw [absInt_eq_some_iff.mpr ha, absInt_eq_some_iff.mpr hb]
    rfl

/-- A column is an `unsigned int`. -/
theorem uint_bounds (d : Dataset) (name : String) : 0 ≤ mcsGetUintValue d name ∧ mcsGetUintValue d name < 2 ^ 32 := by
  unfold mcsGetUintValue
  split
  · split <;> omega
  · omega

/-- Two plans, of which one is nearer, are compared right if and only if they are so within words. -/
theorem planCompare_neg_iff (hlt : away thatsec a < away thatsec b) : planCompare thatsec a b < 0 ↔
    0 < (away thatsec a + away thatsec b) % 2 ^ 33 ∧ (away thatsec a + away thatsec b) % 2 ^ 33 < 2 ^ 32 := by
  have hnear : away thatsec b < away thatsec a + 2 ^ 32 := by
    have ha := uint_bounds a.cols "epochsec"
    have hb := uint_bounds b.cols "epochsec"
    unfold away
    simp only [abs_eq_max_neg]
    omega
  rw [away, away, ← abs_wrap_lt_iff hlt hnear]
  exact sub_neg

theorem planCompare_eq_zero (h : away thatsec a = away thatsec b) : planCompare thatsec a b = 0 := by
  unfold planCompare pubPlanGetRelsec
  unfold away at h
  rw [abs_wrap_abs, h, ← abs_wrap_abs, sub_self]

theorem planCompare_swap (thatsec : ℤ) (a b : PlanNode) : planCompare thatsec b a = -planCompare thatsec a b := by
  unfold planCompare
  omega

theorem byDistance_iff : ByDistance thatsec plans ↔ WithinWords thatsec plans := by
  constructor
  · rintro ⟨-, hsign⟩
    refine ⟨fun a ha => ?_, fun a ha b hb hlt => ?_⟩
    · obtain ⟨c, hc, -⟩ := hsign a ha a ha
      exact (planCompareInt_eq_some_iff.mp hc).1
    · obtain ⟨c, hc, hsame⟩ := hsign a ha b hb
      obtain ⟨-, -, rfl⟩ := planCompareInt_eq_some_iff.mp hc
      rw [Int.sign_eq_neg_one_of_neg (sub_neg.mpr hlt), Int.sign_eq_neg_one_iff_neg] at hsame
      exact (planCompare_neg_iff hlt).mp hsame
  · rintro ⟨hdefined, hwithin⟩
    refine ⟨totalPreorder_planCompare thatsec, fun a ha b hb => ?_⟩
    refine ⟨_, planCompareInt_eq_some_iff.mpr ⟨hdefined a ha, hdefined b hb, rfl⟩, ?_⟩
    rcases lt_trichotomy (away thatsec a) (away thatsec b) with hlt | heq | hgt
    · rw [Int.sign_eq_neg_one_of_neg (sub_neg.mpr hlt),
        Int.sign_eq_neg_one_of_neg ((planCompare_neg_iff hlt).mpr (hwithin a ha b hb hlt))]
    · rw [planCompare_eq_zero heq, heq, sub_self]
    · have hneg := (planCompare_neg_iff hgt).mpr (hwithin b hb a ha hgt)
      rw [planCompare_swap] at hneg
      rw [Int.sign_eq_one_of_pos (sub_pos.mpr hgt), Int.sign_eq_one_of_pos (neg_neg_iff_pos.mp hneg)]

/-- Plans that are all less than `2 ^ 31` seconds away are within words. -/
theorem withinWords_of_near (h : ∀ a ∈ plans, away thatsec a < 2 ^ 31) : WithinWords thatsec plans := by
  have hpos : ∀ a, 0 ≤ away thatsec a := fun a => abs_nonneg _
  constructor
  · intro a ha
    have hfar := h a ha
    have hfrom := hpos a
    omega
  · intro a ha b hb hlt
    have hfar := h b hb
    have hfrom := hpos a
    omega

end Compare

section Sorting
variable {F : Type} [DecidableEq F] (floats : Floats F) (clock : Clock F)

def prepared (plans : List PlanNode) (km : F) (thatsec : ℤ) (pdate : Bytes) : List PlanNode :=
  planPrepareTimes floats pdate km thatsec clock plans

/-- The comparison is the one of the distances, and the sorted plans are farther and farther away. -/
structure SortedByTime (plans : List PlanNode) (km : F) (thatsec : ℤ) (pdate : Bytes) : Prop where
  compared : ByDistance thatsec (prepared floats clock plans km thatsec pdate)
  sorted : (pubPlanSortByTime floats clock plans km thatsec pdate).Pairwise fun a b => away thatsec a ≤ away thatsec b

variable {floats clock}

/-- **Plans are sorted by time** if and only if their distances are within words. -/
theorem sortedByTime_iff (hsort : Sorts clock.sortObj) (plans : List PlanNode) (km : F) (thatsec : ℤ) (pdate : Bytes) :
    SortedByTime floats clock plans km thatsec pdate ↔
      WithinWords thatsec (prepared floats clock plans km thatsec pdate) := by
  rw [← byDistance_iff]
  refine ⟨SortedByTime.compared, fun h => ⟨h, ?_⟩⟩
  have hpairs := hsort _ (prepared floats clock plans km thatsec pdate) h.preorder
  refine hpairs.imp_of_mem fun {a b} ha hb hle => ?_
  have hmem : ∀ node ∈ pubPlanSortByTime floats clock plans km thatsec pdate,
      node ∈ prepared floats clock plans km thatsec pdate :=
    fun node hnode => (clock.sortObj_perm _ _).mem_iff.mp hnode
  obtain ⟨c, hc, hsign⟩ := h.sign a (hmem a ha) b (hmem b hb)
  obtain ⟨-, -, rfl⟩ := planCompareInt_eq_some_iff.mp hc
  by_contra hgt
  rw [Int.sign_eq_one_of_pos (sub_pos.mpr (not_le.mp hgt)), Int.sign_eq_one_iff_pos] at hsign
  exact absurd hle (not_le.mpr hsign)

end Sorting

def planAt (name : Bytes) (epochsec : Bytes) : PlanNode := ⟨name, [("epochsec", some epochsec)]⟩

/-- `hdf_sort_obj` as an insertion sort. -/
def inserting : Clock ℤ := { still ℤ with
  sortObj := fun compare plans => plans.insertionSort fun a b => compare a b ≤ 0
  sortObj_perm := fun _ _ => List.perm_insertionSort _ _ }

theorem sorts_inserting : Sorts inserting.sortObj := by
  rintro compare plans ⟨htotal, htrans⟩
  have : Std.Total fun a b : PlanNode => compare a b ≤ 0 := ⟨htotal⟩
  have : IsTrans PlanNode fun a b => compare a b ≤ 0 := ⟨htrans⟩
  exact List.pairwise_insertionSort (fun a b => compare a b ≤ 0) plans

/-- A plan in 2106, which is what the second -1 is taken for, is put before one in 2061. -/
theorem not_sortedByTime : ¬ SortedByTime wholeFloats inserting
    [planAt [49] (ascii "2900000000"), planAt [50] (ascii "4294967295")] 0 1400000000 [] := by
  intro h
  have hsorted := h.sorted
  have horder : pubPlanSortByTime wholeFloats inserting
      [planAt [49] (ascii "2900000000"), planAt [50] (ascii "4294967295")] 0 1400000000 [] =
        [planAt [50] (ascii "4294967295"), planAt [49] (ascii "2900000000")] := by decide
  rw [horder] at hsorted
  revert hsorted
  decide

/-- Plans of the same year. -/
theorem sortedByTime_year : SortedByTime wholeFloats inserting
    [planAt [49] (ascii "1410000000"), planAt [50] (ascii "1400000600"), planAt [51] (ascii "1399999000")] 0 1400000000
    [] := by
  refine (sortedByTime_iff sorts_inserting _ 0 1400000000 []).mpr (withinWords_of_near ?_)
  decide

end Cmoon.PlanSorting
