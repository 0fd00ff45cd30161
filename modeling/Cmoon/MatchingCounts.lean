import Cmoon.MatchingKeys
import Mathlib.Data.Finset.Card

/-! # Counting the plans that match

The plans that `PLAN_MATCH` finds come from up to three queries into one dataset, and `_ntt` is the number of rows of
the last one, less one for each plan that is removed. -/
namespace Cmoon.MatchingCounts
open DecimalText Datasets PlanTimes PlanMatching StatementTexts MatchingKeys
open MatchingTells (still)

/-- What stays of the first query when another one is run. -/
def kept (rows : List PlanNode) : List PlanNode := if geoaMax < rows.length then [] else rows

section Queries
variable {M : Type} (server : M → Option (List PlanNode)) (conds : Conds M)

/-- The rows of the queries that are run, the plans that are there before the last one, and its rows. -/
inductive Stages : List (List PlanNode) → List PlanNode → List PlanNode → Prop
  | first {a : List PlanNode} (ha : server conds.a = some a) (hmin : geoaMin ≤ a.length) (hmax : a.length ≤ geoaMax) :
      Stages [a] [] a
  | second {a b : List PlanNode} (ha : server conds.a = some a) (hout : (kept a).length < geoaMin)
      (hb : server conds.b = some b) (hne : b ≠ []) : Stages [a, b] (kept a) b
  | third {a x : List PlanNode} (ha : server conds.a = some a) (hout : (kept a).length < geoaMin)
      (hb : server conds.b = some []) (hx : server conds.x = some x) : Stages [a, [], x] (kept a) x

variable {server conds} {run : List (List PlanNode)} {before rows : List PlanNode} {found : Found}

theorem found_eq (a : List PlanNode) : (if geoaMax < a.length then ⟨[], 0⟩ else ⟨mdbSetRows [] a, a.length⟩ : Found) =
    ⟨mdbSetRows [] (kept a), (kept a).length⟩ := by
  unfold kept
  split <;> rfl

/-- The queries come to an end with some plans, or without. -/
theorem search_of_stages (h : Stages server conds run before rows) : search server conds =
    if rows = [] then .error .nmatch else .ok ⟨mdbSetRows (mdbSetRows [] before) rows, rows.length⟩ := by
  unfold search
  cases h with
  | first ha hmin hmax =>
    have hkept : kept rows = rows := if_neg (by omega)
    have hne : rows ≠ [] := by
      rintro rfl
      exact absurd hmin (by decide)
    simp only [ha, found_eq, hkept, if_neg (not_lt.mpr hmin), if_neg hne]
    rfl
  | second ha hout hb hne =>
    obtain ⟨row, rows, rfl⟩ := List.exists_cons_of_ne_nil hne
    simp only [ha, found_eq, if_pos hout, hb, if_neg hne]
  | third ha hout hb hx =>
    cases rows with
    | nil =>
      simp only [ha, found_eq, if_pos hout, hb, hx]
      rfl
    | cons row rows => simp only [ha, found_eq, if_pos hout, hb, hx, if_neg (List.cons_ne_nil row rows)]

/-- The server has answered every query that was run, if the search has not failed for that. -/
theorem exists_stages (h : search server conds ≠ .error .db) :
    ∃ run before rows, Stages server conds run before rows := by
  unfold search at h
  cases ha : server conds.a with
  | none =>
    rw [ha] at h
    exact absurd rfl h
  | some a =>
    by_cases hout : (kept a).length < geoaMin
    · simp only [ha, found_eq, if_pos hout] at h
      cases hb : server conds.b with
      | none =>
        rw [hb] at h
        exact absurd rfl h
      | some b =>
        cases b with
        | cons row rows => exact ⟨_, _, _, .second ha hout hb (List.cons_ne_nil row rows)⟩
        | nil =>
          cases hx : server conds.x with
          | none =>
            rw [hb, hx] at h
            exact absurd rfl h
          | some x => exact ⟨_, _, _, .third ha hout hb hx⟩
    · have hmax : ¬ geoaMax < a.length := by
        intro hmax
        unfold kept at hout
        rw [if_pos hmax] at hout
        exact hout (by decide)
      have hkept : kept a = a := if_neg hmax
      rw [hkept] at hout
      exact ⟨_, _, _, .first ha (not_lt.mp hout) (not_lt.mp hmax)⟩

end Queries

def names (plans : List PlanNode) : List Bytes := plans.map PlanNode.name

variable {plans rows : List PlanNode}

/-- A name is there once, whether it is set for the first time or not. -/
theorem nodup_mdbSetRows (h : (names plans).Nodup) : (names (mdbSetRows plans rows)).Nodup := by
  induction rows generalizing plans with
  | nil => exact h
  | cons row rows ih =>
    refine ih ?_
    have hrow : names (setRow plans row) = _ := names_setRow plans row
    rw [hrow]
    split
    · exact h
    · rename_i hnew
      exact List.Nodup.append h (List.nodup_singleton _) (by simpa using hnew)

theorem mem_names_mdbSetRows {name : Bytes} :
    name ∈ names (mdbSetRows plans rows) ↔ name ∈ names plans ∨ name ∈ names rows := by
  induction rows generalizing plans with
  | nil => simp [mdbSetRows, names]
  | cons row rows ih =>
    change name ∈ names (mdbSetRows (setRow plans row) rows) ↔ _
    have hrow : names (setRow plans row) = _ := names_setRow plans row
    rw [ih, hrow]
    have hcons : names (row :: rows) = row.name :: names rows := rfl
    rw [hcons, List.mem_cons]
    split
    · rename_i hold
      constructor
      · rintro (h | h)
        · exact .inl h
        · exact .inr (.inr h)
      · rintro (h | rfl | h)
        · exact .inl h
        · exact .inl hold
        · exact .inr h
    · rw [List.mem_append, List.mem_singleton, or_assoc]
      rfl

/-- There are as many plans as rows if and only if those that were there before are among the rows. -/
theorem length_mdbSetRows_eq_iff (hplans : (names plans).Nodup) (hrows : (names rows).Nodup) :
    (mdbSetRows plans rows).length = rows.length ↔ names plans ⊆ names rows := by
  have hall : (names (mdbSetRows plans rows)).toFinset = (names plans).toFinset ∪ (names rows).toFinset := by
    ext name
    simp only [List.mem_toFinset, Finset.mem_union, mem_names_mdbSetRows]
  have hcard : (mdbSetRows plans rows).length = ((names plans).toFinset ∪ (names rows).toFinset).card := by
    rw [← hall, List.toFinset_card_of_nodup (nodup_mdbSetRows hplans), names, List.length_map]
  have hcardRows : rows.length = (names rows).toFinset.card := by
    rw [List.toFinset_card_of_nodup hrows, names, List.length_map]
  rw [hcard, hcardRows]
  constructor
  · intro h name hname
    have hsame := Finset.eq_of_subset_of_card_le Finset.subset_union_right h.le
    have hmem : name ∈ (names plans).toFinset ∪ (names rows).toFinset :=
      Finset.mem_union_left _ (List.mem_toFinset.mpr hname)
    rw [← hsame, List.mem_toFinset] at hmem
    exact hmem
  · intro h
    rw [Finset.union_eq_right.mpr]
    intro name hname
    exact List.mem_toFinset.mpr (h (List.mem_toFinset.mp hname))

section Reply
variable {F : Type} [DecidableEq F] (floats : Floats F) (clock : Clock F) {p : Params F} {found : Found}
  {maxday nmax thatsec : ℤ}
  {ttnum : ℕ}

theorem name_prepared (node : PlanNode) (km : F) (thatsec : ℤ) (pdate : Bytes) :
    (planPrepareTime floats clock pdate km thatsec node).name = node.name := by
  unfold planPrepareTime
  split <;> rfl

theorem names_prepared (plans : List PlanNode) (km : F) (thatsec : ℤ) (pdate : Bytes) :
    names (planPrepareTimes floats pdate km thatsec clock plans) = names plans := by
  induction plans generalizing clock with
  | nil => rfl
  | cons node plans ih =>
    have hrest := ih (afterPrepare clock thatsec node)
    unfold names at hrest ⊢
    rw [planPrepareTimes, List.map_cons, List.map_cons, name_prepared, hrest]

theorem names_sorted (plans : List PlanNode) (km : F) (thatsec : ℤ) (pdate : Bytes) :
    (names (pubPlanSortByTime floats clock plans km thatsec pdate)).Perm (names plans) := by
  rw [← names_prepared floats clock plans km thatsec pdate]
  exact (clock.sortObj_perm _ _).map PlanNode.name

theorem cutPlans_counts (maxday nmax thatsec : ℤ) (plans : List PlanNode) (ttnum : ℕ) :
    (cutPlans maxday nmax thatsec plans ttnum).plans.Sublist plans ∧
      (cutPlans maxday nmax thatsec plans ttnum).ntt =
        ttnum - (plans.length - (cutPlans maxday nmax thatsec plans ttnum).plans.length : ℕ) := by
  refine ⟨?_, rfl⟩
  unfold cutPlans
  dsimp only
  split
  · exact List.filter_sublist
  · split
    · exact List.take_sublist _ _
    · exact List.Sublist.refl _

theorem cutPlans_length_le (hmaxday : ¬ 0 < maxday) (hnmax : 0 < nmax) (hcount : plans.length = ttnum) :
    ((cutPlans maxday nmax thatsec plans ttnum).plans.length : ℤ) ≤ nmax := by
  unfold cutPlans
  dsimp only
  rw [if_neg hmaxday]
  split
  · rw [List.length_take]
    omega
  · omega

theorem reply_counts (p : Params F) (found : Found) :
    (names (reply floats clock p found).plans).Subperm (names found.plans) ∧
      (reply floats clock p found).ntt =
        found.ttnum - (found.plans.length - (reply floats clock p found).plans.length : ℕ) := by
  unfold reply
  split
  · refine ⟨List.Subperm.refl _, ?_⟩
    rw [Nat.sub_self]
    exact (sub_zero _).symm
  · rename_i pdate hpdate
    dsimp only
    have hperm := names_sorted floats clock found.plans p.km (pubPlanGetAbssec clock pdate p.ptime) pdate
    have hlen := hperm.length_eq
    unfold names at hlen
    rw [List.length_map, List.length_map] at hlen
    obtain ⟨hsub, hntt⟩ := cutPlans_counts p.maxday p.nmax (pubPlanGetAbssec clock pdate p.ptime)
      (pubPlanSortByTime floats clock found.plans p.km (pubPlanGetAbssec clock pdate p.ptime) pdate) found.ttnum
    rw [hlen] at hntt
    exact ⟨(hsub.map PlanNode.name).subperm.trans hperm.subperm, hntt⟩

/-- `_ntt` is right if and only if the last query has given as many rows as there are plans. -/
theorem reply_ntt_iff (p : Params F) (found : Found) :
    (reply floats clock p found).ntt = (reply floats clock p found).plans.length ↔
      found.plans.length = found.ttnum := by
  obtain ⟨hsub, hntt⟩ := reply_counts floats clock p found
  have hle := hsub.length_le
  unfold names at hle
  rw [List.length_map, List.length_map] at hle
  omega

theorem nodup_reply (p : Params F) (found : Found) (h : (names found.plans).Nodup) :
    (names (reply floats clock p found).plans).Nodup := by
  obtain ⟨l, hperm, hsublist⟩ := (reply_counts floats clock p found).1
  exact hperm.nodup_iff.mp (hsublist.nodup h)

/-- With a date no more than `nmax` plans are left when it is counted right. -/
theorem reply_length_le (hcount : found.plans.length = found.ttnum) (hmaxday : ¬ 0 < p.maxday) (hnmax : 0 < p.nmax)
    (hdate : p.pdate = none → (found.ttnum : ℤ) ≤ p.nmax) :
    ((reply floats clock p found).plans.length : ℤ) ≤ p.nmax := by
  unfold reply
  split
  · rename_i hnone
    dsimp only
    rw [hcount]
    exact hdate hnone
  · rename_i pdate hpdate
    dsimp only
    refine cutPlans_length_le hmaxday hnmax ?_
    have hlen := (names_sorted floats clock found.plans p.km (pubPlanGetAbssec clock pdate p.ptime) pdate).length_eq
    unfold names at hlen
    rw [List.length_map, List.length_map] at hlen
    rw [hlen, hcount]

end Reply

section Law
variable {F M : Type} [DecidableEq F] (floats : Floats F) (print : FloatText) (meaning : Bytes → M) (env : Env F M)
  (hdfrcv : Dataset)

def Keyed : Prop := ∀ cond rows, env.server cond = some rows → (names rows).Nodup

/-- `_ntt` is the number of plans, of which none is there twice, nor are there more than `nmax` without `dayaround`; and
when it is answered that none matches, no query has given one. -/
def Counted : Prop := ∀ p conds, params floats hdfrcv = .ok p → conditions print meaning hdfrcv = .ok conds →
  (∀ m, planCmdPlanMatch floats print meaning env hdfrcv = .ok m →
    m.ntt = m.plans.length ∧ (names m.plans).Nodup ∧
      (hdfGetValue hdfrcv "dayaround" = none → (m.plans.length : ℤ) ≤ p.nmax)) ∧
  (planCmdPlanMatch floats print meaning env hdfrcv = .error .nmatch →
    ∀ run before rows, Stages env.server conds run before rows → ∀ found ∈ run, found = [])

/-- The last query has the plans that are kept of the first one, at most `nmax` when there is neither date nor
`dayaround`, and nothing only if the first one has nothing. -/
def Covered : Prop := ∀ p conds run before rows, params floats hdfrcv = .ok p →
  conditions print meaning hdfrcv = .ok conds → Stages env.server conds run before rows →
    (rows = [] → env.server conds.a = some []) ∧
    (rows ≠ [] → env.calloc = true → names before ⊆ names rows ∧
      (p.pdate = none → hdfGetValue hdfrcv "dayaround" = none → (rows.length : ℤ) ≤ p.nmax))

variable {floats print meaning env hdfrcv} {p : Params F} {conds : Conds M} {run : List (List PlanNode)}
  {before rows : List PlanNode}

omit [DecidableEq F] in
theorem maxday_of_none (h : params floats hdfrcv = .ok p) (hnone : hdfGetValue hdfrcv "dayaround" = none) :
    ¬ 0 < p.maxday := by
  have hzero : hdfGetIntValue hdfrcv "dayaround" 0 = 0 := by
    unfold hdfGetIntValue
    rw [hnone]
    rfl
  unfold params at h
  split at h
  · cases h
  · dsimp only at h
    split at h
    · cases h
    · cases h
      rw [hzero]
      exact lt_irrefl 0

theorem planCmdPlanMatch_of_stages (hp : params floats hdfrcv = .ok p)
    (hconds : conditions print meaning hdfrcv = .ok conds) (h : Stages env.server conds run before rows) :
    planCmdPlanMatch floats print meaning env hdfrcv =
      if rows = [] then .error .nmatch
      else if env.calloc then
        .ok (reply floats env.clock p ⟨mdbSetRows (mdbSetRows [] before) rows, rows.length⟩)
      else .error .mem := by
  unfold planCmdPlanMatch answer
  rw [hp, hconds]
  dsimp only
  rw [search_of_stages h]
  by_cases hnil : rows = []
  · rw [if_pos hnil, if_pos hnil]
  · rw [if_neg hnil, if_neg hnil]

theorem length_plans_eq_iff (hrows : (names rows).Nodup) :
    (mdbSetRows (mdbSetRows [] before) rows).length = rows.length ↔ names before ⊆ names rows := by
  have hnone : (names []).Nodup := List.nodup_nil
  rw [length_mdbSetRows_eq_iff (nodup_mdbSetRows hnone) hrows]
  constructor
  · exact fun h name hname => h (mem_names_mdbSetRows.mpr (.inr hname))
  · intro h name hname
    obtain hnil | hname := mem_names_mdbSetRows.mp hname
    · cases hnil
    · exact h hname

omit [DecidableEq F] in
/-- The rows of the last query have every id once. -/
theorem Stages.nodup (hkeyed : Keyed env) (h : Stages env.server conds run before rows) : (names rows).Nodup := by
  cases h with
  | first ha hmin hmax => exact hkeyed _ _ ha
  | second ha hout hb hne => exact hkeyed _ _ hb
  | third ha hout hb hx => exact hkeyed _ _ hx

omit [DecidableEq F] in
/-- Nothing has been found by any query if neither the first nor the last has found anything. -/
theorem Stages.all_nil (h : Stages env.server conds run before []) (ha : env.server conds.a = some []) :
    ∀ found ∈ run, found = [] := by
  cases h with
  | first ha' hmin hmax => simp
  | second ha' hout hb hne => exact absurd rfl hne
  | third ha' hout hb hx =>
    rw [ha] at ha'
    cases ha'
    simp

omit [DecidableEq F] in
theorem Stages.first_of_all_nil (h : Stages env.server conds run before rows) (hnil : ∀ found ∈ run, found = []) :
    env.server conds.a = some [] := by
  cases h with
  | first ha hmin hmax => rw [ha, hnil _ List.mem_cons_self]
  | second ha hout hb hne => rw [ha, hnil _ List.mem_cons_self]
  | third ha hout hb hx => rw [ha, hnil _ List.mem_cons_self]

/-- A reply is made of queries that were all answered. -/
theorem stages_of_ok {m : Matched} (hp : params floats hdfrcv = .ok p)
    (hconds : conditions print meaning hdfrcv = .ok conds)
    (hm : planCmdPlanMatch floats print meaning env hdfrcv = .ok m) :
    ∃ run before rows, Stages env.server conds run before rows ∧ rows ≠ [] ∧ env.calloc = true ∧
      m = reply floats env.clock p ⟨mdbSetRows (mdbSetRows [] before) rows, rows.length⟩ := by
  have hsearch : search env.server conds ≠ .error .db := by
    intro hdb
    unfold planCmdPlanMatch answer at hm
    rw [hp, hconds] at hm
    dsimp only at hm
    rw [hdb] at hm
    cases hm
  obtain ⟨run, before, rows, hstages⟩ := exists_stages hsearch
  rw [planCmdPlanMatch_of_stages hp hconds hstages] at hm
  split at hm
  · cases hm
  · rename_i hne
    split at hm
    · rename_i hcalloc
      cases hm
      exact ⟨run, before, rows, hstages, hne, hcalloc, rfl⟩
    · cases hm

/-- None matches only when the last query has found nothing. -/
theorem rows_of_nmatch (hp : params floats hdfrcv = .ok p) (hconds : conditions print meaning hdfrcv = .ok conds)
    (h : Stages env.server conds run before rows)
    (hm : planCmdPlanMatch floats print meaning env hdfrcv = .error .nmatch) : rows = [] := by
  rw [planCmdPlanMatch_of_stages hp hconds h] at hm
  by_contra hne
  rw [if_neg hne] at hm
  split at hm
  · cases hm
  · cases hm

/-- **Plans are counted right** if and only if the last query covers what is kept of the first one. -/
theorem counted_iff (floats : Floats F) (print : FloatText) (meaning : Bytes → M) (hkeyed : Keyed env)
    (hdfrcv : Dataset) : Counted floats print meaning env hdfrcv ↔ Covered floats print meaning env hdfrcv := by
  constructor
  · intro h p conds run before rows hp hconds hstages
    obtain ⟨hok, hnmatch⟩ := h p conds hp hconds
    have hanswer := planCmdPlanMatch_of_stages hp hconds hstages
    constructor
    · intro hnil
      rw [if_pos hnil] at hanswer
      exact hstages.first_of_all_nil (hnmatch hanswer run before rows hstages)
    · intro hne hcalloc
      rw [if_neg hne, if_pos hcalloc] at hanswer
      obtain ⟨hntt, -, hlimit⟩ := hok _ hanswer
      have hcount := (reply_ntt_iff floats env.clock p _).mp hntt
      refine ⟨(length_plans_eq_iff (hstages.nodup hkeyed)).mp hcount, fun hdate hday => ?_⟩
      have hle := hlimit hday
      unfold reply at hle
      rw [hdate] at hle
      dsimp only at hcount hle
      rwa [hcount] at hle
  · intro h p conds hp hconds
    constructor
    · intro m hm
      obtain ⟨run, before, rows, hstages, hne, hcalloc, rfl⟩ := stages_of_ok hp hconds hm
      obtain ⟨hsub, hdate⟩ := (h p conds run before rows hp hconds hstages).2 hne hcalloc
      have hcount := (length_plans_eq_iff (hstages.nodup hkeyed)).mpr hsub
      refine ⟨(reply_ntt_iff floats env.clock p _).mpr hcount, ?_, fun hday => ?_⟩
      · exact nodup_reply floats env.clock p _ (nodup_mdbSetRows (nodup_mdbSetRows List.nodup_nil))
      · exact reply_length_le floats env.clock hcount (maxday_of_none hp hday) (nmax_pos hp) fun hnone =>
          hdate hnone hday
    · intro hm run before rows hstages
      obtain rfl := rows_of_nmatch hp hconds hstages hm
      exact hstages.all_nil ((h p conds run before [] hp hconds hstages).1 rfl)

end Law

/-- The plan between the two cities is far from the rectangle of the request, where there is another one. -/
def serverRect (cond : Bytes) : Option (List PlanNode) :=
  if ascii "ecityid = 2  AND  (km / 1.2) < 100.000000 " <:+ cond then some [⟨[55], []⟩] else some [⟨[56], []⟩]

def nowRect : Env ℤ Bytes := ⟨serverRect, still ℤ, true⟩

theorem keyed_nowRect : Keyed nowRect := by
  intro cond rows h
  change serverRect cond = some rows at h
  unfold serverRect at h
  split at h <;> (cases h; exact List.nodup_singleton _)

def matchRect : Dataset := ("rect", some (ascii "(1,1),(0,0)")) :: matchKm (ascii "100")

theorem not_counted : Keyed nowRect ∧ ¬ Counted wholeFloats wholeText id nowRect matchRect := by
  refine ⟨keyed_nowRect, fun h => ?_⟩
  obtain ⟨conds, hconds⟩ : ∃ conds, conditions wholeText id matchRect = .ok conds := ⟨_, rfl⟩
  obtain ⟨p, hp⟩ : ∃ p, params wholeFloats matchRect = .ok p := ⟨_, rfl⟩
  have htwo : (planCmdPlanMatch wholeFloats wholeText id nowRect matchRect).map (fun m => (m.ntt, m.plans.length)) =
      .ok (1, 2) := rfl
  cases hm : planCmdPlanMatch wholeFloats wholeText id nowRect matchRect with
  | error err =>
    rw [hm] at htwo
    cases htwo
  | ok m =>
    obtain ⟨hntt, -⟩ := (h p conds hp hconds).1 m hm
    rw [hm] at htwo
    obtain ⟨hone, htwo⟩ : m.ntt = 1 ∧ m.plans.length = 2 := Prod.mk.inj (Except.ok.inj htwo)
    rw [hone, htwo] at hntt
    cases hntt

/-- Without the rectangle the wider condition finds the plan of the cities, too. -/
theorem counted_matchKm : Counted wholeFloats wholeText id
    ⟨fun _ => some [⟨[55], []⟩], still ℤ, true⟩ (matchKm (ascii "100")) := by
  refine (counted_iff wholeFloats wholeText id (fun cond rows h => ?_) (matchKm (ascii "100"))).mpr ?_
  · cases h
    exact List.nodup_singleton _
  · rintro p conds run before rows hp hconds hstages
    have hrows : rows = [⟨[55], []⟩] := by
      cases hstages with
      | first ha hmin hmax => exact (Option.some.inj ha).symm
      | second ha hout hb hne => exact (Option.some.inj hb).symm
      | third ha hout hb hx => cases hb
    subst hrows
    refine ⟨nofun, fun _ _ => ⟨?_, fun _ _ => ?_⟩⟩
    · cases hstages with
      | first ha hmin hmax => exact List.nil_subset _
      | second ha hout hb hne =>
        cases ha
        exact List.Subset.refl _
      | third ha hout hb hx => cases hb
    · have hpos := nmax_pos hp
      simp only [List.length_cons, List.length_nil]
      omega

end Cmoon.MatchingCounts
