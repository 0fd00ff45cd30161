import Cmoon.PlanMatching

/-! # Tables that tell conditions apart

What a search finds depends on each of the three conditions: there are servers of which the answers differ. Also there
are tables of which every condition yields all rows. -/
namespace Cmoon.MatchingTables
open Datasets PlanTimes PlanMatching

section Conditions
variable {M : Type} {conds conds' : Conds M} {server : M → Option (List PlanNode)}

def outcome (server : M → Option (List PlanNode)) (conds : Conds M) : Except MatchErr Unit :=
  (search server conds).map fun _ => ()

def lastOutcome (rows : Option (List PlanNode)) : Except MatchErr Unit :=
  match rows with
  | none => .error .db
  | some [] => .error .nmatch
  | some (_ :: _) => .ok ()

theorem outcome_few {rows : List PlanNode} (ha : server conds.a = some rows) (hfew : rows.length < geoaMin) :
    outcome server conds =
      if server conds.b = some [] then lastOutcome (server conds.x) else lastOutcome (server conds.b) := by
  have hmax : ¬ geoaMax < rows.length := by
    unfold geoaMin at hfew
    unfold geoaMax
    omega
  simp only [outcome, search, ha, if_neg hmax, if_pos hfew]
  cases server conds.b with
  | none => rfl
  | some rowsB =>
    cases rowsB with
    | cons row rowsB => rfl
    | nil =>
      cases server conds.x with
      | none => rfl
      | some rowsX => cases rowsX <;> rfl

def row : PlanNode := ⟨[], []⟩

open Classical in
/-- The server fails for the first condition of one request; for another there are enough rows. -/
theorem outcome_ne_a (h : conds.a ≠ conds'.a) : ∃ server, outcome server conds ≠ outcome server conds' := by
  let server : M → Option (List PlanNode) := fun c => if c = conds.a then none else some (List.replicate geoaMin row)
  have ha : server conds.a = none := if_pos rfl
  have ha' : server conds'.a = some (List.replicate geoaMin row) := if_neg h.symm
  have herr : outcome server conds = .error .db := by
    simp only [outcome, search, ha]
    rfl
  have hok : outcome server conds' = .ok () := by
    simp only [outcome, search, ha', List.length_replicate, if_neg (show ¬ geoaMax < geoaMin by decide),
      if_neg (Nat.lt_irrefl geoaMin)]
    rfl
  refine ⟨server, ?_⟩
  rw [herr, hok]
  exact nofun

open Classical in
theorem outcome_ne_b (ha : conds.a = conds'.a) (h : conds.b ≠ conds'.b) :
    ∃ server, outcome server conds ≠ outcome server conds' := by
  -- the server fails for a condition that is not the first one
  have hother : ∀ {conds conds' : Conds M}, conds.a = conds'.a → conds.b ≠ conds'.b → conds'.b ≠ conds.a →
      ∃ server, outcome server conds ≠ outcome server conds' := by
    intro conds conds' ha h hfirst
    let server : M → Option (List PlanNode) := fun c => if c = conds'.b then none else some [row]
    have hrow : server conds.a = some [row] := if_neg hfirst.symm
    have hb : server conds.b = some [row] := if_neg h
    have hb' : server conds'.b = none := if_pos rfl
    refine ⟨server, ?_⟩
    rw [outcome_few hrow (by decide), outcome_few (ha ▸ hrow) (by decide), hb, hb']
    exact nofun
  by_cases hfirst : conds'.b = conds.a
  · obtain ⟨server, hserver⟩ := hother ha.symm h.symm fun hb => h (hb.trans (ha.symm.trans hfirst.symm))
    exact ⟨server, hserver.symm⟩
  · exact hother ha h hfirst

open Classical in
theorem outcome_ne_x (ha : conds.a = conds'.a) (hb : conds.b = conds'.b) (h : conds.x ≠ conds'.x) :
    ∃ server, outcome server conds ≠ outcome server conds' := by
  -- nothing meets the second condition, and the server fails for a third one that is not the first
  have hother : ∀ {conds conds' : Conds M}, conds.a = conds'.a → conds.b = conds'.b → conds.x ≠ conds'.x →
      conds'.x ≠ conds.a → ∃ server, outcome server conds ≠ outcome server conds' := by
    intro conds conds' ha hb h hfirst
    let server : M → Option (List PlanNode) := fun c =>
      if c = conds.b then some [] else if c = conds'.x then none else some [row]
    have hempty : server conds.b = some [] := if_pos rfl
    obtain ⟨rows, hrows, hfew⟩ : ∃ rows, server conds.a = some rows ∧ rows.length < geoaMin := by
      by_cases hab : conds.a = conds.b
      · exact ⟨[], if_pos hab, by decide⟩
      · exact ⟨[row], (if_neg hab).trans (if_neg hfirst.symm), by decide⟩
    refine ⟨server, ?_⟩
    rw [outcome_few hrows hfew, outcome_few (ha ▸ hrows) hfew, ← hb, if_pos hempty, if_pos hempty]
    by_cases hlast : conds'.x = conds.b
    · have hx : server conds.x = some [row] := (if_neg (hlast ▸ h)).trans (if_neg h)
      have hx' : server conds'.x = some [] := if_pos hlast
      rw [hx, hx']
      exact nofun
    · have hx' : server conds'.x = none := (if_neg hlast).trans (if_pos rfl)
      rw [hx']
      by_cases hx : conds.x = conds.b
      · rw [show server conds.x = some [] from if_pos hx]
        exact nofun
      · rw [show server conds.x = some [row] from (if_neg hx).trans (if_neg h)]
        exact nofun
  by_cases hfirst : conds'.x = conds.a
  · obtain ⟨server, hserver⟩ := hother ha.symm hb.symm h.symm fun hx => h (hx.trans (ha.symm.trans hfirst.symm))
    exact ⟨server, hserver.symm⟩
  · exact hother ha hb h hfirst

theorem conds_of_outcomes (h : ∀ server, outcome server conds = outcome server conds') : conds = conds' := by
  have hnone : ¬ ∃ server, outcome server conds ≠ outcome server conds' := fun ⟨server, hne⟩ => hne (h server)
  have ha : conds.a = conds'.a := by_contra fun hne => hnone (outcome_ne_a hne)
  have hb : conds.b = conds'.b := by_contra fun hne => hnone (outcome_ne_b ha hne)
  have hx : conds.x = conds'.x := by_contra fun hne => hnone (outcome_ne_x ha hb hne)
  cases conds
  cases conds'
  rw [Conds.mk.injEq]
  exact ⟨ha, hb, hx⟩

end Conditions

/-- A table can have this found, whatever is looked for. -/
def Findable (found : Found) : Prop :=
  ∃ rows, ∀ {M : Type} (conds : Conds M), search (fun _ => some rows) conds = .ok found

/-- Few rows are set twice. -/
def foundAll (rows : List PlanNode) : Found :=
  { plans := mdbSetRows (if rows.length < geoaMin then mdbSetRows [] rows else []) rows, ttnum := rows.length }

theorem findable_all {rows : List PlanNode} (hrows : rows ≠ []) : Findable (foundAll rows) := by
  refine ⟨rows, fun conds => ?_⟩
  obtain ⟨row, rest, rfl⟩ := List.exists_cons_of_ne_nil hrows
  unfold search foundAll
  dsimp only
  by_cases hmany : geoaMax < (row :: rest).length
  · have hfew : ¬ (row :: rest).length < geoaMin := fun h => absurd (hmany.trans h) (by decide)
    rw [if_pos hmany, if_neg hfew, if_pos (show 0 < geoaMin by decide)]
  · rw [if_neg hmany]
    by_cases hfew : (row :: rest).length < geoaMin
    · rw [if_pos hfew, if_pos hfew]
    · rw [if_neg hfew, if_neg hfew]

def foundOne (row : PlanNode) : Found := ⟨[{ row with cols := hdfCopy row.cols row.cols }], 1⟩

theorem findable_one (row : PlanNode) : Findable (foundOne row) := by
  have hone : foundAll [row] = foundOne row := by
    simp [foundAll, foundOne, mdbSetRows, setRow, geoaMin]
  rw [← hone]
  exact findable_all (List.cons_ne_nil row [])

theorem names_again {plans rows : List PlanNode} (h : ∀ row ∈ rows, row.name ∈ plans.map PlanNode.name) :
    (mdbSetRows plans rows).map PlanNode.name = plans.map PlanNode.name := by
  induction rows generalizing plans with
  | nil => rfl
  | cons row rows ih =>
    rw [List.forall_mem_cons] at h
    have hstep : (setRow plans row).map PlanNode.name = plans.map PlanNode.name := by
      rw [names_setRow, if_pos h.1]
    rw [mdbSetRows, List.foldl_cons, ← mdbSetRows, ih (hstep ▸ h.2), hstep]

theorem names_new {plans rows : List PlanNode} (h : (plans.map PlanNode.name ++ rows.map PlanNode.name).Nodup) :
    (mdbSetRows plans rows).map PlanNode.name = plans.map PlanNode.name ++ rows.map PlanNode.name := by
  induction rows generalizing plans with
  | nil => exact (List.append_nil _).symm
  | cons row rows ih =>
    have hnew : row.name ∉ plans.map PlanNode.name := by
      intro hmem
      exact (List.nodup_append.mp h).2.2 _ hmem _ (List.mem_cons_self ..) rfl
    have hstep : (setRow plans row).map PlanNode.name = plans.map PlanNode.name ++ [row.name] := by
      rw [names_setRow, if_neg hnew]
    rw [List.map_cons, List.append_cons, ← hstep] at h ⊢
    rw [mdbSetRows, List.foldl_cons, ← mdbSetRows]
    exact ih h

theorem findable_many {n : ℕ} (hn : 0 < n) : ∃ plans, plans.length = n ∧ Findable ⟨plans, n⟩ := by
  let rows : List PlanNode := (List.range n).map fun i => ⟨List.replicate i 0, []⟩
  have hlength : rows.length = n := by
    rw [List.length_map, List.length_range]
  have hnodup : (rows.map PlanNode.name).Nodup := by
    rw [List.map_map]
    apply List.nodup_range.map
    intro i j h
    have hlen := congrArg List.length h
    rwa [Function.comp_apply, Function.comp_apply, List.length_replicate, List.length_replicate] at hlen
  have hfirst : (mdbSetRows [] rows).map PlanNode.name = rows.map PlanNode.name := names_new hnodup
  have hnames : (foundAll rows).plans.map PlanNode.name = rows.map PlanNode.name := by
    unfold foundAll
    split
    · rw [names_again, hfirst]
      intro row hrow
      rw [hfirst]
      exact List.mem_map_of_mem hrow
    · exact hfirst
  refine ⟨(foundAll rows).plans, ?_, ?_⟩
  · rw [← List.length_map PlanNode.name, hnames, List.length_map, hlength]
  · rw [← hlength]
    exact findable_all (List.ne_nil_of_length_pos (hlength ▸ hn))

end Cmoon.MatchingTables
