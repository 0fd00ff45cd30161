import Cmoon.AppCoherence
import Cmoon.Histories
import Cmoon.MatchingCounts

/-! # Who a site knows

`APPUSERIN` looks whether a visitor is listed already, and `APPUSEROUT` whether it is listed still, in a list that may
have been cached, and cut for a request that asked for fewer. What the last of the two commands has answered to is what
the table has. -/
namespace Cmoon.SiteVisitors
open DecimalText Datasets StatementBuilding MemberTables MemberPlugin LapsingCaches KeyedTables AppPlugin AppCoherence
  Histories
open BankTransactions (hashString)
open PlanReads (reqGetParamInt)
open MatchingCounts (names mem_names_mdbSetRows)

def Knows (t : AicTables) (uname : Bytes) (aid : ℤ) : Prop :=
  ∃ row ∈ t.userinfo.rows, row "uname" = .text uname ∧ row "aid" = .int aid

/-- A name fits into its column, and is one component of a path. -/
structure Fits (uname : Bytes) : Prop where
  column : varchar 256 uname = uname
  component : 46 ∉ uname

def Named (t : AicTables) : Prop :=
  ∀ row ∈ t.userinfo.rows, ∃ uname aid, IsVisitor row uname aid ∧ Fits uname

abbrev Event := AicRequested × Except AicErr AicReply

def log (kept : AicReply → AicReply) : AicPlugin → List AicRequested → List Event
  | _, [] => []
  | s, q :: qs => (q, (served kept s q).1) :: log kept (step kept s q) qs

/-- A visitor has been let in, or taken out. -/
structure Moves (uname : Bytes) (aid : ℤ) (e : Event) : Prop where
  op : e.1.operation = .appuserin ∨ e.1.operation = .appuserout
  uname : reqGetParamStr e.1.hdfrcv "uname" = .ok uname
  aname : ∃ aname, reqGetParamStr e.1.hdfrcv "aname" = .ok aname ∧ hashString aname = aid
  ok : ∃ r, e.2 = .ok r

/-- The last that has come of the visitor is that it was let in; or nothing has come of it, and it was known before. -/
def Expected (t : AicTables) (uname : Bytes) (aid : ℤ) (events : List Event) : Prop :=
  Last (Moves uname aid) (fun _ e => e.1.operation = .appuserin) events ∨
    Knows t uname aid ∧ ∀ e ∈ events, ¬ Moves uname aid e

variable {kept : AicReply → AicReply} {met : Met} {s s' : AicPlugin} {t t' : AicTables} {qs : List AicRequested}
  {q : AicRequested} {hdfrcv : Dataset} {aid aid' lm : ℤ} {aname uname u : Bytes} {r : AicReply} {row row' : Row}

/-- A visitor that a site knows is in the table under the number of its name. -/
theorem Knows.visitor (h : Knows t uname aid) (hnamed : Named t) :
    Fits uname ∧ ∃ row ∈ t.userinfo.rows, IsVisitor row uname aid := by
  obtain ⟨row, hrow, hname, haid⟩ := h
  obtain ⟨v, a, hvisitor, hfits⟩ := hnamed row hrow
  obtain rfl : v = uname := hfits.column.symm.trans (Value.text.inj (hvisitor.uname.symm.trans hname))
  obtain rfl : a = aid := Value.int.inj (hvisitor.aid.symm.trans haid)
  exact ⟨hfits, row, hrow, hvisitor⟩

theorem knows_of_visitor (h : IsVisitor row uname aid) (hfits : Fits uname) (hrow : row ∈ t.userinfo.rows) :
    Knows t uname aid := ⟨row, hrow, h.uname.trans (congrArg Value.text hfits.column), h.aid⟩

theorem Knows.eq (h : Knows t uname aid) (h' : Knows t u aid) (hnamed : Named t)
    (hhash : hashString uname = hashString u) : uname = u := by
  obtain ⟨hfits, row, hrow, hvisitor⟩ := h.visitor hnamed
  obtain ⟨hfits', row', hrow', hvisitor'⟩ := h'.visitor hnamed
  have hkey : userKey row = userKey row' := by
    unfold userKey
    rw [hvisitor.uid, hvisitor.aid, hvisitor'.uid, hvisitor'.aid, hhash]
  obtain rfl := List.inj_on_of_nodup_map t.userinfo.nodup hrow hrow' hkey
  have htext := Value.text.inj (hvisitor.uname.symm.trans hvisitor'.uname)
  rw [← hfits.column, htext, hfits'.column]

theorem lists_knows (hnamed : Named t) (hshows : ShowsUsers qs t aid r) (hlists : r.lists uname = true) :
    Knows t uname aid := by
  obtain ⟨rows, lm, hperm, -, rfl⟩ := hshows
  unfold AicReply.lists at hlists
  obtain ⟨node, hnode, hboth⟩ := List.any_eq_true.mp hlists
  have hname : node.name = uname := of_decide_eq_true (Bool.and_eq_true_iff.mp hboth).1
  have hmem : uname ∈ names (usersOf userinfoCol "uname" (limited lm rows)) := hname ▸ List.mem_map_of_mem hnode
  unfold usersOf at hmem
  obtain hnil | hmem := mem_names_mdbSetRows.mp hmem
  · exact absurd hnil List.not_mem_nil
  · unfold names at hmem
    rw [List.map_map] at hmem
    obtain ⟨row, hrow, hprint⟩ := List.mem_map.mp hmem
    have hlimited : row ∈ rows := by
      unfold limited at hrow
      split at hrow
      · exact List.mem_of_mem_take hrow
      · exact hrow
    obtain ⟨huser, haid⟩ := List.mem_filter.mp (hperm.mem_iff.mp hlimited)
    obtain ⟨v, a, hvisitor, hfits⟩ := hnamed row huser
    refine ⟨row, huser, ?_, of_decide_eq_true haid⟩
    change (row "uname").print = uname at hprint
    rw [hvisitor.uname] at hprint ⊢
    exact congrArg Value.text hprint

/-- The table of the visitors stays; or one who is not known is let in, or one who is known taken out, or the columns of
some of them change that do not tell who they are. -/
inductive Effect (t : AicTables) (q : AicRequested) : Except AicErr AicReply → AicPlugin → Prop
  | none (reply : Except AicErr AicReply) (s' : AicPlugin) (huser : s'.tables.userinfo = t.userinfo)
      (hno : ∀ uname aid, ¬ Moves uname aid (q, reply)) : Effect t q reply s'
  | known (r : AicReply) (s' : AicPlugin) (uname : Bytes) (aid : ℤ) (hop : q.operation = .appuserin)
      (hmoves : Moves uname aid (q, .ok r)) (huser : s'.tables.userinfo = t.userinfo)
      (hknows : Knows t uname aid) : Effect t q (.ok r) s'
  | joined (r : AicReply) (s' : AicPlugin) (uname : Bytes) (aid : ℤ) (row : Row) (hop : q.operation = .appuserin)
      (hmoves : Moves uname aid (q, .ok r)) (hvisitor : IsVisitor row uname aid)
      (huser : t.userinfo.insert row = some s'.tables.userinfo) : Effect t q (.ok r) s'
  | left (r : AicReply) (s' : AicPlugin) (uname : Bytes) (aid : ℤ) (hop : q.operation = .appuserout)
      (hmoves : Moves uname aid (q, .ok r)) (hknows : Knows t uname aid)
      (huser : s'.tables.userinfo = t.userinfo.delete (isUser (hashString uname) aid)) : Effect t q (.ok r) s'
  | changed (reply : Except AicErr AicReply) (s' : AicPlugin) (f : Row → Row)
      (hf : ∀ row col, col ∈ ["uid", "uname", "aid"] → f row col = row col)
      (huser : t.userinfo.update f = some s'.tables.userinfo)
      (hno : ∀ uname aid, ¬ Moves uname aid (q, reply)) : Effect t q reply s'

theorem not_moves_of_op {reply : Except AicErr AicReply} (hin : q.operation ≠ .appuserin)
    (hout : q.operation ≠ .appuserout) (uname : Bytes) (aid : ℤ) : ¬ Moves uname aid (q, reply) := fun h =>
  h.op.elim hin hout

theorem not_moves_of_error (err : AicErr) (uname : Bytes) (aid : ℤ) : ¬ Moves uname aid (q, .error err) := fun h => by
  obtain ⟨r, hr⟩ := h.ok
  cases hr

section Frames
variable {ui : Table userKey}

abbrev Has (ui : Table userKey) (s : AicPlugin) : Prop := s.tables.userinfo = ui

theorem has_appinfo (h : Has ui s) : Has ui (aicCmdAppinfo kept met s hdfrcv).2 :=
  withParam_keeps h fun _ _ => h

theorem has_dropApp (h : Has ui s) (aid pid : ℤ) : Has ui (s.dropApp aid pid) := by
  unfold Has
  rw [dropApp_tables]
  exact h

theorem has_appnew (h : Has ui s) : Has ui (aicCmdAppnew kept met s hdfrcv).2 := by
  refine withParam_keeps h fun ⟨aname, cols⟩ _ => ?_
  have hout : Has ui (aicCmdAppinfo kept met s hdfrcv).2 := has_appinfo h
  have hinsert : ∀ hdfsnd : AicReply, Has ui ((aicCmdAppinfo kept met s hdfrcv).2.exec met 0
      ((aicCmdAppinfo kept met s hdfrcv).2.tables.insertApp (newApp met hdfrcv (hashString aname) cols))
      fun s => (.ok hdfsnd, s.dropApp (hashString aname) (pidOf hdfrcv))).2 := fun _ =>
    exec_keeps hout fun t' ht => has_dropApp ((insertApp_some ht).2.trans hout) _ _
  dsimp only
  split
  · exact hinsert _
  · exact hout
  · split
    · exact hout
    · exact hinsert _

theorem has_appup (h : Has ui s) : Has ui (aicCmdAppup kept met s hdfrcv).2 := by
  refine withParam_keeps h fun aname _ => ?_
  have hout : Has ui (aicCmdAppinfo kept met s hdfrcv).2 := has_appinfo h
  dsimp only
  split
  · exact hout
  · split
    · exact hout
    · split
      · exact hout
      · exact exec_keeps hout fun t' ht => has_dropApp ((updateApps_some ht).2.trans hout) _ _

theorem has_appdel (h : Has ui s) : Has ui (aicCmdAppdel kept met s hdfrcv).2 := by
  refine withParam_keeps h fun aname _ => ?_
  have hout : Has ui (aicCmdAppinfo kept met s hdfrcv).2 := has_appinfo h
  dsimp only
  split
  · exact hout
  · split
    · exact hout
    · refine exec_keeps hout fun t' ht => ?_
      cases ht
      change (AicPlugin.dropApp _ _ _).tables.userinfo = ui
      rw [dropApp_tables]
      exact hout

theorem has_setsecy (h : Has ui s) : Has ui (aicCmdAppSetsecy met s hdfrcv).2 := by
  refine withParam_keeps h fun pname _ => withParam_keeps h fun aname _ => exec_keeps h fun t' ht => ?_
  have hunset : Has ui { s with tables := t' } := (updateApps_some ht).2.trans h
  dsimp only
  split
  · exact hunset
  · exact exec_keeps hunset fun t'' ht' => (updateApps_some ht').2.trans hunset

theorem has_getrlink (h : Has ui s) : Has ui (aicCmdAppGetrlink met s hdfrcv).2 := by
  refine withParam_keeps h fun aname _ => ?_
  split
  · exact h
  · exact h
  · exact h

theorem has_setrlink (h : Has ui s) : Has ui (aicCmdAppSetrlink kept met s hdfrcv).2 := by
  refine withParam_keeps h fun aname _ => withParam_keeps h fun rlink _ => ?_
  have hout : Has ui (aicCmdAppinfo kept met s hdfrcv).2 := has_appinfo h
  dsimp only
  split
  · exact hout
  · split
    · exact hout
    · refine exec_keeps hout fun t' ht => ?_
      cases ht
      exact hout

theorem has_appusers (h : Has ui s) : Has ui (aicCmdAppusers kept met s hdfrcv).2 :=
  withParam_keeps h fun _ _ => h

end Frames

theorem appusers_lists (hco : Coherent kept qs s) (hnamed : Named s.tables)
    (hkept : ∀ r uname, (kept r).lists uname = true → r.lists uname = true)
    (haname : reqGetParamStr hdfrcv "aname" = .ok aname) (hr : (aicCmdAppusers kept met s hdfrcv).1 = .ok r)
    (hasks : ∃ q ∈ qs, AsksUsers q (hashString aname) (limitParam hdfrcv)) (hlists : r.lists uname = true) :
    Knows s.tables uname (hashString aname) := by
  unfold aicCmdAppusers at hr
  rw [haname] at hr
  obtain hcached | hselect := cached_ok hr
  · obtain ⟨r₀, hshows, rfl⟩ := hco.users _ r hcached
    exact lists_knows hnamed hshows (hkept r₀ uname hlists)
  · exact lists_knows hnamed (shows_selectUsers hselect hasks) hlists

theorem effect_appuserin (hco : Coherent kept qs s) (hnamed : Named s.tables)
    (hkept : ∀ r uname, (kept r).lists uname = true → r.lists uname = true) (hop : q.operation = .appuserin)
    (hasks : ∀ aname, reqGetParamStr q.hdfrcv "aname" = .ok aname →
      ∃ q' ∈ qs, AsksUsers q' (hashString aname) (limitParam q.hdfrcv)) :
    Effect s.tables q (aicCmdAppuserin kept q.met s q.hdfrcv).1 (aicCmdAppuserin kept q.met s q.hdfrcv).2 := by
  have herr : ∀ s' err, Has s.tables.userinfo s' → Effect s.tables q (.error err) s' := fun s' err h =>
    .none _ s' h (not_moves_of_error err)
  refine withParam_ends (Q := fun out => Effect s.tables q out.1 out.2) (fun err => herr s err rfl)
    fun aname haname => ?_
  refine withParam_ends (Q := fun out => Effect s.tables q out.1 out.2) (fun err => herr s err rfl)
    fun uname huname => ?_
  have hout : Has s.tables.userinfo
      (aicCmdAppusers kept q.met s (withIds q.hdfrcv (hashString uname) (hashString aname))).2 := has_appusers rfl
  have hmoves : ∀ r, Moves uname (hashString aname) (q, .ok r) := fun r =>
    ⟨.inl hop, huname, ⟨aname, haname, rfl⟩, r, rfl⟩
  dsimp only
  split
  · exact herr _ _ hout
  · rename_i r hr
    split
    · rename_i hlists
      refine .known r _ uname _ hop (hmoves r) hout (appusers_lists hco hnamed hkept ?_ hr ?_ hlists)
      · rw [reqGetParamStr_withIds _ _ _ (by decide) (by decide), haname]
      · rw [limitParam_withIds]
        exact hasks aname haname
    · split
      · exact herr _ _ hout
      · rename_i cols hcols
        refine exec_ends (Q := fun out => Effect s.tables q out.1 out.2) (fun err => herr _ err hout) fun t' ht => ?_
        refine .joined r _ uname _ (newUser q.met cols) hop (hmoves r) (newUser_isVisitor huname hcols) ?_
        rw [← hout]
        exact (insertUser_some ht).1

theorem effect_appuserout (hco : Coherent kept qs s) (hnamed : Named s.tables)
    (hkept : ∀ r uname, (kept r).lists uname = true → r.lists uname = true) (hop : q.operation = .appuserout)
    (hasks : ∀ aname, reqGetParamStr q.hdfrcv "aname" = .ok aname →
      ∃ q' ∈ qs, AsksUsers q' (hashString aname) (limitParam q.hdfrcv)) :
    Effect s.tables q (aicCmdAppuserout kept q.met s q.hdfrcv).1 (aicCmdAppuserout kept q.met s q.hdfrcv).2 := by
  have herr : ∀ s' err, Has s.tables.userinfo s' → Effect s.tables q (.error err) s' := fun s' err h =>
    .none _ s' h (not_moves_of_error err)
  refine withParam_ends (Q := fun out => Effect s.tables q out.1 out.2) (fun err => herr s err rfl)
    fun uname huname => ?_
  refine withParam_ends (Q := fun out => Effect s.tables q out.1 out.2) (fun err => herr s err rfl)
    fun aname haname => ?_
  have hout : Has s.tables.userinfo (aicCmdAppusers kept q.met s q.hdfrcv).2 := has_appusers rfl
  dsimp only
  split
  · exact herr _ _ hout
  · rename_i r hr
    split
    · rename_i hlists
      refine exec_ends (Q := fun out => Effect s.tables q out.1 out.2) (fun err => herr _ err hout) fun t' ht => ?_
      cases ht
      refine .left r _ uname (hashString aname) hop ⟨.inr hop, huname, ⟨aname, haname, rfl⟩, r, rfl⟩
        (appusers_lists hco hnamed hkept haname hr (hasks aname haname) hlists) ?_
      exact congrArg (Table.delete · _) hout
    · exact herr _ _ hout

theorem effect_appuserup (hop : q.operation = .appuserup) :
    Effect s.tables q (aicCmdAppuserup q.met s q.hdfrcv).1 (aicCmdAppuserup q.met s q.hdfrcv).2 := by
  have hno : ∀ reply uname aid, ¬ Moves uname aid (q, reply) := fun reply =>
    not_moves_of_op (by rw [hop]; decide) (by rw [hop]; decide)
  have herr : ∀ err, Effect s.tables q (.error err) s := fun err => .none _ s rfl (hno _)
  refine withParam_ends (Q := fun out => Effect s.tables q out.1 out.2) herr fun uid _ => ?_
  refine withParam_ends (Q := fun out => Effect s.tables q out.1 out.2) herr fun aid _ => ?_
  split
  · exact herr _
  · rename_i cols hcols
    refine exec_ends (Q := fun out => Effect s.tables q out.1 out.2) herr fun t' ht => ?_
    refine .changed _ _ _ (fun row col hcol => ?_) (updateUsers_some ht).1 (hno _)
    obtain rfl := q.met.mnl.mcsBuildUpcol_ok hcols
    have huptime : col ≠ "uptime" := fun heq => absurd (heq ▸ hcol) (by decide)
    have hup : col ∉ updateColUserinfo.map ColumnSpec.col := by
      obtain rfl | rfl | rfl := by simpa using hcol
      · decide
      · decide
      · decide
    refine onRows_keeps (g := fun row => row col) (fun row => ?_) row
    exact (touched_of_ne huptime).trans (assign_of_notMem (notMem_givenCols hup))

theorem effect_served (hco : Coherent kept qs s) (hnamed : Named s.tables)
    (hkept : ∀ r uname, (kept r).lists uname = true → r.lists uname = true) (q : AicRequested) :
    Effect s.tables q (served kept s q).1 (served kept s q).2 := by
  have hlapsed : Coherent kept (qs ++ [q]) { s with cd := lapse s.cd q.met.gone } :=
    (hco.later q).forget fun _ _ hr => lapse_eq_some hr
  have hasks : ∀ aname, reqGetParamStr q.hdfrcv "aname" = .ok aname →
      ∃ q' ∈ qs ++ [q], AsksUsers q' (hashString aname) (limitParam q.hdfrcv) := fun aname haname =>
    ⟨q, List.mem_append_right _ List.mem_cons_self, aname, haname, rfl, rfl⟩
  have hother : ∀ out : AicOutcome, Has s.tables.userinfo out.2 → q.operation ≠ .appuserin →
      q.operation ≠ .appuserout → Effect s.tables q out.1 out.2 := fun out hhas hin hout =>
    .none _ _ hhas (not_moves_of_op hin hout)
  have hhas : Has s.tables.userinfo { s with cd := lapse s.cd q.met.gone } := rfl
  unfold served aicProcessDriver
  cases hop : q.operation with
  | appinfo => exact hother _ (has_appinfo hhas) (by rw [hop]; decide) (by rw [hop]; decide)
  | appnew => exact hother _ (has_appnew hhas) (by rw [hop]; decide) (by rw [hop]; decide)
  | appup => exact hother _ (has_appup hhas) (by rw [hop]; decide) (by rw [hop]; decide)
  | appdel => exact hother _ (has_appdel hhas) (by rw [hop]; decide) (by rw [hop]; decide)
  | getsecy => exact hother _ (withParam_keeps hhas fun _ _ => hhas) (by rw [hop]; decide) (by rw [hop]; decide)
  | setsecy => exact hother _ (has_setsecy hhas) (by rw [hop]; decide) (by rw [hop]; decide)
  | appusers => exact hother _ (has_appusers hhas) (by rw [hop]; decide) (by rw [hop]; decide)
  | appuserin => exact effect_appuserin hlapsed hnamed hkept hop hasks
  | appuserout => exact effect_appuserout hlapsed hnamed hkept hop hasks
  | appuserup => exact effect_appuserup (s := { s with cd := lapse s.cd q.met.gone }) hop
  | appousers => exact hother _ (withParam_keeps hhas fun _ _ => hhas) (by rw [hop]; decide) (by rw [hop]; decide)
  | getrlink => exact hother _ (has_getrlink hhas) (by rw [hop]; decide) (by rw [hop]; decide)
  | setrlink => exact hother _ (has_setrlink hhas) (by rw [hop]; decide) (by rw [hop]; decide)

section Effects
variable {reply : Except AicErr AicReply}

theorem Moves.unique {e : Event} (h : Moves uname aid e) (h' : Moves u aid' e) : uname = u ∧ aid = aid' := by
  obtain ⟨aname, haname, rfl⟩ := h.aname
  obtain ⟨aname', haname', rfl⟩ := h'.aname
  obtain rfl := Except.ok.inj (haname.symm.trans haname')
  exact ⟨Except.ok.inj (h.uname.symm.trans h'.uname), rfl⟩

theorem knows_congr (h : t'.userinfo = t.userinfo) : Knows t' uname aid ↔ Knows t uname aid := by
  unfold Knows
  rw [h]

theorem Effect.named (h : Effect t q reply s') (hnamed : Named t)
    (hfits : ∀ uname, reqGetParamStr q.hdfrcv "uname" = .ok uname → Fits uname) : Named s'.tables := by
  intro row hrow
  cases h with
  | none reply s' huser hno => exact hnamed row (huser ▸ hrow)
  | known r s' uname aid hop hmoves huser hknows => exact hnamed row (huser ▸ hrow)
  | joined r s' uname aid row' hop hmoves hvisitor huser =>
    obtain hold | rfl := (Table.mem_insert huser).mp hrow
    · exact hnamed row hold
    · exact ⟨uname, aid, hvisitor, hfits uname hmoves.uname⟩
  | left r s' uname aid hop hmoves hknows huser =>
    rw [huser] at hrow
    exact hnamed row (Table.mem_delete.mp hrow).1
  | changed reply s' f hf huser hno =>
    obtain ⟨row', hrow', rfl⟩ := (Table.mem_update huser).mp hrow
    obtain ⟨uname, aid, hvisitor, hfits⟩ := hnamed row' hrow'
    exact ⟨uname, aid, ⟨(hf row' "uid" (by decide)).trans hvisitor.uid,
      (hf row' "uname" (by decide)).trans hvisitor.uname, (hf row' "aid" (by decide)).trans hvisitor.aid⟩, hfits⟩

theorem Effect.knows (h : Effect t q reply s') (hop : q.operation = .appuserin) (hmoves : Moves u aid' (q, reply))
    (hfits : Fits u) : Knows s'.tables u aid' := by
  cases h with
  | none reply s' huser hno => exact absurd hmoves (hno u aid')
  | known r s' uname aid hop hmoves' huser hknows =>
    obtain ⟨rfl, rfl⟩ := hmoves.unique hmoves'
    exact (knows_congr huser).mpr hknows
  | joined r s' uname aid row hop hmoves' hvisitor huser =>
    obtain ⟨rfl, rfl⟩ := hmoves.unique hmoves'
    exact knows_of_visitor hvisitor hfits ((Table.mem_insert huser).mpr (.inr rfl))
  | left r s' uname aid hop' hmoves' hknows huser => cases hop.symm.trans hop'
  | changed reply s' f hf huser hno => exact absurd hmoves (hno u aid')

theorem Effect.not_knows (h : Effect t q reply s') (hnamed : Named t) (hop : q.operation = .appuserout)
    (hmoves : Moves u aid' (q, reply)) : ¬ Knows s'.tables u aid' := by
  cases h with
  | none reply s' huser hno => exact absurd hmoves (hno u aid')
  | known r s' uname aid hop' hmoves' huser hknows => cases hop.symm.trans hop'
  | joined r s' uname aid row hop' hmoves' hvisitor huser => cases hop.symm.trans hop'
  | left r s' uname aid hop' hmoves' hknows huser =>
    obtain ⟨rfl, rfl⟩ := hmoves.unique hmoves'
    rintro ⟨row, hrow, hname, haid⟩
    rw [huser] at hrow
    obtain ⟨hold, hout⟩ := Table.mem_delete.mp hrow
    obtain ⟨v, a, hvisitor, hfits⟩ := hnamed row hold
    obtain rfl : v = u := hfits.column.symm.trans (Value.text.inj (hvisitor.uname.symm.trans hname))
    unfold isUser at hout
    rw [hvisitor.uid, haid] at hout
    simp at hout
  | changed reply s' f hf huser hno => exact absurd hmoves (hno u aid')

/-- Of another visitor, also of one with the same number, nothing changes. -/
theorem Effect.knows_iff (h : Effect t q reply s') (hnamed : Named t)
    (hfits : ∀ uname, reqGetParamStr q.hdfrcv "uname" = .ok uname → Fits uname)
    (hno : ¬ Moves u aid' (q, reply)) : Knows s'.tables u aid' ↔ Knows t u aid' := by
  cases h with
  | none reply s' huser hno' => exact knows_congr huser
  | known r s' uname aid hop hmoves huser hknows => exact knows_congr huser
  | joined r s' uname aid row hop hmoves hvisitor huser =>
    constructor
    · rintro ⟨row', hrow', hname, haid⟩
      obtain hold | rfl := (Table.mem_insert huser).mp hrow'
      · exact ⟨row', hold, hname, haid⟩
      · have hfit := hfits uname hmoves.uname
        obtain rfl : uname = u := hfit.column.symm.trans (Value.text.inj (hvisitor.uname.symm.trans hname))
        obtain rfl : aid = aid' := Value.int.inj (hvisitor.aid.symm.trans haid)
        exact absurd hmoves hno
    · rintro ⟨row', hrow', hname, haid⟩
      exact ⟨row', (Table.mem_insert huser).mpr (.inl hrow'), hname, haid⟩
  | left r s' uname aid hop hmoves hknows huser =>
    constructor
    · rintro ⟨row, hrow, hname, haid⟩
      rw [huser] at hrow
      exact ⟨row, (Table.mem_delete.mp hrow).1, hname, haid⟩
    · intro hother
      obtain ⟨hfit, row, hrow, hvisitor⟩ := hother.visitor hnamed
      refine knows_of_visitor hvisitor hfit ?_
      rw [huser]
      refine Table.mem_delete.mpr ⟨hrow, Bool.eq_false_iff.mpr fun hout => ?_⟩
      unfold isUser at hout
      rw [hvisitor.uid, hvisitor.aid] at hout
      obtain ⟨huid, haid⟩ := of_decide_eq_true hout
      obtain rfl : aid' = aid := Value.int.inj haid
      obtain rfl := hother.eq hknows hnamed (Value.int.inj huid)
      exact hno hmoves
  | changed reply s' f hf huser hno' =>
    constructor
    · rintro ⟨row, hrow, hname, haid⟩
      obtain ⟨row', hrow', rfl⟩ := (Table.mem_update huser).mp hrow
      exact ⟨row', hrow', (hf row' "uname" (by decide)).symm.trans hname, (hf row' "aid" (by decide)).symm.trans haid⟩
    · rintro ⟨row, hrow, hname, haid⟩
      exact ⟨f row, (Table.mem_update huser).mpr ⟨row, hrow, rfl⟩, (hf row "uname" (by decide)).trans hname,
        (hf row "aid" (by decide)).trans haid⟩

end Effects

theorem log_append (kept : AicReply → AicReply) (s : AicPlugin) (qs : List AicRequested) (q : AicRequested) :
    log kept s (qs ++ [q]) = log kept s qs ++ [(q, (served kept (after kept s qs) q).1)] := by
  induction qs generalizing s with
  | nil => rfl
  | cons q' qs ih => exact congrArg _ (ih (step kept s q'))

theorem after_append (kept : AicReply → AicReply) (s : AicPlugin) (qs : List AicRequested) (q : AicRequested) :
    after kept s (qs ++ [q]) = (served kept (after kept s qs) q).2 := by
  rw [after, List.foldl_append]
  rfl

/-- Two visitors are let in; the second one is asked to leave when only the first one is listed. -/
def notListed : List AicRequested := firstAsked ++ [visits .appuserout [98]]

end Cmoon.SiteVisitors
