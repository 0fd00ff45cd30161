import Cmoon.MemberEdits

/-! # The authorization columns

`verify`, `credit` and `statu` stand in both column lists of the plugin, next to what a
member may say about itself. A registration or an edit writes them when the query has them. -/
namespace Cmoon.MemberPrivileges
open DecimalText Datasets StatementBuilding MemberTables NameHashing MemberPlugin MemberCommands
  MemberRequests MemberEdits RequestPrograms

def privilegeCols : List String := ["verify", "credit", "statu"]

/-- The statement writes an authorization column of a member. -/
def Statement.SetsPrivilege : Statement → Prop
  | .insertMember cols => ∃ col ∈ privilegeCols, ∃ lit, (col, lit) ∈ cols
  | .updateMember cols _ => ∃ col ∈ privilegeCols, ∃ lit, (col, lit) ∈ cols
  | _ => False

/-- In no state of the plugin does the command write one. -/
def NoPrivilege (accepts : Assignments → Bool) (c : Command) : Prop :=
  ∀ e, Coherent e → ∀ s ∈ (memberProcessDriver accepts e c.operation c.hdfsnd).executed,
    ¬ Statement.SetsPrivilege s

/-- The requests a client writes its own data with. -/
inductive ProfileRequest where
  | registration (req : Request) (mmsn : RandString lenCk)
  | edit (req : Request)

def ProfileRequest.handler : ProfileRequest → Handler Response
  | .registration req mmsn => memberNewDataAdd req mmsn
  | .edit req => memberEditDataMod req

def NoneGiven (query : Dataset) : Prop := ∀ col ∈ privilegeCols, nonempty query col = none

instance (query : Dataset) : Decidable (NoneGiven query) :=
  inferInstanceAs (Decidable (∀ col ∈ privilegeCols, nonempty query col = none))

/-- The query has none of the columns, or the request writes nothing at all: a required field is
not there, no cookie says who edits, no row is named, or the server refuses the values. -/
def ProfileRequest.Unprivileged (accepts : Assignments → Bool) : ProfileRequest → Prop
  | .registration req _ => NoneGiven req.query ∨ (∃ name ∈ ["mnick", "mname", "msn"], nonempty req.query name = none) ∨
      ∃ mname, nonempty req.query "mname" = some mname ∧ accepts (registrationCols req.query mname) = false
  | .edit req => NoneGiven req.query ∨ ∀ cred mname, credentials req = .ok cred → cred.reserve = some mname →
      editTarget req mname = none ∨ accepts (givenCols req.query updateColMember) = false

theorem privilegeCols_ne : ∀ col ∈ privilegeCols, col ≠ "mid" ∧ col ≠ "ori" := by decide

theorem spec_of_privilege : ∀ col ∈ privilegeCols, (∃ spec ∈ updateColMember, spec.name = col ∧ spec.col = col) ∧
    ∃ spec ∈ insertColMember, spec.name = col ∧ spec.col = col := by decide

/-- The columns a dataset gives of a list have a privilege exactly when the dataset has a value for it. -/
theorem givenCols_privilege {data : Dataset} {specs : List ColumnSpec}
    (hspecs : specs = updateColMember ∨ specs = insertColMember) :
    (∃ col ∈ privilegeCols, ∃ lit, (col, lit) ∈ givenCols data specs) ↔ ¬ NoneGiven data := by
  constructor
  · rintro ⟨col, hcol, lit, hmem⟩ hnone
    obtain ⟨spec, hspec, val, hval, rfl, -⟩ := mem_givenCols.mp hmem
    have hboth : spec ∈ updateColMember ++ insertColMember := by
      rcases hspecs with rfl | rfl <;> simp [hspec]
    rw [name_eq_col spec hboth, hnone _ hcol] at hval
    cases hval
  · intro hgiven
    simp only [NoneGiven, not_forall] at hgiven
    obtain ⟨col, hcol, hne⟩ := hgiven
    obtain ⟨val, hval⟩ := Option.ne_none_iff_exists'.mp hne
    obtain ⟨spec, hspec, hname, hspeccol⟩ : ∃ spec ∈ specs, spec.name = col ∧ spec.col = col := by
      rcases hspecs with rfl | rfl
      · exact (spec_of_privilege col hcol).1
      · exact (spec_of_privilege col hcol).2
    exact ⟨col, hcol, _, mem_givenCols.mpr ⟨spec, hspec, val, hname ▸ hval, hspeccol, rfl⟩⟩

section Commands
variable {accepts : Assignments → Bool}

theorem noneGiven_registrationData (query : Dataset) (mname : Bytes) :
    NoneGiven (registrationData query mname) ↔ NoneGiven query := by
  apply forall₂_congr
  intro col hcol
  obtain ⟨hmid, hori⟩ := privilegeCols_ne col hcol
  rw [nonempty_registrationData query mname hmid hori]

/-- The required columns of a registration are the id and three fields of the query. -/
theorem complete_registration {query : Dataset} {mname : Bytes} (h : ∀ name ∈ ["mnick", "mname", "msn"],
    nonempty query name ≠ none) : Complete (registrationData query mname) insertColMember := by
  have hrequired : ∀ spec ∈ insertColMember, spec.require = true →
      spec.name = "mid" ∨ spec.name ∈ ["mnick", "mname", "msn"] ∧ spec.name ≠ "mid" ∧ spec.name ≠ "ori" := by
    decide
  intro spec hspec hreq
  rcases hrequired spec hspec hreq with hmid | ⟨hin, hmid, hori⟩
  · rw [hmid, registrationData, nonempty_setInt]
    exact Option.some_ne_none _
  · rw [nonempty_registrationData query mname hmid hori]
    exact h _ hin

theorem required_registration {query : Dataset} {mname : Bytes}
    (h : Complete (registrationData query mname) insertColMember) :
    ∀ name ∈ ["mnick", "mname", "msn"], nonempty query name ≠ none := by
  intro name hname
  have hspec : ∀ name ∈ ["mnick", "mname", "msn"], ∃ spec ∈ insertColMember, spec.name = name ∧
      spec.require = true ∧ name ≠ "mid" ∧ name ≠ "ori" := by decide
  obtain ⟨spec, hin, rfl, hreq, hmid, hori⟩ := hspec name hname
  rw [← nonempty_registrationData query mname hmid hori]
  exact h spec hin hreq

theorem memberAdd_noPrivilege {query : Dataset} {mname : Bytes} (hname : nonempty query "mname" = some mname) :
    NoPrivilege accepts ⟨.memberAdd, query⟩ ↔ NoneGiven query ∨
      (∃ name ∈ ["mnick", "mname", "msn"], nonempty query name = none) ∨
        accepts (registrationCols query mname) = false := by
  have hsets : (∃ col ∈ privilegeCols, ∃ lit, (col, lit) ∈ registrationCols query mname) ↔ ¬ NoneGiven query := by
    rw [← noneGiven_registrationData query mname]
    exact givenCols_privilege (.inr rfl)
  constructor
  · intro h
    by_contra hcon
    simp only [not_or, not_exists, not_and, Bool.not_eq_false] at hcon
    obtain ⟨hgiven, hreq, hacc⟩ := hcon
    have hstart := coherent_start emptyDb
    obtain ⟨rest, hexec, -⟩ := memberCmdMemAdd_registers hstart hname
      ⟨rfl, complete_registration hreq, hacc⟩
    have hmem : .insertMember (registrationCols query mname) ∈
        (memberProcessDriver accepts (start emptyDb) .memberAdd query).executed := by
      rw [memberProcessDriver, hexec]
      exact List.mem_cons_self
    exact h _ hstart _ hmem (hsets.mpr hgiven)
  · intro hcond e he s hs hset
    rw [memberProcessDriver] at hs
    by_cases hreg : Registers accepts e query mname
    · obtain ⟨rest, hexec, hrest⟩ := memberCmdMemAdd_registers he hname hreg
      rw [hexec] at hs
      obtain rfl | hs := List.mem_cons.mp hs
      · rcases hcond with hnone | ⟨name, hin, hnone⟩ | hacc
        · exact hsets.mp hset hnone
        · exact required_registration hreg.complete name hin hnone
        · exact absurd hreg.accepted (by rw [hacc]; decide)
      · obtain ⟨cols, rfl⟩ := hrest s hs
        exact hset
    · rw [memberCmdMemAdd_refuses he hname hreg] at hs
      cases hs

theorem edit_noPrivilege (req : Request) (mname : Bytes) :
    NoPrivilege accepts ⟨.memberUp, editData req mname⟩ ↔ NoneGiven req.query ∨
      editTarget req mname = none ∨ accepts (givenCols req.query updateColMember) = false := by
  have hsets : (∃ col ∈ privilegeCols, ∃ lit, (col, lit) ∈ givenCols req.query updateColMember) ↔
      ¬ NoneGiven req.query := givenCols_privilege (.inl rfl)
  constructor
  · intro h
    by_contra hcon
    simp only [not_or, Bool.not_eq_false] at hcon
    obtain ⟨hgiven, hsome, hacc⟩ := hcon
    obtain ⟨mid, hmid⟩ := Option.ne_none_iff_exists'.mp hsome
    have hcols : givenCols req.query updateColMember ≠ [] := by
      intro hnil
      obtain ⟨_, _, _, hmem⟩ := hsets.mpr hgiven
      rw [hnil] at hmem
      cases hmem
    exact h full (coherent_start _) _ (executed_full hmid hcols hacc) (hsets.mpr hgiven)
  · intro hcond e he s hs hset
    rw [memberProcessDriver, executed_edit he] at hs
    split at hs
    · cases hs
    · rename_i mid hmid
      split at hs
      · rename_i hc
        obtain rfl := List.mem_singleton.mp hs
        rcases hcond with hnone | hnone | hacc
        · exact hsets.mp hset hnone
        · rw [hmid] at hnone
          cases hnone
        · rw [hacc] at hc
          cases hc.2.2
      · cases hs

theorem afterLogin_noPrivilege (req : Request) (mname : Bytes) (mnick : Option Bytes) (mmsn : RandString lenCk) :
    (memberAfterLogin req mname mnick mmsn).Commands fun c _ => NoPrivilege accepts c := by
  refine ⟨fun e he s hs hset => ?_, fun _ => trivial⟩
  have hnone : NoneGiven [("mmsn", some mmsn.text), ("mname", some mname)] := by
    intro col hcol
    simp only [privilegeCols, List.mem_cons, List.not_mem_nil, or_false] at hcol
    rcases hcol with rfl | rfl | rfl <;> rfl
  cases hp : memberGetParamMid [("mmsn", some mmsn.text), ("mname", some mname)] with
  | error err =>
    rw [memberProcessDriver, memberCmdMemUp, hp] at hs
    cases hs
  | ok param =>
    rw [memberProcessDriver, memberCmdMemUp_executed he hp] at hs
    split at hs
    · obtain rfl := List.mem_singleton.mp hs
      exact (givenCols_privilege (.inl rfl)).mp hset hnone
    · cases hs

theorem checkLogin_noPrivilege (req : Request) :
    (memberCheckLoginDataGet req).Commands fun c _ => NoPrivilege accepts c := by
  apply commands_checkLogin
  intro cred _ e he s hs
  rw [memberProcessDriver, (memberCmdMemGet_frame he _).1] at hs
  cases hs

theorem registration_noPrivilege_iff (req : Request) (mmsn : RandString lenCk) :
    ((ProfileRequest.registration req mmsn).handler.Commands fun c _ => NoPrivilege accepts c) ↔
      (ProfileRequest.registration req mmsn).Unprivileged accepts := by
  cases hnick : nonempty req.query "mnick" with
  | none =>
    refine iff_of_true (commands_hdfGetStr fun v hv => ?_) (.inr (.inl ⟨"mnick", by simp, hnick⟩))
    rw [hnick] at hv
    cases hv
  | some mnick =>
    cases hname : nonempty req.query "mname" with
    | none =>
      refine iff_of_true (commands_hdfGetStr fun v _ => commands_hdfGetStr fun v hv => ?_)
        (.inr (.inl ⟨"mname", by simp, hname⟩))
      rw [hname] at hv
      cases hv
    | some mname =>
      have hcopy : hdfCopy [] req.query = req.query := List.append_nil _
      rw [ProfileRequest.Unprivileged]
      simp only [hname, Option.some.injEq, exists_eq_left']
      rw [← memberAdd_noPrivilege hname]
      simp only [ProfileRequest.handler, memberNewDataAdd, hdfGetStr, hnick, hname, hcopy]
      exact ⟨fun h => h.1, fun h => commands_meventTrigger h fun _ => afterLogin_noPrivilege ..⟩

theorem edit_noPrivilege_iff (req : Request) :
    ((ProfileRequest.edit req).handler.Commands fun c _ => NoPrivilege accepts c) ↔
      (ProfileRequest.edit req).Unprivileged accepts := by
  constructor
  · intro h
    by_cases hnone : NoneGiven req.query
    · exact .inl hnone
    refine .inr fun cred mname hcred hreserve => ?_
    have hends := checkLogin_ends hcred ⟨[("mmsn", some cred.mmsn)], rfl, rfl⟩
    rw [hreserve] at hends
    have hfeed := Program.commands_feed h [.ok [("mmsn", some cred.mmsn)]]
    rw [ProfileRequest.handler, memberEditDataMod, memberCheckLogin_feed hends] at hfeed
    exact ((edit_noPrivilege req mname).mp hfeed.1).resolve_left hnone
  · intro hcond
    apply Program.commands_bind_ends (checkLogin_noPrivilege req)
    intro rs result hends
    rcases result with failure | _ | mname
    · trivial
    · trivial
    · obtain ⟨cred, reply, hcred, -, -, hreserve⟩ := checkLogin_ends_ok hends
      refine ⟨(edit_noPrivilege req mname).mpr ?_, fun _ => trivial⟩
      exact hcond.imp_right fun h => h cred mname hcred hreserve

/-- A request writes no privilege, whatever the replies are, exactly when it is unprivileged. -/
theorem handler_noPrivilege_iff (r : ProfileRequest) :
    (r.handler.Commands fun c _ => NoPrivilege accepts c) ↔ r.Unprivileged accepts := by
  cases r with
  | registration req mmsn => exact registration_noPrivilege_iff req mmsn
  | edit req => exact edit_noPrivilege_iff req

end Commands

/-- The level that a reply with this row gives to `MEMBER_CHECK_ADMIN` and `MEMBER_CHECK_ROOT`. -/
def verifyLevel (row : Row) : ℤ := hdfGetIntValue [("verify", some (row "verify").print)] "verify" (-1)

theorem memberCheckLevel_shows {d : Dataset} {row : Row} (h : Shows d row colMember) (level : ℤ) :
    memberCheckLevel level d ↔ level ≤ verifyLevel row := by
  rw [memberCheckLevel, verifyLevel, hdfGetIntValue, h "verify" (by decide) (by decide)]
  rfl

/-- Every member has the level it had before, or the default of a new row. -/
def VerifyKept (db db' : Database) : Prop :=
  ∀ mid row, db'.member mid = some row →
    (∃ old, db.member mid = some old ∧ row "verify" = old "verify") ∨ row "verify" = .int 0

theorem VerifyKept.trans {db db₁ db₂ : Database} (h₁ : VerifyKept db db₁) (h₂ : VerifyKept db₁ db₂) :
    VerifyKept db db₂ := by
  intro mid row hrow
  rcases h₂ mid row hrow with ⟨old, hold, hsame⟩ | hzero
  · rw [hsame]
    exact h₁ mid old hold
  · exact .inr hzero

theorem lookup_verify_none {cols : Assignments} (h : ¬ ∃ col ∈ privilegeCols, ∃ lit, (col, lit) ∈ cols) :
    cols.lookup "verify" = none := by
  rw [List.lookup_eq_none_iff]
  rintro ⟨col, lit⟩ hmem
  apply bne_iff_ne.mpr
  intro heq
  subst heq
  exact h ⟨"verify", by decide, lit, hmem⟩

theorem exec_verifyKept {accepts : Assignments → Bool} {db db' : Database} {s : Statement}
    (hs : db.exec accepts s = some db') (hset : ¬ Statement.SetsPrivilege s) : VerifyKept db db' := by
  intro mid row hrow
  by_cases hw : s.Writes mid
  swap
  · rw [exec_member_frame hs hw] at hrow
    exact .inl ⟨row, hrow, rfl⟩
  cases s with
  | insertMember cols =>
    simp only [Database.exec] at hs
    split at hs
    · cases hs
      have hmid : (memberDefault.assign cols).mid = mid := hw
      simp only [hmid, Function.update_self, Option.some.injEq] at hrow
      rw [← hrow, Row.assign_of_lookup_none (lookup_verify_none hset)]
      exact .inr rfl
    · cases hs
  | updateMember cols mid' =>
    obtain rfl : mid' = mid := hw
    simp only [Database.exec] at hs
    split at hs
    · cases hs
      simp only [Function.update_self, Option.map_eq_some_iff] at hrow
      obtain ⟨old, hold, rfl⟩ := hrow
      exact .inl ⟨old, hold, Row.assign_of_lookup_none (lookup_verify_none hset)⟩
    · cases hs
  | insertCar cols => exact hw.elim
  | mergeMemberreset mname rlink => exact hw.elim

theorem execAll_verifyKept {accepts : Assignments → Bool} {db db' : Database} {l : List Statement}
    (h : l.foldlM (Database.exec accepts) db = some db') (hl : ∀ s ∈ l, ¬ Statement.SetsPrivilege s) :
    VerifyKept db db' := by
  induction l generalizing db with
  | nil =>
    cases h
    exact fun mid row hrow => .inl ⟨row, hrow, rfl⟩
  | cons s l ih =>
    obtain ⟨hs, hl⟩ := List.forall_mem_cons.mp hl
    rw [List.foldlM_cons] at h
    obtain ⟨db₁, h₁, h⟩ := Option.bind_eq_some_iff.mp h
    exact (exec_verifyKept h₁ hs).trans (ih h hl)

abbrev ProfileMove := Move Command Reply Note (Except Failure Response) Expiry

theorem run_verifyKept {accepts : Assignments → Bool} {db : Database} {moves : List ProfileMove}
    (hmoves : ∀ p, .arrive p ∈ moves → ∃ r : ProfileRequest, r.Unprivileged accepts ∧ p = r.handler) :
    VerifyKept db ((memberServer accepts).run ⟨start db, [], []⟩ moves).state.db := by
  have hstart : Server.Upheld (fun e (_ : List Note) => Coherent e ∧ VerifyKept db e.db)
      (fun c _ => NoPrivilege accepts c) (⟨start db, [], []⟩ : Pool _ Command Reply Note (Except Failure Response)) :=
    ⟨⟨coherent_start db, fun mid row hrow => .inl ⟨row, hrow, rfl⟩⟩, by simp⟩
  have hkeeps : (memberServer accepts).Moves (fun pool m =>
      (∀ p, m = .arrive p → p.Commands fun c _ => NoPrivilege accepts c) ∧
        (memberServer accepts).Executes (fun _ _ _ => True) pool m) ⟨start db, [], []⟩ moves := by
    refine Server.moves_of_forall fun pool m hm => ⟨?_, Server.executes_true _ _⟩
    rintro p rfl
    obtain ⟨r, hr, rfl⟩ := hmoves p hm
    exact (handler_noPrivilege_iff r).mpr hr
  refine (Server.upheld_run (Q := fun _ _ _ => True) ?_ ?_ hstart hkeeps).inv.2
  · rintro c note e log hc ⟨hco, hv⟩ -
    have hkept : Kept accepts e.db (memberProcessDriver accepts e c.operation c.hdfsnd) :=
      memberProcessDriver_kept hco c.operation c.hdfsnd
    exact ⟨hkept.coherent, hv.trans (execAll_verifyKept hkept.traced (hc e hco))⟩
  · rintro e log x ⟨hco, hv⟩
    exact ⟨coherent_expire hco x, (expire_db e x).symm ▸ hv⟩

/-- The levels that `MEMBER_CHECK_ADMIN` and `MEMBER_CHECK_ROOT` accept are not the default. -/
theorem level_kept {db db' : Database} (h : VerifyKept db db') {level : ℤ}
    (hlevel : level = memberVfAdmin ∨ level = memberVfRoot) {mid : ℤ} {row : Row}
    (hrow : db'.member mid = some row) (hraised : level ≤ verifyLevel row) :
    ∃ old, db.member mid = some old ∧ level ≤ verifyLevel old := by
  rcases h mid row hrow with ⟨old, hold, hsame⟩ | hzero
  · refine ⟨old, hold, ?_⟩
    rwa [verifyLevel, ← hsame]
  · rw [verifyLevel, hzero] at hraised
    have hdefault : hdfGetIntValue [("verify", some (Value.int 0).print)] "verify" (-1) = 0 := by decide
    rw [hdefault] at hraised
    rcases hlevel with rfl | rfl <;> simp [memberVfAdmin, memberVfRoot] at hraised

/-- A registration that asks for the level of an administrator. -/
def registerAdmin : ProfileRequest :=
  .registration ⟨[("mname", some [97]), ("mnick", some [98]), ("msn", some [112]), ("verify", some [57, 48])], []⟩
    tokenT

def registerPlain : ProfileRequest :=
  .registration ⟨[("mname", some [97]), ("mnick", some [98]), ("msn", some [112])], []⟩ tokenT

def registerPlainRun : List ProfileMove := [.arrive registerPlain.handler, .advance 0]

end Cmoon.MemberPrivileges
