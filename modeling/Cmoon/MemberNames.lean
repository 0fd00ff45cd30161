import Cmoon.MemberRequests

/-! # Members by name

A command that carries a name and no id goes to the row under the hash of the name, and so
does the cache. It is the row of that name unless another name has taken the id before. -/
namespace Cmoon.MemberNames
open DecimalText Datasets StatementBuilding MemberTables NameHashing MemberPlugin MemberCommands MemberRequests

def nameKeyed : List Cmd := [.memberGet, .memberPrivGet, .memberUp, .memberGetrlink, .memberSetrlink]

def nameOf (row : Row) : Bytes := (row "mname").print

/-- The rows that are read and written are the one of `mname`, and none if there is no such row. -/
structure ReachesOnly (e : MemberEntry) (out : Outcome) (mname : Bytes) : Prop where
  read : ∀ d ∈ out.read, hdfGetValue d "mname" = some mname
  written : ∀ s ∈ out.executed, ∀ mid, s.Writes mid → ∃ row, e.db.member mid = some row ∧ nameOf row = mname
  link : ∀ name rlink, .mergeMemberreset name rlink ∈ out.executed → name = mname
  absent : (∀ mid row, e.db.member mid = some row → nameOf row ≠ mname) → out.read = [] ∧ out.executed = []

theorem reachesOnly_nothing {e : MemberEntry} {out : Outcome} {mname : Bytes}
    (h : out.read = [] ∧ out.executed = []) : ReachesOnly e out mname :=
  ⟨by simp [h.1], by simp [h.2], by simp [h.2], fun _ => h⟩

/-- The states the plugin comes to from its tables, with any commands, and with entries expiring. -/
inductive Reachable (accepts : Assignments → Bool) (db : Database) : MemberEntry → Prop where
  | start : Reachable accepts db (start db)
  | command {e} (h : Reachable accepts db e) (operation : Cmd) (hdfrcv : Dataset) :
      Reachable accepts db (memberProcessDriver accepts e operation hdfrcv).entry
  | expire {e} (h : Reachable accepts db e) (x : Expiry) : Reachable accepts db (expire e x)

theorem coherent_reachable {accepts : Assignments → Bool} {db : Database} {e : MemberEntry}
    (h : Reachable accepts db e) : Coherent e := by
  induction h with
  | start => exact coherent_start db
  | @command e _ operation hdfrcv ih =>
    have hkept : Kept accepts e.db (memberProcessDriver accepts e operation hdfrcv) :=
      memberProcessDriver_kept ih operation hdfrcv
    exact hkept.coherent
  | expire _ x ih => exact coherent_expire ih x

theorem nameKeyed_unnamed {accepts : Assignments → Bool} {e : MemberEntry} {hdf : Dataset}
    (hmid : hdfGetValue hdf "mid" = none) (hname : nonempty hdf "mname" = none) {operation : Cmd}
    (hop : operation ∈ nameKeyed) : (memberProcessDriver accepts e operation hdf).read = [] ∧
      (memberProcessDriver accepts e operation hdf).executed = [] := by
  have hp := memberGetParamMid_none hmid hname
  simp only [nameKeyed, List.mem_cons, List.not_mem_nil, or_false] at hop
  rcases hop with rfl | rfl | rfl | rfl | rfl <;>
    simp only [memberProcessDriver, memberCmdMemGet, memberCmdMemPrivGet, memberCmdMemUp, memberCmdMemGetrlink,
      memberCmdMemSetrlink, hp, reqGetParamStr, hname, Outcome.fail, and_self]

section Command
variable {accepts : Assignments → Bool} {e : MemberEntry} (h : Coherent e) {hdf : Dataset} {mname : Bytes}
  (hmid : hdfGetValue hdf "mid" = none) (hname : nonempty hdf "mname" = some mname)
include h hmid hname

omit h in
private theorem param_mname : ∃ hdf', memberGetParamMid hdf = .ok (hashStringRev mname, hdf') ∧
    memberGetParamMid hdf' = .ok (hashStringRev mname, hdf') :=
  ⟨_, memberGetParamMid_mname hmid hname, memberGetParamMid_again (memberGetParamMid_mname hmid hname)⟩

/-- Without a row under the id nothing is read and nothing written. -/
theorem nameKeyed_absent (hrow : e.db.member (hashStringRev mname) = none) {operation : Cmd}
    (hop : operation ∈ nameKeyed) : (memberProcessDriver accepts e operation hdf).read = [] ∧
      (memberProcessDriver accepts e operation hdf).executed = [] := by
  obtain ⟨hdf', hp, hp'⟩ := param_mname hmid hname
  have hget := memberCmdMemGet_none h hp hrow
  simp only [nameKeyed, List.mem_cons, List.not_mem_nil, or_false] at hop
  rcases hop with rfl | rfl | rfl | rfl | rfl
  · rw [memberProcessDriver, hget]
    exact ⟨rfl, rfl⟩
  · have hcache : e.memberPriv (hashStringRev mname) = none := by
      by_contra hne
      obtain ⟨d, hd⟩ := Option.ne_none_iff_exists'.mp hne
      obtain ⟨row, hrow', -⟩ := h.memberPriv hd
      rw [hrow] at hrow'
      cases hrow'
    simp only [memberProcessDriver, memberCmdMemPrivGet, hp, hcache, hrow]
    exact ⟨rfl, rfl⟩
  · simp only [memberProcessDriver, memberCmdMemUp, hp, memberCmdMemGet_none h hp' hrow]
    exact ⟨rfl, rfl⟩
  · simp only [memberProcessDriver, memberCmdMemGetrlink, reqGetParamStr, hname, hget]
    exact ⟨rfl, rfl⟩
  · simp only [memberProcessDriver, memberCmdMemSetrlink, reqGetParamStr, hname, hget]
    split <;> exact ⟨rfl, rfl⟩

theorem nameKeyed_read {row : Row} (hrow : e.db.member (hashStringRev mname) = some row) {operation : Cmd}
    (hop : operation ∈ nameKeyed) :
    ∀ d ∈ (memberProcessDriver accepts e operation hdf).read, hdfGetValue d "mname" = some (nameOf row) := by
  obtain ⟨hdf', hp, hp'⟩ := param_mname hmid hname
  obtain ⟨d, e₁, hget, hshow, -, -⟩ := memberCmdMemGet_some h hp hrow
  have hd : hdfGetValue d "mname" = some (nameOf row) := hshow "mname" (by decide) (by decide)
  simp only [nameKeyed, List.mem_cons, List.not_mem_nil, or_false] at hop
  rcases hop with rfl | rfl | rfl | rfl | rfl
  · rw [memberProcessDriver, hget]
    simpa using hd
  · cases hcache : e.memberPriv (hashStringRev mname) with
    | some d' =>
      obtain ⟨row', hrow', hshow'⟩ := h.memberPriv hcache
      rw [hrow] at hrow'
      cases hrow'
      simp only [memberProcessDriver, memberCmdMemPrivGet, hp, hcache, List.mem_singleton, forall_eq]
      exact hshow' "mname" (by decide) (by decide)
    | none =>
      simp only [memberProcessDriver, memberCmdMemPrivGet, hp, hcache, hrow, List.mem_singleton, forall_eq]
      exact shows_mdbSetRow row colMemberAdmin "mname" (by decide) (by decide)
  · obtain ⟨d', e₁', hget', hshow', -, -⟩ := memberCmdMemGet_some h hp' hrow
    have hd' : hdfGetValue d' "mname" = some (nameOf row) := hshow' "mname" (by decide) (by decide)
    simp only [memberProcessDriver, memberCmdMemUp, hp, hget']
    split
    · simpa using hd'
    · unfold mdbExec
      split <;> simpa using hd'
  · simp only [memberProcessDriver, memberCmdMemGetrlink, reqGetParamStr, hname, hget]
    split <;> simpa using hd
  · simp only [memberProcessDriver, memberCmdMemSetrlink, reqGetParamStr, hname, hget]
    split
    · simp [Outcome.fail]
    · unfold mdbExec
      split <;> simpa using hd

/-- What is written is the row under the id, and the link of the name itself. -/
theorem nameKeyed_executed {operation : Cmd} (hop : operation ∈ nameKeyed) :
    ∀ s ∈ (memberProcessDriver accepts e operation hdf).executed,
      (∀ mid, s.Writes mid → mid = hashStringRev mname) ∧ ∀ name rlink, s = .mergeMemberreset name rlink → name = mname := by
  obtain ⟨hdf', hp, -⟩ := param_mname hmid hname
  intro s hs
  simp only [nameKeyed, List.mem_cons, List.not_mem_nil, or_false] at hop
  rcases hop with rfl | rfl | rfl | rfl | rfl
  · rw [memberProcessDriver, (memberCmdMemGet_frame h hdf).1] at hs
    cases hs
  · rw [memberProcessDriver, (memberCmdMemPrivGet_frame h hdf).1] at hs
    cases hs
  · rw [memberProcessDriver, memberCmdMemUp_executed h hp] at hs
    split at hs
    · obtain rfl := List.mem_singleton.mp hs
      refine ⟨fun mid hw => hw.symm, fun name rlink heq => ?_⟩
      cases heq
    · cases hs
  · rw [memberProcessDriver, (memberCmdMemGetrlink_frame h hdf).1] at hs
    cases hs
  · obtain ⟨name, rlink, hin, rfl⟩ := memberCmdMemSetrlink_executed hdf s hs
    refine ⟨fun mid hw => hw.elim, ?_⟩
    rintro _ _ ⟨⟩
    exact Option.some.inj (hin.symm.trans hname)

end Command

/-- In every state of the plugin the commands that carry a name reach the row of that name only,
exactly when the row under the hash of the name has that name. -/
theorem nameKeyed_reachesOnly_iff {accepts : Assignments → Bool} {db : Database} {e : MemberEntry}
    (h : Reachable accepts db e) (mname : Bytes) :
    (∀ operation ∈ nameKeyed, ∀ hdf, hdfGetValue hdf "mid" = none → hdfGetValue hdf "mname" = some mname →
      ReachesOnly e (memberProcessDriver accepts e operation hdf) mname) ↔
      mname = [] ∨ ∀ row, e.db.member (hashStringRev mname) = some row → nameOf row = mname := by
  have hco := coherent_reachable h
  constructor
  · intro hreach
    apply or_iff_not_imp_left.mpr
    intro hne row hrow
    have hmid : hdfGetValue [("mname", some mname)] "mid" = none := by simp [hdfGetValue_cons]
    have hname : nonempty [("mname", some mname)] "mname" = some mname := by simp [nonempty, hdfGetValue_cons, hne]
    obtain ⟨d, e', hget, hshow, -, -⟩ := memberCmdMemGet_some hco (memberGetParamMid_mname hmid hname) hrow
    have honly := (hreach .memberGet (by decide) [("mname", some mname)] hmid (nonempty_eq_some.mp hname).1).read d
    rw [memberProcessDriver, hget, hshow "mname" (by decide) (by decide)] at honly
    exact Option.some.inj (honly (List.mem_singleton_self d))
  · intro hcond operation hop hdf hmid hvalue
    by_cases hne : mname = []
    · exact reachesOnly_nothing (nameKeyed_unnamed hmid (by rw [nonempty, hvalue, hne]; rfl) hop)
    have hname : nonempty hdf "mname" = some mname := nonempty_eq_some.mpr ⟨hvalue, hne⟩
    have hrows := hcond.resolve_left hne
    cases hrow : e.db.member (hashStringRev mname) with
    | none =>
      exact reachesOnly_nothing (nameKeyed_absent hco hmid hname hrow hop)
    | some row =>
      have hown := hrows row hrow
      refine ⟨hown ▸ nameKeyed_read hco hmid hname hrow hop, fun s hs mid hw => ?_,
        fun name rlink hs => (nameKeyed_executed hco hmid hname hop _ hs).2 name rlink rfl,
        fun hno => (hno _ row hrow hown).elim⟩
      rw [(nameKeyed_executed hco hmid hname hop s hs).1 mid hw]
      exact ⟨row, hrow, hown⟩

/-- The plugin after the member `A` has registered, alone. -/
def onlyA : MemberEntry :=
  (memberProcessDriver (fun _ => true) (start emptyDb) .memberAdd
    [("mname", some [65]), ("mnick", some [98]), ("msn", some [112])]).entry

theorem reachable_onlyA : Reachable (fun _ => true) emptyDb onlyA := .command .start _ _

theorem onlyA_rows {mid : ℤ} {row : Row} (h : onlyA.db.member mid = some row) : mid = hashStringRev [65] := by
  rcases memberCmdMemAdd_row (coherent_start emptyDb) h with hold | ⟨mname, hname, hmid, -, -⟩
  · cases hold
  · have hA : nonempty [("mname", some [65]), ("mnick", some [98]), ("msn", some [112])] "mname" = some [65] := rfl
    rw [hA] at hname
    cases hname
    exact hmid

/-- Names are distinct, but `a` reads and writes the row of `A`. -/
theorem onlyA_reached :
    (∀ mid mid' row row', onlyA.db.member mid = some row → onlyA.db.member mid' = some row' →
      nameOf row = nameOf row' → mid = mid') ∧
      ¬ ReachesOnly onlyA (memberProcessDriver (fun _ => true) onlyA .memberUp
        [("mmsn", some [84]), ("mname", some [97])]) [97] := by
  refine ⟨fun mid mid' row row' h h' _ => (onlyA_rows h).trans (onlyA_rows h').symm, fun hreach => ?_⟩
  obtain ⟨row, hrow, hname⟩ := hreach.written (.updateMember [("mmsn", .str [84] (some 256))] (hashStringRev [97]))
    (by decide) _ rfl
  have hA : (onlyA.db.member (hashStringRev [97])).map nameOf = some [65] := by decide
  rw [hrow, Option.map_some, hname] at hA
  revert hA
  decide

/-- Where `A` is alone, the commands for `A` reach `A`. -/
theorem onlyA_reachesOnly :
    Reachable (fun _ => true) emptyDb onlyA ∧
      ∀ operation ∈ nameKeyed, ∀ hdf, hdfGetValue hdf "mid" = none → hdfGetValue hdf "mname" = some [65] →
        ReachesOnly onlyA (memberProcessDriver (fun _ => true) onlyA operation hdf) [65] := by
  refine ⟨reachable_onlyA, (nameKeyed_reachesOnly_iff reachable_onlyA [65]).mpr (.inr fun row hrow => ?_)⟩
  have hA : (onlyA.db.member (hashStringRev [65])).map nameOf = some [65] := by decide
  rw [hrow] at hA
  exact Option.some.inj hA

end Cmoon.MemberNames
