import Cmoon.MemberRequests

/-! # What a client can write with a registration or an edit

An edit sends the caller's name merged with the query, and what the query says comes first:
it may name another member, or give an id, and it may carry every column of the lists. -/
namespace Cmoon.MemberEdits
open DecimalText Datasets StatementBuilding MemberTables NameHashing MemberPlugin MemberCommands
  MemberRequests RequestPrograms

def editData (req : Request) (mname : Bytes) : Dataset := hdfCopy (hdfSetValue [] "mname" (some mname)) req.query

/-- The id an edit goes to: what the query says, or the hash of the name that is left. -/
def editTarget (req : Request) (mname : Bytes) : Option ℤ :=
  match hdfGetValue req.query "mid" with
  | some _ => some (hdfGetIntValue req.query "mid" 0)
  | none =>
    let name := if (hdfGetObj req.query "mname").isSome then hdfGetValue req.query "mname" else some mname
    (name.filter fun v => v ≠ []).map fun v => hashStringRev v

theorem hdfGetValue_editData (req : Request) (mname : Bytes) {name : String} (hn : name ≠ "mname") :
    hdfGetValue (editData req mname) name = hdfGetValue req.query name := by
  rw [editData, hdfGetValue_copy]
  split
  · rfl
  · rename_i hobj
    rw [hdfGetValue_set, if_neg hn, hdfGetValue_nil, hdfGetValue, Option.not_isSome_iff_eq_none.mp hobj]
    rfl

theorem nonempty_editData (req : Request) (mname : Bytes) {name : String} (hn : name ≠ "mname") :
    nonempty (editData req mname) name = nonempty req.query name := by
  rw [nonempty, hdfGetValue_editData req mname hn, nonempty]

theorem nonempty_editData_mname (req : Request) (mname : Bytes) : nonempty (editData req mname) "mname" =
    (if (hdfGetObj req.query "mname").isSome then hdfGetValue req.query "mname" else some mname).filter
      fun v => v ≠ [] := by
  rw [nonempty, editData, hdfGetValue_copy, hdfGetValue_set, if_pos rfl]

theorem editTarget_eq (req : Request) (mname : Bytes) :
    editTarget req mname = ((memberGetParamMid (editData req mname)).map Prod.fst).toOption := by
  have hmid : hdfGetValue (editData req mname) "mid" = hdfGetValue req.query "mid" :=
    hdfGetValue_editData req mname (by decide)
  rw [editTarget]
  cases hq : hdfGetValue req.query "mid" with
  | some v =>
    rw [hq] at hmid
    rw [memberGetParamMid_mid hmid]
    simp only [hdfGetIntValue, hmid, hq]
    rfl
  | none =>
    rw [hq] at hmid
    have hname := nonempty_editData_mname req mname
    simp only
    generalize Option.filter _ _ = name at hname ⊢
    cases name with
    | some v =>
      rw [memberGetParamMid_mname hmid hname]
      rfl
    | none =>
      rw [memberGetParamMid_none hmid hname]
      rfl

theorem givenCols_editData (req : Request) (mname : Bytes) :
    givenCols (editData req mname) updateColMember = givenCols req.query updateColMember := by
  have hne : ∀ spec ∈ updateColMember, spec.name ≠ "mname" := by decide
  exact givenCols_congr fun spec hspec => nonempty_editData req mname (hne spec hspec)

section Edit
variable {accepts : Assignments → Bool}

theorem executed_edit {e : MemberEntry} (h : Coherent e) (req : Request) (mname : Bytes) :
    (memberCmdMemUp accepts e (editData req mname)).executed =
      match editTarget req mname with
      | none => []
      | some mid =>
        if (e.db.member mid).isSome ∧ givenCols req.query updateColMember ≠ [] ∧
          accepts (givenCols req.query updateColMember) = true
        then [.updateMember (givenCols req.query updateColMember) mid] else [] := by
  have htarget := editTarget_eq req mname
  cases hp : memberGetParamMid (editData req mname) with
  | error err =>
    rw [hp] at htarget
    rw [htarget, memberCmdMemUp, hp]
    rfl
  | ok param =>
    obtain ⟨mid, hdf⟩ := param
    rw [hp] at htarget
    rw [htarget, memberCmdMemUp_executed h hp, givenCols_editData]
    rfl

def full : MemberEntry :=
  start ⟨fun mid => some (memberDefault.assign [("mid", .int mid)]), fun _ => none, fun _ => none⟩

theorem executed_full {req : Request} {mname : Bytes} {mid : ℤ} (hmid : editTarget req mname = some mid)
    (hcols : givenCols req.query updateColMember ≠ [])
    (hacc : accepts (givenCols req.query updateColMember) = true) :
    .updateMember (givenCols req.query updateColMember) mid ∈
      (memberProcessDriver accepts full .memberUp (editData req mname)).executed := by
  have hfull : Coherent full := coherent_start _
  rw [memberProcessDriver, executed_edit hfull, hmid]
  simp only
  rw [if_pos ⟨rfl, hcols, hacc⟩]
  exact List.mem_singleton_self _

/-- In every state of the plugin the command writes the row of `mname` only. -/
def OwnRowOnly (accepts : Assignments → Bool) (c : Command) (mname : Bytes) : Prop :=
  ∀ e, Coherent e → ∀ s ∈ (memberProcessDriver accepts e c.operation c.hdfsnd).executed,
    ∀ mid, s.Writes mid → mid = hashStringRev mname

theorem edit_ownRowOnly_iff (req : Request) (mname : Bytes) :
    OwnRowOnly accepts ⟨.memberUp, editData req mname⟩ mname ↔
      editTarget req mname = none ∨ editTarget req mname = some (hashStringRev mname : ℤ) ∨
        givenCols req.query updateColMember = [] ∨ accepts (givenCols req.query updateColMember) = false := by
  constructor
  · intro h
    by_contra hcon
    simp only [not_or, Bool.not_eq_false] at hcon
    obtain ⟨hsome, hne, hcols, hacc⟩ := hcon
    obtain ⟨mid, hmid⟩ := Option.ne_none_iff_exists'.mp hsome
    rw [hmid] at hne
    have hmem := executed_full hmid hcols hacc
    exact hne (congrArg some (h full (coherent_start _) _ hmem mid rfl))
  · intro hcond e he s hs mid hw
    rw [memberProcessDriver, executed_edit he] at hs
    rcases hcond with hnone | hown | hcols | hacc
    · rw [hnone] at hs
      cases hs
    · rw [hown] at hs
      simp only at hs
      split at hs
      · obtain rfl := List.mem_singleton.mp hs
        exact hw.symm
      · cases hs
    · split at hs
      · cases hs
      · rw [if_neg fun hc => hc.2.1 hcols] at hs
        cases hs
    · split at hs
      · cases hs
      · rw [if_neg fun hc => by rw [hacc] at hc; cases hc.2.2] at hs
        cases hs

/-- The command an edit triggers once its check has passed as `mname`. -/
theorem memberEditDataMod_command {req : Request} {replies : List Reply} {mname : Bytes}
    (h : (memberCheckLoginDataGet req).Ends replies (.ok (some mname))) :
    ((memberEditDataMod req).feed replies).command? = some ⟨.memberUp, editData req mname⟩ := by
  rw [memberEditDataMod, memberCheckLogin_feed h]
  rfl

end Edit

/-- `a` changes the nick of `b`. -/
def editOther : Request :=
  ⟨[("mname", some [98]), ("mnick", some [120])], [("mname", some [97]), ("mmsn", some [84])]⟩

def editNick : Request := ⟨[("mnick", some [120])], [("mname", some [97]), ("mmsn", some [84])]⟩

end Cmoon.MemberEdits
