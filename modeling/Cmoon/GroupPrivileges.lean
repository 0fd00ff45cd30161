import Cmoon.Datasets
import Cmoon.ExceptResults
import Mathlib.Logic.Function.Basic

/-! # Members of groups

A member that is in a group may let others join it and take them out, up to its own mode in it. Both commands look that
mode up by the position of the group in the list of the caller, for which -1 stands when root is not in the group. -/
namespace Cmoon.GroupPrivileges
open DecimalText Datasets ExceptResults

/-- A row of `groupinfo`, as far as it is read here. -/
structure GNode where
  gid : ℤ
  mode : ℤ
  status : ℤ
  deriving DecidableEq

def groupModeJoin : ℤ := 0

def groupModeRoot : ℤ := 255

def groupStatApply : ℤ := 0

def groupStatReject : ℤ := 1

def groupStatInvite : ℤ := 2

def groupStatOk : ℤ := 4

def groupStatAll : ℤ := 255

/-- The table `groupinfo`: the rows of each member, in the order in which they are selected. Its primary key is the pair
of member and group. -/
structure GroupInfo where
  rows : ℤ → List GNode
  nodup : ∀ uid, ((rows uid).map (·.gid)).Nodup

structure Member where
  uin : ℤ
  musn : Bytes

inductive Ret where
  | inpute | notLogin | loginPsw | limite | opcodee | existe | nexist | error
  | other (code : ℤ)
  deriving DecidableEq

inductive Statement where
  | update (status mode uid gid : ℤ)
  | insert (uid gid mode status : ℤ)
  | delete (uid gid : ℤ)
  deriving DecidableEq

/-- What is met outside: with what `member_get_info` fails for a member, and `MDATA_SET` for a statement. -/
structure Met where
  getInfo : ℤ → Option Ret
  dataSet : Statement → Option Ret

section Rows
variable (rows : List GNode) (gid mode status : ℤ)

def updateRows : List GNode := rows.map fun n => if n.gid = gid then ⟨n.gid, mode, status⟩ else n

def insertRow : List GNode := if rows.any (·.gid = gid) then rows else rows ++ [⟨gid, mode, status⟩]

def deleteRows : List GNode := rows.filter (·.gid ≠ gid)

theorem updateRows_nodup (h : (rows.map (·.gid)).Nodup) : ((updateRows rows gid mode status).map (·.gid)).Nodup := by
  have hgids : (updateRows rows gid mode status).map (·.gid) = rows.map (·.gid) := by
    unfold updateRows
    rw [List.map_map]
    apply List.map_congr_left
    intro n _
    change (if n.gid = gid then (⟨n.gid, mode, status⟩ : GNode) else n).gid = n.gid
    split <;> rfl
  rwa [hgids]

theorem insertRow_nodup (h : (rows.map (·.gid)).Nodup) : ((insertRow rows gid mode status).map (·.gid)).Nodup := by
  unfold insertRow
  split
  · exact h
  · rename_i hnew
    rw [List.any_eq_true] at hnew
    rw [List.map_append, List.map_singleton]
    refine h.append (List.nodup_singleton _) (List.disjoint_singleton.mpr ?_)
    intro hmem
    obtain ⟨n, hn, hgid⟩ := List.mem_map.mp hmem
    exact hnew ⟨n, hn, decide_eq_true hgid⟩

theorem deleteRows_nodup (h : (rows.map (·.gid)).Nodup) : ((deleteRows rows gid).map (·.gid)).Nodup :=
  h.sublist (List.filter_sublist.map _)

end Rows

def GroupInfo.set (g : GroupInfo) (uid : ℤ) (rows : List GNode) (h : (rows.map (·.gid)).Nodup) : GroupInfo where
  rows := Function.update g.rows uid rows
  nodup uid' := by
    rw [Function.update_apply]
    split
    · exact h
    · exact g.nodup uid'

def GroupInfo.exec (g : GroupInfo) : Statement → GroupInfo
  | .update status mode uid gid => g.set uid _ (updateRows_nodup (g.rows uid) gid mode status (g.nodup uid))
  | .insert uid gid mode status => g.set uid _ (insertRow_nodup (g.rows uid) gid mode status (g.nodup uid))
  | .delete uid gid => g.set uid _ (deleteRows_nodup (g.rows uid) gid (g.nodup uid))

def GroupInfo.modeIn (g : GroupInfo) (uid gid : ℤ) : Option ℤ := ((g.rows uid).find? (·.gid = gid)).map (·.mode)

def uinIllegal (u : ℤ) : Bool := u < 998

def gidIllegal (gid : ℤ) : Bool := gid < 0

def memberUinIsRoot (uin : ℤ) : Bool := uin = 1001

/-- The first node of a group in a list whose first node is at position `i`. -/
def lookFrom (gid : ℤ) : ℕ → List GNode → Option (ℕ × GNode)
  | _, [] => none
  | i, n :: ns => if n.gid = gid then some (i, n) else lookFrom gid (i + 1) ns

def memberInGroup (uin : ℤ) (gnode : List GNode) (gid mode status : ℤ) : Bool × ℤ :=
  match lookFrom gid 0 gnode with
  | some (i, node) =>
    if mode ≤ node.mode ∧ (node.status = status ∨ status = groupStatAll) then (true, i)
    else (memberUinIsRoot uin, -1)
  | none => (memberUinIsRoot uin, -1)

/-- A check that ends the command when it is true. -/
def refuseIf (p : Prop) [Decidable p] (ret : Ret) : Except Ret Unit := if p then .error ret else .ok ()

def uListGet (gnode : List GNode) (pos : ℤ) : Except Ret GNode :=
  match gnode[pos.toNat]? with
  | none => .error .error
  | some node => .ok node

def memberHasLogin (hdf : Dataset) (member : Member) : Except Ret Unit :=
  match hdfGetValue hdf "Cookie.musn" with
  | none => .error .notLogin
  | some ckusn => refuseIf (ckusn ≠ member.musn) .loginPsw

section Commands
variable (met : Met) (g : GroupInfo) (hdf : Dataset) (caller : Member)

def queryInt (name : String) : ℤ := hdfGetIntValue hdf ("Query." ++ name) 0

/-- What both commands begin with: the position of the group in the list of the caller. -/
def admitted (uid gid : ℤ) : Except Ret ℤ := do
  refuseIf (uinIllegal uid || gidIllegal gid) .inpute
  memberHasLogin hdf caller
  let found := memberInGroup caller.uin (g.rows caller.uin) gid groupModeJoin groupStatOk
  refuseIf (found.1 = false) .limite
  return found.2

def limitMode (pos mode : ℤ) : Except Ret Unit :=
  if 0 < pos then do
    let node ← uListGet (g.rows caller.uin) pos
    refuseIf (node.mode < mode) .limite
  else .ok ()

def memberGetInfo (uid : ℤ) : Except Ret Unit :=
  match met.getInfo uid with
  | none => .ok ()
  | some ret => .error ret

def mdataSet (stmt : Statement) : Except Ret GroupInfo :=
  match met.dataSet stmt with
  | none => .ok (g.exec stmt)
  | some ret => .error ret

def changeable (node : GNode) (status mode : ℤ) : Except Ret Unit :=
  if node.status = groupStatApply ∨ node.status = groupStatInvite then
    refuseIf (status ≠ groupStatReject ∧ status ≠ groupStatOk) .opcodee
  else if node.status = groupStatOk then refuseIf (mode = node.mode) .existe
  else .error .opcodee

def groupAddMember : Except Ret GroupInfo := do
  let uid := queryInt hdf "uid"
  let gid := queryInt hdf "gid"
  let mode := queryInt hdf "mode"
  let status := queryInt hdf "status"
  let pos ← admitted g hdf caller uid gid
  limitMode g caller pos mode
  memberGetInfo met uid
  let found := memberInGroup uid (g.rows uid) gid groupModeJoin groupStatAll
  if found.1 ∧ 0 < found.2 then do
    let node ← uListGet (g.rows uid) found.2
    changeable node status mode
    mdataSet met g (.update status mode uid gid)
  else mdataSet met g (.insert uid gid mode status)

def modeOper (pos : ℤ) : Except Ret ℤ :=
  if 0 < pos then do
    let node ← uListGet (g.rows caller.uin) pos
    return node.mode
  else .ok groupModeRoot

def groupDelMember : Except Ret GroupInfo := do
  let uid := queryInt hdf "uid"
  let gid := queryInt hdf "gid"
  let pos ← admitted g hdf caller uid gid
  let modeOper ← modeOper g caller pos
  memberGetInfo met uid
  let found := memberInGroup uid (g.rows uid) gid groupModeJoin groupStatAll
  if found.1 ∧ 0 < found.2 then do
    let node ← uListGet (g.rows uid) found.2
    refuseIf (modeOper < node.mode) .limite
    mdataSet met g (.delete uid gid)
  else .error .nexist

def Above (own : Option ℤ) (mode : ℤ) : Prop := ∀ o, own = some o → o < mode

/-- Nobody has got a mode in the group that is above the caller's. -/
def AddKeeps : Prop := ∀ g', groupAddMember met g hdf caller = .ok g' →
  ∀ uid mode, g'.modeIn uid (queryInt hdf "gid") = some mode → Above (g.modeIn caller.uin (queryInt hdf "gid")) mode →
    ∃ before, g.modeIn uid (queryInt hdf "gid") = some before ∧ mode ≤ before

/-- Nobody with a mode in the group that is above the caller's has been taken out. -/
def DelKeeps : Prop := ∀ g', groupDelMember met g hdf caller = .ok g' →
  ∀ uid mode, g.modeIn uid (queryInt hdf "gid") = some mode → Above (g.modeIn caller.uin (queryInt hdf "gid")) mode →
    g'.modeIn uid (queryInt hdf "gid") ≠ none

/-- The request is let in, by a node that is at position `i` in the list of the caller. -/
structure LetIn (i : ℕ) (node : GNode) : Prop where
  legal : ¬ (uinIllegal (queryInt hdf "uid") || gidIllegal (queryInt hdf "gid"))
  login : memberHasLogin hdf caller = .ok ()
  look : lookFrom (queryInt hdf "gid") 0 (g.rows caller.uin) = some (i, node)
  mode : groupModeJoin ≤ node.mode
  status : node.status = groupStatOk
  known : met.getInfo (queryInt hdf "uid") = none

def LaterIn (uid gid : ℤ) (node : GNode) : Prop :=
  ∃ i, lookFrom gid 0 (g.rows uid) = some (i, node) ∧ 0 < i ∧ groupModeJoin ≤ node.mode

/-- The statement that gives a mode is executed, for a member who has a lower one or none. -/
inductive Raised (uid gid mode status : ℤ) : Prop where
  | changed (node : GNode) (later : LaterIn g uid gid node) (allowed : changeable node status mode = .ok ())
      (low : node.mode < mode) (done : met.dataSet (.update status mode uid gid) = none)
  | joined (new : g.modeIn uid gid = none) (done : met.dataSet (.insert uid gid mode status) = none)

/-- A mode is given beyond the caller's, whose list has the group first. -/
def AddExceeds : Prop := ∃ node, LetIn met g hdf caller 0 node ∧ node.mode < queryInt hdf "mode" ∧
  Raised met g (queryInt hdf "uid") (queryInt hdf "gid") (queryInt hdf "mode") (queryInt hdf "status")

/-- A member is taken out whose mode is beyond the caller's, whose list has the group first. -/
def DelExceeds : Prop := ∃ node, LetIn met g hdf caller 0 node ∧
  ∃ target, LaterIn g (queryInt hdf "uid") (queryInt hdf "gid") target ∧ node.mode < target.mode ∧
    target.mode ≤ groupModeRoot ∧ met.dataSet (.delete (queryInt hdf "uid") (queryInt hdf "gid")) = none

end Commands

variable {met : Met} {g g' : GroupInfo} {hdf : Dataset} {caller : Member} {uid gid mode status pos : ℤ}

theorem lookFrom_get {i k : ℕ} {rows : List GNode} {node : GNode} (h : lookFrom gid i rows = some (k, node)) :
    i ≤ k ∧ rows[k - i]? = some node ∧ node.gid = gid := by
  induction rows generalizing i with
  | nil => cases h
  | cons n rows ih =>
    unfold lookFrom at h
    split at h
    · cases h
      exact ⟨le_rfl, by rw [Nat.sub_self]; rfl, ‹_›⟩
    · obtain ⟨hle, hget, hgid⟩ := ih h
      refine ⟨by omega, ?_, hgid⟩
      rw [← hget, show k - i = k - (i + 1) + 1 by omega, List.getElem?_cons_succ]

theorem find_of_gid {n : GNode} (h : n.gid = gid) (rows : List GNode) :
    (n :: rows).find? (·.gid = gid) = some n := by
  rw [List.find?_cons, decide_eq_true h]

theorem find_of_ne {n : GNode} (h : n.gid ≠ gid) (rows : List GNode) :
    (n :: rows).find? (·.gid = gid) = rows.find? (·.gid = gid) := by
  rw [List.find?_cons, decide_eq_false h]

theorem lookFrom_node (gid : ℤ) (i : ℕ) (rows : List GNode) :
    (lookFrom gid i rows).map Prod.snd = rows.find? (·.gid = gid) := by
  induction rows generalizing i with
  | nil => rfl
  | cons n rows ih =>
    unfold lookFrom
    split
    · exact (find_of_gid ‹_› rows).symm
    · rw [find_of_ne ‹_›, ih]

theorem modeIn_of_look {i : ℕ} {node : GNode} (h : lookFrom gid 0 (g.rows uid) = some (i, node)) :
    g.modeIn uid gid = some node.mode := by
  unfold GroupInfo.modeIn
  rw [← lookFrom_node gid 0, h]
  rfl

theorem memberInGroup_eq_true (hroot : ¬ memberUinIsRoot uid) {rows : List GNode} :
    memberInGroup uid rows gid mode status = (true, pos) ↔ ∃ i node, lookFrom gid 0 rows = some (i, node) ∧
      mode ≤ node.mode ∧ (node.status = status ∨ status = groupStatAll) ∧ pos = i := by
  unfold memberInGroup
  rw [Bool.not_eq_true] at hroot
  rw [hroot]
  cases lookFrom gid 0 rows with
  | none => simp
  | some found =>
    obtain ⟨i, node⟩ := found
    dsimp only
    split
    · rename_i hboth
      constructor
      · intro h
        cases h
        exact ⟨i, node, rfl, hboth.1, hboth.2, rfl⟩
      · rintro ⟨i', node', h, -, -, rfl⟩
        cases h
        rfl
    · rename_i hnot
      constructor
      · intro h
        cases h
      · rintro ⟨i', node', h, hmode, hstatus, rfl⟩
        cases h
        exact absurd ⟨hmode, hstatus⟩ hnot

theorem refuseIf_eq_ok {p : Prop} [Decidable p] {ret : Ret} {u : Unit} : refuseIf p ret = .ok u ↔ ¬ p := by
  unfold refuseIf
  split
  · exact iff_of_false nofun (not_not_intro ‹_›)
  · exact iff_of_true rfl ‹_›

theorem uListGet_eq_ok {rows : List GNode} {node : GNode} :
    uListGet rows pos = .ok node ↔ rows[pos.toNat]? = some node := by
  unfold uListGet
  cases rows[pos.toNat]? with
  | none => exact iff_of_false nofun nofun
  | some n =>
    rw [Except.ok.injEq, Option.some.injEq]

theorem memberGetInfo_eq_ok {u : Unit} : memberGetInfo met uid = .ok u ↔ met.getInfo uid = none := by
  unfold memberGetInfo
  cases met.getInfo uid with
  | none => exact iff_of_true rfl rfl
  | some ret => exact iff_of_false nofun nofun

theorem mdataSet_eq_ok {stmt : Statement} :
    mdataSet met g stmt = .ok g' ↔ met.dataSet stmt = none ∧ g.exec stmt = g' := by
  unfold mdataSet
  cases met.dataSet stmt with
  | none => simp only [Except.ok.injEq, true_and]
  | some ret => exact iff_of_false nofun nofun

/-- What both commands ask of their target: a node that is not the first of its list. -/
theorem laterIn_iff {node : GNode} :
    LaterIn g uid gid node ↔
      ((memberInGroup uid (g.rows uid) gid groupModeJoin groupStatAll).1 = true ∧
        0 < (memberInGroup uid (g.rows uid) gid groupModeJoin groupStatAll).2) ∧
      uListGet (g.rows uid) (memberInGroup uid (g.rows uid) gid groupModeJoin groupStatAll).2 = .ok node := by
  unfold LaterIn memberInGroup
  cases hlook : lookFrom gid 0 (g.rows uid) with
  | none => simp
  | some found =>
    obtain ⟨i, first⟩ := found
    have hget : (g.rows uid)[i]? = some first := (lookFrom_get hlook).2.1
    dsimp only
    split
    · rename_i hboth
      constructor
      · rintro ⟨i', h, hpos, -⟩
        cases h
        exact ⟨⟨rfl, Int.natCast_pos.mpr hpos⟩, uListGet_eq_ok.mpr hget⟩
      · rintro ⟨⟨-, hpos⟩, hnode⟩
        obtain rfl : first = node := Option.some.inj (hget.symm.trans (uListGet_eq_ok.mp hnode))
        exact ⟨i, rfl, Int.natCast_pos.mp hpos, hboth.1⟩
    · rename_i hnot
      constructor
      · rintro ⟨i', h, -, hmode⟩
        cases h
        exact absurd ⟨hmode, .inr rfl⟩ hnot
      · rintro ⟨⟨-, hpos⟩, -⟩
        dsimp only at hpos
        omega

theorem later_of_found (h : (memberInGroup uid (g.rows uid) gid groupModeJoin groupStatAll).1 = true ∧
    0 < (memberInGroup uid (g.rows uid) gid groupModeJoin groupStatAll).2) : ∃ node, LaterIn g uid gid node := by
  cases hlook : lookFrom gid 0 (g.rows uid) with
  | none =>
    unfold memberInGroup at h
    rw [hlook] at h
    exact absurd h.2 (show ¬ (0 : ℤ) < -1 by decide)
  | some found =>
    refine ⟨found.2, laterIn_iff.mpr ⟨h, ?_⟩⟩
    have hget := (lookFrom_get hlook).2.1
    unfold memberInGroup at h ⊢
    rw [hlook] at h ⊢
    dsimp only at h ⊢
    split
    · exact uListGet_eq_ok.mpr hget
    · rw [if_neg ‹_›] at h
      exact absurd h.2 (show ¬ (0 : ℤ) < -1 by decide)

theorem target_eq_ok {f : GNode → Except Ret GroupInfo} {x : Except Ret GroupInfo} :
    (if (memberInGroup uid (g.rows uid) gid groupModeJoin groupStatAll).1 ∧
        0 < (memberInGroup uid (g.rows uid) gid groupModeJoin groupStatAll).2 then
      uListGet (g.rows uid) (memberInGroup uid (g.rows uid) gid groupModeJoin groupStatAll).2 >>= f
    else x) = .ok g' ↔
      (∃ node, LaterIn g uid gid node ∧ f node = .ok g') ∨ ((∀ node, ¬ LaterIn g uid gid node) ∧ x = .ok g') := by
  split
  · rename_i hfound
    rw [bind_eq_ok_iff]
    constructor
    · rintro ⟨node, hnode, hf⟩
      exact .inl ⟨node, laterIn_iff.mpr ⟨hfound, hnode⟩, hf⟩
    · rintro (⟨node, hlater, hf⟩ | ⟨hnone, -⟩)
      · exact ⟨node, (laterIn_iff.mp hlater).2, hf⟩
      · obtain ⟨node, hlater⟩ := later_of_found hfound
        exact absurd hlater (hnone node)
  · rename_i hfound
    constructor
    · exact fun hx => .inr ⟨fun node hlater => hfound (laterIn_iff.mp hlater).1, hx⟩
    · rintro (⟨node, hlater, -⟩ | ⟨-, hx⟩)
      · exact absurd (laterIn_iff.mp hlater).1 hfound
      · exact hx

theorem admitted_eq_ok (hroot : ¬ memberUinIsRoot caller.uin) : admitted g hdf caller uid gid = .ok pos ↔
    ¬ (uinIllegal uid || gidIllegal gid) ∧ memberHasLogin hdf caller = .ok () ∧
      ∃ i node, lookFrom gid 0 (g.rows caller.uin) = some (i, node) ∧ groupModeJoin ≤ node.mode ∧
        node.status = groupStatOk ∧ pos = i := by
  have hstatus : ∀ node : GNode, node.status = groupStatOk ∨ groupStatOk = groupStatAll ↔ node.status = groupStatOk :=
    fun node => or_iff_left (by decide)
  have hfound : memberInGroup caller.uin (g.rows caller.uin) gid groupModeJoin groupStatOk = (true, pos) ↔ _ :=
    memberInGroup_eq_true hroot
  simp only [hstatus, Prod.ext_iff] at hfound
  unfold admitted
  simp only [bind_eq_ok_iff, refuseIf_eq_ok, Bool.not_eq_false, Unique.exists_iff, pure, Except.pure,
    Except.ok.injEq, hfound]

theorem limitMode_eq_ok {i : ℕ} {node : GNode} (hget : (g.rows caller.uin)[i]? = some node) {u : Unit} :
    limitMode g caller i mode = .ok u ↔ (0 < i → mode ≤ node.mode) := by
  unfold limitMode
  by_cases hi : 0 < i
  · rw [if_pos (Int.natCast_pos.mpr hi), bind_eq_ok_iff]
    simp only [uListGet_eq_ok, Int.toNat_natCast, hget, Option.some.injEq, exists_eq_left', refuseIf_eq_ok, not_lt, hi,
      forall_const]
  · rw [if_neg (mt Int.natCast_pos.mp hi)]
    exact iff_of_true rfl fun h => absurd h hi

/-- What a caller acts with: root's mode, when the group is the first of its list. -/
theorem modeOper_eq_ok {i : ℕ} {node : GNode} (hget : (g.rows caller.uin)[i]? = some node) :
    modeOper g caller i = .ok mode ↔ (if 0 < i then node.mode else groupModeRoot) = mode := by
  unfold modeOper
  by_cases hi : 0 < i
  · rw [if_pos (Int.natCast_pos.mpr hi), bind_eq_ok_iff, if_pos hi]
    simp only [uListGet_eq_ok, Int.toNat_natCast, hget, Option.some.injEq, exists_eq_left', pure, Except.pure,
      Except.ok.injEq]
  · rw [if_neg (mt Int.natCast_pos.mp hi), if_neg hi, Except.ok.injEq]

theorem groupAddMember_eq_ok (hroot : ¬ memberUinIsRoot caller.uin) : groupAddMember met g hdf caller = .ok g' ↔
    ∃ i node, LetIn met g hdf caller i node ∧ (0 < i → queryInt hdf "mode" ≤ node.mode) ∧
      ((∃ target, LaterIn g (queryInt hdf "uid") (queryInt hdf "gid") target ∧
          changeable target (queryInt hdf "status") (queryInt hdf "mode") = .ok () ∧
          mdataSet met g (.update (queryInt hdf "status") (queryInt hdf "mode") (queryInt hdf "uid")
            (queryInt hdf "gid")) = .ok g') ∨
        ((∀ target, ¬ LaterIn g (queryInt hdf "uid") (queryInt hdf "gid") target) ∧
          mdataSet met g (.insert (queryInt hdf "uid") (queryInt hdf "gid") (queryInt hdf "mode")
            (queryInt hdf "status")) = .ok g')) := by
  unfold groupAddMember
  simp only [bind_eq_ok_iff, target_eq_ok, Unique.exists_iff, memberGetInfo_eq_ok, admitted_eq_ok hroot]
  constructor
  · rintro ⟨pos, ⟨hlegal, hlogin, i, node, hlook, hmode, hstatus, rfl⟩, hlimit, hknown, hrest⟩
    exact ⟨i, node, ⟨hlegal, hlogin, hlook, hmode, hstatus, hknown⟩,
      (limitMode_eq_ok (lookFrom_get hlook).2.1).mp hlimit, hrest⟩
  · rintro ⟨i, node, hlet, hlimit, hrest⟩
    exact ⟨i, ⟨hlet.legal, hlet.login, i, node, hlet.look, hlet.mode, hlet.status, rfl⟩,
      (limitMode_eq_ok (lookFrom_get hlet.look).2.1).mpr hlimit, hlet.known, hrest⟩

theorem groupDelMember_eq_ok (hroot : ¬ memberUinIsRoot caller.uin) : groupDelMember met g hdf caller = .ok g' ↔
    ∃ i node, LetIn met g hdf caller i node ∧
      ∃ target, LaterIn g (queryInt hdf "uid") (queryInt hdf "gid") target ∧
        target.mode ≤ (if 0 < i then node.mode else groupModeRoot) ∧
        mdataSet met g (.delete (queryInt hdf "uid") (queryInt hdf "gid")) = .ok g' := by
  unfold groupDelMember
  simp only [bind_eq_ok_iff, target_eq_ok, Unique.exists_iff, memberGetInfo_eq_ok, admitted_eq_ok hroot, refuseIf_eq_ok,
    not_lt, reduceCtorEq, and_false, or_false]
  constructor
  · rintro ⟨pos, ⟨hlegal, hlogin, i, node, hlook, hmode, hstatus, rfl⟩, oper, hoper, hknown, hrest⟩
    obtain rfl := (modeOper_eq_ok (lookFrom_get hlook).2.1).mp hoper
    exact ⟨i, node, ⟨hlegal, hlogin, hlook, hmode, hstatus, hknown⟩, hrest⟩
  · rintro ⟨i, node, hlet, hrest⟩
    exact ⟨i, ⟨hlet.legal, hlet.login, i, node, hlet.look, hlet.mode, hlet.status, rfl⟩, _,
      (modeOper_eq_ok (lookFrom_get hlet.look).2.1).mpr rfl, hlet.known, hrest⟩

def Statement.member : Statement → ℤ
  | .update _ _ uid _ => uid
  | .insert uid _ _ _ => uid
  | .delete uid _ => uid

theorem modeIn_exec_of_ne {stmt : Statement} (h : uid ≠ stmt.member) :
    (g.exec stmt).modeIn uid gid = g.modeIn uid gid := by
  have hrows : (g.exec stmt).rows uid = g.rows uid := by
    cases stmt with
    | update status mode uid' gid' => exact Function.update_of_ne h _ _
    | insert uid' gid' mode status => exact Function.update_of_ne h _ _
    | delete uid' gid' => exact Function.update_of_ne h _ _
  unfold GroupInfo.modeIn
  rw [hrows]

theorem modeIn_update (g : GroupInfo) (status mode uid gid : ℤ) :
    (g.exec (.update status mode uid gid)).modeIn uid gid = (g.modeIn uid gid).map fun _ => mode := by
  have hrows : (g.exec (.update status mode uid gid)).rows uid = updateRows (g.rows uid) gid mode status :=
    Function.update_self _ _ _
  unfold GroupInfo.modeIn
  rw [hrows]
  generalize g.rows uid = rows
  induction rows with
  | nil => rfl
  | cons n rows ih =>
    by_cases hn : n.gid = gid
    · have hfirst : updateRows (n :: rows) gid mode status = ⟨n.gid, mode, status⟩ :: updateRows rows gid mode status :=
        congrArg (· :: updateRows rows gid mode status) (if_pos hn)
      rw [hfirst, find_of_gid (n := ⟨n.gid, mode, status⟩) hn, find_of_gid hn]
      rfl
    · have hfirst : updateRows (n :: rows) gid mode status = n :: updateRows rows gid mode status :=
        congrArg (· :: updateRows rows gid mode status) (if_neg hn)
      rw [hfirst, find_of_ne hn, ih, find_of_ne hn]

theorem modeIn_insert (g : GroupInfo) (uid gid mode status : ℤ) :
    (g.exec (.insert uid gid mode status)).modeIn uid gid = some ((g.modeIn uid gid).getD mode) := by
  have hrows : (g.exec (.insert uid gid mode status)).rows uid = insertRow (g.rows uid) gid mode status :=
    Function.update_self _ _ _
  unfold GroupInfo.modeIn
  rw [hrows]
  unfold insertRow
  split
  · rename_i hany
    obtain ⟨n, hn, hgid⟩ := List.any_eq_true.mp hany
    cases hfind : (g.rows uid).find? (·.gid = gid) with
    | none => exact absurd hgid (List.find?_eq_none.mp hfind n hn)
    | some node => rfl
  · rename_i hany
    have hnone : (g.rows uid).find? (·.gid = gid) = none :=
      List.find?_eq_none.mpr fun n hn hgid => hany (List.any_eq_true.mpr ⟨n, hn, hgid⟩)
    rw [List.find?_append, hnone, Option.none_or, find_of_gid (n := ⟨gid, mode, status⟩) rfl]
    rfl

theorem modeIn_delete (g : GroupInfo) (uid gid : ℤ) : (g.exec (.delete uid gid)).modeIn uid gid = none := by
  have hrows : (g.exec (.delete uid gid)).rows uid = deleteRows (g.rows uid) gid := Function.update_self _ _ _
  have hnone : (deleteRows (g.rows uid) gid).find? (·.gid = gid) = none := by
    rw [List.find?_eq_none]
    intro n hn
    have hne := (List.mem_filter.mp hn).2
    rw [decide_eq_true_eq] at hne ⊢
    exact hne
  unfold GroupInfo.modeIn
  rw [hrows, hnone]
  rfl

theorem LaterIn.modeIn {node : GNode} (h : LaterIn g uid gid node) : g.modeIn uid gid = some node.mode := by
  obtain ⟨i, hlook, -, -⟩ := h
  exact modeIn_of_look hlook

theorem LetIn.own {i : ℕ} {node : GNode} (h : LetIn met g hdf caller i node) :
    g.modeIn caller.uin (queryInt hdf "gid") = some node.mode := modeIn_of_look h.look

theorem above_some {o : ℤ} : Above (some o) mode ↔ o < mode := by
  constructor
  · exact fun h => h o rfl
  · intro h o' ho'
    cases ho'
    exact h

/-- A mode that is there after an `UPDATE` was there before, or somebody has been raised to it. -/
theorem raised_of_update {uid' mode' : ℤ} {target : GNode} (hlater : LaterIn g uid' gid target)
    (hallowed : changeable target status mode' = .ok ()) (hdone : met.dataSet (.update status mode' uid' gid) = none)
    (hafter : (g.exec (.update status mode' uid' gid)).modeIn uid gid = some mode) :
    (∃ before, g.modeIn uid gid = some before ∧ mode ≤ before) ∨ mode = mode' ∧ Raised met g uid' gid mode' status := by
  by_cases huid : uid = uid'
  · subst huid
    rw [modeIn_update, hlater.modeIn] at hafter
    cases hafter
    by_cases hlow : target.mode < mode'
    · exact .inr ⟨rfl, .changed target hlater hallowed hlow hdone⟩
    · exact .inl ⟨target.mode, hlater.modeIn, not_lt.mp hlow⟩
  · rw [modeIn_exec_of_ne huid] at hafter
    exact .inl ⟨mode, hafter, le_rfl⟩

theorem raised_of_insert {uid' mode' : ℤ} (hdone : met.dataSet (.insert uid' gid mode' status) = none)
    (hafter : (g.exec (.insert uid' gid mode' status)).modeIn uid gid = some mode) :
    (∃ before, g.modeIn uid gid = some before ∧ mode ≤ before) ∨ mode = mode' ∧ Raised met g uid' gid mode' status := by
  by_cases huid : uid = uid'
  · subst huid
    rw [modeIn_insert] at hafter
    cases hbefore : g.modeIn uid gid with
    | none =>
      rw [hbefore] at hafter
      cases hafter
      exact .inr ⟨rfl, .joined hbefore hdone⟩
    | some before =>
      rw [hbefore] at hafter
      cases hafter
      exact .inl ⟨before, rfl, le_rfl⟩
  · rw [modeIn_exec_of_ne huid] at hafter
    exact .inl ⟨mode, hafter, le_rfl⟩

theorem addKeeps_iff (hroot : ¬ memberUinIsRoot caller.uin) :
    AddKeeps met g hdf caller ↔ ¬ AddExceeds met g hdf caller := by
  unfold AddKeeps
  simp only [groupAddMember_eq_ok hroot, mdataSet_eq_ok]
  constructor
  · rintro hkeeps ⟨node, hlet, hover, hraised⟩
    cases hraised with
    | changed target hlater hallowed hlow hdone =>
      have hraise := hkeeps _ ⟨0, node, hlet, nofun, .inl ⟨target, hlater, hallowed, hdone, rfl⟩⟩
        (queryInt hdf "uid") (queryInt hdf "mode")
      rw [modeIn_update, hlater.modeIn, hlet.own, above_some] at hraise
      obtain ⟨before, hbefore, hle⟩ := hraise rfl hover
      cases hbefore
      omega
    | joined hnew hdone =>
      have hnone : ∀ target, ¬ LaterIn g (queryInt hdf "uid") (queryInt hdf "gid") target := by
        intro target hlater
        rw [hlater.modeIn] at hnew
        cases hnew
      have hraise := hkeeps _ ⟨0, node, hlet, nofun, .inr ⟨hnone, hdone, rfl⟩⟩
        (queryInt hdf "uid") (queryInt hdf "mode")
      rw [modeIn_insert, hnew, hlet.own, above_some] at hraise
      obtain ⟨before, hbefore, -⟩ := hraise rfl hover
      cases hbefore
  · rintro hnot g' ⟨i, node, hlet, hlimit, hdone⟩ uid mode hafter habove
    rw [hlet.own, above_some] at habove
    have hraised : (∃ before, g.modeIn uid (queryInt hdf "gid") = some before ∧ mode ≤ before) ∨
        mode = queryInt hdf "mode" ∧ Raised met g (queryInt hdf "uid") (queryInt hdf "gid") (queryInt hdf "mode")
          (queryInt hdf "status") := by
      obtain ⟨target, hlater, hallowed, hset, rfl⟩ | ⟨-, hset, rfl⟩ := hdone
      · exact raised_of_update hlater hallowed hset hafter
      · exact raised_of_insert hset hafter
    obtain hbefore | ⟨rfl, hraised⟩ := hraised
    · exact hbefore
    · -- a mode above the caller's can be given by the first of its list only
      obtain rfl | hi := Nat.eq_zero_or_pos i
      · exact absurd ⟨node, hlet, habove, hraised⟩ hnot
      · have hle := hlimit hi
        omega

theorem delKeeps_iff (hroot : ¬ memberUinIsRoot caller.uin) :
    DelKeeps met g hdf caller ↔ ¬ DelExceeds met g hdf caller := by
  unfold DelKeeps
  simp only [groupDelMember_eq_ok hroot, mdataSet_eq_ok]
  constructor
  · rintro hkeeps ⟨node, hlet, target, hlater, hover, hle, hdone⟩
    have hkept := hkeeps _ ⟨0, node, hlet, target, hlater, hle, hdone, rfl⟩ (queryInt hdf "uid") target.mode
      hlater.modeIn
    rw [hlet.own, above_some] at hkept
    exact hkept hover (modeIn_delete _ _ _)
  · rintro hnot g' ⟨i, node, hlet, target, hlater, hle, hdone, rfl⟩ uid mode hbefore habove hafter
    rw [hlet.own, above_some] at habove
    by_cases huid : uid = queryInt hdf "uid"
    · subst huid
      rw [hlater.modeIn] at hbefore
      cases hbefore
      obtain rfl | hi := Nat.eq_zero_or_pos i
      · exact hnot ⟨node, hlet, target, hlater, habove, hle, hdone⟩
      · rw [if_pos hi] at hle
        omega
    · have hsame := (modeIn_exec_of_ne huid).symm.trans hafter
      rw [hbefore] at hsame
      cases hsame

/-- **Privileges in groups are not exceeded** if and only if the request is not let in by the first node in the list of
its caller, to give a mode beyond that node's or to take out a member whose mode is beyond it. -/
theorem keeps_iff (met : Met) (g : GroupInfo) (hdf : Dataset) (caller : Member)
    (hroot : ¬ memberUinIsRoot caller.uin) :
    (AddKeeps met g hdf caller ∧ DelKeeps met g hdf caller) ↔
      ¬ AddExceeds met g hdf caller ∧ ¬ DelExceeds met g hdf caller :=
  and_congr (addKeeps_iff hroot) (delKeeps_iff hroot)

def juniors : GroupInfo where
  rows uid := if uid = 1002 then [⟨7, 1, 4⟩] else []
  nodup uid := by
    split
    · exact List.nodup_singleton _
    · exact List.nodup_nil

def junior : Member := ⟨1002, [109]⟩

def ownerAsked : Dataset :=
  [("Cookie.musn", some [109]), ("Query.uid", some (printNat 1003)), ("Query.gid", some (printNat 7)),
    ("Query.mode", some (printNat 255)), ("Query.status", some (printNat 4))]

theorem queryInt_eq {name : String} {n : ℕ} (h : hdfGetValue ownerAsked ("Query." ++ name) = some (printNat n))
    (hn : n < 2 ^ 31) : queryInt ownerAsked name = n := by
  have hset := hdfGetIntValue_set [] ("Query." ++ name) hn 0
  unfold hdfGetIntValue at hset
  rw [hdfSetIntValue, hdfGetValue_set, if_pos rfl, printInt_natCast] at hset
  unfold queryInt hdfGetIntValue
  rw [h]
  exact hset

/-- Everybody is known, and every statement is executed. -/
def willing : Met := ⟨fun _ => none, fun _ => none⟩

theorem keeps_junior : (AddKeeps willing juniors ownerAsked junior ∧ DelKeeps willing juniors ownerAsked junior) ↔
    ¬ AddExceeds willing juniors ownerAsked junior ∧ ¬ DelExceeds willing juniors ownerAsked junior :=
  keeps_iff willing juniors ownerAsked junior (by decide)

/-- **But a junior makes an owner**, when the group is the first in its list. -/
theorem not_keeps : ¬ ∀ (met : Met) (g : GroupInfo) (hdf : Dataset) (caller : Member),
    ¬ memberUinIsRoot caller.uin → AddKeeps met g hdf caller ∧ DelKeeps met g hdf caller := by
  intro h
  have huid : queryInt ownerAsked "uid" = (1003 : ℕ) := queryInt_eq rfl (by norm_num)
  have hgid : queryInt ownerAsked "gid" = (7 : ℕ) := queryInt_eq rfl (by norm_num)
  have hmode : queryInt ownerAsked "mode" = (255 : ℕ) := queryInt_eq rfl (by norm_num)
  have hkeeps := (h willing juniors ownerAsked junior (by decide)).1
  rw [addKeeps_iff (by decide)] at hkeeps
  refine hkeeps ⟨⟨7, 1, 4⟩, ⟨?_, rfl, ?_, by decide, rfl, rfl⟩, ?_, .joined ?_ rfl⟩
  · rw [huid, hgid]
    decide
  · rw [hgid]
    rfl
  · rw [hmode]
    decide
  · rw [huid]
    rfl

end Cmoon.GroupPrivileges
