import Cmoon.StructImages
import Mathlib.Data.List.Forall2

/-! # Members and groups in the cache

Members and groups are packed into one buffer each and unpacked again by whichever process finds them in the cache. -/
namespace Cmoon.PackedMembers
open DecimalText ByteBuffers StructImages

/-- `gnode_t`, for whatever its strings are. -/
structure GNode (σ : Type) where
  uid : BitVec 32
  gid : BitVec 32
  mode : BitVec 32
  status : BitVec 32
  intime : σ
  uptime : σ

/-- A list of nodes, at its address. `num` is the number of the nodes. -/
structure UList where
  addr : Addr
  flags : BitVec 32
  max : ℕ
  nodes : List (GNode Str)
  addr_ne : addr ≠ 0
  max_pos : 0 < max
  fits : nodes.length ≤ max
  max_lt : max < 2 ^ 31

def UList.num (list : UList) : BitVec 32 := BitVec.ofNat 32 list.nodes.length

/-- `member_t`, for whatever its strings and its list are. -/
structure Member (σ l : Type) where
  uin : BitVec 32
  male : BitVec 32
  status : BitVec 32
  uname : σ
  usn : σ
  musn : σ
  email : σ
  intime : σ
  uptime : σ
  gnode : l

def Member.strs {σ l : Type} (member : Member σ l) : List σ :=
  [member.uname, member.usn, member.musn, member.email, member.intime, member.uptime]

structure Group (l : Type) where
  gid : BitVec 32
  node : l

/-- `sizeof(gnode_t)` bytes -/
def GNode.image (node : GNode Str) : Bytes :=
  intBytes node.uid ++ intBytes node.gid ++ intBytes node.mode ++ intBytes node.status ++
    addrBytes node.intime.addr ++ addrBytes node.uptime.addr

/-- `sizeof(member_t)` bytes. There are four between the last `int` and the first pointer. -/
def Member.image (member : Member Str UList) : Bytes :=
  intBytes member.uin ++ intBytes member.male ++ intBytes member.status ++ zeros 4 ++
    (member.strs.map fun s => addrBytes s.addr).flatten ++ addrBytes member.gnode.addr

def structAddLen : Str → ℕ
  | .null => 1
  | .str _ _ text => text.bytes.length + 1

/-- What `GNODE_LEN` adds for a string. -/
def nodeStrLen : Str → ℕ
  | .null => 0
  | .str _ _ text => text.bytes.length + 1

def gnodeLen (node : GNode Str) : ℕ := 32 + nodeStrLen node.intime + nodeStrLen node.uptime

/-- `MLIST_ITERATE`: behind the last node one more pointer is read. -/
def mlistIterate (list : UList) : Option (List (GNode Str)) :=
  if list.nodes.length < list.max then some list.nodes else none

def gnodePackNalloc (node : GNode Str) : List Bytes := [node.image, node.intime.packed, node.uptime.packed]

def listPackNalloc (list : UList) (buf : Bytes) (pos : ℕ) : Option Bytes :=
  (mlistIterate list).bind fun nodes =>
    writeAll buf pos ([intBytes list.flags, intBytes list.num, intBytes (BitVec.ofNat 32 list.max)] ++
      nodes.flatMap gnodePackNalloc)

def memberPack (member : Member Str UList) : Option Bytes :=
  (mlistIterate member.gnode).bind fun nodes =>
    let len := 72 + (member.strs.map structAddLen).sum + (nodes.map gnodeLen).sum + 1
    (writeAll (zeros len) 0 (member.image :: member.strs.map Str.packed)).bind fun buf =>
      -- `buf`, not `buf+pos`
      listPackNalloc member.gnode buf 0

/-- `group_pack`. Of the structure the size of a pointer is copied. -/
def groupPack (gp : Group UList) : Option Bytes :=
  (mlistIterate gp.node).bind fun nodes =>
    let len := 16 + 24 + (nodes.map gnodeLen).sum + 1
    (writeAll (zeros len) 0 [intBytes gp.gid, zeros 4]).bind fun buf =>
      listPackNalloc gp.node buf 0

/-- `RET_RBTOP_INPUTE`, or `RET_RBTOP_OK` with what was made. -/
inductive Ret (α : Type) where
  | inpute
  | ok (x : α)

/-- A string whose pointer is at the offset `off` of an image. -/
def unpackStr (buf : Bytes) (off p : ℕ) : Option (Field × ℕ) := (addrAt buf off).bind (structUnpackStr buf p)

def gnodeUnpack (buf : Bytes) (p : ℕ) : Option (Ret (GNode Field × ℕ)) :=
  if buf.length - p < 32 then some .inpute
  else do
    let uid ← intAt buf p
    let gid ← intAt buf (p + 4)
    let mode ← intAt buf (p + 8)
    let status ← intAt buf (p + 12)
    let (intime, q) ← unpackStr buf (p + 16) (p + 32)
    let (uptime, q) ← unpackStr buf (p + 24) q
    some (.ok (⟨uid, gid, mode, status, intime, uptime⟩, q))

/-- A list that has been unpacked. -/
structure Loaded where
  flags : BitVec 32
  num : BitVec 32
  max : BitVec 32
  nodes : List (GNode Field)

/-- The loop of `list_unpack` over `k` nodes, into a list that has room for `room` more. -/
def loadNodes (buf : Bytes) (room k p : ℕ) : Option (List (GNode Field)) :=
  match k with
  | 0 => some []
  | k + 1 =>
    if buf.length ≤ p then some []
    else
      match gnodeUnpack buf p with
      | none => none
      | some .inpute => some []
      | some (.ok (node, q)) => if room = 0 then none else (loadNodes buf (room - 1) k q).map (node :: ·)

/-- `list_unpack` into a list with room for `room` nodes -/
def listUnpack (buf : Bytes) (room p : ℕ) : Option Loaded := do
  let flags ← intAt buf p
  let num ← intAt buf (p + 4)
  let max ← intAt buf (p + 8)
  let nodes ← loadNodes buf room num.toInt.toNat (p + 12)
  some ⟨flags, num, max, nodes⟩

/-- The room of the list at a pointer; `uListInit` makes one for ten. -/
def roomAt (room : Addr → Option ℕ) (a : Addr) : Option ℕ := if a = 0 then some 10 else room a

/-- `member_unpack`, in a process that has lists with some room at some addresses. The pointer to the list is that of
the image. -/
def memberUnpack (room : Addr → Option ℕ) (buf : Bytes) : Option (Ret (Member Field Loaded)) :=
  if buf.length < 72 then some .inpute
  else do
    let uin ← intAt buf 0
    let male ← intAt buf 4
    let status ← intAt buf 8
    let (uname, p) ← unpackStr buf 16 72
    let (usn, p) ← unpackStr buf 24 p
    let (musn, p) ← unpackStr buf 32 p
    let (email, p) ← unpackStr buf 40 p
    let (intime, p) ← unpackStr buf 48 p
    let (uptime, p) ← unpackStr buf 56 p
    let a ← addrAt buf 64
    let n ← roomAt room a
    let gnode ← listUnpack buf n p
    some (.ok ⟨uin, male, status, uname, usn, musn, email, intime, uptime, gnode⟩)

def groupUnpack (buf : Bytes) : Option (Ret (Group Loaded)) :=
  if buf.length < 16 + 24 then some .inpute
  else do
    let gid ← intAt buf 0
    let node ← listUnpack buf 10 16
    some (.ok ⟨gid, node⟩)

section Same
variable (text : Addr → Option Bytes)

def SameNode (node : GNode Str) (node' : GNode Field) : Prop :=
  node'.uid = node.uid ∧ node'.gid = node.gid ∧ node'.mode = node.mode ∧ node'.status = node.status ∧
    SameStr text node.intime node'.intime ∧ SameStr text node.uptime node'.uptime

def SameList (list : UList) (list' : Loaded) : Prop :=
  list'.num = list.num ∧ List.Forall₂ (SameNode text) list.nodes list'.nodes

def SameMember (member : Member Str UList) (member' : Member Field Loaded) : Prop :=
  member'.uin = member.uin ∧ member'.male = member.male ∧ member'.status = member.status ∧
    List.Forall₂ (SameStr text) member.strs member'.strs ∧ SameList text member.gnode member'.gnode

def SameGroup (gp : Group UList) (gp' : Group Loaded) : Prop := gp'.gid = gp.gid ∧ SameList text gp.node gp'.node

end Same

/-- The member comes back the same in every process that has these lists at its addresses. -/
def Member.Survives (room : Addr → Option ℕ) (member : Member Str UList) : Prop :=
  ∀ text, ∃ buf member', memberPack member = some buf ∧ memberUnpack room buf = some (.ok member') ∧
    SameMember text member member'

def Group.Survives (gp : Group UList) : Prop :=
  ∀ text, ∃ buf gp', groupPack gp = some buf ∧ groupUnpack buf = some (.ok gp') ∧ SameGroup text gp gp'

def GNode.packed (node : GNode Str) : Bytes := (gnodePackNalloc node).flatten

/-- The three numbers in front of the nodes. -/
def UList.header (list : UList) : Bytes :=
  intBytes list.flags ++ intBytes list.num ++ intBytes (BitVec.ofNat 32 list.max)

def UList.packed (list : UList) : Bytes := list.header ++ list.nodes.flatMap GNode.packed

variable {buf base : Bytes} {node : GNode Str} {node' : GNode Field} {list : UList} {list' : Loaded} {s : Str}
  {f : Field} {x p q off room k n : ℕ}

theorem structAddLen_eq (s : Str) : structAddLen s = s.packed.length := by
  cases s <;> simp [structAddLen, Str.packed]

theorem GNode.length_packed (node : GNode Str) :
    node.packed.length = 32 + node.intime.packed.length + node.uptime.packed.length := by
  simp [GNode.packed, gnodePackNalloc, GNode.image]
  omega

theorem Member.length_image (member : Member Str UList) : member.image.length = 72 := by
  unfold Member.image
  simp only [List.length_append, length_intBytes, length_addrBytes]
  unfold zeros Member.strs
  simp only [List.length_replicate, List.map_cons, List.map_nil, List.flatten_cons, List.flatten_nil,
    List.length_append, List.length_nil, length_addrBytes]

theorem Member.length_written (member : Member Str UList) :
    (member.image :: member.strs.map Str.packed).flatten.length = 72 + (member.strs.map structAddLen).sum := by
  have hlens : (member.strs.map Str.packed).map List.length = member.strs.map structAddLen := by
    rw [List.map_map]
    exact List.map_congr_left fun s _ => (structAddLen_eq s).symm
  rw [List.flatten_cons, List.length_append, member.length_image, List.length_flatten, hlens]

theorem UList.length_header (list : UList) : list.header.length = 12 := by simp [UList.header]

theorem flatten_nodes (nodes : List (GNode Str)) :
    (nodes.flatMap gnodePackNalloc).flatten = nodes.flatMap GNode.packed := by
  induction nodes with
  | nil => rfl
  | cons node nodes ih => rw [List.flatMap_cons, List.flatten_append, ih, List.flatMap_cons, GNode.packed]

theorem listPackNalloc_store (list : UList) (base : Bytes) :
    listPackNalloc list base 0 = if list.nodes.length < list.max then store base 0 list.packed else none := by
  have hflat : ([intBytes list.flags, intBytes list.num, intBytes (BitVec.ofNat 32 list.max)] ++
      list.nodes.flatMap gnodePackNalloc).flatten = list.packed := by
    rw [List.flatten_append, flatten_nodes]
    simp [UList.packed, UList.header]
  unfold listPackNalloc mlistIterate
  split
  · rw [Option.bind_some, writeAll_eq (Nat.zero_le _), hflat]
  · rfl

theorem listPackNalloc_eq (h : listPackNalloc list base 0 = some buf) :
    buf = list.packed ++ base.drop list.packed.length ∧ buf.length = base.length := by
  rw [listPackNalloc_store, store] at h
  split at h
  · split at h
    · rename_i hfits
      cases h
      exact ⟨overwrite_zero _ _, length_overwrite hfits⟩
    · cases h
  · cases h

theorem listPackNalloc_flags (h : listPackNalloc list base 0 = some buf) : intAt buf 0 = some list.flags := by
  obtain ⟨hbuf, -⟩ := listPackNalloc_eq h
  rw [UList.packed, UList.header] at hbuf
  simp only [List.append_assoc] at hbuf
  exact intAt_mid (b := []) hbuf rfl

/-- What is behind the writes into a new buffer. -/
theorem calloc_eq {cs : List Bytes} (h : writeAll (zeros n) 0 cs = some base) :
    base.length = n ∧ ZeroFrom base cs.flatten.length := by
  rw [writeAll_eq (Nat.zero_le _), store] at h
  split at h
  · rename_i hfits
    cases h
    refine ⟨by simpa [zeros] using length_overwrite hfits, fun i hi v hv => ?_⟩
    rw [getElem?_overwrite hfits, if_neg (by omega)] at hv
    exact zeroFrom_zeros n i (Nat.zero_le i) v hv
  · cases h

theorem zeroFrom_packed (hbase : ZeroFrom base x) (hbuf : buf = list.packed ++ base.drop list.packed.length) :
    ZeroFrom buf (max list.packed.length x) := by
  intro i hi v hv
  rw [hbuf, List.getElem?_append_right (by omega), List.getElem?_drop] at hv
  exact hbase _ (by omega) v hv

theorem unpackStr_length (h : unpackStr buf off p = some (f, q)) (hsame : SameStr noText s f) :
    q = p + s.packed.length := by
  obtain ⟨a, -, h⟩ := Option.bind_eq_some_iff.mp h
  exact same_length h hsame

theorem unpackStr_null (h : unpackStr buf off p = some (f, q)) (hsame : SameStr noText s f) (hz : ZeroFrom buf x)
    (hx : x + 2 ≤ q) : s = .null := by
  cases f with
  | kept a => exact (same_kept hsame).2
  | fresh t =>
    obtain ⟨a, -, h⟩ := Option.bind_eq_some_iff.mp h
    obtain ⟨-, v, hv, hget⟩ := fresh_last h
    exact absurd (hz _ (by omega) v hget) hv

theorem gnodeUnpack_cases (h : gnodeUnpack buf p = some (.ok (node', q))) :
    intAt buf p = some node'.uid ∧ intAt buf (p + 4) = some node'.gid ∧ intAt buf (p + 8) = some node'.mode ∧
      intAt buf (p + 12) = some node'.status ∧
      ∃ r, unpackStr buf (p + 16) (p + 32) = some (node'.intime, r) ∧
        unpackStr buf (p + 24) r = some (node'.uptime, q) := by
  unfold gnodeUnpack at h
  split at h
  · cases h
  · simp only [Option.bind_eq_bind, Option.bind_eq_some_iff] at h
    obtain ⟨uid, huid, gid, hgid, mode, hmode, status, hstatus, ⟨intime, r⟩, hintime, ⟨uptime, q'⟩, huptime, heq⟩ := h
    cases heq
    exact ⟨huid, hgid, hmode, hstatus, r, hintime, huptime⟩

theorem gnodeUnpack_length (h : gnodeUnpack buf p = some (.ok (node', q))) (hsame : SameNode noText node node') :
    q = p + node.packed.length := by
  obtain ⟨-, -, -, -, r, hintime, huptime⟩ := gnodeUnpack_cases h
  obtain ⟨-, -, -, -, hsin, hsup⟩ := hsame
  have hr := unpackStr_length hintime hsin
  have hq := unpackStr_length huptime hsup
  rw [node.length_packed]
  omega

theorem loadNodes_cons {nodes' : List (GNode Field)} (h : loadNodes buf room k p = some (node' :: nodes')) :
    ∃ room' k' q, gnodeUnpack buf p = some (.ok (node', q)) ∧ loadNodes buf room' k' q = some nodes' := by
  cases k with
  | zero => cases h
  | succ k =>
    unfold loadNodes at h
    split at h
    · cases h
    · split at h
      · cases h
      · cases h
      · rename_i node q hnode
        split at h
        · cases h
        · obtain ⟨nodes, hnodes, heq⟩ := Option.map_eq_some_iff.mp h
          cases heq
          exact ⟨room - 1, k, q, hnode, hnodes⟩

theorem listUnpack_cases (h : listUnpack buf room p = some list') :
    intAt buf p = some list'.flags ∧ intAt buf (p + 4) = some list'.num ∧ intAt buf (p + 8) = some list'.max ∧
      loadNodes buf room list'.num.toInt.toNat (p + 12) = some list'.nodes := by
  unfold listUnpack at h
  simp only [Option.bind_eq_bind, Option.bind_eq_some_iff] at h
  obtain ⟨flags, hflags, num, hnum, max, hmax, nodes, hnodes, heq⟩ := h
  cases heq
  exact ⟨hflags, hnum, hmax, hnodes⟩

section Shifted
/- Nodes are read `D` bytes behind where they stand, and there are zeros behind them from `F` on. -/
variable {b c : Bytes} {D F : ℕ}

theorem zero_node (hbuf : buf = b ++ (node.packed ++ c)) (hz : ZeroFrom buf (max (b.length + node.packed.length) F))
    (hD : 16 ≤ D) (hF : F ≤ b.length + D) (h : gnodeUnpack buf (b.length + D) = some (.ok (node', q)))
    (hsame : SameNode noText node node') : ZeroFrom buf (max b.length F) := by
  have hlen := node.length_packed
  obtain ⟨huid, hgid, hmode, hstatus, r, hintime, huptime⟩ := gnodeUnpack_cases h
  obtain ⟨hsuid, hsgid, hsmode, hsstatus, hsin, hsup⟩ := hsame
  have hr := unpackStr_length hintime hsin
  have hq := unpackStr_length huptime hsup
  have hup : node.uptime = .null := unpackStr_null huptime hsup hz (by omega)
  have hin : node.intime = .null := by
    have hone : node.uptime.packed.length = 1 := by
      rw [hup]
      rfl
    exact unpackStr_null hintime hsin hz (by omega)
  have hpacked : node.packed =
      intBytes node.uid ++ intBytes node.gid ++ intBytes node.mode ++ intBytes node.status ++ zeros 18 := by
    have haddr : addrBytes 0 = zeros 8 := by decide
    simp only [GNode.packed, gnodePackNalloc, GNode.image, hup, hin, Str.addr, Str.packed, haddr]
    simp [zeros]
  have hmid : ZeroFrom buf (max (b.length + 16) F) := by
    rw [hpacked, List.append_assoc, ← List.append_assoc] at hbuf
    have hext := ZeroFrom.extend (y := F) hbuf (fun v hv => List.eq_of_mem_replicate hv)
    simp only [List.length_append, length_intBytes, zeros, List.length_replicate] at hext
    rw [hpacked] at hz
    simp only [List.length_append, length_intBytes, zeros, List.length_replicate] at hz
    exact hext (hz.mono (by omega))
  have hzero : intBytes 0 = zeros 4 := by decide
  have huid : node.uid = 0 := hsuid.symm.trans (hmid.intAt (by omega) huid)
  have hgid : node.gid = 0 := hsgid.symm.trans (hmid.intAt (by omega) hgid)
  have hmode : node.mode = 0 := hsmode.symm.trans (hmid.intAt (by omega) hmode)
  have hstatus : node.status = 0 := hsstatus.symm.trans (hmid.intAt (by omega) hstatus)
  refine ZeroFrom.extend hbuf (fun v hv => ?_) hz
  rw [hpacked, huid, hgid, hmode, hstatus, hzero] at hv
  simpa [zeros] using hv

theorem zero_nodes {nodes : List (GNode Str)} {nodes' : List (GNode Field)}
    (hbuf : buf = b ++ (nodes.flatMap GNode.packed ++ c))
    (hz : ZeroFrom buf (max (b.length + (nodes.flatMap GNode.packed).length) F)) (hD : 16 ≤ D) (hF : F ≤ b.length + D)
    (h : loadNodes buf room k (b.length + D) = some nodes') (hsame : List.Forall₂ (SameNode noText) nodes nodes') :
    ZeroFrom buf (max b.length F) := by
  induction nodes generalizing b nodes' room k with
  | nil => simpa using hz
  | cons node nodes ih =>
    obtain _ | ⟨hnode, hrest⟩ := hsame
    obtain ⟨room', k', q, hun, hload⟩ := loadNodes_cons h
    have hq : q = (b ++ node.packed).length + D := by
      rw [gnodeUnpack_length hun hnode, List.length_append]
      omega
    rw [List.flatMap_cons, List.append_assoc] at hbuf
    have hbehind : ZeroFrom buf (max (b ++ node.packed).length F) := by
      refine ih (by rw [hbuf, List.append_assoc]) ?_ ?_ (hq ▸ hload) hrest
      · rwa [List.flatMap_cons, List.length_append, ← Nat.add_assoc, ← List.length_append] at hz
      · rw [List.length_append]
        omega
    rw [List.length_append] at hbehind
    exact zero_node hbuf hbehind hD hF hun hnode

theorem nodes_nil (hbuf : buf = list.packed ++ c) (hz : ZeroFrom buf (max list.packed.length F)) (hD : 16 ≤ D)
    (hF : F ≤ D) (h : listUnpack buf room D = some list') (hsame : SameList noText list list') : list.nodes = [] := by
  obtain ⟨-, hnum, -, hload⟩ := listUnpack_cases h
  have hheader : ZeroFrom buf (max list.header.length F) := by
    rw [UList.packed, List.length_append] at hz
    rw [UList.packed, List.append_assoc] at hbuf
    rw [Nat.add_comm D, ← list.length_header] at hload
    exact zero_nodes hbuf hz hD (by omega) hload hsame.2
  rw [list.length_header] at hheader
  have hzero : list.num = 0 := hsame.1.symm.trans (hheader.intAt (by omega) hnum)
  have hlen := congrArg BitVec.toNat hzero
  have hmax := list.max_lt
  have hfits := list.fits
  simp only [UList.num, BitVec.toNat_ofNat, BitVec.ofNat_eq_ofNat] at hlen
  exact List.length_eq_zero_iff.mp (by omega)

end Shifted

theorem memberUnpack_cases {rooms : Addr → Option ℕ} {member' : Member Field Loaded}
    (h : memberUnpack rooms buf = some (.ok member')) :
    ∃ p₁ p₂ p₃ p₄ p₅ p n, unpackStr buf 16 72 = some (member'.uname, p₁) ∧
      unpackStr buf 24 p₁ = some (member'.usn, p₂) ∧ unpackStr buf 32 p₂ = some (member'.musn, p₃) ∧
      unpackStr buf 40 p₃ = some (member'.email, p₄) ∧ unpackStr buf 48 p₄ = some (member'.intime, p₅) ∧
      unpackStr buf 56 p₅ = some (member'.uptime, p) ∧ listUnpack buf n p = some member'.gnode := by
  unfold memberUnpack at h
  split at h
  · cases h
  · obtain ⟨uin, -, h⟩ := Option.bind_eq_some_iff.mp h
    obtain ⟨male, -, h⟩ := Option.bind_eq_some_iff.mp h
    obtain ⟨status, -, h⟩ := Option.bind_eq_some_iff.mp h
    obtain ⟨⟨uname, p₁⟩, h₁, h⟩ := Option.bind_eq_some_iff.mp h
    obtain ⟨⟨usn, p₂⟩, h₂, h⟩ := Option.bind_eq_some_iff.mp h
    obtain ⟨⟨musn, p₃⟩, h₃, h⟩ := Option.bind_eq_some_iff.mp h
    obtain ⟨⟨email, p₄⟩, h₄, h⟩ := Option.bind_eq_some_iff.mp h
    obtain ⟨⟨intime, p₅⟩, h₅, h⟩ := Option.bind_eq_some_iff.mp h
    obtain ⟨⟨uptime, p⟩, h₆, h⟩ := Option.bind_eq_some_iff.mp h
    obtain ⟨a, -, h⟩ := Option.bind_eq_some_iff.mp h
    obtain ⟨n, -, h⟩ := Option.bind_eq_some_iff.mp h
    obtain ⟨gnode, hlist, h⟩ := Option.bind_eq_some_iff.mp h
    cases h
    exact ⟨p₁, p₂, p₃, p₄, p₅, p, n, h₁, h₂, h₃, h₄, h₅, h₆, hlist⟩

/-- The list of a member is looked for behind the strings, where a buffer without nodes ends. -/
theorem member_not_survives (rooms : Addr → Option ℕ) (member : Member Str UList) : ¬ member.Survives rooms := by
  intro h
  obtain ⟨buf, member', hpack, hunpack, -, -, -, hstrs, hlist⟩ := h noText
  obtain ⟨nodes, hiter, hpack⟩ := Option.bind_eq_some_iff.mp hpack
  obtain ⟨base, hbase, hpack⟩ := Option.bind_eq_some_iff.mp hpack
  obtain ⟨hbaselen, hbasezero⟩ := calloc_eq hbase
  obtain ⟨hbuf, hlen⟩ := listPackNalloc_eq hpack
  obtain ⟨p₁, p₂, p₃, p₄, p₅, p, n, h₁, h₂, h₃, h₄, h₅, h₆, hload⟩ := memberUnpack_cases hunpack
  simp only [Member.strs, List.forall₂_cons] at hstrs
  obtain ⟨hs₁, hs₂, hs₃, hs₄, hs₅, hs₆, -⟩ := hstrs
  -- the strings are the same, so that the list is looked for where the buffer has zeros
  have hp : p = 72 + (member.strs.map structAddLen).sum := by
    have hp₁ := unpackStr_length h₁ hs₁
    have hp₂ := unpackStr_length h₂ hs₂
    have hp₃ := unpackStr_length h₃ hs₃
    have hp₄ := unpackStr_length h₄ hs₄
    have hp₅ := unpackStr_length h₅ hs₅
    have hp₆ := unpackStr_length h₆ hs₆
    simp only [Member.strs, List.map_cons, List.map_nil, List.sum_cons, List.sum_nil, structAddLen_eq]
    omega
  have hzero : ZeroFrom base p := by
    rw [hp, ← member.length_written]
    exact hbasezero
  have hnil : member.gnode.nodes = [] :=
    nodes_nil hbuf (zeroFrom_packed hzero hbuf) (by omega) le_rfl hload hlist
  have hnodes : nodes = [] := by
    unfold mlistIterate at hiter
    split at hiter
    · cases hiter
      exact hnil
    · cases hiter
  obtain ⟨hflags, -⟩ := listUnpack_cases hload
  unfold intAt at hflags
  split at hflags
  · rename_i hfits
    rw [hlen, hbaselen, hnodes] at hfits
    simp at hfits
    omega
  · cases hflags

theorem groupPack_nil {gp : Group UList} (hnil : gp.node.nodes = []) :
    ∃ base buf, writeAll (zeros 41) 0 [intBytes gp.gid, zeros 4] = some base ∧
      listPackNalloc gp.node base 0 = some buf ∧ groupPack gp = some buf := by
  have hbase : writeAll (zeros 41) 0 [intBytes gp.gid, zeros 4] = some (overwrite (zeros 41) 0
      [intBytes gp.gid, zeros 4].flatten) := by
    rw [writeAll_eq (Nat.zero_le _), store_eq (by simp [zeros])]
  have hlen := (calloc_eq hbase).1
  have hroom : gp.node.nodes.length < gp.node.max := by
    rw [hnil]
    exact gp.node.max_pos
  have hlist : listPackNalloc gp.node (overwrite (zeros 41) 0 [intBytes gp.gid, zeros 4].flatten) 0 =
      some (overwrite (overwrite (zeros 41) 0 [intBytes gp.gid, zeros 4].flatten) 0 gp.node.packed) := by
    rw [listPackNalloc_store, if_pos hroom, store_eq]
    rw [UList.packed, hnil, hlen]
    simp [gp.node.length_header]
  refine ⟨_, _, hbase, hlist, ?_⟩
  rw [groupPack, mlistIterate, if_pos hroom, Option.bind_some, hnil]
  exact (congrArg (Option.bind · fun buf => listPackNalloc gp.node buf 0) hbase).trans hlist

theorem groupUnpack_cases {gp' : Group Loaded} (h : groupUnpack buf = some (.ok gp')) :
    intAt buf 0 = some gp'.gid ∧ listUnpack buf 10 16 = some gp'.node := by
  unfold groupUnpack at h
  split at h
  · cases h
  · simp only [Option.bind_eq_bind, Option.bind_eq_some_iff] at h
    obtain ⟨gid, hgid, node, hnode, heq⟩ := h
    cases heq
    exact ⟨hgid, hnode⟩

/-- Behind a list without nodes there are zeros, of which an empty list is read. -/
theorem groupUnpack_nil {gp : Group UList} (hnil : gp.node.nodes = [])
    (hbase : writeAll (zeros 41) 0 [intBytes gp.gid, zeros 4] = some base)
    (hlist : listPackNalloc gp.node base 0 = some buf) :
    groupUnpack buf = some (.ok ⟨gp.node.flags, ⟨0, 0, 0, []⟩⟩) := by
  obtain ⟨hbaselen, hbasezero⟩ := calloc_eq hbase
  obtain ⟨hbuf, hlen⟩ := listPackNalloc_eq hlist
  rw [hbaselen] at hlen
  have hzero := zeroFrom_packed hbasezero hbuf
  rw [UList.packed, hnil, List.flatMap_nil, List.append_nil] at hzero
  have hzero : ZeroFrom buf 16 := hzero.mono (by simp [gp.node.length_header, zeros])
  have hload : listUnpack buf 10 16 = some ⟨0, 0, 0, []⟩ := by
    rw [listUnpack, hzero.intAt_eq le_rfl (by omega), hzero.intAt_eq (p := 16 + 4) (by omega) (by omega),
      hzero.intAt_eq (p := 16 + 8) (by omega) (by omega)]
    rfl
  rw [groupUnpack, if_neg (by omega), listPackNalloc_flags hlist, hload]
  rfl

/-- A group has its `gid` where the list is written, and the list is looked for where there are zeros. -/
theorem group_survives_iff (gp : Group UList) : gp.Survives ↔ gp.node.nodes = [] ∧ gp.gid = gp.node.flags := by
  constructor
  · intro h
    obtain ⟨buf, gp', hpack, hunpack, hgid, hlist⟩ := h noText
    obtain ⟨nodes, -, hpack⟩ := Option.bind_eq_some_iff.mp hpack
    obtain ⟨base, hbase, hpack⟩ := Option.bind_eq_some_iff.mp hpack
    obtain ⟨-, hbasezero⟩ := calloc_eq hbase
    obtain ⟨hbuf, -⟩ := listPackNalloc_eq hpack
    obtain ⟨hget, hload⟩ := groupUnpack_cases hunpack
    refine ⟨nodes_nil hbuf (zeroFrom_packed hbasezero hbuf) le_rfl (by simp [zeros]) hload hlist, ?_⟩
    exact hgid.symm.trans (Option.some.inj (hget.symm.trans (listPackNalloc_flags hpack)))
  · rintro ⟨hnil, hgid⟩ text
    obtain ⟨base, buf, hbase, hlist, hpack⟩ := groupPack_nil hnil
    refine ⟨buf, ⟨gp.node.flags, ⟨0, 0, 0, []⟩⟩, hpack, groupUnpack_nil hnil hbase hlist, hgid.symm, ?_, ?_⟩
    · rw [UList.num, hnil]
      rfl
    · rw [hnil]
      exact .nil

/-- **Only a group without nodes survives the cache**, and only if its `gid` is what its list has as flags. -/
theorem survives_iff (rooms : Addr → Option ℕ) (member : Member Str UList) (gp : Group UList) :
    ¬ member.Survives rooms ∧ (gp.Survives ↔ gp.node.nodes = [] ∧ gp.gid = gp.node.flags) :=
  ⟨member_not_survives rooms member, group_survives_iff gp⟩

def newList : UList := ⟨4096, 0, 10, [], by decide, by decide, by decide, by decide⟩

/-- A group of five without nodes comes back as a group of zero. -/
theorem not_survives : ¬ Group.Survives ⟨5, newList⟩ := by
  intro h
  obtain ⟨-, hgid⟩ := (group_survives_iff _).mp h
  exact absurd hgid (by decide)

end Cmoon.PackedMembers
