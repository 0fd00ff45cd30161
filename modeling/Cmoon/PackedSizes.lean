import Cmoon.PackedMembers

/-! # Sizes of packed members and groups

The buffers are allocated by one count and filled by another: `GNODE_LEN` counts nothing for a string that is not there,
of which a zero byte is written, and a member has no room for the header of its list. -/
namespace Cmoon.PackedSizes
open DecimalText ByteBuffers StructImages PackedMembers

/-- Some bytes one after the other, each with the offset that it is written to. -/
def placed : ℕ → List Bytes → List (ℕ × Bytes)
  | _, [] => []
  | pos, c :: cs => (pos, c) :: placed (pos + c.length) cs

/-- What `list_pack_nalloc` writes. -/
def listWritten (list : UList) : List Bytes :=
  [intBytes list.flags, intBytes list.num, intBytes (BitVec.ofNat 32 list.max)] ++ list.nodes.flatMap gnodePackNalloc

/-- What `member_pack` allocates. -/
def memberLen (member : Member Str UList) : ℕ :=
  72 + (member.strs.map structAddLen).sum + (member.gnode.nodes.map gnodeLen).sum + 1

/-- What `member_pack` writes, the list to `buf` again. -/
def memberWrites (member : Member Str UList) : List (ℕ × Bytes) :=
  placed 0 (member.image :: member.strs.map Str.packed) ++ placed 0 (listWritten member.gnode)

/-- What `group_pack` allocates. -/
def groupLen (gp : PackedMembers.Group UList) : ℕ := 16 + 24 + (gp.node.nodes.map gnodeLen).sum + 1

def groupWrites (gp : PackedMembers.Group UList) : List (ℕ × Bytes) :=
  placed 0 [intBytes gp.gid, zeros 4] ++ placed 0 (listWritten gp.node)

/-- The number of bytes that are written is at most so many. -/
def AtMost (len : ℕ) (writes : List (ℕ × Bytes)) : Prop := (writes.map fun w => w.2.length).sum ≤ len

/-- No byte is written behind so many. -/
def Inside (len : ℕ) (writes : List (ℕ × Bytes)) : Prop := ∀ w ∈ writes, w.1 + w.2.length ≤ len

def missing (node : GNode Str) : ℕ := [node.intime, node.uptime].countP fun s => s.value.isNone

def missingIn (list : UList) : ℕ := (list.nodes.map missing).sum

variable {len pos : ℕ} {cs : List Bytes} {list : UList} {base : Bytes}

theorem sum_placed (pos : ℕ) (cs : List Bytes) : ((placed pos cs).map fun w => w.2.length).sum = cs.flatten.length := by
  induction cs generalizing pos with
  | nil => rfl
  | cons c cs ih => simp [placed, ih]

theorem inside_placed_iff (hpos : pos ≤ len) : Inside len (placed pos cs) ↔ pos + cs.flatten.length ≤ len := by
  induction cs generalizing pos with
  | nil => simpa [Inside, placed] using hpos
  | cons c cs ih =>
    have hcons : Inside len (placed pos (c :: cs)) ↔ pos + c.length ≤ len ∧ Inside len (placed (pos + c.length) cs) :=
      List.forall_mem_cons
    rw [hcons, List.flatten_cons, List.length_append]
    by_cases hc : pos + c.length ≤ len
    · rw [and_iff_right hc, ih hc, Nat.add_assoc]
    · exact iff_of_false (fun h => hc h.1) fun h => hc (by omega)

theorem inside_append_iff {writes writes' : List (ℕ × Bytes)} :
    Inside len (writes ++ writes') ↔ Inside len writes ∧ Inside len writes' := List.forall_mem_append

theorem nodeStrLen_packed (s : Str) : s.packed.length = nodeStrLen s + [s].countP fun s => s.value.isNone := by
  cases s with
  | null => rfl
  | str a ha text => simp [Str.packed, nodeStrLen, Str.value]

theorem length_packed_node (node : GNode Str) : node.packed.length = gnodeLen node + missing node := by
  have hcount : missing node = ([node.intime].countP fun s => s.value.isNone) +
      [node.uptime].countP fun s => s.value.isNone := by
    rw [missing, ← List.countP_append, List.singleton_append]
  rw [node.length_packed, nodeStrLen_packed, nodeStrLen_packed, gnodeLen, hcount]
  omega

theorem length_listWritten (list : UList) :
    (listWritten list).flatten.length = 12 + (list.nodes.map gnodeLen).sum + missingIn list := by
  have hnodes : (list.nodes.flatMap GNode.packed).length = (list.nodes.map gnodeLen).sum + missingIn list := by
    rw [missingIn]
    induction list.nodes with
    | nil => rfl
    | cons node nodes ih =>
      simp only [List.flatMap_cons, List.length_append, ih, length_packed_node, List.map_cons, List.sum_cons]
      omega
  rw [listWritten, List.flatten_append, List.length_append, flatten_nodes, hnodes]
  simp
  omega

theorem member_atMost (member : Member Str UList) : ¬ AtMost (memberLen member) (memberWrites member) := by
  rw [AtMost, memberWrites, List.map_append, List.sum_append, sum_placed, sum_placed, member.length_written,
    length_listWritten, memberLen]
  omega

theorem group_atMost_iff (gp : PackedMembers.Group UList) : AtMost (groupLen gp) (groupWrites gp) ↔ missingIn gp.node ≤ 21 := by
  have himage : [intBytes gp.gid, zeros 4].flatten.length = 8 := by simp [zeros]
  rw [AtMost, groupWrites, List.map_append, List.sum_append, sum_placed, sum_placed, himage, length_listWritten, groupLen]
  omega

theorem member_inside_iff (member : Member Str UList) :
    Inside (memberLen member) (memberWrites member) ↔
      missingIn member.gnode ≤ 61 + (member.strs.map structAddLen).sum := by
  rw [memberWrites, inside_append_iff, inside_placed_iff (Nat.zero_le _), inside_placed_iff (Nat.zero_le _),
    member.length_written, length_listWritten, memberLen]
  omega

theorem group_inside_iff (gp : PackedMembers.Group UList) : Inside (groupLen gp) (groupWrites gp) ↔ missingIn gp.node ≤ 29 := by
  have himage : [intBytes gp.gid, zeros 4].flatten.length = 8 := by simp [zeros]
  rw [groupWrites, inside_append_iff, inside_placed_iff (Nat.zero_le _), inside_placed_iff (Nat.zero_le _), himage,
    length_listWritten, groupLen]
  omega

/-- A list that is not full is packed into a buffer exactly when the writes are inside it. -/
theorem listPackNalloc_isSome_iff (hfull : list.nodes.length < list.max) :
    (listPackNalloc list base 0).isSome ↔ Inside base.length (placed 0 (listWritten list)) := by
  have hflat : (listWritten list).flatten = list.packed := by
    rw [listWritten, List.flatten_append, flatten_nodes]
    simp [UList.packed, UList.header]
  rw [listPackNalloc_store, if_pos hfull, inside_placed_iff (Nat.zero_le _), hflat, store]
  split
  · rename_i hfits
    exact iff_of_true rfl hfits
  · rename_i hfits
    exact iff_of_false Bool.false_ne_true hfits

/-- The model that writes into a buffer makes a group exactly when nothing is written behind it. -/
theorem groupPack_isSome_iff {gp : PackedMembers.Group UList} (hfull : gp.node.nodes.length < gp.node.max) :
    (groupPack gp).isSome ↔ Inside (groupLen gp) (groupWrites gp) := by
  have himage : [intBytes gp.gid, zeros 4].flatten.length = 8 := by simp [zeros]
  have hfits : 0 + [intBytes gp.gid, zeros 4].flatten.length ≤ (zeros (groupLen gp)).length := by
    rw [himage, zeros, List.length_replicate, groupLen]
    omega
  have hpack : groupPack gp =
      listPackNalloc gp.node (overwrite (zeros (groupLen gp)) 0 [intBytes gp.gid, zeros 4].flatten) 0 := by
    rw [groupPack, mlistIterate, if_pos hfull, Option.bind_some]
    exact congrArg (Option.bind · fun buf => listPackNalloc gp.node buf 0)
      ((writeAll_eq (Nat.zero_le _)).trans (store_eq hfits))
  rw [hpack, listPackNalloc_isSome_iff hfull, length_overwrite hfits, groupWrites, inside_append_iff, zeros,
    List.length_replicate, iff_and_self]
  intro _
  rw [inside_placed_iff (Nat.zero_le _), himage, groupLen]
  omega

theorem memberPack_isSome_iff {member : Member Str UList} (hfull : member.gnode.nodes.length < member.gnode.max) :
    (memberPack member).isSome ↔ Inside (memberLen member) (memberWrites member) := by
  have hfits : 0 + (member.image :: member.strs.map Str.packed).flatten.length ≤ (zeros (memberLen member)).length := by
    rw [member.length_written, zeros, List.length_replicate, memberLen]
    omega
  have hpack : memberPack member = listPackNalloc member.gnode
      (overwrite (zeros (memberLen member)) 0 (member.image :: member.strs.map Str.packed).flatten) 0 := by
    rw [memberPack, mlistIterate, if_pos hfull, Option.bind_some]
    exact congrArg (Option.bind · fun buf => listPackNalloc member.gnode buf 0)
      ((writeAll_eq (Nat.zero_le _)).trans (store_eq hfits))
  rw [hpack, listPackNalloc_isSome_iff hfull, length_overwrite hfits, memberWrites, inside_append_iff, zeros,
    List.length_replicate, iff_and_self]
  intro _
  rw [inside_placed_iff (Nat.zero_le _), member.length_written, memberLen]
  omega

/-- **Members and groups are packed into what is allocated for them**: of a member more bytes are written than that in
any case, of a group when more than 21 strings of its nodes are not there. As the lists are written to the front of the
buffers, nothing is written behind them with so many strings missing as the strings of the member, or 29, make up for. -/
theorem packed_fits_iff (member : Member Str UList) (gp : PackedMembers.Group UList) :
    (¬ AtMost (memberLen member) (memberWrites member)) ∧
    (AtMost (groupLen gp) (groupWrites gp) ↔ missingIn gp.node ≤ 21) ∧
    (Inside (memberLen member) (memberWrites member) ↔
      missingIn member.gnode ≤ 61 + (member.strs.map structAddLen).sum) ∧
    (Inside (groupLen gp) (groupWrites gp) ↔ missingIn gp.node ≤ 29) :=
  ⟨member_atMost member, group_atMost_iff gp, member_inside_iff member, group_inside_iff gp⟩

/-- Fifteen nodes without their times. -/
def timeless : UList :=
  ⟨8192, 0, 20, List.replicate 15 ⟨1, 7, 0, 0, .null, .null⟩, by decide, by decide, by decide, by decide⟩

theorem not_fits_timeless : ¬ AtMost (groupLen ⟨7, timeless⟩) (groupWrites ⟨7, timeless⟩) ∧
    ¬ Inside (groupLen ⟨7, timeless⟩) (groupWrites ⟨7, timeless⟩) := by
  rw [group_atMost_iff, group_inside_iff]
  decide

end Cmoon.PackedSizes
