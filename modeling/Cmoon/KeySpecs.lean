import Cmoon.ColumnNames
import Cmoon.NumberEnds
import Cmoon.TextLists

/-! # Key specifications

`mdb_set_rows` is told by a text such as `0;2:2-4,5,6;4:4,5,6` which column is the key of a row, and below which further
keys the columns of a list go. The lists are written out into tables of `QR_NUM_MAX` places. -/
namespace Cmoon.KeySpecs
open DecimalText NumberEnds TextLists
open ColumnNames (qrNumMax strtok)

def mstrIsdigitn (buf : Bytes) : Bool := buf ≠ [] && buf.all isDigit

/-- The bounds of a range, that is two numbers around the first `-`, of which the first is less. -/
def mstrIsrangen (buf : Bytes) : Option (ℤ × ℤ) :=
  let cnt := (buf.takeWhile (· ≠ 45)).length
  if cnt = 0 ∨ buf.length ≤ cnt + 1 then none
  else
    let min := atoi buf
    let max := atoi (buf.drop (cnt + 1))
    if max ≤ min then none else some (min, max)

/-- The numbers of one item. A range stops two places before the end of the table. -/
def decodeItem (cnt : ℕ) (tok : Bytes) : List ℤ :=
  if mstrIsdigitn tok then [atoi tok]
  else ((mstrIsrangen tok).map fun r =>
    ((List.range (r.2 - r.1 + 1).toNat).map fun x : ℕ => r.1 + (x : ℤ)).take (qrNumMax - 2 - cnt)).getD []

/-- The numbers of a list; the rest of the table is filled with -1. -/
def decodeList : ℕ → List Bytes → List ℤ
  | _, [] => []
  | cnt, tok :: toks =>
    if cnt < qrNumMax - 1 then decodeItem cnt tok ++ decodeList (cnt + (decodeItem cnt tok).length) toks else []

/-- One line of `slavekey` and `slaveval`. -/
structure Slave where
  key : ℤ
  vals : List ℤ
  deriving DecidableEq

/-- `while (*ps && *ps++ != c)` -/
def behind (c : UInt8) (ps : Bytes) : Bytes := (ps.dropWhile (· ≠ c)).tail

def decodeSlave (ps : Bytes) : Option Slave :=
  let k := atoi ps
  let list := behind 58 ps
  if 0 ≤ k ∧ list ≠ [] then some ⟨k, decodeList 0 (strtok 44 list)⟩ else none

/-- Everything behind the first `;`; what `string_array_split` makes of it is a parameter. -/
def decodeSlaves (split : Bytes → List Bytes) (keyspec : Bytes) : List Slave :=
  let ps := behind 59 keyspec
  if ps = [] then [] else (split ps).filterMap decodeSlave

inductive ListItem where
  | num (n : ℕ)
  | range (min max : ℕ)
  deriving DecidableEq

def ListItem.text : ListItem → Bytes
  | .num n => printNat n
  | .range min max => printNat min ++ 45 :: printNat max

def ListItem.Has : ListItem → ℕ → Prop
  | .num n, i => i = n
  | .range min max, i => min ≤ i ∧ i ≤ max

instance : (item : ListItem) → (i : ℕ) → Decidable (item.Has i)
  | .num _, _ => inferInstanceAs (Decidable (_ = _))
  | .range _ _, _ => inferInstanceAs (Decidable (_ ∧ _))

/-- A further key, and the columns below it. -/
structure Group where
  key : ℕ
  list : List ListItem
  deriving DecidableEq

def Group.listText (g : Group) : Bytes := [44].intercalate (g.list.map ListItem.text)

def Group.text (g : Group) : Bytes := printNat g.key ++ 58 :: g.listText

def Group.Has (g : Group) (i : ℕ) : Prop := ∃ item ∈ g.list, item.Has i

instance (g : Group) (i : ℕ) : Decidable (g.Has i) := List.decidableBEx _ _

structure Keyspec where
  key : ℕ
  groups : List Group
  deriving DecidableEq

def Keyspec.text (spec : Keyspec) : Bytes := [59].intercalate (printNat spec.key :: spec.groups.map Group.text)

def ListItem.Valid (columns : ℕ) : ListItem → Prop
  | .num n => n < columns
  | .range min max => min < columns ∧ max < columns

structure Keyspec.Valid (spec : Keyspec) (columns : ℕ) : Prop where
  key : spec.key < columns
  keys : ∀ g ∈ spec.groups, g.key < columns
  list : ∀ g ∈ spec.groups, g.list ≠ []
  items : ∀ g ∈ spec.groups, ∀ item ∈ g.list, item.Valid columns

def ListItem.numbers : ListItem → List ℕ
  | .num n => [n]
  | .range min max => if min < max then (List.range (max - min + 1)).map (min + ·) else []

def ListItem.places : ListItem → ℕ
  | .num _ => 49
  | .range _ _ => 48

/-- The list written out as far as there are places. -/
def keptFrom : ℕ → List ListItem → List ℕ
  | _, [] => []
  | cnt, item :: items =>
    if cnt < 49 then
      item.numbers.take (item.places - cnt) ++ keptFrom (cnt + (item.numbers.take (item.places - cnt)).length) items
    else []

def Group.kept (g : Group) : List ℕ := keptFrom 0 g.list

theorem ListItem.has_of_mem_numbers {item : ListItem} {i : ℕ} (h : i ∈ item.numbers) : item.Has i := by
  cases item with
  | num n => exact List.mem_singleton.mp h
  | range min max =>
    change i ∈ (if min < max then (List.range (max - min + 1)).map (min + ·) else []) at h
    split at h
    · obtain ⟨x, hx, rfl⟩ := List.mem_map.mp h
      rw [List.mem_range] at hx
      exact ⟨by omega, by omega⟩
    · cases h

theorem has_of_mem_keptFrom {cnt i : ℕ} {list : List ListItem} (h : i ∈ keptFrom cnt list) :
    ∃ item ∈ list, item.Has i := by
  induction list generalizing cnt with
  | nil => cases h
  | cons item list ih =>
    rw [keptFrom] at h
    split at h
    · rcases List.mem_append.mp h with h | h
      · exact ⟨item, List.mem_cons_self, ListItem.has_of_mem_numbers (List.mem_of_mem_take h)⟩
      · obtain ⟨other, hother, hhas⟩ := ih h
        exact ⟨other, List.mem_cons_of_mem _ hother, hhas⟩
    · cases h

theorem Group.has_of_mem_kept {g : Group} {i : ℕ} (h : i ∈ g.kept) : g.Has i := has_of_mem_keptFrom h

theorem notMem_itemText {c : UInt8} (hc : isDigit c = false) (hdash : c ≠ 45) (item : ListItem) : c ∉ item.text := by
  cases item with
  | num n => exact notMem_printNat hc n
  | range min max =>
    intro h
    rcases List.mem_append.mp h with h | h
    · exact notMem_printNat hc min h
    · rcases List.mem_cons.mp h with rfl | h
      · exact hdash rfl
      · exact notMem_printNat hc max h

theorem itemText_ne_nil (item : ListItem) : item.text ≠ [] := by
  cases item with
  | num n => exact printNat_ne_nil n
  | range min max => exact List.append_ne_nil_of_left_ne_nil (printNat_ne_nil min) _

theorem mstrIsdigitn_num (n : ℕ) : mstrIsdigitn (printNat n) = true := by
  unfold mstrIsdigitn
  rw [List.all_eq_true.mpr (printNat_digits n), Bool.and_true]
  exact decide_eq_true (printNat_ne_nil n)

theorem mstrIsrangen_text {min max : ℕ} (hmin : min < 2 ^ 31) (hmax : max < 2 ^ 31) :
    mstrIsrangen (printNat min ++ 45 :: printNat max) =
      if min < max then some ((min : ℤ), (max : ℤ)) else none := by
  have htake : (printNat min ++ 45 :: printNat max).takeWhile (· ≠ 45) = printNat min := by
    rw [List.takeWhile_append_of_pos fun b hb => decide_eq_true (isDigit_ne (printNat_digits min b hb) rfl),
      List.takeWhile_cons_of_neg (by decide), List.append_nil]
  have hdrop : (printNat min ++ 45 :: printNat max).drop ((printNat min).length + 1) = printNat max := by
    rw [← List.drop_drop, List.drop_left]
    rfl
  have hbefore := List.length_pos_iff.mpr (printNat_ne_nil min)
  have hbehind := List.length_pos_iff.mpr (printNat_ne_nil max)
  unfold mstrIsrangen
  dsimp only
  rw [htake, hdrop, atoi_printNat_append rfl hmin, atoi_printNat hmax, if_neg]
  · by_cases hlt : min < max
    · rw [if_pos hlt, if_neg (by omega)]
    · rw [if_neg hlt, if_pos (by omega)]
  · rw [List.length_append, List.length_cons]
    omega

theorem decodeItem_text {columns cnt : ℕ} {item : ListItem} (hvalid : item.Valid columns) (hcolumns : columns ≤ 2 ^ 31)
    (hcnt : cnt < 49) : decodeItem cnt item.text = (item.numbers.take (item.places - cnt)).map Nat.cast := by
  cases item with
  | num n =>
    change n < columns at hvalid
    change decodeItem cnt (printNat n) = ([n].take (49 - cnt)).map Nat.cast
    rw [List.take_of_length_le (show [n].length ≤ 49 - cnt by rw [List.length_singleton]; omega), decodeItem,
      if_pos (mstrIsdigitn_num n), atoi_printNat (by omega)]
    rfl
  | range min max =>
    obtain ⟨hmin, hmax⟩ : min < columns ∧ max < columns := hvalid
    have hdigits : ¬ mstrIsdigitn (printNat min ++ 45 :: printNat max) = true := by
      intro h
      have hall := List.all_eq_true.mp (Bool.and_eq_true_iff.mp h).2 45 (by simp)
      cases hall
    change decodeItem cnt (printNat min ++ 45 :: printNat max) =
      ((if min < max then (List.range (max - min + 1)).map (min + ·) else []).take (48 - cnt)).map Nat.cast
    rw [decodeItem, if_neg hdigits, mstrIsrangen_text (by omega) (by omega)]
    split
    · have hcount : ((max : ℤ) - min + 1).toNat = max - min + 1 := by omega
      rw [Option.map_some, Option.getD_some, hcount, List.map_take, List.map_map]
      rfl
    · rw [List.take_nil]
      rfl

theorem decodeList_text {columns cnt : ℕ} {list : List ListItem} (hvalid : ∀ item ∈ list, item.Valid columns)
    (hcolumns : columns ≤ 2 ^ 31) : decodeList cnt (list.map ListItem.text) = (keptFrom cnt list).map Nat.cast := by
  induction list generalizing cnt with
  | nil => rfl
  | cons item list ih =>
    rw [List.forall_mem_cons] at hvalid
    rw [List.map_cons, decodeList, keptFrom]
    by_cases hcnt : cnt < 49
    · rw [if_pos (show cnt < qrNumMax - 1 from hcnt), if_pos hcnt, decodeItem_text hvalid.1 hcolumns hcnt,
        ih hvalid.2, List.map_append, List.length_map]
    · rw [if_neg (show ¬ cnt < qrNumMax - 1 from hcnt), if_neg hcnt]
      rfl

theorem strtok_listText (list : List ListItem) : strtok 44 ([44].intercalate (list.map ListItem.text)) =
    list.map ListItem.text := by
  unfold strtok
  cases list with
  | nil => rfl
  | cons item list =>
    rw [List.splitOn_intercalate, List.filter_eq_self]
    · intro text htext
      obtain ⟨item, -, rfl⟩ := List.mem_map.mp htext
      exact decide_eq_true (itemText_ne_nil item)
    · intro text htext
      obtain ⟨item, -, rfl⟩ := List.mem_map.mp htext
      exact notMem_itemText rfl (by decide) item
    · exact List.cons_ne_nil _ _

theorem behind_append {c : UInt8} {s : Bytes} (h : c ∉ s) (rest : Bytes) : behind c (s ++ c :: rest) = rest := by
  have hkeep : ∀ b ∈ s, decide (b ≠ c) = true := by
    intro b hb
    refine decide_eq_true ?_
    rintro rfl
    exact h hb
  unfold behind
  rw [List.dropWhile_append_of_pos hkeep, List.dropWhile_cons_of_neg (by simp), List.tail_cons]

def Group.slave (g : Group) : Slave := ⟨g.key, g.kept.map Nat.cast⟩

theorem listText_ne_nil {g : Group} (hlist : g.list ≠ []) : g.listText ≠ [] := by
  obtain ⟨item, list, hcons⟩ := List.exists_cons_of_ne_nil hlist
  obtain ⟨rest, hrest⟩ := exists_intercalate_cons [44] item.text (list.map ListItem.text)
  rw [Group.listText, hcons, List.map_cons, hrest]
  exact List.append_ne_nil_of_left_ne_nil (itemText_ne_nil item) rest

theorem decodeSlave_text {columns : ℕ} {g : Group} (hcolumns : columns ≤ 2 ^ 31) (hkey : g.key < columns)
    (hlist : g.list ≠ []) (hitems : ∀ item ∈ g.list, item.Valid columns) : decodeSlave g.text = some g.slave := by
  unfold decodeSlave Group.text
  rw [behind_append (notMem_printNat rfl g.key), atoi_printNat_append rfl (by omega),
    if_pos ⟨Int.natCast_nonneg _, listText_ne_nil hlist⟩]
  unfold Group.listText
  rw [strtok_listText, decodeList_text hitems hcolumns]
  rfl

/-- Also of several groups in one piece a line is made. -/
theorem isSome_decodeSlave {g : Group} (hkey : g.key < 2 ^ 31) (hlist : g.list ≠ []) (rest : Bytes) :
    (decodeSlave (g.text ++ rest)).isSome = true := by
  unfold decodeSlave Group.text
  rw [List.append_assoc, List.cons_append, behind_append (notMem_printNat rfl g.key),
    atoi_printNat_append rfl hkey, if_pos]
  · rfl
  · exact ⟨Int.natCast_nonneg _, List.append_ne_nil_of_left_ne_nil (listText_ne_nil hlist) _⟩

theorem notMem_groupText (g : Group) : (59 : UInt8) ∉ g.text := by
  intro h
  rcases List.mem_append.mp h with h | h
  · exact notMem_printNat rfl g.key h
  · rcases List.mem_cons.mp h with h | h
    · cases h
    · refine notMem_intercalate (by decide) (fun text htext => ?_) h
      obtain ⟨item, -, rfl⟩ := List.mem_map.mp htext
      exact notMem_itemText rfl (by decide) item

section Slaves
variable {split : Bytes → List Bytes} {spec : Keyspec} {columns : ℕ}

theorem filterMap_decodeSlave (hvalid : spec.Valid columns) (hcolumns : columns ≤ 2 ^ 31) {groups : List Group}
    (hgroups : ∀ g ∈ groups, g ∈ spec.groups) :
    (groups.map Group.text).filterMap decodeSlave = groups.map Group.slave := by
  have hslave : ∀ g ∈ spec.groups, decodeSlave g.text = some g.slave := fun g hg =>
    decodeSlave_text hcolumns (hvalid.keys g hg) (hvalid.list g hg) (hvalid.items g hg)
  rw [List.filterMap_map, ← List.filterMap_eq_map]
  exact List.filterMap_congr fun g hg => hslave g (hgroups g hg)

/-- Without groups there is nothing behind the column. -/
theorem decodeSlaves_of_nil (hgroups : spec.groups = []) : decodeSlaves split spec.text = [] := by
  have hbehind : behind 59 (printNat spec.key) = [] := by
    have hdrop : (printNat spec.key).dropWhile (· ≠ 59) = [] := List.dropWhile_eq_nil_iff.mpr fun b hb =>
      decide_eq_true (isDigit_ne (printNat_digits spec.key b hb) rfl)
    rw [behind, hdrop]
    rfl
  unfold decodeSlaves Keyspec.text
  rw [hgroups, List.map_nil, List.intercalate_singleton, hbehind]
  rfl

theorem decodeSlaves_of_ne_nil (hsplit : ∀ s, split s = splitMax 59 qrNumMax s) (hgroups : spec.groups ≠ []) :
    decodeSlaves split spec.text =
      (splitMax 59 qrNumMax ([59].intercalate (spec.groups.map Group.text))).filterMap decodeSlave := by
  obtain ⟨g, groups, hcons⟩ := List.exists_cons_of_ne_nil hgroups
  have hlist : ([59].intercalate (spec.groups.map Group.text)) ≠ [] := by
    obtain ⟨rest, hrest⟩ := exists_intercalate_cons [59] g.text (groups.map Group.text)
    rw [hcons, List.map_cons, hrest, Group.text, List.append_assoc]
    exact List.append_ne_nil_of_left_ne_nil (printNat_ne_nil g.key) _
  have hbehind : behind 59 spec.text = [59].intercalate (spec.groups.map Group.text) := by
    unfold Keyspec.text
    rw [hcons, List.map_cons, List.intercalate_cons_cons, List.append_assoc, List.singleton_append,
      behind_append (notMem_printNat rfl spec.key)]
  unfold decodeSlaves
  dsimp only
  rw [hbehind, if_neg hlist, hsplit]

/-- What is decoded of a specification: the table has a line for each group, or runs out of lines. -/
theorem decodeSlaves_text (hsplit : ∀ s, split s = splitMax 59 qrNumMax s) (hvalid : spec.Valid columns)
    (hcolumns : columns ≤ 2 ^ 31) :
    (spec.groups.length ≤ qrNumMax → decodeSlaves split spec.text = spec.groups.map Group.slave) ∧
      (qrNumMax < spec.groups.length → qrNumMax < (decodeSlaves split spec.text).length) := by
  by_cases hgroups : spec.groups = []
  · rw [decodeSlaves_of_nil hgroups, hgroups]
    exact ⟨fun _ => rfl, fun h => absurd h (by decide)⟩
  rw [decodeSlaves_of_ne_nil hsplit hgroups, splitMax_intercalate]
  · constructor
    · intro hfew
      rw [List.length_map, if_neg (by omega), List.append_nil,
        List.take_of_length_le (by rw [List.length_map]; exact hfew),
        filterMap_decodeSlave hvalid hcolumns fun g hg => hg]
    · intro hmany
      obtain ⟨last, more, hdrop⟩ : ∃ last more, spec.groups.drop qrNumMax = last :: more :=
        List.exists_cons_of_ne_nil fun hnil => absurd (List.drop_eq_nil_iff.mp hnil) (by omega)
      have hlast : last ∈ spec.groups := List.mem_of_mem_drop (hdrop ▸ List.mem_cons_self)
      obtain ⟨rest, hrest⟩ := exists_intercalate_cons [59] last.text (more.map Group.text)
      obtain ⟨slave, hsome⟩ := Option.isSome_iff_exists.mp
        (isSome_decodeSlave ((hvalid.keys last hlast).trans_le hcolumns) (hvalid.list last hlast) rest)
      rw [List.length_map, if_pos hmany, ← List.map_take, ← List.map_drop, hdrop, List.map_cons, hrest,
        List.filterMap_append, filterMap_decodeSlave hvalid hcolumns fun g hg => List.mem_of_mem_take hg,
        List.filterMap_cons_some hsome, List.filterMap_nil, List.length_append, List.length_map, List.length_take,
        List.length_singleton]
      omega
  · rw [ne_eq, List.map_eq_nil_iff]
    exact hgroups
  · intro text htext
    obtain ⟨g, -, rfl⟩ := List.mem_map.mp htext
    exact notMem_groupText g

end Slaves

end Cmoon.KeySpecs
