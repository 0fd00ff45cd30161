import Cmoon.KeySpecs
import Cmoon.PrintfFormats
import Mathlib.Data.List.GetD

/-! # Where rows are stored

`mdb_set_rows` makes of each cell the path of a node, from the key of its row and from further keys, and gives the path
with `=%s` behind it to `hdf_set_valuef`, as a format. -/
namespace Cmoon.RowPlacement
open DecimalText NumberEnds PrintfFormats TextLists KeySpecs
open ColumnNames (mdbSetQrarray qrNumMax)

/-- A node, by the names on the way to it, and what it is set to. -/
structure Write where
  place : List Bytes
  value : Bytes
  deriving DecidableEq

/-- The way to a node; without a name it is the dataset itself. -/
def place (name : Bytes) : List Bytes := if name = [] then [] else name.splitOn 46

/-- `string_array_split` at `;`, and what `hdf_set_valuef` sets, if anything: the format is written out and cut at the
first `=`, and a name with an empty piece is refused. -/
structure ClearSilver where
  split : Bytes → List Bytes
  split_eq : ∀ s, split s = splitMax 59 qrNumMax s
  setValuef : Bytes → Bytes → Option Write
  setValuef_eq : ∀ {fmt arg name value : Bytes}, printf fmt [.str arg] = some (name ++ 61 :: value) → 61 ∉ name →
    setValuef fmt arg = if [] ∈ place name then none else some ⟨place name, value⟩

/-- What is known of the paths before the first row. -/
structure Layout where
  pre : Option Bytes
  listed : Bool
  names : List Bytes
  keycol : ℤ
  slaves : List Slave

/-- The keys of the slaves before the first one without the column. -/
def slaveKeys (names row : List Bytes) (i : ℕ) : List Slave → Option Bytes
  | [] => some []
  | slave :: slaves =>
    if (i : ℤ) ∈ slave.vals then
      names[slave.key.toNat]?.bind fun name => row[slave.key.toNat]?.bind fun val =>
        (slaveKeys names row i slaves).map fun below => 46 :: name ++ 46 :: val ++ below
    else some []

/-- `BUILD_HDF_FMT`, without the `=%s` -/
def Layout.hdfKey (l : Layout) (rowsn : ℕ) (row : List Bytes) (i : ℕ) : Option Bytes :=
  (if 0 ≤ l.keycol then row[l.keycol.toNat]? else some (printNat rowsn)).bind fun key =>
    (if l.listed then
      (slaveKeys l.names row i l.slaves).bind fun below => l.names[i]?.map fun name => below ++ 46 :: name
    else some []).map fun below => (l.pre.map fun p => p ++ [46]).getD [] ++ (key ++ below)

structure Cell where
  rowsn : ℕ
  row : List Bytes
  i : ℕ

def setCell (cs : ClearSilver) (l : Layout) (cell : Cell) : Option (Option Write) :=
  (l.hdfKey cell.rowsn cell.row cell.i).bind fun key => cell.row[cell.i]?.bind fun col =>
    (printf (key ++ [61, 37, 115]) [.str col]).map fun _ => cs.setValuef (key ++ [61, 37, 115]) col

def setCells (cs : ClearSilver) (l : Layout) : List Cell → Option (List Write)
  | [] => some []
  | cell :: cells =>
    (setCell cs l cell).bind fun write => (setCells cs l cells).map fun writes => write.toList ++ writes

def cells (columns rowsn : ℕ) (rows : List (List Bytes)) : List Cell :=
  (rows.zipIdx rowsn).flatMap fun r => (List.range columns).map fun i => ⟨r.2, r.1, i⟩

/-- What is set, in this order; none is a fault. `children` are the children that `prefix` has. -/
def mdbSetRows (cs : ClearSilver) (children : ℕ) (cols pre keyspec : Option Bytes) (rows : List (List Bytes)) :
    Option (List Write) :=
  ((cols.map mdbSetQrarray).getD (some [[]])).bind fun names =>
    let used := keyspec.filter fun s => atoi s < names.length
    let keycol := (used.map atoi).getD (-1)
    let slaves := (used.map (decodeSlaves cs.split)).getD []
    if qrNumMax < slaves.length then none
    else setCells cs ⟨pre, cols.isSome, names, keycol, slaves⟩
      (cells names.length (if pre.isSome ∧ keycol < 0 then children else 0) rows)

/-- The further keys under which a column is: those whose lists have it, up to the first one that has not. -/
def leading (spec : Keyspec) (i : ℕ) : List Group := spec.groups.takeWhile fun g => g.Has i

def pair (names row : List Bytes) (g : Group) : List Bytes := [names.getD g.key [], row.getD g.key []]

/-- The prefix, the key of the row, a name and a value for each further key, and the name of the column. -/
def path (pre : Option Bytes) (names : List Bytes) (key : ℕ) (row : List Bytes) (groups : List Group) (i : ℕ) : Bytes :=
  [46].intercalate (pre.toList ++ row.getD key [] :: (groups.flatMap (pair names row) ++ [names.getD i []]))

/-- Two rows have the same key, and the same values of further keys. -/
def Agree (key : ℕ) (groups : List Group) (row row' : List Bytes) : Prop :=
  row.getD key [] = row'.getD key [] ∧ ∀ g ∈ groups, row.getD g.key [] = row'.getD g.key []

/-- Every cell is stored at its place, and rows that are stored at one place have the keys in common. -/
def Placed (cs : ClearSilver) (children : ℕ) (cols : Bytes) (pre : Option Bytes) (spec : Keyspec)
    (rows : List (List Bytes)) : Prop :=
  ∃ names, mdbSetQrarray cols = some names ∧
    mdbSetRows cs children (some cols) pre (some spec.text) rows = some (rows.flatMap fun row =>
      (List.range names.length).map fun i =>
        ⟨place (path pre names spec.key row (leading spec i) i), row.getD i []⟩) ∧
    ∀ row ∈ rows, ∀ row' ∈ rows, ∀ i < names.length, ∀ j < names.length,
      place (path pre names spec.key row (leading spec i) i) = place (path pre names spec.key row' (leading spec j) j) →
        Agree spec.key (leading spec i) row row'

/-- A specification of the documented form, and rows whose keys can be part of a path. -/
structure Documented (names : List Bytes) (spec : Keyspec) (rows : List (List Bytes)) : Prop where
  distinct : names.Nodup
  valid : spec.Valid names.length
  cells : ∀ row ∈ rows, row.length = names.length
  keys : ∀ row ∈ rows, ∀ k ∈ spec.key :: spec.groups.map Group.key,
    row.getD k [] ≠ [] ∧ 46 ∉ row.getD k [] ∧ 37 ∉ row.getD k [] ∧ 61 ∉ row.getD k []

def Plain (s : Bytes) : Prop := 37 ∉ s ∧ 61 ∉ s ∧ [] ∉ s.splitOn 46

/-- There are places for the groups and for what their lists have, nothing in a path is taken for anything else, and no
column is called like what is under a further key that tells rows apart. -/
structure Storable (pre : Option Bytes) (names : List Bytes) (spec : Keyspec) (rows : List (List Bytes)) : Prop where
  lines : spec.groups.length ≤ qrNumMax
  plain : rows ≠ [] → ∀ s ∈ pre.toList ++ names, Plain s
  kept : rows ≠ [] → ∀ i < names.length, ∀ g ∈ leading spec i, i ∈ g.kept
  apart : ∀ row ∈ rows, ∀ row' ∈ rows, ∀ i < names.length, ∀ j < names.length, leading spec j <+: leading spec i →
    Agree spec.key (leading spec j) row row' →
      names.getD j [] = [46].intercalate
        (((leading spec i).drop (leading spec j).length).flatMap (pair names row) ++ [names.getD i []]) →
      Agree spec.key (leading spec i) row row'

instance (s : Bytes) : Decidable (Plain s) := inferInstanceAs (Decidable (_ ∧ _))

instance (key : ℕ) (groups : List Group) (row row' : List Bytes) : Decidable (Agree key groups row row') :=
  inferInstanceAs (Decidable (_ ∧ _))

/-- Without a string for the `%s` behind the path. -/
theorem printf_nil (s : Bytes) : printf (s ++ [61, 37, 115]) [] = none := by
  induction s using List.twoStepInduction with
  | nil => rfl
  | singleton b =>
    by_cases hb : b = 37
    · rw [hb]
      rfl
    · rw [List.singleton_append, printf_byte hb]
      rfl
  | cons_cons b c s ih ih' =>
    by_cases hb : b = 37
    · rw [hb, List.cons_append, List.cons_append]
      by_cases hc : c = 37
      · rw [hc, printf_percent, ih]
        rfl
      · rw [printf_conversion hc]
        rfl
    · rw [List.cons_append, printf_byte hb, ih' c]
      rfl

/-- How a text is cut: what is before its first `=` is not longer than `s`, and as long only if nothing else is made of
`s`. -/
def CutTo (s v text : Bytes) : Prop :=
  ∃ name value, text = name ++ 61 :: value ∧ 61 ∉ name ∧ name.length ≤ s.length ∧
    (s.length ≤ name.length → name = s ∧ value = v ∧ 37 ∉ s)

theorem CutTo.cons {b : UInt8} {s v text : Bytes} (hb : b ≠ 37) (h : CutTo s v text) :
    CutTo (b :: s) v (b :: text) := by
  obtain ⟨name, value, rfl, heq, hle, hsame⟩ := h
  by_cases hcut : b = 61
  · exact ⟨[], name ++ 61 :: value, by rw [hcut, List.nil_append], List.not_mem_nil, Nat.zero_le _,
      fun hlen => absurd hlen (Nat.not_succ_le_zero _)⟩
  · refine ⟨b :: name, value, rfl, List.not_mem_cons_of_ne_of_not_mem (Ne.symm hcut) heq, Nat.succ_le_succ hle, ?_⟩
    intro hlen
    obtain ⟨hname, hvalue, hpercent⟩ := hsame (Nat.le_of_succ_le_succ hlen)
    exact ⟨by rw [hname], hvalue, List.not_mem_cons_of_ne_of_not_mem (Ne.symm hb) hpercent⟩

theorem cutTo_of_printf {v s text : Bytes} (h : printf (s ++ [61, 37, 115]) [.str v] = some text) : CutTo s v text := by
  have hnil : CutTo [] v (61 :: v) := ⟨[], v, rfl, List.not_mem_nil, le_rfl, fun _ => ⟨rfl, rfl, List.not_mem_nil⟩⟩
  have hend : printf [61, 37, 115] [.str v] = some (61 :: v) := congrArg (fun s => some (61 :: s)) (List.append_nil v)
  induction s using List.twoStepInduction generalizing text with
  | nil =>
    obtain rfl := Option.some.inj (hend.symm.trans h)
    exact hnil
  | singleton b =>
    by_cases hb : b = 37
    · rw [hb] at h
      cases h
    · rw [List.singleton_append, printf_byte hb, hend] at h
      obtain rfl := Option.some.inj h
      exact hnil.cons hb
  | cons_cons b c s ih ih' =>
    by_cases hb : b = 37
    · rw [hb, List.cons_append, List.cons_append] at h
      by_cases hc : c = 37
      · -- `%%` makes the text shorter
        rw [hc, printf_percent] at h
        obtain ⟨text, htext, rfl⟩ := Option.map_eq_some_iff.mp h
        obtain ⟨name, value, rfl, heq, hle, -⟩ := ih htext
        refine ⟨37 :: name, value, rfl, List.not_mem_cons_of_ne_of_not_mem (by decide) heq, ?_, fun hlen => ?_⟩
        · rw [List.length_cons, List.length_cons, List.length_cons]
          omega
        · rw [List.length_cons, List.length_cons, List.length_cons] at hlen
          omega
      · -- another conversion takes the string
        rw [printf_conversion hc, List.head?_cons, Option.bind_some, List.tail_cons, printf_nil] at h
        obtain ⟨s, -, h⟩ := Option.bind_eq_some_iff.mp h
        cases h
    · rw [List.cons_append, printf_byte hb] at h
      obtain ⟨text, htext, rfl⟩ := Option.map_eq_some_iff.mp h
      exact (ih' c htext).cons hb

theorem printf_path {s : Bytes} (hpercent : 37 ∉ s) (v : Bytes) :
    printf (s ++ [61, 37, 115]) [.str v] = some (s ++ 61 :: v) := by
  have hend : printf [61, 37, 115] [.str v] = some (61 :: v) := congrArg (fun s => some (61 :: s)) (List.append_nil v)
  rw [printf_plain_append hpercent, hend, Option.map_some]

theorem place_injective : Function.Injective place := by
  intro name name' h
  unfold place at h
  split at h <;> split at h
  · simp_all
  · exact absurd h.symm (List.splitOn_ne_nil _ _)
  · exact absurd h (List.splitOn_ne_nil _ _)
  · have hname : [46].intercalate (name.splitOn 46) = name := List.intercalate_splitOn 46
    rw [← hname, h, List.intercalate_splitOn]

/-- A path that is not too long is stored at its place if and only if it is the one of the place and can be read. -/
theorem store_eq_some_iff (cs : ClearSilver) {s p v : Bytes} (hlen : s.length ≤ p.length) (hp : p ≠ []) :
    (printf (s ++ [61, 37, 115]) [.str v]).map (fun _ => cs.setValuef (s ++ [61, 37, 115]) v) =
      some (some ⟨place p, v⟩) ↔ s = p ∧ Plain p := by
  have hplace : place p = p.splitOn 46 := if_neg hp
  constructor
  · intro h
    obtain ⟨text, htext, hset⟩ := Option.map_eq_some_iff.mp h
    obtain ⟨name, value, rfl, heq, -, hsame⟩ := cutTo_of_printf htext
    rw [cs.setValuef_eq htext heq] at hset
    split at hset
    · cases hset
    · rename_i hpieces
      obtain ⟨hplaces, rfl⟩ := Write.mk.inj (Option.some.inj hset)
      obtain rfl := place_injective hplaces
      obtain ⟨rfl, -, hpercent⟩ := hsame hlen
      rw [hplace] at hpieces
      exact ⟨rfl, hpercent, heq, hpieces⟩
  · rintro ⟨rfl, hpercent, heq, hpieces⟩
    rw [← hplace] at hpieces
    rw [printf_path hpercent, Option.map_some, cs.setValuef_eq (printf_path hpercent v) heq, if_neg hpieces]

theorem plain_intercalate {parts : List Bytes} (hne : parts ≠ []) :
    Plain ([46].intercalate parts) ↔ ∀ s ∈ parts, Plain s := by
  have hmem : ∀ c : UInt8, c ≠ 46 → (c ∉ [46].intercalate parts ↔ ∀ s ∈ parts, c ∉ s) := by
    intro c hc
    obtain ⟨s, parts, rfl⟩ := List.exists_cons_of_ne_nil hne
    simp [intercalate_eq_append, hc]
  unfold Plain
  rw [hmem 37 (by decide), hmem 61 (by decide), splitOn_intercalate_eq_flatMap 46 hne, List.mem_flatMap]
  constructor
  · rintro ⟨hpercent, heq, hpieces⟩ s hs
    exact ⟨hpercent s hs, heq s hs, fun h => hpieces ⟨s, hs, h⟩⟩
  · intro h
    exact ⟨fun s hs => (h s hs).1, fun s hs => (h s hs).2.1, fun ⟨s, hs, hpiece⟩ => (h s hs).2.2 hpiece⟩

variable {pre : Option Bytes} {names row row' : List Bytes} {key i j : ℕ} {groups : List Group} {spec : Keyspec}
  {rows : List (List Bytes)}

/-- The part of a path for the further keys. -/
def below (names row : List Bytes) (groups : List Group) : Bytes := (groups.flatMap (pair names row)).flatMap (46 :: ·)

def prefixText (pre : Option Bytes) : Bytes := (pre.map fun p => p ++ [46]).getD []

theorem path_eq : path pre names key row groups i =
    prefixText pre ++ (row.getD key [] ++ (below names row groups ++ 46 :: names.getD i [])) := by
  have htail : [46].intercalate (row.getD key [] :: (groups.flatMap (pair names row) ++ [names.getD i []])) =
      row.getD key [] ++ (below names row groups ++ 46 :: names.getD i []) := by
    rw [intercalate_eq_append, List.flatMap_append, List.flatMap_singleton, below]
  unfold path prefixText
  cases pre with
  | none => exact htail
  | some p =>
    rw [← htail, Option.toList_some, List.singleton_append, List.intercalate_cons_cons]
    rfl

theorem path_ne_nil : path pre names key row groups i ≠ [] := by
  rw [path_eq]
  simp

theorem below_cons (g : Group) : below names row (g :: groups) =
    46 :: (names.getD g.key [] ++ 46 :: (row.getD g.key [] ++ below names row groups)) := by
  simp [below, pair]

theorem below_append (groups more : List Group) :
    below names row (groups ++ more) = below names row groups ++ below names row more := by
  rw [below, List.flatMap_append, List.flatMap_append, below, below]

theorem path_of_prefix {groups groups' : List Group} (h : groups' <+: groups) :
    (path pre names key row groups' i).length ≤ (path pre names key row groups i).length ∧
      (path pre names key row groups' i = path pre names key row groups i ↔ groups' = groups) := by
  obtain ⟨more, rfl⟩ := h
  rw [path_eq, path_eq, below_append]
  constructor
  · simp only [List.length_append]
    omega
  · constructor
    · intro h
      cases more with
      | nil => rw [List.append_nil]
      | cons g more =>
        have hlen := congrArg List.length h
        rw [below_cons] at hlen
        simp only [List.length_append, List.length_cons] at hlen
        omega
    · intro h
      have hnone : below names row [] = [] := rfl
      rw [List.self_eq_append_right.mp h, hnone, List.append_nil]

theorem takeWhile_prefix_takeWhile {p q : Group → Bool} (hpq : ∀ g ∈ groups, p g = true → q g = true) :
    groups.takeWhile p <+: groups.takeWhile q ∧
      (groups.takeWhile p = groups.takeWhile q ↔ ∀ g ∈ groups.takeWhile q, p g = true) := by
  induction groups with
  | nil => simp
  | cons g groups ih =>
    rw [List.forall_mem_cons] at hpq
    obtain ⟨hpart, hsame⟩ := ih hpq.2
    by_cases hp : p g = true
    · have hq := hpq.1 hp
      rw [List.takeWhile_cons_of_pos hp, List.takeWhile_cons_of_pos hq, List.prefix_cons_inj, List.cons_inj_right,
        List.forall_mem_cons, hsame]
      exact ⟨hpart, (and_iff_right hp).symm⟩
    · rw [List.takeWhile_cons_of_neg hp]
      refine (and_iff_right List.nil_prefix).mpr ?_
      by_cases hq : q g = true
      · rw [List.takeWhile_cons_of_pos hq, List.forall_mem_cons]
        exact iff_of_false (List.cons_ne_nil _ _).symm fun h => hp h.1
      · rw [List.takeWhile_cons_of_neg hq]
        exact iff_of_true rfl nofun

def layout (pre : Option Bytes) (names : List Bytes) (spec : Keyspec) : Layout :=
  ⟨pre, true, names, spec.key, spec.groups.map Group.slave⟩

def found (spec : Keyspec) (i : ℕ) : List Group := spec.groups.takeWhile fun g => i ∈ g.kept

theorem getElem?_eq_some_getD {l : List Bytes} {k : ℕ} (h : k < l.length) : l[k]? = some (l.getD k []) := by
  rw [List.getD_eq_getElem?_getD, List.getElem?_eq_getElem h]
  rfl

theorem slaveKeys_map (hkeys : ∀ g ∈ groups, g.key < names.length) (hrow : row.length = names.length) :
    slaveKeys names row i (groups.map Group.slave) = some (below names row (groups.takeWhile fun g => i ∈ g.kept)) := by
  induction groups with
  | nil => rfl
  | cons g groups ih =>
    rw [List.forall_mem_cons] at hkeys
    have hmem : (i : ℤ) ∈ g.slave.vals ↔ i ∈ g.kept := List.mem_map_of_injective Nat.cast_injective
    have hkey : g.slave.key.toNat = g.key := Int.toNat_natCast _
    rw [List.map_cons, slaveKeys, hkey, getElem?_eq_some_getD hkeys.1, getElem?_eq_some_getD (hrow ▸ hkeys.1),
      ih hkeys.2]
    by_cases hi : i ∈ g.kept
    · have htake : (g :: groups).takeWhile (fun g => i ∈ g.kept) = g :: groups.takeWhile fun g => i ∈ g.kept :=
        List.takeWhile_cons_of_pos (decide_eq_true hi)
      rw [if_pos (hmem.mpr hi), htake, below_cons]
      simp
    · have htake : (g :: groups).takeWhile (fun g => i ∈ g.kept) = [] :=
        List.takeWhile_cons_of_neg (by rw [decide_eq_true_eq]; exact hi)
      rw [if_neg (mt hmem.mp hi), htake]
      rfl

theorem hdfKey_layout (hvalid : spec.Valid names.length) (hrow : row.length = names.length) (hi : i < names.length)
    (rowsn : ℕ) : (layout pre names spec).hdfKey rowsn row i = some (path pre names spec.key row (found spec i) i) := by
  unfold Layout.hdfKey layout
  dsimp only
  rw [if_pos (Int.natCast_nonneg _), Int.toNat_natCast, getElem?_eq_some_getD (hrow ▸ hvalid.key), Option.bind_some,
    if_pos rfl, slaveKeys_map hvalid.keys hrow, Option.bind_some, getElem?_eq_some_getD hi, path_eq]
  rfl

/-- A cell is stored at its place if and only if all its further keys are found and its path can be read. -/
theorem setCell_eq_some_iff (cs : ClearSilver) (hvalid : spec.Valid names.length) (hrow : row.length = names.length)
    (hi : i < names.length) (rowsn : ℕ) : setCell cs (layout pre names spec) ⟨rowsn, row, i⟩ =
      some (some ⟨place (path pre names spec.key row (leading spec i) i), row.getD i []⟩) ↔
      (∀ g ∈ leading spec i, i ∈ g.kept) ∧ Plain (path pre names spec.key row (leading spec i) i) := by
  obtain ⟨hpart, hsame⟩ : found spec i <+: leading spec i ∧
      (found spec i = leading spec i ↔ ∀ g ∈ leading spec i, decide (i ∈ g.kept) = true) :=
    takeWhile_prefix_takeWhile fun g _ h => decide_eq_true (Group.has_of_mem_kept (of_decide_eq_true h))
  simp only [decide_eq_true_eq] at hsame
  obtain ⟨hlen, hpath⟩ : (path pre names spec.key row (found spec i) i).length ≤
      (path pre names spec.key row (leading spec i) i).length ∧
      (path pre names spec.key row (found spec i) i = path pre names spec.key row (leading spec i) i ↔
        found spec i = leading spec i) := path_of_prefix hpart
  unfold setCell
  rw [hdfKey_layout hvalid hrow hi, Option.bind_some, getElem?_eq_some_getD (hrow ▸ hi), Option.bind_some,
    store_eq_some_iff cs hlen path_ne_nil, hpath, hsame]

theorem setCells_length {cs : ClearSilver} {l : Layout} {cells : List Cell} {writes : List Write}
    (h : setCells cs l cells = some writes) : writes.length ≤ cells.length := by
  induction cells generalizing writes with
  | nil =>
    obtain rfl := Option.some.inj h
    exact le_rfl
  | cons cell cells ih =>
    obtain ⟨write, -, h⟩ := Option.bind_eq_some_iff.mp h
    obtain ⟨writes, hwrites, rfl⟩ := Option.map_eq_some_iff.mp h
    have hle := ih hwrites
    have hone : write.toList.length ≤ 1 := by cases write <;> simp
    rw [List.length_append, List.length_cons]
    omega

theorem setCells_eq_some_iff {cs : ClearSilver} {l : Layout} {cells : List Cell} (write : Cell → Write) :
    setCells cs l cells = some (cells.map write) ↔ ∀ cell ∈ cells, setCell cs l cell = some (some (write cell)) := by
  induction cells with
  | nil => exact iff_of_true rfl nofun
  | cons cell cells ih =>
    rw [List.forall_mem_cons, ← ih]
    constructor
    · intro h
      obtain ⟨first, hfirst, h⟩ := Option.bind_eq_some_iff.mp h
      obtain ⟨writes, hwrites, h⟩ := Option.map_eq_some_iff.mp h
      cases first with
      | none =>
        have hlen := congrArg List.length h
        have hle := setCells_length hwrites
        rw [Option.toList_none, List.nil_append, List.length_map, List.length_cons] at hlen
        omega
      | some first =>
        obtain ⟨rfl, rfl⟩ := List.cons.inj h
        exact ⟨hfirst, hwrites⟩
    · rintro ⟨hfirst, hcells⟩
      rw [setCells, hfirst, hcells]
      rfl

theorem mem_cells {columns rowsn : ℕ} {cell : Cell} (h : cell ∈ cells columns rowsn rows) :
    cell.row ∈ rows ∧ cell.i < columns := by
  obtain ⟨r, hr, hcell⟩ := List.mem_flatMap.mp h
  obtain ⟨i, hi, rfl⟩ := List.mem_map.mp hcell
  exact ⟨List.fst_mem_of_mem_zipIdx hr, List.mem_range.mp hi⟩

theorem exists_mem_cells {columns : ℕ} (hrow : row ∈ rows) (hi : i < columns) (rowsn : ℕ) :
    ∃ n, ⟨n, row, i⟩ ∈ cells columns rowsn rows := by
  rw [← List.zipIdx_map_fst rowsn rows] at hrow
  obtain ⟨r, hr, rfl⟩ := List.mem_map.mp hrow
  exact ⟨r.2, List.mem_flatMap.mpr ⟨r, hr, List.mem_map.mpr ⟨i, List.mem_range.mpr hi, rfl⟩⟩⟩

theorem map_cells {columns rowsn : ℕ} (write : List Bytes → ℕ → Write) :
    (cells columns rowsn rows).map (fun cell => write cell.row cell.i) =
      rows.flatMap fun row => (List.range columns).map (write row) := by
  unfold cells
  rw [List.map_flatMap]
  conv_rhs => rw [← List.zipIdx_map_fst rowsn rows, List.flatMap_map]
  simp only [List.map_map]
  rfl

theorem atoi_text (hkey : spec.key < 2 ^ 31) : atoi spec.text = spec.key := by
  unfold Keyspec.text
  cases spec.groups with
  | nil => rw [List.map_nil, List.intercalate_singleton, atoi_printNat hkey]
  | cons g groups =>
    rw [List.map_cons, List.intercalate_cons_cons, List.append_assoc, List.singleton_append,
      atoi_printNat_append rfl hkey]

theorem length_le_of_mdbSetQrarray {cols : Bytes} (h : mdbSetQrarray cols = some names) : names.length ≤ qrNumMax := by
  unfold mdbSetQrarray at h
  dsimp only at h
  split at h
  · cases h
  · exact of_decide_eq_true (Option.filter_eq_some_iff.mp h).2

/-- All cells are stored at their places if and only if there are lines for all groups and each cell is. -/
theorem mdbSetRows_eq_some_iff (cs : ClearSilver) (children : ℕ) {cols : Bytes}
    (hcols : mdbSetQrarray cols = some names) (hdoc : Documented names spec rows) :
    mdbSetRows cs children (some cols) pre (some spec.text) rows = some (rows.flatMap fun row =>
      (List.range names.length).map fun i =>
        ⟨place (path pre names spec.key row (leading spec i) i), row.getD i []⟩) ↔
      spec.groups.length ≤ qrNumMax ∧ ∀ row ∈ rows, ∀ i < names.length,
        (∀ g ∈ leading spec i, i ∈ g.kept) ∧ Plain (path pre names spec.key row (leading spec i) i) := by
  have hfew : names.length ≤ 50 := length_le_of_mdbSetQrarray hcols
  have hatoi : atoi spec.text = spec.key := atoi_text (hdoc.valid.key.trans_le (hfew.trans (by decide)))
  have hused : (some spec.text).filter (fun s => atoi s < names.length) = some spec.text := by
    rw [Option.filter_some, hatoi, if_pos (decide_eq_true (Int.ofNat_lt.mpr hdoc.valid.key))]
  obtain ⟨hlines, hmany⟩ := decodeSlaves_text cs.split_eq hdoc.valid (hfew.trans (by decide))
  unfold mdbSetRows
  rw [Option.map_some, Option.getD_some, hcols, Option.bind_some]
  dsimp only
  rw [hused, Option.map_some, Option.map_some, Option.getD_some, Option.getD_some, hatoi]
  by_cases hgroups : spec.groups.length ≤ qrNumMax
  · rw [hlines hgroups, List.length_map, if_neg (not_lt.mpr hgroups), and_iff_right hgroups,
      ← map_cells (fun row i => ⟨place (path pre names spec.key row (leading spec i) i), row.getD i []⟩)]
    change setCells cs (layout pre names spec) _ = _ ↔ _
    rw [setCells_eq_some_iff]
    constructor
    · intro h row hrow i hi
      obtain ⟨n, hcell⟩ := exists_mem_cells hrow hi _
      exact (setCell_eq_some_iff cs hdoc.valid (hdoc.cells row hrow) hi n).mp (h _ hcell)
    · intro h cell hcell
      obtain ⟨hrow, hi⟩ := mem_cells hcell
      exact (setCell_eq_some_iff cs hdoc.valid (hdoc.cells _ hrow) hi _).mpr (h _ hrow _ hi)
  · rw [if_pos (hmany (not_le.mp hgroups))]
    exact iff_of_false nofun fun h => hgroups h.1

theorem Documented.plain (hdoc : Documented names spec rows) (hrow : row ∈ rows) {k : ℕ}
    (hk : k ∈ spec.key :: spec.groups.map Group.key) : Plain (row.getD k []) := by
  obtain ⟨hne, hdot, hpercent, heq⟩ := hdoc.keys row hrow k hk
  refine ⟨hpercent, heq, ?_⟩
  rw [List.splitOn_eq_singleton hdot, List.mem_singleton]
  exact hne.symm

theorem plain_path_iff (hdoc : Documented names spec rows) (hrow : row ∈ rows)
    (hgroups : ∀ g ∈ groups, g ∈ spec.groups) :
    Plain (path pre names spec.key row groups i) ↔
      (∀ s ∈ pre.toList, Plain s) ∧ (∀ g ∈ groups, Plain (names.getD g.key [])) ∧ Plain (names.getD i []) := by
  have hkey : Plain (row.getD spec.key []) := hdoc.plain hrow List.mem_cons_self
  have hvals : ∀ g ∈ groups, Plain (row.getD g.key []) := fun g hg =>
    hdoc.plain hrow (List.mem_cons_of_mem _ (List.mem_map_of_mem (hgroups g hg)))
  have hpairs : (∀ s ∈ groups.flatMap (pair names row), Plain s) ↔ ∀ g ∈ groups, Plain (names.getD g.key []) := by
    simp only [List.forall_mem_flatMap, pair, List.forall_mem_cons, List.not_mem_nil]
    exact ⟨fun h g hg => (h g hg).1, fun h g hg => ⟨h g hg, hvals g hg, nofun⟩⟩
  unfold path
  rw [plain_intercalate (by simp), List.forall_mem_append, List.forall_mem_cons, and_iff_right hkey,
    List.forall_mem_append, hpairs, List.forall_mem_singleton]

theorem stored_iff (hdoc : Documented names spec rows) :
    (∀ row ∈ rows, ∀ i < names.length,
      (∀ g ∈ leading spec i, i ∈ g.kept) ∧ Plain (path pre names spec.key row (leading spec i) i)) ↔
      (rows ≠ [] → ∀ s ∈ pre.toList ++ names, Plain s) ∧
        (rows ≠ [] → ∀ i < names.length, ∀ g ∈ leading spec i, i ∈ g.kept) := by
  have hleading : ∀ i, ∀ g ∈ leading spec i, g ∈ spec.groups := fun i g hg => List.takeWhile_subset _ hg
  constructor
  · intro h
    refine ⟨fun hne s hs => ?_, fun hne i hi => ?_⟩
    · obtain ⟨row, hrow⟩ := List.exists_mem_of_ne_nil rows hne
      rcases List.mem_append.mp hs with hs | hs
      · have hpath := (h row hrow spec.key hdoc.valid.key).2
        exact ((plain_path_iff hdoc hrow (hleading _)).mp hpath).1 s hs
      · obtain ⟨i, hi, rfl⟩ := List.mem_iff_getElem.mp hs
        have hname := ((plain_path_iff hdoc hrow (hleading _)).mp (h row hrow i hi).2).2.2
        rwa [List.getD_eq_getElem _ _ hi] at hname
    · obtain ⟨row, hrow⟩ := List.exists_mem_of_ne_nil rows hne
      exact (h row hrow i hi).1
  · rintro ⟨hplain, hkept⟩ row hrow i hi
    have hne : rows ≠ [] := List.ne_nil_of_mem hrow
    have hname : ∀ k < names.length, Plain (names.getD k []) := by
      intro k hk
      rw [List.getD_eq_getElem _ _ hk]
      exact hplain hne _ (List.mem_append_right _ (List.getElem_mem hk))
    refine ⟨hkept hne i hi, (plain_path_iff hdoc hrow (hleading i)).mpr ⟨?_, ?_, hname i hi⟩⟩
    · exact fun s hs => hplain hne s (List.mem_append_left _ hs)
    · exact fun g hg => hname _ (hdoc.valid.keys g (hleading i g hg))

theorem exists_below_eq_cons (t : Bytes) : ∃ rest, below names row groups ++ 46 :: t = 46 :: rest := by
  cases groups with
  | nil => exact ⟨t, rfl⟩
  | cons g groups =>
    rw [below_cons]
    exact ⟨_, rfl⟩

theorem below_append_inj {t t' : Bytes} (hrow : ∀ g ∈ groups, 46 ∉ row.getD g.key [])
    (hrow' : ∀ g ∈ groups, 46 ∉ row'.getD g.key []) :
    below names row groups ++ 46 :: t = below names row' groups ++ 46 :: t' ↔
      (∀ g ∈ groups, row.getD g.key [] = row'.getD g.key []) ∧ t = t' := by
  induction groups with
  | nil =>
    change 46 :: t = 46 :: t' ↔ _
    rw [List.cons_inj_right]
    exact (and_iff_right nofun).symm
  | cons g groups ih =>
    rw [List.forall_mem_cons] at hrow hrow'
    obtain ⟨rest, hrest⟩ : ∃ rest, below names row groups ++ 46 :: t = 46 :: rest := exists_below_eq_cons t
    obtain ⟨rest', hrest'⟩ : ∃ rest, below names row' groups ++ 46 :: t' = 46 :: rest := exists_below_eq_cons t'
    have hih := ih hrow.2 hrow'.2
    rw [hrest, hrest', List.cons_inj_right] at hih
    simp only [below_cons, List.cons_append, List.append_assoc]
    rw [hrest, hrest', List.cons_inj_right, List.append_cancel_left_eq, List.cons_inj_right,
      append_cons_inj hrow.1 hrow'.1, hih, List.forall_mem_cons, and_assoc]

theorem Agree.symm (h : Agree key groups row row') : Agree key groups row' row :=
  ⟨h.1.symm, fun g hg => (h.2 g hg).symm⟩

theorem path_append (groups more : List Group) : path pre names key row (groups ++ more) i =
    prefixText pre ++ (row.getD key [] ++ (below names row groups ++
      46 :: [46].intercalate (more.flatMap (pair names row) ++ [names.getD i []]))) := by
  have htail : below names row more ++ 46 :: names.getD i [] =
      46 :: [46].intercalate (more.flatMap (pair names row) ++ [names.getD i []]) := by
    cases more with
    | nil =>
      rw [List.flatMap_nil, List.nil_append, List.intercalate_singleton]
      rfl
    | cons g more => simp [below, pair, intercalate_eq_append]
  rw [path_eq, below_append, List.append_assoc, htail]

/-- Two rows are stored at one place if and only if they agree on the keys of the shorter path and the name behind it is
what the other path goes on with. -/
theorem path_eq_path_iff (hdoc : Documented names spec rows) (hrow : row ∈ rows) (hrow' : row' ∈ rows)
    {more : List Group} (hgroups : ∀ g ∈ groups, g ∈ spec.groups) :
    path pre names spec.key row (groups ++ more) i = path pre names spec.key row' groups j ↔
      Agree spec.key groups row row' ∧
        names.getD j [] = [46].intercalate (more.flatMap (pair names row) ++ [names.getD i []]) := by
  have hdot : ∀ row ∈ rows, ∀ g ∈ groups, 46 ∉ row.getD g.key [] := fun row hrow g hg =>
    (hdoc.keys row hrow _ (List.mem_cons_of_mem _ (List.mem_map_of_mem (hgroups g hg)))).2.1
  have hkey : ∀ row ∈ rows, 46 ∉ row.getD spec.key [] := fun row hrow => (hdoc.keys row hrow _ List.mem_cons_self).2.1
  rw [path_append, path_eq, List.append_cancel_left_eq]
  generalize [46].intercalate (more.flatMap (pair names row) ++ [names.getD i []]) = t
  obtain ⟨rest, hrest⟩ : ∃ rest, below names row groups ++ 46 :: t = 46 :: rest := exists_below_eq_cons t
  obtain ⟨rest', hrest'⟩ : ∃ rest, below names row' groups ++ 46 :: names.getD j [] = 46 :: rest :=
    exists_below_eq_cons _
  have hbelow : below names row groups ++ 46 :: t = below names row' groups ++ 46 :: names.getD j [] ↔
      (∀ g ∈ groups, row.getD g.key [] = row'.getD g.key []) ∧ t = names.getD j [] :=
    below_append_inj (hdot row hrow) (hdot row' hrow')
  rw [hrest, hrest', List.cons_inj_right] at hbelow
  rw [hrest, hrest', append_cons_inj (hkey row hrow) (hkey row' hrow'), hbelow, ← and_assoc, eq_comm (a := t)]
  rfl

theorem apart_iff (hdoc : Documented names spec rows) :
    (∀ row ∈ rows, ∀ row' ∈ rows, ∀ i < names.length, ∀ j < names.length,
      place (path pre names spec.key row (leading spec i) i) = place (path pre names spec.key row' (leading spec j) j) →
        Agree spec.key (leading spec i) row row') ↔
      ∀ row ∈ rows, ∀ row' ∈ rows, ∀ i < names.length, ∀ j < names.length, leading spec j <+: leading spec i →
        Agree spec.key (leading spec j) row row' →
          names.getD j [] = [46].intercalate
            (((leading spec i).drop (leading spec j).length).flatMap (pair names row) ++ [names.getD i []]) →
          Agree spec.key (leading spec i) row row' := by
  have hleading : ∀ i, ∀ g ∈ leading spec i, g ∈ spec.groups := fun i g hg => List.takeWhile_subset _ hg
  constructor
  · intro h row hrow row' hrow' i hi j hj hpart hagree hname
    refine h row hrow row' hrow' i hi j hj (congrArg place ?_)
    have hpath : path pre names spec.key row (leading spec j ++ (leading spec i).drop (leading spec j).length) i =
        path pre names spec.key row' (leading spec j) j :=
      (path_eq_path_iff hdoc hrow hrow' (hleading j)).mpr ⟨hagree, hname⟩
    rwa [List.prefix_iff_eq_append.mp hpart] at hpath
  · intro h row hrow row' hrow' i hi j hj hplace
    have hpath := place_injective hplace
    have hpart : ∀ i, leading spec i <+: spec.groups := fun i => List.takeWhile_prefix _
    rcases List.prefix_or_prefix_of_prefix (hpart i) (hpart j) with hfirst | hfirst
    · -- the other path goes on below the keys of this one
      rw [← List.prefix_iff_eq_append.mp hfirst, eq_comm, path_eq_path_iff hdoc hrow' hrow (hleading i)] at hpath
      exact hpath.1.symm
    · have happend := List.prefix_iff_eq_append.mp hfirst
      refine h row hrow row' hrow' i hi j hj hfirst ?_ ?_
      · rw [← happend, path_eq_path_iff hdoc hrow hrow' (hleading j)] at hpath
        exact hpath.1
      · rw [← happend, path_eq_path_iff hdoc hrow hrow' (hleading j)] at hpath
        exact hpath.2

theorem placed_iff_storable (cs : ClearSilver) (children : ℕ) {cols : Bytes} (hcols : mdbSetQrarray cols = some names)
    (hdoc : Documented names spec rows) : Placed cs children cols pre spec rows ↔ Storable pre names spec rows := by
  unfold Placed
  rw [hcols]
  simp only [Option.some.injEq, exists_eq_left']
  rw [mdbSetRows_eq_some_iff cs children hcols hdoc, stored_iff hdoc, apart_iff hdoc]
  constructor
  · rintro ⟨⟨hlines, hplain, hkept⟩, hapart⟩
    exact ⟨hlines, hplain, hkept, hapart⟩
  · rintro ⟨hlines, hplain, hkept, hapart⟩
    exact ⟨⟨hlines, hplain, hkept⟩, hapart⟩

/-- Rows are stored as the specification has it if and only if they are storable. -/
theorem placed_iff (cs : ClearSilver) (children : ℕ) (cols : Bytes) (pre : Option Bytes) (spec : Keyspec)
    (rows : List (List Bytes)) (hdoc : ∀ names, mdbSetQrarray cols = some names → Documented names spec rows) :
    Placed cs children cols pre spec rows ↔
      ∃ names, mdbSetQrarray cols = some names ∧ Storable pre names spec rows := by
  constructor
  · intro h
    obtain ⟨names, hcols, -⟩ := id h
    exact ⟨names, hcols, (placed_iff_storable cs children hcols (hdoc names hcols)).mp h⟩
  · rintro ⟨names, hcols, h⟩
    exact (placed_iff_storable cs children hcols (hdoc names hcols)).mpr h

/-- The text of a format, cut at its first `=`. -/
def cutAtEquals (text : Bytes) : Option Write :=
  if (place (text.takeWhile (· ≠ 61))).contains [] then none
  else some ⟨place (text.takeWhile (· ≠ 61)), (text.dropWhile (· ≠ 61)).tail⟩

theorem cutAtEquals_append {name : Bytes} (heq : 61 ∉ name) (value : Bytes) :
    cutAtEquals (name ++ 61 :: value) = if [] ∈ place name then none else some ⟨place name, value⟩ := by
  have hkeep : ∀ b ∈ name, decide (b ≠ 61) = true := fun b hb => decide_eq_true fun h => heq (h ▸ hb)
  have htake : (name ++ 61 :: value).takeWhile (· ≠ 61) = name := by
    rw [List.takeWhile_append_of_pos hkeep, List.takeWhile_cons_of_neg (by decide), List.append_nil]
  have hdrop : (name ++ 61 :: value).dropWhile (· ≠ 61) = 61 :: value := by
    rw [List.dropWhile_append_of_pos hkeep, List.dropWhile_cons_of_neg (by decide)]
  rw [cutAtEquals, htake, hdrop, List.tail_cons]
  exact if_congr List.contains_iff_mem rfl rfl

theorem bind_cutAtEquals {fmt arg name value : Bytes} (htext : printf fmt [.str arg] = some (name ++ 61 :: value))
    (heq : 61 ∉ name) : (printf fmt [.str arg]).bind cutAtEquals =
      if [] ∈ place name then none else some ⟨place name, value⟩ := by
  rw [htext, Option.bind_some, cutAtEquals_append heq]

/-- `string_array_split` and `hdf_set_valuef` as they are. -/
def clearSilver : ClearSilver where
  split := splitMax 59 qrNumMax
  split_eq := fun _ => rfl
  setValuef fmt arg := (printf fmt [.str arg]).bind cutAtEquals
  setValuef_eq := bind_cutAtEquals

/-- `snum,year,course,score`, with `0;1:1-3;2:3` -/
def studentCols : Bytes :=
  [115, 110, 117, 109, 44, 121, 101, 97, 114, 44, 99, 111, 117, 114, 115, 101, 44, 115, 99, 111, 114, 101]

def studentNames : List Bytes :=
  [[115, 110, 117, 109], [121, 101, 97, 114], [99, 111, 117, 114, 115, 101], [115, 99, 111, 114, 101]]

def studentSpec : Keyspec := ⟨0, [⟨1, [.range 1 3]⟩, ⟨2, [.num 3]⟩]⟩

def studentRows : List (List Bytes) :=
  [[[51, 53], [49, 57, 57, 49], [49], [56, 54]], [[51, 53], [49, 57, 57, 49], [50], [56, 54]],
    [[50, 55], [49, 57, 57, 49], [49], [55, 54]]]

theorem studentCols_names : mdbSetQrarray studentCols = some studentNames := by decide +kernel

theorem documented_students : Documented studentNames studentSpec studentRows :=
  ⟨by decide +kernel, ⟨by decide, by decide, by decide, by simp [studentSpec, studentNames, ListItem.Valid]⟩,
    by decide, by decide +kernel⟩

theorem storable_students : Storable (some [115]) studentNames studentSpec studentRows :=
  ⟨by decide, fun _ => by decide +kernel, fun _ => by decide +kernel, by decide +kernel⟩

theorem placed_students : Placed clearSilver 0 studentCols (some [115]) studentSpec studentRows :=
  (placed_iff clearSilver 0 studentCols (some [115]) studentSpec studentRows
    fun names h => by
      obtain rfl := Option.some.inj (studentCols_names.symm.trans h)
      exact documented_students).mpr ⟨studentNames, studentCols_names, storable_students⟩

/-- `A` to `Z` and `a` to `w` -/
def wideNames : List Bytes :=
  ((List.range 26).map (65 + ·) ++ (List.range 23).map (97 + ·)).map fun n => [UInt8.ofNat n]

def wideCols : Bytes := [44].intercalate wideNames

/-- `0;0:0-48` -/
def wideSpec : Keyspec := ⟨0, [⟨0, [.range 0 48]⟩]⟩

def wideRow : List Bytes := List.replicate 49 [120]

theorem wideCols_names : mdbSetQrarray wideCols = some wideNames := by decide +kernel

theorem documented_wide : Documented wideNames wideSpec [wideRow] :=
  ⟨by decide +kernel, ⟨by decide, by decide, by decide, by simp [wideSpec, wideNames, ListItem.Valid]⟩,
    by decide, by decide +kernel⟩

/-- The last column of the range is not found in the table. -/
theorem not_placed_wide : (mdbSetQrarray wideCols = some wideNames ∧ Documented wideNames wideSpec [wideRow]) ∧
    ¬ Placed clearSilver 0 wideCols (some [111]) wideSpec [wideRow] := by
  refine ⟨⟨wideCols_names, documented_wide⟩, fun h => ?_⟩
  have hstorable := (placed_iff_storable clearSilver 0 wideCols_names documented_wide).mp h
  have hlast : ¬ 48 ∈ Group.kept ⟨0, [.range 0 48]⟩ := by decide +kernel
  have hkept := hstorable.kept (List.cons_ne_nil _ _) 48 (by decide)
  exact hlast (hkept _ (by decide))

end Cmoon.RowPlacement
