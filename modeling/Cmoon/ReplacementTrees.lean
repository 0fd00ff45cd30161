import Cmoon.HdfTrees
import Cmoon.TextLists
import Cmoon.TextReplacement

/-! # Replacing in a dataset

`mcs_hdf_rep` goes through a tree of replacements, in which a section stands for the value at its path. It returns from
the loop over a level with what is below the first section of the level. -/
namespace Cmoon.ReplacementTrees
open DecimalText HdfTrees LeftmostReplacement TextReplacement
open TextLists (intercalate_concat)

def lenHdfKey : ℕ := 64

/-- The text in `myname`. `strncpy` puts no end to a name that fills the buffer, and `stack` is what is behind it up to
the next zero byte. -/
def myname (stack : Bytes) (name : Option Bytes) (child : Bytes) : Bytes :=
  match name with
  | some name => (name ++ 46 :: child).take (lenHdfKey - 1)
  | none => if child.length < lenHdfKey then child else child.take lenHdfKey ++ stack

/-- `mstr_repstr` with one pair. A `to` that is `NULL` is read at the first occurrence. -/
def repstr (crash : Bool) (srcstr : Buf) (from' : Bytes) (to' : Option Bytes) : Option Buf :=
  if to' = none ∧ crash = true ∧ (srcstr.bind (splitFirst from')).isSome then none
  else mstrRepstr crash srcstr [(from', to'.getD [])]

/-- The loop over a level, from a child on; none when it crashes or does not end. -/
def repLoop (crash : Bool) (stack : Bytes) : Hdf → Option Bytes → Node → Option Node
  | .null, _, dst => some dst
  | .node from' _ to' child next, name, dst =>
    if child ≠ .null then repLoop crash stack child (some (myname stack name from')) dst
    else
      (repstr crash (hdfGetValue dst (name.getD [])) from' to').bind fun repstr =>
        repLoop crash stack next name (hdfSetValue dst (name.getD []) repstr)

def mcsHdfRep (crash : Bool) (stack : Bytes) (data : Option Node) (name : Option Bytes) (dst : Node) : Option Node :=
  match data with
  | none => some dst
  | some data => repLoop crash stack data.child name dst

/-- A replacement in the value at a path. -/
structure Rep where
  path : List Bytes
  pair : Bytes × Bytes

def leaves : Hdf → List Bytes → List Rep
  | .null, _ => []
  | .node from' _ to' child next, path =>
    (if child ≠ .null then leaves child (path ++ [from']) else [⟨path, from', to'.getD []⟩]) ++ leaves next path

def repsAt (path : List Bytes) (reps : List Rep) : List (Bytes × Bytes) :=
  (reps.filter fun rep => rep.path = path).map Rep.pair

/-- All replacements are made, and nothing else is changed. -/
def Applied (data : Hdf) (dst dst' : Node) : Prop :=
  Keeps dst dst' ∧
  (∀ path s, dst.valueAt path = some s →
    ∃ t, dst'.valueAt path = some t ∧ ReplacesEach (repsAt path (leaves data [])) s t) ∧
  ∀ path, dst.valueAt path = none → dst'.valueAt path = none

def LeavesValued : Hdf → Prop
  | .null => True
  | .node _ _ value child next => (child = .null → value.isSome) ∧ LeavesValued child ∧ LeavesValued next

structure ReplacementTree where
  data : Node
  named : data.child.WellNamed
  valued : LeavesValued data.child

/-- The leaves that the loop comes to, with the paths it takes them to be for: those before the first section of a
level, and then those of that section. -/
def met (stack : Bytes) : Hdf → Option Bytes → List Rep
  | .null, _ => []
  | .node from' _ to' child next, name =>
    if child ≠ .null then met stack child (some (myname stack name from'))
    else ⟨components (name.getD []), from', to'.getD []⟩ :: met stack next name

variable {crash : Bool} {stack : Bytes} {name : Option Bytes} {data : Hdf} {dst dst' : Node} {path : List Bytes}
  {rep : Rep} {reps : List Rep} {p : Bytes × Bytes} {pairs : List (Bytes × Bytes)} {s t : Bytes}

def repAt (crash : Bool) (dst : Node) (rep : Rep) : Option Node :=
  (mstrRepstr crash (dst.valueAt rep.path) [rep.pair]).map fun repstr => dst.setAt rep.path repstr

theorem repLoop_eq (hvalued : LeavesValued data) :
    repLoop crash stack data name dst = (met stack data name).foldlM (repAt crash) dst := by
  induction data generalizing name dst with
  | null => rfl
  | node from' attrs to' child next ihchild ihnext =>
    obtain ⟨hto, hchild, hnext⟩ := hvalued
    rw [repLoop, met]
    split
    · exact ihchild hchild
    · rename_i hleaf
      obtain ⟨to', rfl⟩ := Option.isSome_iff_exists.mp (hto (not_not.mp hleaf))
      rw [List.foldlM_cons, repstr, if_neg (by simp), repAt]
      simp only [hdfGetValue, hdfSetValue, Option.getD_some, ihnext hnext, Option.bind_eq_bind, Option.bind_map]
      rfl

/-- A text after the replacements, if it is not empty at the beginning of any. -/
def replaced : List (Bytes × Bytes) → Bytes → Option Bytes
  | [], s => some s
  | p :: pairs, s => if s = [] then none else replaced pairs (replaceAll p.1 p.2 s)

theorem replaced_cons (p : Bytes × Bytes) (pairs : List (Bytes × Bytes)) (s : Bytes) :
    replaced (p :: pairs) s = (replaced [p] s).bind (replaced pairs) := by
  rw [replaced, replaced]
  split <;> rfl

theorem replaced_eq_some_iff :
    replaced pairs s = some t ↔ (∀ k < pairs.length, replaceEach (pairs.take k) s ≠ []) ∧ replaceEach pairs s = t := by
  induction pairs generalizing s with
  | nil => simp [replaced, replaceEach]
  | cons p pairs ih =>
    rw [replaced, replaceEach_cons, List.length_cons, Nat.forall_lt_succ_left']
    by_cases hs : s = []
    · simp [hs, replaceEach]
    · simp [hs, ih, replaceEach]

theorem mstrRepstr_single (hfrom : p.1 ≠ []) (value : Buf) :
    mstrRepstr crash value [p] =
      if value = some [] ∧ crash = true then none else some (value.bind (replaced [p])) := by
  cases value with
  | none => simp [mstrRepstr]
  | some s =>
    rw [mstrRepstr, if_neg (List.cons_ne_nil _ _), rounds, replaceLoop_eq hfrom (Nat.lt_succ_self _), Option.bind_some]
    by_cases hs : s = []
    · cases crash <;> simp [rounds, stringSet, replaced, hs]
    · simp [rounds, stringSet, stringAppend, replaced, hs]

theorem valueAt_repAt (hfrom : rep.pair.1 ≠ []) (h : repAt crash dst rep = some dst') :
    dst'.valueAt path = if rep.path = path then (dst.valueAt path).bind (replaced [rep.pair]) else dst.valueAt path := by
  rw [repAt, mstrRepstr_single hfrom] at h
  split at h
  · cases h
  · cases h
    rw [Node.valueAt_setAt]
    by_cases hpath : rep.path = path
    · subst hpath
      by_cases hnil : [] ∈ rep.path
      · simp [Node.valueAt_of_nil_mem hnil]
      · simp [hnil]
    · simp [hpath, Ne.symm hpath]

theorem keeps_repAt (h : repAt crash dst rep = some dst') : Keeps dst dst' := by
  obtain ⟨repstr, -, rfl⟩ := Option.map_eq_some_iff.mp h
  exact keeps_setAt

theorem repAt_isSome (crash : Bool) (hfrom : rep.pair.1 ≠ []) (h : dst.valueAt rep.path ≠ some []) :
    (repAt crash dst rep).isSome := by
  simp [repAt, mstrRepstr_single hfrom, h]

theorem repsAt_cons : repsAt path (rep :: reps) =
    if rep.path = path then rep.pair :: repsAt path reps else repsAt path reps := by
  by_cases h : rep.path = path <;> simp [repsAt, h]

theorem valueAt_foldlM (hfrom : ∀ rep ∈ reps, rep.pair.1 ≠ []) (h : reps.foldlM (repAt crash) dst = some dst') :
    dst'.valueAt path = (dst.valueAt path).bind (replaced (repsAt path reps)) := by
  induction reps generalizing dst with
  | nil =>
    cases h
    exact (Option.bind_fun_some _).symm
  | cons rep reps ih =>
    rw [List.forall_mem_cons] at hfrom
    rw [List.foldlM_cons, Option.bind_eq_bind, Option.bind_eq_some_iff] at h
    obtain ⟨dst₁, hstep, hrest⟩ := h
    rw [ih hfrom.2 hrest, valueAt_repAt hfrom.1 hstep, repsAt_cons]
    split
    · simp only [replaced_cons rep.pair (repsAt path reps), Option.bind_assoc]
    · rfl

theorem keeps_foldlM (h : reps.foldlM (repAt crash) dst = some dst') : Keeps dst dst' := by
  induction reps generalizing dst with
  | nil =>
    cases h
    exact .refl _
  | cons rep reps ih =>
    rw [List.foldlM_cons, Option.bind_eq_bind, Option.bind_eq_some_iff] at h
    obtain ⟨dst₁, hstep, hrest⟩ := h
    exact (keeps_repAt hstep).trans (ih hrest)

/-- No replacement crashes when none begins with an empty text. -/
theorem foldlM_isSome (crash : Bool) (hfrom : ∀ rep ∈ reps, rep.pair.1 ≠ [])
    (h : ∀ path s, dst.valueAt path = some s → (replaced (repsAt path reps) s).isSome) :
    (reps.foldlM (repAt crash) dst).isSome := by
  induction reps generalizing dst with
  | nil => rfl
  | cons rep reps ih =>
    rw [List.forall_mem_cons] at hfrom
    have hfed : dst.valueAt rep.path ≠ some [] := by
      intro hempty
      have := h rep.path [] hempty
      rw [repsAt_cons, if_pos rfl] at this
      cases this
    obtain ⟨dst₁, hstep⟩ := Option.isSome_iff_exists.mp (repAt_isSome crash hfrom.1 hfed)
    rw [List.foldlM_cons, hstep]
    refine ih hfrom.2 fun path s hs => ?_
    rw [valueAt_repAt hfrom.1 hstep] at hs
    have hall := h path
    rw [repsAt_cons] at hall
    split at hs
    · rename_i hpath
      obtain ⟨s₀, hs₀, hs⟩ := Option.bind_eq_some_iff.mp hs
      have := hall s₀ hs₀
      rwa [if_pos hpath, replaced_cons, hs] at this
    · rename_i hpath
      have := hall s hs
      rwa [if_neg hpath] at this

theorem leaves_from_ne_nil (hnamed : data.WellNamed) (path : List Bytes) : ∀ rep ∈ leaves data path, rep.pair.1 ≠ [] := by
  induction data generalizing path with
  | null => simp [leaves]
  | node from' attrs to' child next ihchild ihnext =>
    obtain ⟨hname, -, -, hchild, hnext⟩ := hnamed
    rw [leaves, List.forall_mem_append]
    refine ⟨?_, ihnext hnext path⟩
    split
    · exact ihchild hchild _
    · simpa using hname

theorem met_from_ne_nil (stack : Bytes) (hnamed : data.WellNamed) (name : Option Bytes) :
    ∀ rep ∈ met stack data name, rep.pair.1 ≠ [] := by
  induction data generalizing name with
  | null => simp [met]
  | node from' attrs to' child next ihchild ihnext =>
    obtain ⟨hname, -, -, hchild, hnext⟩ := hnamed
    rw [met]
    split
    · exact ihchild hchild _
    · exact List.forall_mem_cons.mpr ⟨hname, ihnext hnext name⟩

theorem repsAt_from_ne_nil (h : ∀ rep ∈ reps, rep.pair.1 ≠ []) : ∀ p ∈ repsAt path reps, p.1 ≠ [] := by
  intro p hp
  obtain ⟨rep, hrep, rfl⟩ := List.mem_map.mp hp
  exact h rep (List.mem_of_mem_filter hrep)

theorem exists_applied_iff (r : ReplacementTree) :
    (∃ dst', mcsHdfRep crash stack (some r.data) none dst = some dst' ∧ Applied r.data.child dst dst') ↔
      ∀ path s, dst.valueAt path = some s →
        replaced (repsAt path (met stack r.data.child none)) s =
          some (replaceEach (repsAt path (leaves r.data.child [])) s) := by
  have hmet := met_from_ne_nil stack r.named none
  have hall := leaves_from_ne_nil r.named []
  simp only [mcsHdfRep, repLoop_eq r.valued]
  constructor
  · rintro ⟨dst', hrun, -, hvalues, -⟩ path s hs
    obtain ⟨t, ht, hreps⟩ := hvalues path s hs
    rw [valueAt_foldlM hmet hrun, hs, Option.bind_some] at ht
    rw [ht, (replacesEach_iff (repsAt_from_ne_nil hall)).mp hreps]
  · intro h
    obtain ⟨dst', hrun⟩ := Option.isSome_iff_exists.mp
      (foldlM_isSome crash hmet fun path s hs => by rw [h path s hs, Option.isSome_some])
    refine ⟨dst', hrun, keeps_foldlM hrun, fun path s hs => ?_, fun path hnone => ?_⟩
    · refine ⟨_, ?_, (replacesEach_iff (repsAt_from_ne_nil hall)).mpr rfl⟩
      rw [valueAt_foldlM hmet hrun, hs, Option.bind_some, h path s hs]
    · rw [valueAt_foldlM hmet hrun, hnone, Option.bind_none]

/-- No replacement of these in the value at a path begins with an empty text. -/
theorem fed_iff (hfrom : ∀ rep ∈ reps, rep.pair.1 ≠ []) :
    (∀ k < (repsAt path reps).length, ¬ ReplacesEach ((repsAt path reps).take k) s []) ↔
      ∀ k < (repsAt path reps).length, replaceEach ((repsAt path reps).take k) s ≠ [] :=
  forall₂_congr fun k _ => not_congr (replacesEach_take_iff (repsAt_from_ne_nil hfrom) k)

/-- **All replacements are made** exactly when, on each value of the dataset, those that the loop comes to do what all
do, and none of them begins with an empty text. -/
theorem mcsHdfRep_iff (crash : Bool) (stack : Bytes) (r : ReplacementTree) (dst : Node) :
    (∃ dst', mcsHdfRep crash stack (some r.data) none dst = some dst' ∧ Applied r.data.child dst dst') ↔
      ∀ path s, dst.valueAt path = some s →
        (∀ k < (repsAt path (met stack r.data.child none)).length,
          ¬ ReplacesEach ((repsAt path (met stack r.data.child none)).take k) s []) ∧
        ∀ t, ReplacesEach (repsAt path (met stack r.data.child none)) s t ↔
          ReplacesEach (repsAt path (leaves r.data.child [])) s t := by
  have hmet := met_from_ne_nil stack r.named none
  have hall := leaves_from_ne_nil r.named []
  rw [exists_applied_iff]
  refine forall_congr' fun path => forall₂_congr fun s _ => ?_
  rw [fed_iff hmet, replaced_eq_some_iff]
  simp only [replacesEach_iff (repsAt_from_ne_nil hmet), replacesEach_iff (repsAt_from_ne_nil hall)]
  exact and_congr_right fun _ => ⟨fun h t => by rw [h], fun h => (h _).mpr rfl⟩

/-- `a { x = y }` and `b { x = y }` -/
def twoSections : Node :=
  ⟨[], none, .node [97] [] none (.node [120] [] (some [121]) .null .null)
    (.node [98] [] none (.node [120] [] (some [121]) .null .null) .null)⟩

/-- `a = x` and `b = x` -/
def twoValues : Node := ⟨[], none, .node [97] [] (some [120]) .null (.node [98] [] (some [120]) .null .null)⟩

/-- The loop does not come to the second of two sections. -/
theorem not_applied_second :
    ¬ ∃ dst', mcsHdfRep true [] (some twoSections) none twoValues = some dst' ∧
      Applied twoSections.child twoValues dst' := by
  rintro ⟨dst', hrun, -, hvalues, -⟩
  have hdst : mcsHdfRep true [] (some twoSections) none twoValues =
      some ⟨[], none, .node [97] [] (some [121]) .null (.node [98] [] (some [120]) .null .null)⟩ := by decide
  cases hdst.symm.trans hrun
  obtain ⟨t, ht, hreps⟩ := hvalues [[98]] [120] (by decide)
  cases ht
  rw [replacesEach_iff (by decide)] at hreps
  exact absurd hreps (by decide)

/-- The text of a path, which is that of the name behind which the loop puts the names of a level. -/
def dotted (path : List Bytes) : Option Bytes := if path = [] then none else some (List.intercalate [46] path)

/-- Each level has at most one section, behind its leaves, and the names fit behind a text of length `len`. -/
def Chained : ℕ → Hdf → Prop
  | _, .null => True
  | len, .node name _ _ child next =>
    if child ≠ .null then next = .null ∧ len + name.length < lenHdfKey ∧ Chained (len + name.length + 1) child
    else Chained len next

theorem components_dotted (hdot : ∀ c ∈ path, 46 ∉ c) (hne : ∀ c ∈ path, c ≠ []) :
    components ((dotted path).getD []) = path := by
  rw [dotted]
  split
  · rename_i hnil
    exact hnil.symm
  · rename_i hpath
    rw [Option.getD_some, components, List.splitOn_intercalate 46 hdot hpath, if_neg]
    obtain ⟨c, path, rfl⟩ := List.exists_cons_of_ne_nil hpath
    by_cases hnil : path = []
    · simp [hnil, hne]
    · simp [List.intercalate_cons_of_ne_nil hnil]

/-- The length of the text before the names of a level -/
def prefixLen (path : List Bytes) : ℕ := (dotted path).elim 0 fun name => name.length + 1

theorem myname_dotted {c : Bytes} (hlen : prefixLen path + c.length < lenHdfKey) :
    some (myname stack (dotted path) c) = dotted (path ++ [c]) := by
  by_cases hpath : path = []
  · subst hpath
    have hc : c.length < lenHdfKey := by simpa [prefixLen, dotted] using hlen
    simp [dotted, myname, hc]
  · have hfits : (List.intercalate [46] path ++ 46 :: c).length ≤ lenHdfKey - 1 := by
      simp only [prefixLen, dotted, if_neg hpath, Option.elim_some] at hlen
      simp only [List.length_append, List.length_cons]
      omega
    simp [dotted, myname, hpath, List.take_of_length_le hfits, intercalate_concat]

theorem prefixLen_concat {c : Bytes} : prefixLen (path ++ [c]) = prefixLen path + c.length + 1 := by
  by_cases hpath : path = []
  · simp [prefixLen, dotted, hpath]
  · simp only [prefixLen, dotted, if_neg hpath, intercalate_concat 46 hpath]
    simp
    omega

theorem met_eq_leaves (hnamed : data.WellNamed) (hchained : Chained (prefixLen path) data) (hdot : ∀ c ∈ path, 46 ∉ c)
    (hne : ∀ c ∈ path, c ≠ []) : met stack data (dotted path) = leaves data path := by
  induction data generalizing path with
  | null => rfl
  | node from' attrs to' child next ihchild ihnext =>
    obtain ⟨hname, hnodot, -, hchild, hnext⟩ := hnamed
    rw [Chained] at hchained
    rw [met, leaves]
    split
    · rename_i hsection
      rw [if_pos hsection] at hchained
      obtain ⟨rfl, hlen, hbelow⟩ := hchained
      rw [myname_dotted hlen, leaves, List.append_nil]
      rw [← prefixLen_concat] at hbelow
      exact ihchild hchild hbelow (List.forall_mem_append.mpr ⟨hdot, by simpa using hnodot⟩)
        (List.forall_mem_append.mpr ⟨hne, by simpa using hname⟩)
    · rename_i hleaf
      rw [if_neg hleaf] at hchained
      rw [components_dotted hdot hne, ihnext hnext hchained hdot hne, List.singleton_append]

/-- All replacements of such a tree are made in a dataset whose values are not empty at the beginning of any. -/
theorem applied_of_chained (r : ReplacementTree) (hchained : Chained 0 r.data.child) (dst : Node)
    (hfed : ∀ path s, dst.valueAt path = some s → ∀ k < (repsAt path (leaves r.data.child [])).length,
      ¬ ReplacesEach ((repsAt path (leaves r.data.child [])).take k) s []) :
    ∃ dst', mcsHdfRep crash stack (some r.data) none dst = some dst' ∧ Applied r.data.child dst dst' := by
  have hall : met stack r.data.child (dotted []) = leaves r.data.child [] := met_eq_leaves r.named hchained nofun nofun
  have hmet : met stack r.data.child none = leaves r.data.child [] := hall
  refine (exists_applied_iff r).mpr fun path s hs => ?_
  rw [hmet, replaced_eq_some_iff]
  exact ⟨(fed_iff (leaves_from_ne_nil r.named [])).mp (hfed path s hs), rfl⟩

end Cmoon.ReplacementTrees
