import Cmoon.DecimalText

/-! # Dataset trees

The nodes of a ClearSilver dataset with their attributes, values and children. A node is found, and made when it is
not there, under the components of a dotted name. Links between nodes are not kept. -/
namespace Cmoon.HdfTrees
open DecimalText

/-- A node with those next to it, from a `HDF*`; `null` is `NULL`. -/
inductive Hdf
  | null
  | node (name : Bytes) (attrs : List (Bytes × Bytes)) (value : Option Bytes) (child next : Hdf)
deriving DecidableEq

/-- What a node has besides its name. -/
structure Node where
  attrs : List (Bytes × Bytes)
  value : Option Bytes
  child : Hdf
deriving DecidableEq

def Node.new : Node := ⟨[], none, .null⟩

def Hdf.names : Hdf → List Bytes
  | .null => []
  | .node name _ _ _ next => name :: next.names

def Hdf.find (c : Bytes) : Hdf → Option Node
  | .null => none
  | .node name attrs value child next => if name = c then some ⟨attrs, value, child⟩ else next.find c

/-- A change to the first node of a name, which is put at the end when there is none. -/
def Hdf.update (c : Bytes) (f : Node → Node) : Hdf → Hdf
  | .null => .node c (f .new).attrs (f .new).value (f .new).child .null
  | .node name attrs value child next =>
    if name = c then
      .node name (f ⟨attrs, value, child⟩).attrs (f ⟨attrs, value, child⟩).value (f ⟨attrs, value, child⟩).child next
    else .node name attrs value child (next.update c f)

/-- What the names in a dataset are like: no node is put under an empty component, a dot is between components, and no
second node of a name is made. -/
def Hdf.WellNamed : Hdf → Prop
  | .null => True
  | .node name _ _ child next =>
    name ≠ [] ∧ 46 ∉ name ∧ name ∉ next.names ∧ child.WellNamed ∧ next.WellNamed

/-- The components of a name; the empty name is that of the node itself. -/
def components (name : Bytes) : List Bytes := if name = [] then [] else name.splitOn 46

/-- The node at the components. None has an empty name. -/
def Node.obj : List Bytes → Node → Option Node
  | [], n => some n
  | c :: path, n => if c = [] then none else (n.child.find c).bind (Node.obj path)

/-- A change to the node at the components, which is made, with those above it, when it is not there. Nothing is done
below an empty component. -/
def Node.update : List Bytes → (Node → Node) → Node → Node
  | [], f, n => f n
  | c :: path, f, n => if c = [] then n else { n with child := n.child.update c (Node.update path f) }

def Node.valueAt (path : List Bytes) (n : Node) : Option Bytes := (n.obj path).bind Node.value

def Node.setAt (path : List Bytes) (value : Option Bytes) : Node → Node :=
  Node.update path fun n => { n with value := value }

def hdfGetObj (n : Node) (name : Bytes) : Option Node := n.obj (components name)

/-- `hdf_get_value` with the default `NULL` -/
def hdfGetValue (n : Node) (name : Bytes) : Option Bytes := n.valueAt (components name)

def hdfSetValue (n : Node) (name : Bytes) (value : Option Bytes) : Node := n.setAt (components name) value

variable {c c' name : Bytes} {f : Node → Node} {h : Hdf} {n n' n'' m : Node} {path path' : List Bytes}
  {value : Option Bytes}

theorem components_of_not_mem (hname : name ≠ []) (hdot : 46 ∉ name) : components name = [name] := by
  rw [components, if_neg hname, List.splitOn_eq_singleton hdot]

theorem Hdf.find_update : (h.update c f).find c' = if c' = c then some (f ((h.find c).getD .new)) else h.find c' := by
  induction h with
  | null =>
    by_cases hc : c' = c
    · simp [update, find, hc]
    · simp [update, find, hc, Ne.symm hc]
  | node name attrs value child next _ ih =>
    by_cases hname : name = c
    · by_cases hc : c' = c
      · simp [update, find, hname, hc]
      · simp [update, find, hname, hc, Ne.symm hc]
    · by_cases hc : c' = c
      · simpa [update, find, hname, hc] using ih
      · simp [update, find, hname, hc, ih]

theorem Hdf.names_prefix_update : h.names <+: (h.update c f).names := by
  induction h with
  | null => exact List.nil_prefix
  | node name attrs value child next _ ih =>
    rw [update]
    split
    · exact List.prefix_rfl
    · exact (List.prefix_cons_inj name).mpr ih

theorem Hdf.find_eq_none (hc : c ∉ h.names) : h.find c = none := by
  induction h with
  | null => rfl
  | node name attrs value child next _ ih =>
    rw [names, List.mem_cons, not_or] at hc
    rw [find, if_neg (Ne.symm hc.1), ih hc.2]

theorem Node.valueAt_nil : n.valueAt [] = n.value := rfl

theorem Node.valueAt_cons :
    n.valueAt (c :: path) = if c = [] then none else (n.child.find c).bind (Node.valueAt path) := by
  rw [valueAt, obj]
  split
  · rfl
  · exact Option.bind_assoc _ _ _

theorem Node.valueAt_new : new.valueAt path = none := by
  cases path with
  | nil => rfl
  | cons c path => simp [valueAt_cons, new, Hdf.find]

/-- A value is set at its path and nowhere else, and at no path with an empty component. -/
theorem Node.valueAt_setAt :
    (n.setAt path value).valueAt path' = if path' = path ∧ [] ∉ path then value else n.valueAt path' := by
  induction path generalizing n path' with
  | nil =>
    cases path' with
    | nil => simp [setAt, update, valueAt_nil]
    | cons c' path' => simp [setAt, update, valueAt_cons]
  | cons c path ih =>
    by_cases hc : c = []
    · simp [setAt, update, hc]
    · rw [setAt, update, if_neg hc]
      cases path' with
      | nil => simp [valueAt_nil]
      | cons c' path' =>
        rw [valueAt_cons, valueAt_cons, Hdf.find_update]
        by_cases hc' : c' = c
        · subst hc'
          have hget : ((n.child.find c').getD new).valueAt path' = (n.child.find c').bind (valueAt path') := by
            cases n.child.find c' with
            | none => exact valueAt_new
            | some m => rfl
          have hset : (((n.child.find c').getD new).setAt path value).valueAt path' = _ := ih
          rw [setAt] at hset
          simp [hc, hset, hget, Ne.symm hc]
        · simp [hc']

theorem Node.valueAt_of_nil_mem (hpath : [] ∈ path) : n.valueAt path = none := by
  induction path generalizing n with
  | nil => exact absurd hpath List.not_mem_nil
  | cons c path ih =>
    rw [valueAt_cons]
    by_cases hc : c = []
    · rw [if_pos hc]
    · have hrest : [] ∈ path := (List.mem_cons.mp hpath).resolve_left (Ne.symm hc)
      rw [if_neg hc, Option.bind_eq_none_iff]
      exact fun m _ => ih hrest

def Keeps (n n' : Node) : Prop :=
  ∀ path m, n.obj path = some m → ∃ m', n'.obj path = some m' ∧ m'.attrs = m.attrs ∧ m.child.names <+: m'.child.names

theorem Keeps.refl (n : Node) : Keeps n n := fun _ m hm => ⟨m, hm, rfl, List.prefix_rfl⟩

theorem Keeps.trans (h : Keeps n n') (h' : Keeps n' n'') : Keeps n n'' := by
  intro path m hm
  obtain ⟨m', hm', hattrs, hnames⟩ := h path m hm
  obtain ⟨m'', hm'', hattrs', hnames'⟩ := h' path m' hm'
  exact ⟨m'', hm'', hattrs'.trans hattrs, hnames.trans hnames'⟩

theorem keeps_setAt : Keeps n (n.setAt path value) := by
  intro path' m hm
  induction path generalizing n path' with
  | nil =>
    cases path' with
    | nil =>
      cases hm
      exact ⟨_, rfl, rfl, List.prefix_rfl⟩
    | cons c' path' => exact ⟨m, hm, rfl, List.prefix_rfl⟩
  | cons c path ih =>
    by_cases hc : c = []
    · rw [Node.setAt, Node.update, if_pos hc]
      exact ⟨m, hm, rfl, List.prefix_rfl⟩
    · rw [Node.setAt, Node.update, if_neg hc]
      cases path' with
      | nil =>
        cases hm
        exact ⟨_, rfl, rfl, Hdf.names_prefix_update⟩
      | cons c' path' =>
        rw [Node.obj] at hm ⊢
        by_cases hc' : c' = c
        · subst hc'
          rw [if_neg hc, Option.bind_eq_some_iff] at hm
          obtain ⟨k, hk, hm⟩ := hm
          rw [if_neg hc, Hdf.find_update, if_pos rfl, hk]
          exact ih _ hm
        · rw [Hdf.find_update, if_neg hc']
          exact ⟨m, hm, rfl, List.prefix_rfl⟩

end Cmoon.HdfTrees
