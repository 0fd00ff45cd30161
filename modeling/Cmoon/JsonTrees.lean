import Cmoon.HdfTrees

/-! # Datasets as JSON

`mjson_asm_objs` makes an object or an array of the children of a node, and `mjson_str2hdf` puts a JSON value below a
node. json-c keeps the entries of an object in the order in which they are added, the last one of a name. -/
namespace Cmoon.JsonTrees
open DecimalText HdfTrees

/-- A `struct json_object*`; `null` is `NULL`. -/
inductive Json (D : Type)
  | null
  | boolean (b : Bool)
  | int (i : ℤ)
  | double (d : D)
  | string (s : Bytes)
  | array (items : List (Json D))
  | object (entries : List (Bytes × Json D))

def typeKey : Bytes := [116, 121, 112, 101]

def arrayType : Bytes := [97, 114, 114, 97, 121]

def intType : Bytes := [105, 110, 116]

variable {D : Type}

def mcsObjAttr (attrs : List (Bytes × Bytes)) (key : Bytes) : Option Bytes := attrs.lookup key

def jret (attrs : List (Bytes × Bytes)) : Json D :=
  if mcsObjAttr attrs typeKey = some arrayType then .array [] else .object []

/-- `json_object_array_add`, or `json_object_object_add`, which takes an entry of the same name out first. -/
def add (name : Bytes) (jso : Json D) : Json D → Json D
  | .array items => .array (items ++ [jso])
  | .object entries => .object (entries.filter (fun e => e.1 ≠ name) ++ [(name, jso)])
  | j => j

def leaf (attrs : List (Bytes × Bytes)) (val : Bytes) : Json D :=
  if mcsObjAttr attrs typeKey = some intType then .int (atoi val) else .string val

def asmLoop : Hdf → Json D → Json D
  | .null, out => out
  | .node name attrs value child next, out =>
    let out := match value with
      | some val => add name (leaf attrs val) out
      | none => out
    let out := if child ≠ .null then add name (asmLoop child (jret attrs)) out else out
    asmLoop next out

def mjsonAsmObjs (hdf : Node) : Json D := asmLoop hdf.child (jret hdf.attrs)

/-- What is called in json-c and libc: `json_tokener_parse`, and `sprintf` with `"%f"`. -/
structure Lib (D : Type) where
  parse : Bytes → Option (Json D)
  printDouble : D → Bytes

mutual

/-- `mjson_str2hdf`, where `parsed` stands for what is done with the text of a node for which there is no JSON value;
none when it does not return. -/
def str2hdf (lib : Lib D) (parsed : Bytes → Node → Option Node) : Json D → Node → Option Node
  | .null, node =>
    match node.value with
    | some s => if s = [] then some node else parsed s node
    | none => some node
  | .boolean b, node => some { node with value := some (printInt b.toNat) }
  | .int i, node => some { node with value := some (printInt i) }
  -- `tok` has 64 bytes
  | .double d, node =>
    if (lib.printDouble d).length < 64 then some { node with value := some (lib.printDouble d) } else none
  | .string s, node => some { node with value := some s }
  | .array items, node => str2hdfItems lib parsed 0 items node
  | .object entries, node => str2hdfEntries lib parsed entries node

/-- The loop over an array, from an index on. -/
def str2hdfItems (lib : Lib D) (parsed : Bytes → Node → Option Node) : ℕ → List (Json D) → Node → Option Node
  | _, [], node => some node
  | i, item :: items, node =>
    (str2hdf lib parsed item ((hdfGetObj node (printNat i)).getD .new)).bind fun cnode =>
      str2hdfItems lib parsed (i + 1) items (node.update (components (printNat i)) fun _ => cnode)

/-- The loop over an object. `hdf_get_node` has no node for a key with an empty component. -/
def str2hdfEntries (lib : Lib D) (parsed : Bytes → Node → Option Node) : List (Bytes × Json D) → Node → Option Node
  | [], node => some node
  | (key, val) :: entries, node =>
    if (components key).any List.isEmpty then str2hdfEntries lib parsed entries (node.update (components key) id)
    else
      (str2hdf lib parsed val ((hdfGetObj node key).getD .new)).bind fun cnode =>
        str2hdfEntries lib parsed entries (node.update (components key) fun _ => cnode)

end

/-- `mjson_str2hdf` with texts parsed so many levels deep. -/
def mjsonStr2hdf (lib : Lib D) : ℕ → Json D → Node → Option Node
  | 0, o, node => str2hdf lib (fun _ _ => none) o node
  | levels + 1, o, node =>
    str2hdf lib (fun s node =>
      match lib.parse s with
      | none | some .null => some node
      | some obj => mjsonStr2hdf lib levels obj node) o node

/-- The names of `n` nodes in an array -/
def indices (n : ℕ) : List Bytes := (List.range n).map printNat

/-- Children of an array have their indices for names. -/
def Indexed (attrs : List (Bytes × Bytes)) (child : Hdf) : Prop :=
  mcsObjAttr attrs typeKey = some arrayType → child.names = indices child.names.length

/-- Each node has either a value or children, the children of an array are named by their indices, and none is marked
as an integer. -/
def Representable : Hdf → Prop
  | .null => True
  | .node _ attrs value child next =>
    (value.isSome ↔ child = .null) ∧ mcsObjAttr attrs typeKey ≠ some intType ∧ Indexed attrs child ∧
      Representable child ∧ Representable next

/-- The names, order and values, without the attributes -/
def bare : Hdf → Hdf
  | .null => .null
  | .node name _ value child next => .node name [] value (bare child) (bare next)

def jsonOf (attrs : List (Bytes × Bytes)) (value : Option Bytes) (child : Hdf) : Json D :=
  match value with
  | some val => .string val
  | none => asmLoop child (jret attrs)

def entriesOf : Hdf → List (Bytes × Json D)
  | .null => []
  | .node name attrs value child next => (name, jsonOf attrs value child) :: entriesOf next

variable {lib : Lib D} {parsed : Bytes → Node → Option Node} {h k l : Hdf} {node : Node} {name : Bytes}
  {attrs : List (Bytes × Bytes)} {value : Option Bytes} {child next : Hdf} {entries : List (Bytes × Json D)}
  {items : List (Json D)}

theorem names_entriesOf (h : Hdf) : (entriesOf h : List (Bytes × Json D)).map Prod.fst = h.names := by
  induction h with
  | null => rfl
  | node name attrs value child next _ ih => rw [entriesOf, List.map_cons, ih, Hdf.names]

theorem asmLoop_node (hrep : Representable (.node name attrs value child next)) (out : Json D) :
    asmLoop (.node name attrs value child next) out = asmLoop next (add name (jsonOf attrs value child) out) := by
  obtain ⟨hvalue, hint, -, -, -⟩ := hrep
  cases value with
  | some val =>
    have hchild : child = .null := hvalue.mp rfl
    simp [asmLoop, jsonOf, leaf, hint, hchild]
  | none =>
    have hchild : child ≠ .null := fun hnull => absurd (hvalue.mpr hnull) Bool.false_ne_true
    simp [asmLoop, jsonOf, hchild]

theorem asmLoop_array (hrep : Representable h) :
    asmLoop h (.array items) = .array (items ++ (entriesOf h).map Prod.snd) := by
  induction h generalizing items with
  | null => simp [asmLoop, entriesOf]
  | node name attrs value child next _ ih =>
    rw [asmLoop_node hrep, add, ih hrep.2.2.2.2, entriesOf, List.map_cons, List.append_assoc, List.singleton_append]

theorem asmLoop_object (hrep : Representable h) (hnamed : h.WellNamed) (hfresh : ∀ e ∈ entries, e.1 ∉ h.names) :
    asmLoop h (.object entries) = .object (entries ++ entriesOf h) := by
  induction h generalizing entries with
  | null => simp [asmLoop, entriesOf]
  | node name attrs value child next _ ih =>
    simp only [Hdf.names, List.mem_cons, not_or] at hfresh
    have hall : entries.filter (fun e => e.1 ≠ name) = entries :=
      List.filter_eq_self.mpr fun e he => decide_eq_true (hfresh e he).1
    rw [asmLoop_node hrep, add, hall, ih hrep.2.2.2.2 hnamed.2.2.2.2, entriesOf, List.append_assoc,
      List.singleton_append]
    intro e he
    rcases List.mem_append.mp he with he | he
    · exact (hfresh e he).2
    · rw [List.mem_singleton] at he
      rw [he]
      exact hnamed.2.2.1

def append : Hdf → Hdf → Hdf
  | .null, k => k
  | .node name attrs value child next, k => .node name attrs value child (append next k)

theorem append_assoc : append (append h k) l = append h (append k l) := by
  induction h with
  | null => rfl
  | node name attrs value child next _ ih => rw [append, append, append, ih]

theorem names_append : (append h k).names = h.names ++ k.names := by
  induction h with
  | null => rfl
  | node name attrs value child next _ ih => rw [append, Hdf.names, Hdf.names, ih, List.cons_append]

theorem append_null : append h .null = h := by
  induction h with
  | null => rfl
  | node name attrs value child next _ ih => rw [append, ih]

/-- A node of a new name is put at the end. -/
theorem update_eq_append {f : Node → Node} (hname : name ∉ h.names) :
    h.update name f = append h (.node name (f .new).attrs (f .new).value (f .new).child .null) := by
  induction h with
  | null => rfl
  | node name' attrs value child next _ ih =>
    rw [Hdf.names, List.mem_cons, not_or] at hname
    rw [Hdf.update, if_neg (Ne.symm hname.1), append, ih hname.2]

theorem components_printNat (i : ℕ) : components (printNat i) = [printNat i] :=
  components_of_not_mem (printNat_ne_nil i) (notMem_printNat rfl i)

/-- The items of an array are put back like the entries of an object that are named by the indices. -/
theorem str2hdfItems_eq {i : ℕ} (hindex : entries.map Prod.fst = (List.range' i entries.length).map printNat) :
    str2hdfItems lib parsed i (entries.map Prod.snd) node = str2hdfEntries lib parsed entries node := by
  induction entries generalizing i node with
  | nil => rw [List.map_nil, str2hdfItems, str2hdfEntries]
  | cons e entries ih =>
    obtain ⟨key, val⟩ := e
    rw [List.map_cons, List.length_cons, List.range'_succ, List.map_cons, List.cons.injEq] at hindex
    obtain ⟨rfl, hindex⟩ := hindex
    have hcomponents : ¬ (components (printNat i)).any List.isEmpty := by
      rw [components_printNat]
      simpa using printNat_ne_nil i
    rw [List.map_cons, str2hdfItems, str2hdfEntries, if_neg hcomponents]
    simp only [ih hindex]

/-- What is built of the children of a node is put back behind the nodes that are there, when the entries are. -/
theorem str2hdf_asmLoop (hindexed : Indexed attrs h) (hrep : Representable h) (hnamed : h.WellNamed) :
    str2hdf lib parsed (asmLoop h (jret attrs)) node = str2hdfEntries lib parsed (entriesOf h) node := by
  rw [jret]
  split
  · rename_i harray
    have hindex : (entriesOf h : List (Bytes × Json D)).map Prod.fst =
        (List.range' 0 (entriesOf h : List (Bytes × Json D)).length).map printNat := by
      have hlen := congrArg List.length (names_entriesOf (D := D) h)
      rw [List.length_map] at hlen
      rw [names_entriesOf, hlen, ← List.range_eq_range']
      exact hindexed harray
    rw [asmLoop_array hrep, List.nil_append, str2hdf, str2hdfItems_eq hindex]
  · have hobject : (asmLoop h (.object []) : Json D) = .object ([] ++ entriesOf h) := asmLoop_object hrep hnamed nofun
    rw [hobject, List.nil_append, str2hdf]

theorem str2hdf_jsonOf (hrep : Representable (.node name attrs value child next)) (hnamed : child.WellNamed)
    (hback : str2hdfEntries lib parsed (entriesOf child) .new = some ⟨[], none, bare child⟩) :
    str2hdf lib parsed (jsonOf attrs value child) .new = some ⟨[], value, bare child⟩ := by
  obtain ⟨hvalue, -, hindexed, hchild, -⟩ := hrep
  cases value with
  | some val =>
    have hnull : child = .null := hvalue.mp rfl
    rw [jsonOf, str2hdf, hnull]
    rfl
  | none => rw [jsonOf, str2hdf_asmLoop hindexed hchild hnamed, hback]

theorem str2hdfEntries_entriesOf (hrep : Representable h) (hnamed : h.WellNamed)
    (hfresh : ∀ name ∈ node.child.names, name ∉ h.names) :
    str2hdfEntries lib parsed (entriesOf h) node = some { node with child := append node.child (bare h) } := by
  induction h generalizing node with
  | null => simp [entriesOf, str2hdfEntries, bare, append_null]
  | node name attrs value child next ihchild ihnext =>
    obtain ⟨hname, hdot, hnext, hnamedChild, hnamedNext⟩ := hnamed
    have hcnode : str2hdf lib parsed (jsonOf attrs value child) .new = some ⟨[], value, bare child⟩ :=
      str2hdf_jsonOf hrep hnamedChild (ihchild hrep.2.2.2.1 hnamedChild nofun)
    have hnew : name ∉ node.child.names := fun hmem => hfresh name hmem List.mem_cons_self
    have hnone : hdfGetObj node name = none := by
      rw [hdfGetObj, components_of_not_mem hname hdot, Node.obj, if_neg hname, Hdf.find_eq_none hnew]
      rfl
    rw [entriesOf, str2hdfEntries, components_of_not_mem hname hdot, if_neg (by simpa using hname), hnone,
      Option.getD_none, hcnode, Option.bind_some, Node.update, if_neg hname, update_eq_append hnew,
      ihnext hrep.2.2.2.2 hnamedNext, append_assoc]
    · rfl
    · intro name' hmem
      rw [names_append, List.mem_append] at hmem
      rcases hmem with hmem | hmem
      · exact fun hmem' => hfresh name' hmem (List.mem_cons_of_mem _ hmem')
      · rw [List.mem_singleton.mp hmem]
        exact hnext

/-- **A dataset survives the round trip**: the same names, order and values come back. -/
theorem mjsonStr2hdf_mjsonAsmObjs (lib : Lib D) (levels : ℕ) (hdf : Node) (as : List (Bytes × Bytes))
    (hnamed : hdf.child.WellNamed) (hindexed : Indexed hdf.attrs hdf.child) (hrep : Representable hdf.child) :
    mjsonStr2hdf lib levels (mjsonAsmObjs hdf) ⟨as, none, .null⟩ = some ⟨as, none, bare hdf.child⟩ := by
  have hback : ∀ parsed, str2hdf lib parsed (mjsonAsmObjs hdf) ⟨as, none, .null⟩ = some ⟨as, none, bare hdf.child⟩ := by
    intro parsed
    rw [mjsonAsmObjs, str2hdf_asmLoop hindexed hrep hnamed]
    exact str2hdfEntries_entriesOf hrep hnamed nofun
  cases levels <;> exact hback _

/-- `l [type=array] { 0 = x  1 { a = y } }` -/
def nested : Node :=
  ⟨[], none, .node [108] [(typeKey, arrayType)] none
    (.node [48] [] (some [120]) .null (.node [49] [] none (.node [97] [] (some [121]) .null .null) .null)) .null⟩

/-- An array with a text and an object -/
theorem mjsonStr2hdf_nested :
    mjsonStr2hdf (⟨fun _ => none, fun d => d⟩ : Lib Bytes) 0 (mjsonAsmObjs nested) .new =
      some ⟨[], none, bare nested.child⟩ :=
  mjsonStr2hdf_mjsonAsmObjs _ 0 nested [] (by simp [nested, Hdf.WellNamed, Hdf.names]) nofun (by
    have hindices : [[48], [49]] = (List.range 2).map printNat := by decide
    simpa [nested, Representable, Indexed, mcsObjAttr, typeKey, arrayType, intType, indices, Hdf.names] using hindices)

end Cmoon.JsonTrees
