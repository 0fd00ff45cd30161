import Cmoon.ReplacementTrees
import Mathlib.Logic.Function.Basic

/-! # Rendering with shared templates

A template keeps a pointer to its configuration data. `mtpl_InConfigRend_get` points it at the caller's data while it is
rendered. -/
namespace Cmoon.TemplateRendering
open DecimalText HdfTrees ReplacementTrees

/-- `_merge_attr` for one attribute -/
def setAttr (attr : Bytes × Bytes) : List (Bytes × Bytes) → List (Bytes × Bytes)
  | [] => [attr]
  | a :: attrs => if a.1 = attr.1 then (a.1, attr.2) :: attrs else a :: setAttr attr attrs

/-- The nodes of `src` put into those of `dest` -/
def copyNodes : Hdf → Hdf → Hdf
  | .null, dest => dest
  | .node name attrs value child next, dest =>
    copyNodes next (dest.update name fun d => ⟨attrs.foldl (fun as a => setAttr a as) d.attrs, value,
      copyNodes child d.child⟩)

def hdfCopy (dest : Node) (name : Bytes) (src : Node) : Node :=
  dest.update (components name) fun d => { d with child := copyNodes src.child d.child }

def mcsHdfCopyRep (crash : Bool) (stack : Bytes) (dst : Node) (src : Node) (data : Option Node) : Option Node :=
  mcsHdfRep crash stack data none (hdfCopy dst [] src)

def preDataset : Bytes := [68, 97, 116, 97, 115, 101, 116]

def preValueset : Bytes := [86, 97, 108, 117, 101, 115, 101, 116]

def preValuerep : Bytes := [86, 97, 108, 117, 101, 82, 101, 112, 108, 97, 99, 101]

def lenHashKey : ℕ := 128

/-- What a `HDF*` of a template points to: the data from its configuration, or the node `Dataset` of the input. -/
inductive Ref (P : Type)
  | own (p : P)
  | dataset
deriving DecidableEq

/-- What the hash has under the three names that are made of a key. -/
structure Datah (T : Type) where
  valueNode : Bytes → Option Node
  layoutNode : Bytes → Option Node
  layoutHash : Bytes → Option (Bytes → Option T)

/-- How one `cs_render` comes out: with an error, or with what is in `str`. It may set values in the data that it is
pointed at. -/
structure Outcome (E : Type) where
  result : Except E (Option Bytes)
  sets : Node → Node

structure State (T P : Type) where
  hdf : T → Option (Ref P)
  input : Node
  out : Node

/-- What `mtpl_InConfigRend_get` fails with. -/
inductive Failure (E : Type)
  | null
  | notFound (name layout key : Bytes)
  | render (e : E)
deriving DecidableEq

variable {T P E : Type}

/-- The data that a pointer points to. Those of the configuration are not written. -/
def deref (own : P → Node) (s : State T P) : Ref P → Node
  | .own p => own p
  | .dataset => (hdfGetObj s.input preDataset).getD .new

/-- A template is pointed at the input's data, into which its own have been copied. -/
def redirect [DecidableEq T] (own : P → Node) (cs : T) (s : State T P) : State T P :=
  let input := match s.hdf cs with
    | some obj => hdfCopy s.input preDataset (deref own s obj)
    | none => s.input
  { s with
    hdf := Function.update s.hdf cs (if (hdfGetObj input preDataset).isSome then some .dataset else none)
    input := input }

def csRender (cs : T) (o : Outcome E) (s : State T P) : State T P :=
  match s.hdf cs with
  | some .dataset => { s with input := s.input.update (components preDataset) o.sets }
  | _ => s

def layoutKey (name layout : Bytes) : Bytes := (name ++ 95 :: layout).take (lenHashKey - 1)

def layoutLoop [DecidableEq T] (own : P → Node) (layoutHash : Bytes → Option T) (key name : Bytes) :
    (ℕ → Outcome E) → List Bytes → State T P → Except (Failure E) Unit × State T P
  | _, [], s => (.ok (), s)
  | render, layout :: layouts, s =>
    match layoutHash (layoutKey name layout) with
    | none => (.error (.notFound name layout key), s)
    | some cs =>
      let obj := s.hdf cs
      let s := csRender cs (render 0) (redirect own cs s)
      match (render 0).result with
      | .error e => (.error (.render e), s)
      | .ok buf =>
        layoutLoop own layoutHash key name (fun i => render (i + 1)) layouts
          { s with hdf := Function.update s.hdf cs obj, out := hdfSetValue s.out layout buf }

def layouts (layoutNode : Node) (name : Bytes) : List Bytes := (hdfGetObj layoutNode name).elim [] fun n => n.child.names

/-- What is copied before the layouts: the input's values, and those of the configuration with the replacements. -/
def copyValues (crash : Bool) (stack : Bytes) (valueNode : Node) (name : Bytes) (s : State T P) :
    Option (State T P) :=
  let out := match hdfGetObj s.input preValueset with
    | some node => hdfCopy s.out [] node
    | none => s.out
  match hdfGetObj valueNode name with
  | some node =>
    (mcsHdfCopyRep crash stack out node (hdfGetObj s.input preValuerep)).map fun out => { s with out := out }
  | none => some { s with out := out }

def mtplInConfigRendGet [DecidableEq T] (crash : Bool) (stack : Bytes) (own : P → Node) (datah : Datah T)
    (render : ℕ → Outcome E) (key name : Bytes) (s : State T P) : Option (Except (Failure E) Unit × State T P) :=
  match datah.valueNode key, datah.layoutNode key, datah.layoutHash key with
  | some valueNode, some layoutNode, some layoutHash =>
    (copyValues crash stack valueNode name s).map
      (layoutLoop own layoutHash key name render (layouts layoutNode name))
  | _, _, _ => some (.error .null, s)

/-- The templates of the layouts up to the first layout that has none. -/
def found (layoutHash : Bytes → Option T) (name : Bytes) : List Bytes → List T
  | [] => []
  | layout :: layouts =>
    match layoutHash (layoutKey name layout) with
    | none => []
    | some cs => cs :: found layoutHash name layouts

def Datah.found (datah : Datah T) (key name : Bytes) : List T :=
  match datah.valueNode key, datah.layoutNode key, datah.layoutHash key with
  | some _, some layoutNode, some layoutHash => TemplateRendering.found layoutHash name (layouts layoutNode name)
  | _, _, _ => []

/-- The first render that fails, if any, is that of a template that points at the input's data anyway, or that has no
data while there are none in the input: none in it from the beginning, and none of a template rendered before. -/
def Harmless (render : ℕ → Outcome E) (css : List T) (hdf : T → Option (Ref P)) (has : Prop) : Prop :=
  ∀ k cs e, css[k]? = some cs → (∀ i < k, (render i).result.isOk) → (render k).result = .error e →
    hdf cs = some .dataset ∨ hdf cs = none ∧ ¬ has ∧ ∀ cs' ∈ css.take k, hdf cs' = none

variable {own : P → Node} {layoutHash : Bytes → Option T} {key name : Bytes} {render : ℕ → Outcome E} {cs : T}
  {css : List T} {hdf : T → Option (Ref P)} {has : Prop} {s s' : State T P} {o : Outcome E}

theorem harmless_nil : Harmless render [] hdf has := nofun

theorem harmless_cons_error {e : E} (h : (render 0).result = .error e) :
    Harmless render (cs :: css) hdf has ↔ hdf cs = some .dataset ∨ hdf cs = none ∧ ¬ has := by
  constructor
  · intro hall
    simpa using hall 0 cs e rfl nofun h
  · intro hfirst k cs' e' hcs hok he
    cases k with
    | zero =>
      cases hcs
      simpa using hfirst
    | succ k =>
      have := hok 0 (Nat.succ_pos k)
      rw [h] at this
      cases this

theorem harmless_cons_ok {buf : Option Bytes} (h : (render 0).result = .ok buf) :
    Harmless render (cs :: css) hdf has ↔
      Harmless (fun i => render (i + 1)) css hdf (has ∨ (hdf cs).isSome) := by
  have hshift : ∀ k, (∀ i < k + 1, (render i).result.isOk) ↔ ∀ i < k, (render (i + 1)).result.isOk := by
    intro k
    rw [Nat.forall_lt_succ_left', h]
    exact and_iff_right rfl
  have hnone : ∀ k, (¬ has ∧ ∀ cs' ∈ (cs :: css).take (k + 1), hdf cs' = none) ↔
      ¬ (has ∨ (hdf cs).isSome) ∧ ∀ cs' ∈ css.take k, hdf cs' = none := by
    intro k
    simp [and_assoc]
  constructor
  · intro hall k cs' e hcs hok he
    rw [← hnone]
    exact hall (k + 1) cs' e hcs ((hshift k).mpr hok) he
  · intro hall k cs' e hcs hok he
    cases k with
    | zero =>
      rw [h] at he
      cases he
    | succ k =>
      rw [hnone]
      exact hall k cs' e hcs ((hshift k).mp hok) he

theorem components_preDataset : components preDataset = [preDataset] :=
  components_of_not_mem (by decide) (by decide)

theorem hdfGetObj_update (n : Node) (f : Node → Node) :
    (hdfGetObj (n.update (components preDataset) f) preDataset).isSome := by
  rw [hdfGetObj, components_preDataset, Node.update, if_neg (by decide), Node.obj, if_neg (by decide),
    Hdf.find_update, if_pos rfl]
  rfl

theorem hdf_csRender : (csRender cs o s).hdf = s.hdf := by
  rw [csRender]
  split <;> rfl

theorem copyValues_frame {crash : Bool} {stack : Bytes} {valueNode : Node}
    (h : copyValues crash stack valueNode name s = some s') : s'.hdf = s.hdf ∧ s'.input = s.input := by
  rw [copyValues] at h
  split at h
  · obtain ⟨out, -, rfl⟩ := Option.map_eq_some_iff.mp h
    exact ⟨rfl, rfl⟩
  · cases h
    exact ⟨rfl, rfl⟩

variable [DecidableEq T]

/-- The input has the node after a redirection exactly when it had it, or the template has data of its own. -/
theorem has_redirect : (hdfGetObj (redirect own cs s).input preDataset).isSome ↔
    (hdfGetObj s.input preDataset).isSome ∨ (s.hdf cs).isSome := by
  rw [redirect]
  cases h : s.hdf cs with
  | none => simp
  | some obj => simp [hdfCopy, hdfGetObj_update]

theorem hdf_redirect : (redirect own cs s).hdf =
    Function.update s.hdf cs (if (hdfGetObj (redirect own cs s).input preDataset).isSome then some .dataset else none) :=
  rfl

theorem has_csRender : (hdfGetObj (csRender cs o (redirect own cs s)).input preDataset).isSome ↔
    (hdfGetObj (redirect own cs s).input preDataset).isSome := by
  rw [csRender, hdf_redirect, Function.update_self]
  by_cases h : (hdfGetObj (redirect own cs s).input preDataset).isSome
  · simp [h, hdfGetObj_update]
  · simp [h]

/-- The templates point where they did before exactly when no failing render has left one redirected. -/
theorem layoutLoop_hdf (names : List Bytes) :
    (layoutLoop own layoutHash key name render names s).2.hdf = s.hdf ↔
      Harmless render (found layoutHash name names) s.hdf (hdfGetObj s.input preDataset).isSome := by
  induction names generalizing render s with
  | nil => exact iff_of_true rfl harmless_nil
  | cons layout names ih =>
    rw [layoutLoop, found]
    cases hcs : layoutHash (layoutKey name layout) with
    | none => exact iff_of_true rfl harmless_nil
    | some cs =>
      dsimp only
      cases hresult : (render 0).result with
      | error e =>
        rw [harmless_cons_error hresult]
        simp only [hdf_csRender, hdf_redirect, Function.update_eq_self_iff, has_redirect]
        cases hobj : s.hdf cs with
        | none => simp
        | some obj => cases obj <;> simp
      | ok buf =>
        have hback : Function.update (csRender cs (render 0) (redirect own cs s)).hdf cs (s.hdf cs) = s.hdf := by
          rw [hdf_csRender, hdf_redirect, Function.update_idem, Function.update_eq_self]
        rw [harmless_cons_ok hresult, ← propext (has_csRender.trans has_redirect)]
        rw [hback]
        exact ih

/-- **The templates are as they were** when `mtpl_InConfigRend_get` returns, exactly when no render has failed, or the
one that has failed is of a template that was pointed at what it points to anyway. -/
theorem mtplInConfigRendGet_hdf_iff {crash : Bool} {stack : Bytes} {datah : Datah T}
    {r : Except (Failure E) Unit} (hrun : mtplInConfigRendGet crash stack own datah render key name s = some (r, s')) :
    s'.hdf = s.hdf ↔ Harmless render (datah.found key name) s.hdf (hdfGetObj s.input preDataset).isSome := by
  rw [mtplInConfigRendGet] at hrun
  rw [Datah.found]
  split at hrun
  · rename_i valueNode layoutNode layoutHash hvalue hlayout hhash
    obtain ⟨s₁, hcopy, hloop⟩ := Option.map_eq_some_iff.mp hrun
    obtain ⟨hhdf, hinput⟩ := copyValues_frame hcopy
    have hall : (layoutLoop own layoutHash key name render (layouts layoutNode name) s₁).2.hdf = s₁.hdf ↔ _ :=
      layoutLoop_hdf _
    rw [hloop, hhdf, hinput] at hall
    exact hall
  · cases hrun
    exact iff_of_true rfl harmless_nil

/-- One configuration `n` with one layout `l` -/
def oneLayout : Datah Unit where
  valueNode _ := some .new
  layoutNode _ := some ⟨[], none, .node [110] [] none (.node [108] [] none .null .null) .null⟩
  layoutHash _ := some fun _ => some ()

def ownData : State Unit Unit := ⟨fun _ => some (.own ()), .new, .new⟩

/-- When it renders, it is as it was. -/
theorem mtplInConfigRendGet_rendered :
    ∃ s', mtplInConfigRendGet (E := Unit) true [] (fun _ => .new) oneLayout (fun _ => ⟨.ok (some [120]), id⟩) [107] [110]
      ownData = some (.ok (), s') ∧ s'.hdf = ownData.hdf := by
  have hrun : mtplInConfigRendGet (E := Unit) true [] (fun _ => Node.new) oneLayout (fun _ => ⟨.ok (some [120]), id⟩)
    [107] [110] ownData = some (.ok (), _) := rfl
  refine ⟨_, hrun, (mtplInConfigRendGet_hdf_iff hrun).mpr ?_⟩
  intro k cs e hcs hok he
  cases he

/-- When it does not render, it goes on pointing at the caller's data. -/
theorem not_hdf_failed :
    ¬ ∀ r s', mtplInConfigRendGet true [] (fun _ => .new) oneLayout (fun _ => ⟨.error (), id⟩) [107] [110] ownData =
      some (r, s') → s'.hdf = ownData.hdf := by
  intro h
  have hhdf : some Ref.dataset = some (.own ()) := congrFun (h _ _ rfl) ()
  cases hhdf

end Cmoon.TemplateRendering
