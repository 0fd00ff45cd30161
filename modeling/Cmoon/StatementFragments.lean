import Cmoon.StatementTexts
import Cmoon.TextLists

/-! # Fragments of statements

The builders put each line with a value behind a separator, and write the value as its type asks for. Here the texts are
as they are appended, for lines with any attributes. -/
namespace Cmoon.StatementFragments
open DecimalText Datasets ExceptResults TextLists
open StatementBuilding (ColumnType)
open StatementTexts (ascii mstrRealEscapeString)

/-- A line of a column list, with its attributes as they are written. -/
structure ColSpec where
  name : String
  col : Bytes
  require : Option Bytes
  maxlen : Option Bytes
  type : Option Bytes

inductive FragmentError where
  | require (name : String) (type : Option Bytes)
  | strLen
  deriving DecidableEq

def quoted (val : Bytes) : Bytes := ascii "'" ++ mstrRealEscapeString val ++ ascii "'"

/-- A line without a type is a `str`. -/
def isStr (spec : ColSpec) : Bool := spec.type = none || spec.type = some (ascii "str")

section Builders
variable (printFloat : Bytes → Bytes)

def upcolText (spec : ColSpec) (val : Bytes) : Bytes :=
  if isStr spec then
    match spec.maxlen with
    | some clen =>
      ascii " " ++ spec.col ++ ascii "=" ++ quoted val ++ ascii "::varchar(" ++ printInt (atoi clen) ++ ascii ") "
    | none => ascii " " ++ spec.col ++ ascii "=" ++ quoted val ++ ascii " "
  else if spec.type = some (ascii "int") then ascii " " ++ spec.col ++ ascii "=" ++ printInt (atoi val) ++ ascii " "
  else if spec.type = some (ascii "float") then ascii " " ++ spec.col ++ ascii "=" ++ printFloat val ++ ascii " "
  else if spec.type = some (ascii "point") then ascii " " ++ spec.col ++ ascii "= point " ++ quoted val ++ ascii " "
  else if spec.type = some (ascii "box") then ascii " " ++ spec.col ++ ascii "= box " ++ quoted val ++ ascii " "
  else if spec.type = some (ascii "path") then ascii " " ++ spec.col ++ ascii "= path " ++ quoted val ++ ascii " "
  else []

def querycondText (spec : ColSpec) (val : Bytes) : Bytes :=
  if isStr spec then ascii " " ++ spec.col ++ ascii " " ++ quoted val ++ ascii " "
  else if spec.type = some (ascii "int") then ascii " " ++ spec.col ++ ascii " " ++ printInt (atoi val) ++ ascii " "
  else if spec.type = some (ascii "float") then ascii " " ++ spec.col ++ ascii " " ++ printFloat val ++ ascii " "
  else if spec.type = some (ascii "point") then ascii " " ++ spec.col ++ ascii " point " ++ quoted val ++ ascii " "
  else if spec.type = some (ascii "box") then ascii " " ++ spec.col ++ ascii " box " ++ quoted val ++ ascii " "
  else if spec.type = some (ascii "path") then ascii " " ++ spec.col ++ ascii " path " ++ quoted val ++ ascii " "
  else []

def incolText (spec : ColSpec) (val : Bytes) : Bytes :=
  if isStr spec then
    match spec.maxlen with
    | some clen => ascii " " ++ quoted val ++ ascii "::varchar(" ++ printInt (atoi clen) ++ ascii ") "
    | none => ascii " " ++ quoted val ++ ascii " "
  else if spec.type = some (ascii "int") then printInt (atoi val)
  else if spec.type = some (ascii "float") then printFloat val
  else if spec.type = some (ascii "point") then ascii "point " ++ quoted val ++ ascii " "
  else if spec.type = some (ascii "box") then ascii "box " ++ quoted val ++ ascii " "
  else if spec.type = some (ascii "path") then ascii "path " ++ quoted val ++ ascii " "
  else []

/-- The loop over the lines, which the three builders run. -/
def eachLine {σ : Type} (data : Dataset) (add : σ → ColSpec → Bytes → σ) : σ → List ColSpec → Except FragmentError σ
  | str, [] => .ok str
  | str, spec :: specs =>
    match nonempty data spec.name with
    | some val => eachLine data add (add str spec val) specs
    | none =>
      if spec.require = some (ascii "true") then .error (.require spec.name spec.type) else eachLine data add str specs

def addUpcol (str : Bytes) (spec : ColSpec) (val : Bytes) : Bytes :=
  joinItem (ascii " , ") str (upcolText printFloat spec val)

def addQuerycond (str : Bytes) (spec : ColSpec) (val : Bytes) : Bytes :=
  joinItem (ascii " AND ") str (querycondText printFloat spec val)

/-- The columns and the values. -/
structure Insert where
  sa : Bytes
  sb : Bytes

def addIncol (s : Insert) (spec : ColSpec) (val : Bytes) : Insert :=
  if s.sa = [] then
    ⟨s.sa ++ ascii " (" ++ spec.col ++ ascii " ", s.sb ++ ascii " VALUES (" ++ incolText printFloat spec val⟩
  else ⟨s.sa ++ ascii ", " ++ spec.col ++ ascii " ", s.sb ++ ascii ", " ++ incolText printFloat spec val⟩

def mdbBuildUpcol (str : Bytes) (data : Dataset) (specs : List ColSpec) : Except FragmentError Bytes :=
  (eachLine data (addUpcol printFloat) str specs).bind fun str => if str = [] then .error .strLen else .ok str

def orDefault (defstr : Option Bytes) (str : Bytes) : Bytes := if str = [] then str ++ defstr.getD [] else str

def mdbBuildQuerycond (defstr : Option Bytes) (str : Bytes) (data : Dataset) (specs : List ColSpec) :
    Except FragmentError Bytes :=
  (eachLine data (addQuerycond printFloat) str specs).map (orDefault defstr)

def mdbBuildIncol (str : Bytes) (data : Dataset) (specs : List ColSpec) : Except FragmentError Bytes :=
  (eachLine data (addIncol printFloat) ⟨[], []⟩ specs).bind fun s =>
    if s.sa = [] then .error .strLen else .ok (str ++ s.sa ++ ascii ")  " ++ s.sb ++ ascii ")")

def given (data : Dataset) (specs : List ColSpec) : List (ColSpec × Bytes) :=
  specs.filterMap fun spec => (nonempty data spec.name).map fun val => (spec, val)

def types : List Bytes := [ascii "str", ascii "int", ascii "float", ascii "point", ascii "box", ascii "path"]

/-- A line without a type, or with one that the builders know. -/
def Listed (spec : ColSpec) : Prop := ∀ type ∈ spec.type, type ∈ types

instance (spec : ColSpec) : Decidable (Listed spec) := inferInstanceAs (Decidable (∀ type ∈ spec.type, type ∈ types))

/-- An assignment to the column; of a type that is listed it is the one with the value as this type is written. -/
def Assignment (g : ColSpec × Bytes) (p : Bytes) : Prop :=
  (∃ v, p = ascii " " ++ g.1.col ++ ascii "=" ++ v) ∧ (Listed g.1 → p = upcolText printFloat g.1 g.2)

def Condition (g : ColSpec × Bytes) (p : Bytes) : Prop :=
  (∃ v, p = ascii " " ++ g.1.col ++ ascii " " ++ v) ∧ (Listed g.1 → p = querycondText printFloat g.1 g.2)

/-- The value of a column, which is some text also where the type is not listed. -/
def Rendering (g : ColSpec × Bytes) (p : Bytes) : Prop :=
  (Listed g.1 → p = incolText printFloat g.1 g.2) ∧ (¬ Listed g.1 → p ≠ [])

/-- `(c1, ..., cm) VALUES (v1, ..., vm)`, with at least one column. -/
def InsertForm (str : Bytes) (data : Dataset) (specs : List ColSpec) (out : Bytes) : Prop :=
  given data specs ≠ [] ∧ ∃ vals, List.Forall₂ (Rendering printFloat) (given data specs) vals ∧
    out = str ++ ascii " (" ++ (ascii ", ").intercalate ((given data specs).map fun g => g.1.col ++ ascii " ") ++
      ascii ")   VALUES (" ++ (ascii ", ").intercalate vals ++ ascii ")"

/-- One assignment for each line with a value, behind what was there before, with commas between them. -/
def UpdateForm (str : Bytes) (data : Dataset) (specs : List ColSpec) (out : Bytes) : Prop :=
  ∃ ps, List.Forall₂ (Assignment printFloat) (given data specs) ps ∧
    out = (ascii " , ").intercalate (firstItem str ++ ps)

def ConditionForm (defstr : Option Bytes) (str : Bytes) (data : Dataset) (specs : List ColSpec) (out : Bytes) : Prop :=
  ∃ ps, List.Forall₂ (Condition printFloat) (given data specs) ps ∧
    out = orDefault defstr ((ascii " AND ").intercalate (firstItem str ++ ps))

def AllListed (data : Dataset) (specs : List ColSpec) : Prop := ∀ g ∈ given data specs, Listed g.1

/-- No required line is without a value. -/
def Complete (data : Dataset) (specs : List ColSpec) : Prop :=
  ∀ spec ∈ specs, spec.require = some (ascii "true") → nonempty data spec.name ≠ none

end Builders

def columnType : Option Bytes → Option ColumnType
  | none => some .str
  | some type =>
    if type = ascii "str" then some .str
    else if type = ascii "int" then some .int
    else if type = ascii "float" then some .float
    else if type = ascii "point" then some .point
    else if type = ascii "box" then some .box
    else if type = ascii "path" then some .path
    else none

theorem columnType_eq_none_iff (spec : ColSpec) : columnType spec.type = none ↔ ¬ Listed spec := by
  unfold Listed columnType types
  cases spec.type with
  | none => simp
  | some type =>
    dsimp only
    split_ifs <;> simp_all

theorem tests_eq {β : Type} (spec : ColSpec) (s i f p b q n : β) :
    (if isStr spec then s
      else if spec.type = some (ascii "int") then i
      else if spec.type = some (ascii "float") then f
      else if spec.type = some (ascii "point") then p
      else if spec.type = some (ascii "box") then b
      else if spec.type = some (ascii "path") then q
      else n) =
      match columnType spec.type with
      | some .str => s
      | some .int => i
      | some .float => f
      | some .point => p
      | some .box => b
      | some .path => q
      | none => n := by
  unfold isStr columnType
  cases spec.type with
  | none => rfl
  | some type =>
    simp only [reduceCtorEq, decide_false, Bool.false_or, decide_eq_true_eq, Option.some.injEq]
    split_ifs <;> rfl

section Lines
variable (printFloat : Bytes → Bytes) {spec : ColSpec} {g : ColSpec × Bytes}

theorem upcolText_unlisted (h : ¬ Listed spec) (val : Bytes) : upcolText printFloat spec val = [] := by
  rw [upcolText, tests_eq, (columnType_eq_none_iff spec).mpr h]

theorem querycondText_unlisted (h : ¬ Listed spec) (val : Bytes) : querycondText printFloat spec val = [] := by
  rw [querycondText, tests_eq, (columnType_eq_none_iff spec).mpr h]

theorem incolText_unlisted (h : ¬ Listed spec) (val : Bytes) : incolText printFloat spec val = [] := by
  rw [incolText, tests_eq, (columnType_eq_none_iff spec).mpr h]

theorem assignment_upcolText (h : Listed g.1) : Assignment printFloat g (upcolText printFloat g.1 g.2) := by
  refine ⟨?_, fun _ => rfl⟩
  rw [upcolText, tests_eq]
  cases htype : columnType g.1.type with
  | none => exact absurd h ((columnType_eq_none_iff g.1).mp htype)
  | some type =>
    cases type with
    | str =>
      cases g.1.maxlen with
      | none => exact ⟨_, by simp only [List.append_assoc]; rfl⟩
      | some clen => exact ⟨_, by simp only [List.append_assoc]; rfl⟩
    | int => exact ⟨_, by simp only [List.append_assoc]; rfl⟩
    | float => exact ⟨_, by simp only [List.append_assoc]; rfl⟩
    | point => exact ⟨ascii " point " ++ quoted g.2 ++ ascii " ", by simp only [List.append_assoc]; rfl⟩
    | box => exact ⟨ascii " box " ++ quoted g.2 ++ ascii " ", by simp only [List.append_assoc]; rfl⟩
    | path => exact ⟨ascii " path " ++ quoted g.2 ++ ascii " ", by simp only [List.append_assoc]; rfl⟩

theorem condition_querycondText (h : Listed g.1) : Condition printFloat g (querycondText printFloat g.1 g.2) := by
  refine ⟨?_, fun _ => rfl⟩
  rw [querycondText, tests_eq]
  cases htype : columnType g.1.type with
  | none => exact absurd h ((columnType_eq_none_iff g.1).mp htype)
  | some type =>
    cases type with
    | str => exact ⟨_, by simp only [List.append_assoc]; rfl⟩
    | int => exact ⟨_, by simp only [List.append_assoc]; rfl⟩
    | float => exact ⟨_, by simp only [List.append_assoc]; rfl⟩
    | point => exact ⟨ascii "point " ++ quoted g.2 ++ ascii " ", by simp only [List.append_assoc]; rfl⟩
    | box => exact ⟨ascii "box " ++ quoted g.2 ++ ascii " ", by simp only [List.append_assoc]; rfl⟩
    | path => exact ⟨ascii "path " ++ quoted g.2 ++ ascii " ", by simp only [List.append_assoc]; rfl⟩

end Lines

section Loop
variable {σ : Type} {data : Dataset} {add : σ → ColSpec → Bytes → σ} {specs : List ColSpec}

/-- The loop ends well if and only if no required line is without a value, and has put the lines with a value behind
each other. -/
theorem eachLine_eq_ok_iff {s out : σ} : eachLine data add s specs = .ok out ↔
    Complete data specs ∧ (given data specs).foldl (fun s g => add s g.1 g.2) s = out := by
  unfold Complete given
  induction specs generalizing s with
  | nil => simp [eachLine]
  | cons spec specs ih =>
    rw [eachLine, List.forall_mem_cons, List.filterMap_cons]
    cases hval : nonempty data spec.name with
    | some val =>
      rw [Option.map_some, List.foldl_cons]
      simp only [ih, ne_eq, reduceCtorEq, not_false_eq_true, implies_true, true_and]
    | none =>
      simp only [Option.map_none]
      by_cases hrequire : spec.require = some (ascii "true")
      · rw [if_pos hrequire]
        exact iff_of_false nofun fun h => h.1.1 hrequire rfl
      · rw [if_neg hrequire, ih]
        simp [hrequire]

end Loop

section Pieces
variable {ι α : Type} {R : ι → List α → Prop} {text : ι → List α} {gs : List ι} {ps : List (List α)}

/-- Pieces of which none is shorter than its text, and some is longer. -/
theorem length_flatten_lt (h : List.Forall₂ R gs ps) (hle : ∀ g p, R g p → (text g).length ≤ p.length) :
    (gs.map text).flatten.length ≤ ps.flatten.length ∧
      ((∃ g ∈ gs, ∀ p, R g p → (text g).length < p.length) → (gs.map text).flatten.length < ps.flatten.length) := by
  induction h with
  | nil => simp
  | @cons g p gs ps hp h ih =>
    rw [List.map_cons, List.flatten_cons, List.flatten_cons, List.length_append, List.length_append]
    have hhead := hle g p hp
    refine ⟨Nat.add_le_add hhead ih.1, ?_⟩
    rintro ⟨g', hmem, hlt⟩
    rcases List.mem_cons.mp hmem with rfl | hmem
    · exact Nat.add_lt_add_of_lt_of_le (hlt p hp) ih.1
    · exact Nat.add_lt_add_of_le_of_lt hhead (ih.2 ⟨g', hmem, hlt⟩)

/-- Where the texts without a piece of their own are empty, they join to the pieces only if there is no such text. -/
theorem all_of_joined {Known : ι → Prop} {before : List (List α)} {seps out : List α} (h : List.Forall₂ R gs ps)
    (hknown : ∀ g p, R g p → Known g → p = text g) (hempty : ∀ g, ¬ Known g → text g = [])
    (hne : ∀ g p, R g p → ¬ Known g → p ≠ []) (hout : out.length ≤ (seps.intercalate (before ++ gs.map text)).length)
    (heq : out = seps.intercalate (before ++ ps)) : ∀ g ∈ gs, Known g := by
  by_contra hunknown
  push Not at hunknown
  obtain ⟨g, hg, hnot⟩ := hunknown
  have hle : ∀ g p, R g p → (text g).length ≤ p.length := by
    intro g p hp
    by_cases hk : Known g
    · rw [hknown g p hp hk]
    · rw [hempty g hk]
      exact Nat.zero_le _
  have hlt := (length_flatten_lt h hle).2 ⟨g, hg, fun p hp => by
    rw [hempty g hnot]
    exact List.length_pos_iff.mpr (hne g p hp hnot)⟩
  have hlen := h.length_eq
  rw [heq, length_intercalate, length_intercalate] at hout
  rw [List.flatten_append, List.flatten_append] at hout
  simp only [List.length_append, List.length_map, hlen] at hout
  omega

theorem joined_iff {Known : ι → Prop} {seps s : List α} (hknown : ∀ g p, R g p → Known g → p = text g)
    (htext : ∀ g, Known g → R g (text g)) (hempty : ∀ g, ¬ Known g → text g = []) (hne : ∀ g p, R g p → p ≠ []) :
    (∃ ps, List.Forall₂ R gs ps ∧ (gs.map text).foldl (joinItem seps) s = seps.intercalate (firstItem s ++ ps)) ↔
      ∀ g ∈ gs, Known g := by
  constructor
  · rintro ⟨ps, hps, heq⟩
    exact all_of_joined hps hknown hempty (fun g p hp _ => hne g p hp) (length_foldl_joinItem_le _) heq
  · intro h
    refine ⟨gs.map text, ?_, foldl_joinItem ?_⟩
    · exact List.forall₂_map_right_iff.mpr (List.forall₂_same.mpr fun g hg => htext g (h g hg))
    · rw [List.forall_mem_map]
      exact fun g hg => hne g _ (htext g (h g hg))

end Pieces

section Parts
open QuotedText StatementTexts

/-- Lines whose column leaves no literal open. -/
abbrev ClosedSpec := { spec : ColSpec // lex sql spec.col ≠ none }

def ClosedSpec.query (c : ClosedSpec) : QuerySpec where
  name := c.val.name
  col := ⟨c.val.col, c.property⟩
  type := columnType c.val.type
  maxlen := c.val.maxlen.map atoi
  require := c.val.require = some (ascii "true")

variable (F : FloatText)

@[simp] theorem text_nil : text [] = [] := rfl

@[simp] theorem text_fixed (s : Bytes) (ps : Parts) : text (.fixed s :: ps) = s ++ text ps := rfl

@[simp] theorem text_quoted (val : Bytes) (ps : Parts) : text (.quoted val :: ps) = quoted val ++ text ps := by
  unfold quoted
  rw [mstrRealEscapeString_eq]
  rfl

@[simp] theorem text_append (ps qs : Parts) : text (ps ++ qs) = text ps ++ text qs := List.flatMap_append

theorem text_upcolParts (c : ClosedSpec) (val : Bytes) :
    text (upcolParts F c.query val) = upcolText F.print c.val val := by
  have htype : c.query.type = columnType c.val.type := rfl
  have hmaxlen : c.query.maxlen = c.val.maxlen.map atoi := rfl
  have hcol : (c.query.col : Bytes) = c.val.col := rfl
  have hpoint : ascii "= point " = ascii "= " ++ ascii "point " := rfl
  have hbox : ascii "= box " = ascii "= " ++ ascii "box " := rfl
  have hpath : ascii "= path " = ascii "= " ++ ascii "path " := rfl
  rw [upcolText, tests_eq, upcolParts, htype, hmaxlen, hcol, hpoint, hbox, hpath]
  rcases columnType c.val.type with _ | type
  · rfl
  · cases type with
    | str => cases c.val.maxlen <;> simp
    | int => simp
    | float => simp
    | point | box | path => simp [keyword]

theorem text_querycondParts (c : ClosedSpec) (val : Bytes) :
    text (querycondParts F c.query val) = querycondText F.print c.val val := by
  have htype : c.query.type = columnType c.val.type := rfl
  have hcol : (c.query.col : Bytes) = c.val.col := rfl
  have hpoint : ascii " point " = ascii " " ++ ascii "point " := rfl
  have hbox : ascii " box " = ascii " " ++ ascii "box " := rfl
  have hpath : ascii " path " = ascii " " ++ ascii "path " := rfl
  rw [querycondText, tests_eq, querycondParts, htype, hcol, hpoint, hbox, hpath]
  rcases columnType c.val.type with _ | type
  · rfl
  · cases type <;> simp [keyword]

theorem text_incolParts (c : ClosedSpec) (val : Bytes) :
    text (incolParts F c.query val) = incolText F.print c.val val := by
  have htype : c.query.type = columnType c.val.type := rfl
  have hmaxlen : c.query.maxlen = c.val.maxlen.map atoi := rfl
  rw [incolText, tests_eq, incolParts, htype, hmaxlen]
  rcases columnType c.val.type with _ | type
  · rfl
  · cases type with
    | str => cases c.val.maxlen <;> simp
    | int => simp
    | float => simp
    | point | box | path => simp [keyword]

/-- The loops over the parts and over the texts go the same way. -/
theorem eachCol_eachLine {σ τ : Type} {R : σ → τ → Prop} {data : Dataset} {add : σ → QuerySpec → Bytes → σ}
    {addText : τ → ColSpec → Bytes → τ}
    (hadd : ∀ s t (c : ClosedSpec) val, R s t → R (add s c.query val) (addText t c.val val))
    {s : σ} {t : τ} (h : R s t) (cs : List ClosedSpec) :
    Option.Rel R (eachCol data add s (cs.map ClosedSpec.query)).toOption
      (eachLine data addText t (cs.map Subtype.val)).toOption := by
  induction cs generalizing s t with
  | nil => exact .some h
  | cons c cs ih =>
    have hname : c.query.name = c.val.name := rfl
    rw [List.map_cons, List.map_cons, eachCol, eachLine, hname]
    cases nonempty data c.val.name with
    | some val => exact ih (hadd s t c val h)
    | none =>
      by_cases hrequire : c.val.require = some (ascii "true")
      · have hquery : c.query.require = true := decide_eq_true hrequire
        simp only [hquery, hrequire, if_true]
        exact .none
      · have hquery : c.query.require = false := decide_eq_false hrequire
        simp only [hquery, hrequire, Bool.false_eq_true, if_false]
        exact ih h

theorem text_separate (sep : Bytes) (ps qs : Parts) :
    text (separate sep ps ++ qs) = joinItem sep (text ps) (text qs) := by
  unfold separate joinItem
  split <;> simp

theorem text_orDefault (defstr : Option ClosedText) (ps : Parts) :
    text (StatementTexts.orDefault defstr ps) = orDefault (defstr.map Subtype.val) (text ps) := by
  unfold StatementTexts.orDefault orDefault
  split
  · cases defstr <;> simp
  · rfl

variable (str : ClosedText) (data : Dataset) (cs : List ClosedSpec)

theorem text_mdbBuildUpcol : (StatementTexts.mdbBuildUpcol F str data (cs.map ClosedSpec.query)).toOption.map text =
    (mdbBuildUpcol F.print str data (cs.map Subtype.val)).toOption := by
  have hrel : Option.Rel (fun ps s => text ps = s)
      (eachCol data (StatementTexts.addUpcol F) [.fixed str] (cs.map ClosedSpec.query)).toOption
      (eachLine data (addUpcol F.print) str (cs.map Subtype.val)).toOption := by
    refine eachCol_eachLine (fun ps s c val h => ?_) (by simp) cs
    rw [StatementTexts.addUpcol, text_separate, text_upcolParts, h, addUpcol]
  unfold StatementTexts.mdbBuildUpcol mdbBuildUpcol
  rw [toOption_bind, toOption_bind]
  generalize (eachCol data (StatementTexts.addUpcol F) [.fixed str] (cs.map ClosedSpec.query)).toOption = x at hrel ⊢
  generalize (eachLine data (addUpcol F.print) str (cs.map Subtype.val)).toOption = y at hrel ⊢
  cases hrel with
  | none => rfl
  | @some ps s h =>
    subst h
    rw [Option.bind_some, Option.bind_some]
    split <;> rfl

theorem text_mdbBuildQuerycond (defstr : Option ClosedText) :
    (StatementTexts.mdbBuildQuerycond F defstr str data (cs.map ClosedSpec.query)).toOption.map text =
      (mdbBuildQuerycond F.print (defstr.map Subtype.val) str data (cs.map Subtype.val)).toOption := by
  have hrel : Option.Rel (fun ps s => text ps = s)
      (eachCol data (StatementTexts.addQuerycond F) [.fixed str] (cs.map ClosedSpec.query)).toOption
      (eachLine data (addQuerycond F.print) str (cs.map Subtype.val)).toOption := by
    refine eachCol_eachLine (fun ps s c val h => ?_) (by simp) cs
    rw [StatementTexts.addQuerycond, text_separate, text_querycondParts, h, addQuerycond]
  unfold StatementTexts.mdbBuildQuerycond mdbBuildQuerycond
  rw [toOption_map, toOption_map]
  generalize
    (eachCol data (StatementTexts.addQuerycond F) [.fixed str] (cs.map ClosedSpec.query)).toOption = x at hrel ⊢
  generalize (eachLine data (addQuerycond F.print) str (cs.map Subtype.val)).toOption = y at hrel ⊢
  cases hrel with
  | none => rfl
  | @some ps s h =>
    subst h
    rw [Option.map_some, Option.map_some, Option.map_some, text_orDefault]

/-- The same texts, and no values before the first column. -/
def SameInsert (s : Parts × Parts) (t : Insert) : Prop :=
  (text s.1 = t.sa ∧ text s.2 = t.sb) ∧ (text s.1 = [] → text s.2 = [])

theorem SameInsert.add {s : Parts × Parts} {t : Insert} (h : SameInsert s t) (c : ClosedSpec) (val : Bytes) :
    SameInsert (StatementTexts.addIncol F s c.query val) (addIncol F.print t c.val val) := by
  obtain ⟨⟨hsa, hsb⟩, hfirst⟩ := h
  have hcol : (c.query.col : Bytes) = c.val.col := rfl
  have hblank : ascii " " ≠ [] := by decide
  unfold StatementTexts.addIncol addIncol
  rw [hsa]
  by_cases hnil : t.sa = []
  · rw [if_pos hnil, if_pos hnil, hnil, ← hsb, hfirst (hsa.trans hnil)]
    refine ⟨⟨?_, ?_⟩, ?_⟩
    · simp [hcol]
    · simp [text_incolParts]
    · simp [hblank]
  · rw [if_neg hnil, if_neg hnil, ← hsa, ← hsb]
    refine ⟨⟨?_, ?_⟩, ?_⟩
    · simp [hcol]
    · simp [text_incolParts]
    · simp [hblank]

theorem text_mdbBuildIncol : (StatementTexts.mdbBuildIncol F str data (cs.map ClosedSpec.query)).toOption.map text =
    (mdbBuildIncol F.print str data (cs.map Subtype.val)).toOption := by
  have hrel : Option.Rel SameInsert
      (eachCol data (StatementTexts.addIncol F) ([], []) (cs.map ClosedSpec.query)).toOption
      (eachLine data (addIncol F.print) ⟨[], []⟩ (cs.map Subtype.val)).toOption :=
    eachCol_eachLine (fun s t c val h => h.add F c val) ⟨⟨rfl, rfl⟩, fun _ => rfl⟩ cs
  unfold StatementTexts.mdbBuildIncol mdbBuildIncol
  rw [toOption_bind, toOption_bind]
  generalize (eachCol data (StatementTexts.addIncol F) ([], []) (cs.map ClosedSpec.query)).toOption = x at hrel ⊢
  generalize (eachLine data (addIncol F.print) ⟨[], []⟩ (cs.map Subtype.val)).toOption = y at hrel ⊢
  cases hrel with
  | none => rfl
  | @some s t h =>
    obtain ⟨⟨hsa, hsb⟩, -⟩ := h
    rw [Option.bind_some, Option.bind_some, hsa]
    split
    · rfl
    · change some (text _) = some _
      simp [hsa, hsb]

end Parts

section Fragments
variable (printFloat : Bytes → Bytes) {str out : Bytes} {data : Dataset} {specs : List ColSpec}

theorem Assignment.ne_nil {g : ColSpec × Bytes} {p : Bytes} (h : Assignment printFloat g p) : p ≠ [] := by
  obtain ⟨⟨v, rfl⟩, -⟩ := h
  exact List.cons_ne_nil _ _

theorem Condition.ne_nil {g : ColSpec × Bytes} {p : Bytes} (h : Condition printFloat g p) : p ≠ [] := by
  obtain ⟨⟨v, rfl⟩, -⟩ := h
  exact List.cons_ne_nil _ _

theorem mdbBuildUpcol_ok (h : mdbBuildUpcol printFloat str data specs = .ok out) :
    out = ((given data specs).map fun g => upcolText printFloat g.1 g.2).foldl (joinItem (ascii " , ")) str := by
  obtain ⟨s, hline, hs⟩ := bind_eq_ok h
  split at hs
  · cases hs
  · obtain rfl := Except.ok.inj hs
    rw [List.foldl_map]
    exact (eachLine_eq_ok_iff.mp hline).2.symm

theorem updateForm_iff (h : mdbBuildUpcol printFloat str data specs = .ok out) :
    UpdateForm printFloat str data specs out ↔ AllListed data specs := by
  rw [UpdateForm, mdbBuildUpcol_ok printFloat h]
  exact joined_iff (fun g p hp => hp.2) (fun g => assignment_upcolText printFloat)
    (fun g hg => upcolText_unlisted printFloat hg g.2) fun g p => Assignment.ne_nil printFloat

theorem mdbBuildQuerycond_eq_ok_iff {defstr : Option Bytes} :
    mdbBuildQuerycond printFloat defstr str data specs = .ok out ↔ Complete data specs ∧
      orDefault defstr (((given data specs).map fun g => querycondText printFloat g.1 g.2).foldl
        (joinItem (ascii " AND ")) str) = out := by
  rw [List.foldl_map]
  unfold mdbBuildQuerycond
  constructor
  · intro h
    obtain ⟨s, hline, rfl⟩ := map_eq_ok h
    obtain ⟨hcomplete, rfl⟩ := eachLine_eq_ok_iff.mp hline
    exact ⟨hcomplete, rfl⟩
  · rintro ⟨hcomplete, rfl⟩
    rw [eachLine_eq_ok_iff.mpr ⟨hcomplete, rfl⟩]
    rfl

theorem conditionForm_iff :
    (∀ defstr out, mdbBuildQuerycond printFloat defstr str data specs = .ok out →
      ConditionForm printFloat defstr str data specs out) ↔ (Complete data specs → AllListed data specs) := by
  have hjoined : (∃ ps, List.Forall₂ (Condition printFloat) (given data specs) ps ∧
      ((given data specs).map fun g => querycondText printFloat g.1 g.2).foldl (joinItem (ascii " AND ")) str =
        (ascii " AND ").intercalate (firstItem str ++ ps)) ↔ AllListed data specs :=
    joined_iff (fun g p hp => hp.2) (fun g => condition_querycondText printFloat)
      (fun g hg => querycondText_unlisted printFloat hg g.2) fun g p => Condition.ne_nil printFloat
  constructor
  · -- without `defstr` the conditions are all there is
    intro h hcomplete
    have hnone : ∀ s, orDefault none s = s := by
      intro s
      unfold orDefault
      split
      · exact List.append_nil s
      · rfl
    obtain ⟨ps, hps, hout⟩ := h none _ ((mdbBuildQuerycond_eq_ok_iff printFloat).mpr ⟨hcomplete, rfl⟩)
    rw [hnone, hnone] at hout
    exact hjoined.mp ⟨ps, hps, hout⟩
  · intro h defstr out hout
    obtain ⟨hcomplete, rfl⟩ := (mdbBuildQuerycond_eq_ok_iff printFloat).mp hout
    obtain ⟨ps, hps, heq⟩ := hjoined.mpr (h hcomplete)
    exact ⟨ps, hps, congrArg (orDefault defstr) heq⟩

/-- With a column there, each further one and its value go behind a comma. -/
theorem foldl_addIncol {s : Insert} (hs : s.sa ≠ []) (gs : List (ColSpec × Bytes)) :
    gs.foldl (fun s g => addIncol printFloat s g.1 g.2) s =
      ⟨s.sa ++ gs.flatMap (fun g => ascii ", " ++ (g.1.col ++ ascii " ")),
        s.sb ++ gs.flatMap (fun g => ascii ", " ++ incolText printFloat g.1 g.2)⟩ := by
  induction gs generalizing s with
  | nil => simp
  | cons g gs ih =>
    have hadd : addIncol printFloat s g.1 g.2 =
        ⟨s.sa ++ ascii ", " ++ g.1.col ++ ascii " ", s.sb ++ ascii ", " ++ incolText printFloat g.1 g.2⟩ := if_neg hs
    rw [List.foldl_cons, hadd, ih (by simp [hs]), List.flatMap_cons, List.flatMap_cons]
    simp only [List.append_assoc]

theorem foldl_addIncol_nil {gs : List (ColSpec × Bytes)} (hgs : gs ≠ []) :
    gs.foldl (fun s g => addIncol printFloat s g.1 g.2) ⟨[], []⟩ =
      ⟨ascii " (" ++ (ascii ", ").intercalate (gs.map fun g => g.1.col ++ ascii " "),
        ascii " VALUES (" ++ (ascii ", ").intercalate (gs.map fun g => incolText printFloat g.1 g.2)⟩ := by
  obtain ⟨g, gs, rfl⟩ := List.exists_cons_of_ne_nil hgs
  have hadd : addIncol printFloat ⟨[], []⟩ g.1 g.2 =
      ⟨[] ++ ascii " (" ++ g.1.col ++ ascii " ", [] ++ ascii " VALUES (" ++ incolText printFloat g.1 g.2⟩ := if_pos rfl
  have hsa : [] ++ ascii " (" ++ g.1.col ++ ascii " " ≠ [] := List.append_ne_nil_of_right_ne_nil _ (by decide)
  rw [List.foldl_cons, hadd, foldl_addIncol printFloat hsa, List.map_cons, List.map_cons, intercalate_cons_eq,
    intercalate_cons_eq, List.flatMap_map, List.flatMap_map]
  simp only [List.nil_append, List.append_assoc]

theorem insertForm_iff (h : mdbBuildIncol printFloat str data specs = .ok out) :
    InsertForm printFloat str data specs out ↔ AllListed data specs := by
  obtain ⟨s, hline, h⟩ := bind_eq_ok h
  split at h
  · cases h
  · rename_i hsa
    obtain rfl := Except.ok.inj h
    have hfold := (eachLine_eq_ok_iff.mp hline).2
    have hne : given data specs ≠ [] := by
      intro hnil
      rw [hnil] at hfold
      exact hsa (congrArg Insert.sa hfold.symm)
    rw [foldl_addIncol_nil printFloat hne] at hfold
    subst hfold
    have hjoined : (∃ vals, List.Forall₂ (Rendering printFloat) (given data specs) vals ∧
        (ascii ", ").intercalate ((given data specs).map fun g => incolText printFloat g.1 g.2) =
          (ascii ", ").intercalate vals) ↔ AllListed data specs := by
      constructor
      · rintro ⟨vals, hvals, heq⟩
        have hlen : ((ascii ", ").intercalate ((given data specs).map fun g => incolText printFloat g.1 g.2)).length ≤
            ((ascii ", ").intercalate ([] ++ (given data specs).map fun g => incolText printFloat g.1 g.2)).length :=
          le_rfl
        exact all_of_joined hvals (fun g p hp => hp.1) (fun g hg => incolText_unlisted printFloat hg g.2)
          (fun g p hp => hp.2) hlen heq
      · intro hall
        refine ⟨_, ?_, rfl⟩
        exact List.forall₂_map_right_iff.mpr (List.forall₂_same.mpr fun g hg =>
          ⟨fun _ => rfl, fun hnot => absurd (hall g hg) hnot⟩)
    unfold InsertForm
    rw [and_iff_right hne, ← hjoined]
    refine exists_congr fun vals => and_congr_right fun _ => ?_
    have hword : ascii ")   VALUES (" = ascii ")  " ++ ascii " VALUES (" := rfl
    rw [hword]
    simp only [List.append_assoc, List.append_cancel_left_eq, List.append_cancel_right_eq]

end Fragments

/-- Fragments are well-formed if and only if the lines with a value are of listed types. -/
theorem fragments_iff (printFloat : Bytes → Bytes) (str : Bytes) (data : Dataset) (specs : List ColSpec) :
    (∀ out, mdbBuildIncol printFloat str data specs = .ok out →
      (InsertForm printFloat str data specs out ↔ AllListed data specs)) ∧
    (∀ out, mdbBuildUpcol printFloat str data specs = .ok out →
      (UpdateForm printFloat str data specs out ↔ AllListed data specs)) ∧
    ((∀ defstr out, mdbBuildQuerycond printFloat defstr str data specs = .ok out →
      ConditionForm printFloat defstr str data specs out) ↔ (Complete data specs → AllListed data specs)) :=
  ⟨fun _ => insertForm_iff printFloat, fun _ => updateForm_iff printFloat, conditionForm_iff printFloat⟩

/-- `a` is an int, and `b` a date. -/
def dateSpecs : List ColSpec :=
  [⟨"a", ascii "a", none, none, some (ascii "int")⟩, ⟨"b", ascii "b", none, none, some (ascii "date")⟩]

def dateData : Dataset := [("a", some (ascii "1")), ("b", some (ascii "2"))]

/-- The date is a column without a value, and a comma without an assignment. -/
theorem fragments_date :
    (mdbBuildIncol id [] dateData dateSpecs = .ok (ascii " (a , b )   VALUES (1, )") ∧
      ¬ InsertForm id [] dateData dateSpecs (ascii " (a , b )   VALUES (1, )")) ∧
    (mdbBuildUpcol id [] dateData dateSpecs = .ok (ascii " a=1  , ") ∧
      ¬ UpdateForm id [] dateData dateSpecs (ascii " a=1  , ")) ∧
    (mdbBuildQuerycond id none [] dateData dateSpecs = .ok (ascii " a 1  AND ") ∧
      ¬ ∀ defstr out, mdbBuildQuerycond id defstr [] dateData dateSpecs = .ok out →
        ConditionForm id defstr [] dateData dateSpecs out) := by
  have hnot : ¬ AllListed dateData dateSpecs := by
    unfold AllListed
    decide
  have hincol : mdbBuildIncol id [] dateData dateSpecs = .ok (ascii " (a , b )   VALUES (1, )") := by rfl
  have hupcol : mdbBuildUpcol id [] dateData dateSpecs = .ok (ascii " a=1  , ") := by rfl
  refine ⟨⟨hincol, mt (insertForm_iff id hincol).mp hnot⟩, ⟨hupcol, mt (updateForm_iff id hupcol).mp hnot⟩, by rfl, ?_⟩
  exact fun h => hnot ((conditionForm_iff id).mp h (by unfold Complete; decide))

end Cmoon.StatementFragments
