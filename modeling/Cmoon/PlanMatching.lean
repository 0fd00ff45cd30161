import Cmoon.PlanTimes
import Cmoon.StatementTexts
import Cmoon.PlanReads

/-! # Plans that match

`PLAN_MATCH` looks for plans with three conditions, each wider than the one before, and sorts by time what it has
found. -/
namespace Cmoon.PlanMatching
open DecimalText Datasets StatementBuilding MemberPlugin StatementTexts PlanTimes
open PlanReads (reqGetParamInt)

def geoMax : ℤ := 35
def geoaMax : ℕ := 20
def geoaMin : ℕ := 10

/-- A text of the configuration without a quote. -/
def plain (s : String) (h : (ascii s).all (· != 39) = true) : ClosedText :=
  ⟨ascii s, closed_of_unquoted (ne_of_all h)⟩

/-- The lines `dad` and `statu`, which all conditions have. -/
def required : List QuerySpec :=
  [⟨"dad", plain "dad =" (by decide), some .int, none, true⟩,
    ⟨"statu", plain "statu <" (by decide), some .int, none, true⟩]

def geoa : List QuerySpec := required ++
  [⟨"scityid", plain "scityid =" (by decide), some .int, none, false⟩,
    ⟨"ecityid", plain "ecityid =" (by decide), some .int, none, false⟩,
    ⟨"km", plain "(km / 1.2) <" (by decide), some .float, none, false⟩]

/-- The line `sgeo` of the two wider conditions. -/
def nearby : ClosedText := plain "((rect[0] <-> rect[1]) / 5) > sgeo <->" (by decide)

def geob : List QuerySpec := required ++
  [⟨"rect", plain "((rect - @@rect) * point(1.2,0) + @@rect) @>" (by decide), some .box, none, false⟩,
    ⟨"sgeo", nearby, some .point, none, false⟩,
    ⟨"km", plain "(km / 1.5) <" (by decide), some .float, none, false⟩]

def geox : List QuerySpec := required ++
  [⟨"rect", plain "((rect - @@rect) * point(1.6,0) + @@rect) @>" (by decide), some .box, none, false⟩,
    ⟨"sgeo", nearby, some .point, none, false⟩,
    ⟨"km", plain "(km / 1.8) <" (by decide), some .float, none, false⟩]

def planStPause : ℤ := 3

inductive MatchErr where
  | rep (err : RepErr)
  | paramterNull
  | build (err : TextError)
  | db
  | nmatch
  | mem
  deriving DecidableEq

/-- What `plan_cmd_plan_match` reads from a request before it looks into the cache. -/
structure Params (F : Type) where
  dad : ℤ
  scityid : ℤ
  ecityid : ℤ
  rect : Option Bytes
  nmax : ℤ
  maxday : ℤ
  pdate : Option Bytes
  ptime : Bytes
  km : F

/-- The plans of a reply, and `_ntt`. -/
structure Matched where
  plans : List PlanNode
  ntt : ℤ
  deriving DecidableEq

/-- The three conditions, as the server takes them. -/
structure Conds (M : Type) where
  a : M
  b : M
  x : M
  deriving DecidableEq

/-- What the answer depends on but the request: the rows of the table that meet a condition, unless the server does
not answer, the C library at that time, and whether there is memory to pack the reply. -/
structure Env (F M : Type) where
  server : M → Option (List PlanNode)
  clock : Clock F
  calloc : Bool

section Request
variable {F M : Type} [DecidableEq F] (floats : Floats F) (print : FloatText)
-- what the server takes the text of a condition for
variable (meaning : Bytes → M)

def params (hdfrcv : Dataset) : Except MatchErr (Params F) :=
  match reqGetParamInt hdfrcv "dad" with
  | .error err => .error (.rep err)
  | .ok dad =>
    let nmax := hdfGetIntValue hdfrcv "_nmax" 0
    let p : Params F := {
      dad := dad
      scityid := hdfGetIntValue hdfrcv "scityid" 0
      ecityid := hdfGetIntValue hdfrcv "ecityid" 0
      rect := nonempty hdfrcv "rect"
      nmax := if nmax ≤ 0 then geoMax else nmax
      maxday := hdfGetIntValue hdfrcv "dayaround" 0
      pdate := hdfGetValue hdfrcv "date"
      ptime := (hdfGetValue hdfrcv "time").getD defaultTime
      km := mcsGetFloatValue floats hdfrcv "km" }
    if (p.scityid = 0 ∨ p.ecityid = 0) ∧ p.rect = none then .error .paramterNull else .ok p

def condText (specs : List QuerySpec) (hdfrcv : Dataset) : Except TextError Bytes :=
  (mdbBuildQuerycond print none ⟨[], by decide⟩ (hdfSetIntValue hdfrcv "statu" planStPause) specs).map text

/-- The later two conditions have the required lines of the first, so only that one can fail. -/
def conditions (hdfrcv : Dataset) : Except TextError (Conds M) :=
  (condText print geoa hdfrcv).bind fun a =>
    (condText print geob hdfrcv).bind fun b =>
      (condText print geox hdfrcv).map fun x => ⟨meaning a, meaning b, meaning x⟩

/-- A row becomes a child under its id, or is written over the one that is there. -/
def setRow (plans : List PlanNode) (row : PlanNode) : List PlanNode :=
  if row.name ∈ plans.map PlanNode.name then
    plans.map fun node => if node.name = row.name then { node with cols := hdfCopy node.cols row.cols } else node
  else plans ++ [row]

theorem names_setRow (plans : List PlanNode) (row : PlanNode) :
    (setRow plans row).map PlanNode.name =
      if row.name ∈ plans.map PlanNode.name then plans.map PlanNode.name
      else plans.map PlanNode.name ++ [row.name] := by
  unfold setRow
  split
  · rw [List.map_map]
    apply List.map_congr_left
    intro node _
    dsimp only [Function.comp_apply]
    split <;> rfl
  · rw [List.map_append]
    rfl

def mdbSetRows (plans rows : List PlanNode) : List PlanNode := rows.foldl setRow plans

/-- The plans, and the number of rows of the last query. -/
structure Found where
  plans : List PlanNode
  ttnum : ℕ

/-- Too many plans of the two cities are thrown away; for these, or too few, the wider condition is used, and the
widest when there is nothing. -/
def search (server : M → Option (List PlanNode)) (conds : Conds M) : Except MatchErr Found :=
  match server conds.a with
  | none => .error .db
  | some rows =>
    let found : Found := if geoaMax < rows.length then ⟨[], 0⟩ else ⟨mdbSetRows [] rows, rows.length⟩
    if found.ttnum < geoaMin then
      match server conds.b with
      | none => .error .db
      | some [] =>
        match server conds.x with
        | none => .error .db
        | some [] => .error .nmatch
        | some rows => .ok ⟨mdbSetRows found.plans rows, rows.length⟩
      | some rows => .ok ⟨mdbSetRows found.plans rows, rows.length⟩
    else .ok found

/-- Plans that are too far away are removed, or those that are too many. -/
def cutPlans (maxday nmax : ℤ) (thatsec : ℤ) (plans : List PlanNode) (ttnum : ℕ) : Matched :=
  let left :=
    if 0 < maxday then plans.filter fun node => pubPlanGetRelsec node thatsec < wrap 32 (maxday * (24 * 60 * 60))
    else if nmax < ttnum then plans.take nmax.toNat
    else plans
  ⟨left, ttnum - (plans.length - left.length : ℕ)⟩

/-- The plans of a request with a date are sorted, and cut. -/
def reply (clock : Clock F) (p : Params F) (found : Found) : Matched :=
  match p.pdate with
  | none => ⟨found.plans, found.ttnum⟩
  | some pdate =>
    let thatsec := pubPlanGetAbssec clock pdate p.ptime
    cutPlans p.maxday p.nmax thatsec (pubPlanSortByTime floats clock found.plans p.km thatsec pdate) found.ttnum

/-- What is behind the look into the cache. -/
def answer (env : Env F M) (p : Params F) (hdfrcv : Dataset) : Except MatchErr Matched :=
  match conditions print meaning hdfrcv with
  | .error err => .error (.build err)
  | .ok conds =>
    match search env.server conds with
    | .error err => .error err
    | .ok found => if env.calloc then .ok (reply floats env.clock p found) else .error .mem

def planCmdPlanMatch (env : Env F M) (hdfrcv : Dataset) : Except MatchErr Matched :=
  match params floats hdfrcv with
  | .error err => .error err
  | .ok p => answer floats print meaning env p hdfrcv

end Request

theorem eachCol_ok_iff {σ : Type} {data : Dataset} {add : σ → QuerySpec → Bytes → σ} {specs : List QuerySpec} {str : σ} :
    (∃ out, eachCol data add str specs = .ok out) ↔
      ∀ spec ∈ specs, spec.require = true → nonempty data spec.name ≠ none := by
  induction specs generalizing str with
  | nil => exact iff_of_true ⟨str, rfl⟩ (List.forall_mem_nil _)
  | cons spec specs ih =>
    rw [List.forall_mem_cons, eachCol]
    cases hval : nonempty data spec.name with
    | some val =>
      dsimp only
      rw [ih]
      exact ⟨fun h => ⟨fun _ => Option.some_ne_none val, h⟩, fun h => h.2⟩
    | none =>
      cases hrequire : spec.require with
      | true =>
        apply iff_of_false
        · rintro ⟨out, h⟩
          cases h
        · intro h
          exact h.1 rfl rfl
      | false =>
        simp only [Bool.false_eq_true, if_false]
        rw [ih]
        constructor
        · intro h
          refine ⟨fun hrequire => ?_, h⟩
          cases hrequire
        · exact fun h => h.2

theorem eachCol_congr {σ : Type} {data data' : Dataset} {add : σ → QuerySpec → Bytes → σ} {specs : List QuerySpec}
    {str : σ} (h : ∀ spec ∈ specs, nonempty data spec.name = nonempty data' spec.name) :
    eachCol data add str specs = eachCol data' add str specs := by
  induction specs generalizing str with
  | nil => rfl
  | cons spec specs ih =>
    rw [List.forall_mem_cons] at h
    rw [eachCol, eachCol, h.1]
    cases nonempty data' spec.name with
    | some val => exact ih h.2
    | none =>
      dsimp only
      rw [ih h.2]

section Conditions
variable {M : Type} (print : FloatText) (meaning : Bytes → M) {hdfrcv : Dataset}

theorem conditions_congr {hdfrcv' : Dataset}
    (h : ∀ name ∈ ["dad", "scityid", "ecityid", "km", "rect", "sgeo"], nonempty hdfrcv name = nonempty hdfrcv' name) :
    conditions print meaning hdfrcv = conditions print meaning hdfrcv' := by
  have hread : ∀ name ∈ ["dad", "statu", "scityid", "ecityid", "km", "rect", "sgeo"],
      nonempty (hdfSetIntValue hdfrcv "statu" planStPause) name =
        nonempty (hdfSetIntValue hdfrcv' "statu" planStPause) name := by
    intro name hname
    rw [hdfSetIntValue, hdfSetIntValue, nonempty_set, nonempty_set]
    by_cases hstatu : name = "statu"
    · rw [if_pos hstatu, if_pos hstatu]
    · rw [if_neg hstatu, if_neg hstatu]
      apply h
      simpa [hstatu] using hname
  have htext : ∀ specs : List QuerySpec, (∀ spec ∈ specs, spec.name ∈
      ["dad", "statu", "scityid", "ecityid", "km", "rect", "sgeo"]) →
      condText print specs hdfrcv = condText print specs hdfrcv' := by
    intro specs hspecs
    rw [condText, condText, mdbBuildQuerycond, mdbBuildQuerycond,
      eachCol_congr fun spec hspec => hread spec.name (hspecs spec hspec)]
  rw [conditions, conditions, htext geoa (by simp [geoa, required]), htext geob (by simp [geob, required]),
    htext geox (by simp [geox, required])]

end Conditions

end Cmoon.PlanMatching
