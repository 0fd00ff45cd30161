import Cmoon.DecimalText
import Cmoon.ExceptResults

/-! # Parameters of a MySQL statement

The driver replaces the first `$` of the statement, with the digits behind it, by the next value, and goes on with the
statement that comes of it. A text is a list of symbols here: bytes for what the driver does, and cells, which know
where a byte comes from, for what becomes of each of them. -/
namespace Cmoon.MysqlBinding
open DecimalText ExceptResults

def mysqlRealEscapeString (s : Bytes) : Bytes :=
  s.flatMap fun b => if b = 0 then [92, 48] else if b = 39 || b = 34 || b = 92 then [92, b] else [b]

inductive Arg where
  | int (n : ℤ)
  | str (s : Bytes)
  deriving DecidableEq

inductive PutErr where
  | sqlString
  | formatString (b : UInt8)
  /-- `va_arg` of another type than the argument has. -/
  | vaArg
  deriving DecidableEq

section Driver
variable {α : Type} (byte : α → UInt8) (value : UInt8 → α)

/-- `mysql_add_sql_int` and `mysql_add_sql_str`: the new statement, and the `$` that is gone. -/
def addSql (sql : List α) (tok : Bytes) : Option (List α × α) :=
  match sql.dropWhile fun x => byte x != 36 with
  | [] => none
  | p :: q =>
    some ((sql.takeWhile fun x => byte x != 36) ++ (tok.map value ++ q.dropWhile fun x => isDigit (byte x)), p)

def mysqlAddSqlInt (sql : List α) (val : ℤ) : Option (List α × α) := addSql byte value sql (printInt val)

def mysqlAddSqlStr (sql : List α) (val : Bytes) : Option (List α × α) :=
  addSql byte value sql (mysqlRealEscapeString val)

/-- A value that is not flagged null goes into the statement. -/
def putOne (isNull : Bool) (added : Option (List α × α)) (sql : List α) : Except PutErr (List α × List α) :=
  if isNull then .ok (sql, [])
  else
    match added with
    | some (sql, p) => .ok (sql, [p])
    | none => .error .sqlString

def putLetter (sql : List α) (letter : UInt8) (isNull : Bool) (args : List Arg) :
    Except PutErr ((List α × List α) × List Arg) :=
  if letter = 115 then
    match args with
    | .str val :: args => (putOne isNull (mysqlAddSqlStr byte value sql val) sql).map (·, args)
    | _ => .error .vaArg
  else if letter = 105 then
    match args with
    | .int val :: args => (putOne isNull (mysqlAddSqlInt byte value sql val) sql).map (·, args)
    | _ => .error .vaArg
  else .error (.formatString letter)

/-- The loop of `mysql_mdb_query_putv`: the statement that is sent, and each `$` that was taken for a placeholder. -/
def putv (sql : List α) : Bytes → List Arg → Except PutErr (List α × List α)
  | [], _ => .ok (sql, [])
  | 63 :: letter :: fmt, .int isNull :: args =>
    match putLetter byte value sql letter (isNull ≠ 0) args with
    | .error err => .error err
    | .ok ((sql, gone), args) => (putv sql fmt args).map fun r => (r.1, gone ++ r.2)
  | letter :: fmt, args =>
    match putLetter byte value sql letter false args with
    | .error err => .error err
    | .ok ((sql, gone), args) => (putv sql fmt args).map fun r => (r.1, gone ++ r.2)

end Driver

def mysqlMdbQueryPutv (sql : Bytes) (fmt : Bytes) (args : List Arg) : Except PutErr Bytes :=
  (putv id id sql fmt args).map Prod.fst

inductive Value where
  | int (n : ℤ)
  | str (s : Bytes)
  deriving DecidableEq

/-- A value, and its null flag when the format has a `?` for it. -/
structure Param where
  flag : Option ℤ
  value : Value
  deriving DecidableEq

def Param.isNull (p : Param) : Bool :=
  match p.flag with
  | some flag => flag ≠ 0
  | none => false

def Value.letter : Value → UInt8
  | .int _ => 105
  | .str _ => 115

def Value.arg : Value → Arg
  | .int n => .int n
  | .str s => .str s

def Param.fmt (p : Param) : Bytes :=
  match p.flag with
  | some _ => [63, p.value.letter]
  | none => [p.value.letter]

def Param.args (p : Param) : List Arg :=
  match p.flag with
  | some flag => [.int flag, p.value.arg]
  | none => [p.value.arg]

def Value.text : Value → Bytes
  | .int n => printInt n
  | .str s => mysqlRealEscapeString s

def Param.text (p : Param) : Bytes := if p.isNull then [78, 85, 76, 76] else p.value.text

/-- A placeholder with its parameter, and the text behind it. -/
structure Slot where
  param : Param
  behind : Bytes
  /-- A digit would belong to the placeholder. -/
  apart : (behind.head?.map isDigit).getD false = false

/-- A template whose placeholders are `$1` to `$n` in order, with its parameters. -/
structure Template where
  front : Bytes
  slots : List Slot

/-- Where a byte of a statement comes from. -/
inductive Origin where
  | text
  | placeholder (k : ℕ)
  | value
  deriving DecidableEq

structure Cell where
  byte : UInt8
  origin : Origin
  deriving DecidableEq

def textCells (s : Bytes) : List Cell := s.map (⟨·, .text⟩)

def slotCells : ℕ → List Slot → List Cell
  | _, [] => []
  | k, slot :: slots =>
    ⟨36, .placeholder k⟩ :: (textCells (printNat k) ++ (textCells slot.behind ++ slotCells (k + 1) slots))

def Template.cells (t : Template) : List Cell := textCells t.front ++ slotCells 1 t.slots

def Template.sql (t : Template) : Bytes := t.cells.map Cell.byte

def fmtOf (slots : List Slot) : Bytes := slots.flatMap fun slot => slot.param.fmt
def argsOf (slots : List Slot) : List Arg := slots.flatMap fun slot => slot.param.args

/-- The placeholders replaced, and nothing else. -/
def expectedFrom (slots : List Slot) : Bytes := slots.flatMap fun slot => slot.param.text ++ slot.behind

def Template.expected (t : Template) : Bytes := t.front ++ expectedFrom t.slots

def placeholders (k n : ℕ) : List Cell := (List.range' k n).map fun i => ⟨36, .placeholder i⟩

/-- The statement that is sent is the template with its placeholders replaced, and what is taken for a placeholder is
the first, the second, ... placeholder of the template. -/
def Bound (t : Template) : Prop :=
  mysqlMdbQueryPutv t.sql (fmtOf t.slots) (argsOf t.slots) = .ok t.expected ∧
    (putv Cell.byte (⟨·, .value⟩) t.cells (fmtOf t.slots) (argsOf t.slots)).map Prod.snd =
      .ok (placeholders 1 t.slots.length)

/-- No parameter is null, and no `$` stands before the last placeholder, be it in the template or in a value. -/
structure Clear (t : Template) : Prop where
  nulls : ∀ slot ∈ t.slots, slot.param.isNull = false
  texts : ∀ s ∈ (t.front :: t.slots.map Slot.behind).take t.slots.length, 36 ∉ s
  values : ∀ slot ∈ t.slots.dropLast, ∀ s, slot.param.value = .str s → 36 ∉ s

section Driver
variable {α : Type} (byte : α → UInt8) (value : UInt8 → α)

def andThen (fmt : Bytes) (step : Except PutErr ((List α × List α) × List Arg)) : Except PutErr (List α × List α) :=
  match step with
  | .error err => .error err
  | .ok ((sql, gone), args) => (putv byte value sql fmt args).map fun r => (r.1, gone ++ r.2)

theorem putv_flag (sql : List α) (letter : UInt8) (fmt : Bytes) (flag : ℤ) (args : List Arg) :
    putv byte value sql (63 :: letter :: fmt) (.int flag :: args) =
      andThen byte value fmt (putLetter byte value sql letter (flag ≠ 0) args) := by
  rw [putv]
  rfl

theorem putv_letter (sql : List α) {letter : UInt8} (h : letter ≠ 63) (fmt : Bytes) (args : List Arg) :
    putv byte value sql (letter :: fmt) args = andThen byte value fmt (putLetter byte value sql letter false args) := by
  rw [putv]
  · rfl
  · intro letter' fmt' flag args' hargs hletter
    exact (h hletter).elim

theorem Value.letter_ne (v : Value) : v.letter ≠ 63 := by
  cases v with
  | int n => exact (show (105 : UInt8) ≠ 63 by decide)
  | str s => exact (show (115 : UInt8) ≠ 63 by decide)

theorem putLetter_value (sql : List α) (v : Value) (isNull : Bool) (args : List Arg) :
    putLetter byte value sql v.letter isNull (v.arg :: args) =
      (putOne isNull (addSql byte value sql v.text) sql).map (·, args) := by
  cases v <;> rfl

theorem putv_param (sql : List α) (p : Param) (fmt : Bytes) (args : List Arg) :
    putv byte value sql (p.fmt ++ fmt) (p.args ++ args) =
      andThen byte value fmt ((putOne p.isNull (addSql byte value sql p.value.text) sql).map (·, args)) := by
  obtain ⟨flag, v⟩ := p
  unfold Param.fmt Param.args Param.isNull
  cases flag with
  | none =>
    rw [← putLetter_value]
    exact putv_letter byte value sql v.letter_ne fmt _
  | some flag =>
    rw [← putLetter_value]
    exact putv_flag byte value sql _ fmt flag _

theorem putv_of_null (sql : List α) {slot : Slot} (h : slot.param.isNull = true) (slots : List Slot) :
    putv byte value sql (fmtOf (slot :: slots)) (argsOf (slot :: slots)) =
      putv byte value sql (fmtOf slots) (argsOf slots) := by
  rw [fmtOf, argsOf, List.flatMap_cons, List.flatMap_cons, putv_param, h]
  change (putv byte value sql (fmtOf slots) (argsOf slots)).map (fun r => (r.1, [] ++ r.2)) = _
  cases putv byte value sql (fmtOf slots) (argsOf slots) <;> rfl

/-- Any other takes the place of the first `$`, and there has to be one. -/
theorem putv_of_added (sql : List α) {slot : Slot} (h : slot.param.isNull = false) (slots : List Slot)
    {sql' : List α} {p : α} (hadd : addSql byte value sql slot.param.value.text = some (sql', p)) :
    putv byte value sql (fmtOf (slot :: slots)) (argsOf (slot :: slots)) =
      (putv byte value sql' (fmtOf slots) (argsOf slots)).map fun r => (r.1, p :: r.2) := by
  rw [fmtOf, argsOf, List.flatMap_cons, List.flatMap_cons, putv_param, h, hadd]
  rfl

theorem putv_of_not_added (sql : List α) {slot : Slot} (h : slot.param.isNull = false) (slots : List Slot)
    (hadd : addSql byte value sql slot.param.value.text = none) :
    putv byte value sql (fmtOf (slot :: slots)) (argsOf (slot :: slots)) = .error .sqlString := by
  rw [fmtOf, argsOf, List.flatMap_cons, List.flatMap_cons, putv_param, h, hadd]
  rfl

theorem gone_length_le {sql sql' gone : List α} {slots : List Slot}
    (h : putv byte value sql (fmtOf slots) (argsOf slots) = .ok (sql', gone)) : gone.length ≤ slots.length := by
  induction slots generalizing sql gone with
  | nil =>
    cases h
    exact Nat.le_refl 0
  | cons slot slots ih =>
    cases hnull : slot.param.isNull with
    | true =>
      rw [putv_of_null byte value sql hnull] at h
      exact Nat.le_succ_of_le (ih h)
    | false =>
      cases hadd : addSql byte value sql slot.param.value.text with
      | none =>
        rw [putv_of_not_added byte value sql hnull slots hadd] at h
        cases h
      | some r =>
        rw [putv_of_added byte value sql hnull slots hadd] at h
        obtain ⟨r', hr', heq⟩ := map_eq_ok h
        cases heq
        exact Nat.succ_le_succ (ih hr')

/-- The first `$` is behind a text that has none. -/
theorem addSql_first {front : List α} (hfront : ∀ x ∈ front, byte x ≠ 36) {p : α} (hp : byte p = 36) (rest : List α)
    (tok : Bytes) :
    addSql byte value (front ++ p :: rest) tok =
      some (front ++ (tok.map value ++ rest.dropWhile fun x => isDigit (byte x)), p) := by
  have hb : ∀ x ∈ front, (byte x != 36) = true := fun x hx => bne_iff_ne.mpr (hfront x hx)
  have hpb : (byte p != 36) = false := bne_eq_false_iff_eq.mpr hp
  unfold addSql
  rw [List.dropWhile_append_of_pos hb, List.takeWhile_append_of_pos hb, List.dropWhile_cons, List.takeWhile_cons, hpb]
  simp

/-- Symbols that are mapped to their bytes do not make a difference. -/
theorem addSql_map (hvalue : ∀ b, byte (value b) = b) (sql : List α) (tok : Bytes) :
    addSql id id (sql.map byte) tok = (addSql byte value sql tok).map fun r => (r.1.map byte, byte r.2) := by
  have htok : (tok.map value).map byte = tok := by
    rw [List.map_map]
    exact List.map_id'' hvalue tok
  unfold addSql
  rw [List.dropWhile_map, List.takeWhile_map]
  simp only [Function.comp_def, id_eq]
  cases sql.dropWhile fun x => byte x != 36 with
  | nil => rfl
  | cons p q =>
    simp [htok, List.dropWhile_map, Function.comp_def]

theorem putv_map (hvalue : ∀ b, byte (value b) = b) (sql : List α) (slots : List Slot) :
    putv id id (sql.map byte) (fmtOf slots) (argsOf slots) =
      (putv byte value sql (fmtOf slots) (argsOf slots)).map fun r => (r.1.map byte, r.2.map byte) := by
  induction slots generalizing sql with
  | nil => rfl
  | cons slot slots ih =>
    cases hnull : slot.param.isNull with
    | true => rw [putv_of_null id id _ hnull, putv_of_null byte value _ hnull, ih]
    | false =>
      have hmap := addSql_map byte value hvalue sql slot.param.value.text
      cases hadd : addSql byte value sql slot.param.value.text with
      | none =>
        rw [hadd] at hmap
        rw [putv_of_not_added id id _ hnull slots hmap, putv_of_not_added byte value _ hnull slots hadd]
        rfl
      | some r =>
        rw [hadd] at hmap
        rw [putv_of_added id id _ hnull slots hmap, putv_of_added byte value _ hnull slots hadd, ih]
        cases putv byte value r.1 (fmtOf slots) (argsOf slots) <;> rfl

end Driver

def valueCells (s : Bytes) : List Cell := s.map (⟨·, .value⟩)

def Foreign (cells : List Cell) : Prop := ∀ x ∈ cells, ∀ k, x.origin ≠ .placeholder k

theorem foreign_append {xs ys : List Cell} (hx : Foreign xs) (hy : Foreign ys) : Foreign (xs ++ ys) :=
  List.forall_mem_append.mpr ⟨hx, hy⟩

theorem foreign_text (s : Bytes) : Foreign (textCells s) := by
  intro x hx k
  obtain ⟨b, -, rfl⟩ := List.mem_map.mp hx
  exact Origin.noConfusion

theorem foreign_value (s : Bytes) : Foreign (valueCells s) := by
  intro x hx k
  obtain ⟨b, -, rfl⟩ := List.mem_map.mp hx
  exact Origin.noConfusion

theorem textCells_bytes (s : Bytes) : (textCells s).map Cell.byte = s := by
  rw [textCells, List.map_map]
  exact List.map_id s

theorem valueCells_bytes (s : Bytes) : (valueCells s).map Cell.byte = s := by
  rw [valueCells, List.map_map]
  exact List.map_id s

theorem dropWhile_digits (k : ℕ) {behind : Bytes} (h : (behind.head?.map isDigit).getD false = false) (j : ℕ)
    (slots : List Slot) :
    (textCells (printNat k) ++ (textCells behind ++ slotCells j slots)).dropWhile (fun x => isDigit x.byte) =
      textCells behind ++ slotCells j slots := by
  have hdigits : ∀ x ∈ textCells (printNat k), isDigit x.byte = true := by
    intro x hx
    obtain ⟨b, hb, rfl⟩ := List.mem_map.mp hx
    exact printNat_digits k b hb
  rw [List.dropWhile_append_of_pos hdigits]
  cases behind with
  | cons b behind => exact List.dropWhile_cons_of_neg (by simpa using h)
  | nil =>
    cases slots with
    | nil => rfl
    | cons slot slots => rfl

/-- A `$` before the first placeholder is taken for it. -/
theorem gone_ne_of_foreign {pre rest cells gone : List Cell} {k : ℕ} {slots : List Slot} (hpre : Foreign pre)
    (hdollar : ∃ x ∈ pre, x.byte = 36) (hslots : slots ≠ [])
    (h : putv Cell.byte (⟨·, .value⟩) (pre ++ rest) (fmtOf slots) (argsOf slots) = .ok (cells, gone)) :
    gone ≠ placeholders k slots.length := by
  intro hgone
  cases slots with
  | nil => exact hslots rfl
  | cons slot slots =>
    cases hnull : slot.param.isNull with
    | true =>
      rw [putv_of_null _ _ _ hnull] at h
      have hle := gone_length_le _ _ h
      rw [hgone] at hle
      simp [placeholders] at hle
    | false =>
      -- the first `$` is among the cells in front
      obtain ⟨before, p, after, rfl, hp, hbefore⟩ : ∃ before p after, pre = before ++ p :: after ∧ p.byte = 36 ∧
          ∀ x ∈ before, x.byte ≠ 36 := by
        obtain ⟨x, hx, h36⟩ := hdollar
        obtain ⟨p, hfind⟩ := Option.isSome_iff_exists.mp
          (List.find?_isSome (p := fun x : Cell => x.byte == 36) |>.mpr ⟨x, hx, beq_iff_eq.mpr h36⟩)
        obtain ⟨hp, before, after, rfl, hbefore⟩ := List.find?_eq_some_iff_append.mp hfind
        refine ⟨before, p, after, rfl, beq_iff_eq.mp hp, ?_⟩
        intro y hy h
        simpa [h] using hbefore y hy
      rw [List.append_assoc, List.cons_append] at h
      rw [putv_of_added _ _ _ hnull slots (addSql_first _ _ hbefore hp _ _)] at h
      obtain ⟨r, -, heq⟩ := map_eq_ok h
      have hfirst : p = ⟨36, .placeholder k⟩ := by
        have hcons := (Prod.mk.inj heq).2.trans hgone
        rw [placeholders, List.length_cons, List.range'_succ, List.map_cons] at hcons
        exact (List.cons.inj hcons).1
      exact hpre p (List.mem_append_right _ List.mem_cons_self) k (by rw [hfirst])

/-- What `Clear` says of a text and the placeholders behind it. -/
structure ClearFrom (front : Bytes) (slots : List Slot) : Prop where
  nulls : ∀ slot ∈ slots, slot.param.isNull = false
  texts : ∀ s ∈ (front :: slots.map Slot.behind).take slots.length, 36 ∉ s
  values : ∀ slot ∈ slots.dropLast, ∀ s, slot.param.value = .str s → 36 ∉ s

theorem clearFrom_nil (front : Bytes) : ClearFrom front [] where
  nulls := List.forall_mem_nil _
  texts := List.forall_mem_nil _
  values := List.forall_mem_nil _

theorem clearFrom_cons (front : Bytes) (slot : Slot) (slots : List Slot) :
    ClearFrom front (slot :: slots) ↔
      slot.param.isNull = false ∧ 36 ∉ front ∧ (slots ≠ [] → ∀ s, slot.param.value = .str s → 36 ∉ s) ∧
        ClearFrom slot.behind slots := by
  have hlast : (∀ slot' ∈ (slot :: slots).dropLast, ∀ s, slot'.param.value = .str s → 36 ∉ s) ↔
      (slots ≠ [] → ∀ s, slot.param.value = .str s → 36 ∉ s) ∧
        ∀ slot' ∈ slots.dropLast, ∀ s, slot'.param.value = .str s → 36 ∉ s := by
    cases slots with
    | nil => simp
    | cons slot' slots => simp
  constructor
  · intro h
    have hnulls := List.forall_mem_cons.mp h.nulls
    have htexts := List.forall_mem_cons.mp h.texts
    have hvalues := hlast.mp h.values
    exact ⟨hnulls.1, htexts.1, hvalues.1, hnulls.2, htexts.2, hvalues.2⟩
  · intro ⟨hnull, hfront, hvalue, hrest⟩
    exact ⟨List.forall_mem_cons.mpr ⟨hnull, hrest.nulls⟩, List.forall_mem_cons.mpr ⟨hfront, hrest.texts⟩,
      hlast.mpr ⟨hvalue, hrest.values⟩⟩

theorem dollar_mem_escaped (s : Bytes) : 36 ∈ mysqlRealEscapeString s ↔ 36 ∈ s := by
  induction s with
  | nil => exact Iff.rfl
  | cons b s ih =>
    rw [mysqlRealEscapeString, List.flatMap_cons, List.mem_append, List.mem_cons]
    rw [mysqlRealEscapeString] at ih
    rw [ih]
    apply or_congr_left
    split_ifs with h0 hq
    · subst h0
      decide
    · simp only [Bool.or_eq_true, decide_eq_true_eq] at hq
      rcases hq with (rfl | rfl) | rfl <;> decide
    · exact List.mem_singleton

theorem dollar_mem_text (v : Value) : 36 ∈ v.text ↔ ∃ s, v = .str s ∧ 36 ∈ s := by
  cases v with
  | int n =>
    constructor
    · intro h
      exact absurd h (notMem_printInt rfl (by decide) n)
    · intro ⟨s, h, _⟩
      cases h
  | str s =>
    rw [Value.text, dollar_mem_escaped]
    constructor
    · intro h
      exact ⟨s, rfl, h⟩
    · intro ⟨s', h, hs⟩
      cases h
      exact hs

/-- The loop over the cells of a template, with texts in front that have been passed. -/
def Fills (passed : List Cell) (front : Bytes) (k : ℕ) (slots : List Slot) : Prop :=
  ∃ cells, putv Cell.byte (⟨·, .value⟩) (passed ++ (textCells front ++ slotCells k slots)) (fmtOf slots) (argsOf slots) =
      .ok (cells, placeholders k slots.length) ∧
    cells.map Cell.byte = passed.map Cell.byte ++ (front ++ expectedFrom slots)

theorem fills_nil (passed : List Cell) (front : Bytes) (k : ℕ) : Fills passed front k [] := by
  refine ⟨passed ++ (textCells front ++ []), rfl, ?_⟩
  rw [List.map_append, List.map_append, textCells_bytes]
  rfl

/-- The cells of a text without a `$`. -/
theorem byte_ne_dollar {origin : Origin} {s : Bytes} (h : 36 ∉ s) : ∀ x ∈ s.map (Cell.mk · origin), x.byte ≠ 36 := by
  intro x hx h36
  obtain ⟨b, hb, rfl⟩ := List.mem_map.mp hx
  exact h (h36 ▸ hb)

/-- A placeholder that is reached is replaced, and its value and its text have been passed then. -/
theorem fills_cons {passed : List Cell} (hpassed : ∀ x ∈ passed, x.byte ≠ 36) {front : Bytes} (hfront : 36 ∉ front)
    (k : ℕ) {slot : Slot} (hnull : slot.param.isNull = false) (slots : List Slot) :
    Fills passed front k (slot :: slots) ↔
      Fills (passed ++ (textCells front ++ valueCells slot.param.value.text)) slot.behind (k + 1) slots := by
  have hbefore : ∀ x ∈ passed ++ textCells front, x.byte ≠ 36 :=
    List.forall_mem_append.mpr ⟨hpassed, byte_ne_dollar hfront⟩
  have hsql : passed ++ (textCells front ++ slotCells k (slot :: slots)) = (passed ++ textCells front) ++
      ⟨36, .placeholder k⟩ :: (textCells (printNat k) ++ (textCells slot.behind ++ slotCells (k + 1) slots)) := by
    rw [slotCells, List.append_assoc]
  have hadd := addSql_first Cell.byte (⟨·, .value⟩) hbefore (p := ⟨36, .placeholder k⟩) rfl
    (textCells (printNat k) ++ (textCells slot.behind ++ slotCells (k + 1) slots)) slot.param.value.text
  rw [dropWhile_digits k slot.apart, ← hsql] at hadd
  have hassoc : passed ++ textCells front ++ (slot.param.value.text.map (⟨·, Origin.value⟩) ++
        (textCells slot.behind ++ slotCells (k + 1) slots)) =
      passed ++ (textCells front ++ valueCells slot.param.value.text) ++
        (textCells slot.behind ++ slotCells (k + 1) slots) := by
    simp [valueCells]
  rw [hassoc] at hadd
  have hbytes : passed.map Cell.byte ++ (front ++ expectedFrom (slot :: slots)) =
      (passed ++ (textCells front ++ valueCells slot.param.value.text)).map Cell.byte ++
        (slot.behind ++ expectedFrom slots) := by
    have htext : slot.param.text = slot.param.value.text := by
      rw [Param.text, hnull]
      rfl
    simp only [List.map_append, textCells_bytes, valueCells_bytes, expectedFrom, List.flatMap_cons, htext,
      List.append_assoc]
  unfold Fills
  rw [putv_of_added _ _ _ hnull slots hadd, hbytes, List.length_cons]
  constructor
  · intro ⟨cells, h, hcells⟩
    obtain ⟨r, hr, heq⟩ := map_eq_ok h
    obtain ⟨rfl, hgone⟩ := Prod.mk.inj heq
    rw [placeholders, List.range'_succ, List.map_cons] at hgone
    refine ⟨r.1, ?_, hcells⟩
    rw [hr, placeholders, ← (List.cons.inj hgone).2]
  · intro ⟨cells, h, hcells⟩
    refine ⟨cells, ?_, hcells⟩
    rw [h, placeholders, placeholders, List.range'_succ, List.map_cons]
    rfl

theorem not_fills_of_foreign {passed : List Cell} {front : Bytes} {k : ℕ} {slots : List Slot}
    (hforeign : Foreign passed) (hdollar : (∃ x ∈ passed, x.byte = 36) ∨ 36 ∈ front) (hslots : slots ≠ []) :
    ¬ Fills passed front k slots := by
  intro ⟨cells, h, _⟩
  rw [← List.append_assoc] at h
  refine gone_ne_of_foreign (foreign_append hforeign (foreign_text front)) ?_ hslots h rfl
  rcases hdollar with ⟨x, hx, h36⟩ | hmem
  · exact ⟨x, List.mem_append_left _ hx, h36⟩
  · exact ⟨⟨36, .text⟩, List.mem_append_right _ (List.mem_map_of_mem hmem), rfl⟩

theorem not_fills_of_null {passed : List Cell} {front : Bytes} {k : ℕ} {slot : Slot} {slots : List Slot}
    (hnull : slot.param.isNull = true) : ¬ Fills passed front k (slot :: slots) := by
  intro ⟨cells, h, _⟩
  rw [putv_of_null _ _ _ hnull] at h
  have hle := gone_length_le _ _ h
  simp [placeholders] at hle

/-- Along the placeholders: each step needs its text and the values behind it to be clear. -/
theorem fills_iff_clearFrom {passed : List Cell} (hpassed : ∀ x ∈ passed, x.byte ≠ 36) (hforeign : Foreign passed)
    (front : Bytes) (k : ℕ) (slots : List Slot) : Fills passed front k slots ↔ ClearFrom front slots := by
  induction slots generalizing passed front k with
  | nil => exact ⟨fun _ => clearFrom_nil front, fun _ => fills_nil passed front k⟩
  | cons slot slots ih =>
    rw [clearFrom_cons]
    cases hnull : slot.param.isNull with
    | true => exact ⟨fun h => (not_fills_of_null hnull h).elim, fun h => Bool.noConfusion h.1⟩
    | false =>
      by_cases hfront : 36 ∈ front
      · have hnot : ¬ Fills passed front k (slot :: slots) :=
          not_fills_of_foreign hforeign (.inr hfront) (List.cons_ne_nil _ _)
        exact ⟨fun h => (hnot h).elim, fun h => (h.2.1 hfront).elim⟩
      · rw [fills_cons hpassed hfront k hnull]
        have hforeign' : Foreign (passed ++ (textCells front ++ valueCells slot.param.value.text)) :=
          foreign_append hforeign (foreign_append (foreign_text _) (foreign_value _))
        by_cases hvalue : 36 ∈ slot.param.value.text
        · cases slots with
          | nil =>
            constructor
            · intro _
              exact ⟨rfl, hfront, fun h => (h rfl).elim, clearFrom_nil _⟩
            · intro _
              exact fills_nil _ _ _
          | cons slot' slots =>
            have hne : slot' :: slots ≠ [] := List.cons_ne_nil _ _
            constructor
            · intro h
              refine (not_fills_of_foreign hforeign' (.inl ⟨⟨36, .value⟩, ?_, rfl⟩) hne h).elim
              exact List.mem_append_right _ (List.mem_append_right _ (List.mem_map_of_mem hvalue))
            · intro h
              obtain ⟨s, hs, hdollar⟩ := (dollar_mem_text _).mp hvalue
              exact (h.2.2.1 hne s hs hdollar).elim
        · rw [ih]
          · constructor
            · intro h
              refine ⟨rfl, hfront, fun _ s hs hdollar => hvalue ?_, h⟩
              exact (dollar_mem_text _).mpr ⟨s, hs, hdollar⟩
            · exact fun h => h.2.2.2
          · have hnext : ∀ x ∈ textCells front ++ valueCells slot.param.value.text, x.byte ≠ 36 :=
              List.forall_mem_append.mpr ⟨byte_ne_dollar hfront, byte_ne_dollar hvalue⟩
            exact List.forall_mem_append.mpr ⟨hpassed, hnext⟩
          · exact hforeign'

/-- The driver binds the parameters of a template as it should exactly when none is null, and no `$` stands before the
last placeholder that is not the one of a placeholder. -/
theorem bound_iff_clear (t : Template) : Bound t ↔ Clear t := by
  have hfills : Bound t ↔ Fills [] t.front 1 t.slots := by
    unfold Bound Fills mysqlMdbQueryPutv Template.sql Template.cells Template.expected
    rw [putv_map Cell.byte (⟨·, .value⟩) (fun _ => rfl)]
    constructor
    · intro ⟨hsent, hgone⟩
      obtain ⟨r, hr, hgone⟩ := map_eq_ok hgone
      rw [hr] at hsent
      refine ⟨r.1, ?_, Except.ok.inj hsent⟩
      rw [List.nil_append, hr, ← hgone]
    · intro ⟨cells, h, hcells⟩
      rw [List.nil_append] at h
      rw [h]
      exact ⟨congrArg Except.ok hcells, rfl⟩
  rw [hfills, fills_iff_clearFrom (List.forall_mem_nil _) (List.forall_mem_nil _)]
  exact ⟨fun h => ⟨h.nulls, h.texts, h.values⟩, fun h => ⟨h.nulls, h.texts, h.values⟩⟩

/-- `$1 $2`, with the values `$` and `x`. -/
def dollarFirst : Template := ⟨[], [⟨⟨none, .str [36]⟩, [32], rfl⟩, ⟨⟨none, .str [120]⟩, [], rfl⟩]⟩

theorem not_bound_dollarFirst : ¬ Bound dollarFirst := by
  intro h
  exact absurd h.1 (by decide)

end Cmoon.MysqlBinding
