import Cmoon.PrintfFormats

/-! # Arguments behind a format

`mdb_exec` writes a statement out with the first of its arguments and hands the others to the driver, for the places of
the statement. How many the first ones are it counts in the format itself. -/
namespace Cmoon.FormatArguments
open DecimalText PrintfFormats

/-- A connection, by what its driver answers: whether there is memory for a text (`vsprintf_alloc`), the errors of
`query_fill` and `query_putv`, and `query_get_affect_rows`. -/
structure Conn where
  room : Bytes → Bool
  queryFill : Bytes → Option ℤ
  queryPutv : Bytes → Option Bytes → List Arg → Option ℤ
  affectRows : Bytes → Option Bytes → List Arg → ℤ

inductive Call where
  | fill (sql : Bytes)
  | putv (fmt : Option Bytes) (ap : List Arg)
  deriving DecidableEq

inductive Err where
  | assert
  | nomem
  | driver (e : ℤ)
  deriving DecidableEq

/-- The calls of the driver, the error, and `*affectrow`, if it is set. -/
structure Exec where
  calls : List Call
  err : Option Err
  affectrow : Option ℤ
  deriving DecidableEq

/-- `*p == '%' && *p+1 != '%' && *p-1 != '%'`, where `*p+1` is `(*p)+1` -/
def needesc (b : UInt8) : Bool := b = 37 && (b.toNat : ℤ) + 1 ≠ 37 && (b.toNat : ℤ) - 1 ≠ 37

/-- `va_arg`, so many times; a fault behind the last argument. -/
def vaArg (n : ℕ) (ap : List Arg) : Option (List Arg) := if n ≤ ap.length then some (ap.drop n) else none

/-- `query_putv`, and what is behind it. -/
def putting (conn : Conn) (wanted : Bool) (sql : Bytes) (fmt : Option Bytes) (ap : List Arg) : Exec :=
  ⟨[.fill sql, .putv fmt ap], (conn.queryPutv sql fmt ap).map .driver,
    if wanted then some (conn.affectRows sql fmt ap) else none⟩

/-- `query_fill`, and what is behind it when it is taken. -/
def filling (conn : Conn) (sql : Bytes) (next : Option Exec) : Option Exec :=
  ((conn.queryFill sql).map fun e => some ⟨[.fill sql], some (.driver e), none⟩).getD next

def mdbExec (conn : Option Conn) (wanted : Bool) (sqlFmt fmt : Option Bytes) (ap : List Arg) : Option Exec :=
  match conn, sqlFmt with
  | some conn, some sqlFmt =>
    if sqlFmt.any needesc then
      (printf sqlFmt ap).bind fun sqlstr =>
        if conn.room sqlstr then
          filling conn sqlstr ((vaArg (sqlFmt.countP needesc) ap).map (putting conn wanted sqlstr fmt))
        else some ⟨[], some .nomem, none⟩
    else filling conn sqlFmt (some (putting conn wanted sqlFmt fmt ap))
  | _, _ => some ⟨[], some .assert, none⟩

inductive Conversion where
  | d
  | u
  | s
  deriving DecidableEq

def Conversion.letter : Conversion → UInt8
  | .d => 100
  | .u => 117
  | .s => 115

/-- Plain text, `%%`, or a conversion. -/
inductive Piece where
  | byte (b : UInt8) (hb : b ≠ 37)
  | percent
  | conversion (c : Conversion)

def Piece.text : Piece → Bytes
  | .byte b _ => [b]
  | .percent => [37, 37]
  | .conversion c => [37, c.letter]

def Piece.isPercent : Piece → Bool
  | .byte _ _ => false
  | .percent => true
  | .conversion _ => false

def Piece.isConversion : Piece → Bool
  | .byte _ _ => false
  | .percent => false
  | .conversion _ => true

def textOf (pieces : List Piece) : Bytes := pieces.flatMap Piece.text

def taken (pieces : List Piece) : ℕ := pieces.countP Piece.isConversion

theorem needesc_eq (b : UInt8) : needesc b = decide (b = 37) := by
  unfold needesc
  by_cases hb : b = 37
  · rw [hb]
    rfl
  · rw [decide_eq_false hb, Bool.false_and, Bool.false_and]

theorem countP_textOf (pieces : List Piece) :
    (textOf pieces).countP needesc = taken pieces + 2 * pieces.countP Piece.isPercent := by
  unfold textOf taken
  induction pieces with
  | nil => rfl
  | cons piece pieces ih =>
    have hpiece : piece.text.countP needesc =
        (if piece.isConversion = true then 1 else 0) + 2 * if piece.isPercent = true then 1 else 0 := by
      cases piece with
      | byte b hb => exact List.countP_eq_zero.mpr (by simp [needesc_eq, Piece.text, hb])
      | percent => rfl
      | conversion c => cases c <;> rfl
    rw [List.flatMap_cons, List.countP_append, ih, hpiece, List.countP_cons, List.countP_cons]
    omega

theorem percents_eq_zero_iff (pieces : List Piece) : pieces.countP Piece.isPercent = 0 ↔ .percent ∉ pieces := by
  rw [List.countP_eq_zero]
  constructor
  · exact fun h hmem => h _ hmem rfl
  · intro h piece hpiece hpercent
    cases piece with
    | byte b hb => cases hpercent
    | percent => exact h hpiece
    | conversion c => cases hpercent

/-- So many of the arguments are skipped as there are `%` in the format. -/
theorem mdbExec_eq (conn : Conn) (wanted : Bool) {pieces : List Piece} (fmt : Option Bytes) {first : List Arg}
    (params : List Arg) {sql : Bytes} (hsql : printf (textOf pieces) first = some sql)
    (hfirst : first.length = taken pieces) (hroom : conn.room sql = true) (hfill : conn.queryFill sql = none) :
    mdbExec (some conn) wanted (some (textOf pieces)) fmt (first ++ params) =
      (vaArg (2 * pieces.countP Piece.isPercent) params).map (putting conn wanted sql fmt) := by
  have hcount := countP_textOf pieces
  have hfilling : ∀ next, filling conn sql next = next := by
    intro next
    rw [filling, hfill]
    rfl
  unfold mdbExec
  dsimp only
  by_cases hany : (textOf pieces).any needesc = true
  · have hskip : vaArg ((textOf pieces).countP needesc) (first ++ params) =
        vaArg (2 * pieces.countP Piece.isPercent) params := by
      unfold vaArg
      rw [hcount, ← hfirst, List.length_append, ← List.drop_drop, List.drop_left]
      simp only [Nat.add_le_add_iff_left]
    rw [if_pos hany, printf_append_args hsql, Option.bind_some, if_pos hroom, hfilling, hskip]
  · -- without any `%` nothing is written out, and there is nothing to skip
    have hplain : 37 ∉ textOf pieces := by
      intro hmem
      exact hany (List.any_eq_true.mpr ⟨37, hmem, rfl⟩)
    have hnone : (textOf pieces).countP needesc = 0 := List.countP_eq_zero.mpr fun b hb hesc =>
      hany (List.any_eq_true.mpr ⟨b, hb, hesc⟩)
    obtain rfl := Option.some.inj ((printf_plain hplain first).symm.trans hsql)
    obtain ⟨hfew, hpercents⟩ : taken pieces = 0 ∧ 2 * pieces.countP Piece.isPercent = 0 := by omega
    have hnil : first = [] := List.eq_nil_of_length_eq_zero (hfirst.trans hfew)
    rw [if_neg hany, hfilling, hpercents, hnil]
    rfl

/-- The driver is handed the arguments behind those of the conversions if and only if no `%%` is in the format. -/
theorem handed_iff (conn : Conn) (wanted : Bool) (pieces : List Piece) (fmt : Option Bytes) (first params : List Arg)
    {sql : Bytes} (hsql : printf (textOf pieces) first = some sql) (hfirst : first.length = taken pieces)
    (hroom : conn.room sql = true) (hfill : conn.queryFill sql = none) :
    mdbExec (some conn) wanted (some (textOf pieces)) fmt (first ++ params) =
      some (putting conn wanted sql fmt params) ↔ .percent ∉ pieces := by
  rw [mdbExec_eq conn wanted fmt params hsql hfirst hroom hfill, ← percents_eq_zero_iff]
  unfold vaArg
  constructor
  · intro h
    obtain ⟨ap, hap, hput⟩ := Option.map_eq_some_iff.mp h
    obtain ⟨-, hcalls⟩ := List.cons.inj (congrArg Exec.calls hput)
    obtain ⟨-, rfl⟩ := Call.putv.inj (List.cons.inj hcalls).1
    split at hap
    · rename_i hle
      have hlen := congrArg List.length (Option.some.inj hap)
      rw [List.length_drop] at hlen
      omega
    · cases hap
  · intro hzero
    rw [hzero, if_pos (Nat.zero_le _)]
    rfl

/-- A driver that takes everything, with one row. -/
def willing : Conn := ⟨fun _ => true, fun _ => none, fun _ _ _ => none, fun _ _ _ => 1⟩

/-- `t=%d` -/
def plainPieces : List Piece := [.byte 116 (by decide), .byte 61 (by decide), .conversion .d]

/-- `t=7`, with `a` and `b` for its places -/
theorem handed_plain : mdbExec (some willing) true (some (textOf plainPieces)) (some [115, 115])
    ([.int 7] ++ [.str [97], .str [98]]) =
      some (putting willing true [116, 61, 55] (some [115, 115]) [.str [97], .str [98]]) :=
  (handed_iff willing true plainPieces (some [115, 115]) [.int 7] [.str [97], .str [98]] (by decide) rfl rfl rfl).mpr
    (by simp [plainPieces])

/-- `t%%2=%d` -/
def evenPieces : List Piece :=
  [.byte 116 (by decide), .percent, .byte 50 (by decide), .byte 61 (by decide), .conversion .d]

/-- `t%2=1`, with `a`, `b` and `c` for its places: only `c` is handed on. -/
theorem handed_even : (printf (textOf evenPieces) [.int 1] = some [116, 37, 50, 61, 49] ∧ taken evenPieces = 1) ∧
    mdbExec (some willing) true (some (textOf evenPieces)) (some [115, 115, 115])
      ([.int 1] ++ [.str [97], .str [98], .str [99]]) =
      some (putting willing true [116, 37, 50, 61, 49] (some [115, 115, 115]) [.str [99]]) ∧
    mdbExec (some willing) true (some (textOf evenPieces)) (some [115, 115, 115])
      ([.int 1] ++ [.str [97], .str [98], .str [99]]) ≠
      some (putting willing true [116, 37, 50, 61, 49] (some [115, 115, 115]) [.str [97], .str [98], .str [99]]) :=
  ⟨⟨by decide, rfl⟩, by decide, by decide⟩

end Cmoon.FormatArguments
