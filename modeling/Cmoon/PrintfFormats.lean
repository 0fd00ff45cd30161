import Cmoon.DecimalText

/-! # Formats of `printf`

Formats with the conversions `%d`, `%u` and `%s`, written out with a list of arguments. -/
namespace Cmoon.PrintfFormats
open DecimalText

inductive Arg where
  | int (x : ℤ)
  | str (s : Bytes)
  deriving DecidableEq

/-- What a conversion makes of an argument of its kind. -/
def converted (c : UInt8) : Arg → Option Bytes
  | .int x =>
    if c = 100 then some (printInt (wrap 32 x)) else if c = 117 then some (printNat (x % 2 ^ 32).toNat) else none
  | .str s => if c = 115 then some s else none

/-- The text of a format; none where an argument is missing or of another kind, or `%` stands before anything else. -/
def printf : Bytes → List Arg → Option Bytes
  | [], _ => some []
  | [b], _ => if b = 37 then none else some [b]
  | b :: c :: fmt, args =>
    if b ≠ 37 then (printf (c :: fmt) args).map (b :: ·)
    else if c = 37 then (printf fmt args).map (37 :: ·)
    else args.head?.bind fun arg => (converted c arg).bind fun s => (printf fmt args.tail).map (s ++ ·)

variable {b c : UInt8} {fmt s text : Bytes} {args : List Arg}

theorem printf_byte (hb : b ≠ 37) (fmt : Bytes) (args : List Arg) :
    printf (b :: fmt) args = (printf fmt args).map (b :: ·) := by
  cases fmt with
  | nil =>
    change (if b = 37 then none else some [b]) = some [b]
    rw [if_neg hb]
  | cons c fmt => rw [printf, if_pos hb]

theorem printf_percent (fmt : Bytes) (args : List Arg) :
    printf (37 :: 37 :: fmt) args = (printf fmt args).map (37 :: ·) := by
  rw [printf, if_neg (not_not_intro rfl), if_pos rfl]

theorem printf_conversion (hc : c ≠ 37) (fmt : Bytes) (args : List Arg) : printf (37 :: c :: fmt) args =
    args.head?.bind fun arg => (converted c arg).bind fun s => (printf fmt args.tail).map (s ++ ·) := by
  rw [printf, if_neg (not_not_intro rfl), if_neg hc]

/-- A text without `%` is written out as it is. -/
theorem printf_plain_append (hs : 37 ∉ s) (fmt : Bytes) (args : List Arg) :
    printf (s ++ fmt) args = (printf fmt args).map (s ++ ·) := by
  induction s with
  | nil =>
    simp only [List.nil_append]
    exact Option.map_id'.symm
  | cons b s ih =>
    rw [List.cons_append, printf_byte (List.ne_of_not_mem_cons hs).symm, ih (List.not_mem_of_not_mem_cons hs),
      Option.map_map]
    rfl

theorem printf_plain (hs : 37 ∉ s) (args : List Arg) : printf s args = some s := by
  have h := printf_plain_append hs [] args
  rwa [List.append_nil, printf, Option.map_some, List.append_nil] at h

theorem printf_append_args (h : printf fmt args = some text) (more : List Arg) :
    printf fmt (args ++ more) = some text := by
  induction fmt using List.twoStepInduction generalizing args text with
  | nil => exact h
  | singleton b => exact h
  | cons_cons b c fmt ih ih' =>
    by_cases hb : b = 37
    · subst hb
      by_cases hc : c = 37
      · subst hc
        rw [printf_percent] at h ⊢
        obtain ⟨text, htext, rfl⟩ := Option.map_eq_some_iff.mp h
        rw [ih htext, Option.map_some]
      · rw [printf_conversion hc] at h ⊢
        cases args with
        | nil => cases h
        | cons arg args =>
          rw [List.head?_cons, Option.bind_some, List.tail_cons] at h
          obtain ⟨s, hs, h⟩ := Option.bind_eq_some_iff.mp h
          obtain ⟨text, htext, rfl⟩ := Option.map_eq_some_iff.mp h
          rw [List.cons_append, List.head?_cons, Option.bind_some, hs, Option.bind_some, List.tail_cons, ih htext,
            Option.map_some]
    · rw [printf_byte hb] at h ⊢
      obtain ⟨text, htext, rfl⟩ := Option.map_eq_some_iff.mp h
      rw [ih' c htext, Option.map_some]

end Cmoon.PrintfFormats
