import Cmoon.LeftmostReplacement
import Cmoon.DecimalText

/-! # Replacing in a text

`mstr_repstr` builds each text in one `STRING` while it scans the one before in another. A `STRING` has no buffer until
something is put into it, be it of no length. -/
namespace Cmoon.TextReplacement
open DecimalText LeftmostReplacement

/-- The buffer of a `STRING`; none is `NULL`. -/
abbrev Buf := Option Bytes

/-- `string_append` and `string_appendn` of a text that is there -/
def stringAppend (str : Buf) (s : Bytes) : Buf := some (str.getD [] ++ s)

/-- `string_set` after `string_clear`. ClearSilver takes the length of what it is given, so that with `NULL` it crashes,
if it does not take it for an empty text. -/
def stringSet (crash : Bool) : Buf → Option Bytes
  | some s => some s
  | none => if crash then none else some []

/-- The loop over the occurrences, from `q` on; none when it has not come to an end. -/
def replaceLoop (from' to' : Bytes) : ℕ → Bytes → Buf → Option Buf
  | 0, _, _ => none
  | fuel + 1, q, str =>
    match splitFirst from' q with
    | some (before, q) => replaceLoop from' to' fuel q (stringAppend (stringAppend str before) to')
    | none => some (if q = [] then str else stringAppend str q)

/-- The rounds over the pairs, with what `tstr` and `str` have. -/
def rounds (crash : Bool) : List (Bytes × Bytes) → Bytes → Buf → Option Buf
  | [], _, str => some str
  | (from', to') :: pairs, tstr, _ =>
    (replaceLoop from' to' (tstr.length + 1) tstr none).bind fun str =>
      (stringSet crash str).bind fun tstr => rounds crash pairs tstr str

/-- `mstr_repstr`: none when it does not return, and else what it returns, which may be `NULL`. -/
def mstrRepstr (crash : Bool) (s : Option Bytes) (pairs : List (Bytes × Bytes)) : Option Buf :=
  match s with
  | none => some none
  | some s => if pairs = [] then some none else rounds crash pairs s none

variable {from' to' q s : Bytes} {str : Buf} {pairs : List (Bytes × Bytes)} {fuel : ℕ}

/-- The loop ends, with all occurrences replaced. Nothing is appended when there is nothing to scan. -/
theorem replaceLoop_eq (hfrom : from' ≠ []) (hfuel : q.length < fuel) :
    replaceLoop from' to' fuel q str = some (if q = [] then str else stringAppend str (replaceAll from' to' q)) := by
  induction fuel generalizing q str with
  | zero => exact absurd hfuel (Nat.not_lt_zero _)
  | succ fuel ih =>
    rw [replaceLoop]
    cases hsplit : splitFirst from' q with
    | none => rw [replaceAll_absent (splitFirst_eq_none_iff.mp hsplit)]
    | some p =>
      obtain ⟨before, rest⟩ := p
      obtain ⟨rfl, hfirst⟩ := splitFirst_eq_some hsplit
      have hpos := List.length_pos_iff.mpr hfrom
      simp only [List.length_append] at hfuel
      have hne : before ++ (from' ++ rest) ≠ [] := by simp [hfrom]
      dsimp only
      rw [ih (by omega), if_neg hne, replaceAll_first hfrom hfirst]
      by_cases hrest : rest = []
      · simp [hrest, stringAppend]
      · simp [hrest, stringAppend]

/-- A text that is empty at the beginning of a round leaves `str` without a buffer, and the next round, or the caller,
without a text. -/
theorem rounds_nil (crash : Bool) (hpairs : pairs ≠ []) (hfrom : ∀ p ∈ pairs, p.1 ≠ []) (t : Bytes) :
    rounds crash pairs [] str ≠ some (some t) := by
  induction pairs generalizing str with
  | nil => exact absurd rfl hpairs
  | cons p pairs ih =>
    rw [List.forall_mem_cons] at hfrom
    rw [rounds, replaceLoop_eq hfrom.1 (Nat.lt_succ_self _), if_pos rfl, Option.bind_some, stringSet]
    cases crash with
    | true => exact nofun
    | false =>
      rw [if_neg (by decide), Option.bind_some]
      by_cases hnil : pairs = []
      · rw [hnil, rounds]
        exact nofun
      · exact ih hnil hfrom.2

theorem rounds_eq (crash : Bool) (hpairs : pairs ≠ []) (hfrom : ∀ p ∈ pairs, p.1 ≠ [])
    (hfed : ∀ k < pairs.length, replaceEach (pairs.take k) s ≠ []) :
    rounds crash pairs s str = some (some (replaceEach pairs s)) := by
  induction pairs generalizing s str with
  | nil => exact absurd rfl hpairs
  | cons p pairs ih =>
    rw [List.forall_mem_cons] at hfrom
    have hs : s ≠ [] := hfed 0 (Nat.succ_pos _)
    have hnext : ∀ k < pairs.length, replaceEach (pairs.take k) (replaceAll p.1 p.2 s) ≠ [] := fun k hk =>
      hfed (k + 1) (Nat.succ_lt_succ hk)
    rw [rounds, replaceLoop_eq hfrom.1 (Nat.lt_succ_self _), if_neg hs, Option.bind_some, stringAppend, stringSet,
      Option.bind_some, Option.getD_none, List.nil_append, replaceEach_cons]
    by_cases hnil : pairs = []
    · rw [hnil, rounds]
      rfl
    · exact ih hnil hfrom.2 hnext

theorem rounds_ne (crash : Bool) (hfrom : ∀ p ∈ pairs, p.1 ≠ []) {k : ℕ} (hk : k < pairs.length)
    (hempty : replaceEach (pairs.take k) s = []) (t : Bytes) : rounds crash pairs s str ≠ some (some t) := by
  induction pairs generalizing s str k with
  | nil => exact absurd hk (Nat.not_lt_zero _)
  | cons p pairs ih =>
    by_cases hs : s = []
    · subst hs
      exact rounds_nil crash (List.cons_ne_nil _ _) hfrom t
    · cases k with
      | zero => exact absurd hempty hs
      | succ k =>
        rw [List.forall_mem_cons] at hfrom
        rw [rounds, replaceLoop_eq hfrom.1 (Nat.lt_succ_self _), if_neg hs, Option.bind_some, stringAppend, stringSet,
          Option.bind_some]
        exact ih hfrom.2 (Nat.succ_lt_succ_iff.mp hk) hempty

/-- **`mstr_repstr` returns the text with all pairs replaced** exactly when no round begins with an empty text. -/
theorem mstrRepstr_iff (crash : Bool) (s : Bytes) (hpairs : pairs ≠ []) (hfrom : ∀ p ∈ pairs, p.1 ≠ []) :
    (∃ t, mstrRepstr crash (some s) pairs = some (some t) ∧ ReplacesEach pairs s t) ↔
      ∀ k < pairs.length, ¬ ReplacesEach (pairs.take k) s [] := by
  simp only [replacesEach_iff hfrom, replacesEach_take_iff hfrom, mstrRepstr, if_neg hpairs]
  constructor
  · rintro ⟨t, ht, -⟩ k hk hempty
    exact rounds_ne crash hfrom hk hempty t ht
  · intro hfed
    exact ⟨_, rounds_eq crash hpairs hfrom hfed, rfl⟩

/-- `a` becomes `c`, and `b` goes. -/
theorem mstrRepstr_twice :
    ∃ t, mstrRepstr true (some [97, 98, 97]) [([97], [99]), ([98], [])] = some (some t) ∧
      ReplacesEach [([97], [99]), ([98], [])] [97, 98, 97] t := by
  have hfrom : ∀ p ∈ [(([97] : Bytes), ([99] : Bytes)), ([98], [])], p.1 ≠ [] := by decide
  refine (mstrRepstr_iff true [97, 98, 97] (List.cons_ne_nil _ _) hfrom).mpr fun k hk => ?_
  rw [replacesEach_take_iff hfrom]
  revert k
  decide

/-- Of the empty text comes none: the first round leaves no buffer. -/
theorem not_mstrRepstr_empty :
    ¬ ∃ t, mstrRepstr true (some []) [([97], [98])] = some (some t) ∧ ReplacesEach [([97], [98])] [] t := by
  rintro ⟨t, ht, -⟩
  have hcrash : mstrRepstr true (some []) [([97], [98])] = none := by decide
  rw [hcrash] at ht
  cases ht

end Cmoon.TextReplacement
