import Mathlib.Data.List.Basic

/-! # Sequences cut into pieces

A sequence that comes in pieces, none of them empty, and what is left of the pieces once some of its
elements are taken from the front. -/
namespace Cmoon.CutSequences

variable {α : Type*}

/-- The pieces behind the first `n` elements; the piece they end in is cut. -/
def after : ℕ → List (List α) → List (List α)
  | _, [] => []
  | n, c :: cs => if n < c.length then c.drop n :: cs else after (n - c.length) cs

def Pieces (cs : List (List α)) : Prop := ∀ c ∈ cs, c ≠ []

variable {n : ℕ} {c : List α} {cs : List (List α)}

theorem Pieces.head_pos (h : Pieces (c :: cs)) : 0 < c.length := List.length_pos_iff.mpr (h c List.mem_cons_self)

theorem Pieces.tail (h : Pieces (c :: cs)) : Pieces cs := fun d hd => h d (List.mem_cons_of_mem c hd)

theorem Pieces.eq_nil (h : Pieces cs) (hflat : cs.flatten = []) : cs = [] := by
  cases cs with
  | nil => rfl
  | cons c cs => exact absurd (List.append_eq_nil_iff.mp hflat).1 (h c List.mem_cons_self)

theorem after_of_lt (h : n < c.length) : after n (c :: cs) = c.drop n :: cs := if_pos h

theorem after_of_le (h : c.length ≤ n) : after n (c :: cs) = after (n - c.length) cs := if_neg (by omega)

theorem after_zero (h : Pieces cs) : after 0 cs = cs := by
  cases cs with
  | nil => rfl
  | cons c cs => rw [after_of_lt h.head_pos, List.drop_zero]

theorem flatten_after (n : ℕ) (cs : List (List α)) : (after n cs).flatten = cs.flatten.drop n := by
  induction cs generalizing n with
  | nil => simp [after]
  | cons c cs ih =>
    rcases Nat.lt_or_ge n c.length with h | h
    · rw [after_of_lt h, List.flatten_cons, List.flatten_cons, List.drop_append_of_le_length (by omega)]
    · rw [after_of_le h, ih, List.flatten_cons, List.drop_append, List.drop_eq_nil_of_le h, List.nil_append]

theorem Pieces.after (h : Pieces cs) (n : ℕ) : Pieces (after n cs) := by
  induction cs generalizing n with
  | nil => exact h
  | cons c cs ih =>
    rcases Nat.lt_or_ge n c.length with hlt | hle
    · rw [after_of_lt hlt]
      intro d hd
      obtain rfl | hd := List.mem_cons.mp hd
      · exact List.ne_nil_of_length_pos (by rw [List.length_drop]; omega)
      · exact h.tail d hd
    · rw [after_of_le hle]
      exact ih h.tail _

theorem after_after (h : Pieces cs) (m n : ℕ) : after m (after n cs) = after (n + m) cs := by
  induction cs generalizing n with
  | nil => rfl
  | cons c cs ih =>
    rcases Nat.lt_or_ge n c.length with hlt | hle
    · rw [after_of_lt hlt]
      rcases Nat.lt_or_ge (n + m) c.length with hsum | hsum
      · rw [after_of_lt hsum, after_of_lt (by rw [List.length_drop]; omega), List.drop_drop]
      · rw [after_of_le hsum, after_of_le (by rw [List.length_drop]; omega), List.length_drop]
        congr 1
        omega
    · rw [after_of_le hle, ih h.tail, after_of_le (by omega)]
      congr 1
      omega

end Cmoon.CutSequences
