import Mathlib.Data.List.Infix

/-! # Replacing what occurs in a list

The occurrences are taken from the left, each behind the one before, so that they do not overlap. -/
namespace Cmoon.LeftmostReplacement

variable {α : Type}

/-- `pat` does not occur in `before ++ pat` any earlier than at its end, whatever comes behind. -/
def FirstAt (pat before rest : List α) : Prop :=
  ∀ x y, before ++ (pat ++ rest) = x ++ (pat ++ y) → before.length ≤ x.length

/-- The second list is the first one with all its occurrences of `pat` replaced. -/
inductive Replaces (pat rep : List α) : List α → List α → Prop
  | rest {s : List α} (h : ¬ pat <:+: s) : Replaces pat rep s s
  | first {before s t : List α} (hfirst : FirstAt pat before s) (h : Replaces pat rep s t) :
      Replaces pat rep (before ++ (pat ++ s)) (before ++ (rep ++ t))

def ReplacesEach : List (List α × List α) → List α → List α → Prop
  | [], s, t => s = t
  | (pat, rep) :: pairs, s, t => ∃ u, Replaces pat rep s u ∧ ReplacesEach pairs u t

variable [DecidableEq α]

def splitFirst (pat : List α) : List α → Option (List α × List α)
  | [] => if pat = [] then some ([], []) else none
  | a :: s =>
    if pat <+: a :: s then some ([], (a :: s).drop pat.length)
    else (splitFirst pat s).map fun p => (a :: p.1, p.2)

/-- The first elements of the list are left out: they belong to an occurrence. -/
def replaceFrom (pat rep : List α) : ℕ → List α → List α
  | _, [] => []
  | k + 1, _ :: s => replaceFrom pat rep k s
  | 0, a :: s =>
    if pat <+: a :: s then rep ++ replaceFrom pat rep (pat.length - 1) s else a :: replaceFrom pat rep 0 s

def replaceAll (pat rep s : List α) : List α := replaceFrom pat rep 0 s

def replaceEach (pairs : List (List α × List α)) (s : List α) : List α :=
  pairs.foldl (fun s p => replaceAll p.1 p.2 s) s

variable {pat rep s t before rest : List α} {a : α}

theorem prefix_of_splitFirst_nil (h : pat <+: s) : splitFirst pat s = some ([], s.drop pat.length) := by
  cases s with
  | nil =>
    obtain rfl := List.prefix_nil.mp h
    rfl
  | cons a s => rw [splitFirst, if_pos h]

theorem splitFirst_cons (h : ¬ pat <+: a :: s) :
    splitFirst pat (a :: s) = (splitFirst pat s).map fun p => (a :: p.1, p.2) := by rw [splitFirst, if_neg h]

theorem splitFirst_eq_none_iff : splitFirst pat s = none ↔ ¬ pat <:+: s := by
  induction s with
  | nil => simp [splitFirst]
  | cons a s ih =>
    rw [List.infix_cons_iff, not_or, ← ih]
    by_cases h : pat <+: a :: s
    · simp [prefix_of_splitFirst_nil h, h]
    · simp [splitFirst_cons h, h]

omit [DecidableEq α] in
theorem FirstAt.cons (h : ¬ pat <+: a :: (before ++ (pat ++ rest))) (hfirst : FirstAt pat before rest) :
    FirstAt pat (a :: before) rest := by
  intro x y heq
  cases x with
  | nil => exact absurd ⟨y, heq.symm⟩ h
  | cons b x =>
    have hle := hfirst x y (List.cons.inj heq).2
    simpa using hle

omit [DecidableEq α] in
theorem FirstAt.tail (hfirst : FirstAt pat (a :: before) rest) :
    ¬ pat <+: a :: (before ++ (pat ++ rest)) ∧ FirstAt pat before rest := by
  constructor
  · rintro ⟨y, hy⟩
    have hle := hfirst [] y hy.symm
    simp at hle
  · intro x y heq
    have hle := hfirst (a :: x) y (by rw [List.cons_append, List.cons_append, heq])
    simpa using hle

theorem splitFirst_eq_some (h : splitFirst pat s = some (before, rest)) :
    s = before ++ (pat ++ rest) ∧ FirstAt pat before rest := by
  induction s generalizing before with
  | nil =>
    unfold splitFirst at h
    split at h
    · rename_i hnil
      cases h
      subst hnil
      exact ⟨rfl, fun _ _ _ => Nat.zero_le _⟩
    · cases h
  | cons a s ih =>
    by_cases hpre : pat <+: a :: s
    · rw [prefix_of_splitFirst_nil hpre] at h
      cases h
      exact ⟨(List.prefix_iff_eq_append.mp hpre).symm, fun _ _ _ => Nat.zero_le _⟩
    · rw [splitFirst_cons hpre] at h
      obtain ⟨⟨x, y⟩, hsplit, heq⟩ := Option.map_eq_some_iff.mp h
      cases heq
      obtain ⟨rfl, hfirst⟩ := ih hsplit
      exact ⟨rfl, hfirst.cons hpre⟩

theorem replaceFrom_eq (pat rep : List α) (k : ℕ) (s : List α) :
    replaceFrom pat rep k s = replaceAll pat rep (s.drop k) := by
  induction s generalizing k with
  | nil => rw [List.drop_nil, replaceAll, replaceFrom, replaceFrom]
  | cons a s ih =>
    cases k with
    | zero => rfl
    | succ k => rw [replaceFrom, ih, List.drop_succ_cons]

@[simp] theorem replaceAll_nil (pat rep : List α) : replaceAll pat rep [] = [] := by rw [replaceAll, replaceFrom]

theorem replaceAll_cons (h : ¬ pat <+: a :: s) : replaceAll pat rep (a :: s) = a :: replaceAll pat rep s := by
  rw [replaceAll, replaceFrom, if_neg h, replaceAll]

theorem replaceAll_append_pat (hpat : pat ≠ []) (s : List α) :
    replaceAll pat rep (pat ++ s) = rep ++ replaceAll pat rep s := by
  cases pat with
  | nil => exact absurd rfl hpat
  | cons a pat =>
    have hpre : a :: pat <+: a :: (pat ++ s) := List.prefix_append (a :: pat) s
    rw [List.cons_append, replaceAll, replaceFrom, if_pos hpre, replaceFrom_eq, List.length_cons, Nat.add_sub_cancel,
      List.drop_left]

theorem replaceAll_ne_nil (hrep : rep ≠ []) (hs : s ≠ []) : replaceAll pat rep s ≠ [] := by
  cases s with
  | nil => exact absurd rfl hs
  | cons a s =>
    rw [replaceAll, replaceFrom]
    split
    · simp [hrep]
    · simp

theorem replaceAll_first (hpat : pat ≠ []) (hfirst : FirstAt pat before rest) :
    replaceAll pat rep (before ++ (pat ++ rest)) = before ++ (rep ++ replaceAll pat rep rest) := by
  induction before with
  | nil => exact replaceAll_append_pat hpat rest
  | cons a before ih =>
    obtain ⟨hpre, hfirst⟩ := hfirst.tail
    rw [List.cons_append, List.cons_append, replaceAll_cons hpre, ih hfirst]

theorem replaceAll_absent (h : ¬ pat <:+: s) : replaceAll pat rep s = s := by
  induction s with
  | nil => simp
  | cons a s ih =>
    rw [List.infix_cons_iff, not_or] at h
    rw [replaceAll_cons h.1, ih h.2]

theorem replaceEach_cons (p : List α × List α) (pairs : List (List α × List α)) (s : List α) :
    replaceEach (p :: pairs) s = replaceEach pairs (replaceAll p.1 p.2 s) := rfl

theorem replaceEach_ne_nil {pairs : List (List α × List α)} (hrep : ∀ p ∈ pairs, p.2 ≠ []) (hs : s ≠ []) :
    replaceEach pairs s ≠ [] := by
  induction pairs generalizing s with
  | nil => exact hs
  | cons p pairs ih =>
    rw [List.forall_mem_cons] at hrep
    exact ih hrep.2 (replaceAll_ne_nil hrep.1 hs)

theorem exists_first (h : pat <:+: s) : ∃ before rest, s = before ++ (pat ++ rest) ∧ FirstAt pat before rest := by
  cases hsplit : splitFirst pat s with
  | none => exact absurd h (splitFirst_eq_none_iff.mp hsplit)
  | some p =>
    obtain ⟨before, rest⟩ := p
    exact ⟨before, rest, splitFirst_eq_some hsplit⟩

/-- What holds of lists without the pattern, and with an occurrence in front of a list that it holds of, holds of all. -/
@[elab_as_elim]
theorem first_induction {P : List α → Prop} (hpat : pat ≠ []) (absent : ∀ s, ¬ pat <:+: s → P s)
    (first : ∀ before rest, FirstAt pat before rest → P rest → P (before ++ (pat ++ rest))) (s : List α) : P s := by
  induction hn : s.length using Nat.strong_induction_on generalizing s with
  | _ n ih =>
    by_cases h : pat <:+: s
    · obtain ⟨before, rest, rfl, hfirst⟩ := exists_first h
      have hpos := List.length_pos_iff.mpr hpat
      simp only [List.length_append] at hn
      exact first before rest hfirst (ih rest.length (by omega) rest rfl)
    · exact absent s h

theorem replaces_iff (hpat : pat ≠ []) : Replaces pat rep s t ↔ replaceAll pat rep s = t := by
  constructor
  · intro h
    induction h with
    | rest h => exact replaceAll_absent h
    | first hfirst h ih => rw [replaceAll_first hpat hfirst, ih]
  · rintro rfl
    induction s using first_induction hpat with
    | absent s h =>
      rw [replaceAll_absent h]
      exact .rest h
    | first before rest hfirst ih =>
      rw [replaceAll_first hpat hfirst]
      exact .first hfirst ih

theorem replacesEach_iff {pairs : List (List α × List α)} (hpat : ∀ p ∈ pairs, p.1 ≠ []) :
    ReplacesEach pairs s t ↔ replaceEach pairs s = t := by
  induction pairs generalizing s with
  | nil => rfl
  | cons p pairs ih =>
    rw [List.forall_mem_cons] at hpat
    simp only [ReplacesEach, replaces_iff hpat.1, ih hpat.2, exists_eq_left', replaceEach_cons]

theorem replacesEach_take_iff {pairs : List (List α × List α)} (hpat : ∀ p ∈ pairs, p.1 ≠ []) (k : ℕ) :
    ReplacesEach (pairs.take k) s t ↔ replaceEach (pairs.take k) s = t :=
  replacesEach_iff fun p hp => hpat p (List.mem_of_mem_take hp)

theorem length_replaceAll_le (hpat : pat ≠ []) (hlen : rep.length ≤ pat.length) (s : List α) :
    (replaceAll pat rep s).length ≤ s.length := by
  induction s using first_induction hpat with
  | absent s h => rw [replaceAll_absent h]
  | first before rest hfirst ih =>
    rw [replaceAll_first hpat hfirst]
    simp only [List.length_append]
    omega

theorem length_replaceAll_lt (hlen : rep.length < pat.length) (h : pat <:+: s) :
    (replaceAll pat rep s).length < s.length := by
  have hpat : pat ≠ [] := List.length_pos_iff.mp (by omega)
  obtain ⟨before, rest, rfl, hfirst⟩ := exists_first h
  have hle : (replaceAll pat rep rest).length ≤ rest.length := length_replaceAll_le hpat hlen.le rest
  rw [replaceAll_first hpat hfirst]
  simp only [List.length_append]
  omega

theorem replaceAll_eq_self_iff (hlen : rep.length < pat.length) : replaceAll pat rep s = s ↔ ¬ pat <:+: s := by
  constructor
  · intro heq h
    exact absurd (congrArg List.length heq) (length_replaceAll_lt hlen h).ne
  · exact replaceAll_absent

def encode (c : α) (code s : List α) : List α := s.flatMap fun a => if a = c then code else [a]

section Coded
variable {b c : α} {u code out w : List α}

@[simp] theorem encode_nil (c : α) (code : List α) : encode c code [] = [] := rfl

@[simp] theorem encode_self (c : α) (code s : List α) : encode c code (c :: s) = code ++ encode c code s := by
  simp [encode]

theorem encode_cons (h : a ≠ c) (code s : List α) : encode c code (a :: s) = a :: encode c code s := by
  simp [encode, h]

theorem encode_append (c : α) (code s t : List α) : encode c code (s ++ t) = encode c code s ++ encode c code t :=
  List.flatMap_append

theorem encode_of_notMem (h : c ∉ s) (code : List α) : encode c code s = s := by
  induction s with
  | nil => rfl
  | cons a s ih =>
    rw [List.mem_cons, not_or] at h
    rw [encode_cons (Ne.symm h.1), ih h.2]

@[simp] theorem encode_singleton (c : α) (s : List α) : encode c [c] s = s := by
  induction s with
  | nil => rfl
  | cons a s ih =>
    by_cases h : a = c
    · rw [h, encode_self, ih, List.singleton_append]
    · rw [encode_cons h, ih]

/-- What has neither the element nor the first one of its code is found at the front of the list itself. -/
theorem prefix_encode_iff (hc : c ∉ t) (hb : b ∉ t) : t <+: encode c (b :: code) s ↔ t <+: s := by
  induction t generalizing s with
  | nil => simp
  | cons x t ih =>
    rw [List.mem_cons, not_or] at hc hb
    cases s with
    | nil => simp
    | cons a s =>
      by_cases ha : a = c
      · rw [ha, encode_self, List.cons_append, List.cons_prefix_cons, List.cons_prefix_cons]
        exact iff_of_false (fun h => hb.1 h.1.symm) fun h => hc.1 h.1.symm
      · rw [encode_cons ha, List.cons_prefix_cons, List.cons_prefix_cons, ih hc.2 hb.2]

/-- A part without the first element of the pattern. -/
theorem replaceAll_append_of_notMem (h : b ∉ u) (s : List α) :
    replaceAll (b :: t) rep (u ++ s) = u ++ replaceAll (b :: t) rep s := by
  induction u with
  | nil => rfl
  | cons a u ih =>
    rw [List.mem_cons, not_or] at h
    have hpre : ¬ b :: t <+: a :: (u ++ s) := fun hpre => h.1 (List.cons_prefix_cons.mp hpre).1
    rw [List.cons_append, replaceAll_cons hpre, ih h.2, List.cons_append]

/-- A part that begins as the pattern does and goes on in another way. -/
theorem replaceAll_append_other (hother : ∀ rest, ¬ t <+: w ++ rest) (hb : b ∉ w) (s : List α) :
    replaceAll (b :: t) rep (b :: w ++ s) = b :: w ++ replaceAll (b :: t) rep s := by
  have hpre : ¬ b :: t <+: b :: (w ++ s) := fun hpre => hother s (List.cons_prefix_cons.mp hpre).2
  rw [List.cons_append, replaceAll_cons hpre, replaceAll_append_of_notMem hb, List.cons_append]

theorem replaceAll_encode_head (b : α) (t s : List α) : replaceAll (b :: t) [b] (encode b (b :: t) s) = s := by
  induction s with
  | nil => simp
  | cons a s ih =>
    by_cases ha : a = b
    · rw [ha, encode_self, replaceAll_append_pat (List.cons_ne_nil b t), ih, List.singleton_append]
    · have hpre : ¬ b :: t <+: a :: encode b (b :: t) s := fun hpre => ha (List.cons_prefix_cons.mp hpre).1.symm
      rw [encode_cons ha, replaceAll_cons hpre, ih]

/-- An element that the pattern does not have, with a code of which `out` is made: the pattern is replaced elsewhere as
if the element had not been coded. -/
theorem replaceAll_encode (hb : b ∉ t) (hc : c ∉ b :: t)
    (hcode : ∀ rest, replaceAll (b :: t) rep (b :: w ++ rest) = out ++ replaceAll (b :: t) rep rest)
    (hrep : encode c out rep = rep) (s : List α) :
    replaceAll (b :: t) rep (encode c (b :: w) s) = encode c out (replaceAll (b :: t) rep s) := by
  induction hn : s.length using Nat.strong_induction_on generalizing s with
  | _ n ih =>
    cases s with
    | nil => simp
    | cons a s =>
      have hct : c ∉ t := fun h => hc (List.mem_cons_of_mem b h)
      by_cases ha : a = c
      · subst ha
        have hpre : ¬ b :: t <+: a :: s := fun h => hc ((List.cons_prefix_cons.mp h).1 ▸ List.mem_cons_self)
        rw [encode_self, hcode, replaceAll_cons hpre, encode_self, ih s.length (by simp [← hn]) s rfl]
      · by_cases hpre : b :: t <+: a :: s
        · -- the occurrence has the same elements in the coded list
          obtain ⟨rest, hrest⟩ := hpre
          rw [← hrest, encode_append, encode_of_notMem hc, replaceAll_append_pat (List.cons_ne_nil b t),
            replaceAll_append_pat (List.cons_ne_nil b t), encode_append, hrep]
          have hlen := congrArg List.length hrest
          rw [ih rest.length (by simp at hlen hn; omega) rest rfl]
        · have hcoded : ¬ b :: t <+: a :: encode c (b :: w) s := by
            rw [List.cons_prefix_cons, prefix_encode_iff hct hb, ← List.cons_prefix_cons]
            exact hpre
          rw [encode_cons ha, replaceAll_cons hcoded, replaceAll_cons hpre, encode_cons ha,
            ih s.length (by simp [← hn]) s rfl]

end Coded

end Cmoon.LeftmostReplacement
