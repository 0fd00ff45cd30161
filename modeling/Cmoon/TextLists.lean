import Mathlib.Data.List.TakeWhile

/-! # Lists in a text

A text that is cut at a separator, at most so many times: what is left then is the last item, with its separators. -/
namespace Cmoon.TextLists

variable {α : Type} [DecidableEq α]

/-- Cut at a separator, `max` times. -/
def splitMax (sep : α) : ℕ → List α → List (List α)
  | 0, s => [s]
  | max + 1, s =>
    match s.dropWhile (· ≠ sep) with
    | [] => [s]
    | _ :: rest => s.takeWhile (· ≠ sep) :: splitMax sep max rest

variable {sep : α} {max : ℕ} {item : List α} {items : List (List α)}

theorem splitMax_item (hsep : sep ∉ item) : splitMax sep max item = [item] := by
  cases max with
  | zero => rfl
  | succ max =>
    have hdrop : item.dropWhile (· ≠ sep) = [] := by
      rw [List.dropWhile_eq_nil_iff]
      intro x hx
      exact decide_eq_true fun h => hsep (h ▸ hx)
    rw [splitMax, hdrop]

theorem splitMax_append (hsep : sep ∉ item) (rest : List α) :
    splitMax sep (max + 1) (item ++ sep :: rest) = item :: splitMax sep max rest := by
  have hkeep : ∀ x ∈ item, decide (x ≠ sep) = true := fun x hx => decide_eq_true fun h => hsep (h ▸ hx)
  have hdrop : (item ++ sep :: rest).dropWhile (· ≠ sep) = sep :: rest := by
    rw [List.dropWhile_append_of_pos hkeep]
    exact List.dropWhile_cons_of_neg (by simp)
  have htake : (item ++ sep :: rest).takeWhile (· ≠ sep) = item := by
    rw [List.takeWhile_append_of_pos hkeep, List.takeWhile_cons_of_neg (by simp), List.append_nil]
  rw [splitMax, hdrop, htake]

/-- The items of a list are found again, but that all beyond the first `max` are one. -/
theorem splitMax_intercalate (hne : items ≠ []) (hsep : ∀ item ∈ items, sep ∉ item) :
    splitMax sep max ([sep].intercalate items) =
      items.take max ++ if max < items.length then [[sep].intercalate (items.drop max)] else [] := by
  induction items generalizing max with
  | nil => exact absurd rfl hne
  | cons item items ih =>
    cases max with
    | zero =>
      rw [splitMax, List.take_zero, List.drop_zero, if_pos (List.length_pos_iff.mpr hne), List.nil_append]
    | succ max =>
      rw [List.forall_mem_cons] at hsep
      cases items with
      | nil =>
        rw [List.intercalate_singleton, splitMax_item hsep.1, List.length_singleton, if_neg (by omega), List.append_nil,
          List.take_succ_cons, List.take_nil]
      | cons next items =>
        rw [List.intercalate_cons_cons, List.append_assoc, List.singleton_append, splitMax_append hsep.1,
          ih (List.cons_ne_nil _ _) hsep.2, List.take_succ_cons, List.drop_succ_cons, List.cons_append]
        simp only [List.length_cons, Nat.add_lt_add_iff_right]

omit [DecidableEq α] in
theorem notMem_intercalate {c : α} {seps : List α} (hseps : c ∉ seps) (h : ∀ item ∈ items, c ∉ item) :
    c ∉ seps.intercalate items := by
  induction items with
  | nil => exact List.not_mem_nil
  | cons item items ih =>
    rw [List.forall_mem_cons] at h
    cases items with
    | nil =>
      rw [List.intercalate_singleton]
      exact h.1
    | cons next items =>
      rw [List.intercalate_cons_cons, List.mem_append, List.mem_append]
      rintro ((hmem | hmem) | hmem)
      · exact h.1 hmem
      · exact hseps hmem
      · exact ih h.2 hmem

omit [DecidableEq α] in
theorem exists_intercalate_cons (seps item : List α) (items : List (List α)) :
    ∃ rest, seps.intercalate (item :: items) = item ++ rest := by
  cases items with
  | nil => exact ⟨[], by rw [List.intercalate_singleton, List.append_nil]⟩
  | cons next items => exact ⟨_, by rw [List.intercalate_cons_cons, List.append_assoc]⟩

omit [DecidableEq α] in
theorem intercalate_cons_eq (seps item : List α) (items : List (List α)) :
    seps.intercalate (item :: items) = item ++ items.flatMap (seps ++ ·) := by
  induction items generalizing item with
  | nil => rw [List.intercalate_singleton, List.flatMap_nil, List.append_nil]
  | cons next items ih => rw [List.intercalate_cons_cons, ih, List.flatMap_cons, List.append_assoc, List.append_assoc]

omit [DecidableEq α] in
theorem intercalate_eq_append (sep : α) (item : List α) (items : List (List α)) :
    [sep].intercalate (item :: items) = item ++ items.flatMap (sep :: ·) := intercalate_cons_eq [sep] item items

omit [DecidableEq α] in
theorem intercalate_concat (sep : α) (hne : items ≠ []) (item : List α) :
    [sep].intercalate (items ++ [item]) = [sep].intercalate items ++ sep :: item := by
  obtain ⟨first, items, rfl⟩ := List.exists_cons_of_ne_nil hne
  simp [intercalate_eq_append]

theorem splitOn_intercalate_eq_flatMap (sep : α) (hne : items ≠ []) :
    ([sep].intercalate items).splitOn sep = items.flatMap fun item => item.splitOn sep := by
  induction items with
  | nil => exact absurd rfl hne
  | cons item items ih =>
    cases items with
    | nil => rw [List.intercalate_singleton, List.flatMap_singleton]
    | cons next items =>
      rw [List.intercalate_cons_cons, List.append_assoc, List.singleton_append, List.splitOn_append_cons_self,
        ih (List.cons_ne_nil _ _), List.flatMap_cons (x := item)]

omit [DecidableEq α] in
theorem append_cons_inj {item' rest rest' : List α} (hsep : sep ∉ item) (hsep' : sep ∉ item') :
    item ++ sep :: rest = item' ++ sep :: rest' ↔ item = item' ∧ rest = rest' := by
  constructor
  · intro h
    rcases List.append_eq_append_iff.mp h with ⟨more, hitem, hrest⟩ | ⟨more, hitem, hrest⟩
    · cases more with
      | nil =>
        rw [List.append_nil] at hitem
        exact ⟨hitem.symm, (List.cons.inj hrest).2⟩
      | cons b more =>
        obtain rfl := (List.cons.inj hrest).1
        exact absurd (hitem ▸ List.mem_append_right _ List.mem_cons_self) hsep'
    · cases more with
      | nil =>
        rw [List.append_nil] at hitem
        exact ⟨hitem, (List.cons.inj hrest).2.symm⟩
      | cons b more =>
        obtain rfl := (List.cons.inj hrest).1
        exact absurd (hitem ▸ List.mem_append_right _ List.mem_cons_self) hsep
  · rintro ⟨rfl, rfl⟩
    rfl

omit [DecidableEq α] in
theorem append_cons_inj_last {item' rest rest' : List α} (hsep : sep ∉ rest) (hsep' : sep ∉ rest') :
    item ++ sep :: rest = item' ++ sep :: rest' ↔ item = item' ∧ rest = rest' := by
  rw [← List.reverse_inj, List.reverse_append, List.reverse_append, List.reverse_cons, List.reverse_cons,
    List.append_assoc, List.append_assoc, List.singleton_append, List.singleton_append,
    append_cons_inj (mt List.mem_reverse.mp hsep) (mt List.mem_reverse.mp hsep'), List.reverse_inj, List.reverse_inj]
  exact and_comm

section Joining
variable {β : Type} {seps s : List β} {items : List (List β)}

/-- An item behind a text, with the separator between them when there is a text. -/
def joinItem (seps s item : List β) : List β := (if s = [] then s else s ++ seps) ++ item

def firstItem (s : List β) : List (List β) := if s = [] then [] else [s]

theorem intercalate_firstItem (s : List β) : seps.intercalate (firstItem s) = s := by
  unfold firstItem
  by_cases hs : s = []
  · rw [if_pos hs, hs]
    rfl
  · rw [if_neg hs, List.intercalate_singleton]

theorem intercalate_firstItem_append (hs : s ≠ []) (item : List β) (items : List (List β)) :
    seps.intercalate (firstItem (joinItem seps s item) ++ items) = seps.intercalate (firstItem s ++ item :: items) := by
  have hjoin : joinItem seps s item = s ++ seps ++ item := by rw [joinItem, if_neg hs]
  have hne : s ++ seps ++ item ≠ [] := by simp [hs]
  rw [hjoin, firstItem, firstItem, if_neg hne, if_neg hs, List.singleton_append, List.singleton_append,
    intercalate_cons_eq, intercalate_cons_eq, List.flatMap_cons]
  simp only [List.append_assoc]

theorem foldl_joinItem (h : ∀ item ∈ items, item ≠ []) :
    items.foldl (joinItem seps) s = seps.intercalate (firstItem s ++ items) := by
  induction items generalizing s with
  | nil => rw [List.append_nil, intercalate_firstItem, List.foldl_nil]
  | cons item items ih =>
    rw [List.forall_mem_cons] at h
    rw [List.foldl_cons, ih h.2]
    by_cases hs : s = []
    · rw [hs, joinItem, firstItem, firstItem, if_pos rfl, if_pos rfl, List.nil_append, if_neg h.1]
      rfl
    · exact intercalate_firstItem_append hs item items

/-- An empty item at the front may be left without a separator. -/
theorem length_foldl_joinItem_le (items : List (List β)) :
    (items.foldl (joinItem seps) s).length ≤ (seps.intercalate (firstItem s ++ items)).length := by
  induction items generalizing s with
  | nil => rw [List.append_nil, intercalate_firstItem, List.foldl_nil]
  | cons item items ih =>
    refine ih.trans ?_
    by_cases hs : s = []
    · rw [hs, joinItem, if_pos rfl, List.nil_append, firstItem, firstItem, if_pos rfl, List.nil_append]
      split
      · cases items with
        | nil => exact Nat.zero_le _
        | cons next items =>
          rw [List.intercalate_cons_cons, List.length_append]
          exact Nat.le_add_left _ _
      · exact le_rfl
    · rw [intercalate_firstItem_append hs]

theorem length_intercalate (seps : List β) (items : List (List β)) : (seps.intercalate items).length =
    items.flatten.length + seps.length * (items.length - 1) := by
  induction items with
  | nil => rfl
  | cons item items ih =>
    cases items with
    | nil => simp
    | cons next items =>
      have hseps : seps.length * (next :: items).length = seps.length * items.length + seps.length := Nat.mul_succ _ _
      rw [List.intercalate_cons_cons, List.length_append, List.length_append, ih, List.flatten_cons (l := item),
        List.length_append, List.length_cons, Nat.add_sub_cancel, List.length_cons, Nat.add_sub_cancel, hseps]
      omega

end Joining

section Pieces

/-- The pieces of a text between its separators, without the empty ones -/
def pieces (sep : α) (s : List α) : List (List α) := (s.splitOn sep).filter fun piece => piece ≠ []

def fromPiece (sep : α) : ℕ → List α → List α
  | 0, s => s.dropWhile (· = sep)
  | k + 1, s => fromPiece sep k ((s.dropWhile (· = sep)).dropWhile (· ≠ sep))

/-- The first `limit` pieces, of which the last one goes on up to the end of the text. -/
def piecesMax (sep : α) (limit : ℕ) (s : List α) : List (List α) :=
  if (pieces sep s).length < limit then pieces sep s
  else (pieces sep s).take (limit - 1) ++ [fromPiece sep (limit - 1) s]

variable {c : α} {s : List α} {k : ℕ}

@[simp] theorem pieces_nil : pieces sep [] = [] := by simp [pieces]

theorem pieces_cons_self : pieces sep (sep :: s) = pieces sep s := by
  have h : (sep :: s).splitOn sep = [[]] ++ s.splitOn sep := List.splitOn_append_cons_self [] s
  rw [pieces, h, List.singleton_append]
  rfl

theorem pieces_cons_of_ne (hc : c ≠ sep) :
    pieces sep (c :: s) = (c :: s.takeWhile (· ≠ sep)) :: pieces sep (s.dropWhile (· ≠ sep)) := by
  have hword : sep ∉ c :: s.takeWhile (· ≠ sep) := by
    rintro hmem
    rcases List.mem_cons.mp hmem with heq | hmem
    · exact hc heq.symm
    · simpa using List.mem_takeWhile_imp hmem
  have hsplit : c :: s = (c :: s.takeWhile (· ≠ sep)) ++ s.dropWhile (· ≠ sep) := by
    rw [List.cons_append, List.takeWhile_append_dropWhile]
  rw [hsplit]
  cases hrest : s.dropWhile (· ≠ sep) with
  | nil =>
    rw [List.append_nil, pieces_nil, pieces, List.splitOn_eq_singleton hword]
    rfl
  | cons d rest =>
    obtain rfl : d = sep := by
      have h := List.head?_dropWhile_not (p := (· ≠ sep)) s
      rw [hrest] at h
      simpa using h
    rw [pieces_cons_self, pieces, List.splitOn_append_cons_self, List.splitOn_eq_singleton hword, List.singleton_append]
    rfl

theorem piecesMax_nil (hk : 0 < k) : piecesMax sep k [] = [] := by simp [piecesMax, hk]

theorem fromPiece_cons_self : fromPiece sep k (sep :: s) = fromPiece sep k s := by
  cases k <;> simp [fromPiece]

theorem piecesMax_cons_self : piecesMax sep k (sep :: s) = piecesMax sep k s := by
  simp only [piecesMax, pieces_cons_self, fromPiece_cons_self]

theorem piecesMax_one (hc : c ≠ sep) : piecesMax sep 1 (c :: s) = [c :: s] := by
  simp [piecesMax, pieces_cons_of_ne hc, fromPiece, hc]

theorem piecesMax_cons (hc : c ≠ sep) (hk : 1 ≤ k) : piecesMax sep (k + 1) (c :: s) =
    (c :: s.takeWhile (· ≠ sep)) :: piecesMax sep k (s.dropWhile (· ≠ sep)) := by
  obtain ⟨k, rfl⟩ := Nat.exists_eq_add_of_le' hk
  have hfrom : fromPiece sep (k + 1) (c :: s) = fromPiece sep k (s.dropWhile (· ≠ sep)) := by
    simp [fromPiece, hc]
  simp only [piecesMax, pieces_cons_of_ne hc, List.length_cons, Nat.add_lt_add_iff_right, Nat.add_sub_cancel, hfrom,
    List.take_succ_cons]
  split <;> rfl

end Pieces

end Cmoon.TextLists
