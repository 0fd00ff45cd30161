import Mathlib.Data.List.Nodup

/-! # Tables with a primary key

No two rows of a table have the same key: an insert or an update after which two rows would is refused. A delete takes
out all rows of a kind. -/
namespace Cmoon.KeyedTables

structure Table {R K : Type*} (key : R → K) where
  rows : List R
  nodup : (rows.map key).Nodup

namespace Table
variable {R K : Type*} {key : R → K}

def empty (key : R → K) : Table key := ⟨[], List.nodup_nil⟩

def delete (t : Table key) (p : R → Bool) : Table key where
  rows := t.rows.filter (!p ·)
  nodup := t.nodup.sublist (List.filter_sublist.map key)

theorem mem_delete {t : Table key} {p : R → Bool} {r : R} : r ∈ (t.delete p).rows ↔ r ∈ t.rows ∧ p r = false := by
  rw [delete, List.mem_filter, Bool.not_eq_true']

variable [DecidableEq K]

def find (t : Table key) (k : K) : Option R := t.rows.find? (key · = k)

def update (t : Table key) (f : R → R) : Option (Table key) :=
  if h : ((t.rows.map f).map key).Nodup then some ⟨t.rows.map f, h⟩ else none

def insert (t : Table key) (r : R) : Option (Table key) :=
  if h : key r ∈ t.rows.map key then none
  else some ⟨t.rows ++ [r], by
    rw [List.map_append, List.map_singleton]
    exact t.nodup.append (List.nodup_singleton _) (List.disjoint_singleton.mpr h)⟩

variable {t t' : Table key} {k : K} {r : R}

theorem find_eq_none : t.find k = none ↔ ∀ r ∈ t.rows, key r ≠ k := by
  rw [find, List.find?_eq_none]
  simp only [decide_eq_true_eq, ne_eq]

theorem find_eq_some : t.find k = some r ↔ r ∈ t.rows ∧ key r = k := by
  have hfound : ∀ r', t.find k = some r' → r' ∈ t.rows ∧ key r' = k := by
    intro r' h
    rw [find] at h
    have hkey := List.find?_some h
    exact ⟨List.mem_of_find?_eq_some h, of_decide_eq_true hkey⟩
  constructor
  · exact hfound r
  · rintro ⟨hmem, hkey⟩
    cases h : t.find k with
    | none => exact absurd hkey (find_eq_none.mp h r hmem)
    | some r' =>
      obtain ⟨hmem', hkey'⟩ := hfound r' h
      rw [List.inj_on_of_nodup_map t.nodup hmem' hmem (hkey'.trans hkey.symm)]

@[simp] theorem find_empty : (empty key).find k = none := rfl

theorem insert_eq_some : t.insert r = some t' ↔ t.find (key r) = none ∧ t'.rows = t.rows ++ [r] := by
  have hmem : t.find (key r) = none ↔ key r ∉ t.rows.map key := by
    rw [find_eq_none, List.mem_map]
    exact ⟨fun h ⟨r', hr', hkey⟩ => h r' hr' hkey, fun h r' hr' hkey => h ⟨r', hr', hkey⟩⟩
  unfold insert
  rw [hmem]
  split
  · rename_i h
    constructor
    · intro heq
      cases heq
    · rintro ⟨hno, -⟩
      exact absurd h hno
  · rename_i h
    rw [Option.some_inj]
    constructor
    · rintro rfl
      exact ⟨h, rfl⟩
    · rintro ⟨-, hrows⟩
      cases t'
      cases hrows
      rfl

theorem mem_insert (h : t.insert r = some t') {r' : R} : r' ∈ t'.rows ↔ r' ∈ t.rows ∨ r' = r := by
  rw [(insert_eq_some.mp h).2, List.mem_append, List.mem_singleton]

theorem find_insert (h : t.insert r = some t') : t'.find k = if k = key r then some r else t.find k := by
  split
  · rename_i hk
    exact find_eq_some.mpr ⟨(mem_insert h).mpr (.inr rfl), hk.symm⟩
  · rename_i hk
    ext r'
    rw [find_eq_some, find_eq_some, mem_insert h]
    constructor
    · rintro ⟨hmem | rfl, hkey⟩
      · exact ⟨hmem, hkey⟩
      · exact absurd hkey.symm hk
    · rintro ⟨hmem, hkey⟩
      exact ⟨.inl hmem, hkey⟩

theorem rows_update {f : R → R} (h : t.update f = some t') : t'.rows = t.rows.map f := by
  unfold update at h
  split at h
  · cases h
    rfl
  · cases h

theorem mem_update {f : R → R} (h : t.update f = some t') : r ∈ t'.rows ↔ ∃ r' ∈ t.rows, f r' = r := by
  rw [rows_update h, List.mem_map]

theorem find_update {f : R → R} (h : t.update f = some t') (hf : ∀ r, key (f r) = key r) :
    t'.find k = (t.find k).map f := by
  have hp : (fun r => decide (key r = k)) ∘ f = fun r => decide (key r = k) :=
    funext fun r => congrArg (fun k' => decide (k' = k)) (hf r)
  rw [find, rows_update h, List.find?_map, hp]
  rfl

theorem find_delete {p : R → Bool} : (t.delete p).find k = (t.find k).filter (!p ·) := by
  ext r
  rw [find_eq_some, mem_delete, Option.filter_eq_some_iff, find_eq_some,
    Bool.not_eq_true']
  exact and_right_comm

end Table
end Cmoon.KeyedTables
