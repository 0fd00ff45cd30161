import Mathlib.Data.List.Basic

/-! # What came last in a history

A history grows at its end. What the last event of a kind tells is told until the next one comes. -/
namespace Cmoon.Histories

variable {E : Type*}

/-- The last event of a kind tells something, together with what came before it. -/
def Last (kind : E → Prop) (tells : List E → E → Prop) (events : List E) : Prop :=
  ∃ before e after, events = before ++ e :: after ∧ kind e ∧ tells before e ∧ ∀ e' ∈ after, ¬ kind e'

variable {kind : E → Prop} {tells : List E → E → Prop} {events before after : List E} {e x : E}

theorem concat_eq_split : events ++ [e] = before ++ x :: after ↔
    (after = [] ∧ before = events ∧ e = x) ∨ ∃ rest, after = rest ++ [e] ∧ events = before ++ x :: rest := by
  constructor
  · intro h
    obtain rfl | ⟨rest, last, rfl⟩ := List.eq_nil_or_concat after
    · obtain ⟨hinit, hlast⟩ := List.append_inj' h rfl
      exact .inl ⟨rfl, hinit.symm, List.singleton_inj.mp hlast⟩
    · rw [List.concat_eq_append, ← List.cons_append, ← List.append_assoc] at h
      obtain ⟨hinit, hlast⟩ := List.append_inj' h rfl
      refine .inr ⟨rest, ?_, hinit⟩
      rw [List.concat_eq_append, List.singleton_inj.mp hlast]
  · rintro (⟨rfl, rfl, rfl⟩ | ⟨rest, rfl, rfl⟩)
    · rfl
    · rw [List.append_assoc, List.cons_append]

theorem not_last_nil : ¬ Last kind tells [] := by
  rintro ⟨before, e, after, h, -⟩
  exact List.append_ne_nil_of_right_ne_nil before (List.cons_ne_nil e after) h.symm

theorem last_concat :
    Last kind tells (events ++ [e]) ↔ (kind e ∧ tells events e) ∨ (¬ kind e ∧ Last kind tells events) := by
  constructor
  · rintro ⟨before, x, after, h, hkind, htells, hafter⟩
    obtain ⟨rfl, rfl, rfl⟩ | ⟨rest, rfl, rfl⟩ := concat_eq_split.mp h
    · exact .inl ⟨hkind, htells⟩
    · refine .inr ⟨hafter e (List.mem_append_right _ List.mem_cons_self), before, x, rest, rfl, hkind, htells, ?_⟩
      exact fun e' he' => hafter e' (List.mem_append_left _ he')
  · rintro (⟨hkind, htells⟩ | ⟨hkind, before, x, after, rfl, hx, htells, hafter⟩)
    · exact ⟨events, e, [], rfl, hkind, htells, fun _ he => absurd he List.not_mem_nil⟩
    · refine ⟨before, x, after ++ [e], by rw [List.append_assoc, List.cons_append], hx, htells, fun e' he' => ?_⟩
      obtain he' | he' := List.mem_append.mp he'
      · exact hafter e' he'
      · rwa [List.mem_singleton.mp he']

theorem last_concat_of_kind (h : kind e) : Last kind tells (events ++ [e]) ↔ tells events e := by
  rw [last_concat]
  exact ⟨fun hor => hor.elim And.right fun hno => absurd h hno.1, fun ht => .inl ⟨h, ht⟩⟩

theorem last_concat_of_not (h : ¬ kind e) : Last kind tells (events ++ [e]) ↔ Last kind tells events := by
  rw [last_concat]
  exact ⟨fun hor => hor.elim (fun hyes => absurd hyes.1 h) And.right, fun hl => .inr ⟨h, hl⟩⟩

end Cmoon.Histories
