import Mathlib.Logic.Relation
import Mathlib.Data.Nat.Notation

/-! # Machines that take one step after the other

A step may go on, halt with a result, or read what is not there. -/
namespace Cmoon.StepMachines

inductive Next (S R : Type*) where
  | fault
  | halt (r : R)
  | go (s : S)
  deriving DecidableEq

variable {S R : Type*} (step : S → Next S R)

/-- The machine comes from one state to another. -/
def Visits : S → S → Prop := Relation.ReflTransGen fun s s' => step s = .go s'

def Halts (s : S) (r : R) : Prop := ∃ s', Visits step s s' ∧ step s' = .halt r

def Faults (s : S) : Prop := ∃ s', Visits step s s' ∧ step s' = .fault

variable {step} {I : S → Prop} {s s' s'' : S} {r : R}

theorem Visits.refl (s : S) : Visits step s s := Relation.ReflTransGen.refl

theorem Visits.single (h : step s = .go s') : Visits step s s' := Relation.ReflTransGen.single h

theorem Visits.trans (h : Visits step s s') (h' : Visits step s' s'') : Visits step s s'' :=
  Relation.ReflTransGen.trans h h'

theorem Visits.halts (h : Visits step s s') (h' : Halts step s' r) : Halts step s r := by
  obtain ⟨t, ht, hr⟩ := h'
  exact ⟨t, h.trans ht, hr⟩

/-- What every step keeps holds wherever the machine comes. -/
theorem Visits.keeps (h : Visits step s s') (h0 : I s)
    (hstep : ∀ t t', Visits step s t → I t → step t = .go t' → I t') : I s' := by
  induction h with
  | refl => exact h0
  | tail hvisits hgo ih => exact hstep _ _ hvisits ih hgo

theorem end_unique {a b : S} (ha : Visits step s a) (hb : Visits step s b) (hstopa : ∀ c, step a ≠ .go c)
    (hstopb : ∀ c, step b ≠ .go c) : a = b := by
  have hunique : Relator.RightUnique fun s s' => step s = Next.go s' := by
    intro a b c hb hc
    rw [hb] at hc
    exact Next.go.inj hc
  have hstays : ∀ {a b : S}, (∀ c, step a ≠ .go c) → Visits step a b → a = b := by
    intro a b hstop hab
    obtain heq | ⟨c, hc, -⟩ := Relation.ReflTransGen.cases_head hab
    · exact heq
    · exact absurd hc (hstop c)
  obtain h | h := Relation.ReflTransGen.total_of_right_unique hunique ha hb
  · exact hstays hstopa h
  · exact (hstays hstopb h).symm

theorem Halts.unique {r' : R} (h : Halts step s r) (h' : Halts step s r') : r = r' := by
  obtain ⟨t, ht, hr⟩ := h
  obtain ⟨t', ht', hr'⟩ := h'
  have heq := end_unique ht ht' (by rw [hr]; exact nofun) (by rw [hr']; exact nofun)
  rw [heq, hr'] at hr
  exact (Next.halt.inj hr).symm

theorem not_halts (h0 : I s) (hstep : ∀ t, I t → ∃ t', step t = .go t' ∧ I t') : ¬ Halts step s r := by
  rintro ⟨t, ht, hr⟩
  have hinv : I t := ht.keeps h0 fun u u' _ hu hgo => by
    obtain ⟨v, hv, hinv⟩ := hstep u hu
    rw [hv] at hgo
    exact Next.go.inj hgo ▸ hinv
  obtain ⟨t', hgo, -⟩ := hstep t hinv
  rw [hgo] at hr
  cases hr

theorem Halts.not_faults (h : Halts step s r) : ¬ Faults step s := by
  rintro ⟨t', ht', hfault⟩
  obtain ⟨t, ht, hr⟩ := h
  have heq := end_unique ht ht' (by rw [hr]; exact nofun) (by rw [hfault]; exact nofun)
  rw [heq, hfault] at hr
  cases hr

end Cmoon.StepMachines
