import Mathlib.Algebra.BigOperators.Group.List.Basic
import Mathlib.Data.List.Induction
import Mathlib.Logic.Function.Basic

/-! # Runs of a partial step function

A step that cannot be made has no result, and ends no run. What every step keeps a run keeps; a measure
that grows by what each step brings in has grown by all of it in the end. -/
namespace Cmoon.PartialRuns

variable {S E M A : Type*}

section Runs
variable (step : S → E → Option S)

def run : S → List E → Option S
  | s, [] => some s
  | s, e :: es => (step s e).bind fun s' => run s' es

variable {step} {s s' : S} {e : E} {es fs : List E}

theorem run_cons : run step s (e :: es) = some s' ↔ ∃ t, step s e = some t ∧ run step t es = some s' :=
  Option.bind_eq_some_iff

theorem run_append : run step s (es ++ fs) = (run step s es).bind fun t => run step t fs := by
  induction es generalizing s with
  | nil => rfl
  | cons e es ih =>
    simp only [List.cons_append, run, Option.bind_assoc]
    exact congrArg _ (funext fun t => ih)

theorem run_history {I : List E → S → Prop} (hs : I [] s)
    (hstep : ∀ ⦃es t e t'⦄, run step s es = some t → I es t → step t e = some t' → I (es ++ [e]) t')
    (hrun : run step s es = some s') : I es s' := by
  induction es using List.reverseRecOn generalizing s' with
  | nil => exact Option.some.inj hrun ▸ hs
  | append_singleton es e ih =>
    rw [run_append] at hrun
    obtain ⟨t, ht, hlast⟩ := Option.bind_eq_some_iff.mp hrun
    obtain ⟨t', hstep', hnil⟩ := run_cons.mp hlast
    cases hnil
    exact hstep ht (ih ht) hstep'

end Runs

section Measures
variable {step : S → E → Option S} {I : S → Prop} {s s' : S} {es : List E}

def Keeps (step : S → E → Option S) (I : S → Prop) : Prop :=
  ∀ ⦃s e s'⦄, I s → step s e = some s' → I s'

theorem Keeps.run (hI : Keeps step I) (hs : I s) (hrun : run step s es = some s') : I s' := by
  induction es generalizing s with
  | nil => exact Option.some.inj hrun ▸ hs
  | cons e es ih =>
    obtain ⟨t, hstep, hrest⟩ := run_cons.mp hrun
    exact ih (hI hs hstep) hrest

/-- A measure which follows each step by an operation follows the run by all of them. -/
theorem run_foldl (hI : Keeps step I) {μ : S → M} {f : M → E → M}
    (hstep : ∀ ⦃s e s'⦄, I s → step s e = some s' → μ s' = f (μ s) e) (hs : I s)
    (hrun : run step s es = some s') : μ s' = es.foldl f (μ s) := by
  induction es generalizing s with
  | nil => rw [← Option.some.inj hrun, List.foldl_nil]
  | cons e es ih =>
    obtain ⟨t, ht, hrest⟩ := run_cons.mp hrun
    rw [ih (hI hs ht) hrest, hstep hs ht, List.foldl_cons]

private theorem foldl_add [AddMonoid M] (ν : E → M) (es : List E) (m : M) :
    es.foldl (fun m e => m + ν e) m = m + (es.map ν).sum := by
  induction es generalizing m with
  | nil => simp
  | cons e es ih => simp [ih, add_assoc]

private theorem foldl_append (ν : E → List A) (es : List E) (l : List A) :
    es.foldl (fun l e => l ++ ν e) l = l ++ es.flatMap ν := by
  induction es generalizing l with
  | nil => simp
  | cons e es ih => simp [ih, List.append_assoc]

theorem run_sum [AddMonoid M] (hI : Keeps step I) {μ : S → M} {ν : E → M}
    (hstep : ∀ ⦃s e s'⦄, I s → step s e = some s' → μ s' = μ s + ν e) (hs : I s)
    (hrun : run step s es = some s') : μ s' = μ s + (es.map ν).sum :=
  (run_foldl (f := fun m e => m + ν e) hI hstep hs hrun).trans (foldl_add ν es (μ s))

theorem run_flatMap (hI : Keeps step I) {μ : S → List A} {ν : E → List A}
    (hstep : ∀ ⦃s e s'⦄, I s → step s e = some s' → μ s' = μ s ++ ν e) (hs : I s)
    (hrun : run step s es = some s') : μ s' = μ s ++ es.flatMap ν :=
  (run_foldl (f := fun l e => l ++ ν e) hI hstep hs hrun).trans (foldl_append ν es (μ s))

theorem run_perm (hI : Keeps step I) {μ : S → List A} {ν : E → List A}
    (hstep : ∀ ⦃s e s'⦄, I s → step s e = some s' → (μ s').Perm (μ s ++ ν e)) (hs : I s)
    (hrun : run step s es = some s') : (μ s').Perm (μ s ++ es.flatMap ν) := by
  induction es generalizing s with
  | nil => rw [← Option.some.inj hrun, List.flatMap_nil, List.append_nil]
  | cons e es ih =>
    obtain ⟨t, ht, hrest⟩ := run_cons.mp hrun
    have hall := (ih (hI hs ht) hrest).trans ((hstep hs ht).append_right _)
    rwa [List.append_assoc, ← List.flatMap_cons] at hall

end Measures

end Cmoon.PartialRuns
