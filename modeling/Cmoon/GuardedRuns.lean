import Mathlib.Data.List.Basic

/-! # Runs of a step function

What holds in every state of a run, and runs each step of which is made under a condition. -/
namespace Cmoon.GuardedRuns

variable {S T : Type*} (step : S → T → S)

/-- In every state of the run, the first and the last included. -/
def Throughout (P : S → Prop) : S → List T → Prop
  | s, [] => P s
  | s, t :: ts => P s ∧ Throughout P (step s t) ts

/-- Every step is made where the condition allows it. -/
def Guarded (G : S → T → Prop) : S → List T → Prop
  | _, [] => True
  | s, t :: ts => G s t ∧ Guarded G (step s t) ts

variable {step} {P Q I : S → Prop} {G H : S → T → Prop} {s : S} {ts us : List T}

theorem Throughout.first (h : Throughout step P s ts) : P s := by
  cases ts with
  | nil => exact h
  | cons t ts => exact h.1

theorem Throughout.last (h : Throughout step P s ts) : P (ts.foldl step s) := by
  induction ts generalizing s with
  | nil => exact h
  | cons t ts ih => exact ih h.2

theorem Throughout.imp (hPQ : ∀ s, P s → Q s) (h : Throughout step P s ts) : Throughout step Q s ts := by
  induction ts generalizing s with
  | nil => exact hPQ s h
  | cons t ts ih => exact ⟨hPQ s h.1, ih h.2⟩

/-- What every allowed step keeps holds throughout a run of allowed steps. -/
theorem Guarded.throughout (hstep : ∀ s t, I s → G s t → I (step s t)) (hs : I s)
    (hts : Guarded step G s ts) : Throughout step I s ts := by
  induction ts generalizing s with
  | nil => exact hs
  | cons t ts ih => exact ⟨hs, ih (hstep s t hs hts.1) hts.2⟩

theorem Guarded.of_forall (h : ∀ s, ∀ t ∈ ts, G s t) (s : S) : Guarded step G s ts := by
  induction ts generalizing s with
  | nil => trivial
  | cons t ts ih => exact ⟨h s t List.mem_cons_self, ih (fun s t ht => h s t (List.mem_cons_of_mem _ ht)) _⟩

/-- A run is guarded when, where the invariant holds, each of its steps is allowed and keeps the invariant. -/
theorem Guarded.of_invariant (hstep : ∀ s, ∀ t ∈ ts, I s → G s t ∧ I (step s t)) (hs : I s) :
    Guarded step G s ts := by
  induction ts generalizing s with
  | nil => trivial
  | cons t ts ih =>
    obtain ⟨hg, hi⟩ := hstep s t List.mem_cons_self hs
    exact ⟨hg, ih (fun s u hu => hstep s u (List.mem_cons_of_mem t hu)) hi⟩

theorem guarded_append : Guarded step G s (ts ++ us) ↔ Guarded step G s ts ∧ Guarded step G (ts.foldl step s) us := by
  induction ts generalizing s with
  | nil => simp [Guarded]
  | cons t ts ih => simp only [List.cons_append, Guarded, ih, List.foldl_cons, and_assoc]

theorem Guarded.imp (hstep : ∀ s t, I s → I (step s t)) (hGH : ∀ s t, I s → G s t → H s t) (hs : I s)
    (h : Guarded step G s ts) : Guarded step H s ts := by
  induction ts generalizing s with
  | nil => trivial
  | cons t ts ih => exact ⟨hGH s t hs h.1, ih (hstep s t hs) h.2⟩

/-- Two conditions which agree on the states that allowed steps reach. -/
theorem guarded_congr {F : S → T → Prop} (hstep : ∀ s t, I s → F s t → I (step s t))
    (hGH : ∀ s t, I s → F s t → (G s t ↔ H s t)) (hs : I s) (hF : Guarded step F s ts) :
    Guarded step G s ts ↔ Guarded step H s ts := by
  induction ts generalizing s with
  | nil => exact Iff.rfl
  | cons t ts ih => exact and_congr (hGH s t hs hF.1) (ih (hstep s t hs hF.1) hF.2)

end Cmoon.GuardedRuns
