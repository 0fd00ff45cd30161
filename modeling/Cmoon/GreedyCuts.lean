import Mathlib.Data.List.Basic

/-! # Cutting a sequence from the front

A rule says how many elements are cut off next. Two rules cut a sequence in the same way exactly if they agree wherever
one of them leads. -/
namespace Cmoon.GreedyCuts

variable {α : Type*}

/-- The lengths of the pieces that a rule cuts a sequence into. -/
inductive CutBy (R : List α → ℕ → Prop) : List α → List ℕ → Prop
  | nil : CutBy R [] []
  | cons {l : List α} {n : ℕ} {ns : List ℕ} (hl : l ≠ []) (h : R l n) (hrest : CutBy R (l.drop n) ns) : CutBy R l (n :: ns)

/-- What is left of a sequence after some cuts. -/
inductive Left (R : List α → ℕ → Prop) : List α → List α → Prop
  | here (l : List α) : Left R l l
  | there {l l' : List α} {n : ℕ} (hl : l ≠ []) (h : R l n) (hrest : Left R (l.drop n) l') : Left R l l'

variable {R G : List α → ℕ → Prop} {l : List α} {ns : List ℕ}

/-- The cuts of one rule are those of another exactly if the rules agree on all that the other one leaves. -/
theorem cutBy_iff (hR : ∀ l n n', R l n → R l n' → n = n') (hG : ∀ l n n', G l n → G l n' → n = n') (h : CutBy R l ns) :
    CutBy G l ns ↔ ∀ l', Left G l l' → l' ≠ [] → ∀ n, R l' n → G l' n := by
  induction h with
  | nil =>
    constructor
    · intro _ l' hleft hl'
      cases hleft with
      | here => exact absurd rfl hl'
      | there hl => exact absurd rfl hl
    · exact fun _ => .nil
  | @cons l n ns hl hRn hrest ih =>
    constructor
    · intro hcut
      cases hcut with
      | cons _ hGn hcut =>
        intro l' hleft hl' n' hRn'
        cases hleft with
        | here =>
          rw [hR l n' n hRn' hRn]
          exact hGn
        | there _ hGm hleft =>
          rw [hG l _ n hGm hGn] at hleft
          exact ih.mp hcut l' hleft hl' n' hRn'
    · intro hagree
      have hGn := hagree l (.here l) hl n hRn
      exact .cons hl hGn (ih.mpr fun l' hleft => hagree l' (.there hl hGn hleft))

end Cmoon.GreedyCuts
