import Mathlib.Data.List.Nodup
import Mathlib.Logic.Function.Basic

/-! # Sequences of cells with one link

Each cell links to the cell behind it, and the last one to nothing. Such a sequence grows at
both ends with one write, and only its own links matter. -/
namespace Cmoon.LinkedSequences

variable {A : Type*}

/-- The cells follow each other by `link`, and the last one links to nothing. -/
def Linked (link : A → Option A) : List A → Prop
  | [] => True
  | a :: as => link a = as.head? ∧ Linked link as

theorem Linked.frame {link link' : A → Option A} {as : List A} (h : Linked link as)
    (he : ∀ a ∈ as, link' a = link a) : Linked link' as := by
  induction as with
  | nil => trivial
  | cons a as ih =>
    refine ⟨(he a List.mem_cons_self).trans h.1, ih h.2 fun b hb => ?_⟩
    exact he b (List.mem_cons_of_mem a hb)

theorem Linked.unique {link : A → Option A} {as bs : List A} (h : Linked link as) (h' : Linked link bs)
    (hhead : as.head? = bs.head?) : as = bs := by
  induction as generalizing bs with
  | nil => exact (List.head?_eq_none_iff.mp hhead.symm).symm
  | cons a as ih =>
    obtain ⟨b, bs, rfl⟩ : ∃ b bs', bs = b :: bs' := by
      cases bs with
      | nil => cases hhead
      | cons b bs => exact ⟨b, bs, rfl⟩
    obtain rfl := Option.some.inj hhead
    rw [ih h.2 h'.2 (h.1.symm.trans h'.1)]

variable [DecidableEq A]

theorem Linked.update_of_notMem {link : A → Option A} {as : List A} (h : Linked link as) {a : A}
    (ha : a ∉ as) (x : Option A) : Linked (Function.update link a x) as := by
  refine h.frame fun b hb => Function.update_of_ne ?_ _ _
  rintro rfl
  exact ha hb

theorem Linked.cons {link : A → Option A} {as : List A} (h : Linked link as) {a : A} (ha : a ∉ as) :
    Linked (Function.update link a as.head?) (a :: as) :=
  ⟨Function.update_self .., h.update_of_notMem ha _⟩

theorem Linked.concat {link : A → Option A} {as : List A} {b a : A} (h : Linked link (as ++ [b]))
    (hnodup : (as ++ [b]).Nodup) (ha : a ∉ as ++ [b]) (hlink : link a = none) :
    Linked (Function.update link b (some a)) (as ++ [b] ++ [a]) := by
  induction as with
  | nil =>
    have hne : a ≠ b := by simpa using ha
    refine ⟨Function.update_self .., ?_, trivial⟩
    rw [Function.update_of_ne hne, hlink]
    rfl
  | cons c as ih =>
    obtain ⟨hc, hrest⟩ := h
    obtain ⟨hnotMem, hnodup⟩ := List.nodup_cons.mp hnodup
    have hcb : c ≠ b := by
      rintro rfl
      exact hnotMem (by simp)
    refine ⟨?_, ih hrest hnodup (fun hin => ha (List.mem_cons_of_mem c hin))⟩
    rw [Function.update_of_ne hcb, hc]
    cases as <;> rfl

theorem Linked.unlink {link : A → Option A} {as bs : List A} {b a : A} (h : Linked link (as ++ b :: a :: bs))
    (hnodup : (as ++ b :: a :: bs).Nodup) : Linked (Function.update link b (link a)) (as ++ b :: bs) := by
  induction as with
  | nil =>
    obtain ⟨-, ha, hrest⟩ := h
    have hb : b ∉ bs := fun hmem => (List.nodup_cons.mp hnodup).1 (List.mem_cons_of_mem a hmem)
    exact ⟨(Function.update_self ..).trans ha, hrest.update_of_notMem hb _⟩
  | cons c as ih =>
    obtain ⟨hc, hrest⟩ := h
    obtain ⟨hnotMem, hnodup⟩ := List.nodup_cons.mp hnodup
    have hcb : c ≠ b := by
      rintro rfl
      exact hnotMem (by simp)
    refine ⟨?_, ih hrest hnodup⟩
    change Function.update link b (link a) c = _
    rw [Function.update_of_ne hcb, hc]
    cases as <;> rfl

end Cmoon.LinkedSequences
