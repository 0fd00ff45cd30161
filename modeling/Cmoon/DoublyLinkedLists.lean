import Mathlib.Data.List.Nodup
import Mathlib.Data.List.Induction
import Mathlib.Logic.Function.Basic

/-! # Doubly linked lists in a heap of cells

A heap maps an address to a live cell: a payload between two links. A segment is
a run of cells whose links agree in both directions; a chain is a segment closed
by null links and reached from two end pointers. The operations write one link at
a time, and fault on a null or dead address, as the programs do which use them. -/
namespace Cmoon.DoublyLinkedLists

/-- A live cell: its payload and its two links. -/
structure Node (A V : Type*) where
  val : V
  prev : Option A
  next : Option A

abbrev Heap (A V : Type*) := A → Option (Node A V)

variable {A V : Type*}

/-- The link of the cell behind a pointer; a fault when the pointer is null or dead. -/
def readNext (h : Heap A V) (p : Option A) : Option (Option A) := (p.bind h).map Node.next

def readPrev (h : Heap A V) (p : Option A) : Option (Option A) := (p.bind h).map Node.prev

def readVal (h : Heap A V) (p : Option A) : Option V := (p.bind h).map Node.val

section Ends

def headAddr (as : List (A × V)) : Option A := as.head?.map Prod.fst

def lastAddr (as : List (A × V)) : Option A := as.getLast?.map Prod.fst

@[simp] theorem headAddr_nil : headAddr ([] : List (A × V)) = none := rfl

@[simp] theorem headAddr_cons (a : A) (v : V) (as : List (A × V)) :
    headAddr ((a, v) :: as) = some a := rfl

@[simp] theorem lastAddr_nil : lastAddr ([] : List (A × V)) = none := rfl

@[simp] theorem lastAddr_concat (as : List (A × V)) (a : A) (v : V) :
    lastAddr (as ++ [(a, v)]) = some a := by simp [lastAddr]

theorem headAddr_append (as bs : List (A × V)) :
    headAddr (as ++ bs) = (headAddr as).or (headAddr bs) := by
  cases as <;> simp [headAddr]

theorem lastAddr_append (as bs : List (A × V)) :
    lastAddr (as ++ bs) = (lastAddr bs).or (lastAddr as) := by
  induction bs using List.reverseRecOn with
  | nil => simp
  | append_singleton bs b _ => simp [lastAddr, ← List.append_assoc]

theorem lastAddr_cons (a : A) (v : V) (as : List (A × V)) :
    lastAddr ((a, v) :: as) = (lastAddr as).or (some a) :=
  lastAddr_append [(a, v)] as

theorem headAddr_mem {as : List (A × V)} {a : A} (h : headAddr as = some a) :
    a ∈ as.map Prod.fst := by
  obtain ⟨e, he, rfl⟩ := Option.map_eq_some_iff.mp h
  exact List.mem_map_of_mem (List.mem_of_mem_head? he)

theorem lastAddr_mem {as : List (A × V)} {a : A} (h : lastAddr as = some a) :
    a ∈ as.map Prod.fst := by
  obtain ⟨e, he, rfl⟩ := Option.map_eq_some_iff.mp h
  exact List.mem_map_of_mem (List.mem_of_mem_getLast? he)

theorem headAddr_eq_none {as : List (A × V)} : headAddr as = none ↔ as = [] := by
  cases as <;> simp [headAddr]

theorem lastAddr_eq_none {as : List (A × V)} : lastAddr as = none ↔ as = [] := by
  simp [lastAddr]

end Ends

section Segments

/-- The cells `as` lie behind each other, entered from `p` and left towards `n`. -/
def Seg (h : Heap A V) : Option A → List (A × V) → Option A → Prop
  | _, [], _ => True
  | p, (a, v) :: as, n => h a = some ⟨v, p, (headAddr as).or n⟩ ∧ Seg h (some a) as n

theorem Seg.append_iff (h : Heap A V) (p : Option A) (as bs : List (A × V)) (n : Option A) :
    Seg h p (as ++ bs) n ↔
      Seg h p as ((headAddr bs).or n) ∧ Seg h ((lastAddr as).or p) bs n := by
  induction as generalizing p with
  | nil => simp [Seg]
  | cons e as ih =>
    obtain ⟨a, v⟩ := e
    simp only [List.cons_append, Seg, ih, headAddr_append, lastAddr_cons, and_assoc, Option.or_assoc]
    simp

theorem Seg.frame {h h' : Heap A V} {p n : Option A} {as : List (A × V)}
    (hs : Seg h p as n) (he : ∀ a ∈ as.map Prod.fst, h' a = h a) : Seg h' p as n := by
  induction as generalizing p with
  | nil => trivial
  | cons e as ih =>
    obtain ⟨a, v⟩ := e
    refine ⟨(he a (by simp)).trans hs.1, ih hs.2 ?_⟩
    intro b hb
    exact he b (List.mem_cons_of_mem a hb)

theorem Seg.cell {h : Heap A V} {p n : Option A} {xs ys : List (A × V)} {a : A} {v : V}
    (hs : Seg h p (xs ++ (a, v) :: ys) n) :
    h a = some ⟨v, (lastAddr xs).or p, (headAddr ys).or n⟩ :=
  ((Seg.append_iff h p xs _ n).mp hs).2.1

theorem Seg.live {h : Heap A V} {p n : Option A} {as : List (A × V)} (hs : Seg h p as n)
    {a : A} (ha : a ∈ as.map Prod.fst) : h a ≠ none := by
  obtain ⟨⟨b, v⟩, hm, rfl⟩ := List.mem_map.mp ha
  obtain ⟨xs, ys, rfl⟩ := List.append_of_mem hm
  simp [hs.cell]

end Segments

section Writes
variable [DecidableEq A]

/-- Rewrite the cell behind a pointer; a fault when the pointer is null or dead. -/
def write (h : Heap A V) (p : Option A) (f : Node A V → Node A V) : Option (Heap A V) :=
  p.bind fun a => (h a).map fun nd => Function.update h a (some (f nd))

def setNext (h : Heap A V) (p x : Option A) : Option (Heap A V) :=
  write h p fun nd => { nd with next := x }

def setPrev (h : Heap A V) (p x : Option A) : Option (Heap A V) :=
  write h p fun nd => { nd with prev := x }

/-- `setPrev` behind a pointer which is only followed when it is not null. -/
def setPrevIf (h : Heap A V) (p x : Option A) : Option (Heap A V) :=
  if p ≠ none then setPrev h p x else some h

def setVal (h : Heap A V) (p : Option A) (v : V) : Option (Heap A V) :=
  write h p fun nd => { nd with val := v }

def free (h : Heap A V) (p : Option A) : Option (Heap A V) :=
  p.bind fun a => (h a).map fun _ => Function.update h a none

/-- The heap after a link write which did not fault; a null pointer writes nothing. -/
def withNext (h : Heap A V) (p x : Option A) : Heap A V :=
  match p with
  | none => h
  | some a => Function.update h a ((h a).map fun nd => { nd with next := x })

def withPrev (h : Heap A V) (p x : Option A) : Heap A V :=
  match p with
  | none => h
  | some a => Function.update h a ((h a).map fun nd => { nd with prev := x })

theorem setNext_eq {h : Heap A V} {a : A} {nd : Node A V} (ha : h a = some nd) (x : Option A) :
    setNext h (some a) x = some (withNext h (some a) x) := by
  simp [setNext, write, withNext, ha]

theorem setPrev_eq {h : Heap A V} {a : A} {nd : Node A V} (ha : h a = some nd) (x : Option A) :
    setPrev h (some a) x = some (withPrev h (some a) x) := by
  simp [setPrev, write, withPrev, ha]

theorem withNext_of_ne (h : Heap A V) {p : Option A} {b : A} (hb : p ≠ some b) (x : Option A) :
    withNext h p x b = h b := by
  cases p with
  | none => rfl
  | some a =>
    have hne : b ≠ a := fun he => hb (by rw [he])
    simp [withNext, Function.update_of_ne hne]

theorem withPrev_of_ne (h : Heap A V) {p : Option A} {b : A} (hb : p ≠ some b) (x : Option A) :
    withPrev h p x b = h b := by
  cases p with
  | none => rfl
  | some a =>
    have hne : b ≠ a := fun he => hb (by rw [he])
    simp [withPrev, Function.update_of_ne hne]

@[simp] theorem withNext_self (h : Heap A V) (a : A) (x : Option A) :
    withNext h (some a) x a = (h a).map fun nd => { nd with next := x } := by
  simp [withNext]

@[simp] theorem withPrev_self (h : Heap A V) (a : A) (x : Option A) :
    withPrev h (some a) x a = (h a).map fun nd => { nd with prev := x } := by
  simp [withPrev]

theorem withNext_live (h : Heap A V) (p x : Option A) (b : A) : withNext h p x b ≠ none ↔ h b ≠ none := by
  by_cases hb : p = some b
  · subst hb; cases hh : h b <;> simp [hh]
  · rw [withNext_of_ne h hb]

theorem setPrevIf_eq {h : Heap A V} {p : Option A} (hp : ∀ a, p = some a → h a ≠ none)
    (x : Option A) : setPrevIf h p x = some (withPrev h p x) := by
  cases p with
  | none => rfl
  | some a =>
    obtain ⟨nd, hnd⟩ := Option.ne_none_iff_exists'.mp (hp a rfl)
    simp [setPrevIf, setPrev_eq hnd]

/-- Redirecting the last cell changes where the segment leads. -/
theorem Seg.withNext_last {h : Heap A V} {p n : Option A} {as : List (A × V)}
    (hs : Seg h p as n) (hd : (as.map Prod.fst).Nodup) (x : Option A) :
    Seg (withNext h (lastAddr as) x) p as x := by
  induction as using List.reverseRecOn with
  | nil => trivial
  | append_singleton as e _ =>
    obtain ⟨a, v⟩ := e
    rw [lastAddr_concat]
    obtain ⟨hl, hr⟩ := (Seg.append_iff h p as _ n).mp hs
    have ha : a ∉ as.map Prod.fst := by
      simp only [List.map_append, List.map_cons, List.map_nil] at hd
      exact fun hm => (List.nodup_append.mp hd).2.2 a hm a (by simp) rfl
    refine (Seg.append_iff _ p as _ x).mpr ⟨?_, ?_, trivial⟩
    · exact hl.frame fun b hb => withNext_of_ne h (fun he => ha (by cases he; exact hb)) x
    · simp [hr.1]

/-- Redirecting the first cell changes where the segment is entered from. -/
theorem Seg.withPrev_head {h : Heap A V} {p n : Option A} {as : List (A × V)}
    (hs : Seg h p as n) (hd : (as.map Prod.fst).Nodup) (x : Option A) :
    Seg (withPrev h (headAddr as) x) x as n := by
  cases as with
  | nil => trivial
  | cons e as =>
    obtain ⟨a, v⟩ := e
    have ha : a ∉ as.map Prod.fst := (List.nodup_cons.mp hd).1
    refine ⟨by simp [hs.1], hs.2.frame fun b hb => ?_⟩
    exact withPrev_of_ne h (fun he => ha (by cases he; exact hb)) x

/-- The heap after the neighbours of a cell between `xs` and `ys` are joined. -/
def unlinked (h : Heap A V) (xs ys : List (A × V)) : Heap A V :=
  withPrev (withNext h (lastAddr xs) (headAddr ys)) (headAddr ys) (lastAddr xs)

theorem unlinked_of_notMem (h : Heap A V) {xs ys : List (A × V)} {b : A}
    (hx : b ∉ xs.map Prod.fst) (hy : b ∉ ys.map Prod.fst) : unlinked h xs ys b = h b := by
  rw [unlinked, withPrev_of_ne _ (fun he => hy (headAddr_mem he)),
    withNext_of_ne _ (fun he => hx (lastAddr_mem he))]

/-- Joining the neighbours of a cell takes it out of its segment. -/
theorem Seg.unlink {h : Heap A V} {xs ys : List (A × V)} {a : A} {v : V}
    (hs : Seg h none (xs ++ (a, v) :: ys) none)
    (hd : ((xs ++ (a, v) :: ys).map Prod.fst).Nodup) : Seg (unlinked h xs ys) none (xs ++ ys) none := by
  obtain ⟨hx, -, hy⟩ := (Seg.append_iff h none xs _ none).mp hs
  simp only [List.map_append, List.map_cons] at hd
  obtain ⟨hdx, hdy, hne⟩ := List.nodup_append.mp hd
  have hdy := (List.nodup_cons.mp hdy).2
  have hx₁ := hx.withNext_last hdx (headAddr ys)
  have hy₁ : Seg (withNext h (lastAddr xs) (headAddr ys)) (some a) ys none :=
    hy.frame fun b hb => withNext_of_ne h
      (fun he => hne b (lastAddr_mem he) b (List.mem_cons_of_mem a hb) rfl) _
  have hx₂ : Seg (unlinked h xs ys) none xs (headAddr ys) :=
    hx₁.frame fun b hb => withPrev_of_ne _
      (fun he => hne b hb b (List.mem_cons_of_mem a (headAddr_mem he)) rfl) _
  have hy₂ : Seg (unlinked h xs ys) (lastAddr xs) ys none := hy₁.withPrev_head hdy (lastAddr xs)
  refine (Seg.append_iff _ none xs ys none).mpr ⟨?_, ?_⟩
  · simpa using hx₂
  · simpa using hy₂

theorem unlinked_cell {h : Heap A V} {xs ys : List (A × V)} {a : A} {v : V}
    (hs : Seg h none (xs ++ (a, v) :: ys) none)
    (hd : ((xs ++ (a, v) :: ys).map Prod.fst).Nodup) :
    unlinked h xs ys a = some ⟨v, lastAddr xs, headAddr ys⟩ := by
  simp only [List.map_append, List.map_cons, List.nodup_append] at hd
  rw [unlinked_of_notMem h (fun hm => hd.2.2 a hm a (by simp) rfl) (List.nodup_cons.mp hd.2.1).1]
  simpa using hs.cell

/-- Linking a cell in front of a nonempty segment: its `next`, then the `prev` of the old first cell. -/
theorem Seg.linkFirst {h : Heap A V} {as : List (A × V)} {a : A} {v : V} {x : Option A}
    (hs : Seg h none as none) (hd : (as.map Prod.fst).Nodup) (hne : as ≠ [])
    (ha : h a = some ⟨v, none, x⟩) (hn : a ∉ as.map Prod.fst) :
    ∃ h₁ h₂, setNext h (some a) (headAddr as) = some h₁ ∧ setPrev h₁ (headAddr as) (some a) = some h₂ ∧
      Seg h₂ none ((a, v) :: as) none ∧ ∀ b, b ≠ a → b ∉ as.map Prod.fst → h₂ b = h b := by
  obtain ⟨f, hf⟩ := Option.ne_none_iff_exists'.mp (mt headAddr_eq_none.mp hne)
  have hfa : f ∈ as.map Prod.fst := headAddr_mem hf
  have hfne : f ≠ a := fun he => hn (he ▸ hfa)
  have hs₁ : Seg (withNext h (some a) (headAddr as)) none as none :=
    hs.frame fun b hb => withNext_of_ne h (fun he => hn (by cases he; exact hb)) _
  obtain ⟨nd, hnd⟩ := Option.ne_none_iff_exists'.mp (hs₁.live hfa)
  have hset : setPrev (withNext h (some a) (headAddr as)) (headAddr as) (some a) =
      some (withPrev (withNext h (some a) (headAddr as)) (headAddr as) (some a)) := by
    rw [hf] at hnd ⊢
    exact setPrev_eq hnd _
  refine ⟨_, _, setNext_eq ha _, hset, ⟨?_, ?_⟩, ?_⟩
  · rw [hf, withPrev_of_ne _ (fun he => hfne (Option.some.inj he))]
    simp [ha]
  · simpa [hf] using hs₁.withPrev_head hd (some a)
  · intro b hb hbas
    rw [hf, withPrev_of_ne _ (fun he => hbas (by cases he; exact hfa)),
      withNext_of_ne _ (fun he => hb (Option.some.inj he).symm)]

/-- Evicting the last cell of a longer segment: the one before it is cut off, then it is released. -/
theorem Seg.evictLast {h : Heap A V} {as : List (A × V)} {l : A} {w : V}
    (hs : Seg h none (as ++ [(l, w)]) none) (hd : ((as ++ [(l, w)]).map Prod.fst).Nodup)
    (hne : as ≠ []) :
    ∃ h₁ h₂, readPrev h (some l) = some (lastAddr as) ∧ setNext h (lastAddr as) none = some h₁ ∧
      free h₁ (some l) = some h₂ ∧ Seg h₂ none as none ∧
      ∀ b, b ∉ (as ++ [(l, w)]).map Prod.fst → h₂ b = h b := by
  obtain ⟨f, hf⟩ := Option.ne_none_iff_exists'.mp (mt lastAddr_eq_none.mp hne)
  obtain ⟨ha, hl⟩ := (Seg.append_iff h none as _ none).mp hs
  simp only [List.map_append, List.map_cons, List.map_nil, List.nodup_append] at hd
  have hla : l ∉ as.map Prod.fst := fun hm => hd.2.2 l hm l (by simp) rfl
  have hfl : f ≠ l := fun he => hla (he ▸ lastAddr_mem hf)
  obtain ⟨nd, hnd⟩ := Option.ne_none_iff_exists'.mp (ha.live (lastAddr_mem hf))
  have hcut := ha.withNext_last hd.1 none
  have hl₁ : withNext h (lastAddr as) none l = h l :=
    withNext_of_ne h (fun he => hfl (Option.some.inj (hf.symm.trans he))) none
  refine ⟨withNext h (lastAddr as) none, Function.update (withNext h (lastAddr as) none) l none,
    by simp [readPrev, hl.1], by rw [hf]; exact setNext_eq hnd none, ?_, ?_, ?_⟩
  · simp [free, hl₁, hl.1]
  · refine hcut.frame fun b hb => Function.update_of_ne ?_ ..
    rintro rfl
    exact hla hb
  · intro b hb
    simp only [List.map_append, List.mem_append, List.map_cons, List.map_nil, List.mem_singleton,
      not_or] at hb
    rw [Function.update_of_ne hb.2]
    exact withNext_of_ne h (fun he => hb.1 (lastAddr_mem he)) none

/-- Rewriting a payload leaves every link as it was. -/
theorem Seg.setVal {h : Heap A V} {p n : Option A} {xs ys : List (A × V)} {a : A} {v : V}
    (hs : Seg h p (xs ++ (a, v) :: ys) n)
    (hd : ((xs ++ (a, v) :: ys).map Prod.fst).Nodup) (w : V) :
    ∃ h', setVal h (some a) w = some h' ∧ Seg h' p (xs ++ (a, w) :: ys) n ∧
      ∀ b, b ≠ a → h' b = h b := by
  refine ⟨Function.update h a (some ⟨w, (lastAddr xs).or p, (headAddr ys).or n⟩), ?_, ?_, ?_⟩
  · simp [DoublyLinkedLists.setVal, write, hs.cell]
  · simp only [List.map_append, List.map_cons] at hd
    obtain ⟨-, hdy, hne⟩ := List.nodup_append.mp hd
    obtain ⟨hx, -, hy⟩ := (Seg.append_iff h p xs _ n).mp hs
    refine (Seg.append_iff _ p xs _ n).mpr ⟨hx.frame fun b hb => ?_, by simp, hy.frame fun b hb => ?_⟩
    · exact Function.update_of_ne (hne b hb a (by simp)) _ _
    · exact Function.update_of_ne (fun he => (List.nodup_cons.mp hdy).1 (by rwa [← he])) _ _
  · intro b hb
    exact Function.update_of_ne hb _ _

end Writes

/-- The list of cells reached from the end pointers `first` and `last`. -/
structure IsChain (h : Heap A V) (first last : Option A) (as : List (A × V)) : Prop where
  seg : Seg h none as none
  first_eq : first = headAddr as
  last_eq : last = lastAddr as
  nodup : (as.map Prod.fst).Nodup

theorem IsChain.nil (h : Heap A V) : IsChain h none none [] :=
  ⟨trivial, rfl, rfl, List.nodup_nil⟩

theorem IsChain.frame {h h' : Heap A V} {first last : Option A} {as : List (A × V)}
    (hc : IsChain h first last as) (he : ∀ a ∈ as.map Prod.fst, h' a = h a) :
    IsChain h' first last as :=
  ⟨hc.seg.frame he, hc.first_eq, hc.last_eq, hc.nodup⟩

/-- Along `next` the cells of a chain come in order, and along `prev` in reverse. -/
theorem IsChain.links {h : Heap A V} {first last : Option A} {as : List (A × V)}
    (hc : IsChain h first last as) {i : ℕ} {a : A} {v : V} (hi : as[i]? = some (a, v)) :
    h a = some ⟨v, if i = 0 then none else (as[i - 1]?).map Prod.fst, (as[i + 1]?).map Prod.fst⟩ := by
  obtain ⟨hlt, hget⟩ := List.getElem?_eq_some_iff.mp hi
  have hsplit : as = as.take i ++ (a, v) :: as.drop (i + 1) := by
    rw [← hget, ← List.drop_eq_getElem_cons hlt, List.take_append_drop]
  have hseg := hc.seg
  rw [hsplit] at hseg
  rw [hseg.cell]
  congr 1
  have hlast : (lastAddr (as.take i)).or none = if i = 0 then none else (as[i - 1]?).map Prod.fst := by
    cases i with
    | zero => simp
    | succ i =>
      have hlen : (as.take (i + 1)).length = i + 1 := by simp; omega
      have hi : i < as.length := by omega
      simp [lastAddr, List.getLast?_eq_getElem?, hlen, List.getElem?_eq_getElem hi]
  have hhead : (headAddr (as.drop (i + 1))).or none = (as[i + 1]?).map Prod.fst := by
    simp [headAddr, List.head?_drop]
  rw [hlast, hhead]

end Cmoon.DoublyLinkedLists
