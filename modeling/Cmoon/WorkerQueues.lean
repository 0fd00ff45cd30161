import Cmoon.LinkedSequences
import Mathlib.Data.List.ReduceOption

/-! # The worker queue (`queue.c`)

A queue holds its two ends and a size; an entry only links to the one behind it. `queue_put`
appends behind the top, `queue_cas` goes in front of the bottom, `queue_get` takes the bottom.
Every run of the three does what the operations of a sequence do. -/
namespace Cmoon.WorkerQueues
open LinkedSequences

variable {A : Type*}

/-- `struct queue`, with the field `prev` of all entries there are; `size` counts them. -/
structure Queue (A : Type*) where
  prev : A → Option A
  top : Option A
  bottom : Option A
  size : ℕ

def queueCreate (prev : A → Option A) : Queue A := ⟨prev, none, none, 0⟩

section Operations
variable [DecidableEq A]

def queuePut (q : Queue A) (e : A) : Queue A :=
  match q.top with
  | none => { q with top := some e, bottom := some e, size := q.size + 1 }
  | some top => { q with prev := Function.update q.prev top (some e), top := some e, size := q.size + 1 }

def queueCas (q : Queue A) (e : A) : Queue A :=
  match q.top with
  | none => { q with top := some e, bottom := some e, size := q.size + 1 }
  | some _ => { q with prev := Function.update q.prev e q.bottom, bottom := some e, size := q.size + 1 }

def queueGet (q : Queue A) : Option A × Queue A :=
  match q.bottom with
  | none => (none, q)
  | some e =>
    let t := q.prev e
    (some e, { q with bottom := t, top := if t = none then none else q.top, size := q.size - 1 })

/-- What happens to a queue. Between the operations of the queue its users write the link of
entries outside it: `queue_entry_create` clears it, a freed entry is memory for anything. -/
inductive Op (A : Type*) where
  | put (e : A)
  | cas (e : A)
  | get
  | outside (e : A) (prev : Option A)

/-- One operation, with what a `queue_get` returned. -/
def step (q : Queue A) : Op A → List (Option A) × Queue A
  | .put e => ([], queuePut q e)
  | .cas e => ([], queueCas q e)
  | .get => ([(queueGet q).1], (queueGet q).2)
  | .outside e prev => ([], { q with prev := Function.update q.prev e prev })

def run : Queue A → List (Op A) → List (Option A) × Queue A
  | q, [] => ([], q)
  | q, op :: ops =>
    let (out, q') := step q op
    let (outs, q'') := run q' ops
    (out ++ outs, q'')

end Operations

inductive Side where
  | back | front
  deriving DecidableEq

abbrev Item (A : Type*) := A × Side

/-- The sequence a queue is for: both ends take entries, the front gives them. -/
def seqStep (l : List (Item A)) : Op A → List (Option (Item A)) × List (Item A)
  | .put e => ([], l ++ [(e, .back)])
  | .cas e => ([], (e, .front) :: l)
  | .get => ([l.head?], l.tail)
  | .outside _ _ => ([], l)

def seqRun : List (Item A) → List (Op A) → List (Option (Item A)) × List (Item A)
  | l, [] => ([], l)
  | l, op :: ops => ((seqStep l op).1 ++ (seqRun (seqStep l op).2 ops).1, (seqRun (seqStep l op).2 ops).2)

def enteredBy : Op A → List (Item A)
  | .put e => [(e, .back)]
  | .cas e => [(e, .front)]
  | _ => []

def entered (ops : List (Op A)) : List (Item A) := ops.flatMap enteredBy

theorem seqStep_perm (l : List (Item A)) (op : Op A) :
    ((seqStep l op).1.reduceOption ++ (seqStep l op).2).Perm (l ++ enteredBy op) := by
  cases op with
  | put e => simp [seqStep, enteredBy]
  | cas e =>
    simp only [seqStep, enteredBy, List.reduceOption_nil, List.nil_append]
    exact (List.perm_append_singleton (e, Side.front) l).symm
  | get => cases l <;> simp [seqStep, enteredBy]
  | outside e prev => simp [seqStep, enteredBy]

theorem seqStep_order (l : List (Item A)) (op : Op A) :
    ((seqStep l op).1.reduceOption ++ (seqStep l op).2).filter (fun x => x.2 = .back) =
      (l ++ enteredBy op).filter fun x => x.2 = .back := by
  cases op with
  | put e => simp [seqStep, enteredBy]
  | cas e => simp [seqStep, enteredBy]
  | get => cases l <;> simp [seqStep, enteredBy]
  | outside e prev => simp [seqStep, enteredBy]

theorem seqRun_perm (l : List (Item A)) (ops : List (Op A)) :
    ((seqRun l ops).1.reduceOption ++ (seqRun l ops).2).Perm (l ++ entered ops) := by
  induction ops generalizing l with
  | nil => simp [seqRun, entered]
  | cons op ops ih =>
    simp only [seqRun, List.reduceOption_append, entered, List.flatMap_cons, List.append_assoc]
    apply ((ih (seqStep l op).2).append_left _).trans
    simpa only [List.append_assoc, entered] using (seqStep_perm l op).append_right (entered ops)

theorem seqRun_order (l : List (Item A)) (ops : List (Op A)) :
    ((seqRun l ops).1.reduceOption ++ (seqRun l ops).2).filter (fun x => x.2 = .back) =
      (l ++ entered ops).filter fun x => x.2 = .back := by
  induction ops generalizing l with
  | nil => simp [seqRun, entered]
  | cons op ops ih =>
    have hrest := ih (seqStep l op).2
    have hstep := seqStep_order l op
    simp only [List.filter_append] at hrest hstep
    simp only [seqRun, List.reduceOption_append, entered, List.flatMap_cons, List.filter_append, List.append_assoc]
    rw [hrest, ← List.append_assoc, hstep, List.append_assoc]
    rfl

/-- The queue and its links hold these entries, the front first. -/
structure Holds (q : Queue A) (l : List A) : Prop where
  linked : Linked q.prev l
  nodup : l.Nodup
  bottom : q.bottom = l.head?
  top : q.top = l.getLast?
  size : q.size = l.length

theorem holds_create (prev : A → Option A) : Holds (queueCreate prev) [] :=
  ⟨trivial, List.nodup_nil, rfl, rfl, rfl⟩

section Refinement
variable {q : Queue A} {l : List A}

theorem Holds.unique {l' : List A} (h : Holds q l) (h' : Holds q l') : l = l' :=
  h.linked.unique h'.linked (h.bottom.symm.trans h'.bottom)

/-- An entry that comes into a queue: it is not there, and its `prev` is null. -/
structure Fresh (q : Queue A) (l : List A) (e : A) : Prop where
  notMem : e ∉ l
  prev : q.prev e = none

private theorem holds_single {e : A} (hq : Holds q []) (he : Fresh q [] e) :
    Holds { q with top := some e, bottom := some e, size := q.size + 1 } [e] :=
  ⟨⟨he.prev, trivial⟩, List.nodup_singleton e, rfl, rfl, congrArg (· + 1) hq.size⟩

theorem holds_get (hq : Holds q l) : (queueGet q).1 = l.head? ∧ Holds (queueGet q).2 l.tail := by
  cases l with
  | nil =>
    rw [queueGet, hq.bottom]
    exact ⟨rfl, hq⟩
  | cons b l =>
    obtain ⟨hb, hrest⟩ := hq.linked
    rw [queueGet, hq.bottom]
    refine ⟨rfl, hrest, (List.nodup_cons.mp hq.nodup).2, hb, ?_, by simp [hq.size]⟩
    cases l with
    | nil => simp [hb]
    | cons c l => simp [hb, hq.top]

section Writes
variable [DecidableEq A]

theorem holds_put (hq : Holds q l) {e : A} (he : Fresh q l e) : Holds (queuePut q e) (l ++ [e]) := by
  obtain rfl | ⟨l, t, rfl⟩ := List.eq_nil_or_concat l
  · rw [queuePut, hq.top]
    exact holds_single hq he
  · rw [List.concat_eq_append] at hq he ⊢
    rw [queuePut, hq.top, List.getLast?_concat]
    refine ⟨hq.linked.concat hq.nodup he.notMem he.prev, ?_, ?_, by simp, by simp [hq.size]⟩
    · exact hq.nodup.append (List.nodup_singleton e) (List.disjoint_singleton.mpr he.notMem)
    · simp [hq.bottom, List.head?_append]

theorem holds_cas (hq : Holds q l) {e : A} (he : Fresh q l e) : Holds (queueCas q e) (e :: l) := by
  cases l with
  | nil =>
    rw [queueCas, hq.top]
    exact holds_single hq he
  | cons b l =>
    obtain ⟨t, ht⟩ : ∃ t, (b :: l).getLast? = some t := ⟨_, List.getLast?_eq_some_getLast (by simp)⟩
    rw [queueCas, hq.top, ht]
    refine ⟨?_, List.nodup_cons.mpr ⟨he.notMem, hq.nodup⟩, rfl, ?_, by simp [hq.size]⟩
    · simp only [hq.bottom]
      exact hq.linked.cons he.notMem
    · rw [List.getLast?_cons_cons, ht]

theorem holds_outside (hq : Holds q l) {e : A} (he : e ∉ l) (prev : Option A) :
    Holds { q with prev := Function.update q.prev e prev } l :=
  ⟨hq.linked.update_of_notMem he prev, hq.nodup, hq.bottom, hq.top, hq.size⟩

/-- What the users of a queue see to: entries that come in are fresh, and no link of an entry in
the queue is written from outside. -/
def Op.Sound (q : Queue A) (l : List A) : Op A → Prop
  | .put e => Fresh q l e
  | .cas e => Fresh q l e
  | .get => True
  | .outside e _ => e ∉ l

theorem step_simulates {items : List (Item A)} (hq : Holds q (items.map Prod.fst)) {op : Op A}
    (hop : op.Sound q (items.map Prod.fst)) :
    (step q op).1 = (seqStep items op).1.map (Option.map Prod.fst) ∧
      Holds (step q op).2 ((seqStep items op).2.map Prod.fst) := by
  cases op with
  | put e =>
    refine ⟨rfl, ?_⟩
    rw [seqStep, List.map_append]
    exact holds_put hq hop
  | cas e => exact ⟨rfl, holds_cas hq hop⟩
  | get =>
    obtain ⟨hout, hget⟩ := holds_get hq
    refine ⟨?_, ?_⟩
    · simp [step, seqStep, hout]
    · simpa [step, seqStep, List.map_tail] using hget
  | outside e prev => exact ⟨rfl, holds_outside hq hop prev⟩

def SoundRun : Queue A → List (Item A) → List (Op A) → Prop
  | _, _, [] => True
  | q, items, op :: ops => op.Sound q (items.map Prod.fst) ∧ SoundRun (step q op).2 (seqStep items op).2 ops

theorem run_simulates {items : List (Item A)} (hq : Holds q (items.map Prod.fst)) {ops : List (Op A)}
    (hops : SoundRun q items ops) :
    (run q ops).1 = (seqRun items ops).1.map (Option.map Prod.fst) ∧
      Holds (run q ops).2 ((seqRun items ops).2.map Prod.fst) := by
  induction ops generalizing q items with
  | nil => exact ⟨rfl, hq⟩
  | cons op ops ih =>
    obtain ⟨hout, hstep⟩ := step_simulates hq hops.1
    obtain ⟨houts, hrest⟩ := ih hstep hops.2
    refine ⟨?_, hrest⟩
    simp only [run, seqRun, List.map_append, hout, houts]

end Writes
end Refinement

/-- A queue is a sequence: over every run it gives what the sequence gives and counts its length, so
each entry comes out as often as it came in, and those of `queue_put` in the order they came. -/
theorem queue_sequence [DecidableEq A] (prev : A → Option A) {ops : List (Op A)}
    (hops : SoundRun (queueCreate prev) [] ops) :
    (run (queueCreate prev) ops).1 = (seqRun [] ops).1.map (Option.map Prod.fst) ∧
      Holds (run (queueCreate prev) ops).2 ((seqRun [] ops).2.map Prod.fst) ∧
      (run (queueCreate prev) ops).2.size = (seqRun [] ops).2.length ∧
      ((seqRun [] ops).1.reduceOption ++ (seqRun [] ops).2).Perm (entered ops) ∧
      ((seqRun [] ops).1.reduceOption ++ (seqRun [] ops).2).filter (fun x => x.2 = .back) =
        (entered ops).filter fun x => x.2 = .back := by
  obtain ⟨houts, hholds⟩ := @run_simulates A _ _ [] (holds_create prev) ops hops
  have hsize := hholds.size
  rw [List.length_map] at hsize
  exact ⟨houts, hholds, hsize, seqRun_perm [] ops, seqRun_order [] ops⟩

/-- Two entries at the back and one in front of them, and a fourth one after all are out. -/
theorem queue_sequence_three :
    (run (queueCreate fun _ => none) [.put 1, .put 2, .cas 3, .get, .get, .get, .get, .put 4, .get]).1 =
      [some 3, some 1, some 2, none, some 4] := by
  have hsound : SoundRun (queueCreate fun _ => none) []
      [.put 1, .put 2, .cas 3, .get, .get, .get, .get, .put 4, .get] :=
    ⟨⟨by simp, rfl⟩, ⟨by decide, rfl⟩, ⟨by decide, rfl⟩, trivial, trivial, trivial, trivial,
      ⟨by decide, rfl⟩, trivial, trivial⟩
  exact (queue_sequence _ hsound).1

end Cmoon.WorkerQueues
