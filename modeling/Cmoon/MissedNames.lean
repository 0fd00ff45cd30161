import Cmoon.DecimalText
import Cmoon.GuardedRuns
import Cmoon.LinkedSequences

/-! # The list of missed names (`apev.c` of the daemon v)

`name_push` puts a name that is not in the list in front of it, and `name_remove` takes one out. Whether a name is in
the list is a pointer, which `name_push` compares with 0 by `>=`. -/
namespace Cmoon.MissedNames
open DecimalText GuardedRuns LinkedSequences

structure NameEntry where
  name : Option Bytes
  next : Option ℕ
  deriving DecidableEq, Repr

/-- The entries there are, by their addresses. Following a pointer to any other address, or `NULL`, is a fault. -/
abbrev Memory := ℕ → Option NameEntry

/-- A pointer as a number; `NULL` is 0. -/
def address (p : Option ℕ) : ℕ := p.getD 0

/-- Whether `strcmp` finds no difference; it crashes on `NULL`. -/
def strcmpEq : Option Bytes → Option Bytes → Option Bool
  | some a, some b => some (a = b)
  | _, _ => none

/-- What `calloc` and `strdup` of `name_new` give: a new address, and whether there is memory for the copy. -/
structure Mallocs where
  entry : Option ℕ
  name : Bool
  deriving DecidableEq, Repr

/-- A list: the memory, and what `*entry` points to. -/
structure Missed where
  mem : Memory
  entry : Option ℕ

section Operations

/-- `name_find`, over at most `fuel` entries. -/
def nameFind (mem : Memory) (name : Option Bytes) : ℕ → Option ℕ → Option (Option ℕ)
  | _, none => some none
  | 0, some _ => none
  | fuel + 1, some a => do
    let e ← mem a
    if ← strcmpEq name e.name then return some a else nameFind mem name fuel e.next

/-- `name_new`; without memory for the entry it writes to `NULL`. -/
def nameNew (m : Mallocs) (mem : Memory) (name : Option Bytes) : Option (Memory × Option ℕ) :=
  match name with
  | none => some (mem, none)
  | some s => do
    let n ← m.entry
    return (Function.update mem n (some ⟨if m.name then some s else none, none⟩), some n)

/-- `e->next = next` -/
def setNext (mem : Memory) (p next : Option ℕ) : Option Memory := do
  let a ← p
  let e ← mem a
  return Function.update mem a (some { e with next := next })

variable (fuel : ℕ)

def namePush (m : Mallocs) (l : Missed) (name : Option Bytes) : Option (Missed × Option ℕ) := do
  let found ← nameFind l.mem name fuel l.entry
  if 0 ≤ address found then return (l, l.entry)
  else
    let (mem, n) ← nameNew m l.mem name
    let mem ← setNext mem n l.entry
    return (⟨mem, n⟩, n)

/-- The loop of `name_remove`, with what `*entry` and `e` are at its end. -/
def removeLoop (mem : Memory) (name : Option Bytes) (entry : Option ℕ) :
    ℕ → Option ℕ → Option ℕ → Option (Missed × Option ℕ)
  | _, _, none => some (⟨mem, entry⟩, none)
  | 0, _, some _ => none
  | fuel + 1, b, some a => do
    let e ← mem a
    if e.name = none then return (⟨mem, entry⟩, some a)
    else if ← strcmpEq name e.name then
      if b = some a then return (⟨mem, none⟩, some a)
      else return (⟨← setNext mem b e.next, entry⟩, some a)
    else removeLoop mem name entry fuel (some a) e.next

def nameFree (mem : Memory) : Option ℕ → Memory
  | none => mem
  | some a => Function.update mem a none

def nameRemove (l : Missed) (name : Option Bytes) : Option (Missed × Option ℕ) :=
  if l.entry = none ∨ name = none then some (l, none)
  else do
    let (l', e) ← removeLoop l.mem name l.entry fuel l.entry l.entry
    return (⟨nameFree l'.mem e, l'.entry⟩, l'.entry)

inductive Op where
  | push (name : Option Bytes) (m : Mallocs)
  | remove (name : Option Bytes)
  deriving DecidableEq, Repr

def Op.apply (l : Missed) : Op → Option Missed
  | .push name m => (namePush fuel m l name).map Prod.fst
  | .remove name => (nameRemove fuel l name).map Prod.fst

end Operations

def Op.held (names : Finset Bytes) : Op → Finset Bytes
  | .push name _ => names ∪ name.toFinset
  | .remove name => names \ name.toFinset

/-- A run of calls: the list, none behind a fault, and the set that it is to be. -/
structure State where
  list : Option Missed
  held : Finset Bytes

def step (fuel : ℕ) (s : State) (op : Op) : State := ⟨s.list.bind fun l => op.apply fuel l, op.held s.held⟩

def initial (mem : Memory) : State := ⟨some ⟨mem, none⟩, ∅⟩

def link (mem : Memory) (a : ℕ) : Option ℕ := (mem a).bind NameEntry.next

/-- The entries of a list, with their names -/
structure Holds (l : Missed) (cells : List (ℕ × Bytes)) : Prop where
  entry : l.entry = (cells.map Prod.fst).head?
  cell : ∀ c ∈ cells, ∃ next, l.mem c.1 = some ⟨some c.2, next⟩
  linked : Linked (link l.mem) (cells.map Prod.fst)
  nodup : (cells.map Prod.fst).Nodup

/-- `name_find` succeeds. -/
def Finds (fuel : ℕ) (l : Missed) (name : Bytes) : Prop :=
  ∃ a, nameFind l.mem (some name) fuel l.entry = some (some a)

/-- `name_remove` of a name leaves all others. -/
def LeavesOthers (fuel : ℕ) (l : Missed) (name : Bytes) : Prop :=
  ∃ l' r, nameRemove fuel l (some name) = some (l', r) ∧
    ∀ other, other ≠ name → Finds fuel l other → Finds fuel l' other

def IsSet (fuel : ℕ) (s : State) : Prop :=
  ∃ l cells, s.list = some l ∧ Holds l cells ∧ (cells.map Prod.snd).Nodup ∧
    (∀ name, Finds fuel l name ↔ name ∈ s.held) ∧ ∀ name, LeavesOthers fuel l name

variable {fuel : ℕ} {mem : Memory} {m : Mallocs} {l l' : Missed} {cells us ys : List (ℕ × Bytes)} {a b : ℕ}
  {n nb name : Bytes} {names : Option Bytes} {entry r : Option ℕ} {s : State} {ops : List Op}

/-- A pointer is never below 0: whatever is found, nothing is put in. -/
theorem namePush_eq (hfind : nameFind l.mem names fuel l.entry ≠ none) :
    namePush fuel m l names = some (l, l.entry) := by
  obtain ⟨found, hfound⟩ := Option.ne_none_iff_exists'.mp hfind
  have hpos : 0 ≤ address found := Nat.zero_le _
  simp only [namePush, hfound, Option.bind_eq_bind, Option.bind_some, if_pos hpos, Option.pure_def]

theorem apply_of_empty (hentry : l.entry = none) (op : Op) : op.apply fuel l = some l := by
  cases op with
  | push name m =>
    have hfind : nameFind l.mem name fuel l.entry = some none := by
      rw [hentry]
      cases fuel <;> rfl
    rw [Op.apply, namePush_eq (by rw [hfind]; exact nofun)]
    rfl
  | remove name =>
    rw [Op.apply, nameRemove, if_pos (.inl hentry)]
    rfl

def Empty (s : State) : Prop := ∃ mem, s.list = some ⟨mem, none⟩

theorem Empty.step (h : Empty s) (op : Op) : Empty (step fuel s op) := by
  obtain ⟨mem, hlist⟩ := h
  refine ⟨mem, ?_⟩
  rw [MissedNames.step, hlist]
  exact apply_of_empty rfl op

theorem Empty.not_finds (h : Empty s) (hlist : s.list = some l) : ¬ Finds fuel l name := by
  obtain ⟨mem, hempty⟩ := h
  obtain rfl := Option.some.inj (hlist.symm.trans hempty)
  rintro ⟨a, ha⟩
  cases fuel <;> cases ha

theorem Empty.isSet (h : Empty s) (hheld : s.held = ∅) : IsSet fuel s := by
  obtain ⟨mem, hlist⟩ := id h
  have hfinds : ∀ name, ¬ Finds fuel ⟨mem, none⟩ name := fun name => h.not_finds hlist
  have hholds : Holds ⟨mem, none⟩ [] := ⟨rfl, nofun, trivial, List.nodup_nil⟩
  refine ⟨⟨mem, none⟩, [], hlist, hholds, List.nodup_nil, fun name => ?_, fun name => ?_⟩
  · rw [hheld]
    exact iff_of_false (hfinds name) (Finset.notMem_empty name)
  · exact ⟨_, _, if_pos (.inl rfl), fun other _ hother => absurd hother (hfinds other)⟩

theorem not_isSet_push (h : Empty s) (name : Bytes) (m : Mallocs) :
    ¬ IsSet fuel (step fuel s (.push (some name) m)) := by
  rintro ⟨l, cells, hlist, -, -, hfinds, -⟩
  have hheld : name ∈ (step fuel s (.push (some name) m)).held := by simp [step, Op.held]
  exact (h.step _).not_finds hlist ((hfinds name).mpr hheld)

/-- The list is the set throughout exactly those runs in which no name is pushed. -/
theorem throughout_isSet_iff (fuel : ℕ) (mem : Memory) (ops : List Op) :
    Throughout (step fuel) (IsSet fuel) (initial mem) ops ↔ ∀ name m, Op.push (some name) m ∉ ops := by
  constructor
  · intro h name m hmem
    have hempty : Empty (initial mem) := ⟨mem, rfl⟩
    generalize initial mem = s at h hempty
    induction ops generalizing s with
    | nil => exact List.not_mem_nil hmem
    | cons op ops ih =>
      rcases List.mem_cons.mp hmem with rfl | hmem
      · exact not_isSet_push hempty name m h.2.first
      · exact ih hmem _ h.2 (hempty.step op)
  · intro hnone
    have hguarded : Guarded (step fuel) (fun _ op => ∀ name m, op ≠ Op.push (some name) m) (initial mem) ops :=
      Guarded.of_forall (fun _ op hop name m (heq : op = Op.push (some name) m) => hnone name m (heq ▸ hop)) _
    have hkeeps : ∀ s op, (Empty s ∧ s.held = ∅) → (∀ name m, op ≠ Op.push (some name) m) →
        Empty (step fuel s op) ∧ (step fuel s op).held = ∅ := by
      rintro s op ⟨hempty, hheld⟩ hop
      refine ⟨hempty.step op, ?_⟩
      match op with
      | .push none m => simp [step, Op.held, hheld]
      | .push (some name) m => exact absurd rfl (hop name m)
      | .remove name => simp [step, Op.held, hheld]
    exact (hguarded.throughout hkeeps ⟨⟨mem, rfl⟩, rfl⟩).imp fun s hs => hs.1.isSet hs.2

/-- One name is pushed, and it is not there. -/
theorem not_isSet_pushed :
    ¬ Throughout (step 1) (IsSet 1) (initial fun _ => none) [.push (some [97]) ⟨some 8, true⟩] := by
  intro h
  exact not_isSet_push ⟨_, rfl⟩ [97] ⟨some 8, true⟩ h.2

theorem Holds.cons (h : Holds l ((a, n) :: cells)) :
    l.entry = some a ∧ ∃ next, l.mem a = some ⟨some n, next⟩ ∧ Holds ⟨l.mem, next⟩ cells := by
  obtain ⟨next, hnext⟩ := h.cell (a, n) List.mem_cons_self
  obtain ⟨hlink, hlinked⟩ := h.linked
  refine ⟨h.entry, next, hnext, ?_, fun c hc => h.cell c (List.mem_cons_of_mem _ hc), hlinked,
    (List.nodup_cons.mp h.nodup).2⟩
  rw [link, hnext] at hlink
  exact hlink

theorem nameFind_eq (h : Holds l cells) (hfuel : cells.length ≤ fuel) :
    nameFind l.mem (some name) fuel l.entry = some ((cells.find? fun c => c.2 = name).map Prod.fst) := by
  induction cells generalizing l fuel with
  | nil =>
    rw [h.entry]
    cases fuel <;> rfl
  | cons c cells ih =>
    obtain ⟨a, n⟩ := c
    obtain ⟨hentry, next, hnext, hrest⟩ := h.cons
    obtain ⟨fuel, rfl⟩ := Nat.exists_eq_add_of_le' (Nat.le_of_add_left_le hfuel)
    rw [hentry, nameFind, hnext]
    by_cases hn : n = name
    · simp [strcmpEq, hn]
    · have hrest := ih hrest (Nat.le_of_succ_le_succ hfuel)
      simp [strcmpEq, hn, Ne.symm hn, hrest]

theorem finds_iff_mem (h : Holds l cells) (hfuel : cells.length ≤ fuel) :
    Finds fuel l name ↔ name ∈ cells.map Prod.snd := by
  rw [Finds, nameFind_eq h hfuel]
  constructor
  · rintro ⟨a, ha⟩
    obtain ⟨c, hc, -⟩ := Option.map_eq_some_iff.mp (Option.some.inj ha)
    exact List.mem_map.mpr ⟨c, List.mem_of_find?_eq_some hc, by simpa using List.find?_some hc⟩
  · intro hmem
    obtain ⟨c, hc, hname⟩ := List.mem_map.mp hmem
    have hsome : (cells.find? fun c => c.2 = name).isSome := by
      rw [List.find?_isSome]
      exact ⟨c, hc, decide_eq_true hname⟩
    obtain ⟨d, hd⟩ := Option.isSome_iff_exists.mp hsome
    exact ⟨d.1, by rw [hd]; rfl⟩

theorem removeLoop_absent (h : Holds l cells) (hfuel : cells.length ≤ fuel) (habsent : ∀ c ∈ cells, c.2 ≠ name)
    (entry b : Option ℕ) : removeLoop l.mem (some name) entry fuel b l.entry = some (⟨l.mem, entry⟩, none) := by
  induction cells generalizing l fuel b with
  | nil =>
    rw [h.entry]
    cases fuel <;> rfl
  | cons c cells ih =>
    obtain ⟨a, n⟩ := c
    obtain ⟨hentry, next, hnext, hrest⟩ := h.cons
    obtain ⟨fuel, rfl⟩ := Nat.exists_eq_add_of_le' (Nat.le_of_add_left_le hfuel)
    rw [List.forall_mem_cons] at habsent
    have hloop := ih hrest (Nat.le_of_succ_le_succ hfuel) habsent.2 (some a)
    have hn : ¬ name = n := Ne.symm habsent.1
    rw [hentry]
    simp [removeLoop, hnext, strcmpEq, hn, hloop]

/-- The entry before the one of the name gets its link. -/
theorem removeLoop_found (h : Holds l (us ++ (b, nb) :: (a, name) :: ys))
    (hfuel : (us ++ (b, nb) :: (a, name) :: ys).length ≤ fuel) (hus : ∀ c ∈ us, c.2 ≠ name) (hnb : nb ≠ name)
    (entry p : Option ℕ) : removeLoop l.mem (some name) entry fuel p l.entry =
      some (⟨Function.update l.mem b (some ⟨some nb, link l.mem a⟩), entry⟩, some a) := by
  induction us generalizing l fuel p with
  | nil =>
    obtain ⟨hentry, next, hnext, hrest⟩ := h.cons
    obtain ⟨hentry', next', hnext', -⟩ := hrest.cons
    obtain ⟨fuel, rfl⟩ : ∃ f, fuel = f + 2 := ⟨fuel - 2, by simp at hfuel; omega⟩
    have hba : b ≠ a := by
      have hnodup := h.nodup
      simp at hnodup
      exact hnodup.1.1
    change next = some a at hentry'
    change l.mem a = _ at hnext'
    rw [hentry]
    simp [removeLoop, hnext, strcmpEq, Ne.symm hnb, hentry', hnext', hba, setNext, link]
  | cons c us ih =>
    obtain ⟨c, nc⟩ := c
    obtain ⟨hentry, next, hnext, hrest⟩ := h.cons
    obtain ⟨fuel, rfl⟩ := Nat.exists_eq_add_of_le' (Nat.le_of_add_left_le hfuel)
    rw [List.forall_mem_cons] at hus
    have hloop := ih hrest (Nat.le_of_succ_le_succ hfuel) hus.2 (some c)
    have hn : ¬ name = nc := Ne.symm hus.1
    rw [hentry]
    simp [removeLoop, hnext, strcmpEq, hn, hloop]

theorem nameRemove_absent (h : Holds l cells) (hfuel : cells.length ≤ fuel) (habsent : ∀ c ∈ cells, c.2 ≠ name) :
    nameRemove fuel l (some name) = some (l, l.entry) := by
  by_cases hentry : l.entry = none
  · rw [nameRemove, if_pos (.inl hentry), hentry]
  · have hloop := removeLoop_absent h hfuel habsent l.entry l.entry
    rw [nameRemove, if_neg (by simp [hentry]), hloop]
    rfl

theorem nameRemove_first (h : Holds l ((a, name) :: cells)) (hfuel : 1 ≤ fuel) :
    nameRemove fuel l (some name) = some (⟨Function.update l.mem a none, none⟩, none) := by
  obtain ⟨hentry, next, hnext, -⟩ := h.cons
  obtain ⟨fuel, rfl⟩ := Nat.exists_eq_add_of_le' hfuel
  simp [nameRemove, hentry, removeLoop, hnext, strcmpEq, nameFree]

theorem link_update (mem : Memory) (b : ℕ) (nb : Option Bytes) (next : Option ℕ) :
    link (Function.update mem b (some ⟨nb, next⟩)) = Function.update (link mem) b next := by
  funext c
  by_cases hc : c = b
  · subst hc
    simp [link]
  · simp [link, Function.update_of_ne hc]

theorem perm_middle_two {α : Type} (x y : α) (us ys : List α) : (us ++ x :: y :: ys).Perm (y :: x :: (us ++ ys)) :=
  (List.perm_middle.trans (List.perm_middle.cons x)).trans (List.Perm.swap y x _)

theorem Holds.apart (h : Holds l (us ++ (b, nb) :: (a, name) :: ys)) :
    (∀ c ∈ us ++ (b, nb) :: ys, c.1 ≠ a) ∧ (∀ c ∈ us ++ ys, c.1 ≠ b) ∧
      ((us ++ (b, nb) :: ys).map Prod.fst).Nodup := by
  have hperm := (perm_middle_two (b, nb) (a, name) us ys).map Prod.fst
  have hrest : (us ++ (b, nb) :: ys).Perm ((b, nb) :: (us ++ ys)) := List.perm_middle
  obtain ⟨ha, hothers⟩ := List.nodup_cons.mp (hperm.nodup_iff.mp h.nodup)
  refine ⟨?_, ?_, (hrest.map Prod.fst).nodup_iff.mpr hothers⟩
  · exact fun c hc hca => ha (List.mem_map.mpr ⟨c, hrest.mem_iff.mp hc, hca⟩)
  · exact fun c hc hcb => (List.nodup_cons.mp hothers).1 (List.mem_map.mpr ⟨c, hc, hcb⟩)

/-- An entry behind another one is taken out, and freed. -/
theorem Holds.unlink (h : Holds l (us ++ (b, nb) :: (a, name) :: ys)) :
    Holds ⟨Function.update (Function.update l.mem b (some ⟨some nb, link l.mem a⟩)) a none, l.entry⟩
      (us ++ (b, nb) :: ys) := by
  obtain ⟨ha, hb, hnodup⟩ := h.apart
  refine ⟨?_, fun c hc => ?_, ?_, hnodup⟩
  · rw [h.entry]
    cases us <;> rfl
  · dsimp only
    rw [Function.update_of_ne (ha c hc)]
    rcases List.mem_cons.mp (List.perm_middle.mem_iff.mp hc) with rfl | hmem
    · exact ⟨link l.mem a, Function.update_self ..⟩
    · rw [Function.update_of_ne (hb c hmem)]
      have hthere := List.mem_cons_of_mem (a, name) (List.mem_cons_of_mem (b, nb) hmem)
      exact h.cell c ((perm_middle_two (b, nb) (a, name) us ys).mem_iff.mpr hthere)
  · have hlinked := h.linked
    have hall := h.nodup
    simp only [List.map_append, List.map_cons] at hlinked hall ⊢
    refine (hlinked.unlink hall).frame fun c hc => ?_
    obtain ⟨d, hd, rfl⟩ : ∃ d ∈ us ++ (b, nb) :: ys, d.1 = c := List.mem_map.mp (by simpa using hc)
    rw [← link_update l.mem b (some nb)]
    simp only [link, Function.update_of_ne (ha d hd)]

theorem nameRemove_later (h : Holds l (us ++ (b, nb) :: (a, name) :: ys))
    (hfuel : (us ++ (b, nb) :: (a, name) :: ys).length ≤ fuel) (hus : ∀ c ∈ us, c.2 ≠ name) (hnb : nb ≠ name) :
    ∃ l', nameRemove fuel l (some name) = some (l', l'.entry) ∧ Holds l' (us ++ (b, nb) :: ys) := by
  have hloop := removeLoop_found h hfuel hus hnb l.entry l.entry
  have hentry : l.entry ≠ none := by
    rw [h.entry]
    cases us <;> exact nofun
  refine ⟨_, ?_, h.unlink⟩
  rw [nameRemove, if_neg (by simp [hentry]), hloop]
  rfl

/-- What `name_remove` leaves of a list: nothing behind its first name. -/
def left (name : Bytes) : List (ℕ × Bytes) → List (ℕ × Bytes)
  | [] => []
  | c :: cells => if c.2 = name then [] else c :: cells.eraseP fun c => c.2 = name

theorem nameRemove_holds (h : Holds l cells) (hfuel : cells.length ≤ fuel) (name : Bytes) :
    ∃ l', nameRemove fuel l (some name) = some (l', l'.entry) ∧ Holds l' (left name cells) := by
  cases cells with
  | nil => exact ⟨l, nameRemove_absent h hfuel nofun, h⟩
  | cons c cells =>
    obtain ⟨a, n⟩ := c
    by_cases hn : n = name
    · subst hn
      rw [left, if_pos rfl]
      exact ⟨_, nameRemove_first h (Nat.le_of_add_left_le hfuel), rfl, nofun, trivial, List.nodup_nil⟩
    · rw [left, if_neg hn]
      by_cases habsent : ∀ c ∈ cells, c.2 ≠ name
      · have herase : (cells.eraseP fun c => c.2 = name) = cells :=
          List.eraseP_of_forall_not fun c hc hname => habsent c hc (by simpa using hname)
        rw [herase]
        exact ⟨l, nameRemove_absent h hfuel (List.forall_mem_cons.mpr ⟨hn, habsent⟩), h⟩
      · push Not at habsent
        obtain ⟨c, hc, hname⟩ := habsent
        obtain ⟨⟨d, nd⟩, us, ys, hus, hnd, rfl, herase⟩ :=
          List.exists_of_eraseP (p := fun c => c.2 = name) hc (decide_eq_true hname)
        obtain rfl : nd = name := by simpa using hnd
        obtain ⟨vs, ⟨b, nb⟩, hvs⟩ : ∃ vs v, (a, n) :: us = vs ++ [v] :=
          ⟨_, _, (List.dropLast_append_getLast (List.cons_ne_nil _ _)).symm⟩
        have hbefore : ∀ c ∈ vs ++ [(b, nb)], c.2 ≠ nd := by
          rw [← hvs, List.forall_mem_cons]
          exact ⟨hn, fun c hc => by simpa using hus c hc⟩
        have hcells : (a, n) :: (us ++ (d, nd) :: ys) = vs ++ (b, nb) :: (d, nd) :: ys := by
          rw [← List.cons_append, hvs, List.append_assoc, List.singleton_append]
        have hleft : (a, n) :: (us ++ ys) = vs ++ (b, nb) :: ys := by
          rw [← List.cons_append, hvs, List.append_assoc, List.singleton_append]
        rw [herase, hleft]
        rw [hcells] at h hfuel
        exact nameRemove_later h hfuel (fun c hc => hbefore c (List.mem_append_left _ hc)) (hbefore (b, nb) (by simp))

theorem length_left_le (name : Bytes) (cells : List (ℕ × Bytes)) : (left name cells).length ≤ cells.length := by
  cases cells with
  | nil => exact le_rfl
  | cons c cells =>
    rw [left]
    split
    · exact Nat.zero_le _
    · exact Nat.succ_le_succ List.eraseP_sublist.length_le

theorem mem_left {c : ℕ × Bytes} (hhead : (cells.map Prod.snd).head? ≠ some name) (hc : c ∈ cells)
    (hne : c.2 ≠ name) : c ∈ left name cells := by
  obtain _ | ⟨d, cells⟩ := cells
  · exact hc
  · rw [left, if_neg fun hd => hhead (congrArg some hd)]
    rcases List.mem_cons.mp hc with rfl | hc
    · exact List.mem_cons_self
    · exact List.mem_cons_of_mem _ ((List.mem_eraseP_of_neg (by simpa using hne)).mpr hc)

theorem leavesOthers_iff (h : Holds l cells) (hnames : (cells.map Prod.snd).Nodup) (hfuel : cells.length ≤ fuel) :
    LeavesOthers fuel l name ↔ (cells.map Prod.snd).head? ≠ some name ∨ cells.length ≤ 1 := by
  obtain ⟨l', hremove, hholds⟩ := nameRemove_holds h hfuel name
  have hfinds : ∀ other, Finds fuel l' other ↔ other ∈ (left name cells).map Prod.snd :=
    fun _ => finds_iff_mem hholds ((length_left_le name cells).trans hfuel)
  constructor
  · rintro ⟨l'', r, hremove', hothers⟩
    obtain ⟨rfl, -⟩ := Prod.mk.inj (Option.some.inj (hremove.symm.trans hremove'))
    by_contra! hlost
    obtain _ | ⟨⟨a, n⟩, _ | ⟨⟨b, nb⟩, cells⟩⟩ := cells
    · exact absurd hlost.2 (Nat.not_lt_zero 1)
    · exact absurd hlost.2 (Nat.lt_irrefl 1)
    · obtain rfl : n = name := by simpa using hlost.1
      have hne : nb ≠ n := by
        rintro rfl
        exact (List.nodup_cons.mp hnames).1 List.mem_cons_self
      have hfound := hothers nb hne ((finds_iff_mem h hfuel).mpr (by simp))
      rw [hfinds, left, if_pos rfl] at hfound
      exact List.not_mem_nil hfound
  · intro hleft
    refine ⟨l', l'.entry, hremove, fun other hne hother => ?_⟩
    rw [finds_iff_mem h hfuel] at hother
    rw [hfinds]
    obtain ⟨c, hc, rfl⟩ := List.mem_map.mp hother
    refine List.mem_map_of_mem (mem_left ?_ hc hne)
    rcases hleft with hhead | hone
    · exact hhead
    · obtain _ | ⟨d, _ | ⟨e, cells⟩⟩ := cells
      · exact nofun
      · obtain rfl := List.mem_singleton.mp hc
        exact fun h => hne (Option.some.inj h)
      · simp at hone

end Cmoon.MissedNames
