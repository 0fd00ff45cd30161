import Cmoon.CacheLifetimes
import Cmoon.LapsingCaches

/-! # The cache as a store that forgets

Whatever the cache evicts, lets expire or has no memory for, what it answers is what was last stored under the
very key that is asked for. -/
namespace Cmoon.CacheStores
open DecimalText OneAtATimeHash DoublyLinkedLists CacheOperations CacheRefinement CacheInvariant CacheLifetimes
  LapsingCaches

/-- What a call makes of the store, by what it has answered. -/
def written (c : Store Bytes Bytes) : Op → Answer → Store Bytes Bytes
  | .set key val _ _, .status rv => if rv = 1 then put c key val else c
  | .del key, _ => drop c key
  | .cas key _ newval _, .status rv => if rv = 1 then put c key newval else c
  | .incr key _ _ _, .count _ (some n) => put c key (printCounter ((c key).getD []) n)
  | _, _ => c

/-- What a call may answer beside a store. A miss is always allowed. -/
def Allows (c : Store Bytes Bytes) : Op → Answer → Prop
  | .get key, .value (some v) => c key = some v
  | .cas key oldval _ _, .status rv => (rv = 1 → c key = some oldval) ∧ (rv = 0 → ∃ v, c key = some v ∧ v ≠ oldval)
  | .incr key increment _ o, .count _ (some n) =>
    ∃ v, c key = some v ∧ lastByte v o = 0 ∧ n = wrap 64 (strtol (numberText v o) + increment)
  | _, _ => True

theorem written_of_ne {c : Store Bytes Bytes} {op : Op} {key : Bytes} (hk : op.key ≠ key) (ans : Answer) :
    written c op ans key = c key := by
  have hput : ∀ val, put c op.key val key = c key := fun val => Function.update_of_ne (Ne.symm hk) _ _
  have hif : ∀ (rv : ℤ) val, (if rv = 1 then put c op.key val else c) key = c key := by
    intro rv val
    split
    · exact hput val
    · rfl
  cases op with
  | set key' val timeout m =>
    cases ans with
    | status rv => exact hif rv val
    | value val => rfl
    | count rv newval => rfl
  | get key' => rfl
  | del key' => exact Function.update_of_ne (Ne.symm hk) _ _
  | cas key' oldval newval alloc =>
    cases ans with
    | status rv => exact hif rv newval
    | value val => rfl
    | count rv newval => rfl
  | incr key' increment alloc o =>
    cases ans with
    | status rv => rfl
    | value val => rfl
    | count rv newval =>
      cases newval with
      | none => rfl
      | some n => exact hput _

section Bucket
variable {c : Store Bytes Bytes} {key : Bytes} {l : List Entry}

theorem lookup_revalue_self (key val : Bytes) (l : List Entry) :
    lookup key (revalue key val l) = (lookup key l).map fun e => { e with val := val } := by
  induction l with
  | nil => rfl
  | cons e l ih =>
    by_cases he : e.key = key
    · have hkey : hasKey key e = true := by simp [hasKey, he]
      rw [lookup_cons_self he, revalue, List.map_cons, if_pos hkey]
      exact lookup_cons_self he
    · have hkey : ¬ hasKey key e = true := by simp [hasKey, he]
      rw [lookup_cons_of_ne he, revalue, List.map_cons, if_neg hkey, lookup_cons_of_ne he]
      exact ih

def Backs (c : Store Bytes Bytes) (key : Bytes) (l : List Entry) : Prop :=
  ∀ e, lookup key l = some e → c key = some e.val

theorem setIn_allows (hc : Backs c key l) (chainlen : ℕ) (now timeout : ℤ) (val : Bytes) (m : SetMallocs) :
    Backs (written c (.set key val timeout m) (.status (setIn chainlen now key val timeout m l).2)) key
      (setIn chainlen now key val timeout m l).1 := by
  intro e he
  by_cases hs : (setIn chainlen now key val timeout m l).2 = 1
  · rw [lookup_setIn hs, Option.some.injEq] at he
    simp only [written, if_pos hs]
    exact (Function.update_self _ _ _).trans (congrArg some (congrArg Entry.val he))
  · have hsame : (setIn chainlen now key val timeout m l).1 = l := by
      unfold setIn at hs ⊢
      cases hl : lookup key l with
      | none =>
        cases hm : m.entry.isSome && m.key && m.val
        · rfl
        · simp [hl, hm] at hs
      | some e =>
        cases hm : m.val
        · rfl
        · simp [hl, hm] at hs
    rw [hsame] at he
    simp only [written, if_neg hs]
    exact hc e he

theorem getIn_allows (hn : (l.map Entry.key).Nodup) (hc : Backs c key l) (now : ℤ) :
    Allows c (.get key) (.value (getIn now key l).2) ∧ Backs c key (getIn now key l).1 := by
  have halive : ∀ e, alive now (lookup key l) = some e → lookup key l = some e := fun e he =>
    (Option.filter_eq_some_iff.mp he).1
  rw [getIn_snd, Backs, lookup_getIn hn]
  refine ⟨?_, fun e he => hc e (halive e he)⟩
  cases he : alive now (lookup key l) with
  | none => trivial
  | some e => exact hc e (halive e he)

theorem delIn_allows (hn : (l.map Entry.key).Nodup) (ans : Answer) :
    Backs (written c (.del key) ans) key (delIn key l).1 := by
  intro e he
  unfold delIn at he
  cases hl : lookup key l with
  | none =>
    rw [hl] at he
    cases hl.symm.trans he
  | some d =>
    rw [hl] at he
    cases (lookup_remove_self hn).symm.trans he

theorem casIn_allows (hc : Backs c key l) (oldval newval : Bytes) (alloc : Bool) :
    Allows c (.cas key oldval newval alloc) (.status (casIn key oldval newval alloc l).2) ∧
      Backs (written c (.cas key oldval newval alloc) (.status (casIn key oldval newval alloc l).2)) key
        (casIn key oldval newval alloc l).1 := by
  unfold casIn
  cases hl : lookup key l with
  | none => simpa [Allows, written] using hc
  | some e =>
    have hval := hc e hl
    by_cases hold : e.val = oldval
    · cases alloc with
      | false => simpa [hold, Allows, written] using hc
      | true =>
        have hone : (1 : ℤ) ≠ 0 := one_ne_zero
        simp only [hold, ne_eq, not_true_eq_false, if_false, if_true, Allows, written]
        refine ⟨⟨fun _ => hold ▸ hval, fun h => absurd h hone⟩, fun d hd => ?_⟩
        rw [lookup_revalue_self, hl, Option.map_some, Option.some.injEq] at hd
        exact (Function.update_self _ _ _).trans (congrArg some (congrArg Entry.val hd))
    · simp only [ne_eq, hold, not_false_eq_true, if_true, Allows, written]
      exact ⟨⟨fun h => absurd h zero_ne_one, fun _ => ⟨e.val, hval, hold⟩⟩, hc⟩

theorem incrIn_allows (hc : Backs c key l) (increment : ℤ) (alloc : Bool) (o : Outside) :
    Allows c (.incr key increment alloc o)
        (.count (incrIn key increment alloc o l).2.1 (incrIn key increment alloc o l).2.2) ∧
      Backs (written c (.incr key increment alloc o)
          (.count (incrIn key increment alloc o l).2.1 (incrIn key increment alloc o l).2.2)) key
        (incrIn key increment alloc o l).1 := by
  unfold incrIn
  cases hl : lookup key l with
  | none => exact ⟨trivial, hc⟩
  | some e =>
    have hval := hc e hl
    dsimp only
    split
    · exact ⟨trivial, hc⟩
    · next hz =>
      split
      · exact ⟨trivial, hc⟩
      · refine ⟨⟨e.val, hval, not_not.mp hz, rfl⟩, fun d hd => ?_⟩
        rw [lookup_revalue_self, hl, Option.map_some, Option.some.injEq] at hd
        simp only [written, hval, Option.getD_some]
        exact (Function.update_self _ _ _).trans (congrArg some (congrArg Entry.val hd))

/-- A call on the bucket of its key answers by the store, and leaves there what the store has then. -/
theorem callIn_allows {op : Op} (hn : (l.map Entry.key).Nodup) (hc : Backs c op.key l) (chainlen : ℕ) (now : ℤ) :
    Allows c op (callIn chainlen now op l).2 ∧
      Backs (written c op (callIn chainlen now op l).2) op.key (callIn chainlen now op l).1 := by
  cases op with
  | set key val timeout m => exact ⟨trivial, setIn_allows hc chainlen now timeout val m⟩
  | get key => exact getIn_allows hn hc now
  | del key => exact ⟨trivial, delIn_allows hn _⟩
  | cas key oldval newval alloc => exact casIn_allows hc oldval newval alloc
  | incr key increment alloc o => exact incrIn_allows hc increment alloc o

end Bucket

section Entries
variable {cd cd' : Cache} {reps reps' : ℕ → Cells} {now : ℤ} {op : Op}

theorem entryOf_call_self (hr' : Rep cd' reps')
    (hcont : contents reps' = (callOn cd.hashlen cd.chainlen now op (contents reps)).1) (hhash : cd'.hashlen = cd.hashlen) :
    entryOf cd' op.key =
      lookup op.key (callIn cd.chainlen now op (contents reps (bucket cd.hashlen op.key))).1 := by
  rw [entryOf_eq hr', hcont, hhash, callOn_self]

theorem entryOf_call_of_ne (hr : Rep cd reps) (hr' : Rep cd' reps')
    (hcont : contents reps' = (callOn cd.hashlen cd.chainlen now op (contents reps)).1) (hhash : cd'.hashlen = cd.hashlen)
    {key : Bytes} (hk : op.key ≠ key) : entryOf cd' key = entryOf cd key ∨ entryOf cd' key = none := by
  rw [entryOf_eq hr', entryOf_eq hr, hcont, hhash]
  by_cases hb : bucket cd.hashlen key = bucket cd.hashlen op.key
  · rw [hb, callOn_self]
    exact lookup_callIn_of_ne cd.chainlen now hk _
  · rw [callOn_of_ne _ _ _ _ _ hb]
    exact .inl rfl

end Entries

def Within (cd : Cache) (c : Store Bytes Bytes) : Prop := ∀ key e, entryOf cd key = some e → c key = some e.val

theorem call_within {cd : Cache} {reps : ℕ → Cells} (hr : Rep cd reps) (hlen : 0 < cd.chainlen) {now : ℤ} {op : Op}
    (hf : op.Fresh cd) {c : Store Bytes Bytes} (hc : Within cd c) :
    ∃ cd' ans reps', call cd now op = some (cd', ans) ∧ Rep cd' reps' ∧ 0 < cd'.chainlen ∧ Allows c op ans ∧
      Within cd' (written c op ans) := by
  obtain ⟨cd', reps', hcall, hr', hcont, hhash, hchain, -⟩ := call_refines hr hlen now hf
  have hn := (hr.placed _ (bucket_lt hr.pos op.key)).nodup
  have hbacks : Backs c op.key (contents reps (bucket cd.hashlen op.key)) := fun e he =>
    hc op.key e ((entryOf_eq hr op.key).trans he)
  obtain ⟨hallows, hafter⟩ := callIn_allows hn hbacks cd.chainlen now
  refine ⟨cd', _, reps', hcall, hr', hchain ▸ hlen, hallows, fun key e he => ?_⟩
  by_cases hk : op.key = key
  · subst hk
    exact hafter e ((entryOf_call_self hr' hcont hhash).symm.trans he)
  · rw [written_of_ne hk]
    rcases entryOf_call_of_ne hr hr' hcont hhash hk with hsame | hnone
    · exact hc key e (hsame.symm.trans he)
    · cases hnone.symm.trans he

/-- The calls are all made, and each answers by what the calls before it have stored. -/
def Remembers : Cache → Store Bytes Bytes → List (ℤ × Op) → Prop
  | _, _, [] => True
  | cd, c, (now, op) :: ops =>
    ∃ cd' ans, call cd now op = some (cd', ans) ∧ Allows c op ans ∧ Remembers cd' (written c op ans) ops

theorem remembers_of_within {cd : Cache} {reps : ℕ → Cells} (hr : Rep cd reps) (hlen : 0 < cd.chainlen)
    {c : Store Bytes Bytes} (hc : Within cd c) {ops : List (ℤ × Op)} (hf : FreshCalls cd ops) :
    Remembers cd c ops := by
  induction ops generalizing cd c reps with
  | nil => trivial
  | cons step ops ih =>
    obtain ⟨now, op⟩ := step
    obtain ⟨cd', ans, reps', hcall, hr', hlen', hallows, hwithin⟩ := @call_within _ _ hr hlen now _ hf.1 _ hc
    exact ⟨cd', ans, hcall, hallows, ih hr' hlen' hwithin (hf.2 cd' ans hcall)⟩

/-- In every run of calls on a new cache, whatever the keys, the clock and the memory, a hit is the value that was last
stored under its key and not deleted since; an exchange takes place only where that value is the old one, and a
counter goes on from it. -/
theorem calls_remember {numobjs : ℕ} (hn : 4 ≤ numobjs) {cdOk tableOk : Bool} {cd : Cache}
    (hcreate : cacheCreate numobjs cdOk tableOk = some (some cd)) {ops : List (ℤ × Op)} (hf : FreshCalls cd ops) :
    Remembers cd (fun _ => none) ops := by
  obtain ⟨hr, -, hlen⟩ := rep_initial hn hcreate
  refine remembers_of_within hr (by omega) (fun key e he => ?_) hf
  rw [entryOf_eq hr] at he
  cases he

/-- A value stored twice under one key, and read back. -/
theorem calls_remember_set_set_get :
    Remembers ⟨4, 1, 4, [⟨0, none, none⟩], fun _ => none⟩ (fun _ => none)
      [(5, .set [107] [1] 10 ⟨some 0, true, true⟩), (6, .set [107] [2] 0 ⟨none, true, true⟩), (9, .get [107])] := by
  apply @calls_remember 4 (le_refl 4) true true _ rfl
  exact ⟨fun a _ => rfl, fun _ _ _ => ⟨nofun, fun _ _ _ => ⟨trivial, fun _ _ _ => trivial⟩⟩⟩

end Cmoon.CacheStores
