import Cmoon.CacheOperations

/-! # The cache as a table of recency lists

Abstractly a cache is a list of buckets, each a list of entries with the one linked
in last in front. Every operation of the pointer model works on one bucket and is
proved to do there what the list operation does. -/
namespace Cmoon.CacheRefinement
open DecimalText OneAtATimeHash DoublyLinkedLists CacheOperations

def hasKey (key : Bytes) (e : Entry) : Bool := e.key = key

def lookup (key : Bytes) (l : List Entry) : Option Entry := l.find? (hasKey key)

def remove (key : Bytes) (l : List Entry) : List Entry := l.eraseP (hasKey key)

/-- The entry of `key` gets a new value where it stands. -/
def revalue (key val : Bytes) (l : List Entry) : List Entry :=
  l.map fun e => if hasKey key e then { e with val := val } else e

/-- What stays in a bucket when a new entry comes in front. -/
def kept (chainlen : ℕ) (l : List Entry) : List Entry :=
  if l.length ≤ chainlen then l else l.dropLast

def setIn (chainlen : ℕ) (now : ℤ) (key val : Bytes) (timeout : ℤ) (m : SetMallocs)
    (l : List Entry) : List Entry × ℤ :=
  match lookup key l with
  | none =>
    if m.entry.isSome && m.key && m.val then
      (⟨key, val, expiry now timeout⟩ :: kept chainlen l, 1)
    else (l, 0)
  | some e => if m.val then ({ e with val := val } :: remove key l, 1) else (l, 0)

def getIn (now : ℤ) (key : Bytes) (l : List Entry) : List Entry × Option Bytes :=
  match lookup key l with
  | none => (l, none)
  | some e => if expired now e then (remove key l, none) else (l, some e.val)

def delIn (key : Bytes) (l : List Entry) : List Entry × ℤ :=
  match lookup key l with
  | none => (l, 0)
  | some _ => (remove key l, 1)

def casIn (key oldval newval : Bytes) (alloc : Bool) (l : List Entry) : List Entry × ℤ :=
  match lookup key l with
  | none => (l, -1)
  | some e =>
    if e.val ≠ oldval then (l, 0)
    else if alloc then (revalue key newval l, 1) else (l, -2)

def incrIn (key : Bytes) (increment : ℤ) (alloc : Bool) (o : Outside) (l : List Entry) :
    List Entry × ℤ × Option ℤ :=
  match lookup key l with
  | none => (l, -1, none)
  | some e =>
    if lastByte e.val o ≠ 0 then (l, -2, none)
    else
      let n := wrap 64 (strtol (numberText e.val o) + increment)
      if e.val.length < 24 && !alloc then (l, -3, none)
      else (revalue key (printCounter e.val n) l, 1, some n)

def callIn (chainlen : ℕ) (now : ℤ) (op : Op) (l : List Entry) : List Entry × Answer :=
  match op with
  | .set key val timeout m => ((setIn chainlen now key val timeout m l).map id .status)
  | .get key => ((getIn now key l).map id .value)
  | .del key => ((delIn key l).map id .status)
  | .cas key old new alloc => ((casIn key old new alloc l).map id .status)
  | .incr key n alloc o => ((incrIn key n alloc o l).map id fun r => .count r.1 r.2)

abbrev Cells := List (Addr × Entry)

def entries (as : Cells) : List Entry := as.map Prod.snd

@[simp] theorem entries_nil : entries [] = [] := rfl
@[simp] theorem entries_cons (a : Addr) (e : Entry) (as : Cells) :
    entries ((a, e) :: as) = e :: entries as := rfl
@[simp] theorem entries_append (as bs : Cells) : entries (as ++ bs) = entries as ++ entries bs :=
  List.map_append
@[simp] theorem length_entries (as : Cells) : (entries as).length = as.length := List.length_map ..

private theorem findFrom_eq {h : Heap Addr Entry} {p : Option Addr} {as : Cells}
    (hs : Seg h p as none) (key : Bytes) :
    findFrom h key as.length (headAddr as) =
      some ((as.find? fun q => hasKey key q.2).map Prod.fst) := by
  induction as generalizing p with
  | nil => rfl
  | cons q as ih =>
    obtain ⟨a, e⟩ := q
    have hi := ih hs.2
    have hnext : (headAddr as).or none = headAddr as := by simp
    simp only [List.length_cons, headAddr_cons, findFrom, hs.1, hnext, List.find?_cons, hasKey]
    by_cases hk : e.key = key
    · simp [hk]
    · have hk' : ¬ key = e.key := fun he => hk he.symm
      by_cases hl : key.length = e.key.length <;> simp [hl, hk, hk', hi, hasKey]

/-- A chain of `c.len` cells between the end pointers of `c`. -/
structure ChainAt (h : Heap Addr Entry) (c : CacheChain) (as : Cells) : Prop where
  chain : IsChain h c.first c.last as
  len_eq : c.len = as.length

/-- The chain header of a list of cells. -/
def ends (as : Cells) : CacheChain := ⟨as.length, headAddr as, lastAddr as⟩

theorem ChainAt.eq_ends {h : Heap Addr Entry} {c : CacheChain} {as : Cells} (hc : ChainAt h c as) :
    c = ends as := by
  cases c
  simp [ends, ← hc.len_eq, ← hc.chain.first_eq, ← hc.chain.last_eq]

theorem chainAt_ends {h : Heap Addr Entry} {as : Cells} (hs : Seg h none as none)
    (hd : (as.map Prod.fst).Nodup) : ChainAt h (ends as) as :=
  ⟨⟨hs, rfl, rfl, hd⟩, rfl⟩

theorem ChainAt.find {h : Heap Addr Entry} {c : CacheChain} {as : Cells} (hc : ChainAt h c as)
    (key : Bytes) :
    findInChain h c key = some ((as.find? fun q => hasKey key q.2).map Prod.fst) := by
  rw [findInChain, hc.len_eq, hc.chain.first_eq]
  exact findFrom_eq hc.chain.seg key

/-- Where `find_in_chain` finds a key, and what the list operations do there. -/
theorem find_some {as : Cells} {key : Bytes} {a : Addr}
    (hf : (as.find? fun q => hasKey key q.2).map Prod.fst = some a) :
    ∃ xs e ys, as = xs ++ (a, e) :: ys ∧ e.key = key ∧ lookup key (entries as) = some e ∧
      remove key (entries as) = entries (xs ++ ys) ∧ ∀ q ∈ xs, hasKey key q.2 = false := by
  obtain ⟨⟨b, e⟩, hq, rfl⟩ := Option.map_eq_some_iff.mp hf
  obtain ⟨hk, xs, ys, rfl, hxs⟩ := List.find?_eq_some_iff_append.mp hq
  have hxs : ∀ q ∈ xs, hasKey key q.2 = false := fun q hm => by simpa using hxs q hm
  have hxs' : ∀ d ∈ entries xs, ¬ hasKey key d = true := by
    intro d hd
    obtain ⟨q, hm, rfl⟩ := List.mem_map.mp hd
    simp [hxs q hm]
  refine ⟨xs, e, ys, rfl, by simpa [hasKey] using hk, ?_, ?_, hxs⟩
  · simp only [lookup, entries_append, entries_cons]
    rw [List.find?_append, List.find?_eq_none.mpr hxs']
    simp [hk]
  · simp only [remove, entries_append, entries_cons]
    rw [List.eraseP_append_right _ hxs', List.eraseP_cons_of_pos hk]

theorem find_none {as : Cells} {key : Bytes}
    (hf : (as.find? fun q => hasKey key q.2).map Prod.fst = none) :
    lookup key (entries as) = none ∧ ∀ e ∈ entries as, e.key ≠ key := by
  have hall := List.find?_eq_none.mp (Option.map_eq_none_iff.mp hf)
  have hne : ∀ e ∈ entries as, e.key ≠ key := by
    intro e he
    obtain ⟨q, hm, rfl⟩ := List.mem_map.mp he
    simpa [hasKey] using hall q hm
  exact ⟨List.find?_eq_none.mpr fun e he => by simp [hasKey, hne e he], hne⟩

/-- A chain after an operation, and the cells the operation left alone. -/
structure Becomes (h : Heap Addr Entry) (as : Cells) (r : Heap Addr Entry × CacheChain)
    (bs : Cells) : Prop where
  chain : ChainAt r.1 r.2 bs
  frame : ∀ b, b ∉ as.map Prod.fst → b ∉ bs.map Prod.fst → r.1 b = h b

/-- Two operations one after the other, the cells between them being those of one end. -/
theorem Becomes.trans {h : Heap Addr Entry} {as bs cs : Cells} {r r' : Heap Addr Entry × CacheChain}
    (hfirst : Becomes h as r bs) (hthen : Becomes r.1 bs r' cs)
    (hcells : ∀ b, b ∉ as.map Prod.fst → b ∉ cs.map Prod.fst → b ∉ bs.map Prod.fst) : Becomes h as r' cs where
  chain := hthen.chain
  frame b hb hb' := by
    have hbetween := hcells b hb hb'
    exact (hthen.frame b hbetween hb').trans (hfirst.frame b hb hbetween)

private theorem ends_cons (new : Addr) (e : Entry) {as : Cells} (hz : as ≠ []) :
    ends ((new, e) :: as) = { ends as with first := some new, len := as.length + 1 } := by
  have hl : (lastAddr as).isSome := by simpa [Option.isSome_iff_ne_none, lastAddr_eq_none] using hz
  simp [ends, lastAddr_cons, Option.or_of_isSome hl]

section PutIn
variable {g : Heap Addr Entry} {new : Addr} {e : Entry} {chainlen : ℕ}

/-- A new cell in front of a line with slots left. -/
private theorem putIn_room {as : Cells} (hseg : Seg g none as none) (hd : (as.map Prod.fst).Nodup) (hz : as ≠ [])
    (hg : g new = some ⟨e, none, none⟩) (hnew : new ∉ as.map Prod.fst) (hle : as.length ≤ chainlen) :
    ∃ h, putIn chainlen g (ends as) new = some (h, ends ((new, e) :: as)) ∧
      ChainAt h (ends ((new, e) :: as)) ((new, e) :: as) ∧ ∀ b, b ≠ new → b ∉ as.map Prod.fst → h b = g b := by
  obtain ⟨h₁, h₂, hs₁, hs₂, hchain, hframe⟩ := hseg.linkFirst hd hz hg hnew
  have hpos : (ends as).len ≠ 0 := fun h0 => hz (List.length_eq_zero_iff.mp h0)
  have hlen : (ends as).len ≤ chainlen := hle
  refine ⟨h₂, ?_, chainAt_ends hchain (List.nodup_cons.mpr ⟨hnew, hd⟩), hframe⟩
  rw [ends_cons new e hz, putIn, if_neg hpos, if_pos hlen]
  change (setNext g (some new) (headAddr as)).bind _ = _
  rw [hs₁, Option.bind_some]
  change (setPrev h₁ (headAddr as) (some new)).bind _ = _
  rw [hs₂]
  rfl

/-- A new cell in front of a full line: the last cell goes, and the one before it is the new last. -/
private theorem putIn_full {bs : Cells} (hbs : bs ≠ []) {l : Addr} {w : Entry} (hseg : Seg g none (bs ++ [(l, w)]) none)
    (hd : ((bs ++ [(l, w)]).map Prod.fst).Nodup) (hg : g new = some ⟨e, none, none⟩)
    (hnew : new ∉ (bs ++ [(l, w)]).map Prod.fst) (hfull : ¬(bs ++ [(l, w)]).length ≤ chainlen) :
    ∃ h, putIn chainlen g (ends (bs ++ [(l, w)])) new = some (h, ends ((new, e) :: bs)) ∧
      ChainAt h (ends ((new, e) :: bs)) ((new, e) :: bs) ∧
        ∀ b, b ≠ new → b ∉ (bs ++ [(l, w)]).map Prod.fst → h b = g b := by
  obtain ⟨h₁, h₂, hprev, hcut, hfree, hrest, hframe⟩ := hseg.evictLast hd hbs
  have hg₂ : h₂ new = some ⟨e, none, none⟩ := (hframe new hnew).trans hg
  simp only [List.map_append, List.map_cons, List.map_nil, List.nodup_append] at hd
  have hsub : ∀ b, b ∉ (bs ++ [(l, w)]).map Prod.fst → b ∉ bs.map Prod.fst := fun b hb hm =>
    hb (by rw [List.map_append]; exact List.mem_append_left _ hm)
  obtain ⟨h₃, h₄, hs₁, hs₂, hchain, hframe'⟩ := hrest.linkFirst hd.1 hbs hg₂ (hsub new hnew)
  have hhead : headAddr (bs ++ [(l, w)]) = headAddr bs := by
    rw [headAddr_append, Option.or_of_isSome]
    simpa [Option.isSome_iff_ne_none, headAddr_eq_none] using hbs
  have hpos : (ends (bs ++ [(l, w)])).len ≠ 0 := by simp [ends]
  have hlen : ¬(ends (bs ++ [(l, w)])).len ≤ chainlen := hfull
  refine ⟨h₄, ?_, chainAt_ends hchain (List.nodup_cons.mpr ⟨hsub new hnew, hd.1⟩),
    fun b hb hb' => (hframe' b hb (hsub b hb')).trans (hframe b hb')⟩
  rw [ends_cons new e hbs, putIn, if_neg hpos, if_neg hlen]
  simp only [ends, lastAddr_concat, hhead, List.length_append]
  change (readPrev g (some l)).bind _ = _
  rw [hprev, Option.bind_some]
  change (setNext g (lastAddr bs) none).bind _ = _
  rw [hcut, Option.bind_some]
  change (free h₁ (some l)).bind _ = _
  rw [hfree, Option.bind_some]
  change (setNext h₂ (some new) (headAddr bs)).bind _ = _
  rw [hs₁, Option.bind_some]
  change (setPrev h₃ (headAddr bs) (some new)).bind _ = _
  rw [hs₂]
  rfl

end PutIn

theorem putIn_becomes {h : Heap Addr Entry} {c : CacheChain} {as : Cells} (hc : ChainAt h c as)
    {chainlen : ℕ} (hlen : 0 < chainlen) {new : Addr} (hn : h new = none) (e : Entry) :
    ∃ r bs, putIn chainlen (Function.update h new (some ⟨e, none, none⟩)) c new = some r ∧
      Becomes h as r ((new, e) :: bs) ∧ entries bs = kept chainlen (entries as) ∧ bs.Sublist as := by
  obtain rfl := hc.eq_ends
  have hd := hc.chain.nodup
  have hnew : new ∉ as.map Prod.fst := fun hm => hc.chain.seg.live hm hn
  let g := Function.update h new (some ⟨e, none, none⟩)
  have hg : g new = some ⟨e, none, none⟩ := Function.update_self ..
  have hgo : ∀ b, b ≠ new → g b = h b := fun b hb => Function.update_of_ne hb ..
  have hseg : Seg g none as none := hc.chain.seg.frame fun b hb => hgo b fun he => hnew (he ▸ hb)
  -- only the new cell and cells of the line are written
  have hbecomes : ∀ {h' bs}, ChainAt h' (ends ((new, e) :: bs)) ((new, e) :: bs) →
      (∀ b, b ≠ new → b ∉ as.map Prod.fst → h' b = g b) →
        Becomes h as (h', ends ((new, e) :: bs)) ((new, e) :: bs) := by
    refine fun hchain hframe => ⟨hchain, fun b hb hb' => ?_⟩
    simp only [List.map_cons, List.mem_cons, not_or] at hb'
    exact (hframe b hb'.1 hb).trans (hgo b hb'.1)
  -- the empty line, a line with slots left, and the full line
  by_cases hz : as = []
  · subst hz
    exact ⟨(g, ends [(new, e)]), [], rfl,
      hbecomes (chainAt_ends ⟨by simpa using hg, trivial⟩ (by simp)) fun b _ _ => rfl, by simp [kept], .refl _⟩
  by_cases hfull : as.length ≤ chainlen
  · obtain ⟨h', hput, hchain, hframe⟩ := putIn_room hseg hd hz hg hnew hfull
    exact ⟨_, as, hput, hbecomes hchain hframe, by simp [kept, hfull], .refl _⟩
  · obtain ⟨bs, ⟨l, w⟩, rfl⟩ : ∃ bs q, as = bs ++ [q] :=
      ⟨as.dropLast, as.getLast hz, (List.dropLast_concat_getLast hz).symm⟩
    have hbs : bs ≠ [] := by
      rintro rfl
      simp at hfull
      omega
    obtain ⟨h', hput, hchain, hframe⟩ := putIn_full hbs hseg hd hg hnew hfull
    refine ⟨_, bs, hput, hbecomes hchain hframe, ?_, List.sublist_append_left ..⟩
    simp only [kept, length_entries, if_neg hfull]
    simp [entries]

private theorem lastAddr_join {xs ys : Cells} {a : Addr} {e : Entry}
    (hd : ((xs ++ (a, e) :: ys).map Prod.fst).Nodup) :
    (if lastAddr (xs ++ (a, e) :: ys) = some a then lastAddr xs else lastAddr (xs ++ (a, e) :: ys)) =
      lastAddr (xs ++ ys) := by
  simp only [List.map_append, List.map_cons, List.nodup_append] at hd
  rw [lastAddr_append xs ys, lastAddr_append, lastAddr_cons]
  cases hy : lastAddr ys with
  | none => simp
  | some b =>
    have hb : b ≠ a := fun he => (List.nodup_cons.mp hd.2.1).1 (he ▸ lastAddr_mem hy)
    simp [hb]

theorem moveLast_eq {h : Heap Addr Entry} {c : CacheChain} {xs ys : Cells} {a : Addr} {e : Entry}
    (hd : ((xs ++ (a, e) :: ys).map Prod.fst).Nodup) (hl : c.last = lastAddr (xs ++ (a, e) :: ys))
    (ha : readPrev h (some a) = some (lastAddr xs)) :
    moveLast h c a = some { c with last := lastAddr (xs ++ ys) } := by
  rw [← lastAddr_join hd, moveLast, ha, hl]
  split <;> simp [← hl]

theorem bypass_eq {h : Heap Addr Entry} {xs ys : Cells} {a : Addr} {e : Entry}
    (hs : Seg h none (xs ++ (a, e) :: ys) none)
    (hd : ((xs ++ (a, e) :: ys).map Prod.fst).Nodup) (hx : xs ≠ []) :
    bypass h a = some (unlinked h xs ys) := by
  have hcell := hs.cell
  simp only [Option.or_none] at hcell
  obtain ⟨hsx, -, hsy⟩ := (Seg.append_iff h none xs _ none).mp hs
  simp only [List.map_append, List.map_cons, List.nodup_append] at hd
  obtain ⟨f, hf⟩ := Option.ne_none_iff_exists'.mp (mt lastAddr_eq_none.mp hx)
  have hfa : f ≠ a := fun he => hd.2.2 f (lastAddr_mem hf) a (by simp) he
  obtain ⟨nd, hnd⟩ := Option.ne_none_iff_exists'.mp (hsx.live (lastAddr_mem hf))
  have hset : setNext h (lastAddr xs) (headAddr ys) = some (withNext h (lastAddr xs) (headAddr ys)) := by
    rw [hf]
    exact setNext_eq hnd _
  have hcell₁ : withNext h (lastAddr xs) (headAddr ys) a = h a :=
    withNext_of_ne h (fun he => hfa (Option.some.inj (hf.symm.trans he))) _
  have hback : ∀ b, headAddr ys = some b → withNext h (lastAddr xs) (headAddr ys) b ≠ none :=
    fun b hb => (withNext_live h _ _ b).mpr (hsy.live (headAddr_mem hb))
  have hguard := setPrevIf_eq hback (lastAddr xs)
  simp only [bypass, readPrev, readNext, Option.bind_some, hcell, Option.map_some, bind, hset, hcell₁]
  exact hguard

/-- The first cell of a chain stays first when one behind it goes. -/
private theorem headAddr_middle {xs : Cells} (hx : xs ≠ []) (q : Addr × Entry) (ys : Cells) :
    headAddr (xs ++ q :: ys) = headAddr (xs ++ ys) := by
  have hsome : (headAddr xs).isSome := by simpa [Option.isSome_iff_ne_none, headAddr_eq_none] using hx
  rw [headAddr_append, headAddr_append, Option.or_of_isSome hsome, Option.or_of_isSome hsome]

private theorem nodup_middle {xs ys : Cells} {q : Addr × Entry} (hd : ((xs ++ q :: ys).map Prod.fst).Nodup) :
    ((q :: (xs ++ ys)).map Prod.fst).Nodup := (List.perm_middle.map Prod.fst).nodup_iff.mp hd

theorem promote_becomes {h : Heap Addr Entry} {c : CacheChain} {xs ys : Cells} {a : Addr} {e : Entry}
    (hc : ChainAt h c (xs ++ (a, e) :: ys)) :
    ∃ r, promote h c a = some r ∧ Becomes h (xs ++ (a, e) :: ys) r ((a, e) :: (xs ++ ys)) := by
  have hd := hc.chain.nodup
  have hs := hc.chain.seg
  by_cases hx : xs = []
  · subst hx
    have hfirst : c.first = some a := hc.chain.first_eq
    exact ⟨(h, c), by simp [promote, hfirst], hc, fun b _ _ => rfl⟩
  have hperm := nodup_middle hd
  have hhead := headAddr_middle hx (a, e) ys
  have hne : xs ++ ys ≠ [] := by simp [hx]
  have hmem : a ∉ (xs ++ ys).map Prod.fst := (List.nodup_cons.mp hperm).1
  have hfirst : ¬ c.first = some a := by
    rw [hc.chain.first_eq, hhead]
    exact fun he => hmem (headAddr_mem he)
  have hcell := unlinked_cell hs hd
  have hseg : Seg (withPrev (unlinked h xs ys) (some a) none) none (xs ++ ys) none :=
    (hs.unlink hd).frame fun b hb => withPrev_of_ne _ (fun he => hmem (by cases he; exact hb)) _
  have hcell₂ : withPrev (unlinked h xs ys) (some a) none a = some ⟨e, none, headAddr ys⟩ := by
    simp [hcell]
  obtain ⟨h₁, h₂, hs₁, hs₂, hchain, hframe⟩ :=
    hseg.linkFirst (List.nodup_cons.mp hperm).2 hne hcell₂ hmem
  refine ⟨(h₂, { first := some a, last := lastAddr (xs ++ ys), len := c.len }), ?_,
    ⟨⟨hchain, rfl, ?_, hperm⟩, by simp [hc.len_eq]; omega⟩, ?_⟩
  · rw [promote, if_neg hfirst, moveLast_eq hd hc.chain.last_eq (by simp [readPrev, hs.cell])]
    simp only [bind, Option.bind_some, bypass_eq hs hd hx, setPrev_eq hcell, hc.chain.first_eq, hhead,
      hs₁, hs₂]
    rfl
  · have hsome : (lastAddr (xs ++ ys)).isSome := Option.isSome_iff_ne_none.mpr (mt lastAddr_eq_none.mp hne)
    rw [lastAddr_cons, Option.or_of_isSome hsome]
  · intro b hb hb'
    simp only [List.map_append, List.map_cons, List.mem_append, List.mem_cons, not_or] at hb
    change h₂ b = h b
    rw [hframe b hb.2.1 (by simp [hb.1, hb.2.2]), withPrev_of_ne _ (fun he => hb.2.1 (by cases he; rfl)),
      unlinked_of_notMem h hb.1 hb.2.2]

/-- Both branches leave the neighbours joined and the right first entry. -/
private theorem joinAround_eq {h : Heap Addr Entry} {c : CacheChain} {xs ys : Cells} {a : Addr} {e : Entry}
    (hc : ChainAt h c (xs ++ (a, e) :: ys)) :
    joinAround h c a = some (unlinked h xs ys, { c with first := headAddr (xs ++ ys) }) := by
  have hd := hc.chain.nodup
  have hs := hc.chain.seg
  by_cases hx : xs = []
  · subst hx
    have hfirst : c.first = some a := hc.chain.first_eq
    have hlive : ∀ b, headAddr ys = some b → h b ≠ none := fun b hb => hs.2.live (headAddr_mem hb)
    have hguard := setPrevIf_eq hlive none
    have hnext : readNext h (some a) = some (headAddr ys) := by simp [readNext, hs.1]
    simp only [joinAround, hfirst, if_true, dropFirst, hnext, bind, Option.bind_some, hguard]
    rfl
  · have hfirst : c.first = headAddr (xs ++ ys) := hc.chain.first_eq.trans (headAddr_middle hx (a, e) ys)
    have hne : ¬ c.first = some a := by
      rw [hfirst]
      exact fun he => (List.nodup_cons.mp (nodup_middle hd)).1 (headAddr_mem he)
    rw [joinAround, if_neg hne, bypass_eq hs hd hx, ← hfirst]
    rfl

theorem takeOut_becomes {h : Heap Addr Entry} {c : CacheChain} {xs ys : Cells} {a : Addr} {e : Entry}
    (hc : ChainAt h c (xs ++ (a, e) :: ys)) :
    ∃ r, takeOut h c a = some r ∧ Becomes h (xs ++ (a, e) :: ys) r (xs ++ ys) := by
  have hd := hc.chain.nodup
  have hs := hc.chain.seg
  have ⟨hmem, hrest⟩ : a ∉ (xs ++ ys).map Prod.fst ∧ ((xs ++ ys).map Prod.fst).Nodup :=
    List.nodup_cons.mp (nodup_middle hd)
  have hcell := unlinked_cell hs hd
  have hfree : free (unlinked h xs ys) (some a) = some (Function.update (unlinked h xs ys) a none) := by
    simp [free, hcell]
  have hmove : moveLast (unlinked h xs ys) { c with first := headAddr (xs ++ ys) } a =
      some { c with first := headAddr (xs ++ ys), last := lastAddr (xs ++ ys) } :=
    moveLast_eq hd hc.chain.last_eq (by simp [readPrev, hcell])
  refine ⟨(Function.update (unlinked h xs ys) a none, ends (xs ++ ys)), ?_,
    chainAt_ends ((hs.unlink hd).frame fun b hb => ?_) hrest, ?_⟩
  · rw [takeOut, joinAround_eq hc]
    simp only [bind, Option.bind_some]
    rw [hmove, Option.bind_some, hfree]
    simp [ends, hc.len_eq]
  · refine Function.update_of_ne ?_ ..
    rintro rfl
    exact hmem hb
  · intro b hb _
    simp only [List.map_append, List.map_cons, List.mem_append, List.mem_cons, not_or] at hb
    change Function.update (unlinked h xs ys) a none b = h b
    rw [Function.update_of_ne hb.2.1, unlinked_of_notMem h hb.1 hb.2.2]

theorem setVal_becomes {h : Heap Addr Entry} {c : CacheChain} {xs ys : Cells} {a : Addr} {e : Entry}
    (hc : ChainAt h c (xs ++ (a, e) :: ys)) (e' : Entry) :
    ∃ h', setVal h (some a) e' = some h' ∧
      Becomes h (xs ++ (a, e) :: ys) (h', c) (xs ++ (a, e') :: ys) := by
  obtain ⟨h', hset, hseg, hframe⟩ := hc.chain.seg.setVal hc.chain.nodup e'
  have hfirst : headAddr (xs ++ (a, e') :: ys) = headAddr (xs ++ (a, e) :: ys) := by
    simp [headAddr_append]
  have hlast : lastAddr (xs ++ (a, e') :: ys) = lastAddr (xs ++ (a, e) :: ys) := by
    simp [lastAddr_append, lastAddr_cons]
  refine ⟨h', hset, ⟨⟨hseg, ?_, ?_, ?_⟩, ?_⟩, ?_⟩
  · exact hc.chain.first_eq.trans hfirst.symm
  · exact hc.chain.last_eq.trans hlast.symm
  · simpa using hc.chain.nodup
  · simpa using hc.len_eq
  · intro b hb _
    refine hframe b fun he => hb ?_
    simp [he]

/-- What every bucket keeps: no key twice, and only keys which hash there. -/
structure Placed (n i : ℕ) (l : List Entry) : Prop where
  nodup : (l.map Entry.key).Nodup
  home : ∀ e ∈ l, bucket n e.key = i

theorem Placed.nil (n i : ℕ) : Placed n i [] := ⟨List.nodup_nil, by simp⟩

theorem Placed.sublist {n i : ℕ} {l l' : List Entry} (hp : Placed n i l) (hs : l'.Sublist l) :
    Placed n i l' :=
  ⟨(hs.map _).nodup hp.nodup, fun e he => hp.home e (hs.subset he)⟩

theorem Placed.cons {n : ℕ} {key : Bytes} {l : List Entry} (hp : Placed n (bucket n key) l)
    (hk : ∀ d ∈ l, d.key ≠ key) {e : Entry} (he : e.key = key) :
    Placed n (bucket n key) (e :: l) := by
  subst he
  refine ⟨List.nodup_cons.mpr ⟨?_, hp.nodup⟩, ?_⟩
  · intro hm
    obtain ⟨d, hd, hde⟩ := List.mem_map.mp hm
    exact hk d hd hde
  · rintro d (_ | ⟨_, hd⟩)
    · rfl
    · exact hp.home d hd

theorem remove_sublist (key : Bytes) (l : List Entry) : (remove key l).Sublist l :=
  List.eraseP_sublist

theorem kept_sublist (chainlen : ℕ) (l : List Entry) : (kept chainlen l).Sublist l := by
  unfold kept
  split
  · exact .refl l
  · exact List.dropLast_sublist l

theorem revalue_keys (key val : Bytes) (l : List Entry) :
    (revalue key val l).map Entry.key = l.map Entry.key := by
  simp only [revalue, List.map_map]
  apply List.map_congr_left
  intro e _
  simp only [Function.comp_apply]
  split <;> rfl

theorem Placed.revalue {n i : ℕ} {l : List Entry} (hp : Placed n i l) (key val : Bytes) :
    Placed n i (revalue key val l) := by
  refine ⟨by rw [revalue_keys]; exact hp.nodup, fun e he => ?_⟩
  have hk : e.key ∈ l.map Entry.key := revalue_keys key val l ▸ List.mem_map_of_mem he
  obtain ⟨d, hd, hde⟩ := List.mem_map.mp hk
  exact hde ▸ hp.home d hd

theorem revalue_of_ne {key : Bytes} (val : Bytes) {l : List Entry} (hl : ∀ e ∈ l, e.key ≠ key) :
    revalue key val l = l := by
  refine (List.map_congr_left fun e he => ?_).trans (List.map_id l)
  simp [hasKey, hl e he]

theorem revalue_middle {key : Bytes} {xs ys : List Entry} {e : Entry} (hk : e.key = key)
    (hn : ((xs ++ e :: ys).map Entry.key).Nodup) (val : Bytes) :
    revalue key val (xs ++ e :: ys) = xs ++ { e with val := val } :: ys := by
  rw [List.map_append, List.map_cons, hk] at hn
  have hout := (List.nodup_cons.mp (List.perm_middle.nodup_iff.mp hn)).1
  rw [← List.map_append] at hout
  have hne : ∀ d ∈ xs ++ ys, d.key ≠ key := by
    intro d hd hdk
    exact hout (hdk ▸ List.mem_map_of_mem hd)
  have hx : revalue key val xs = xs := revalue_of_ne val fun d hd => hne d (List.mem_append_left _ hd)
  have hy : revalue key val ys = ys := revalue_of_ne val fun d hd => hne d (List.mem_append_right _ hd)
  calc revalue key val (xs ++ e :: ys)
      = revalue key val xs ++ { e with val := val } :: revalue key val ys := by
        simp [revalue, hasKey, hk]
    _ = xs ++ { e with val := val } :: ys := by rw [hx, hy]

theorem lookup_key {key : Bytes} {l : List Entry} {e : Entry} (h : lookup key l = some e) :
    e.key = key := by simpa [hasKey] using List.find?_some h

theorem lookup_eq_none {key : Bytes} {l : List Entry} :
    lookup key l = none ↔ ∀ e ∈ l, e.key ≠ key := by simp [lookup, hasKey]

theorem remove_key {key : Bytes} {l : List Entry} (hn : (l.map Entry.key).Nodup) :
    ∀ e ∈ remove key l, e.key ≠ key := by
  induction l with
  | nil => simp [remove]
  | cons d l ih =>
    have hd := List.nodup_cons.mp hn
    intro e he
    by_cases hk : d.key = key
    · rw [remove, List.eraseP_cons_of_pos (by simp [hasKey, hk])] at he
      exact fun hek => hd.1 (by rw [hk, ← hek]; exact List.mem_map_of_mem he)
    · rw [remove, List.eraseP_cons_of_neg (by simp [hasKey, hk])] at he
      rcases List.mem_cons.mp he with rfl | he
      · exact hk
      · exact ih hd.2 e he

theorem getIn_fst (now : ℤ) (key : Bytes) (l : List Entry) :
    (getIn now key l).1 = l ∨ (getIn now key l).1 = remove key l := by
  unfold getIn
  split
  · exact .inl rfl
  · split
    · exact .inr rfl
    · exact .inl rfl

theorem delIn_fst (key : Bytes) (l : List Entry) : (delIn key l).1 = l ∨ (delIn key l).1 = remove key l := by
  unfold delIn
  split
  · exact .inl rfl
  · exact .inr rfl

theorem casIn_fst (key oldval newval : Bytes) (alloc : Bool) (l : List Entry) :
    (casIn key oldval newval alloc l).1 = l ∨
      (casIn key oldval newval alloc l).1 = revalue key newval l := by
  unfold casIn
  cases lookup key l with
  | none => exact .inl rfl
  | some e =>
    by_cases hv : e.val = oldval
    · cases alloc <;> simp [hv]
    · simp [hv]

theorem incrIn_fst (key : Bytes) (increment : ℤ) (alloc : Bool) (o : Outside) (l : List Entry) :
    (incrIn key increment alloc o l).1 = l ∨
      ∃ val, (incrIn key increment alloc o l).1 = revalue key val l := by
  unfold incrIn
  cases lookup key l with
  | none => exact .inl rfl
  | some e =>
    by_cases hz : lastByte e.val o ≠ 0
    · exact .inl (by simp only [if_pos hz])
    · by_cases hm : (e.val.length < 24 && !alloc) = true
      · exact .inl (by simp only [if_neg hz, if_pos hm])
      · right
        simp only [if_neg hz, if_neg hm]
        exact ⟨_, rfl⟩

/-- The answer of a call that sets nothing: a set without memory, or no set at all. -/
def SetsNothing (op : Op) (ans : Answer) : Prop :=
  ∀ key val timeout m, op = .set key val timeout m → ans = .status 0

/-- What a call may make of the bucket of its key, and answer. -/
inductive Reworked (chainlen : ℕ) (now : ℤ) (l : List Entry) : Op → List Entry → Answer → Prop
  | inserted {key val timeout m} (hl : lookup key l = none) (hm : m.entry.isSome ∧ m.key ∧ m.val) :
      Reworked chainlen now l (.set key val timeout m) (⟨key, val, expiry now timeout⟩ :: kept chainlen l) (.status 1)
  | renewed {key val timeout m e} (hl : lookup key l = some e) :
      Reworked chainlen now l (.set key val timeout m) ({ e with val := val } :: remove key l) (.status 1)
  | same {op ans} (hans : SetsNothing op ans) : Reworked chainlen now l op l ans
  | removed {op ans} (hop : ∀ key val timeout m, op ≠ .set key val timeout m) :
      Reworked chainlen now l op (remove op.key l) ans
  | revalued {op ans} (hop : ∀ key val timeout m, op ≠ .set key val timeout m) (val : Bytes) :
      Reworked chainlen now l op (revalue op.key val l) ans

theorem SetsNothing.of_ne {op : Op} (hop : ∀ key val timeout m, op ≠ .set key val timeout m) (ans : Answer) :
    SetsNothing op ans := fun key val timeout m h => absurd h (hop key val timeout m)

theorem callIn_reworked (chainlen : ℕ) (now : ℤ) (op : Op) (l : List Entry) :
    Reworked chainlen now l op (callIn chainlen now op l).1 (callIn chainlen now op l).2 := by
  cases op with
  | set key val timeout m =>
    have hnothing : SetsNothing (.set key val timeout m) (.status 0) := fun _ _ _ _ _ => rfl
    simp only [callIn, setIn]
    cases hl : lookup key l with
    | none =>
      cases hm : m.entry.isSome && m.key && m.val
      · exact .same hnothing
      · simp only [Bool.and_eq_true, and_assoc] at hm
        exact .inserted hl hm
    | some e =>
      cases hm : m.val
      · exact .same hnothing
      · exact .renewed hl
  | get key =>
    have hop : ∀ k val timeout m, Op.get key ≠ .set k val timeout m := fun _ _ _ _ h => by cases h
    change Reworked chainlen now l (.get key) (getIn now key l).1 _
    rcases getIn_fst now key l with hg | hg <;> rw [hg]
    · exact .same (.of_ne hop _)
    · exact .removed hop
  | del key =>
    have hop : ∀ k val timeout m, Op.del key ≠ .set k val timeout m := fun _ _ _ _ h => by cases h
    change Reworked chainlen now l (.del key) (delIn key l).1 _
    rcases delIn_fst key l with hd | hd <;> rw [hd]
    · exact .same (.of_ne hop _)
    · exact .removed hop
  | cas key oldval newval alloc =>
    have hop : ∀ k val timeout m, Op.cas key oldval newval alloc ≠ .set k val timeout m := fun _ _ _ _ h => by cases h
    change Reworked chainlen now l (.cas key oldval newval alloc) (casIn key oldval newval alloc l).1 _
    rcases casIn_fst key oldval newval alloc l with hc | hc <;> rw [hc]
    · exact .same (.of_ne hop _)
    · exact .revalued hop newval
  | incr key increment alloc o =>
    have hop : ∀ k val timeout m, Op.incr key increment alloc o ≠ .set k val timeout m := fun _ _ _ _ h => by cases h
    change Reworked chainlen now l (.incr key increment alloc o) (incrIn key increment alloc o l).1 _
    rcases incrIn_fst key increment alloc o l with hc | ⟨val, hc⟩ <;> rw [hc]
    · exact .same (.of_ne hop _)
    · exact .revalued hop val

/-- A call keeps the keys of a bucket in their place. -/
theorem Reworked.placed {n chainlen : ℕ} {now : ℤ} {op : Op} {l l' : List Entry} {ans : Answer}
    (h : Reworked chainlen now l op l' ans) (hp : Placed n (bucket n op.key) l) : Placed n (bucket n op.key) l' := by
  cases h with
  | inserted hl hm =>
    have hkept := kept_sublist chainlen l
    exact (hp.sublist hkept).cons (fun d hd => lookup_eq_none.mp hl d (hkept.subset hd)) rfl
  | renewed hl =>
    have hkey := lookup_key hl
    exact (hp.sublist (remove_sublist _ l)).cons (remove_key hp.nodup) hkey
  | same => exact hp
  | removed => exact hp.sublist (remove_sublist op.key l)
  | revalued hop val => exact hp.revalue op.key val

/-- A call rewrote the chain `i` of `cd`, which held the cells `as`, and left the entries `l`. -/
def DoneAt (cd : Cache) (i : ℕ) (as : Cells) (cd' : Cache) (l : List Entry) : Prop :=
  ∃ r bs, cd' = cd.withChain i r ∧ Becomes cd.heap as r bs ∧ entries bs = l ∧
    ∀ a ∈ bs.map Prod.fst, a ∈ as.map Prod.fst ∨ cd.heap a = none

section Calls
variable {cd : Cache} {i : ℕ} {c : CacheChain} {as : Cells} {key : Bytes}

theorem chainFor_some (hat : chainFor cd key = some (i, c)) :
    cd.table[i]? = some c ∧ i = bucket cd.hashlen key ∧ 0 < cd.hashlen := by
  unfold chainFor at hat
  split at hat
  · cases hat
  · next h0 =>
    simp only [Option.map_eq_some_iff, Prod.mk.injEq] at hat
    obtain ⟨d, hd, rfl, rfl⟩ := hat
    exact ⟨hd, rfl, Nat.pos_of_ne_zero h0⟩

theorem withChain_self (hat : cd.table[i]? = some c) : cd.withChain i (cd.heap, c) = cd := by
  obtain ⟨hi, rfl⟩ := List.getElem?_eq_some_iff.mp hat
  simp [Cache.withChain, List.set_getElem_self]

theorem DoneAt.same (hat : cd.table[i]? = some c) (hc : ChainAt cd.heap c as) :
    DoneAt cd i as cd (entries as) :=
  ⟨(cd.heap, c), as, (withChain_self hat).symm, ⟨hc, fun _ _ _ => rfl⟩, rfl, fun _ ha => .inl ha⟩

theorem cacheSet_done (hat : chainFor cd key = some (i, c)) (hc : ChainAt cd.heap c as)
    (hlen : 0 < cd.chainlen) (now timeout : ℤ) (val : Bytes) (m : SetMallocs)
    (hm : ∀ a, m.entry = some a → cd.heap a = none) :
    ∃ cd', cacheSet cd now key val timeout m =
        some (cd', (setIn cd.chainlen now key val timeout m (entries as)).2) ∧
      DoneAt cd i as cd' (setIn cd.chainlen now key val timeout m (entries as)).1 := by
  have htab := (chainFor_some hat).1
  have hsame := DoneAt.same htab hc
  have hfind := hc.find key
  simp only [cacheSet, hat, bind, Option.bind_some, hfind]
  cases hf : (as.find? fun q => hasKey key q.2).map Prod.fst with
  | none =>
    simp only [setIn, (find_none hf).1]
    rcases m with ⟨_ | new, mk, mv⟩
    · exact ⟨cd, rfl, hsame⟩
    · cases mk
      · exact ⟨cd, rfl, hsame⟩
      · cases mv
        · exact ⟨cd, rfl, hsame⟩
        · have hnew := hm new rfl
          obtain ⟨r, bs, hput, hbec, hent, hsub⟩ :=
            putIn_becomes hc hlen hnew ⟨key, val, expiry now timeout⟩
          refine ⟨cd.withChain i r, by simp [hput], r, _, rfl, hbec, by simp [hent], ?_⟩
          intro a ha
          rcases List.mem_cons.mp ha with rfl | ha
          · exact .inr hnew
          · exact .inl ((hsub.map _).subset ha)
  | some a =>
    obtain ⟨xs, e, ys, rfl, -, hlook, hrem, -⟩ := find_some hf
    simp only [setIn, hlook]
    cases hv : m.val
    · exact ⟨cd, rfl, hsame⟩
    · obtain ⟨h', hset, hbec⟩ := setVal_becomes hc { e with val := val }
      obtain ⟨r, hpro, hbec'⟩ := promote_becomes hbec.chain
      have hval : readVal cd.heap (some a) = some e := by simp [readVal, hc.chain.seg.cell]
      have hcells : ∀ b, b ∉ (xs ++ (a, e) :: ys).map Prod.fst →
          b ∉ ((a, { e with val := val }) :: (xs ++ ys)).map Prod.fst →
            b ∉ (xs ++ (a, { e with val := val }) :: ys).map Prod.fst := by
        intro b hb _
        simpa using hb
      refine ⟨cd.withChain i r, ?_, r, _, rfl, hbec.trans hbec' hcells, ?_, ?_⟩
      · simp [hval, hset, hpro]
      · rw [hrem, entries_cons, if_pos rfl]
      · intro b hb
        left
        simp only [List.map_cons, List.map_append, List.mem_cons, List.mem_append] at hb ⊢
        tauto

theorem cacheDel_done (hat : chainFor cd key = some (i, c)) (hc : ChainAt cd.heap c as) :
    ∃ cd', cacheDel cd key = some (cd', (delIn key (entries as)).2) ∧
      DoneAt cd i as cd' (delIn key (entries as)).1 := by
  have hsame := DoneAt.same (chainFor_some hat).1 hc
  simp only [cacheDel, hat, bind, Option.bind_some, hc.find key]
  cases hf : (as.find? fun q => hasKey key q.2).map Prod.fst with
  | none =>
    simp only [delIn, (find_none hf).1]
    exact ⟨cd, rfl, hsame⟩
  | some a =>
    obtain ⟨xs, e, ys, rfl, -, hlook, hrem, -⟩ := find_some hf
    obtain ⟨r, hout, hbec⟩ := takeOut_becomes hc
    simp only [delIn, hlook, hrem]
    refine ⟨cd.withChain i r, by simp [hout], r, _, rfl, hbec, rfl, fun b hb => .inl ?_⟩
    simp only [List.map_cons, List.map_append, List.mem_cons, List.mem_append] at hb ⊢
    tauto

theorem findInCache_eq (hat : chainFor cd key = some (i, c)) (hc : ChainAt cd.heap c as) :
    findInCache cd key = some ((as.find? fun q => hasKey key q.2).map Prod.fst) := by
  simp only [findInCache, hat, bind, Option.bind_some, hc.find key]

theorem cacheGet_done (hat : chainFor cd key = some (i, c)) (hc : ChainAt cd.heap c as) (now : ℤ) :
    ∃ cd', cacheGet cd now key = some (cd', (getIn now key (entries as)).2) ∧
      DoneAt cd i as cd' (getIn now key (entries as)).1 := by
  have hsame := DoneAt.same (chainFor_some hat).1 hc
  simp only [cacheGet, findInCache_eq hat hc, bind, Option.bind_some]
  cases hf : (as.find? fun q => hasKey key q.2).map Prod.fst with
  | none =>
    simp only [getIn, (find_none hf).1]
    exact ⟨cd, rfl, hsame⟩
  | some a =>
    obtain ⟨cd', hdel, hdone⟩ := cacheDel_done hat hc
    obtain ⟨xs, e, ys, rfl, -, hlook, -, -⟩ := find_some hf
    have hval : readVal cd.heap (some a) = some e := by simp [readVal, hc.chain.seg.cell]
    simp only [delIn, hlook] at hdel hdone
    simp only [getIn, hlook, hval, Option.bind_some]
    cases hx : expired now e
    · exact ⟨cd, rfl, hsame⟩
    · exact ⟨cd', by simp [hdel], hdone⟩

theorem setVal_done (hat : chainFor cd key = some (i, c)) {xs ys : Cells} {a : Addr} {e : Entry}
    (hc : ChainAt cd.heap c (xs ++ (a, e) :: ys)) (hn : ((entries (xs ++ (a, e) :: ys)).map Entry.key).Nodup)
    (hk : e.key = key) (val : Bytes) :
    ∃ h', setVal cd.heap (some a) { e with val := val } = some h' ∧
      DoneAt cd i (xs ++ (a, e) :: ys) { cd with heap := h' }
        (revalue key val (entries (xs ++ (a, e) :: ys))) := by
  obtain ⟨h', hset, hbec⟩ := setVal_becomes hc { e with val := val }
  refine ⟨h', hset, (h', c), _, ?_, hbec, ?_, fun b hb => .inl (by simpa using hb)⟩
  · obtain ⟨hi, rfl⟩ := List.getElem?_eq_some_iff.mp (chainFor_some hat).1
    simp [Cache.withChain, List.set_getElem_self]
  · simp only [entries_append, entries_cons] at hn ⊢
    exact (revalue_middle hk hn val).symm

theorem cacheCas_done (hat : chainFor cd key = some (i, c)) (hc : ChainAt cd.heap c as)
    (hn : ((entries as).map Entry.key).Nodup) (oldval newval : Bytes) (alloc : Bool) :
    ∃ cd', cacheCas cd key oldval newval alloc =
        some (cd', (casIn key oldval newval alloc (entries as)).2) ∧
      DoneAt cd i as cd' (casIn key oldval newval alloc (entries as)).1 := by
  have hsame := DoneAt.same (chainFor_some hat).1 hc
  simp only [cacheCas, findInCache_eq hat hc, bind, Option.bind_some]
  cases hf : (as.find? fun q => hasKey key q.2).map Prod.fst with
  | none =>
    simp only [casIn, (find_none hf).1]
    exact ⟨cd, rfl, hsame⟩
  | some a =>
    obtain ⟨xs, e, ys, rfl, hk, hlook, -, -⟩ := find_some hf
    have hval : readVal cd.heap (some a) = some e := by simp [readVal, hc.chain.seg.cell]
    obtain ⟨h', hset, hdone⟩ := setVal_done hat hc hn hk newval
    simp only [casIn, hlook, hval, Option.bind_some]
    by_cases hv : e.val = oldval
    · cases alloc
      · exact ⟨cd, by simp [hv], by simpa [hv] using hsame⟩
      · exact ⟨{ cd with heap := h' }, by simp [hv, hset], by simpa [hv] using hdone⟩
    · refine ⟨cd, ?_, by simpa [hv] using hsame⟩
      by_cases hl : e.val.length = oldval.length <;> simp [hv, hl]

theorem cacheIncr_done (hat : chainFor cd key = some (i, c)) (hc : ChainAt cd.heap c as)
    (hn : ((entries as).map Entry.key).Nodup) (increment : ℤ) (alloc : Bool) (o : Outside) :
    ∃ cd', cacheIncr cd key increment alloc o =
        some (cd', (incrIn key increment alloc o (entries as)).2) ∧
      DoneAt cd i as cd' (incrIn key increment alloc o (entries as)).1 := by
  have hsame := DoneAt.same (chainFor_some hat).1 hc
  simp only [cacheIncr, findInCache_eq hat hc, bind, Option.bind_some]
  cases hf : (as.find? fun q => hasKey key q.2).map Prod.fst with
  | none =>
    simp only [incrIn, (find_none hf).1]
    exact ⟨cd, rfl, hsame⟩
  | some a =>
    obtain ⟨xs, e, ys, rfl, hk, hlook, -, -⟩ := find_some hf
    have hval : readVal cd.heap (some a) = some e := by simp [readVal, hc.chain.seg.cell]
    simp only [incrIn, hlook, hval, Option.bind_some]
    generalize wrap 64 (strtol (numberText e.val o) + increment) = intval
    obtain ⟨h', hset, hdone⟩ := setVal_done hat hc hn hk (printCounter e.val intval)
    by_cases hz : lastByte e.val o ≠ 0
    · exact ⟨cd, by simp only [if_pos hz]; rfl, by simpa only [if_pos hz] using hsame⟩
    · by_cases hm : (e.val.length < 24 && !alloc) = true
      · exact ⟨cd, by simp only [if_neg hz, if_pos hm]; rfl,
          by simpa only [if_neg hz, if_pos hm] using hsame⟩
      · refine ⟨{ cd with heap := h' }, ?_, ?_⟩
        · simp only [if_neg hz, if_neg hm, hset, Option.bind_some]
          rfl
        · simpa only [if_neg hz, if_neg hm] using hdone

theorem call_done (now : ℤ) (op : Op) (hat : chainFor cd op.key = some (i, c))
    (hc : ChainAt cd.heap c as) (hn : ((entries as).map Entry.key).Nodup) (hlen : 0 < cd.chainlen)
    (hf : op.Fresh cd) :
    ∃ cd', call cd now op = some (cd', (callIn cd.chainlen now op (entries as)).2) ∧
      DoneAt cd i as cd' (callIn cd.chainlen now op (entries as)).1 := by
  cases op with
  | set key val timeout m =>
    change chainFor cd key = _ at hat
    obtain ⟨cd', hcall, hdone⟩ := cacheSet_done hat hc hlen now timeout val m hf
    exact ⟨cd', by simp [call, callIn, hcall], hdone⟩
  | get key =>
    change chainFor cd key = _ at hat
    obtain ⟨cd', hcall, hdone⟩ := cacheGet_done hat hc now
    exact ⟨cd', by simp [call, callIn, hcall], hdone⟩
  | del key =>
    change chainFor cd key = _ at hat
    obtain ⟨cd', hcall, hdone⟩ := cacheDel_done hat hc
    exact ⟨cd', by simp [call, callIn, hcall], hdone⟩
  | cas key oldval newval alloc =>
    change chainFor cd key = _ at hat
    obtain ⟨cd', hcall, hdone⟩ := cacheCas_done hat hc hn oldval newval alloc
    exact ⟨cd', by simp [call, callIn, hcall], hdone⟩
  | incr key increment alloc o =>
    change chainFor cd key = _ at hat
    obtain ⟨cd', hcall, hdone⟩ := cacheIncr_done hat hc hn increment alloc o
    refine ⟨cd', ?_, hdone⟩
    simp only [call, hcall, Option.map_some, callIn, Prod.map_snd]

end Calls

end Cmoon.CacheRefinement
