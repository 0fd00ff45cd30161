import Cmoon.CacheRefinement

/-! # The representation invariant of the cache

Every chain of the table is a doubly linked list of its own cells, and every key
stands in the chain its hash selects. One call rewrites one chain and keeps the
invariant, so it holds after every sequence of calls. -/
namespace Cmoon.CacheInvariant
open DecimalText OneAtATimeHash DoublyLinkedLists CacheOperations CacheRefinement

/-- `reps i` lists the cells of chain `i`. -/
structure Rep (cd : Cache) (reps : ℕ → Cells) : Prop where
  pos : 0 < cd.hashlen
  width : cd.table.length = cd.hashlen
  chain : ∀ {i c}, cd.table[i]? = some c → ChainAt cd.heap c (reps i)
  apart : ∀ {i j a}, i < cd.hashlen → j < cd.hashlen → a ∈ (reps i).map Prod.fst →
    a ∈ (reps j).map Prod.fst → i = j
  placed : ∀ i, i < cd.hashlen → Placed cd.hashlen i (entries (reps i))

theorem cacheCreate_eq {numobjs : ℕ} {cdOk tableOk : Bool} {cd : Cache}
    (hc : cacheCreate numobjs cdOk tableOk = some (some cd)) :
    cd = ⟨numobjs, numobjs / 4, 4, List.replicate (numobjs / 4) ⟨0, none, none⟩, fun _ => none⟩ := by
  unfold cacheCreate at hc
  split at hc
  · simp at hc
  · simp only at hc
    split at hc
    · simp at hc
    · split at hc
      · cases hc
      · simpa [eq_comm] using hc

theorem rep_initial {numobjs : ℕ} (hn : 4 ≤ numobjs) {cdOk tableOk : Bool} {cd : Cache}
    (hc : cacheCreate numobjs cdOk tableOk = some (some cd)) :
    Rep cd (fun _ => []) ∧ cd.hashlen = numobjs / 4 ∧ cd.chainlen = 4 := by
  obtain rfl := cacheCreate_eq hc
  refine ⟨⟨Nat.div_pos hn (by decide), by simp, ?_, by simp, fun i _ => Placed.nil _ i⟩, rfl, rfl⟩
  intro i c hi
  obtain ⟨-, rfl⟩ := List.mem_replicate.mp (List.mem_of_getElem? hi)
  exact ⟨IsChain.nil _, rfl⟩

theorem Rep.chainFor_eq {cd : Cache} {reps : ℕ → Cells} (hr : Rep cd reps) (key : Bytes) :
    ∃ c, chainFor cd key = some (bucket cd.hashlen key, c) ∧
      ChainAt cd.heap c (reps (bucket cd.hashlen key)) := by
  have hlt : bucket cd.hashlen key < cd.table.length := by
    rw [hr.width]
    exact bucket_lt hr.pos key
  have hget := List.getElem?_eq_getElem hlt
  exact ⟨_, by simp [chainFor, hr.pos.ne', hget], hr.chain hget⟩

/-- An address of another chain is neither old nor new in a chain which took its cells from itself and the
free ones. -/
private theorem Rep.other {cd : Cache} {reps : ℕ → Cells} (hr : Rep cd reps) {i : ℕ} (hi : i < cd.hashlen) {bs : Cells}
    (hnew : ∀ a ∈ bs.map Prod.fst, a ∈ (reps i).map Prod.fst ∨ cd.heap a = none) {j : ℕ} (hj : j < cd.hashlen)
    (hji : j ≠ i) {a : Addr} (ha : a ∈ (reps j).map Prod.fst) : a ∉ (reps i).map Prod.fst ∧ a ∉ bs.map Prod.fst := by
  have hold : a ∉ (reps i).map Prod.fst := fun hm => hji (hr.apart hj hi ha hm)
  have hget := List.getElem?_eq_getElem (hr.width ▸ hj : j < cd.table.length)
  have hlive : cd.heap a ≠ none := (hr.chain hget).chain.seg.live ha
  exact ⟨hold, fun hm => (hnew a hm).elim hold hlive⟩

/-- A call which rewrites one chain keeps the invariant. -/
theorem Rep.update {cd cd' : Cache} {reps : ℕ → Cells} (hr : Rep cd reps) {i : ℕ} {l : List Entry}
    (hi : i < cd.hashlen) (hd : DoneAt cd i (reps i) cd' l) (hp : Placed cd.hashlen i l) :
    ∃ bs, entries bs = l ∧ Rep cd' (Function.update reps i bs) ∧ cd'.hashlen = cd.hashlen ∧
      cd'.chainlen = cd.chainlen ∧ cd'.numobjs = cd.numobjs := by
  obtain ⟨⟨heap, c'⟩, bs, rfl, hbec, rfl, hnew⟩ := hd
  refine ⟨bs, rfl, ⟨hr.pos, by simp [Cache.withChain, hr.width], ?_, ?_, ?_⟩, rfl, rfl, rfl⟩
  · intro j c hj
    by_cases hji : j = i
    · subst hji
      have hlt : j < cd.table.length := hr.width ▸ hi
      obtain rfl : c' = c := by simpa [Cache.withChain, hlt] using hj
      rw [Function.update_self]
      exact hbec.chain
    · have hj' : cd.table[j]? = some c := by
        rwa [Cache.withChain, List.getElem?_set_ne (Ne.symm hji)] at hj
      have hlt : j < cd.hashlen := hr.width ▸ (List.getElem?_eq_some_iff.mp hj').1
      rw [Function.update_of_ne hji]
      refine ⟨(hr.chain hj').chain.frame fun a ha => ?_, (hr.chain hj').len_eq⟩
      obtain ⟨h₁, h₂⟩ := hr.other hi hnew hlt hji ha
      exact hbec.frame a h₁ h₂
  · intro j k a hj hk haj hak
    by_cases hji : j = i <;> by_cases hki : k = i
    · rw [hji, hki]
    · rw [Function.update_of_ne hki] at hak
      rw [hji, Function.update_self] at haj
      exact absurd haj (hr.other hi hnew hk hki hak).2
    · rw [Function.update_of_ne hji] at haj
      rw [hki, Function.update_self] at hak
      exact absurd hak (hr.other hi hnew hj hji haj).2
    · rw [Function.update_of_ne hji] at haj
      rw [Function.update_of_ne hki] at hak
      exact hr.apart hj hk haj hak
  · intro j hj
    by_cases hji : j = i
    · subst hji
      rw [Function.update_self]
      exact hp
    · rw [Function.update_of_ne hji]
      exact hr.placed j hj

/-- The buckets of a table, as lists of entries. -/
def contents (reps : ℕ → Cells) : ℕ → List Entry := fun i => entries (reps i)

def callOn (hashlen chainlen : ℕ) (now : ℤ) (op : Op) (b : ℕ → List Entry) :
    (ℕ → List Entry) × Answer :=
  let r := callIn chainlen now op (b (bucket hashlen op.key))
  (Function.update b (bucket hashlen op.key) r.1, r.2)

section CallOn
variable (hashlen chainlen : ℕ) (now : ℤ) (op : Op) (b : ℕ → List Entry)

theorem callOn_self : (callOn hashlen chainlen now op b).1 (bucket hashlen op.key) =
    (callIn chainlen now op (b (bucket hashlen op.key))).1 := by simp only [callOn, Function.update_self]

theorem callOn_of_ne {i : ℕ} (hi : i ≠ bucket hashlen op.key) :
    (callOn hashlen chainlen now op b).1 i = b i := by simp only [callOn, Function.update_of_ne hi]

end CallOn

theorem call_refines {cd : Cache} {reps : ℕ → Cells} (hr : Rep cd reps) (hlen : 0 < cd.chainlen)
    (now : ℤ) {op : Op} (hf : op.Fresh cd) :
    ∃ cd' reps', call cd now op =
        some (cd', (callOn cd.hashlen cd.chainlen now op (contents reps)).2) ∧
      Rep cd' reps' ∧ contents reps' = (callOn cd.hashlen cd.chainlen now op (contents reps)).1 ∧
      cd'.hashlen = cd.hashlen ∧ cd'.chainlen = cd.chainlen ∧ cd'.numobjs = cd.numobjs := by
  obtain ⟨c, hat, hc⟩ := hr.chainFor_eq op.key
  have hplace := hr.placed _ (bucket_lt hr.pos op.key)
  obtain ⟨cd', hcall, hdone⟩ := call_done now op hat hc hplace.nodup hlen hf
  have hplaced := (callIn_reworked cd.chainlen now op _).placed hplace
  obtain ⟨bs, hbs, hr', hkept⟩ := hr.update (bucket_lt hr.pos op.key) hdone hplaced
  refine ⟨cd', _, hcall, hr', ?_, hkept⟩
  funext j
  by_cases hj : j = bucket cd.hashlen op.key
  · rw [hj]
    simp [contents, callOn, hbs]
  · simp [contents, callOn, Function.update_of_ne hj]

def callsOn (hashlen chainlen : ℕ) : (ℕ → List Entry) → List (ℤ × Op) → ℕ → List Entry
  | b, [] => b
  | b, (now, op) :: ops => callsOn hashlen chainlen (callOn hashlen chainlen now op b).1 ops

theorem calls_refine {cd : Cache} {reps : ℕ → Cells} (hr : Rep cd reps) (hlen : 0 < cd.chainlen)
    {ops : List (ℤ × Op)} (hf : FreshCalls cd ops) :
    ∃ cd' reps', calls cd ops = some cd' ∧ Rep cd' reps' ∧
      contents reps' = callsOn cd.hashlen cd.chainlen (contents reps) ops ∧
      cd'.hashlen = cd.hashlen ∧ cd'.chainlen = cd.chainlen := by
  induction ops generalizing cd reps with
  | nil => exact ⟨cd, reps, rfl, hr, rfl, rfl, rfl⟩
  | cons step ops ih =>
    obtain ⟨now, op⟩ := step
    obtain ⟨cd₁, reps₁, hcall, hr₁, hcont, hhash, hchain, -⟩ := call_refines hr hlen now hf.1
    obtain ⟨cd', reps', hcalls, hr', hcont', hhash', hchain'⟩ :=
      ih hr₁ (hchain ▸ hlen) (hf.2 _ _ hcall)
    refine ⟨cd', reps', ?_, hr', ?_, hhash'.trans hhash, hchain'.trans hchain⟩
    · rw [calls, hcall]
      exact hcalls
    · rw [hcont', hcont, hhash, hchain, callsOn]

/-- A chain read link by link: `as` are its cells in the order of `next`. -/
structure WellLinked (h : Heap Addr Entry) (c : CacheChain) (as : Cells) : Prop where
  len_eq : c.len = as.length
  first_eq : c.first = (as[0]?).map Prod.fst
  last_eq : c.last = (as[c.len - 1]?).map Prod.fst
  next_eq : ∀ (k : ℕ) (a : Addr) (e : Entry), as[k]? = some (a, e) →
    readNext h (some a) = some ((as[k + 1]?).map Prod.fst)
  prev_inverse : ∀ a b, a ∈ as.map Prod.fst → b ∈ as.map Prod.fst →
    (readNext h (some a) = some (some b) ↔ readPrev h (some b) = some (some a))
  first_prev : ∀ a, c.first = some a → readPrev h (some a) = some none
  last_next : ∀ a, c.last = some a → readNext h (some a) = some none
  first_null : c.first = none ↔ c.len = 0
  last_null : c.last = none ↔ c.len = 0

/-- Every chain is well linked, no key occurs twice, and every entry sits where it hashes. -/
structure WellFormed (cd : Cache) (reps : ℕ → Cells) : Prop where
  width : cd.table.length = cd.hashlen
  chains : ∀ {i : ℕ} {c : CacheChain}, cd.table[i]? = some c → WellLinked cd.heap c (reps i)
  holds : ∀ {i k : ℕ} {a : Addr} {e : Entry}, i < cd.hashlen → (reps i)[k]? = some (a, e) →
    readVal cd.heap (some a) = some e
  keys : ∀ {i j k l : ℕ} {a b : Addr} {e f : Entry}, i < cd.hashlen → j < cd.hashlen →
    (reps i)[k]? = some (a, e) → (reps j)[l]? = some (b, f) → e.key = f.key → i = j ∧ k = l
  homes : ∀ {i k : ℕ} {a : Addr} {e : Entry}, i < cd.hashlen → (reps i)[k]? = some (a, e) →
    bucket cd.hashlen e.key = i

private theorem exists_index {as : Cells} {a : Addr} (ha : a ∈ as.map Prod.fst) :
    ∃ (k : ℕ) (e : Entry), as[k]? = some (a, e) := by
  obtain ⟨⟨b, e⟩, hm, rfl⟩ := List.mem_map.mp ha
  obtain ⟨k, hk⟩ := List.mem_iff_getElem?.mp hm
  exact ⟨k, e, hk⟩

private theorem addr_inj {as : Cells} (hd : (as.map Prod.fst).Nodup) {k l : ℕ} {a : Addr} {e : Entry}
    (hk : as[k]? = some (a, e)) (hl : (as[l]?).map Prod.fst = some a) : k = l := by
  have hlt : k < (as.map Prod.fst).length := by simpa using (List.getElem?_eq_some_iff.mp hk).1
  refine (List.getElem?_inj hlt hd).mp ?_
  rw [List.getElem?_map, List.getElem?_map, hk, hl, Option.map_some]

theorem wellLinked_of_chainAt {h : Heap Addr Entry} {c : CacheChain} {as : Cells} (hc : ChainAt h c as) :
    WellLinked h c as := by
  have hlast : c.last = (as[c.len - 1]?).map Prod.fst := by
    rw [hc.chain.last_eq, hc.len_eq, lastAddr, List.getLast?_eq_getElem?]
  have hnext : ∀ (k : ℕ) (a : Addr) (e : Entry), as[k]? = some (a, e) →
      readNext h (some a) = some ((as[k + 1]?).map Prod.fst) :=
    fun k a e hk => by simp [readNext, hc.chain.links hk]
  have hprev : ∀ (k : ℕ) (a : Addr) (e : Entry), as[k]? = some (a, e) →
      readPrev h (some a) = some (if k = 0 then none else (as[k - 1]?).map Prod.fst) :=
    fun k a e hk => by simp [readPrev, hc.chain.links hk]
  refine ⟨hc.len_eq, ?_, hlast, hnext, ?_, ?_, ?_, ?_, ?_⟩
  · rw [hc.chain.first_eq, headAddr, List.head?_eq_getElem?]
  · intro a b ha hb
    obtain ⟨k, e, hk⟩ := exists_index ha
    obtain ⟨l, f, hl⟩ := exists_index hb
    rw [hnext k a e hk, hprev l b f hl]
    constructor
    · intro hab
      obtain rfl : l = k + 1 := addr_inj hc.chain.nodup hl (Option.some.inj hab)
      simp [hk]
    · intro hba
      cases l with
      | zero => simp at hba
      | succ l =>
        obtain rfl : k = l := addr_inj hc.chain.nodup hk (by simpa using hba)
        simp [hl]
  · intro a ha
    rw [hc.chain.first_eq, headAddr, List.head?_eq_getElem?] at ha
    obtain ⟨⟨b, e⟩, hget, rfl⟩ := Option.map_eq_some_iff.mp ha
    simpa using hprev 0 b e hget
  · intro a ha
    rw [hlast] at ha
    obtain ⟨⟨b, e⟩, hget, rfl⟩ := Option.map_eq_some_iff.mp ha
    have hlt := (List.getElem?_eq_some_iff.mp hget).1
    have hend : as[c.len - 1 + 1]? = none := by
      rw [List.getElem?_eq_none_iff, hc.len_eq] 
      omega
    simpa [hend] using hnext _ b e hget
  · rw [hc.chain.first_eq, headAddr_eq_none, hc.len_eq, List.length_eq_zero_iff]
  · rw [hc.chain.last_eq, lastAddr_eq_none, hc.len_eq, List.length_eq_zero_iff]

theorem Rep.wellFormed {cd : Cache} {reps : ℕ → Cells} (hr : Rep cd reps) : WellFormed cd reps := by
  have hhome : ∀ (i k : ℕ) (a : Addr) (e : Entry), i < cd.hashlen → (reps i)[k]? = some (a, e) →
      bucket cd.hashlen e.key = i := by
    intro i k a e hi hk
    exact (hr.placed i hi).home e (List.mem_map_of_mem (List.mem_of_getElem? hk))
  refine ⟨hr.width, fun hc => wellLinked_of_chainAt (hr.chain hc), ?_, ?_, hhome _ _ _ _⟩
  · intro i k a e hi hk
    have hget := List.getElem?_eq_getElem (hr.width ▸ hi : i < cd.table.length)
    simp [readVal, (hr.chain hget).chain.links hk]
  · intro i j k l a b e f hi hj hk hl hef
    obtain rfl : i = j := by rw [← hhome i k a e hi hk, hef, hhome j l b f hj hl]
    have hlt := (List.getElem?_eq_some_iff.mp hk).1
    refine ⟨rfl, (List.getElem?_inj (by simpa using hlt) (hr.placed i hi).nodup).mp ?_⟩
    simp [entries, hk, hl, hef]

/-- Every sequence of calls on a new cache runs without a fault and leaves it well formed. -/
theorem calls_wellFormed {numobjs : ℕ} (hn : 4 ≤ numobjs) {cdOk tableOk : Bool} {cd : Cache}
    (hc : cacheCreate numobjs cdOk tableOk = some (some cd)) {ops : List (ℤ × Op)}
    (hf : FreshCalls cd ops) :
    ∃ cd' reps, calls cd ops = some cd' ∧ cd'.hashlen = numobjs / 4 ∧ WellFormed cd' reps := by
  obtain ⟨hr, hhash, hchain⟩ := rep_initial hn hc
  obtain ⟨cd', reps, hcalls, hr', -, hhash', -⟩ := calls_refine hr (by omega) hf
  exact ⟨cd', reps, hcalls, hhash'.trans hhash, hr'.wellFormed⟩

/-- Six keys for two chains; the one in the middle of its chain is read when it has expired. -/
def sixSets : List (ℤ × Op) :=
  [(1, .set [97] [1] 0 ⟨some 0, true, true⟩), (1, .set [98] [1] 0 ⟨some 1, true, true⟩),
    (2, .set [99] [1] 3 ⟨some 2, true, true⟩), (3, .set [100] [1] 0 ⟨some 3, true, true⟩),
    (4, .set [101] [1] 0 ⟨some 4, true, true⟩), (4, .set [102] [1] 0 ⟨some 5, true, true⟩), (9, .get [99])]

theorem calls_wellFormed_sixSets :
    ∃ cd cd' reps, cacheCreate 8 true true = some (some cd) ∧ calls cd sixSets = some cd' ∧ cd'.hashlen = 2 ∧
      cd'.table = [⟨3, some 5, some 0⟩, ⟨2, some 3, some 1⟩] ∧ WellFormed cd' reps := by
  have hcreate : cacheCreate 8 true true =
      some (some ⟨8, 2, 4, List.replicate 2 ⟨0, none, none⟩, fun _ => none⟩) := rfl
  have hfresh : FreshCalls ⟨8, 2, 4, List.replicate 2 ⟨0, none, none⟩, fun _ => none⟩ sixSets := by
    unfold sixSets
    iterate 6
      refine ⟨fun a ha => by cases ha; rfl, fun cd ans hcall => ?_⟩
      cases hcall
    exact ⟨trivial, fun _ _ _ => trivial⟩
  obtain ⟨cd', reps, hcalls, hhash, hwf⟩ := calls_wellFormed (by decide : 4 ≤ 8) hcreate hfresh
  have htable : (calls ⟨8, 2, 4, List.replicate 2 ⟨0, none, none⟩, fun _ => none⟩ sixSets).map (·.table) =
      some [⟨3, some 5, some 0⟩, ⟨2, some 3, some 1⟩] := by decide +kernel
  rw [hcalls] at htable
  exact ⟨_, cd', reps, hcreate, hcalls, hhash, Option.some.inj htable, hwf⟩

end Cmoon.CacheInvariant
