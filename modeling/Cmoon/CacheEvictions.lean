import Cmoon.CacheCapacity

/-! # Which entry an eviction takes

`cache_set` moves an entry to the front of its chain and evicts from the end of it.
`cache_get` moves nothing, so the order of a chain is the order of the sets alone. -/
namespace Cmoon.CacheEvictions
open DecimalText OneAtATimeHash DoublyLinkedLists CacheOperations CacheRefinement CacheInvariant CacheLifetimes
  ExpiredEntries CacheCapacity GuardedRuns

/-- The calls so far with what they returned, the latest first. -/
abbrev History := List (Op × Answer)

/-- A successful `cache_set` of the key. -/
def setsKey (key : Bytes) : Op × Answer → Bool
  | (.set k .., .status 1) => k = key
  | _ => false

/-- A `cache_get` which found the key. -/
def getsKey (key : Bytes) : Op × Answer → Bool
  | (.get k, .value (some _)) => k = key
  | _ => false

/-- The number of the latest call that satisfies `p`; 0 when there was none. -/
def lastTime (p : Op × Answer → Bool) : History → ℕ
  | [] => 0
  | c :: past => if p c then past.length + 1 else lastTime p past

def lastSet (past : History) (key : Bytes) : ℕ := lastTime (setsKey key) past

def lastGet (past : History) (key : Bytes) : ℕ := lastTime (getsKey key) past

/-- The latest successful `cache_get` or `cache_set` of the key. -/
def lastUse (past : History) (key : Bytes) : ℕ := lastTime (fun c => setsKey key c || getsKey key c) past

theorem lastTime_le (p : Op × Answer → Bool) (past : History) : lastTime p past ≤ past.length := by
  induction past with
  | nil => exact le_refl 0
  | cons c past ih =>
    rw [lastTime, List.length_cons]
    split <;> omega

theorem lastTime_or (p q : Op × Answer → Bool) (past : History) :
    lastTime (fun c => p c || q c) past = max (lastTime p past) (lastTime q past) := by
  induction past with
  | nil => rfl
  | cons c past ih =>
    have hp := lastTime_le p past
    have hq := lastTime_le q past
    simp only [lastTime, Bool.or_eq_true, ih]
    by_cases hpc : p c = true <;> by_cases hqc : q c = true <;> simp [hpc, hqc] <;> omega

theorem lastUse_eq (past : History) (key : Bytes) : lastUse past key = max (lastSet past key) (lastGet past key) :=
  lastTime_or (setsKey key) (getsKey key) past

/-- A cache and the calls that made it. -/
structure Session where
  cd : Cache
  past : History

/-- One more call; one that faults leaves everything as it was. -/
def advance (s : Session) (step : ℤ × Op) : Session :=
  match call s.cd step.1 step.2 with
  | some (cd, ans) => ⟨cd, (step.2, ans) :: s.past⟩
  | none => s

/-- An entry which a `cache_set` evicts was last used before every other entry of its chain. -/
def EvictsLeastRecent (s : Session) (step : ℤ × Op) : Prop :=
  ∀ key val timeout m, step.2 = .set key val timeout m → ∀ cd ans, call s.cd step.1 step.2 = some (cd, ans) →
    ∀ gone, entryOf s.cd gone ≠ none → entryOf cd gone = none →
      ∀ k, k ≠ gone → bucket s.cd.hashlen k = bucket s.cd.hashlen gone → entryOf s.cd k ≠ none →
        lastUse s.past gone < lastUse s.past k

/-- When a new entry comes into a full chain, the entry of the chain whose last set is the oldest
has not been read since the last use of any other. -/
def OldestUnread (s : Session) (step : ℤ × Op) : Prop :=
  Inserts s.cd step.2 → ∀ i c, chainFor s.cd step.2.key = some (i, c) → s.cd.chainlen < c.len →
    ∀ oldest, bucket s.cd.hashlen oldest = i → entryOf s.cd oldest ≠ none →
      (∀ k, k ≠ oldest → bucket s.cd.hashlen k = i → entryOf s.cd k ≠ none →
        lastSet s.past oldest < lastSet s.past k) →
      ∀ k, k ≠ oldest → bucket s.cd.hashlen k = i → entryOf s.cd k ≠ none →
        lastGet s.past oldest < lastUse s.past k

/-- The keys of a bucket, those set last in front. -/
def InSetOrder (past : History) (l : List Entry) : Prop :=
  (l.map Entry.key).Pairwise fun a b => lastSet past b < lastSet past a

section Buckets
variable {chainlen : ℕ} {now : ℤ} {op : Op} {l : List Entry} {past : History}

theorem setsKey_of_setsNothing {ans : Answer} (hans : SetsNothing op ans) (key : Bytes) :
    setsKey key (op, ans) = false := by
  cases op with
  | set k val timeout m =>
    obtain rfl := hans k val timeout m rfl
    rfl
  | get k => rfl
  | del k => rfl
  | cas k oldval newval alloc => rfl
  | incr k increment alloc o => rfl

/-- What a call does to the keys of its bucket: a successful set brings its key to the front, any
other call leaves the keys or takes some away. -/
theorem callIn_keys (hn : (l.map Entry.key).Nodup) :
    (setsKey op.key (op, (callIn chainlen now op l).2) = true ∧
      ∃ ks, ks.Sublist (l.map Entry.key) ∧ op.key ∉ ks ∧
        (callIn chainlen now op l).1.map Entry.key = op.key :: ks) ∨
    ((∀ k, setsKey k (op, (callIn chainlen now op l).2) = false) ∧
      ((callIn chainlen now op l).1.map Entry.key).Sublist (l.map Entry.key)) := by
  have h := callIn_reworked chainlen now op l
  generalize (callIn chainlen now op l).1 = l' at h ⊢
  generalize (callIn chainlen now op l).2 = ans at h ⊢
  cases h with
  | @inserted key val timeout m hl hm =>
    left
    have hkept := kept_sublist chainlen l
    have hout : key ∉ (kept chainlen l).map Entry.key := by
      intro hmem
      obtain ⟨e, he, hk⟩ := List.mem_map.mp hmem
      exact lookup_eq_none.mp hl e (hkept.subset he) hk
    exact ⟨decide_eq_true rfl, _, hkept.map _, hout, rfl⟩
  | @renewed key val timeout m e hl =>
    left
    have hout : key ∉ (remove key l).map Entry.key := by
      intro hmem
      obtain ⟨d, hd, hk⟩ := List.mem_map.mp hmem
      exact remove_key hn d hd hk
    have hkey : e.key = key := lookup_key hl
    exact ⟨decide_eq_true rfl, _, (remove_sublist key l).map _, hout, congrArg (· :: _) hkey⟩
  | same hans => exact .inr ⟨setsKey_of_setsNothing hans, .refl _⟩
  | removed hop => exact .inr ⟨setsKey_of_setsNothing (.of_ne hop _), (remove_sublist op.key l).map _⟩
  | revalued hop val => exact .inr ⟨setsKey_of_setsNothing (.of_ne hop _), (revalue_keys op.key val l).symm ▸ .refl _⟩

theorem lastSet_cons_of_false {c : Op × Answer} {key : Bytes} (hc : setsKey key c = false) :
    lastSet (c :: past) key = lastSet past key := by simp [lastSet, lastTime, hc]

theorem lastSet_cons_of_true {c : Op × Answer} {key : Bytes} (hc : setsKey key c = true) :
    lastSet (c :: past) key = past.length + 1 := by simp [lastSet, lastTime, hc]

theorem setsKey_of_ne {key : Bytes} (hk : op.key ≠ key) (ans : Answer) : setsKey key (op, ans) = false := by
  cases op with
  | set k val timeout m =>
    rw [setsKey.eq_def]
    split
    · next heq =>
      obtain ⟨h, -⟩ := heq
      exact decide_eq_false hk
    · rfl
  | get k => rfl
  | del k => rfl
  | cas k oldval newval alloc => rfl
  | incr k increment alloc o => rfl

theorem inSetOrder_callIn (hn : (l.map Entry.key).Nodup) (ho : InSetOrder past l) :
    InSetOrder ((op, (callIn chainlen now op l).2) :: past) (callIn chainlen now op l).1 := by
  unfold InSetOrder at ho ⊢
  rcases @callIn_keys chainlen now op l hn with ⟨hset, ks, hsub, hout, hks⟩ | ⟨hset, hsub⟩
  · have hold : ∀ k ∈ ks, lastSet ((op, (callIn chainlen now op l).2) :: past) k = lastSet past k := by
      intro k hk
      refine lastSet_cons_of_false (setsKey_of_ne (fun he => hout ?_) _)
      rwa [he]
    rw [hks]
    refine List.pairwise_cons.mpr ⟨fun k hk => ?_, ?_⟩
    · have hle := lastTime_le (setsKey k) past
      rw [hold k hk, lastSet_cons_of_true hset]
      exact Nat.lt_succ_of_le hle
    · refine (ho.sublist hsub).imp_of_mem fun {a b} ha hb hlt => ?_
      rwa [hold a ha, hold b hb]
  · refine (ho.sublist hsub).imp fun {a b} hlt => ?_
    rwa [lastSet_cons_of_false (hset a), lastSet_cons_of_false (hset b)]

theorem getLast_key_iff {ks : List Bytes} (ho : ks.Pairwise fun a b => lastSet past b < lastSet past a)
    {key : Bytes} (hk : key ∈ ks) :
    key ∉ ks.dropLast ↔ ∀ k ∈ ks, k ≠ key → lastSet past key < lastSet past k := by
  obtain ⟨ys, last, rfl⟩ : ∃ ys last, ks = ys ++ [last] :=
    ⟨_, _, (List.dropLast_concat_getLast (List.ne_nil_of_mem hk)).symm⟩
  have hlast : ∀ k ∈ ys, lastSet past last < lastSet past k := by
    intro k hmem
    exact (List.pairwise_append.mp ho).2.2 k hmem last List.mem_cons_self
  rw [List.dropLast_concat]
  simp only [List.mem_append, List.mem_singleton] at hk ⊢
  constructor
  · intro hout k hmem hne
    obtain rfl : key = last := hk.resolve_left hout
    exact hlast k (hmem.resolve_right hne)
  · intro hmin hin
    have hne : last ≠ key := by
      rintro rfl
      exact (hlast last hin).false
    exact (hlast key hin).asymm (hmin last (.inr rfl) hne)

theorem mem_keys {key : Bytes} : key ∈ l.map Entry.key ↔ lookup key l ≠ none := by
  rw [Ne, lookup_eq_none]
  simp

theorem map_key_kept : (kept chainlen l).map Entry.key =
    if l.length ≤ chainlen then l.map Entry.key else (l.map Entry.key).dropLast := by
  unfold kept
  split
  · rfl
  · exact List.map_dropLast ..

/-- A key which a set takes out of its bucket was the last one of a full bucket. -/
theorem gone_iff {key val : Bytes} {timeout : ℤ} {m : SetMallocs} {gone : Bytes} (hg : gone ∈ l.map Entry.key) :
    gone ∉ (callIn chainlen now (.set key val timeout m) l).1.map Entry.key ↔
      InsertsIn l (.set key val timeout m) ∧ chainlen < l.length ∧ gone ∉ (l.map Entry.key).dropLast := by
  by_cases hi : InsertsIn l (.set key val timeout m)
  · obtain ⟨e, he, hput⟩ := @callIn_insert chainlen now _ l hi
    have hne : gone ≠ key := by
      rintro rfl
      exact mem_keys.mp hg hi.2.2.2
    rw [hput, List.map_cons, he, map_key_kept]
    change gone ∉ key :: _ ↔ _
    simp only [List.mem_cons, hne, false_or, hi, true_and]
    split
    · next hle => exact iff_of_false (not_not_intro hg) fun h => by omega
    · next hlt => exact ⟨fun h => ⟨by omega, h⟩, fun h => h.2⟩
  · refine iff_of_false (not_not_intro ?_) fun h => hi h.1
    have h := callIn_reworked chainlen now (.set key val timeout m) l
    generalize (callIn chainlen now (.set key val timeout m) l).1 = l' at h ⊢
    generalize (callIn chainlen now (.set key val timeout m) l).2 = ans at h
    cases h with
    | inserted hl hm => exact absurd ⟨hm.1, hm.2.1, hm.2.2, hl⟩ hi
    | @renewed _ _ _ _ e hl =>
      have hkey : e.key = key := lookup_key hl
      by_cases hk : gone = key
      · exact List.mem_cons.mpr (.inl (hk.trans hkey.symm))
      · refine List.mem_cons_of_mem _ (mem_keys.mpr ?_)
        rw [lookup_remove_of_ne (Ne.symm hk)]
        exact mem_keys.mp hg
    | same => exact hg
    | removed hop => exact absurd rfl (hop key val timeout m)
    | revalued hop => exact absurd rfl (hop key val timeout m)

end Buckets

/-- The cache of a session is well formed, and every chain is in the order of the sets. -/
structure Ordered (s : Session) (reps : ℕ → Cells) : Prop where
  rep : Rep s.cd reps
  len : 0 < s.cd.chainlen
  order : ∀ i < s.cd.hashlen, InSetOrder s.past (contents reps i)

section Steps
variable {s : Session} {reps : ℕ → Cells} {now : ℤ} {op : Op}

theorem Ordered.stored_iff (ho : Ordered s reps) (key : Bytes) : entryOf s.cd key ≠ none ↔
    key ∈ (contents reps (bucket s.cd.hashlen key)).map Entry.key := by
  rw [entryOf_eq ho.rep, mem_keys]

theorem Ordered.mem_bucket_iff (ho : Ordered s reps) {i : ℕ} (hi : i < s.cd.hashlen) (k : Bytes) :
    (bucket s.cd.hashlen k = i ∧ entryOf s.cd k ≠ none) ↔ k ∈ (contents reps i).map Entry.key := by
  constructor
  · rintro ⟨rfl, hstored⟩
    exact (ho.stored_iff k).mp hstored
  · intro h
    obtain ⟨e, he, rfl⟩ := List.mem_map.mp h
    have hhome := (ho.rep.placed i hi).home e he
    refine ⟨hhome, (ho.stored_iff _).mpr ?_⟩
    rwa [hhome]

/-- A call keeps a session in order, and works on the bucket of its key. -/
theorem Ordered.call (ho : Ordered s reps) (now : ℤ) (hf : op.Fresh s.cd) :
    ∃ cd reps', CacheOperations.call s.cd now op =
        some (cd, (callIn s.cd.chainlen now op (contents reps (bucket s.cd.hashlen op.key))).2) ∧
      Ordered (advance s (now, op)) reps' ∧ (advance s (now, op)).cd = cd ∧ cd.hashlen = s.cd.hashlen ∧
      contents reps' = (callOn s.cd.hashlen s.cd.chainlen now op (contents reps)).1 := by
  obtain ⟨cd, reps', hcall, hr, hcont, hhash, hchain, -⟩ := call_refines ho.rep ho.len now hf
  have hadv : advance s (now, op) =
      ⟨cd, (op, (callIn s.cd.chainlen now op (contents reps (bucket s.cd.hashlen op.key))).2) :: s.past⟩ := by
    simp only [advance, hcall]
    rfl
  refine ⟨cd, reps', hcall, ?_, by rw [hadv], hhash, hcont⟩
  rw [hadv]
  refine ⟨hr, ?_, fun i hi => ?_⟩
  · change 0 < cd.chainlen
    rw [hchain]
    exact ho.len
  · change i < cd.hashlen at hi
    rw [hhash] at hi
    rw [hcont]
    by_cases hb : i = bucket s.cd.hashlen op.key
    · rw [hb, callOn_self]
      exact inSetOrder_callIn (ho.rep.placed _ (bucket_lt ho.rep.pos _)).nodup (ho.order _ (bucket_lt ho.rep.pos _))
    · -- the keys of another chain have other hashes
      rw [callOn_of_ne _ _ _ _ _ hb]
      have hold : ∀ {ans}, ∀ k ∈ (contents reps i).map Entry.key, setsKey k (op, ans) = false := by
        intro ans k hk
        obtain ⟨e, he, rfl⟩ := List.mem_map.mp hk
        have hhome := (ho.rep.placed i hi).home e he
        exact setsKey_of_ne (fun heq => hb (by rw [heq, hhome])) _
      refine (ho.order i hi).imp_of_mem fun {a b} ha hb hlt => ?_
      rwa [lastSet_cons_of_false (hold a ha), lastSet_cons_of_false (hold b hb)]

/-- What a `cache_set` evicts is what was set longest ago in a full chain. -/
theorem Ordered.gone_iff {key val : Bytes} {timeout : ℤ} {m : SetMallocs} (ho : Ordered s reps)
    (hf : (Op.set key val timeout m).Fresh s.cd) {cd : Cache} {ans : Answer}
    (hcall : CacheOperations.call s.cd now (.set key val timeout m) = some (cd, ans)) {gone : Bytes}
    (hg : entryOf s.cd gone ≠ none) :
    entryOf cd gone = none ↔ Inserts s.cd (.set key val timeout m) ∧
      bucket s.cd.hashlen gone = bucket s.cd.hashlen key ∧
      (∀ i c, chainFor s.cd key = some (i, c) → s.cd.chainlen < c.len) ∧
      ∀ k, k ≠ gone → bucket s.cd.hashlen k = bucket s.cd.hashlen gone → entryOf s.cd k ≠ none →
        lastSet s.past gone < lastSet s.past k := by
  obtain ⟨cd₁, reps₁, hcall₁, ho₁, hadv, hhash, hcont⟩ := ho.call now hf
  obtain ⟨rfl, -⟩ := Prod.mk.inj (Option.some.inj (hcall₁.symm.trans hcall))
  have hafter : entryOf cd₁ gone = none ↔
      gone ∉ (contents reps₁ (bucket s.cd.hashlen gone)).map Entry.key := by
    rw [← not_iff_not, not_not, ← hhash, ← hadv]
    exact ho₁.stored_iff gone
  have hold := (ho.stored_iff gone).mp hg
  rw [hafter, hcont]
  by_cases hb : bucket s.cd.hashlen gone = bucket s.cd.hashlen key
  · have hlt := bucket_lt ho.rep.pos key
    obtain ⟨c, hat, hc⟩ := ho.rep.chainFor_eq key
    have hlen : (∀ i c, chainFor s.cd key = some (i, c) → s.cd.chainlen < c.len) ↔
        s.cd.chainlen < (contents reps (bucket s.cd.hashlen key)).length := by
      simp only [hat, Option.some.injEq, Prod.mk.injEq, and_imp, forall_apply_eq_imp_iff, forall_eq', contents,
        length_entries, hc.len_eq]
    have hself := callOn_self s.cd.hashlen s.cd.chainlen now (.set key val timeout m) (contents reps)
    simp only [Op.key] at hself
    rw [hb] at hold ⊢
    rw [hself, CacheEvictions.gone_iff hold, inserts_iff ho.rep, hlen, getLast_key_iff (ho.order _ hlt) hold]
    change _ ↔ InsertsIn (contents reps (bucket s.cd.hashlen key)) _ ∧ _
    simp only [← ho.mem_bucket_iff hlt, and_imp, true_and]
    exact ⟨fun h => ⟨h.1, h.2.1, fun k hne hk hs => h.2.2 k hk hs hne⟩,
      fun h => ⟨h.1, h.2.1, fun k hk hs hne => h.2.2 k hne hk hs⟩⟩
  · rw [callOn_of_ne _ _ _ (.set key val timeout m) _ hb]
    exact iff_of_false (not_not_intro hold) fun h => hb h.2.1

/-- Among the entries of a full chain the one to go is the least recently used exactly when it was not
read since another one was used. -/
theorem Ordered.leastRecent_iff (ho : Ordered s reps) (hf : op.Fresh s.cd) :
    EvictsLeastRecent s (now, op) ↔ OldestUnread s (now, op) := by
  constructor
  · intro h hi i c hat hfull oldest hb hstored hmin k hne hk hs
    cases op with
    | set key val timeout m =>
      have hi' : i = bucket s.cd.hashlen key := (chainFor_some hat).2.1
      rw [hi'] at hb hmin hk
      obtain ⟨cd, reps', hcall, -⟩ := ho.call now hf
      have hgone : entryOf cd oldest = none := by
        refine (ho.gone_iff hf hcall hstored).mpr ⟨hi, hb, fun j d hat' => ?_, fun k' hne' hk' => ?_⟩
        · obtain ⟨-, rfl⟩ := Prod.mk.inj (Option.some.inj (hat.symm.trans hat'))
          exact hfull
        · exact hmin k' hne' (hk'.trans hb)
      have huse := h key val timeout m rfl cd _ hcall oldest hstored hgone k hne (hk.trans hb.symm) hs
      rw [lastUse_eq s.past oldest] at huse
      exact (max_lt_iff.mp huse).2
    | get key => exact hi.elim
    | del key => exact hi.elim
    | cas key oldval newval alloc => exact hi.elim
    | incr key increment alloc o => exact hi.elim
  · rintro h key val timeout m rfl cd ans hcall gone hstored hgone k hne hk hs
    obtain ⟨hi, hb, hfull, hmin⟩ := (ho.gone_iff hf hcall hstored).mp hgone
    obtain ⟨c, hat, -⟩ := ho.rep.chainFor_eq key
    have hset := hmin k hne hk hs
    have hget := h hi _ c hat (hfull _ _ hat) gone hb hstored (fun k' hne' hk' => hmin k' hne' (hk'.trans hb.symm))
      k hne (hk.trans hb) hs
    rw [lastUse_eq s.past k] at hget ⊢
    rw [lastUse_eq]
    exact max_lt (hset.trans_le (le_max_left ..)) hget

end Steps

/-- The allocator keeps its guarantee along the sessions of a run. -/
theorem guarded_fresh {s : Session} {reps : ℕ → Cells} (ho : Ordered s reps) {ops : List (ℤ × Op)}
    (hf : FreshCalls s.cd ops) : Guarded advance (fun s step => step.2.Fresh s.cd) s ops := by
  induction ops generalizing s reps with
  | nil => trivial
  | cons step ops ih =>
    obtain ⟨now, op⟩ := step
    obtain ⟨cd, reps', hcall, ho', rfl, -⟩ := ho.call now hf.1
    exact ⟨hf.1, ih ho' (hf.2 _ _ hcall)⟩

/-- A run of a new cache evicts the least recently used entry every time exactly when, at each
eviction, the entry of the chain set longest ago was not read since another one was used. -/
theorem evictsLeastRecent_iff {numobjs : ℕ} {cdOk tableOk : Bool} {cd : Cache}
    (hc : cacheCreate numobjs cdOk tableOk = some (some cd)) {ops : List (ℤ × Op)} (hf : FreshCalls cd ops) :
    Guarded advance EvictsLeastRecent ⟨cd, []⟩ ops ↔ Guarded advance OldestUnread ⟨cd, []⟩ ops := by
  by_cases hn : 4 ≤ numobjs
  · obtain ⟨hr, -, hlen⟩ := rep_initial hn hc
    have hpos : 0 < cd.chainlen := by omega
    have ho : Ordered ⟨cd, []⟩ fun _ => [] := ⟨hr, hpos, fun i _ => .nil⟩
    refine guarded_congr (I := fun s => ∃ reps, Ordered s reps) ?_ ?_ ⟨_, ho⟩ (guarded_fresh ho hf)
    · rintro s ⟨now, op⟩ ⟨reps, ho⟩ hfresh
      obtain ⟨cd', reps', -, ho', -⟩ := ho.call now hfresh
      exact ⟨reps', ho'⟩
    · rintro s ⟨now, op⟩ ⟨reps, ho⟩ hfresh
      exact ho.leastRecent_iff hfresh
  · -- without a chain every call faults
    have hzero : cd.hashlen = 0 := by
      rw [cacheCreate_eq hc]
      exact Nat.div_eq_of_lt (by omega)
    have hstep : ∀ (s : Session) (step : ℤ × Op), s.cd.hashlen = 0 → (advance s step).cd.hashlen = 0 := by
      intro s step hs
      rwa [advance, call_no_table hs]
    refine guarded_congr (I := fun s => s.cd.hashlen = 0) (F := fun _ _ => True) (fun s step hs _ => hstep s step hs)
      ?_ hzero (Guarded.of_forall (fun _ _ _ => trivial) _)
    rintro s ⟨now, op⟩ hs -
    refine iff_of_true ?_ ?_
    · rintro key val timeout m - cd' ans hcall
      rw [call_no_table hs] at hcall
      cases hcall
    · intro _ i c hat
      exact absurd (chainFor_some hat).2.2 (by omega)

/-- A sixth key, which makes the only chain of the cache evict one of `fiveSets`. -/
def sixthSet : ℤ × Op := (2, .set [102] [1] 0 ⟨some 5, true, true⟩)

private theorem freshCalls_sets {tail : List (ℤ × Op)}
    (ht : FreshCalls (fiveSets.foldl after ⟨4, 1, 4, [⟨0, none, none⟩], fun _ => none⟩) tail) :
    FreshCalls ⟨4, 1, 4, [⟨0, none, none⟩], fun _ => none⟩ (fiveSets ++ tail) := by
  unfold fiveSets at ht ⊢
  iterate 5
    refine ⟨fun a ha => by cases ha; rfl, fun cd ans hcall => ?_⟩
    cases hcall
  exact ht

/-- Without reads the entry set longest ago goes. -/
theorem evictsLeastRecent_sets :
    Guarded advance EvictsLeastRecent ⟨⟨4, 1, 4, [⟨0, none, none⟩], fun _ => none⟩, []⟩
      (fiveSets ++ [sixthSet]) := by
  have hcreate : cacheCreate 4 true true = some (some ⟨4, 1, 4, [⟨0, none, none⟩], fun _ => none⟩) := rfl
  have hfresh : FreshCalls ⟨4, 1, 4, [⟨0, none, none⟩], fun _ => none⟩ (fiveSets ++ [sixthSet]) :=
    freshCalls_sets ⟨fun a ha => by cases ha; rfl, fun _ _ _ => trivial⟩
  refine (evictsLeastRecent_iff hcreate hfresh).mpr ⟨?_, ?_, ?_, ?_, ?_, ?_, trivial⟩
  iterate 5
    intro _ i c hat hfull
    cases hat
    exact absurd hfull (by decide)
  intro _ i c hat hfull oldest hb hs hmin k hne hk hsk
  rw [lastUse_eq]
  exact (Nat.zero_le _).trans_lt (hmin k hne hk hsk) |>.trans_le (le_max_left ..)

/-- The key `a` is read right before the chain overflows, and it is `a` that goes. -/
theorem evicts_just_read :
    ∃ cd, cacheCreate 4 true true = some (some cd) ∧
      FreshCalls cd (fiveSets ++ [(1, .get [97]), sixthSet]) ∧
      ¬ Guarded advance EvictsLeastRecent ⟨cd, []⟩ (fiveSets ++ [(1, .get [97]), sixthSet]) := by
  refine ⟨_, rfl, freshCalls_sets ⟨trivial, fun cd ans hcall => ?_⟩, fun h => ?_⟩
  · cases hcall
    exact ⟨fun a ha => by cases ha; rfl, fun _ _ _ => trivial⟩
  · obtain ⟨-, -, -, -, -, -, h, -⟩ := h
    have hlt := h [102] [1] 0 ⟨some 5, true, true⟩ rfl _ _ rfl [97] (Option.isSome_iff_ne_none.mp rfl) rfl [98]
      (by decide) rfl (Option.isSome_iff_ne_none.mp rfl)
    exact absurd hlt (by decide)

end Cmoon.CacheEvictions
