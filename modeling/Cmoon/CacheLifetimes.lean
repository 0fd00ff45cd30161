import Cmoon.CacheInvariant

/-! # How long a cached value lives

An entry expires by the `expire` field it was created with. `cache_set` fills the
field for a new entry and leaves it alone when it overwrites a value in place. -/
namespace Cmoon.CacheLifetimes
open DecimalText OneAtATimeHash DoublyLinkedLists CacheOperations CacheRefinement CacheInvariant

theorem expired_mono {now t : ℤ} (ht : now ≤ t) {e : Entry} (he : expired now e = true) :
    expired t e = true := by
  simp only [expired, Bool.and_eq_true, decide_eq_true_eq] at he ⊢
  omega

/-- What a get at `t` makes of an entry. -/
def alive (t : ℤ) (o : Option Entry) : Option Entry := o.filter fun e => !expired t e

@[simp] theorem alive_none (t : ℤ) : alive t none = none := rfl

theorem alive_of_expired {t : ℤ} {e : Entry} (hx : expired t e = true) : alive t (some e) = none := by
  simp [alive, hx]

theorem alive_of_not_expired {t : ℤ} {e : Entry} (hx : expired t e = false) :
    alive t (some e) = some e := Option.filter_some_pos (by simp [hx])

theorem alive_alive {now t : ℤ} (ht : now ≤ t) (o : Option Entry) : alive t (alive now o) = alive t o := by
  cases o with
  | none => rfl
  | some e =>
    cases hx : expired now e
    · rw [alive_of_not_expired hx]
    · rw [alive_of_expired hx, alive_of_expired (expired_mono ht hx), alive_none]

section Buckets
variable {key : Bytes} {l : List Entry}

theorem lookup_cons_of_ne {e : Entry} (he : e.key ≠ key) : lookup key (e :: l) = lookup key l := by
  simp [lookup, hasKey, he]

theorem lookup_cons_self {e : Entry} (he : e.key = key) : lookup key (e :: l) = some e := by
  simp [lookup, hasKey, he]

theorem lookup_remove_of_ne {other : Bytes} (hk : other ≠ key) :
    lookup key (remove other l) = lookup key l := by
  induction l with
  | nil => rfl
  | cons e l ih =>
    by_cases he : e.key = other
    · rw [remove, List.eraseP_cons_of_pos (by simp [hasKey, he])]
      exact (lookup_cons_of_ne (he ▸ hk)).symm
    · rw [remove, List.eraseP_cons_of_neg (by simp [hasKey, he])]
      by_cases hek : e.key = key
      · rw [lookup_cons_self hek, lookup_cons_self hek]
      · rw [lookup_cons_of_ne hek, lookup_cons_of_ne hek]
        exact ih

theorem lookup_remove_self (hn : (l.map Entry.key).Nodup) : lookup key (remove key l) = none :=
  lookup_eq_none.mpr (remove_key hn)

theorem lookup_revalue_of_ne {other : Bytes} (hk : other ≠ key) (val : Bytes) :
    lookup key (revalue other val l) = lookup key l := by
  induction l with
  | nil => rfl
  | cons e l ih =>
    change lookup key ((if hasKey other e then { e with val := val } else e) :: revalue other val l) = _
    by_cases hek : e.key = key
    · have hother : hasKey other e = false := by simp [hasKey, hek, Ne.symm hk]
      rw [hother, lookup_cons_self hek]
      exact lookup_cons_self hek
    · rw [lookup_cons_of_ne hek, lookup_cons_of_ne (by split <;> exact hek)]
      exact ih

/-- An eviction loses a key or leaves its entry as it was. -/
theorem lookup_kept (chainlen : ℕ) (key : Bytes) (l : List Entry) :
    lookup key (kept chainlen l) = lookup key l ∨ lookup key (kept chainlen l) = none := by
  unfold kept
  split
  · exact .inl rfl
  · cases hd : lookup key l.dropLast with
    | none => exact .inr rfl
    | some e =>
      left
      have hne : l ≠ [] := by
        rintro rfl
        cases hd
      rw [← List.dropLast_concat_getLast hne, lookup, List.find?_append]
      change _ = ((lookup key l.dropLast).or _)
      rw [hd, Option.some_or]

/-- A call on another key keeps the entry of this one, or loses it by eviction. -/
theorem lookup_callIn_of_ne (chainlen : ℕ) (now : ℤ) {op : Op} (hk : op.key ≠ key) (l : List Entry) :
    lookup key (callIn chainlen now op l).1 = lookup key l ∨
      lookup key (callIn chainlen now op l).1 = none := by
  have h := callIn_reworked chainlen now op l
  generalize (callIn chainlen now op l).1 = l' at h ⊢
  generalize (callIn chainlen now op l).2 = ans at h
  cases h with
  | inserted hl hm =>
    rw [lookup_cons_of_ne hk]
    exact lookup_kept chainlen key l
  | renewed hl =>
    left
    rw [lookup_cons_of_ne (lookup_key hl ▸ hk)]
    exact lookup_remove_of_ne hk
  | same => exact .inl rfl
  | removed => exact .inl (lookup_remove_of_ne hk)
  | revalued hop val => exact .inl (lookup_revalue_of_ne hk val)

theorem lookup_getIn {now : ℤ} (hn : (l.map Entry.key).Nodup) :
    lookup key (getIn now key l).1 = alive now (lookup key l) := by
  unfold getIn
  cases hl : lookup key l with
  | none => exact hl
  | some e =>
    cases hx : expired now e
    · simpa [hx, alive_of_not_expired] using hl
    · simpa [hx, alive_of_expired] using lookup_remove_self hn

theorem getIn_snd (now : ℤ) (key : Bytes) (l : List Entry) :
    (getIn now key l).2 = (alive now (lookup key l)).map Entry.val := by
  unfold getIn
  cases lookup key l with
  | none => rfl
  | some e => cases hx : expired now e <;> simp [hx, alive_of_expired, alive_of_not_expired]

theorem lookup_setIn {chainlen : ℕ} {now timeout : ℤ} {val : Bytes} {m : SetMallocs}
    (hs : (setIn chainlen now key val timeout m l).2 = 1) :
    lookup key (setIn chainlen now key val timeout m l).1 =
      some ⟨key, val, ((lookup key l).map Entry.expire).getD (expiry now timeout)⟩ := by
  unfold setIn at hs ⊢
  cases hl : lookup key l with
  | none =>
    simp only [hl] at hs ⊢
    split at hs
    · next hm =>
      rw [if_pos hm]
      exact lookup_cons_self rfl
    · cases hs
  | some e =>
    have hkey : e.key = key := lookup_key hl
    simp only [hl] at hs ⊢
    split at hs
    · next hm =>
      rw [if_pos hm, ← hkey]
      exact lookup_cons_self rfl
    · cases hs

end Buckets

/-- The entry which `find_in_cache` finds. -/
def entryOf (cd : Cache) (key : Bytes) : Option Entry :=
  (findInCache cd key).join.bind fun a => (cd.heap a).map Node.val

theorem findInCache_eq_none {cd : Cache} {reps : ℕ → Cells} (hr : Rep cd reps) (key : Bytes) :
    findInCache cd key = some none ↔ lookup key (contents reps (bucket cd.hashlen key)) = none := by
  obtain ⟨c, hat, hc⟩ := hr.chainFor_eq key
  rw [findInCache_eq hat hc, contents]
  cases hf : ((reps (bucket cd.hashlen key)).find? fun q => hasKey key q.2).map Prod.fst with
  | none => simp [(find_none hf).1]
  | some a =>
    obtain ⟨xs, e, ys, -, -, hlook, -⟩ := find_some hf
    simp [hlook]

theorem entryOf_eq {cd : Cache} {reps : ℕ → Cells} (hr : Rep cd reps) (key : Bytes) :
    entryOf cd key = lookup key (contents reps (bucket cd.hashlen key)) := by
  obtain ⟨c, hat, hc⟩ := hr.chainFor_eq key
  rw [entryOf, findInCache_eq hat hc, contents]
  cases hf : ((reps (bucket cd.hashlen key)).find? fun q => hasKey key q.2).map Prod.fst with
  | none => simp [(find_none hf).1]
  | some a =>
    obtain ⟨xs, e, ys, has, -, hlook, -⟩ := find_some hf
    rw [hlook]
    rw [has] at hc
    simp [hc.chain.seg.cell]

/-- Calls between which nobody sets, deletes, cas-es or increments `key` nor evicts it; the
gets of `key` among them come no later than `t`. -/
def LeftAlone (key : Bytes) (t : ℤ) : Cache → List (ℤ × Op) → Prop
  | _, [] => True
  | cd, (now, op) :: ops =>
    (op.key = key → op = .get key ∧ now ≤ t) ∧
    ∀ cd' ans, call cd now op = some (cd', ans) →
      (op.key ≠ key → entryOf cd key ≠ none → entryOf cd' key ≠ none) ∧ LeftAlone key t cd' ops

/-- One call of such a sequence: the entry stays, or a get finds it expired. -/
theorem entryOf_call {cd cd' : Cache} {reps reps' : ℕ → Cells} (hr : Rep cd reps) (hr' : Rep cd' reps')
    {now t : ℤ} {op : Op} {key : Bytes}
    (hc : contents reps' = (callOn cd.hashlen cd.chainlen now op (contents reps)).1)
    (hhash : cd'.hashlen = cd.hashlen) (hget : op.key = key → op = .get key ∧ now ≤ t)
    (hkeep : op.key ≠ key → entryOf cd key ≠ none → entryOf cd' key ≠ none) :
    alive t (entryOf cd' key) = alive t (entryOf cd key) := by
  have hafter : entryOf cd' key =
      lookup key ((callOn cd.hashlen cd.chainlen now op (contents reps)).1 (bucket cd.hashlen key)) := by
    rw [entryOf_eq hr', hc, hhash]
  by_cases hk : op.key = key
  · obtain ⟨rfl, hle⟩ := hget hk
    have hn := (hr.placed _ (bucket_lt hr.pos key)).nodup
    have hgot : entryOf cd' key = alive now (entryOf cd key) := by
      rw [hafter, callOn, entryOf_eq hr]
      simp only [Op.key, Function.update_self, callIn, Prod.map_fst, id_eq]
      exact lookup_getIn hn
    rw [hgot, alive_alive hle]
  · have hcases : entryOf cd' key = entryOf cd key ∨ entryOf cd' key = none := by
      rw [hafter, callOn, entryOf_eq hr]
      by_cases hb : bucket cd.hashlen key = bucket cd.hashlen op.key
      · simp only [hb, Function.update_self]
        exact lookup_callIn_of_ne cd.chainlen now hk _
      · left
        simp only [Function.update_of_ne hb]
    rcases hcases with he | he
    · rw [he]
    · cases hbefore : entryOf cd key with
      | none => rw [he]
      | some e => exact absurd he (hkeep hk (by simp [hbefore]))

/-- While a key is left alone, what a get at `t` will find does not change. -/
theorem entryOf_calls {cd : Cache} {reps : ℕ → Cells} (hr : Rep cd reps) (hlen : 0 < cd.chainlen)
    {key : Bytes} {t : ℤ} {ops : List (ℤ × Op)} (hf : FreshCalls cd ops) (hl : LeftAlone key t cd ops) :
    ∃ cd' reps', calls cd ops = some cd' ∧ Rep cd' reps' ∧ 0 < cd'.chainlen ∧
      alive t (entryOf cd' key) = alive t (entryOf cd key) := by
  induction ops generalizing cd reps with
  | nil => exact ⟨cd, reps, rfl, hr, hlen, rfl⟩
  | cons step ops ih =>
    obtain ⟨now, op⟩ := step
    obtain ⟨cd₁, reps₁, hcall, hr₁, hcont, hhash, hchain, -⟩ := call_refines hr hlen now hf.1
    obtain ⟨hkeep, hl₁⟩ := hl.2 _ _ hcall
    obtain ⟨cd', reps', hcalls, hr', hlen', hent⟩ := ih hr₁ (hchain ▸ hlen) (hf.2 _ _ hcall) hl₁
    refine ⟨cd', reps', ?_, hr', hlen', hent.trans ?_⟩
    · rw [calls, hcall]
      exact hcalls
    · exact entryOf_call hr hr₁ hcont hhash hl.1 hkeep

theorem cacheGet_eq {cd : Cache} {reps : ℕ → Cells} (hr : Rep cd reps) (t : ℤ) (key : Bytes) :
    ∃ cd', cacheGet cd t key = some (cd', (alive t (entryOf cd key)).map Entry.val) := by
  obtain ⟨c, hat, hc⟩ := hr.chainFor_eq key
  obtain ⟨cd', hget, -⟩ := cacheGet_done hat hc t
  refine ⟨cd', ?_⟩
  rw [hget, getIn_snd, entryOf_eq hr, contents]

/-- The entry a successful `cache_set` leaves. -/
theorem entryOf_cacheSet {cd cd₁ : Cache} {reps : ℕ → Cells} (hr : Rep cd reps)
    (hlen : 0 < cd.chainlen) {now timeout : ℤ} {key val : Bytes} {m : SetMallocs}
    (hm : (Op.set key val timeout m).Fresh cd) (hs : cacheSet cd now key val timeout m = some (cd₁, 1)) :
    ∃ reps₁, Rep cd₁ reps₁ ∧ 0 < cd₁.chainlen ∧ entryOf cd₁ key =
      some ⟨key, val, ((entryOf cd key).map Entry.expire).getD (expiry now timeout)⟩ := by
  obtain ⟨cd', reps₁, hcall, hr₁, hcont, hhash, hchain, -⟩ := call_refines hr hlen now hm
  have hone : cd' = cd₁ ∧
      (setIn cd.chainlen now key val timeout m (contents reps (bucket cd.hashlen key))).2 = 1 := by
    simpa [call, hs, callOn, callIn, Op.key, eq_comm] using hcall
  obtain ⟨rfl, hsucc⟩ := hone
  refine ⟨reps₁, hr₁, hchain ▸ hlen, ?_⟩
  rw [entryOf_eq hr₁, hcont, hhash, entryOf_eq hr]
  simp only [callOn, callIn, Op.key, Function.update_self]
  exact lookup_setIn hsucc

/-- After a successful `cache_set` at `now`, a get at any later `t` finds the value until it
times out and misses from then on, whatever else happened to the cache in between. -/
def Governs (cd : Cache) (now : ℤ) (key val : Bytes) (timeout : ℤ) (m : SetMallocs) : Prop :=
  ∀ cd₁, cacheSet cd now key val timeout m = some (cd₁, 1) →
    ∀ ops t, now ≤ t → FreshCalls cd₁ ops → LeftAlone key t cd₁ ops →
      ∃ cd₂ cd₃ v, calls cd₁ ops = some cd₂ ∧ cacheGet cd₂ t key = some (cd₃, v) ∧
        (timeout = 0 ∨ t ≤ now + timeout → v = some val) ∧
        (0 < timeout → now + timeout < t → v = none)

/-- The requested lifetime is the one the entry will have: nothing is asked for, the key is
new and its expiry a positive clock value, or the old entry happens to have that expiry. -/
def LifetimeTaken (cd : Cache) (now : ℤ) (key : Bytes) (timeout : ℤ) : Prop :=
  timeout < 0 ∨
  match entryOf cd key with
  | none => 0 < timeout → 0 < now + timeout
  | some e => if timeout = 0 then e.expire ≤ 0 else e.expire = now + timeout ∧ 0 < e.expire

def Reachable (numobjs : ℕ) (cd : Cache) : Prop :=
  ∃ cd₀ ops, cacheCreate numobjs true true = some (some cd₀) ∧ FreshCalls cd₀ ops ∧
    calls cd₀ ops = some cd

theorem Reachable.rep {numobjs : ℕ} (hn : 4 ≤ numobjs) {cd : Cache} (hr : Reachable numobjs cd) :
    ∃ reps, Rep cd reps ∧ 0 < cd.chainlen := by
  obtain ⟨cd₀, ops, hc, hf, hcalls⟩ := hr
  obtain ⟨hr₀, -, hlen₀⟩ := rep_initial hn hc
  obtain ⟨cd', reps, hcalls', hr', -, -, hlen'⟩ := calls_refine hr₀ (by omega) hf
  obtain rfl : cd' = cd := Option.some.inj (hcalls'.symm.trans hcalls)
  exact ⟨reps, hr', by omega⟩

/-- The clock values at which an expiry of `x` answers as a lifetime of `timeout` should. -/
private theorem expiry_serves_iff (now timeout x : ℤ) :
    (∀ t, now ≤ t → (timeout = 0 ∨ t ≤ now + timeout → ¬ (0 < x ∧ x < t)) ∧
        (0 < timeout → now + timeout < t → 0 < x ∧ x < t)) ↔
      timeout < 0 ∨ (timeout = 0 ∧ x ≤ 0) ∨ (0 < timeout ∧ x = now + timeout ∧ 0 < x) := by
  constructor
  · intro h
    -- the first clock value past the expiry, and the first one past the requested lifetime
    have h₁ := (h (max now (x + 1)) (le_max_left ..)).1
    have h₂ := (h (max now (now + timeout + 1)) (le_max_left ..)).2
    rcases lt_trichotomy timeout 0 with hneg | h0 | hpos
    · exact .inl hneg
    · have := h₁ (.inl h0)
      omega
    · have hlate := h₂ hpos (by omega)
      have hle : ¬ x + 1 ≤ now + timeout := fun hx => h₁ (.inr (by omega)) (by omega)
      omega
  · rintro (hneg | ⟨h0, hx⟩ | ⟨hpos, hx, hx0⟩) t ht
    · exact ⟨by omega, by omega⟩
    · exact ⟨by omega, by omega⟩
    · exact ⟨by omega, by omega⟩

private theorem lifetimeTaken_iff (cd : Cache) (now : ℤ) (key : Bytes) (timeout x : ℤ)
    (hx : x = ((entryOf cd key).map Entry.expire).getD (expiry now timeout)) :
    LifetimeTaken cd now key timeout ↔
      timeout < 0 ∨ (timeout = 0 ∧ x ≤ 0) ∨ (0 < timeout ∧ x = now + timeout ∧ 0 < x) := by
  unfold LifetimeTaken
  cases hold : entryOf cd key with
  | none =>
    simp only [hold, Option.map_none, Option.getD_none, expiry] at hx ⊢
    split at hx <;> omega
  | some e =>
    simp only [hold, Option.map_some, Option.getD_some] at hx ⊢
    split <;> omega

/-- The get after a successful `cache_set` and a history which leaves the key alone. -/
private theorem cacheGet_after {cd cd₁ : Cache} {reps : ℕ → Cells} (hr : Rep cd reps)
    (hlen : 0 < cd.chainlen) {now timeout t : ℤ} {key val : Bytes} {m : SetMallocs}
    (hm : (Op.set key val timeout m).Fresh cd) (hs : cacheSet cd now key val timeout m = some (cd₁, 1))
    {e : Entry} (he : e = ⟨key, val, ((entryOf cd key).map Entry.expire).getD (expiry now timeout)⟩)
    {ops : List (ℤ × Op)} (hf : FreshCalls cd₁ ops) (hl : LeftAlone key t cd₁ ops) :
    ∃ cd₂ cd₃, calls cd₁ ops = some cd₂ ∧
      cacheGet cd₂ t key = some (cd₃, if expired t e then none else some val) := by
  obtain ⟨reps₁, hr₁, hlen₁, hent⟩ := entryOf_cacheSet hr hlen hm hs
  obtain ⟨cd₂, reps₂, hcalls, hr₂, -, hsame⟩ := entryOf_calls hr₁ hlen₁ hf hl
  obtain ⟨cd₃, hgot⟩ := cacheGet_eq hr₂ t key
  refine ⟨cd₂, cd₃, hcalls, ?_⟩
  rw [hgot, hsame, hent, ← he]
  have hval : e.val = val := by rw [he]
  cases hx : expired t e
  · simp [alive_of_not_expired hx, hval]
  · simp [alive_of_expired hx]

theorem governs_iff {numobjs : ℕ} (hn : 4 ≤ numobjs) {cd cd₁ : Cache} (hr : Reachable numobjs cd)
    {now timeout : ℤ} {key val : Bytes} {m : SetMallocs} (hm : (Op.set key val timeout m).Fresh cd)
    (hs : cacheSet cd now key val timeout m = some (cd₁, 1)) :
    Governs cd now key val timeout m ↔ LifetimeTaken cd now key timeout := by
  obtain ⟨reps, hrep, hlen⟩ := hr.rep hn
  obtain ⟨e, he⟩ : ∃ e : Entry,
      e = ⟨key, val, ((entryOf cd key).map Entry.expire).getD (expiry now timeout)⟩ := ⟨_, rfl⟩
  have hexp : ∀ t, expired t e = true ↔ 0 < e.expire ∧ e.expire < t := by simp [expired]
  have hx : e.expire = ((entryOf cd key).map Entry.expire).getD (expiry now timeout) := by rw [he]
  rw [lifetimeTaken_iff cd now key timeout e.expire hx, ← expiry_serves_iff]
  constructor
  · intro hg t ht
    obtain ⟨cd₂, cd₃, v, hcalls, hv, hhit, hmiss⟩ := hg cd₁ hs [] t ht trivial trivial
    have hfresh : FreshCalls cd₁ [] := trivial
    have hleft : LeftAlone key t cd₁ [] := trivial
    obtain ⟨cd₂', cd₃', hcalls', hv'⟩ := cacheGet_after hrep hlen hm hs he hfresh hleft
    obtain rfl : cd₂' = cd₂ := Option.some.inj (hcalls'.symm.trans hcalls)
    obtain ⟨-, rfl⟩ := Prod.mk.inj (Option.some.inj (hv.symm.trans hv'))
    rw [← hexp]
    refine ⟨fun h hx => ?_, fun h₁ h₂ => ?_⟩
    · simpa [hx] using hhit h
    · by_contra hx
      simpa [hx] using hmiss h₁ h₂
  · intro h cd₁' hs' ops t ht hf hleft
    obtain rfl : cd₁ = cd₁' := (Prod.mk.inj (Option.some.inj (hs.symm.trans hs'))).1
    obtain ⟨cd₂, cd₃, hcalls, hv⟩ := cacheGet_after hrep hlen hm hs he hf hleft
    refine ⟨cd₂, cd₃, _, hcalls, hv, fun hhit => ?_, fun hpos hlate => ?_⟩
    · rw [if_neg (mt (hexp t).mp ((h t ht).1 hhit))]
    · rw [if_pos ((hexp t).mpr ((h t ht).2 hpos hlate))]

/-- A new key with a positive timeout lives as long as it was asked to. -/
theorem governs_new_key :
    Governs ⟨4, 1, 4, [⟨0, none, none⟩], fun _ => none⟩ 100 [107] [1] 10 ⟨some 0, true, true⟩ := by
  have hreach : Reachable 4 ⟨4, 1, 4, [⟨0, none, none⟩], fun _ => none⟩ := ⟨_, [], rfl, trivial, rfl⟩
  have hset : cacheSet ⟨4, 1, 4, [⟨0, none, none⟩], fun _ => none⟩ 100 [107] [1] 10 ⟨some 0, true, true⟩ =
      some (⟨4, 1, 4, [⟨1, some 0, some 0⟩],
        Function.update (fun _ => none) 0 (some ⟨⟨[107], [1], 110⟩, none, none⟩)⟩, 1) := rfl
  have hnew : entryOf ⟨4, 1, 4, [⟨0, none, none⟩], fun _ => none⟩ [107] = none := rfl
  refine (governs_iff (le_refl 4) hreach (fun _ _ => rfl) hset).mpr (.inr ?_)
  rw [hnew]
  decide

/-- A value stored for ten seconds, then overwritten to live forever: it still dies. -/
theorem not_governs_overwrite :
    ∃ cd cd₁, Reachable 4 cd ∧ (Op.set [107] [2] 0 ⟨none, true, true⟩).Fresh cd ∧
      cacheSet cd 105 [107] [2] 0 ⟨none, true, true⟩ = some (cd₁, 1) ∧
      ¬ Governs cd 105 [107] [2] 0 ⟨none, true, true⟩ := by
  have hreach : Reachable 4 ⟨4, 1, 4, [⟨1, some 0, some 0⟩],
      Function.update (fun _ => none) 0 (some ⟨⟨[107], [1], 110⟩, none, none⟩)⟩ :=
    ⟨⟨4, 1, 4, [⟨0, none, none⟩], fun _ => none⟩, [(100, .set [107] [1] 10 ⟨some 0, true, true⟩)], rfl,
      ⟨fun _ _ => rfl, fun _ _ _ => trivial⟩, rfl⟩
  refine ⟨_, _, hreach, nofun, rfl, fun hg => ?_⟩
  obtain ⟨cd₂, cd₃, v, hcalls, hget, hhit, -⟩ := hg _ rfl [] 200 (by decide) trivial trivial
  obtain rfl : some [2] = v := (hhit (.inl rfl)).symm
  cases hcalls
  cases hget

end Cmoon.CacheLifetimes
