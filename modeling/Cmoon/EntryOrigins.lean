import Cmoon.CacheStores

/-! # What holds of all entries of a cache

Where something is true of every entry, a call keeps it true, if it is true of the entry that the call puts in. -/
namespace Cmoon.EntryOrigins
open DecimalText OneAtATimeHash CacheOperations CacheRefinement CacheInvariant CacheLifetimes CacheStores

/-- A well formed cache, in which each entry is one that its key may have. -/
structure Holding (P : Bytes → Entry → Prop) (cd : Cache) : Prop where
  rep : ∃ reps, Rep cd reps
  pos : 0 < cd.chainlen
  entry : ∀ key e, entryOf cd key = some e → P key e

variable {P Q : Bytes → Entry → Prop} {cd : Cache} {now : ℤ} {key : Bytes}

theorem holding_new {numobjs : ℕ} (hn : 4 ≤ numobjs) {cdOk tableOk : Bool}
    (hcreate : cacheCreate numobjs cdOk tableOk = some (some cd)) : Holding P cd := by
  obtain ⟨hr, -, hlen⟩ := rep_initial hn hcreate
  refine ⟨⟨_, hr⟩, by omega, fun key e he => ?_⟩
  rw [entryOf_eq hr] at he
  cases he

theorem Holding.imp (h : Holding P cd) (hPQ : ∀ key e, P key e → Q key e) : Holding Q cd :=
  ⟨h.rep, h.pos, fun key e he => hPQ key e (h.entry key e he)⟩

/-- After a call, the entries of the other keys are old ones. -/
theorem Holding.call (h : Holding P cd) {op : Op} (hf : op.Fresh cd) (now : ℤ)
    (hself : ∀ reps, Rep cd reps → ∀ e,
      lookup op.key (callIn cd.chainlen now op (contents reps (bucket cd.hashlen op.key))).1 = some e → Q op.key e)
    (hother : ∀ key e, op.key ≠ key → P key e → Q key e) :
    ∃ cd' reps, Rep cd reps ∧ CacheOperations.call cd now op =
        some (cd', (callOn cd.hashlen cd.chainlen now op (contents reps)).2) ∧ Holding Q cd' := by
  obtain ⟨reps, hr⟩ := h.rep
  obtain ⟨cd', reps', hcall, hr', hcont, hhash, hchain, -⟩ := call_refines hr h.pos now hf
  refine ⟨cd', reps, hr, hcall, ⟨reps', hr'⟩, hchain ▸ h.pos, fun key e he => ?_⟩
  by_cases hk : op.key = key
  · subst hk
    exact hself reps hr e ((entryOf_call_self hr' hcont hhash).symm.trans he)
  · rcases entryOf_call_of_ne hr hr' hcont hhash hk with hsame | hnone
    · exact hother key e hk (h.entry key e (hsame.symm.trans he))
    · cases hnone.symm.trans he

/-- A hit is the value of an entry that has not expired; after a miss there is none. -/
theorem Holding.get (h : Holding P cd) (now : ℤ) (key : Bytes) :
    ∃ cd' val, cacheGet cd now key = some (cd', val) ∧ Holding P cd' ∧
      (∀ v, val = some v → ∃ e, P key e ∧ e.val = v ∧ expired now e = false) ∧
      (val = none → entryOf cd' key = none) := by
  have halive : ∀ {o e}, alive now o = some e → o = some e ∧ expired now e = false := by
    intro o e he
    obtain ⟨ho, hx⟩ := Option.filter_eq_some_iff.mp he
    exact ⟨ho, by simpa using hx⟩
  obtain ⟨reps, hr⟩ := h.rep
  have hn := (hr.placed _ (bucket_lt hr.pos key)).nodup
  have hfresh : (Op.get key).Fresh cd := trivial
  obtain ⟨cd', reps', hcall, hr', hcont, hhash, hchain, -⟩ := call_refines hr h.pos now hfresh
  have hself : entryOf cd' key = alive now (entryOf cd key) := by
    rw [entryOf_eq hr key]
    exact (entryOf_call_self hr' hcont hhash).trans (lookup_getIn hn)
  have hget : cacheGet cd now key = some (cd', (alive now (entryOf cd key)).map Entry.val) := by
    obtain ⟨⟨cd₁, val⟩, hg, heq⟩ := Option.map_eq_some_iff.mp hcall
    obtain rfl : cd₁ = cd' := (Prod.mk.inj heq).1
    obtain ⟨cd₂, hcd₂⟩ := cacheGet_eq hr now key
    rw [hcd₂] at hg
    obtain rfl : cd₂ = cd₁ := (Prod.mk.inj (Option.some.inj hg)).1
    exact hcd₂
  refine ⟨cd', _, hget, ⟨⟨reps', hr'⟩, hchain ▸ h.pos, fun k e he => ?_⟩, fun v hv => ?_, fun hv => ?_⟩
  · by_cases hk : key = k
    · subst hk
      exact h.entry key e (halive (hself.symm.trans he)).1
    · rcases entryOf_call_of_ne hr hr' hcont hhash hk with hsame | hnone
      · exact h.entry k e (hsame.symm.trans he)
      · cases hnone.symm.trans he
  · obtain ⟨e, he, rfl⟩ := Option.map_eq_some_iff.mp hv
    obtain ⟨hentry, hx⟩ := halive he
    exact ⟨e, h.entry key e hentry, rfl, hx⟩
  · rw [hself]
    exact Option.map_eq_none_iff.mp hv

/-- A value is put in with the time it has to live, or takes the place of the one that is there. -/
theorem Holding.set (h : Holding P cd) {m : SetMallocs} {val : Bytes} {timeout : ℤ}
    (hf : (Op.set key val timeout m).Fresh cd) (hnew : Q key ⟨key, val, expiry now timeout⟩)
    (hold : ∀ e, P key e → Q key { e with val := val }) (hPQ : ∀ key e, P key e → Q key e) :
    ∃ cd' rv, cacheSet cd now key val timeout m = some (cd', rv) ∧ Holding Q cd' := by
  have hself : ∀ reps, Rep cd reps → ∀ e,
      lookup key (setIn cd.chainlen now key val timeout m (contents reps (bucket cd.hashlen key))).1 = some e →
        Q key e := by
    intro reps hr e he
    have hentry : ∀ d, lookup key (contents reps (bucket cd.hashlen key)) = some d → P key d := fun d hd =>
      h.entry key d ((entryOf_eq hr key).trans hd)
    unfold setIn at he
    cases hl : lookup key (contents reps (bucket cd.hashlen key)) with
    | none =>
      simp only [hl] at he
      split at he
      · obtain rfl := Option.some.inj ((lookup_cons_self rfl).symm.trans he)
        exact hnew
      · cases hl.symm.trans he
    | some d =>
      have hd := hentry d hl
      have hkey : d.key = key := lookup_key hl
      simp only [hl] at he
      split at he
      · have hfront : lookup key ({ d with val := val } :: remove key (contents reps (bucket cd.hashlen key))) =
            some { d with val := val } := lookup_cons_self hkey
        obtain rfl := Option.some.inj (hfront.symm.trans he)
        exact hold d hd
      · exact hPQ key e (hentry e he)
  obtain ⟨cd', reps, hr, hcall, hholding⟩ := h.call hf now hself fun k e _ => hPQ k e
  obtain ⟨⟨cd₁, rv⟩, hs, heq⟩ := Option.map_eq_some_iff.mp hcall
  obtain rfl : cd₁ = cd' := (Prod.mk.inj heq).1
  exact ⟨cd₁, rv, hs, hholding⟩

theorem Holding.del (h : Holding P cd) (key : Bytes) :
    ∃ cd' rv, cacheDel cd key = some (cd', rv) ∧ Holding (fun k e => P k e ∧ k ≠ key) cd' := by
  have hself : ∀ reps, Rep cd reps → ∀ e,
      lookup key (delIn key (contents reps (bucket cd.hashlen key))).1 = some e → P key e ∧ key ≠ key := by
    intro reps hr e he
    have hn := (hr.placed _ (bucket_lt hr.pos key)).nodup
    unfold delIn at he
    cases hl : lookup key (contents reps (bucket cd.hashlen key)) with
    | none =>
      rw [hl] at he
      cases hl.symm.trans he
    | some d =>
      rw [hl] at he
      cases (lookup_remove_self hn).symm.trans he
  have hfresh : (Op.del key).Fresh cd := trivial
  have hother : ∀ k e, key ≠ k → P k e → P k e ∧ k ≠ key := fun k e hk he => ⟨he, Ne.symm hk⟩
  -- the clock does not matter to a delete
  obtain ⟨cd', reps, hr, hcall, hholding⟩ := h.call (Q := fun k e => P k e ∧ k ≠ key) hfresh 0 hself hother
  obtain ⟨⟨cd₁, rv⟩, hs, heq⟩ := Option.map_eq_some_iff.mp hcall
  obtain rfl : cd₁ = cd' := (Prod.mk.inj heq).1
  exact ⟨cd₁, rv, hs, hholding⟩

end Cmoon.EntryOrigins
