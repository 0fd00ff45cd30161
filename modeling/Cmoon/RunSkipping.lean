import Cmoon.WordDivision

/-! # Skipping what is not Chinese

With `EDIV_SOPT_SKIP_NUTF` the inner loop goes over a run of single bytes at once. The start of the run is kept in `es`,
which is not reset behind the run, and which is cleared where the run is passed on as a segment. -/
namespace Cmoon.RunSkipping
open DecimalText ByteBuffers WordBitmaps TextCharacters StepMachines WordDivision

/-- How many single bytes there are in front of the next Chinese character. -/
def runLength : Bytes → ℕ
  | [] => 0
  | x :: m => if startsWide (x :: m) then 0 else runLength m + 1

/-- The segments are disjoint, in the order of the text, and in its first `n` bytes. -/
structure Ordered (segments : List Segment) (n : ℕ) : Prop where
  order : segments.Pairwise fun g g' => g.off + g.len ≤ g'.off
  inside : ∀ g ∈ segments, g.off + g.len ≤ n

section Call
variable (far : BitVec 32 → ℕ → BitVec 32) (bm : Bitmap) (text : CString) (opt : Options) (cbk : Bool)

def InBody (k : Scan) : Prop := k.i < maxPhraseSLen ∧ 0 ≤ k.r

def ahead (st : State) (k : Scan) : Bytes := text.bytes.drop (st.s + k.i).toNat

/-- The inner loop comes upon a run that is not a word. -/
def Skips (st : State) (k : Scan) : Prop :=
  InBody k ∧ inBitmap (total far) bm ((memory text).drop st.s) k.i.toNat = some false ∧ 0 < runLength (ahead text st k)

/-- `i` is in the text, and `e` is behind the run as well. -/
structure InText (st : State) (k : Scan) : Prop where
  nonneg : 0 ≤ k.i
  le : st.s + k.i ≤ text.bytes.length
  run : ∀ e es, skipRun text.bytes.length (st.s + k.i).toNat k.es ((memory text).drop (st.s + k.i).toNat) = some (e, es) →
    e ≤ text.bytes.length

def Exact (st : State) (k : Scan) : Prop :=
  Skips far bm text st k → ∃ st' k', step far bm text opt cbk st = .go st' ∧ st'.point = .inner k' ∧
    k'.i = k.i + runLength (ahead text st k) ∧ k'.r = k.r - runLength (ahead text st k)

/-- Positions are sound throughout a call. -/
structure Sound (wnum : Option ℤ) : Prop where
  inside : ¬ Faults (step far bm text opt cbk) (initial wnum)
  inText : ∀ st k, Visits (step far bm text opt cbk) (initial wnum) st → st.point = .inner k → InBody k → InText text st k
  exact : ∀ st k, Visits (step far bm text opt cbk) (initial wnum) st → st.point = .inner k →
    Exact far bm text opt cbk st k
  ordered : ∀ st, Visits (step far bm text opt cbk) (initial wnum) st → Ordered st.segments text.bytes.length

/-- A run is come upon with `es` not set, not where it is passed on at once, and it is short enough for an `int`. -/
def Careful (st : State) (k : Scan) : Prop :=
  Skips far bm text st k → k.es = none ∧ ¬ (k.i = 0 ∧ opt.onlyMaxmatch = false ∧ cbk = true) ∧
    k.i + runLength (ahead text st k) < 2 ^ 31

end Call

variable {far : BitVec 32 → ℕ → BitVec 32} {bm : Bitmap} {text : CString} {opt : Options} {cbk : Bool}
  {st st' : State} {k : Scan} {rest : Bytes} {s : ℕ} {segments : List Segment} {wnum : Option ℤ}

theorem runLength_le (rest : Bytes) : runLength rest ≤ rest.length := by
  induction rest with
  | nil => exact le_rfl
  | cons x m ih =>
    unfold runLength
    split
    · exact Nat.zero_le _
    · exact Nat.succ_le_succ ih

theorem skipRun_eq {len e : ℕ} (h : e + rest.length = len) (hne : 0 ∉ rest) (es : Option ℕ) :
    skipRun len e es (rest ++ [0]) =
      some (e + runLength rest, if runLength rest = 0 then es else some (es.getD e)) := by
  induction rest generalizing e es with
  | nil =>
    have hle : len ≤ e := h.ge
    exact if_pos (.inl hle)
  | cons x m ih =>
    rw [List.length_cons] at h
    have hx : x ≠ 0 := fun hx => hne (hx ▸ List.mem_cons_self)
    change skipRun len e es (x :: (m ++ [0])) = _
    unfold skipRun runLength
    rw [if_neg (not_or.mpr ⟨by omega, hx⟩), ← List.cons_append, narrow_closed]
    cases startsWide (x :: m) with
    | true => rfl
    | false =>
      change skipRun len (e + 1) (some (es.getD e)) (m ++ [0]) = _
      rw [ih (by omega) fun hzero => hne (List.mem_cons_of_mem x hzero)]
      simp
      omega

theorem exists_countNarrow (len k : ℕ) (rest : Bytes) : ∃ c, countNarrow len k (rest ++ [0]) = some c := by
  induction hn : rest.length using Nat.strongRecOn generalizing k rest with
  | ind n ih =>
    cases rest with
    | nil => exact ⟨0, if_pos (.inl rfl)⟩
    | cons x m =>
      change ∃ c, countNarrow len k (x :: (m ++ [0])) = some c
      unfold countNarrow
      by_cases hend : x = 0 ∨ len ≤ k
      · exact ⟨0, if_pos hend⟩
      · rw [if_neg hend, ← List.cons_append, narrow_closed]
        cases hwide : startsWide (x :: m) with
        | false =>
          obtain ⟨c, hc⟩ := ih m.length (by simp [← hn]) (k + 1) m rfl
          exact ⟨c + 1, congrArg (Option.map (· + 1)) hc⟩
        | true =>
          obtain _ | ⟨_, _ | ⟨_, m⟩⟩ := m
          · cases hwide
          · cases hwide
          · exact ih m.length (by simp [← hn]; omega) (k + 3) m rfl

theorem exists_mixAll (far : BitVec 32 → ℕ → BitVec 32) (len tc k : ℕ) (v : Mix) (rest : Bytes) :
    ∃ pos, mixAll (total far) len tc k v (rest ++ [0]) = some pos := by
  induction rest generalizing k v with
  | nil => exact ⟨v.pos, if_pos (.inl rfl)⟩
  | cons x m ih =>
    change ∃ pos, mixAll (total far) len tc k v (x :: (m ++ [0])) = some pos
    unfold mixAll
    by_cases hend : x = 0 ∨ len ≤ k
    · exact ⟨v.pos, if_pos hend⟩
    · rw [if_neg hend, ← List.cons_append, narrow_closed]
      have hbyte : ∃ pos, ((mixByte (total far) tc v x).bind fun v => mixAll (total far) len tc (k + 1) v (m ++ [0])) =
          some pos := by
        obtain ⟨v', hv'⟩ : ∃ v', mixByte (total far) tc v x = some v' := by
          unfold mixByte
          dsimp only
          split
          · obtain ⟨pos, hpos⟩ := exists_place far tc (v.c + 1) _ v.pos
            exact ⟨_, congrArg (Option.map _) hpos⟩
          · exact ⟨_, rfl⟩
        rw [hv']
        exact ih (k + 1) v'
      by_cases hb : v.b = 3
      · rw [if_pos hb]
        cases startsWide (x :: m) with
        | true => exact hbyte
        | false => exact ih (k + 1) _
      · rw [if_neg hb]
        exact hbyte

theorem exists_inBitmap (far : BitVec 32 → ℕ → BitVec 32) (bm : Bitmap) (rest : Bytes) (len : ℕ) :
    ∃ b, inBitmap (total far) bm (rest ++ [0]) len = some b := by
  obtain ⟨c, hc⟩ := exists_countNarrow len 0 rest
  obtain ⟨pos, hpos⟩ := exists_mixAll far len ((len - c) / 3) 0 ⟨0, 0, 3, 0⟩ rest
  unfold inBitmap bitmapPos
  rw [hc, Option.bind_some, hpos]
  exact ⟨_, rfl⟩

theorem Ordered.concat {n : ℕ} (h : Ordered segments n) {g : Segment} (hoff : n ≤ g.off) :
    Ordered (segments ++ [g]) (g.off + g.len) where
  order := by
    rw [List.pairwise_append]
    refine ⟨h.order, List.pairwise_singleton _ _, fun a ha b hb => ?_⟩
    rw [List.mem_singleton.mp hb]
    exact (h.inside a ha).trans hoff
  inside a ha := by
    rw [List.mem_append, List.mem_singleton] at ha
    obtain ha | rfl := ha
    · exact (h.inside a ha).trans (hoff.trans (Nat.le_add_right _ _))
    · exact le_rfl

theorem Ordered.mono {n n' : ℕ} (h : Ordered segments n) (hle : n ≤ n') : Ordered segments n' :=
  ⟨h.order, fun g hg => (h.inside g hg).trans hle⟩

/-- The state of the inner loop: `i` and `r` together are what is left of the text, as an `int`. -/
structure Going (text : CString) (s : ℕ) (k : Scan) : Prop where
  nonneg : 0 ≤ k.i
  sum : k.i + k.r = wrap 32 (text.bytes.length - s)
  low : s ≤ k.t
  high : k.t ≤ text.bytes.length
  near : k.t < s + 2 ^ 31
  es : ∀ es, k.es = some es → s ≤ es ∧ es < s + k.i

/-- The segments lie before `s`, and the inner loop is in the text. -/
def Inv (text : CString) (st : State) : Prop :=
  Ordered st.segments st.s ∧
    match st.point with
    | .start => st.s = 0
    | .outer => st.s ≤ text.bytes.length
    | .inner k => st.s < text.bytes.length ∧ Going text st.s k

/-- In the body of the loop `i` is in the text. -/
theorem Going.le (h : Going text s k) (hs : s ≤ text.bytes.length) (hr : 0 ≤ k.r) : s + k.i ≤ text.bytes.length := by
  have hsum := h.sum
  have hwrap := wrap_le (text.bytes.length - s)
  rw [Nat.cast_sub hs] at hwrap
  omega

theorem Going.toNat (h : Going text s k) : (((s + k.i).toNat : ℕ) : ℤ) = s + k.i :=
  Int.toNat_of_nonneg (by have := h.nonneg; omega)

theorem wrap_lt (x : ℤ) : wrap 32 x < 2 ^ 31 := by
  unfold wrap
  have hlt := Int.bmod_lt (x := x) (m := 2 ^ 32) (by decide)
  omega

theorem wrap_eq_add (x : ℤ) : ∃ q : ℤ, wrap 32 x = x + 2 ^ 32 * q := by
  unfold wrap
  rw [Int.bmod_def]
  split
  · exact ⟨-(x / 2 ^ 32), by omega⟩
  · exact ⟨-(x / 2 ^ 32) - 1, by omega⟩

theorem wrap_eq {x : ℤ} (hlow : -2 ^ 31 ≤ x) (hhigh : x < 2 ^ 31) : wrap 32 x = x := by
  unfold wrap
  rw [Int.bmod_eq_of_le] <;> omega

def GoesOn (text : CString) (n : Next State Result) : Prop := ∃ st', n = .go st' ∧ Inv text st'

theorem leave_goesOn {t : ℤ} (hordered : Ordered st.segments st.s) (hs : st.s < text.bytes.length) (hlow : st.s ≤ t)
    (hhigh : t ≤ text.bytes.length) (hnear : t < st.s + 2 ^ 31) : GoesOn text (leave text opt cbk st t) := by
  obtain ⟨n, rfl⟩ := Int.eq_ofNat_of_zero_le ((Int.natCast_nonneg _).trans hlow)
  obtain ⟨s, point, segments, wnum⟩ := st
  dsimp only at hordered hs hlow hnear
  obtain hlt | heq := (Int.ofNat_le.mp hlow).lt_or_eq
  · have hsize : sizeT ((n : ℤ) - s) = n - s := by
      rw [← Nat.cast_sub hlt.le, sizeT_of_lt]
      omega
    refine ⟨_, leave_word hlt, ?_, Int.ofNat_le.mp hhigh⟩
    rw [hsize]
    split
    · have hconcat := hordered.concat (g := ⟨s, n - s⟩) le_rfl
      dsimp only at hconcat
      rwa [Nat.add_sub_cancel' hlt.le] at hconcat
    · exact hordered.mono hlt.le
  · rw [← heq]
    have hne : text.bytes.drop s ≠ [] := by
      rw [ne_eq, List.drop_eq_nil_iff]
      omega
    obtain ⟨hpos, hle⟩ := unit_le hne
    rw [List.length_drop] at hle
    refine ⟨_, leave_unit hs.le, ?_, by change s + unit _ ≤ _; omega⟩
    split
    · exact hordered.concat (g := ⟨s, _⟩) le_rfl
    · exact hordered.mono (Nat.le_add_right _ _)

theorem found_goesOn (hordered : Ordered st.segments st.s) (hs : st.s < text.bytes.length) (hgoing : Going text st.s k)
    (hbody : InBody k) : GoesOn text (found text opt cbk st k) := by
  have hle := hgoing.le hs.le hbody.2
  have hnear : k.i < 45 := hbody.1
  obtain ⟨n, hn⟩ := Int.eq_ofNat_of_zero_le hgoing.nonneg
  have hsize : sizeT k.i = n := by
    rw [hn, sizeT_of_lt]
    omega
  have hleave : ∀ segments, Ordered segments st.s →
      GoesOn text (leave text opt cbk { st with segments, wnum := counted st.wnum } (st.s + k.i)) :=
    fun segments hsegments => leave_goesOn hsegments hs (by dsimp only; omega) hle (by dsimp only; omega)
  unfold found
  rw [hsize]
  cases hpassed : !opt.onlyMaxmatch && cbk with
  | false => exact hleave st.segments hordered
  | true =>
    have hconcat := hordered.concat (g := ⟨st.s, n⟩) le_rfl
    obtain rfl | hpos := Nat.eq_zero_or_pos n
    · exact hleave (st.segments ++ [⟨st.s, 0⟩]) hconcat
    · -- The segment ends where the next one is looked for.
      have hmax : (opt.onlyMaxmatch && cbk) = false := by
        rw [Bool.and_eq_true, Bool.not_eq_true'] at hpassed
        rw [hpassed.1, Bool.false_and]
      have ht : (st.s : ℤ) + k.i = ((st.s + n : ℕ) : ℤ) := by rw [hn, Nat.cast_add]
      rw [ht, leave_word (Nat.lt_add_of_pos_right hpos), hmax]
      exact ⟨_, rfl, hconcat, by dsimp only; omega⟩

theorem skipRun_ahead (hin : (st.s + k.i).toNat ≤ text.bytes.length) :
    skipRun text.bytes.length (st.s + k.i).toNat k.es ((memory text).drop (st.s + k.i).toNat) =
      some ((st.s + k.i).toNat + runLength (ahead text st k),
        if runLength (ahead text st k) = 0 then k.es else some (k.es.getD (st.s + k.i).toNat)) := by
  have hne : 0 ∉ ahead text st k := fun hzero => text.noZero (List.mem_of_mem_drop hzero)
  have hlen : (st.s + k.i).toNat + (ahead text st k).length = text.bytes.length := by
    rw [ahead, List.length_drop]
    omega
  rw [drop_memory hin]
  exact skipRun_eq hlen hne k.es

theorem skip_eq (hs : st.s < text.bytes.length) (hgoing : Going text st.s k) (hbody : InBody k) :
    skip text opt cbk st k =
      if runLength (ahead text st k) = 0 then .go { st with point := .inner { k with i := k.i + 3, r := k.r - 3 } }
      else if k.i = 0 ∧ opt.onlyMaxmatch = false ∧ cbk = true then .fault
      else
        .go { st with
          point := .inner {
            i := wrap 32 (k.i + (st.s + k.i + runLength (ahead text st k) - k.es.getD (st.s + k.i).toNat))
            r := wrap 32 (k.r - (st.s + k.i + runLength (ahead text st k) - k.es.getD (st.s + k.i).toNat))
            t := if k.i = 0 then st.s + k.i + runLength (ahead text st k) else k.t
            es := some (k.es.getD (st.s + k.i).toNat) }
          wnum := if k.i = 0 then counted st.wnum else st.wnum } := by
  have hle := hgoing.le hs.le hbody.2
  have hnat := hgoing.toNat
  have hin : (st.s + k.i).toNat ≤ text.bytes.length := by omega
  unfold skip
  dsimp only
  rw [if_neg (by have := hgoing.nonneg; omega), skipRun_ahead hin]
  dsimp only [Option.map_some]
  by_cases hrun : runLength (ahead text st k) = 0
  · rw [if_pos hrun, hrun, Nat.add_zero, hnat, if_neg (not_not.mpr rfl), if_pos rfl]
  · have hmoved : (((st.s + k.i).toNat + runLength (ahead text st k) : ℕ) : ℤ) ≠ st.s + k.i := by omega
    rw [if_neg hrun, if_pos hmoved, if_neg hrun, Nat.cast_add, hnat]
    by_cases hcalled : k.i = 0 ∧ opt.onlyMaxmatch = false ∧ cbk = true
    · have hbool : (decide (k.i = 0) && !opt.onlyMaxmatch && cbk) = true := by simp [hcalled]
      rw [if_pos hcalled, hbool]
      rfl
    · have hbool : (decide (k.i = 0) && !opt.onlyMaxmatch && cbk) = false := by
        rw [Bool.eq_false_iff]
        intro h
        simp only [Bool.and_eq_true, decide_eq_true_eq, Bool.not_eq_true'] at h
        exact hcalled ⟨h.1.1, h.1.2, h.2⟩
      rw [if_neg hcalled, hbool]
      rfl

theorem step_body (hpoint : st.point = .inner k) (hbody : InBody k) :
    step far bm text opt cbk st = look far bm text opt cbk st k := by
  unfold step
  rw [hpoint]
  exact if_pos hbody

theorem look_of_not_word (hskip : opt.skipNutf = true)
    (hbit : inBitmap (total far) bm ((memory text).drop st.s) k.i.toNat = some false) :
    look far bm text opt cbk st k = skip text opt cbk st k := by
  unfold look
  rw [hbit]
  exact if_pos hskip

theorem step_of_skips (hpoint : st.point = .inner k) (hskip : opt.skipNutf = true) (h : Skips far bm text st k) :
    step far bm text opt cbk st = skip text opt cbk st k :=
  (step_body hpoint h.1).trans (look_of_not_word hskip h.2.1)

theorem skip_careful (hs : st.s < text.bytes.length) (hgoing : Going text st.s k) (hbody : InBody k)
    (hrun : 0 < runLength (ahead text st k)) (hes : k.es = none)
    (hkept : ¬ (k.i = 0 ∧ opt.onlyMaxmatch = false ∧ cbk = true)) (hfits : k.i + runLength (ahead text st k) < 2 ^ 31) :
    skip text opt cbk st k = .go { st with
      point := .inner {
        i := k.i + runLength (ahead text st k)
        r := k.r - runLength (ahead text st k)
        t := if k.i = 0 then st.s + k.i + runLength (ahead text st k) else k.t
        es := some (st.s + k.i).toNat }
      wnum := if k.i = 0 then counted st.wnum else st.wnum } := by
  have hnonneg := hgoing.nonneg
  have hr : k.r < 2 ^ 31 := by
    have hwrap := wrap_lt (text.bytes.length - st.s)
    have hsum := hgoing.sum
    omega
  have hr0 := hbody.2
  rw [skip_eq hs hgoing hbody, if_neg hrun.ne', if_neg hkept, hes]
  dsimp only [Option.getD_none]
  rw [hgoing.toNat, add_sub_cancel_left, wrap_eq (by omega) hfits, wrap_eq (by omega) (by omega)]

theorem going_skipped (hs : st.s < text.bytes.length) (hgoing : Going text st.s k) (hbody : InBody k)
    (hrun : 0 < runLength (ahead text st k)) (hfits : k.i + runLength (ahead text st k) < 2 ^ 31) :
    Going text st.s {
      i := k.i + runLength (ahead text st k)
      r := k.r - runLength (ahead text st k)
      t := if k.i = 0 then st.s + k.i + runLength (ahead text st k) else k.t
      es := some (st.s + k.i).toNat } := by
  have hnonneg := hgoing.nonneg
  have hle := hgoing.le hs.le hbody.2
  have hnat := hgoing.toNat
  have hlen : (runLength (ahead text st k) : ℤ) ≤ text.bytes.length - (st.s + k.i) := by
    have hrun := runLength_le (ahead text st k)
    unfold ahead at hrun ⊢
    rw [List.length_drop] at hrun
    omega
  refine ⟨?_, ?_, ?_, ?_, ?_, ?_⟩
  · dsimp only
    omega
  · have hsum := hgoing.sum
    dsimp only
    omega
  · have hlow := hgoing.low
    dsimp only
    split
    · omega
    · exact hlow
  · have hhigh := hgoing.high
    dsimp only
    split
    · omega
    · exact hhigh
  · have hnear := hgoing.near
    dsimp only
    split
    · omega
    · exact hnear
  · intro es hes
    cases hes
    dsimp only
    omega

/-- Where there is no run the loop goes on behind a Chinese character. -/
theorem going_next (hgoing : Going text s k) : Going text s { k with i := k.i + 3, r := k.r - 3 } := by
  refine ⟨?_, ?_, hgoing.low, hgoing.high, hgoing.near, ?_⟩
  · have hnonneg := hgoing.nonneg
    dsimp only
    omega
  · have hsum := hgoing.sum
    dsimp only
    omega
  · intro es hes
    obtain ⟨hlow, hhigh⟩ := hgoing.es es hes
    dsimp only
    omega

/-- The inner loop begins at `s`. -/
theorem going_enter (hs : s < text.bytes.length) : Going text s ⟨0, wrap 32 (text.bytes.length - s), s, none⟩ where
  nonneg := le_rfl
  sum := Int.zero_add _
  low := le_rfl
  high := Int.ofNat_le.mpr hs.le
  near := by dsimp only; omega
  es := nofun

theorem look_goesOn (hskip : opt.skipNutf = true) (hordered : Ordered st.segments st.s) (hs : st.s < text.bytes.length)
    (hgoing : Going text st.s k) (hbody : InBody k) (hcareful : Careful far bm text opt cbk st k) :
    GoesOn text (look far bm text opt cbk st k) := by
  obtain ⟨b, hb⟩ := exists_inBitmap far bm (text.bytes.drop st.s) k.i.toNat
  rw [← drop_memory hs.le] at hb
  cases b with
  | true =>
    have hlook : look far bm text opt cbk st k = found text opt cbk st k := by
      unfold look
      rw [hb]
    rw [hlook]
    exact found_goesOn hordered hs hgoing hbody
  | false =>
    rw [look_of_not_word hskip hb]
    obtain hrun | hrun := Nat.eq_zero_or_pos (runLength (ahead text st k))
    · rw [skip_eq hs hgoing hbody, if_pos hrun]
      exact ⟨_, rfl, hordered, hs, going_next hgoing⟩
    · obtain ⟨hes, hkept, hfits⟩ := hcareful ⟨hbody, hb, hrun⟩
      rw [skip_careful hs hgoing hbody hrun hes hkept hfits]
      exact ⟨_, rfl, hordered, hs, going_skipped hs hgoing hbody hrun hfits⟩

theorem step_goesOn (hskip : opt.skipNutf = true) (hinv : Inv text st)
    (hcareful : ∀ k, st.point = .inner k → Careful far bm text opt cbk st k) :
    (∃ r, step far bm text opt cbk st = .halt r) ∨ GoesOn text (step far bm text opt cbk st) := by
  obtain ⟨hordered, hpoint⟩ := hinv
  obtain ⟨s, point, segments, wnum⟩ := st
  cases point with
  | start =>
    obtain rfl : s = 0 := hpoint
    by_cases hempty : text.bytes.length = 0
    · exact .inl ⟨_, if_pos hempty⟩
    · exact .inr ⟨_, if_neg hempty, hordered, Nat.zero_le _⟩
  | outer =>
    obtain hlt | heq := Nat.lt_or_eq_of_le hpoint
    · exact .inr ⟨_, step_outer hlt, hordered, hlt, going_enter hlt⟩
    · exact .inl ⟨_, step_end heq.ge⟩
  | inner k =>
    obtain ⟨hs, hgoing⟩ := hpoint
    right
    by_cases hbody : InBody k
    · rw [step_body rfl hbody]
      exact look_goesOn hskip hordered hs hgoing hbody (hcareful k rfl)
    · have hleave : step far bm text opt cbk ⟨s, .inner k, segments, wnum⟩ =
          leave text opt cbk ⟨s, .inner k, segments, wnum⟩ k.t := if_neg hbody
      rw [hleave]
      exact leave_goesOn hordered hs hgoing.low hgoing.high hgoing.near

theorem careful_of_exact (hskip : opt.skipNutf = true) (hpoint : st.point = .inner k) (hs : st.s < text.bytes.length)
    (hgoing : Going text st.s k) (hexact : Exact far bm text opt cbk st k) : Careful far bm text opt cbk st k := by
  intro hskips
  obtain ⟨st', k', hgo, hpoint', hi, -⟩ := hexact hskips
  obtain ⟨hbody, -, hrun⟩ := id hskips
  rw [step_of_skips hpoint hskip hskips, skip_eq hs hgoing hbody, if_neg hrun.ne'] at hgo
  by_cases hcalled : k.i = 0 ∧ opt.onlyMaxmatch = false ∧ cbk = true
  · rw [if_pos hcalled] at hgo
    cases hgo
  · rw [if_neg hcalled] at hgo
    cases hgo
    cases hpoint'
    dsimp only at hi
    have hfresh : k.es = none := by
      cases hes : k.es with
      | none => rfl
      | some es =>
        -- A start from before makes `i` go on by less than 45 bytes more, which no overflow makes up for.
        obtain ⟨hlow, hhigh⟩ := hgoing.es es hes
        obtain ⟨q, hq⟩ := wrap_eq_add (k.i + (st.s + k.i + runLength (ahead text st k) - es))
        have hi45 : k.i < 45 := hbody.1
        rw [hes, Option.getD_some, hq] at hi
        omega
    refine ⟨hfresh, hcalled, ?_⟩
    rw [hfresh, Option.getD_none, hgoing.toNat, add_sub_cancel_left] at hi
    rw [← hi]
    exact wrap_lt _

theorem Inv.inner (h : Inv text st) (hpoint : st.point = .inner k) : st.s < text.bytes.length ∧ Going text st.s k := by
  have hinner := h.2
  rw [hpoint] at hinner
  exact hinner

theorem Inv.le (h : Inv text st) : st.s ≤ text.bytes.length := by
  obtain ⟨-, hpoint⟩ := h
  obtain ⟨s, point, segments, wnum⟩ := st
  cases point with
  | start => exact (show s = 0 from hpoint) ▸ Nat.zero_le _
  | outer => exact hpoint
  | inner k => exact hpoint.1.le

/-- Where every run so far has been come upon with care the invariant holds. -/
theorem visits_inv (hskip : opt.skipNutf = true) (hvisits : Visits (step far bm text opt cbk) (initial wnum) st)
    (hcareful : ∀ st k, Visits (step far bm text opt cbk) (initial wnum) st → st.point = .inner k → Inv text st →
      Careful far bm text opt cbk st k) : Inv text st := by
  have hinitial : Inv text (initial wnum) := ⟨⟨List.Pairwise.nil, nofun⟩, rfl⟩
  refine hvisits.keeps hinitial fun t t' hvisits hinv hgo => ?_
  obtain ⟨r, hhalt⟩ | ⟨t'', hgo', hinv'⟩ := step_goesOn hskip hinv fun k hpoint => hcareful t k hvisits hpoint hinv
  · rw [hhalt] at hgo
    cases hgo
  · rw [hgo] at hgo'
    cases hgo'
    exact hinv'

theorem inText_of_going (hs : st.s < text.bytes.length) (hgoing : Going text st.s k) (hbody : InBody k) :
    InText text st k := by
  have hle := hgoing.le hs.le hbody.2
  have hin : (st.s + k.i).toNat ≤ text.bytes.length := by omega
  refine ⟨hgoing.nonneg, hle, fun e es hrun => ?_⟩
  have hlen : (ahead text st k).length = text.bytes.length - (st.s + k.i).toNat := List.length_drop
  have hrunLength := runLength_le (ahead text st k)
  cases (skipRun_ahead hin).symm.trans hrun
  omega

/-- The positions of a call are sound exactly if it comes upon each run with care. -/
theorem sound_iff (far : BitVec 32 → ℕ → BitVec 32) (bm : Bitmap) (text : CString) (opt : Options) (cbk : Bool)
    (wnum : Option ℤ) (hskip : opt.skipNutf = true) : Sound far bm text opt cbk wnum ↔
      ∀ st k, Visits (step far bm text opt cbk) (initial wnum) st → st.point = .inner k →
        Careful far bm text opt cbk st k := by
  constructor
  · intro h st k hvisits hpoint
    have hcareful : ∀ st k, Visits (step far bm text opt cbk) (initial wnum) st → st.point = .inner k → Inv text st →
        Careful far bm text opt cbk st k := by
      intro st k hvisits hpoint hinv
      obtain ⟨hs, hgoing⟩ := hinv.inner hpoint
      exact careful_of_exact hskip hpoint hs hgoing (h.exact st k hvisits hpoint)
    exact hcareful st k hvisits hpoint (visits_inv hskip hvisits hcareful)
  · intro h
    have hinv : ∀ st, Visits (step far bm text opt cbk) (initial wnum) st → Inv text st :=
      fun st hvisits => visits_inv hskip hvisits fun st k hvisits hpoint _ => h st k hvisits hpoint
    refine ⟨?_, ?_, ?_, ?_⟩
    · rintro ⟨st, hvisits, hfault⟩
      obtain ⟨r, hhalt⟩ | ⟨st', hgo, -⟩ := step_goesOn hskip (hinv st hvisits) fun k => h st k hvisits
      · rw [hfault] at hhalt
        cases hhalt
      · rw [hfault] at hgo
        cases hgo
    · intro st k hvisits hpoint hbody
      obtain ⟨hs, hgoing⟩ := (hinv st hvisits).inner hpoint
      exact inText_of_going hs hgoing hbody
    · intro st k hvisits hpoint hskips
      obtain ⟨hs, hgoing⟩ := (hinv st hvisits).inner hpoint
      obtain ⟨hes, hkept, hfits⟩ := h st k hvisits hpoint hskips
      have hstep := (step_of_skips hpoint hskip hskips).trans
        (skip_careful hs hgoing hskips.1 hskips.2.2 hes hkept hfits)
      exact ⟨_, _, hstep, rfl, rfl, rfl⟩
    · intro st hvisits
      have hst := hinv st hvisits
      exact hst.1.mono hst.le

/-- `EDIV_SOPT_ONLY_MAXMATCH | EDIV_SOPT_SKIP_NUTF` -/
def maxSkip : Options := ⟨true, false, false, true⟩

def single : CString := ⟨[97, 98], by decide⟩

def singleStep : State → Next State Result := step (fun x _ => x) (fun _ => 0) single maxSkip true

def singleStates : List State :=
  [initial none, ⟨0, .outer, [], none⟩, ⟨0, .inner ⟨0, 2, 0, none⟩, [], none⟩,
    ⟨0, .inner ⟨2, 0, 2, some 0⟩, [], none⟩, ⟨0, .inner ⟨5, -3, 2, some 0⟩, [], none⟩, ⟨2, .outer, [⟨0, 2⟩], none⟩]

theorem single_visits (h : Visits singleStep (initial none) st) : st ∈ singleStates := by
  have hclosed : singleStates.map singleStep = singleStates.tail.map Next.go ++ [.halt (.done [⟨0, 2⟩] none)] := by
    decide +kernel
  refine h.keeps List.mem_cons_self fun t t' _ ht hgo => ?_
  have hmem : singleStep t ∈ singleStates.map singleStep := List.mem_map_of_mem ht
  rw [hclosed, hgo, List.mem_append, List.mem_map] at hmem
  obtain ⟨t'', ht'', heq⟩ | hhalt := hmem
  · cases heq
    exact List.mem_cons_of_mem _ ht''
  · cases List.mem_singleton.mp hhalt

/-- One run is skipped by its length. -/
theorem sound_single : Sound (fun x _ => x) (fun _ => 0) single maxSkip true none := by
  refine (sound_iff (fun x _ => x) (fun _ => 0) single maxSkip true none rfl).mpr ?_
  intro st k hvisits hpoint hskips
  have hst := single_visits hvisits
  unfold singleStates at hst
  simp only [List.mem_cons, List.not_mem_nil, or_false] at hst
  obtain rfl | rfl | rfl | rfl | rfl | rfl := hst
  · cases hpoint
  · cases hpoint
  · cases hpoint
    exact ⟨rfl, by decide, by decide +kernel⟩
  · cases hpoint
    exact absurd hskips.2.2 (by decide +kernel)
  · cases hpoint
    exact absurd hskips.1.2 (by decide)
  · cases hpoint

def mixed : CString := ⟨[97, 0xE4, 0xB8, 0xAD, 98], by decide⟩

def mixedStep : State → Next State Result := step (fun x _ => x) (fun _ => 0) mixed maxSkip true

/-- The run behind 中 is come upon with the start of the first one. -/
theorem mixed_visits : Visits mixedStep (initial none) ⟨0, .inner ⟨4, 1, 1, some 0⟩, [], none⟩ := by
  have hstart : mixedStep (initial none) = .go ⟨0, .outer, [], none⟩ := by decide +kernel
  have houter : mixedStep ⟨0, .outer, [], none⟩ = .go ⟨0, .inner ⟨0, 5, 0, none⟩, [], none⟩ := by decide +kernel
  have hrun : mixedStep ⟨0, .inner ⟨0, 5, 0, none⟩, [], none⟩ =
      .go ⟨0, .inner ⟨1, 4, 1, some 0⟩, [], none⟩ := by decide +kernel
  have hchinese : mixedStep ⟨0, .inner ⟨1, 4, 1, some 0⟩, [], none⟩ =
      .go ⟨0, .inner ⟨4, 1, 1, some 0⟩, [], none⟩ := by decide +kernel
  exact (((Visits.single hstart).trans (.single houter)).trans (.single hrun)).trans (.single hchinese)

/-- `i` goes on by five bytes for a run of one. -/
theorem not_sound : ¬ Sound (fun x _ => x) (fun _ => 0) mixed maxSkip true none := by
  intro h
  have hskips : Skips (fun x _ => x) (fun _ => 0) mixed ⟨0, .inner ⟨4, 1, 1, some 0⟩, [], none⟩ ⟨4, 1, 1, some 0⟩ :=
    ⟨⟨by decide, by decide⟩, by decide +kernel, by decide +kernel⟩
  obtain ⟨st', k', hgo, hpoint, hi, -⟩ := h.exact _ _ mixed_visits rfl hskips
  have hstep : mixedStep ⟨0, .inner ⟨4, 1, 1, some 0⟩, [], none⟩ =
      .go ⟨0, .inner ⟨9, -4, 1, some 0⟩, [], none⟩ := by decide +kernel
  cases hstep.symm.trans hgo
  cases hpoint
  exact absurd hi (by decide +kernel)

end Cmoon.RunSkipping
