import Cmoon.GreedyCuts
import Cmoon.StepMachines
import Cmoon.TextCharacters

/-! # Dividing a text into words

`ediv_word_split` looks from each place for a word of the dictionary that begins there, and hands the words and what is
between them to a function of the caller. -/
namespace Cmoon.WordDivision
open DecimalText ByteBuffers WordBitmaps TextCharacters StepMachines GreedyCuts

/-- The bits of `opt`. -/
structure Options where
  onlyMaxmatch : Bool
  onlyMinmatch : Bool
  throwUnknown : Bool
  skipNutf : Bool

/-- A call of `cbk`: where the segment begins, and its length. -/
structure Segment where
  off : ℕ
  len : ℕ
  deriving DecidableEq

/-- The inner loop; `t` and `es` are offsets in the text. -/
structure Scan where
  i : ℤ
  r : ℤ
  t : ℤ
  es : Option ℕ
  deriving DecidableEq

inductive Point where
  | start
  | outer              -- `while (s - ts < len && *s)`
  | inner (k : Scan)   -- `for (i = 0; i < MAX_PHRASE_S_LEN && r >= 0; )`
  deriving DecidableEq

/-- `wnum` is none if the caller does not count the words. -/
structure State where
  s : ℕ
  point : Point
  segments : List Segment
  wnum : Option ℤ
  deriving DecidableEq

inductive Result where
  | refused
  | done (segments : List Segment) (wnum : Option ℤ)
  deriving DecidableEq

def Result.segments : Result → List Segment
  | .refused => []
  | .done segments _ => segments

def sizeT (x : ℤ) : ℕ := (x % 2 ^ 64).toNat

def counted (wnum : Option ℤ) : Option ℤ := wnum.map fun n => wrap 32 (n + 1)

/-- `e` and `es` behind the bytes at `e` that are not of a Chinese character. -/
def skipRun (len : ℕ) (e : ℕ) (es : Option ℕ) : Bytes → Option (ℕ × Option ℕ)
  | [] => if len ≤ e then some (e, es) else none
  | x :: m =>
    if len ≤ e ∨ x = 0 then some (e, es)
    else
      match narrow (x :: m) with
      | none => none
      | some true => skipRun len (e + 1) (some (es.getD e)) m
      | some false => some (e, es)

section Call
variable (far : BitVec 32 → ℕ → BitVec 32) (bm : Bitmap) (text : CString) (opt : Options) (cbk : Bool)

/-- The text with the zero byte that closes it. -/
def memory : Bytes := text.bytes ++ [0]

/-- Behind the inner loop: `s` goes to `t`, or behind the next character. -/
def leave (st : State) (t : ℤ) : Next State Result :=
  if st.s < t then
    .go { st with
      s := t.toNat
      point := .outer
      segments := if opt.onlyMaxmatch && cbk then st.segments ++ [⟨st.s, sizeT (t - st.s)⟩] else st.segments }
  else
    match narrow ((memory text).drop st.s) with
    | none => .fault
    | some single =>
      let r := if single then 1 else 3
      .go { st with
        s := st.s + r
        point := .outer
        segments := if !opt.throwUnknown && cbk then st.segments ++ [⟨st.s, r⟩] else st.segments }

/-- A word has been found; the inner loop ends whatever `EDIV_SOPT_ONLY_MINMATCH` says. -/
def found (st : State) (k : Scan) : Next State Result :=
  leave text opt cbk
    { st with
      segments := if !opt.onlyMaxmatch && cbk then st.segments ++ [⟨st.s, sizeT k.i⟩] else st.segments
      wnum := counted st.wnum }
    (st.s + k.i)

/-- `EDIV_SOPT_SKIP_NUTF` -/
def skip (st : State) (k : Scan) : Next State Result :=
  let e : ℤ := st.s + k.i
  match if e < 0 then some (e, k.es)
    else (skipRun text.bytes.length e.toNat k.es ((memory text).drop e.toNat)).map fun (e, es) => ((e : ℤ), es) with
  | none => .fault
  | some (e', es) =>
    if e' ≠ e then
      let called : Bool := k.i = 0 && !opt.onlyMaxmatch && cbk
      let st : State := { st with
        segments := if called then st.segments ++ (es.map fun es => ⟨es, sizeT (e' - es)⟩).toList else st.segments
        wnum := if k.i = 0 then counted st.wnum else st.wnum }
      match if called then none else es with
      | none => .fault   -- `e - es` without `es`
      | some es =>
        .go { st with point := .inner {
          i := wrap 32 (k.i + (e' - es))
          r := wrap 32 (k.r - (e' - es))
          t := if k.i = 0 then e' else k.t
          es := some es } }
    else .go { st with point := .inner { k with i := k.i + 3, r := k.r - 3, es } }

/-- The inner loop goes on behind the next character. -/
def next (st : State) (k : Scan) : Next State Result :=
  match (st.s + k.i).toNat?.bind fun e => narrow ((memory text).drop e) with
  | none => .fault
  | some single =>
    let d := if single then 1 else 3
    .go { st with point := .inner { k with i := k.i + d, r := k.r - d } }

def look (st : State) (k : Scan) : Next State Result :=
  match inBitmap (total far) bm ((memory text).drop st.s) k.i.toNat with
  | none => .fault
  | some true => found text opt cbk st k
  | some false => if opt.skipNutf then skip text opt cbk st k else next text st k

def enter (st : State) : Next State Result :=
  if text.bytes.length ≤ st.s then .halt (.done st.segments st.wnum)
  else
    match (memory text)[st.s]? with
    | none => .fault
    | some x =>
      if x = 0 then .halt (.done st.segments st.wnum)
      else .go { st with point := .inner ⟨0, wrap 32 (text.bytes.length - st.s), st.s, none⟩ }

def step (st : State) : Next State Result :=
  match st.point with
  | .start => if text.bytes.length = 0 then .halt .refused else .go { st with s := 0, point := .outer }
  | .outer => enter text st
  | .inner k => if k.i < maxPhraseSLen ∧ 0 ≤ k.r then look far bm text opt cbk st k else leave text opt cbk st k.t

/-- `ediv_word_split` is called. -/
def initial (wnum : Option ℤ) : State := ⟨0, .start, [], wnum⟩

end Call

section Steps
variable (far : BitVec 32 → ℕ → BitVec 32) (bm : Bitmap)

def hasBit (w : Bytes) : Bool := inBitmap (total far) bm (w ++ [0]) w.length = some true

variable {far bm} {text : CString} {opt : Options} {cbk : Bool} {s : ℕ} {segments : List Segment} {wnum : Option ℤ}
  {qs ps : List Piece} {rest : Bytes} {p : Piece}

theorem drop_memory (h : s ≤ text.bytes.length) : (memory text).drop s = text.bytes.drop s ++ [0] :=
  List.drop_append_of_le_length h

theorem bytes_of_pieces (h : pieces rest = qs ++ ps) : rest = bytesOf qs ++ bytesOf ps := by
  rw [← bytesOf_append, ← h, bytesOf_pieces]

theorem readAs_front (h : pieces rest = qs ++ ps) : ReadAs qs (bytesOf ps ++ [0]) := by
  have hread : ReadAs (pieces rest) [0] := readAs_pieces rest rfl
  rw [h] at hread
  exact (readAs_append.mp hread).1

theorem readAs_back (h : pieces rest = qs ++ ps) : ReadAs ps [0] := by
  have hread : ReadAs (pieces rest) [0] := readAs_pieces rest rfl
  rw [h] at hread
  exact (readAs_append.mp hread).2

/-- The test looks at the bit of the bytes that have been passed. -/
theorem inBitmap_front (h : pieces rest = qs ++ ps) (hne : 0 ∉ rest) :
    inBitmap (total far) bm (rest ++ [0]) (bytesOf qs).length = some (hasBit far bm (bytesOf qs)) := by
  have hrest := bytes_of_pieces h
  have hqs : 0 ∉ bytesOf qs := fun hzero => hne (hrest ▸ List.mem_append_left _ hzero)
  have hfront := readAs_front h
  obtain ⟨pos, hpos⟩ := exists_positionOf far (((bytesOf qs).length - narrows qs) / 3) qs
  have hthere : bitmapPos (total far) (rest ++ [0]) (bytesOf qs).length = some pos := by
    rw [hrest, List.append_assoc, ← hpos]
    exact bitmapPos_eq hfront hqs (List.mem_append_right _ List.mem_cons_self) ⟨le_rfl, .inl rfl⟩
  have halone : bitmapPos (total far) (bytesOf qs ++ [0]) (bytesOf qs).length = some pos := by
    rw [← hpos]
    exact bitmapPos_eq hfront.closed hqs List.mem_cons_self ⟨le_rfl, .inl rfl⟩
  unfold hasBit inBitmap
  rw [hthere, halone]
  simp

def unit (rest : Bytes) : ℕ := if startsWide rest then 3 else 1

theorem unit_cons (h : ReadAs (p :: ps) [0]) : unit (bytesOf (p :: ps)) = p.bytes.length := by
  unfold unit
  cases p with
  | narrow x =>
    have hsingle := h.1
    rw [← List.cons_append, startsWide_closed] at hsingle
    have hsingle : startsWide (bytesOf (.narrow x :: ps)) = false := hsingle
    rw [hsingle]
    rfl
  | wide x y z =>
    have hwide : startsWide (bytesOf (.wide x y z :: ps)) = true := h.1
    rw [hwide]
    rfl

theorem unit_le (hne : rest ≠ []) : 0 < unit rest ∧ unit rest ≤ rest.length := by
  unfold unit
  match rest with
  | [] => exact absurd rfl hne
  | [_] => exact ⟨Nat.one_pos, le_rfl⟩
  | [_, _] => exact ⟨Nat.one_pos, Nat.le_succ 1⟩
  | x :: y :: z :: m =>
    split
    · exact ⟨by decide, by simp⟩
    · exact ⟨by decide, by simp⟩

theorem step_outer (h : s < text.bytes.length) :
    step far bm text opt cbk ⟨s, .outer, segments, wnum⟩ =
      .go ⟨s, .inner ⟨0, wrap 32 (text.bytes.length - s), s, none⟩, segments, wnum⟩ := by
  have hget : (memory text)[s]? = some text.bytes[s] := by
    unfold memory
    rw [List.getElem?_append_left h, List.getElem?_eq_getElem h]
  have hne : text.bytes[s] ≠ 0 := fun h0 => text.noZero (h0 ▸ List.getElem_mem h)
  change enter text _ = _
  unfold enter
  rw [if_neg (by dsimp only; omega), hget]
  exact if_neg hne

theorem step_end (h : text.bytes.length ≤ s) :
    step far bm text opt cbk ⟨s, .outer, segments, wnum⟩ = .halt (.done segments wnum) := if_pos h

theorem leave_word {point : Point} {t : ℕ} (h : s < t) :
    leave text opt cbk ⟨s, point, segments, wnum⟩ t =
      .go ⟨t, .outer, if opt.onlyMaxmatch && cbk then segments ++ [⟨s, sizeT (t - s)⟩] else segments, wnum⟩ :=
  if_pos (Int.ofNat_lt.mpr h)

/-- No word has been found: the next character is passed. -/
theorem leave_unit {point : Point} (h : s ≤ text.bytes.length) :
    leave text opt cbk ⟨s, point, segments, wnum⟩ s =
      .go ⟨s + unit (text.bytes.drop s), .outer,
        if !opt.throwUnknown && cbk then segments ++ [⟨s, unit (text.bytes.drop s)⟩] else segments, wnum⟩ := by
  unfold leave
  rw [if_neg (lt_irrefl (s : ℤ)), drop_memory h, narrow_closed]
  unfold unit
  cases startsWide (text.bytes.drop s) with
  | true => rfl
  | false => rfl

theorem next_eq {point : Point} {r t : ℤ} {es : Option ℕ} (h : s ≤ text.bytes.length)
    (hps : pieces (text.bytes.drop s) = qs ++ ps) :
    next text ⟨s, point, segments, wnum⟩ ⟨(bytesOf qs).length, r, t, es⟩ =
      .go ⟨s, .inner ⟨(bytesOf qs).length + unit (bytesOf ps), r - unit (bytesOf ps), t, es⟩, segments, wnum⟩ := by
  have hnat : ((s : ℤ) + (bytesOf qs).length).toNat? = some (s + (bytesOf qs).length) := rfl
  unfold next
  dsimp only
  rw [hnat, Option.bind_some, ← List.drop_drop, drop_memory h, bytes_of_pieces hps, List.append_assoc, List.drop_left,
    narrow_closed]
  unfold unit
  cases startsWide (bytesOf ps) with
  | true => rfl
  | false => rfl

section Probe
variable (far bm)

/-- The inner loop may come to a word of the dictionary of `L` bytes. -/
def Probe (rest : Bytes) (L : ℕ) : Prop :=
  L < maxPhraseSLen ∧ (L : ℤ) ≤ wrap 32 rest.length ∧
    ∃ qs, qs <+: pieces rest ∧ (bytesOf qs).length = L ∧ hasBit far bm (bytesOf qs) = true

/-- The segment that the inner loop finds: the first word, unless it is empty, or else the next character. -/
def Segmented (rest : Bytes) (L : ℕ) : Prop :=
  (IsLeast {L | Probe far bm rest L} L ∧ 0 < L) ∨
    ((Probe far bm rest 0 ∨ ∀ L, ¬ Probe far bm rest L) ∧ L = unit rest)

end Probe

/-- The segments that are passed on for `L` bytes at `s`: without `EDIV_SOPT_ONLY_MAXMATCH` there may be an empty one. -/
def Covers (opt : Options) (s L : ℕ) (new : List Segment) : Prop :=
  new = [⟨s, L⟩] ∨ (opt.onlyMaxmatch = false ∧ new = [⟨s, 0⟩, ⟨s, L⟩])

theorem length_bytesOf_le (h : qs <+: ps) : (bytesOf qs).length ≤ (bytesOf ps).length := by
  obtain ⟨t, rfl⟩ := h
  rw [bytesOf_append, List.length_append]
  exact Nat.le_add_right _ _

theorem prefix_cases {qs' : List Piece} (h : qs' <+: qs ++ p :: ps) :
    (bytesOf qs').length ≤ (bytesOf qs).length ∨ (bytesOf (qs ++ [p])).length ≤ (bytesOf qs').length := by
  have hqs : qs <+: qs ++ p :: ps := List.prefix_append _ _
  have hqsp : qs ++ [p] <+: qs ++ p :: ps := ⟨ps, by simp⟩
  obtain hlt | hle := Nat.lt_or_ge qs.length qs'.length
  · refine .inr (length_bytesOf_le (List.prefix_of_prefix_length_le hqsp h ?_))
    rw [List.length_append]
    exact hlt
  · exact .inl (length_bytesOf_le (List.prefix_of_prefix_length_le h hqs hle))

theorem bytesOf_eq_take (h : qs <+: pieces rest) : bytesOf qs = rest.take (bytesOf qs).length := by
  obtain ⟨t, ht⟩ := h
  have hrest := bytes_of_pieces ht.symm
  rw [hrest, List.take_left]

theorem hasBit_of_probe (hqs : qs <+: pieces rest) (h : Probe far bm rest (bytesOf qs).length) :
    hasBit far bm (bytesOf qs) = true := by
  obtain ⟨-, -, qs', hqs', hlen, hbit⟩ := h
  rwa [bytesOf_eq_take hqs', hlen, ← bytesOf_eq_take hqs] at hbit

/-- A length is not made larger by an `int`. -/
theorem wrap_le (n : ℕ) : wrap 32 n ≤ n := by
  unfold wrap
  rw [Int.bmod_def]
  split
  · omega
  · omega

theorem sizeT_of_lt {n : ℕ} (h : n < 2 ^ 64) : sizeT n = n := by
  unfold sizeT
  omega

/-- The state in which the inner loop has passed some pieces. -/
def scanning (text : CString) (s : ℕ) (qs : List Piece) : Point :=
  .inner ⟨(bytesOf qs).length, wrap 32 (text.bytes.drop s).length - (bytesOf qs).length, s, none⟩

theorem step_out (hs : s ≤ text.bytes.length)
    (hout : ¬ ((bytesOf qs).length < maxPhraseSLen ∧ ((bytesOf qs).length : ℤ) ≤ wrap 32 (text.bytes.drop s).length)) :
    step far bm text opt cbk ⟨s, scanning text s qs, segments, wnum⟩ =
      .go ⟨s + unit (text.bytes.drop s), .outer,
        if !opt.throwUnknown && cbk then segments ++ [⟨s, unit (text.bytes.drop s)⟩] else segments, wnum⟩ := by
  refine (if_neg ?_).trans (leave_unit hs)
  rintro ⟨hlt, hle⟩
  exact hout ⟨Int.ofNat_lt.mp hlt, by dsimp only at hle; omega⟩

theorem step_in (hs : s ≤ text.bytes.length) (hskip : opt.skipNutf = false) (hps : pieces (text.bytes.drop s) = qs ++ ps)
    (hlt : (bytesOf qs).length < maxPhraseSLen) (hle : ((bytesOf qs).length : ℤ) ≤ wrap 32 (text.bytes.drop s).length) :
    step far bm text opt cbk ⟨s, scanning text s qs, segments, wnum⟩ =
      if hasBit far bm (bytesOf qs) then
        leave text opt cbk ⟨s, scanning text s qs,
          if !opt.onlyMaxmatch && cbk then segments ++ [⟨s, (bytesOf qs).length⟩] else segments, counted wnum⟩
          (s + (bytesOf qs).length : ℕ)
      else .go ⟨s, .inner ⟨(bytesOf qs).length + unit (bytesOf ps),
        wrap 32 (text.bytes.drop s).length - (bytesOf qs).length - unit (bytesOf ps), s, none⟩, segments, wnum⟩ := by
  have hin : ((bytesOf qs).length : ℤ) < maxPhraseSLen ∧ 0 ≤ wrap 32 (text.bytes.drop s).length - (bytesOf qs).length :=
    ⟨Int.ofNat_lt.mpr hlt, by omega⟩
  have hne : 0 ∉ text.bytes.drop s := fun hzero => text.noZero (List.mem_of_mem_drop hzero)
  refine (if_pos hin).trans ?_
  unfold look
  dsimp only
  rw [drop_memory hs, Int.toNat_natCast, inBitmap_front hps hne]
  cases hasBit far bm (bytesOf qs) with
  | true =>
    change found text opt cbk _ _ = _
    unfold found
    rw [sizeT_of_lt (hlt.trans (by decide))]
    rfl
  | false =>
    change (if opt.skipNutf then _ else _) = _
    rw [hskip]
    exact next_eq hs hps

/-- From the inner loop the machine comes to the next place to look from. -/
def Comes (far : BitVec 32 → ℕ → BitVec 32) (bm : Bitmap) (text : CString) (opt : Options) (st : State) : Prop :=
  ∃ L new wnum', Visits (step far bm text opt true) st ⟨st.s + L, .outer, st.segments ++ new, wnum'⟩ ∧
    Segmented far bm (text.bytes.drop st.s) L ∧ Covers opt st.s L new

theorem Comes.before {st st' : State} (h : Comes far bm text opt st') (hgo : step far bm text opt true st = .go st')
    (hs : st'.s = st.s) (hsegments : st'.segments = st.segments) : Comes far bm text opt st := by
  obtain ⟨L, new, wnum', hvisits, hL, hnew⟩ := h
  rw [hs] at hvisits hL hnew
  rw [hsegments] at hvisits
  exact ⟨L, new, wnum', (Visits.single hgo).trans hvisits, hL, hnew⟩

theorem comes_unit {point : Point} (hthrow : opt.throwUnknown = false)
    (hgo : step far bm text opt true ⟨s, point, segments, wnum⟩ =
      .go ⟨s + unit (text.bytes.drop s), .outer,
        if !opt.throwUnknown && true then segments ++ [⟨s, unit (text.bytes.drop s)⟩] else segments, wnum⟩)
    (hnone : ∀ L, ¬ Probe far bm (text.bytes.drop s) L) : Comes far bm text opt ⟨s, point, segments, wnum⟩ := by
  rw [hthrow] at hgo
  exact ⟨_, [⟨s, unit (text.bytes.drop s)⟩], wnum, Visits.single hgo, .inr ⟨.inr hnone, rfl⟩, .inl rfl⟩

theorem comes_word (hthrow : opt.throwUnknown = false) (hskip : opt.skipNutf = false) (hs : s ≤ text.bytes.length)
    (hps : pieces (text.bytes.drop s) = qs ++ ps) (hlt : (bytesOf qs).length < maxPhraseSLen)
    (hle : ((bytesOf qs).length : ℤ) ≤ wrap 32 (text.bytes.drop s).length) (hbit : hasBit far bm (bytesOf qs) = true)
    (hbelow : ∀ L < (bytesOf qs).length, ¬ Probe far bm (text.bytes.drop s) L) :
    Comes far bm text opt ⟨s, scanning text s qs, segments, wnum⟩ := by
  have hprobe : Probe far bm (text.bytes.drop s) (bytesOf qs).length := ⟨hlt, hle, qs, ⟨ps, hps.symm⟩, rfl, hbit⟩
  have hstep : step far bm text opt true ⟨s, scanning text s qs, segments, wnum⟩ =
      leave text opt true ⟨s, scanning text s qs,
        if !opt.onlyMaxmatch && true then segments ++ [⟨s, (bytesOf qs).length⟩] else segments, counted wnum⟩
        (s + (bytesOf qs).length : ℕ) := (step_in hs hskip hps hlt hle).trans (if_pos hbit)
  obtain h0 | hpos := Nat.eq_zero_or_pos (bytesOf qs).length
  · rw [h0] at hprobe
    have hunit : Segmented far bm (text.bytes.drop s) (unit (text.bytes.drop s)) := .inr ⟨.inl hprobe, rfl⟩
    rw [h0, Nat.add_zero, leave_unit hs, hthrow] at hstep
    cases hmax : opt.onlyMaxmatch with
    | true =>
      rw [hmax] at hstep
      exact ⟨_, [⟨s, unit (text.bytes.drop s)⟩], _, Visits.single hstep, hunit, .inl rfl⟩
    | false =>
      rw [hmax] at hstep
      have hstep : step far bm text opt true ⟨s, scanning text s qs, segments, wnum⟩ =
          .go ⟨s + unit (text.bytes.drop s), .outer, segments ++ [⟨s, 0⟩] ++ [⟨s, unit (text.bytes.drop s)⟩],
            counted wnum⟩ := hstep
      rw [List.append_assoc] at hstep
      exact ⟨_, [⟨s, 0⟩, ⟨s, unit (text.bytes.drop s)⟩], _, Visits.single hstep, hunit, .inr ⟨hmax, rfl⟩⟩
  · have hword : Segmented far bm (text.bytes.drop s) (bytesOf qs).length :=
      .inl ⟨⟨hprobe, fun L hL => Nat.le_of_not_lt fun hlt => hbelow L hlt hL⟩, hpos⟩
    have hsize : sizeT (((s + (bytesOf qs).length : ℕ) : ℤ) - s) = (bytesOf qs).length := by
      rw [Nat.cast_add, add_sub_cancel_left, sizeT_of_lt (hlt.trans (by decide))]
    rw [leave_word (Nat.lt_add_of_pos_right hpos), hsize] at hstep
    cases hmax : opt.onlyMaxmatch with
    | true =>
      rw [hmax] at hstep
      exact ⟨_, [⟨s, (bytesOf qs).length⟩], _, Visits.single hstep, hword, .inl rfl⟩
    | false =>
      rw [hmax] at hstep
      exact ⟨_, [⟨s, (bytesOf qs).length⟩], _, Visits.single hstep, hword, .inl rfl⟩

/-- The inner loop ends, or goes on behind the next character. -/
theorem comes_or_goes (hthrow : opt.throwUnknown = false) (hskip : opt.skipNutf = false)
    (hs : s ≤ text.bytes.length) (hps : pieces (text.bytes.drop s) = qs ++ ps)
    (hbelow : ∀ L < (bytesOf qs).length, ¬ Probe far bm (text.bytes.drop s) L) :
    Comes far bm text opt ⟨s, scanning text s qs, segments, wnum⟩ ∨
      (∀ L < (bytesOf qs).length + 1, ¬ Probe far bm (text.bytes.drop s) L) ∧
        step far bm text opt true ⟨s, scanning text s qs, segments, wnum⟩ =
          .go ⟨s, .inner ⟨(bytesOf qs).length + unit (bytesOf ps),
            wrap 32 (text.bytes.drop s).length - (bytesOf qs).length - unit (bytesOf ps), s, none⟩, segments, wnum⟩ := by
  by_cases hin : (bytesOf qs).length < maxPhraseSLen ∧ ((bytesOf qs).length : ℤ) ≤ wrap 32 (text.bytes.drop s).length
  · obtain ⟨hlt, hle⟩ := hin
    by_cases hbit : hasBit far bm (bytesOf qs) = true
    · exact .inl (comes_word hthrow hskip hs hps hlt hle hbit hbelow)
    · refine .inr ⟨fun L hL => ?_, (step_in hs hskip hps hlt hle).trans (if_neg hbit)⟩
      obtain hlt | rfl := Nat.lt_succ_iff_lt_or_eq.mp hL
      · exact hbelow L hlt
      · exact fun hprobe => hbit (hasBit_of_probe ⟨ps, hps.symm⟩ hprobe)
  · refine .inl (comes_unit hthrow (step_out hs hin) fun L hL => ?_)
    obtain hlt | hge := Nat.lt_or_ge L (bytesOf qs).length
    · exact hbelow L hlt hL
    · exact hin ⟨hge.trans_lt hL.1, (Int.ofNat_le.mpr hge).trans hL.2.1⟩

theorem probe_le {L : ℕ} (h : Probe far bm rest L) : L ≤ rest.length := by
  obtain ⟨-, -, qs, hqs, rfl, -⟩ := h
  have hle := length_bytesOf_le hqs
  rwa [bytesOf_pieces] at hle

/-- The inner loop comes to the first word of the dictionary, or to the next character. -/
theorem comes_scanning (hthrow : opt.throwUnknown = false) (hskip : opt.skipNutf = false)
    (hs : s ≤ text.bytes.length) (hps : pieces (text.bytes.drop s) = qs ++ ps)
    (hbelow : ∀ L < (bytesOf qs).length, ¬ Probe far bm (text.bytes.drop s) L) :
    Comes far bm text opt ⟨s, scanning text s qs, segments, wnum⟩ := by
  induction ps generalizing qs with
  | nil =>
    obtain hcomes | ⟨hnone, hgo⟩ : Comes far bm text opt ⟨s, scanning text s qs, segments, wnum⟩ ∨ _ :=
      comes_or_goes hthrow hskip hs hps hbelow
    · exact hcomes
    -- The text ends here, and `r` is negative behind it.
    have hlen : (text.bytes.drop s).length = (bytesOf qs).length := by
      rw [bytes_of_pieces hps, bytesOf_nil, List.append_nil]
    have hr : ¬ 0 ≤ wrap 32 (text.bytes.drop s).length - (bytesOf qs).length - unit (bytesOf []) := by
      have hwrap := wrap_le (text.bytes.drop s).length
      change ¬ 0 ≤ _ - _ - 1
      omega
    refine Comes.before ?_ hgo rfl rfl
    refine comes_unit hthrow ((if_neg fun hin => hr hin.2).trans (leave_unit hs)) fun L hL => ?_
    exact hnone L (by have := probe_le hL; omega) hL
  | cons p ps ih =>
    obtain hcomes | ⟨hnone, hgo⟩ : Comes far bm text opt ⟨s, scanning text s qs, segments, wnum⟩ ∨ _ :=
      comes_or_goes hthrow hskip hs hps hbelow
    · exact hcomes
    have hnext : Comes far bm text opt ⟨s, scanning text s (qs ++ [p]), segments, wnum⟩ := by
      refine ih (hps.trans (by simp)) fun L hL hprobe => ?_
      obtain ⟨qs', hqs', hlen, -⟩ := hprobe.2.2
      rw [← hlen] at hL hprobe
      obtain hle | hge := prefix_cases (hps ▸ hqs')
      · exact hnone _ (Nat.lt_succ_of_le hle) hprobe
      · exact absurd hL (Nat.not_lt.mpr hge)
    refine hnext.before (hgo.trans ?_) rfl rfl
    rw [unit_cons (readAs_back hps)]
    unfold scanning
    rw [bytesOf_append, List.length_append, Nat.cast_add, sub_sub]
    simp

theorem comes_outer (hthrow : opt.throwUnknown = false) (hskip : opt.skipNutf = false) (hs : s < text.bytes.length) :
    Comes far bm text opt ⟨s, .outer, segments, wnum⟩ := by
  have hcomes : Comes far bm text opt ⟨s, scanning text s [], segments, wnum⟩ :=
    comes_scanning hthrow hskip hs.le rfl fun L hL => absurd hL (Nat.not_lt_zero L)
  refine hcomes.before ((step_outer hs).trans ?_) rfl rfl
  unfold scanning
  rw [List.length_drop, Nat.cast_sub hs.le]
  simp

def segmentsAt : ℕ → List ℕ → List Segment
  | _, [] => []
  | s, n :: ns => ⟨s, n⟩ :: segmentsAt (s + n) ns

def passed (text : CString) (segments : List Segment) : Bytes :=
  segments.flatMap fun g => slice text.bytes g.off g.len

theorem passed_covers {L : ℕ} {new : List Segment} (h : Covers opt s L new) :
    passed text new = (text.bytes.drop s).take L := by
  obtain rfl | ⟨-, rfl⟩ := h
  · simp [passed, slice]
  · simp [passed, slice]

theorem segmented_le {L : ℕ} (hrest : rest ≠ []) (h : Segmented far bm rest L) : 0 < L ∧ L ≤ rest.length := by
  obtain ⟨hleast, hpos⟩ | ⟨-, rfl⟩ := h
  · exact ⟨hpos, probe_le hleast.1⟩
  · exact unit_le hrest

/-- The text is cut by the rule of the inner loop. -/
theorem split_run (far : BitVec 32 → ℕ → BitVec 32) (bm : Bitmap) (hthrow : opt.throwUnknown = false)
    (hskip : opt.skipNutf = false) (hs : s ≤ text.bytes.length) (segments : List Segment) (wnum : Option ℤ) :
    ∃ ns new wnum', Halts (step far bm text opt true) ⟨s, .outer, segments, wnum⟩ (.done (segments ++ new) wnum') ∧
      CutBy (Segmented far bm) (text.bytes.drop s) ns ∧ passed text new = text.bytes.drop s ∧
      (opt.onlyMaxmatch = true → new = segmentsAt s ns) := by
  induction hn : text.bytes.length - s using Nat.strongRecOn generalizing s segments wnum with
  | ind n ih =>
    obtain rfl | hlt := hs.eq_or_lt
    · refine ⟨[], [], wnum, ?_, ?_, ?_, fun _ => rfl⟩
      · rw [List.append_nil]
        exact ⟨_, Visits.refl _, step_end le_rfl⟩
      · rw [List.drop_length]
        exact .nil
      · rw [List.drop_length]
        rfl
    · have hcomes : Comes far bm text opt ⟨s, .outer, segments, wnum⟩ := comes_outer hthrow hskip hlt
      obtain ⟨L, new, wnum', hvisits, hL, hnew⟩ := hcomes
      have hrest : text.bytes.drop s ≠ [] := by
        rw [ne_eq, List.drop_eq_nil_iff]
        omega
      obtain ⟨hpos, hle⟩ := segmented_le hrest hL
      rw [List.length_drop] at hle
      obtain ⟨ns, new', wnum'', hhalts, hcut, hpassed, hmax⟩ :=
        ih (text.bytes.length - (s + L)) (by omega) (by omega) (segments ++ new) wnum' rfl
      refine ⟨L :: ns, new ++ new', wnum'', ?_, ?_, ?_, ?_⟩
      · rw [← List.append_assoc]
        exact hvisits.halts hhalts
      · refine .cons hrest hL ?_
        rwa [List.drop_drop]
      · unfold passed at hpassed ⊢
        rw [List.flatMap_append, hpassed, ← List.drop_drop]
        exact (congrArg (· ++ _) (passed_covers hnew)).trans (List.take_append_drop _ _)
      · intro h
        obtain rfl | ⟨hfalse, -⟩ := hnew
        · rw [hmax h]
          rfl
        · rw [h] at hfalse
          cases hfalse

theorem initial_visits (h : text.bytes ≠ []) (wnum : Option ℤ) :
    Visits (step far bm text opt cbk) (initial wnum) ⟨0, .outer, [], wnum⟩ :=
  Visits.single (if_neg fun h0 => h (List.length_eq_zero_iff.mp h0))

end Steps

/-- Nothing of a text is lost: the segments that are passed on, one after the other, are the text. -/
theorem divides (far : BitVec 32 → ℕ → BitVec 32) (bm : Bitmap) (text : CString) (h : text.bytes ≠ [])
    (onlyMaxmatch : Bool) (wnum : Option ℤ) :
    ∃ segments wnum',
      Halts (step far bm text ⟨onlyMaxmatch, false, false, false⟩ true) (initial wnum) (.done segments wnum') ∧
        ¬ Faults (step far bm text ⟨onlyMaxmatch, false, false, false⟩ true) (initial wnum) ∧
        passed text segments = text.bytes := by
  let opt : Options := ⟨onlyMaxmatch, false, false, false⟩
  have hthrow : opt.throwUnknown = false := rfl
  have hskip : opt.skipNutf = false := rfl
  obtain ⟨ns, new, wnum', hhalts, -, hpassed, -⟩ :=
    split_run far bm hthrow hskip (Nat.zero_le text.bytes.length) [] wnum
  rw [List.drop_zero] at hpassed
  have hrun := (initial_visits h wnum).halts hhalts
  exact ⟨new, wnum', hrun, hrun.not_faults, hpassed⟩

/-- A byte that no character begins with -/
theorem divides_stray : ∃ segments wnum',
    Halts (step (fun x _ => x) (fun _ => 0) ⟨[0xA9, 97], by decide⟩ ⟨true, false, false, false⟩ true) (initial none)
        (.done segments wnum') ∧
      ¬ Faults (step (fun x _ => x) (fun _ => 0) ⟨[0xA9, 97], by decide⟩ ⟨true, false, false, false⟩ true)
        (initial none) ∧
      passed ⟨[0xA9, 97], by decide⟩ segments = [0xA9, 97] :=
  divides (fun x _ => x) (fun _ => 0) ⟨[0xA9, 97], by decide⟩ (by decide) true none

end Cmoon.WordDivision
