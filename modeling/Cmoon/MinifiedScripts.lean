import Cmoon.ScriptLexemes

/-! # The minified script

The run of `jsmin` over a script, followed lexeme by lexeme: a gap only changes the character held, a lexeme is copied.
The minified script has the same lexemes, with at most one character left of every gap, and is left as it is by
another run unless two slashes, or a slash and an asterisk, have met. -/
namespace Cmoon.MinifiedScripts
open DecimalText ScriptMinifiers Minifier ScriptLexemes

def rest (i : Input) : Bytes := (i.theLookahead.toList ++ i.stdin).map translateControl

section Reading
variable {i : Input} {c : UInt8} {s p : Bytes}

theorem rest_range (hc : c ∈ rest i) : c = 10 ∨ 32 ≤ c := by
  obtain ⟨b, -, rfl⟩ := List.mem_map.mp hc
  exact translate_range b

theorem not_le_of_mem_rest (hc : c ∈ rest i) (hne : c ≠ 10) : ¬ c ≤ 10 :=
  fun hle => absurd (UInt8.le_trans ((rest_range hc).resolve_left hne) hle) (by decide)

theorem get_nil (h : rest i = []) : ∃ i', get i = (none, i') ∧ rest i' = [] := by
  obtain ⟨_ | a, _ | ⟨b, s⟩⟩ := i
  · exact ⟨_, rfl, rfl⟩
  all_goals cases h

theorem get_cons (h : rest i = c :: s) : ∃ i', get i = (some c, i') ∧ rest i' = s := by
  obtain ⟨_ | a, _ | ⟨b, t⟩⟩ := i
  · cases h
  all_goals
    cases h
    exact ⟨_, rfl, rfl⟩

theorem peek_rest (i : Input) : (peek i).1 = (rest i).head? ∧ rest (peek i).2 = rest i := by
  obtain ⟨_ | a, _ | ⟨b, t⟩⟩ := i <;> simp [peek, ScriptMinifiers.get, rest, translate_idem]

theorem skipLine_close (hs : (10 : UInt8) ∉ p) (h : rest i = p ++ 10 :: s) :
    ∃ i', skipLine i = (some 10, i') ∧ rest i' = s := by
  induction p generalizing i with
  | nil =>
    obtain ⟨i', hget, hrest⟩ := get_cons h
    exact ⟨i', by rw [skipLine_some hget, if_pos (by decide)], hrest⟩
  | cons c p ih =>
    obtain ⟨hc, hp⟩ := not_or.mp (mt List.mem_cons.mpr hs)
    obtain ⟨i', hget, hrest⟩ := get_cons h
    have hlt : ¬ c ≤ 10 := not_le_of_mem_rest (by rw [h]; exact List.mem_cons_self) (Ne.symm hc)
    obtain ⟨i'', hskip, hrest'⟩ := ih hp hrest
    exact ⟨i'', by rw [skipLine_some hget, if_neg hlt, hskip], hrest'⟩

theorem skipLine_end (hs : (10 : UInt8) ∉ rest i) : ∃ i', skipLine i = (none, i') ∧ rest i' = [] := by
  generalize h : rest i = p at hs
  induction p generalizing i with
  | nil =>
    obtain ⟨i', hget, hrest⟩ := get_nil h
    exact ⟨i', skipLine_none hget, hrest⟩
  | cons c p ih =>
    obtain ⟨hc, hp⟩ := not_or.mp (mt List.mem_cons.mpr hs)
    obtain ⟨i', hget, hrest⟩ := get_cons h
    have hlt : ¬ c ≤ 10 := not_le_of_mem_rest (by rw [h]; exact List.mem_cons_self) (Ne.symm hc)
    obtain ⟨i'', hskip, hrest'⟩ := ih hrest hp
    exact ⟨i'', by rw [skipLine_some hget, if_neg hlt, hskip], hrest'⟩

/-- No closing mark in a text: none after its first character, which does not start one either. -/
theorem noClose_cons (h : ¬ [42, 47] <:+: c :: p) : ¬ [42, 47] <:+: p ∧ (c = 42 → p.head? ≠ some 47) := by
  refine ⟨fun hp => h (hp.trans (List.suffix_cons c p).isInfix), ?_⟩
  rintro rfl hhead
  obtain ⟨t, rfl⟩ := List.head?_eq_some_iff.mp hhead
  exact h (List.prefix_append [42, 47] t).isInfix

theorem skipBlock_close (hs : ¬ [42, 47] <:+: p) (h : rest i = p ++ 42 :: 47 :: s) :
    ∃ i', skipBlock i = .ok i' ∧ rest i' = s := by
  induction p generalizing i with
  | nil =>
    obtain ⟨i', hget, hrest⟩ := get_cons h
    obtain ⟨hpeek, hrest'⟩ := peek_rest i'
    rw [hrest] at hpeek hrest'
    rw [List.head?_cons] at hpeek
    obtain ⟨i'', hget', hrest''⟩ := get_cons hrest'
    exact ⟨i'', by rw [skipBlock_some hget, if_pos rfl, if_pos hpeek, hget'], hrest''⟩
  | cons c p ih =>
    obtain ⟨hp, hc⟩ := noClose_cons hs
    obtain ⟨i', hget, hrest⟩ := get_cons h
    by_cases h42 : c = 42
    · obtain ⟨hpeek, hrest'⟩ := peek_rest i'
      have hne : (peek i').1 ≠ some 47 := by
        rw [hpeek, hrest]
        cases p with
        | nil => nofun
        | cons d p => exact hc h42
      obtain ⟨i'', hskip, hrest''⟩ := ih hp (hrest'.trans hrest)
      exact ⟨i'', by rw [skipBlock_some hget, if_pos h42, if_neg hne, hskip], hrest''⟩
    · obtain ⟨i'', hskip, hrest''⟩ := ih hp hrest
      exact ⟨i'', by rw [skipBlock_some hget, if_neg h42, hskip], hrest''⟩

theorem skipBlock_end (hs : ¬ [42, 47] <:+: rest i) : skipBlock i = .error .comment := by
  generalize h : rest i = p at hs
  induction p generalizing i with
  | nil =>
    obtain ⟨i', hget, -⟩ := get_nil h
    exact skipBlock_none hget
  | cons c p ih =>
    obtain ⟨hp, hc⟩ := noClose_cons hs
    obtain ⟨i', hget, hrest⟩ := get_cons h
    by_cases h42 : c = 42
    · obtain ⟨hpeek, hrest'⟩ := peek_rest i'
      have hne : (peek i').1 ≠ some 47 := by
        rw [hpeek, hrest]
        exact hc h42
      rw [skipBlock_some hget, if_pos h42, if_neg hne, ih (hrest'.trans hrest) hp]
    · rw [skipBlock_some hget, if_neg h42, ih hrest hp]

theorem next_end (h : rest i = []) : ∃ i', next i = .ok (none, i') ∧ rest i' = [] := by
  obtain ⟨i', hget, hrest⟩ := get_nil h
  exact ⟨i', by rw [next, hget, if_neg nofun], hrest⟩

theorem next_char (h : rest i = c :: s) (hc : c = 47 → NoComment s) :
    ∃ i', next i = .ok (some c, i') ∧ rest i' = s := by
  obtain ⟨i', hget, hrest⟩ := get_cons h
  by_cases h47 : c = 47
  · obtain ⟨hpeek, hrest'⟩ := peek_rest i'
    rw [hrest] at hpeek hrest'
    have hno := hc h47
    rw [NoComment, ← hpeek] at hno
    refine ⟨(peek i').2, ?_, hrest'⟩
    simp only [next, hget, h47, if_true, if_neg hno.1, if_neg hno.2]
  · exact ⟨i', by rw [next, hget, if_neg (h47 ∘ Option.some.inj)], hrest⟩

/-- A slash and a character after it that has only been looked at. -/
theorem next_comment (h : rest i = 47 :: c :: s) : ∃ i', rest i' = c :: s ∧
    next i = if c = 47 then .ok (skipLine i')
      else if c = 42 then (skipBlock (get i').2).map fun i => (some 32, i) else .ok (some 47, i') := by
  obtain ⟨i', hget, hrest⟩ := get_cons h
  obtain ⟨hpeek, hrest'⟩ := peek_rest i'
  rw [hrest] at hpeek hrest'
  refine ⟨(peek i').2, hrest', ?_⟩
  simp only [next, hget, if_true, hpeek, List.head?_cons, Option.some.injEq]

theorem next_piece {b : UInt8} (hp : Piece p b) (h : rest i = p ++ s) :
    ∃ i', next i = .ok (some b, i') ∧ rest i' = s := by
  cases hp with
  | blank => exact next_char h nofun
  | lineFeed => exact next_char h nofun
  | @line p hline =>
    have h : rest i = 47 :: 47 :: (p ++ 10 :: s) := by simpa using h
    obtain ⟨i', hrest, hnext⟩ := next_comment h
    have hline : (10 : UInt8) ∉ 47 :: p := List.not_mem_cons_of_ne_of_not_mem (by decide) hline
    obtain ⟨i'', hskip, hrest'⟩ := skipLine_close hline hrest
    exact ⟨i'', by rw [hnext, if_pos rfl, hskip], hrest'⟩
  | @block p hblock =>
    have h : rest i = 47 :: 42 :: (p ++ 42 :: 47 :: s) := by simpa using h
    obtain ⟨i', hrest, hnext⟩ := next_comment h
    obtain ⟨i₁, hget, hrest₁⟩ := get_cons hrest
    obtain ⟨i'', hskip, hrest'⟩ := skipBlock_close hblock hrest₁
    exact ⟨i'', by rw [hnext, if_neg (by decide), if_pos rfl, hget, hskip]; rfl, hrest'⟩

theorem next_line (hs : (10 : UInt8) ∉ s) (h : rest i = 47 :: 47 :: s) :
    ∃ i', next i = .ok (none, i') ∧ rest i' = [] := by
  obtain ⟨i', hrest, hnext⟩ := next_comment h
  have hno : (10 : UInt8) ∉ rest i' := by
    rw [hrest]
    exact List.not_mem_cons_of_ne_of_not_mem (by decide) hs
  obtain ⟨i'', hskip, hrest'⟩ := skipLine_end hno
  exact ⟨i'', by rw [hnext, if_pos rfl, hskip], hrest'⟩

theorem next_block (hs : ¬ [42, 47] <:+: s) (h : rest i = 47 :: 42 :: s) : next i = .error .comment := by
  obtain ⟨i', hrest, hnext⟩ := next_comment h
  obtain ⟨i₁, hget, hrest₁⟩ := get_cons hrest
  rw [hnext, if_neg (by decide), if_pos rfl, hget, skipBlock_end (hrest₁ ▸ hs)]
  rfl

end Reading

section Literals
variable {m : Minifier} {q c : UInt8} {b s : Bytes}

theorem escapeA_cons (h : rest m.input = c :: s) (hc : c ≠ 92) :
    ∃ i', m.getA.escapeA = { m with theA := some c, input := i' } ∧ rest i' = s := by
  obtain ⟨i', hget, hrest⟩ := get_cons h
  refine ⟨i', ?_, hrest⟩
  have hA : m.getA = { m with theA := some c, input := i' } := by rw [getA, hget]
  rw [hA, escapeA, if_neg (hc ∘ Option.some.inj)]

theorem escapeA_escape (h : rest m.input = 92 :: c :: s) :
    ∃ i', m.getA.escapeA = { m with theA := some c, input := i', stdout := m.stdout ++ [92] } ∧ rest i' = s := by
  obtain ⟨i₁, hget₁, hrest₁⟩ := get_cons h
  obtain ⟨i', hget, hrest⟩ := get_cons hrest₁
  refine ⟨i', ?_, hrest⟩
  have hA : m.getA = { m with theA := some 92, input := i₁ } := by rw [getA, hget₁]
  rw [hA, escapeA, if_pos rfl, getA, putA, hget]
  rfl

theorem getA_cons (h : rest m.input = c :: s) : m.getA.theA = some c := by
  obtain ⟨i', hget, -⟩ := get_cons h
  rw [getA, hget]

theorem getA_nil (h : rest m.input = []) : m.getA.theA = none ∧ m.getA.escapeA.theA = none := by
  obtain ⟨i', hget, -⟩ := get_nil h
  have hA : m.getA = { m with theA := none, input := i' } := by rw [getA, hget]
  rw [hA, escapeA, if_neg (Option.some_ne_none _).symm]
  exact ⟨rfl, rfl⟩

theorem escapeA_last (h : rest m.input = [92]) : m.getA.escapeA.theA = none := by
  obtain ⟨i₁, hget₁, hrest₁⟩ := get_cons h
  obtain ⟨i', hget, -⟩ := get_nil hrest₁
  have hA : m.getA = { m with theA := some 92, input := i₁ } := by rw [getA, hget₁]
  rw [hA, escapeA, if_pos rfl, getA, putA, hget]

variable {e : Unterminated}

theorem literalLoop_close (hq : q ≠ 92) (hb : Body q b) (h : rest m.input = b ++ q :: s) :
    ∃ m', literalLoop q e m = .ok m' ∧ m'.theA = some q ∧ rest m'.input = s ∧ m'.stdout = m.stdout ++ b := by
  induction hb generalizing m with
  | nil =>
    obtain ⟨i', hget, hrest⟩ := get_cons h
    have hA : m.getA = { m with theA := some q, input := i' } := by rw [getA, hget]
    refine ⟨m.getA, ?_, by rw [hA], by rw [hA]; exact hrest, by rw [hA]; exact (List.append_nil _).symm⟩
    rw [literalLoop, if_pos (by rw [hA])]
  | @char d b hdq hd _ ih =>
    obtain ⟨i', hesc, hrest⟩ := escapeA_cons h hd
    obtain ⟨m', hloop, hA', hrest', hout⟩ := ih (m := m.getA.escapeA.putA) (by rw [hesc]; exact hrest)
    refine ⟨m', ?_, hA', hrest', by rw [hout, hesc]; simp [putA]⟩
    rw [literalLoop, if_neg (by rw [getA_cons h]; exact hdq ∘ Option.some.inj),
      if_neg (by rw [hesc]; exact Option.some_ne_none d), hloop]
  | @escape d b _ ih =>
    obtain ⟨i', hesc, hrest⟩ := escapeA_escape h
    obtain ⟨m', hloop, hA', hrest', hout⟩ := ih (m := m.getA.escapeA.putA) (by rw [hesc]; exact hrest)
    refine ⟨m', ?_, hA', hrest', by rw [hout, hesc]; simp [putA]⟩
    rw [literalLoop, if_neg (by rw [getA_cons h]; exact hq ∘ Option.some.inj ∘ Eq.symm),
      if_neg (by rw [hesc]; exact Option.some_ne_none d), hloop]

theorem literalLoop_body (hq : q ≠ 92) (hb : Body q b) (h : rest m.input = b ++ s)
    (hs : ∀ m : Minifier, rest m.input = s → ∃ o, literalLoop q e m = .error (e, o)) :
    ∃ o, literalLoop q e m = .error (e, o) := by
  induction hb generalizing m with
  | nil => exact hs m h
  | @char d b hdq hd _ ih =>
    obtain ⟨i', hesc, hrest⟩ := escapeA_cons h hd
    obtain ⟨o, hloop⟩ := ih (m := m.getA.escapeA.putA) (by rw [hesc]; exact hrest)
    refine ⟨o, ?_⟩
    rw [literalLoop, if_neg (by rw [getA_cons h]; exact hdq ∘ Option.some.inj),
      if_neg (by rw [hesc]; exact Option.some_ne_none d), hloop]
  | @escape d b _ ih =>
    obtain ⟨i', hesc, hrest⟩ := escapeA_escape h
    obtain ⟨o, hloop⟩ := ih (m := m.getA.escapeA.putA) (by rw [hesc]; exact hrest)
    refine ⟨o, ?_⟩
    rw [literalLoop, if_neg (by rw [getA_cons h]; exact hq ∘ Option.some.inj ∘ Eq.symm),
      if_neg (by rw [hesc]; exact Option.some_ne_none d), hloop]

theorem literalLoop_open (hq : q ≠ 92) (hs : Open q (rest m.input)) : ∃ o, literalLoop q e m = .error (e, o) := by
  obtain hb | ⟨b, hb, hrest⟩ := hs
  · refine literalLoop_body hq hb (List.append_nil _).symm fun m hend => ⟨m.getA.escapeA.stdout, ?_⟩
    obtain ⟨hA, hesc⟩ := getA_nil hend
    rw [literalLoop, if_neg (by rw [hA]; exact (Option.some_ne_none q).symm), if_pos hesc]
  · refine literalLoop_body hq hb hrest fun m hend => ⟨m.getA.escapeA.stdout, ?_⟩
    rw [literalLoop, if_neg (by rw [getA_cons hend]; exact hq ∘ Option.some.inj ∘ Eq.symm), if_pos (escapeA_last hend)]

end Literals

def goOn (m : Minifier) : Exits Bytes := m.action3.bind loop

/-- What the character held is sure to write. -/
def pending (a : UInt8) : Bytes := if a = 32 ∨ a = 10 then [] else [a]

/-- `a` is held in front of the text `s`, with `o` written as soon as `a` is. -/
structure Before (m : Minifier) (a : UInt8) (s o : Bytes) : Prop where
  theA : m.theA = some a
  input : rest m.input = s
  stdout : m.stdout ++ pending a = o

section Running
variable {m : Minifier} {a b c x : UInt8} {i : Input} {s l p g bs o : Bytes} {ls : List (Bytes × Bytes)}
  {e : Unterminated}

theorem loop_none (hA : m.theA = none) : m.loop = .ok m.stdout := by
  rw [loop]
  split
  · rfl
  · next _ ha => cases hA.symm.trans ha

theorem loop_some (hA : m.theA = some a) : m.loop = (m.turn a).bind loop := by
  rw [loop]
  split
  · next ha => cases hA.symm.trans ha
  · next a' ha =>
    cases hA.symm.trans ha
    cases m.turn a <;> rfl

/-- `theB` has been read and opens no regular expression. -/
theorem goOn_next {c : Option UInt8} (hA : m.theA = some a) (hn : next m.input = .ok (c, i))
    (hc : c = some 47 → opensRegexp a = false) :
    ∃ m₁ : Minifier, goOn m = (m₁.turn a).bind loop ∧ m₁.theA = some a ∧ m₁.theB = c ∧ m₁.input = i ∧
      m₁.stdout = m.stdout := by
  have hre : ¬ (c = some 47 ∧ m.theA.any opensRegexp = true) := by
    rw [hA, Option.any_some]
    exact fun h => Bool.false_ne_true ((hc h.1).symm.trans h.2)
  refine ⟨{ m with theB := c, input := i }, ?_, hA, rfl, rfl, rfl⟩
  rw [← @loop_some { m with theB := c, input := i } a hA]
  simp only [goOn, action3, nextB, hn, Except.bind, regexpB, if_neg hre]

theorem copyB_char (h39 : m.theB ≠ some 39) (h34 : m.theB ≠ some 34) :
    m.action2 = action3 { m with theA := m.theB } := by
  rw [action2, copyB, if_neg (not_or.mpr ⟨h39, h34⟩), Except.bind]

/-- A blank or a line feed in `theB`: it is dropped, or held in place of `theA`. -/
theorem turn_blank (hA : m.theA = some a) (hB : m.theB = some b) (hb : b = 32 ∨ b = 10) :
    ∃ m' : Minifier, m.turn a = m'.action3 ∧ m'.theA = some (carry a b) ∧ m'.input = m.input ∧
      m'.stdout ++ pending (carry a b) = m.stdout ++ pending a := by
  have hcopy (m : Minifier) (hB : m.theB = some b) : m.action2 = action3 { m with theA := some b } := by
    obtain rfl | rfl := hb <;> rw [copyB_char (by rw [hB]; decide) (by rw [hB]; decide), hB]
  have hput : m.putA.stdout = m.stdout ++ [a] := by rw [putA, hA, Option.toList_some]
  have hpend : pending b = [] := if_pos hb
  by_cases h32 : a = 32
  · subst h32
    have hcarry : carry 32 b = b := by obtain rfl | rfl := hb <;> decide
    refine ⟨{ m with theA := some b }, ?_, congrArg some hcarry.symm, rfl, by rw [hcarry, hpend]; rfl⟩
    rw [turn, if_pos rfl, if_neg (by rw [hB]; obtain rfl | rfl := hb <;> decide), hcopy m hB]
  by_cases h10 : a = 10
  · subst h10
    obtain rfl | rfl := hb
    · exact ⟨m, by rw [turn, if_neg h32, if_pos rfl, if_pos hB], hA, rfl, rfl⟩
    · refine ⟨{ m with theA := some 10 }, ?_, rfl, rfl, rfl⟩
      rw [turn, if_neg h32, if_pos rfl, if_neg (by rw [hB]; decide), if_neg (by rw [hB]; decide), hcopy m hB]
  have hpenda : pending a = [a] := if_neg (not_or.mpr ⟨h32, h10⟩)
  have hheld : ∃ m' : Minifier, m.action1 = action3 m' ∧ m'.theA = some b ∧ m'.input = m.input ∧
      m'.stdout ++ pending b = m.stdout ++ pending a :=
    ⟨{ m.putA with theA := some b }, hcopy m.putA hB, rfl, rfl, by rw [hpend, hpenda, List.append_nil]; exact hput⟩
  obtain rfl | rfl := hb
  · rw [turn, if_neg h32, if_neg h10, if_pos hB]
    by_cases hal : isAlphanum a
    · have hcarry : carry a 32 = 32 := by rw [carry, if_neg (fun h => absurd h.1 (by decide)), if_pos hal]
      rw [if_pos hal, hcarry]
      exact hheld
    · have hcarry : carry a 32 = a := by rw [carry, if_neg (fun h => absurd h.1 (by decide)), if_neg hal]
      rw [if_neg hal, hcarry]
      exact ⟨m, rfl, hA, rfl, rfl⟩
  · rw [turn, if_neg h32, if_neg h10, if_neg (by rw [hB]; decide), if_pos hB]
    by_cases hend : endsLine a
    · have hcarry : carry a 10 = 10 := if_pos ⟨rfl, .inr hend⟩
      rw [if_pos hend, hcarry]
      exact hheld
    · have hal : ¬ isAlphanum a := fun h => hend (Bool.or_eq_true_iff.mpr (.inr h))
      have hcarry : carry a 10 = a := by rw [carry, if_neg (fun h => h.2.elim h32 hend), if_neg hal]
      rw [if_neg hend, hcarry]
      exact ⟨m, rfl, hA, rfl, rfl⟩

/-- Another character in `theB`: it is copied, after what is left of the gap. -/
theorem turn_char (hA : m.theA = some a) (hB : m.theB = some c) (h32 : c ≠ 32) (h10 : c ≠ 10) (h47 : a = 10 → c ≠ 47) :
    ∃ m' : Minifier, m.turn a = m'.action2 ∧ m'.theB = some c ∧ m'.input = m.input ∧
      m'.stdout = m.stdout ++ pending a ++ separator a c := by
  have hput : m.putA.stdout = m.stdout ++ [a] := by rw [putA, hA, Option.toList_some]
  have hB32 : m.theB ≠ some 32 := by rw [hB]; exact h32 ∘ Option.some.inj
  have hB10 : m.theB ≠ some 10 := by rw [hB]; exact h10 ∘ Option.some.inj
  have hany (p : UInt8 → Bool) : m.theB.any p = p c := by rw [hB, Option.any_some]
  unfold turn
  rw [hany, hany]
  by_cases ha : a = 32
  · subst ha
    rw [if_pos rfl, separator_blank]
    by_cases hal : isAlphanum c
    · exact ⟨m.putA, by rw [if_pos hal]; rfl, hB, rfl, by rw [hput, if_pos hal]; simp [pending]⟩
    · exact ⟨m, by rw [if_neg hal], hB, rfl, by rw [if_neg hal]; simp [pending]⟩
  rw [if_neg ha]
  by_cases ha' : a = 10
  · subst ha'
    rw [if_pos rfl, if_neg hB32, separator_lineFeed (h47 rfl)]
    by_cases hst : startsLine c
    · exact ⟨m.putA, by rw [if_pos hst]; rfl, hB, rfl, by rw [hput, if_pos hst]; simp [pending]⟩
    · exact ⟨m, by rw [if_neg hst], hB, rfl, by rw [if_neg hst]; simp [pending]⟩
  · rw [if_neg ha', if_neg hB32, if_neg hB10, separator_other ha ha']
    refine ⟨m.putA, rfl, hB, rfl, ?_⟩
    rw [hput, pending, if_neg (not_or.mpr ⟨ha, ha'⟩)]
    exact (List.append_nil _).symm

theorem turn_end (hA : m.theA = some a) (hB : m.theB = none) :
    ∃ m' : Minifier, m.turn a = m'.action2 ∧ m'.theB = none ∧ m'.input = m.input ∧
      m'.stdout = m.stdout ++ pending a := by
  have hput : m.putA.stdout = m.stdout ++ [a] := by rw [putA, hA, Option.toList_some]
  by_cases ha : a = 32
  · refine ⟨m, ?_, hB, rfl, by simp [pending, ha]⟩
    rw [turn, if_pos ha, hB, Option.any_none, if_neg Bool.false_ne_true]
  by_cases ha' : a = 10
  · refine ⟨m, ?_, hB, rfl, by simp [pending, ha']⟩
    rw [turn, if_neg ha, if_pos ha', hB, if_neg nofun, Option.any_none, if_neg Bool.false_ne_true]
  · refine ⟨m.putA, ?_, hB, rfl, by rw [hput, pending, if_neg (not_or.mpr ⟨ha, ha'⟩)]⟩
    rw [turn, if_neg ha, if_neg ha', hB, if_neg nofun, if_neg nofun, action1]

theorem goOn_piece (hp : Piece p b) (hm : Before m a (p ++ s) o) :
    ∃ m', goOn m = goOn m' ∧ Before m' (carry a b) s o := by
  obtain ⟨i', hnext, hrest⟩ := next_piece hp hm.input
  have hb := hp.eq_or
  obtain ⟨m₁, hgo, hA₁, hB₁, hin₁, hout₁⟩ := goOn_next hm.theA hnext (by obtain rfl | rfl := hb <;> nofun)
  obtain ⟨m', hturn, hA, hin, hout⟩ := turn_blank hA₁ hB₁ hb
  refine ⟨m', by rw [hgo, hturn]; rfl, hA, by rw [hin, hin₁]; exact hrest, ?_⟩
  rw [hout, hout₁]
  exact hm.stdout

theorem goOn_gap (hg : Gap g bs) (hm : Before m a (g ++ s) o) :
    ∃ m', goOn m = goOn m' ∧ Before m' (held a bs) s o := by
  induction hg generalizing m a with
  | nil => exact ⟨m, rfl, hm⟩
  | cons hp _ ih =>
    obtain ⟨m₁, hgo₁, hm₁⟩ := goOn_piece hp (List.append_assoc .. ▸ hm)
    obtain ⟨m', hgo, hm'⟩ := ih hm₁
    exact ⟨m', hgo₁.trans hgo, hm'⟩

theorem goOn_end (hnext : next m.input = .ok (none, i)) (hi : rest i = []) (hm : Before m a s o) : goOn m = .ok o := by
  obtain ⟨m₁, hgo, hA₁, hB₁, hin₁, hout₁⟩ := goOn_next hm.theA hnext nofun
  obtain ⟨m', hturn, hB, hin, hout⟩ := turn_end hA₁ hB₁
  obtain ⟨i', hnext', -⟩ := next_end (i := m'.input) (by rw [hin, hin₁]; exact hi)
  have hcopy : m'.action2 = { m' with theA := none }.action3 := by
    rw [copyB_char (by rw [hB]; nofun) (by rw [hB]; nofun), hB]
  have haction : { m' with theA := none }.action3 = .ok { m' with theA := none, theB := none, input := i' } := by
    simp [action3, nextB, hnext', Except.bind, regexpB]
  rw [hgo, hturn, hcopy, haction]
  refine (loop_none rfl).trans (congrArg Except.ok ?_)
  rw [hout, hout₁]
  exact hm.stdout

/-- A character that starts neither a comment nor a literal. -/
theorem goOn_single (hc : c ∉ [32, 10, 34, 39]) (hno : c = 47 → NoComment s ∧ opensRegexp a = false)
    (hm : Before m a (c :: s) o) : ∃ m', goOn m = goOn m' ∧ Before m' c s (o ++ separator a c ++ [c]) := by
  simp only [List.mem_cons, List.not_mem_nil, or_false, not_or] at hc
  obtain ⟨h32, h10, h34, h39⟩ := hc
  obtain ⟨i', hnext, hrest⟩ := next_char hm.input fun h => (hno h).1
  obtain ⟨m₁, hgo, hA₁, hB₁, hin₁, hout₁⟩ := goOn_next hm.theA hnext fun h => (hno (Option.some.inj h)).2
  have h47 : a = 10 → c ≠ 47 := fun ha hc => absurd (ha ▸ (hno hc).2) (by decide)
  obtain ⟨m₂, hturn, hB₂, hin₂, hout₂⟩ := turn_char hA₁ hB₁ h32 h10 h47
  have hcopy : m₂.action2 = { m₂ with theA := some c }.action3 := by
    rw [copyB_char (by rw [hB₂]; exact h39 ∘ Option.some.inj) (by rw [hB₂]; exact h34 ∘ Option.some.inj), hB₂]
  refine ⟨{ m₂ with theA := some c }, by rw [hgo, hturn, hcopy]; rfl, rfl, by rw [hin₂, hin₁]; exact hrest, ?_⟩
  rw [pending, if_neg (not_or.mpr ⟨h32, h10⟩), ← hm.stdout, ← hout₁, hout₂]

theorem goOn_quote {q : UInt8} (hq : q = 39 ∨ q = 34) (hm : Before m a (q :: s) o) :
    ∃ m₁, goOn m = ((literalLoop q .string m₁).bind action3).bind loop ∧ rest m₁.input = s ∧
      m₁.stdout = o ++ separator a q ++ [q] := by
  have h32 : q ≠ 32 := by obtain rfl | rfl := hq <;> decide
  have h10 : q ≠ 10 := by obtain rfl | rfl := hq <;> decide
  have h47 : q ≠ 47 := by obtain rfl | rfl := hq <;> decide
  obtain ⟨i', hnext, hrest⟩ := next_char hm.input fun h => absurd h h47
  obtain ⟨m₁, hgo, hA₁, hB₁, hin₁, hout₁⟩ := goOn_next hm.theA hnext fun h => absurd (Option.some.inj h) h47
  obtain ⟨m₂, hturn, hB₂, hin₂, hout₂⟩ := turn_char hA₁ hB₁ h32 h10 fun _ => h47
  have hcopy : m₂.action2 = (literalLoop q .string { m₂ with theA := m₂.theB }.putA).bind action3 := by
    rw [action2, copyB, if_pos (hB₂ ▸ hq.imp (congrArg some) (congrArg some)),
      @stringLoop_eq { m₂ with theA := m₂.theB } q hB₂]
  refine ⟨{ m₂ with theA := m₂.theB }.putA, by rw [hgo, hturn, hcopy], by rw [← hrest, ← hin₁, ← hin₂]; rfl, ?_⟩
  rw [putA, hB₂, hout₂, hout₁, hm.stdout]
  rfl

theorem goOn_slash (hc : NoComment s) (ha : opensRegexp a = true) (hm : Before m a (47 :: s) o) :
    ∃ m₁, goOn m = ((literalLoop 47 .regexp m₁).bind nextB).bind loop ∧ rest m₁.input = s ∧
      m₁.stdout = o ++ separator a 47 ++ [47] := by
  obtain ⟨i', hnext, hrest⟩ := next_char hm.input fun _ => hc
  have hre : (some 47 : Option UInt8) = some 47 ∧ m.theA.any opensRegexp = true := by
    rw [hm.theA, Option.any_some]
    exact ⟨rfl, ha⟩
  refine ⟨{ m with theB := some 47, input := i' }.putA.putB, ?_, hrest, ?_⟩
  · rw [goOn, action3, nextB, hnext, Except.bind, regexpB, if_pos hre, regexpLoop]
  · have h32 : a ≠ 32 := fun h => absurd (h ▸ ha) (by decide)
    have hsep : pending a ++ separator a 47 = [a] := by
      by_cases h10 : a = 10
      · subst h10
        rfl
      · rw [separator_other h32 h10, pending, if_neg (not_or.mpr ⟨h32, h10⟩), List.append_nil]
    rw [← hm.stdout, List.append_assoc m.stdout, hsep]
    simp only [putB, putA, hm.theA, Option.toList_some]

/-- After the last slash of a regular expression another one does not follow at once. -/
theorem goOn_closed (hA : m.theA = some a) (ha : opensRegexp a = false) : goOn m = m.nextB.bind loop := by
  rw [goOn, action3]
  cases hnext : m.nextB with
  | error e => rfl
  | ok m₁ =>
    have hA₁ : m₁.theA.any opensRegexp = false := by rw [(nextB_left hnext).1, hA, Option.any_some, ha]
    rw [Except.bind, regexpB, if_neg (fun h => Bool.false_ne_true (hA₁.symm.trans h.2)), Except.bind]

theorem goOn_lexeme (hl : Lexeme a l s) (hm : Before m a (l ++ s) o) :
    ∃ m', goOn m = goOn m' ∧ Before m' (l.getLastD x) s (o ++ (separator a (l.headD 0) ++ l)) := by
  rw [← List.append_assoc]
  cases hl with
  | char hc =>
    simp only [List.mem_cons, List.not_mem_nil, or_false, not_or] at hc
    exact goOn_single (by simp [hc]) (fun h => absurd h hc.2.2.2.2) hm
  | slash ha hs =>
    have h47 : (47 : UInt8) ∉ [32, 10, 34, 39] := by decide
    exact goOn_single h47 (fun _ => ⟨hs, ha⟩) hm
  | @string q b _ hq hb =>
    have hq92 : q ≠ 92 := by obtain rfl | rfl := hq <;> decide
    obtain ⟨m₁, hgo, hrest, hout⟩ := goOn_quote (s := b ++ q :: s) hq (by simpa using hm)
    obtain ⟨m', hloop, hA, hrest', hout'⟩ := literalLoop_close (e := .string) hq92 hb hrest
    refine ⟨m', by rw [hgo, hloop]; rfl, ?_⟩
    rw [List.getLastD_concat]
    refine ⟨hA, hrest', ?_⟩
    have hpend : pending q = [q] := by obtain rfl | rfl := hq <;> rfl
    rw [hout', hout, hpend]
    simp
  | @regexp b _ ha hb hs =>
    have hno : NoComment (b ++ 47 :: s) := by
      cases b with
      | nil => exact absurd rfl hs.1
      | cons c b => exact hs
    obtain ⟨m₁, hgo, hrest, hout⟩ := goOn_slash (s := b ++ 47 :: s) hno ha (by simpa using hm)
    obtain ⟨m', hloop, hA, hrest', hout'⟩ := literalLoop_close (e := .regexp) (by decide) hb hrest
    refine ⟨m', by rw [hgo, hloop, goOn_closed hA rfl]; rfl, ?_⟩
    rw [List.getLastD_concat]
    refine ⟨hA, hrest', ?_⟩
    rw [hout', hout]
    simp [pending]

theorem goOn_lexes (h : Lexes x s ls) (hm : Before m x s o) : goOn m = .ok (o ++ render x ls) := by
  induction h generalizing m o with
  | ends hg =>
    obtain ⟨m₁, hgo, hm₁⟩ := goOn_gap hg (by rwa [List.append_nil])
    obtain ⟨i', hnext, hrest⟩ := next_end hm₁.input
    rw [hgo, goOn_end hnext hrest hm₁, render, List.append_nil]
  | comment hg hs =>
    obtain ⟨m₁, hgo, hm₁⟩ := goOn_gap hg hm
    obtain ⟨i', hnext, hrest⟩ := next_line hs hm₁.input
    rw [hgo, goOn_end hnext hrest hm₁, render, List.append_nil]
  | lexeme hg hl _ ih =>
    obtain ⟨m₁, hgo₁, hm₁⟩ := goOn_gap hg hm
    obtain ⟨m', hgo, hm'⟩ := goOn_lexeme hl hm₁
    rw [hgo₁, hgo, ih hm', render]
    simp only [List.append_assoc]

theorem goOn_breaks (h : Breaks x s e) (hm : Before m x s o) : ∃ o', goOn m = .error (e, o') := by
  induction h generalizing m o with
  | comment hg hs =>
    obtain ⟨m₁, hgo, hm₁⟩ := goOn_gap hg hm
    refine ⟨m₁.stdout, ?_⟩
    rw [hgo, goOn, action3, nextB, next_block hs hm₁.input]
    rfl
  | string hg hq hs =>
    obtain ⟨m₁, hgo₁, hm₁⟩ := goOn_gap hg hm
    obtain ⟨m₂, hgo, hrest, -⟩ := goOn_quote hq hm₁
    obtain ⟨o', hloop⟩ := literalLoop_open (e := .string) (by obtain rfl | rfl := hq <;> decide) (hrest ▸ hs)
    exact ⟨o', by rw [hgo₁, hgo, hloop]; rfl⟩
  | regexp hg ha hs hc =>
    obtain ⟨m₁, hgo₁, hm₁⟩ := goOn_gap hg hm
    obtain ⟨m₂, hgo, hrest, -⟩ := goOn_slash hc ha hm₁
    obtain ⟨o', hloop⟩ := literalLoop_open (e := .regexp) (by decide) (hrest ▸ hs)
    exact ⟨o', by rw [hgo₁, hgo, hloop]; rfl⟩
  | lexeme hg hl _ ih =>
    obtain ⟨m₁, hgo₁, hm₁⟩ := goOn_gap hg hm
    obtain ⟨m', hgo, hm'⟩ := goOn_lexeme hl hm₁
    obtain ⟨o', hrun⟩ := ih hm'
    exact ⟨o', by rw [hgo₁, hgo, hrun]⟩

end Running

variable {s t : Bytes} {ls : List (Bytes × Bytes)} {e : Unterminated}

theorem before_initial (s : Bytes) : Before ⟨some 10, none, ⟨none, s⟩, []⟩ 10 (s.map translateControl) [] :=
  ⟨rfl, rfl, rfl⟩

theorem jsmin_lexes (h : Lexes 10 (s.map translateControl) ls) : jsmin s = .ok (render 10 ls) :=
  goOn_lexes h (before_initial s)

theorem jsmin_breaks (h : Breaks 10 (s.map translateControl) e) : ∃ o, jsmin s = .error (e, o) :=
  goOn_breaks h (before_initial s)

theorem translate_eq_self {c : UInt8} (hc : c = 10 ∨ 32 ≤ c) : translateControl c = c := if_pos hc.symm

/-- The characters of a rendered text are those of the text, blanks and line feeds. -/
theorem mem_render {x c : UInt8} (h : Lexes x t ls) (hc : c ∈ render x ls) : c ∈ t ∨ c = 10 ∨ c = 32 := by
  induction h with
  | ends => cases hc
  | comment => cases hc
  | lexeme _ _ _ ih =>
    obtain hc | hc := List.mem_append.mp hc
    · unfold separator at hc
      split_ifs at hc
      · exact .inr (.inl (List.mem_singleton.mp hc))
      · exact .inr (.inr (List.mem_singleton.mp hc))
      · cases hc
    · obtain hc | hc := List.mem_append.mp hc
      · exact .inl (List.mem_append_right _ (List.mem_append_left _ hc))
      · exact (ih hc).imp_left fun h => List.mem_append_right _ (List.mem_append_right _ h)

theorem translate_render (h : Lexes 10 (s.map translateControl) ls) :
    (render 10 ls).map translateControl = render 10 ls := by
  refine (List.map_congr_left fun c hc => translate_eq_self ?_).trans (List.map_id _)
  obtain hc | rfl | rfl := mem_render h hc
  · obtain ⟨b, -, rfl⟩ := List.mem_map.mp hc
    exact translate_range b
  · exact .inl rfl
  · exact .inr (by decide)

/-- The minified script is the script's lexemes, with what is left of the gaps; there is none exactly when a comment or
a literal of the script does not end, and the message says which. -/
theorem jsmin_eq_iff (s : Bytes) :
    (∀ t, jsmin s = .ok t ↔ ∃ ls, Lexes 10 (s.map translateControl) ls ∧ t = render 10 ls) ∧
    ∀ e, (∃ o, jsmin s = .error (e, o)) ↔ Breaks 10 (s.map translateControl) e := by
  refine ⟨fun t => ⟨fun h => ?_, ?_⟩, fun e => ⟨?_, jsmin_breaks⟩⟩
  · obtain ⟨ls, hls⟩ | ⟨e, he⟩ := exists_lexes 10 (s.map translateControl)
    · exact ⟨ls, hls, Except.ok.inj (h.symm.trans (jsmin_lexes hls))⟩
    · obtain ⟨o, ho⟩ := jsmin_breaks he
      exact absurd (h.symm.trans ho) nofun
  · rintro ⟨ls, hls, rfl⟩
    exact jsmin_lexes hls
  · rintro ⟨o, h⟩
    obtain ⟨ls, hls⟩ | ⟨e', he⟩ := exists_lexes 10 (s.map translateControl)
    · exact absurd (h.symm.trans (jsmin_lexes hls)) nofun
    · obtain ⟨o', ho'⟩ := jsmin_breaks he
      cases Except.error.inj (h.symm.trans ho')
      exact he

/-- Another run leaves the minified script as it is exactly when no slash for a division has met a slash or an asterisk
across a gap; then the script has kept its lexemes. -/
theorem jsmin_again (h : Lexes 10 (s.map translateControl) ls) :
    (jsmin (render 10 ls) = .ok (render 10 ls) ↔ Apart ls) ∧
      (Apart ls → Lexes 10 ((render 10 ls).map translateControl) (settle 10 ls)) := by
  have htrans := translate_render h
  refine ⟨⟨fun hrun => by_contra fun hls => ?_, fun hls => ?_⟩, fun hls => ?_⟩
  · obtain ⟨ls', hls', hlt⟩ | ⟨e, he⟩ := render_shrinks h (by decide) hls
    · have hrender := Except.ok.inj (hrun.symm.trans (jsmin_lexes (htrans.symm ▸ hls')))
      rw [← hrender] at hlt
      exact lt_irrefl _ hlt
    · obtain ⟨o, ho⟩ := jsmin_breaks (htrans.symm ▸ he)
      exact absurd (hrun.symm.trans ho) nofun
  · obtain ⟨hlexes, hrender⟩ := lexes_render h (by decide) hls
    rw [← htrans] at hlexes
    exact (jsmin_lexes hlexes).trans (congrArg Except.ok hrender)
  · rw [htrans]
    exact (lexes_render h (by decide) hls).1

/-- The lexemes of the script `a/ /b`. -/
def divided : List (Bytes × Bytes) := [([], [97]), ([], [47]), ([32], [47]), ([], [98])]

theorem lexes_divided : Lexes 10 [97, 47, 32, 47, 98] divided := by
  refine .lexeme .nil (.char (by decide)) (.lexeme .nil (.slash rfl (by decide)) ?_)
  refine .lexeme (.cons .blank .nil) (.slash rfl (by decide)) (.lexeme .nil (.char (by decide)) (.ends .nil))

/-- The slashes of `divided` meet in the minified script, and open a comment there. -/
theorem jsmin_again_divided : jsmin [10, 97, 47, 47, 98] ≠ .ok [10, 97, 47, 47, 98] := by
  intro h
  have hls : Apart divided := (jsmin_again (s := [97, 47, 32, 47, 98]) lexes_divided).1.mp h
  have htail : List.IsChain (fun p q : Bytes × Bytes => p.2 = [47] → NoComment q.2) (divided.drop 1) :=
    (List.isChain_cons.mp hls).2
  exact ((List.isChain_cons.mp htail).1 _ rfl rfl).1 rfl

end Cmoon.MinifiedScripts
