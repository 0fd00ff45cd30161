import Cmoon.DecimalText
import Cmoon.ExceptResults

/-! # The script minifier

`jsmin` reads the standard input through one character of lookahead and writes what is left of the script when its
comments and most of its blanks are gone. The two characters `theA` and `theB` are all it knows of the text around it;
each of its actions reads at least one more character, so it comes to an end. -/
namespace Cmoon.ScriptMinifiers
open DecimalText ExceptResults

/-- What makes the program exit before the end of the input. -/
inductive Unterminated where
  | comment
  | string
  | regexp
  deriving DecidableEq, Repr

def isAlphanum (c : UInt8) : Bool :=
  (97 ≤ c && c ≤ 122) || (48 ≤ c && c ≤ 57) || (65 ≤ c && c ≤ 90) || c == 95 || c == 36 || c == 92 || 126 < c

/-- A control character becomes a line feed or a blank. -/
def translateControl (c : UInt8) : UInt8 := if 32 ≤ c ∨ c = 10 then c else if c = 13 then 10 else 32

/-- The characters `( , = : [ ! & | ? { } ;` and the line feed, after which a slash opens a regular expression. -/
def opensRegexp (c : UInt8) : Bool := [40, 44, 61, 58, 91, 33, 38, 124, 63, 123, 125, 59, 10].contains c

/-- The characters `} ] ) + - " '`, after which a line may end, and the letters. -/
def endsLine (c : UInt8) : Bool := [125, 93, 41, 43, 45, 34, 39].contains c || isAlphanum c

/-- The characters `{ [ ( + -`, with which a line may start, and the letters. -/
def startsLine (c : UInt8) : Bool := [123, 91, 40, 43, 45].contains c || isAlphanum c

theorem translate_idem (c : UInt8) : translateControl (translateControl c) = translateControl c := by
  unfold translateControl
  split
  · rfl
  · split <;> decide

theorem translate_range (c : UInt8) : translateControl c = 10 ∨ 32 ≤ translateControl c := by
  unfold translateControl
  split
  · next h => exact h.symm
  · split
    · exact .inl rfl
    · exact .inr (by decide)

/-- The standard input with `theLookahead`. -/
structure Input where
  theLookahead : Option UInt8
  stdin : Bytes

def Input.left (i : Input) : ℕ := i.theLookahead.toList.length + i.stdin.length

def get (i : Input) : Option UInt8 × Input :=
  match i.theLookahead, i.stdin with
  | some c, s => (some (translateControl c), ⟨none, s⟩)
  | none, c :: s => (some (translateControl c), ⟨none, s⟩)
  | none, [] => (none, ⟨none, []⟩)

def peek (i : Input) : Option UInt8 × Input := ((get i).1, ⟨(get i).1, (get i).2.stdin⟩)

theorem get_left {i i' : Input} {c : UInt8} (h : get i = (some c, i')) : i'.left < i.left := by
  obtain ⟨_ | a, s⟩ := i
  · cases s with
    | nil => cases h
    | cons b s =>
      cases h
      simp [Input.left]
  · cases h
    simp [Input.left]

theorem get_left_le (i : Input) : (get i).2.left ≤ i.left := by
  cases h : get i with
  | mk c i' =>
    cases c with
    | some c => exact (get_left h).le
    | none =>
      obtain ⟨_ | a, _ | ⟨b, s⟩⟩ := i <;> cases h
      simp [Input.left]

theorem peek_left_le (i : Input) : (peek i).2.left ≤ i.left := by
  obtain ⟨_ | a, _ | ⟨b, s⟩⟩ := i <;> simp [peek, get, Input.left, Nat.add_comm]

def skipLine (i : Input) : Option UInt8 × Input :=
  match _h : get i with
  | (none, i') => (none, i')
  | (some c, i') => if c ≤ 10 then (some c, i') else skipLine i'
termination_by i.left
decreasing_by exact get_left ‹_›

/-- The rest of a comment up to its closing mark. -/
def skipBlock (i : Input) : Except Unterminated Input :=
  match _h : get i with
  | (none, _) => .error .comment
  | (some c, i') =>
    if c = 42 then
      if (peek i').1 = some 47 then .ok (get (peek i').2).2 else skipBlock (peek i').2
    else skipBlock i'
termination_by i.left
decreasing_by
  · exact (peek_left_le i').trans_lt (get_left ‹_›)
  · exact get_left ‹_›

/-- `next`: a comment counts as the line feed after it or as a blank. -/
def next (i : Input) : Except Unterminated (Option UInt8 × Input) :=
  if (get i).1 = some 47 then
    let i := peek (get i).2
    if i.1 = some 47 then .ok (skipLine i.2)
    else if i.1 = some 42 then (skipBlock (get i.2).2).map fun i => (some 32, i)
    else .ok (some 47, i.2)
  else .ok (get i)

theorem get_left_add (i : Input) : (get i).2.left + (get i).1.toList.length = i.left := by
  obtain ⟨_ | a, _ | ⟨b, s⟩⟩ := i <;> simp [get, Input.left, Nat.add_comm]

theorem skipLine_none {i i' : Input} (h : get i = (none, i')) : skipLine i = (none, i') := by
  rw [skipLine, h]

theorem skipLine_some {i i' : Input} {c : UInt8} (h : get i = (some c, i')) :
    skipLine i = if c ≤ 10 then (some c, i') else skipLine i' := by
  rw [skipLine, h]

theorem skipBlock_none {i i' : Input} (h : get i = (none, i')) : skipBlock i = .error .comment := by
  rw [skipBlock, h]

theorem skipBlock_some {i i' : Input} {c : UInt8} (h : get i = (some c, i')) :
    skipBlock i = if c = 42 then
      if (peek i').1 = some 47 then .ok (get (peek i').2).2 else skipBlock (peek i').2
    else skipBlock i' := by
  rw [skipBlock, h]

theorem skipLine_left (i : Input) : (skipLine i).2.left + (skipLine i).1.toList.length ≤ i.left := by
  induction i using skipLine.induct with
  | case1 i i' h =>
    rw [skipLine_none h, ← get_left_add i, h]
  | case2 i c i' h hc =>
    rw [skipLine_some h, if_pos hc]
    exact get_left h
  | case3 i c i' h hc ih =>
    rw [skipLine_some h, if_neg hc]
    exact ih.trans (get_left h).le

theorem skipBlock_left {i i' : Input} (h : skipBlock i = .ok i') : i'.left < i.left := by
  induction i using skipBlock.induct with
  | case1 i i₁ hget =>
    rw [skipBlock_none hget] at h
    cases h
  | case2 i i₁ hpeek hget =>
    rw [skipBlock_some hget, if_pos rfl, if_pos hpeek] at h
    cases h
    exact (get_left_le _).trans_lt ((peek_left_le i₁).trans_lt (get_left hget))
  | case3 i i₁ hpeek hget ih =>
    rw [skipBlock_some hget, if_pos rfl, if_neg hpeek] at h
    exact (ih h).trans ((peek_left_le i₁).trans_lt (get_left hget))
  | case4 i c i₁ hget hc ih =>
    rw [skipBlock_some hget, if_neg hc] at h
    exact (ih h).trans (get_left hget)

theorem next_left {i i' : Input} {c : Option UInt8} (h : next i = .ok (c, i')) :
    i'.left + c.toList.length ≤ i.left := by
  have hadd := get_left_add i
  unfold next at h
  split at h
  · next hslash =>
    have hpeek := peek_left_le (get i).2
    rw [hslash, Option.toList_some, List.length_singleton] at hadd
    dsimp only at h
    split at h
    · have hskip := skipLine_left (peek (get i).2).2
      rw [Except.ok.inj h] at hskip
      exact hskip.trans (hpeek.trans (by omega))
    · split at h
      · cases hskip : skipBlock (get (peek (get i).2).2).2 with
        | error e => simp [hskip, Except.map] at h
        | ok i₁ =>
          simp only [hskip, Except.map, Except.ok.injEq, Prod.mk.injEq] at h
          obtain ⟨rfl, rfl⟩ := h
          have hlt := skipBlock_left hskip
          have hle := get_left_le (peek (get i).2).2
          simp only [Option.toList_some, List.length_singleton]
          omega
      · cases h
        simp only [Option.toList_some, List.length_singleton]
        omega
  · rw [Except.ok.inj h] at hadd
    exact hadd.le

structure Minifier where
  theA : Option UInt8
  theB : Option UInt8
  input : Input
  stdout : Bytes

/-- The run goes on, or exits with a message after what it has written. -/
abbrev Exits := Except (Unterminated × Bytes)

namespace Minifier

def putA (m : Minifier) : Minifier := { m with stdout := m.stdout ++ m.theA.toList }

def putB (m : Minifier) : Minifier := { m with stdout := m.stdout ++ m.theB.toList }

def getA (m : Minifier) : Minifier := { m with theA := (get m.input).1, input := (get m.input).2 }

def nextB (m : Minifier) : Exits Minifier :=
  match next m.input with
  | .ok (c, i) => .ok { m with theB := c, input := i }
  | .error e => .error (e, m.stdout)

/-- After a backslash the next character is read as it is. -/
def escapeA (m : Minifier) : Minifier := if m.theA = some 92 then m.putA.getA else m

/-- What is left to be done: the characters to be read and the ones held. -/
def left (m : Minifier) : ℕ := m.input.left + m.theA.toList.length + m.theB.toList.length

@[simp] theorem putA_theA (m : Minifier) : m.putA.theA = m.theA := rfl
@[simp] theorem putA_input (m : Minifier) : m.putA.input = m.input := rfl
@[simp] theorem getA_input (m : Minifier) : m.getA.input = (get m.input).2 := rfl

theorem getA_left {m : Minifier} (h : m.getA.theA ≠ none) : m.getA.input.left < m.input.left := by
  obtain ⟨c, hc⟩ := Option.ne_none_iff_exists'.mp h
  exact get_left (Prod.ext hc rfl)

theorem escapeA_left_le (m : Minifier) : m.escapeA.input.left ≤ m.input.left := by
  unfold escapeA
  split
  · exact get_left_le m.input
  · exact le_rfl

/-- A character is left after an escape only when one was there before it. -/
theorem escapeA_theA {m : Minifier} (h : m.escapeA.theA ≠ none) : m.theA ≠ none := by
  intro hm
  rw [escapeA, hm, if_neg nofun] at h
  exact h hm

theorem escape_left {m : Minifier} (h : m.getA.escapeA.theA ≠ none) : m.getA.escapeA.input.left < m.input.left :=
  (escapeA_left_le _).trans_lt (getA_left (escapeA_theA h))

def stringLoop (m : Minifier) : Exits Minifier :=
  if m.putA.getA.theA = m.theB then .ok m.putA.getA
  else if m.putA.getA.escapeA.theA = none then .error (.string, m.putA.getA.escapeA.stdout)
  else stringLoop m.putA.getA.escapeA
termination_by m.input.left
decreasing_by exact escape_left ‹_›

/-- A literal up to its closing mark, which becomes `theA`; the text before it is written. -/
def literalLoop (q : UInt8) (e : Unterminated) (m : Minifier) : Exits Minifier :=
  if m.getA.theA = some q then .ok m.getA
  else if m.getA.escapeA.theA = none then .error (e, m.getA.escapeA.stdout)
  else literalLoop q e m.getA.escapeA.putA
termination_by m.input.left
decreasing_by exact escape_left ‹_›

def regexpLoop : Minifier → Exits Minifier := literalLoop 47 .regexp

/-- A slash in `theB` opens a regular expression after some characters; its last slash becomes `theA`. -/
def regexpB (m : Minifier) : Exits Minifier :=
  if m.theB = some 47 ∧ m.theA.any opensRegexp then m.putA.putB.regexpLoop.bind nextB else .ok m

/-- A quote opens a string literal; its last quote becomes `theA`. -/
def copyB (m : Minifier) : Exits Minifier :=
  if m.theB = some 39 ∨ m.theB = some 34 then stringLoop { m with theA := m.theB } else .ok { m with theA := m.theB }

def action3 (m : Minifier) : Exits Minifier := m.nextB.bind regexpB

def action2 (m : Minifier) : Exits Minifier := m.copyB.bind action3

def action1 (m : Minifier) : Exits Minifier := m.putA.action2

/-- What the loop of `jsmin` does for `theA`. -/
def turn (m : Minifier) (a : UInt8) : Exits Minifier :=
  if a = 32 then
    if m.theB.any isAlphanum then m.action1 else m.action2
  else if a = 10 then
    if m.theB = some 32 then m.action3
    else if m.theB.any startsLine then m.action1 else m.action2
  else if m.theB = some 32 then
    if isAlphanum a then m.action1 else m.action3
  else if m.theB = some 10 then
    if endsLine a then m.action1 else m.action3
  else m.action1

@[simp] theorem escapeA_theB (m : Minifier) : m.escapeA.theB = m.theB := by
  unfold escapeA
  split <;> rfl

/-- The string loop writes `theA` before it reads on, the other one after that. -/
theorem stringLoop_eq {m : Minifier} {q : UInt8} (hB : m.theB = some q) :
    m.stringLoop = literalLoop q .string m.putA := by
  induction m using stringLoop.induct with
  | case1 m heq => rw [stringLoop, literalLoop, if_pos heq, if_pos (heq.trans hB)]
  | case2 m hne hend =>
    have hne' : m.putA.getA.theA ≠ some q := hB ▸ hne
    rw [stringLoop, literalLoop, if_neg hne, if_neg hne', if_pos hend, if_pos hend]
  | case3 m hne hend ih =>
    have hne' : m.putA.getA.theA ≠ some q := hB ▸ hne
    rw [stringLoop, literalLoop, if_neg hne, if_neg hne', if_neg hend, if_neg hend]
    exact ih ((escapeA_theB _).trans hB)

theorem literalLoop_left {m m' : Minifier} {q : UInt8} {e : Unterminated} (h : literalLoop q e m = .ok m') :
    m'.theA = some q ∧ m'.input.left ≤ m.input.left := by
  induction m using literalLoop.induct q with
  | case1 m heq =>
    rw [literalLoop, if_pos heq] at h
    cases h
    exact ⟨heq, get_left_le _⟩
  | case2 m hne hend =>
    rw [literalLoop, if_neg hne, if_pos hend] at h
    cases h
  | case3 m hne hend ih =>
    rw [literalLoop, if_neg hne, if_neg hend] at h
    exact ⟨(ih h).1, (ih h).2.trans (escape_left hend).le⟩

theorem nextB_left {m m' : Minifier} (h : m.nextB = .ok m') :
    m'.theA = m.theA ∧ m'.input.left + m'.theB.toList.length ≤ m.input.left := by
  unfold nextB at h
  split at h
  · next c i hnext =>
    cases h
    exact ⟨rfl, next_left hnext⟩
  · cases h

theorem action3_left {m m' : Minifier} (h : m.action3 = .ok m') :
    m'.left ≤ m.input.left + m.theA.toList.length := by
  obtain ⟨m₁, hnext, h⟩ := bind_eq_ok h
  obtain ⟨hA, hleft⟩ := nextB_left hnext
  unfold regexpB at h
  split at h
  · next hre =>
    obtain ⟨m₂, hloop, h⟩ := bind_eq_ok h
    obtain ⟨hA₂, hleft₂⟩ := literalLoop_left hloop
    obtain ⟨hA', hleft'⟩ := nextB_left h
    obtain ⟨a, ha⟩ : ∃ a, m.theA = some a := by
      cases ha : m.theA with
      | none => simp [hA, ha] at hre
      | some a => exact ⟨a, rfl⟩
    have hin : m₁.putA.putB.input.left = m₁.input.left := rfl
    simp only [left, hA', hA₂, ha, Option.toList_some, List.length_singleton]
    omega
  · cases h
    simp only [left, hA]
    omega

theorem action2_left {m m' : Minifier} (h : m.action2 = .ok m') :
    m'.left ≤ m.input.left + m.theB.toList.length := by
  obtain ⟨m₁, hcopy, h⟩ := bind_eq_ok h
  have h₁ : m₁.theA = m.theB ∧ m₁.input.left ≤ m.input.left := by
    unfold copyB at hcopy
    split_ifs at hcopy with hq
    · obtain ⟨q, hB⟩ : ∃ q, m.theB = some q := hq.elim (fun h => ⟨39, h⟩) (fun h => ⟨34, h⟩)
      rw [@stringLoop_eq { m with theA := m.theB } q hB] at hcopy
      exact ⟨(literalLoop_left hcopy).1.trans hB.symm, (literalLoop_left hcopy).2⟩
    · cases hcopy
      exact ⟨rfl, le_rfl⟩
  have h₂ := action3_left h
  rw [h₁.1] at h₂
  exact h₂.trans (Nat.add_le_add_right h₁.2 _)

theorem turn_left {m m' : Minifier} {a : UInt8} (ha : m.theA = some a) (h : m.turn a = .ok m') : m'.left < m.left := by
  have hcopy (h : m.action2 = .ok m' ∨ m.action1 = .ok m') : m'.left < m.left := by
    have hle : m'.left ≤ m.input.left + m.theB.toList.length := h.elim action2_left (@action2_left m.putA m')
    simp only [left, ha, Option.toList_some, List.length_singleton] at hle ⊢
    omega
  have hdrop {b : UInt8} (hb : m.theB = some b) (h : m.action3 = .ok m') : m'.left < m.left := by
    have hle := action3_left h
    have hm : m.left = m.input.left + m.theA.toList.length + 1 := by
      rw [left, hb, Option.toList_some, List.length_singleton]
    omega
  unfold turn at h
  split_ifs at h with h32 hB h10 hB32 hB hB32 hal hB10 hend
  · exact hcopy (.inr h)
  · exact hcopy (.inl h)
  · exact hdrop hB32 h
  · exact hcopy (.inr h)
  · exact hcopy (.inl h)
  · exact hcopy (.inr h)
  · exact hdrop hB32 h
  · exact hcopy (.inr h)
  · exact hdrop hB10 h
  · exact hcopy (.inr h)

def loop (m : Minifier) : Exits Bytes :=
  match _ha : m.theA with
  | none => .ok m.stdout
  | some a =>
    match _h : m.turn a with
    | .ok m' => loop m'
    | .error e => .error e
termination_by m.left
decreasing_by exact turn_left ‹_› ‹_›

end Minifier

def jsmin (s : Bytes) : Exits Bytes := (Minifier.mk (some 10) none ⟨none, s⟩ []).action3.bind Minifier.loop

end Cmoon.ScriptMinifiers
