import Cmoon.ByteBuffers
import Cmoon.ScriptMinifiers
import Mathlib.Data.List.Chain
import Mathlib.Data.List.Infix

/-! # The lexemes of a script

A script read as `jsmin` reads it: single characters, string literals and regular expressions, with gaps of blanks, line
feeds and comments before them. Which slash opens a regular expression depends on the character before it and on the
gap. The minified script has the same lexemes, with at most one character left of every gap; the script cannot be
minified exactly where a comment or a literal does not end. -/
namespace Cmoon.ScriptLexemes
open DecimalText ByteBuffers ScriptMinifiers

/-- The text of a literal up to its closing mark `q`. -/
inductive Body (q : UInt8) : Bytes → Prop
  | nil : Body q []
  | char {c : UInt8} {s : Bytes} (hq : c ≠ q) (hb : c ≠ 92) (h : Body q s) : Body q (c :: s)
  | escape {c : UInt8} {s : Bytes} (h : Body q s) : Body q (92 :: c :: s)

/-- The text ends within a literal. -/
def Open (q : UInt8) (s : Bytes) : Prop := Body q s ∨ ∃ b, Body q b ∧ s = b ++ [92]

/-- A blank, a line feed or a comment, with the character it counts as. -/
inductive Piece : Bytes → UInt8 → Prop
  | blank : Piece [32] 32
  | lineFeed : Piece [10] 10
  | line {s : Bytes} (h : (10 : UInt8) ∉ s) : Piece (47 :: 47 :: s ++ [10]) 10
  | block {s : Bytes} (h : ¬ [42, 47] <:+: s) : Piece (47 :: 42 :: s ++ [42, 47]) 32

inductive Gap : Bytes → Bytes → Prop
  | nil : Gap [] []
  | cons {p g bs : Bytes} {b : UInt8} (hp : Piece p b) (hg : Gap g bs) : Gap (p ++ g) (b :: bs)

/-- The slash at the front of a text does not open a comment. -/
def NoComment (s : Bytes) : Prop := s.head? ≠ some 47 ∧ s.head? ≠ some 42

instance (s : Bytes) : Decidable (NoComment s) := inferInstanceAs (Decidable (_ ∧ _))

/-- The character held after a piece of a gap: the last one of the lexeme before the gap, or a blank or a line feed that
may have to be kept. -/
def carry (a b : UInt8) : UInt8 :=
  if b = 10 ∧ (a = 32 ∨ endsLine a) then 10 else if isAlphanum a then 32 else a

def held (a : UInt8) (bs : Bytes) : UInt8 := bs.foldl carry a

/-- A lexeme that starts while `a` is held, in front of the text `s`. -/
inductive Lexeme (a : UInt8) : Bytes → Bytes → Prop
  | char {c : UInt8} {s : Bytes} (h : c ∉ [32, 10, 34, 39, 47]) : Lexeme a [c] s
  | slash {s : Bytes} (ha : opensRegexp a = false) (hs : NoComment s) : Lexeme a [47] s
  | string {q : UInt8} {b s : Bytes} (hq : q = 39 ∨ q = 34) (hb : Body q b) : Lexeme a (q :: b ++ [q]) s
  | regexp {b s : Bytes} (ha : opensRegexp a = true) (hb : Body 47 b) (hs : NoComment (b ++ [47])) :
    Lexeme a (47 :: b ++ [47]) s

/-- The lexemes of a text after the character `x`, with the gaps before them. -/
inductive Lexes : UInt8 → Bytes → List (Bytes × Bytes) → Prop
  | ends {x : UInt8} {g bs : Bytes} (hg : Gap g bs) : Lexes x g []
  | comment {x : UInt8} {g bs s : Bytes} (hg : Gap g bs) (hs : (10 : UInt8) ∉ s) : Lexes x (g ++ 47 :: 47 :: s) []
  | lexeme {x : UInt8} {g bs l s : Bytes} {ls : List (Bytes × Bytes)} (hg : Gap g bs) (hl : Lexeme (held x bs) l s)
    (h : Lexes (l.getLastD x) s ls) : Lexes x (g ++ (l ++ s)) ((bs, l) :: ls)

/-- The text ends within a comment or a literal. -/
inductive Breaks : UInt8 → Bytes → Unterminated → Prop
  | comment {x : UInt8} {g bs s : Bytes} (hg : Gap g bs) (hs : ¬ [42, 47] <:+: s) :
    Breaks x (g ++ 47 :: 42 :: s) .comment
  | string {x q : UInt8} {g bs s : Bytes} (hg : Gap g bs) (hq : q = 39 ∨ q = 34) (hs : Open q s) :
    Breaks x (g ++ q :: s) .string
  | regexp {x : UInt8} {g bs s : Bytes} (hg : Gap g bs) (ha : opensRegexp (held x bs) = true) (hs : Open 47 s)
    (hc : NoComment s) : Breaks x (g ++ 47 :: s) .regexp
  | lexeme {x : UInt8} {g bs l s : Bytes} {e : Unterminated} (hg : Gap g bs) (hl : Lexeme (held x bs) l s)
    (h : Breaks (l.getLastD x) s e) : Breaks x (g ++ (l ++ s)) e

/-- What is left of a gap between a lexeme and the next, which starts with `y`. -/
def separator (a y : UInt8) : Bytes :=
  if a = 10 ∧ (startsLine y ∨ y = 47) then [10] else if a = 32 ∧ isAlphanum y then [32] else []

theorem separator_blank (y : UInt8) : separator 32 y = if isAlphanum y then [32] else [] := by
  simp [separator]

theorem separator_lineFeed {y : UInt8} (hy : y ≠ 47) : separator 10 y = if startsLine y then [10] else [] := by
  simp [separator, hy]

theorem separator_other {a : UInt8} (h32 : a ≠ 32) (h10 : a ≠ 10) (y : UInt8) : separator a y = [] := by
  simp [separator, h32, h10]

def render : UInt8 → List (Bytes × Bytes) → Bytes
  | _, [] => []
  | x, (bs, l) :: ls => separator (held x bs) (l.headD 0) ++ (l ++ render (l.getLastD x) ls)

theorem Piece.eq_or {p : Bytes} {b : UInt8} (hp : Piece p b) : b = 32 ∨ b = 10 := by
  cases hp
  · exact .inl rfl
  · exact .inr rfl
  · exact .inr rfl
  · exact .inl rfl

section Splitting
variable {s : Bytes} {x a : UInt8}

/-- What can stand after a gap. -/
inductive Stop : Bytes → Prop
  | ends : Stop []
  | comment {s : Bytes} (hs : (10 : UInt8) ∉ s) : Stop (47 :: 47 :: s)
  | block {s : Bytes} (hs : ¬ [42, 47] <:+: s) : Stop (47 :: 42 :: s)
  | char {c : UInt8} {s : Bytes} (h32 : c ≠ 32) (h10 : c ≠ 10) (hc : c = 47 → NoComment s) : Stop (c :: s)

theorem exists_first_close (h : [42, 47] <:+: s) : ∃ t s', s = t ++ 42 :: 47 :: s' ∧ ¬ [42, 47] <:+: t := by
  induction s with
  | nil => exact absurd (List.eq_nil_of_infix_nil h) nofun
  | cons c s ih =>
    by_cases hc : [42, 47] <+: c :: s
    · obtain ⟨s', hs'⟩ := hc
      exact ⟨[], s', hs'.symm, fun h => absurd (List.eq_nil_of_infix_nil h) nofun⟩
    · obtain ⟨t, s', rfl, ht⟩ := ih ((List.infix_cons_iff.mp h).resolve_left hc)
      refine ⟨c :: t, s', rfl, fun h => ht ((List.infix_cons_iff.mp h).resolve_left fun hp => hc ?_)⟩
      exact hp.trans (List.prefix_append (c :: t) _)

/-- A text starts with a piece of a gap, unless it stands after one. -/
theorem exists_piece (s : Bytes) : Stop s ∨ ∃ p b s', s = p ++ s' ∧ Piece p b := by
  obtain _ | ⟨c, s⟩ := s
  · exact .inl .ends
  by_cases h32 : c = 32
  · exact .inr ⟨[32], 32, s, by rw [h32]; rfl, .blank⟩
  by_cases h10 : c = 10
  · exact .inr ⟨[10], 10, s, by rw [h10]; rfl, .lineFeed⟩
  by_cases h47 : c = 47
  · subst h47
    obtain _ | ⟨d, s⟩ := s
    · exact .inl (.char h32 h10 fun _ => ⟨nofun, nofun⟩)
    by_cases hd : d = 47
    · subst hd
      by_cases hmem : (10 : UInt8) ∈ s
      · obtain ⟨t, s', rfl, ht⟩ := List.eq_append_cons_of_mem hmem
        exact .inr ⟨47 :: 47 :: t ++ [10], 10, s', by simp, .line ht⟩
      · exact .inl (.comment hmem)
    by_cases hd' : d = 42
    · subst hd'
      by_cases hmem : [42, 47] <:+: s
      · obtain ⟨t, s', rfl, ht⟩ := exists_first_close hmem
        exact .inr ⟨47 :: 42 :: t ++ [42, 47], 32, s', by simp, .block ht⟩
      · exact .inl (.block hmem)
    · exact .inl (.char h32 h10 fun _ => ⟨hd ∘ Option.some.inj, hd' ∘ Option.some.inj⟩)
  · exact .inl (.char h32 h10 fun h => absurd h h47)

theorem Piece.length_pos {p : Bytes} {b : UInt8} (hp : Piece p b) : 0 < p.length := by
  cases hp <;> simp

theorem exists_gap (s : Bytes) : ∃ g bs s', s = g ++ s' ∧ Gap g bs ∧ Stop s' := by
  induction h : s.length using Nat.strong_induction_on generalizing s with
  | _ n ih =>
    obtain hs | ⟨p, b, s', rfl, hp⟩ := exists_piece s
    · exact ⟨[], [], s, rfl, .nil, hs⟩
    · have hlt : s'.length < n := by
        have hpos := hp.length_pos
        rw [← h, List.length_append]
        omega
      obtain ⟨g, bs, s'', rfl, hg, hs⟩ := ih _ hlt s' rfl
      exact ⟨p ++ g, b :: bs, s'', (List.append_assoc ..).symm, .cons hp hg, hs⟩

/-- A literal ends at its first closing mark that no backslash stands before. -/
theorem exists_body (q : UInt8) : ∀ s, Open q s ∨ ∃ b s', s = b ++ q :: s' ∧ Body q b
  | [] => .inl (.inl .nil)
  | c :: s => by
    by_cases hc : c = q
    · exact .inr ⟨[], s, by rw [hc]; rfl, .nil⟩
    by_cases hb : c = 92
    · subst hb
      obtain _ | ⟨d, s⟩ := s
      · exact .inl (.inr ⟨[], .nil, rfl⟩)
      obtain (ho | ⟨b, hb, rfl⟩) | ⟨b, s', rfl, hb⟩ := exists_body q s
      · exact .inl (.inl (.escape ho))
      · exact .inl (.inr ⟨92 :: d :: b, .escape hb, rfl⟩)
      · exact .inr ⟨92 :: d :: b, s', rfl, .escape hb⟩
    · obtain (ho | ⟨b, hb', rfl⟩) | ⟨b, s', rfl, hb'⟩ := exists_body q s
      · exact .inl (.inl (.char hc hb ho))
      · exact .inl (.inr ⟨c :: b, .char hc hb hb', rfl⟩)
      · exact .inr ⟨c :: b, s', rfl, .char hc hb hb'⟩

/-- After a gap a text ends, breaks or starts with a lexeme. -/
theorem exists_lexeme {g bs : Bytes} (hg : Gap g bs) (hs : Stop s) :
    Lexes x (g ++ s) [] ∨ (∃ e, Breaks x (g ++ s) e) ∨
      ∃ l s', s = l ++ s' ∧ s'.length < s.length ∧ Lexeme (held x bs) l s' := by
  cases hs with
  | ends => exact .inl (by rw [List.append_nil]; exact .ends hg)
  | comment hs => exact .inl (.comment hg hs)
  | block hs => exact .inr (.inl ⟨_, .comment hg hs⟩)
  | @char c s h32 h10 hc =>
    by_cases hq : c = 39 ∨ c = 34
    · obtain ho | ⟨b, s', rfl, hb⟩ := exists_body c s
      · exact .inr (.inl ⟨_, .string hg hq ho⟩)
      · exact .inr (.inr ⟨c :: b ++ [c], s', by simp, by simp; omega, .string hq hb⟩)
    by_cases h47 : c = 47
    · subst h47
      by_cases ha : opensRegexp (held x bs)
      · obtain ho | ⟨b, s', rfl, hb⟩ := exists_body 47 s
        · exact .inr (.inl ⟨_, .regexp hg ha ho (hc rfl)⟩)
        · have hno : NoComment (b ++ [47]) := by
            cases b with
            | nil => exact absurd rfl (hc rfl).1
            | cons d b => exact hc rfl
          exact .inr (.inr ⟨47 :: b ++ [47], s', by simp, by simp; omega, .regexp ha hb hno⟩)
      · exact .inr (.inr ⟨[47], s, rfl, Nat.lt_succ_self _, .slash (Bool.eq_false_iff.mpr ha) (hc rfl)⟩)
    · exact .inr (.inr ⟨[c], s, rfl, Nat.lt_succ_self _, .char (by simp; tauto)⟩)

theorem exists_lexes (x : UInt8) (s : Bytes) : (∃ ls, Lexes x s ls) ∨ ∃ e, Breaks x s e := by
  induction h : s.length using Nat.strong_induction_on generalizing x s with
  | _ n ih =>
    obtain ⟨g, bs, s, rfl, hg, hs⟩ := exists_gap s
    obtain hend | hbreak | ⟨l, s', rfl, hlt, hl⟩ := exists_lexeme (x := x) hg hs
    · exact .inl ⟨[], hend⟩
    · exact .inr hbreak
    · have hlt : s'.length < n := by
        rw [← h, List.length_append]
        omega
      obtain ⟨ls, hls⟩ | ⟨e, he⟩ := ih _ hlt (l.getLastD x) s' rfl
      · exact .inl ⟨_, .lexeme hg hl hls⟩
      · exact .inr ⟨e, .lexeme hg hl he⟩

end Splitting

/-- No slash for a division meets a slash or an asterisk. -/
def Apart : List (Bytes × Bytes) → Prop := List.IsChain fun p q => p.2 = [47] → NoComment q.2

def settle : UInt8 → List (Bytes × Bytes) → List (Bytes × Bytes)
  | _, [] => []
  | x, (bs, l) :: ls => (separator (held x bs) (l.headD 0), l) :: settle (l.getLastD x) ls

section Rendering
variable {s t g bs bs' l : Bytes} {x a a' b y : UInt8} {ls : List (Bytes × Bytes)} {e : Unterminated}

theorem opensRegexp_of_isAlphanum (h : isAlphanum x = true) : opensRegexp x = false :=
  (forall_byte (by decide) : ∀ x : UInt8, isAlphanum x = true → opensRegexp x = false) x h

theorem endsLine_of_isAlphanum (h : isAlphanum x = true) : endsLine x = true := Bool.or_eq_true_iff.mpr (.inr h)

/-- What is held after a gap: still the character before it, or a line feed or a blank in its place. -/
theorem held_cases (hx : x ≠ 32) (bs : Bytes) :
    held x bs = x ∨ (held x bs = 10 ∧ endsLine x = true) ∨ (held x bs = 32 ∧ isAlphanum x = true) := by
  induction bs using List.reverseRecOn with
  | nil => exact .inl rfl
  | append_singleton bs b ih =>
    rw [held, List.foldl_append, List.foldl_cons, List.foldl_nil, ← held]
    obtain h | ⟨h, hend⟩ | ⟨h, hal⟩ := ih
    · rw [h, carry]
      split_ifs with hb hal
      · exact .inr (.inl ⟨rfl, hb.2.resolve_left hx⟩)
      · exact .inr (.inr ⟨rfl, hal⟩)
      · exact .inl rfl
    · refine .inr (.inl ⟨?_, hend⟩)
      rw [h, carry]
      split_ifs with hb hal
      · rfl
      · exact absurd hal (by decide)
      · rfl
    · rw [h, carry]
      split_ifs with hb hal'
      · exact .inr (.inl ⟨rfl, endsLine_of_isAlphanum hal⟩)
      · exact absurd hal' (by decide)
      · exact .inr (.inr ⟨rfl, hal⟩)

theorem held_lineFeed (bs : Bytes) : held 10 bs = 10 := by
  obtain h | ⟨h, -⟩ | ⟨-, h⟩ := held_cases (x := 10) (by decide) bs
  · exact h
  · exact h
  · exact absurd h (by decide)

theorem held_slash (bs : Bytes) : held 47 bs = 47 := by
  obtain h | ⟨-, h⟩ | ⟨-, h⟩ := held_cases (x := 47) (by decide) bs
  · exact h
  · exact absurd h (by decide)
  · exact absurd h (by decide)

/-- What is left of a gap is held on to in the same way, unless nothing is left of it. -/
theorem held_separator (hx : x ≠ 32) (bs : Bytes) (y : UInt8) :
    held x (separator (held x bs) y) = held x bs ∨
      separator (held x bs) y = [] ∧ separator x y = [] ∧ (y = 47 → opensRegexp (held x bs) = opensRegexp x) := by
  by_cases h10 : x = 10
  · subst h10
    exact .inl ((held_lineFeed _).trans (held_lineFeed bs).symm)
  obtain h | ⟨h, hend⟩ | ⟨h, hal⟩ := held_cases hx bs
  · rw [h, separator_other hx h10]
    exact .inl rfl
  · rw [h, separator_other hx h10]
    by_cases hy : y = 47
    · refine .inl ?_
      rw [separator, if_pos ⟨rfl, .inr hy⟩]
      exact if_pos ⟨rfl, .inr hend⟩
    rw [separator_lineFeed hy]
    split
    · exact .inl (if_pos ⟨rfl, .inr hend⟩)
    · exact .inr ⟨rfl, rfl, fun h => absurd h hy⟩
  · rw [h, separator_other hx h10, separator_blank]
    split
    · refine .inl ?_
      rw [held, List.foldl_cons, List.foldl_nil, carry, if_neg (fun h => absurd h.1 (by decide)), if_pos hal]
    · exact .inr ⟨rfl, rfl, fun _ => (opensRegexp_of_isAlphanum hal).symm⟩

theorem separator_held (hx : x ≠ 32) (bs : Bytes) (y : UInt8) :
    separator (held x (separator (held x bs) y)) y = separator (held x bs) y := by
  obtain h | ⟨h, hsep, -⟩ := held_separator hx bs y
  · rw [h]
  · rw [h]
    exact hsep

theorem gap_separator (a y : UInt8) : Gap (separator a y) (separator a y) := by
  unfold separator
  split_ifs
  · exact .cons .lineFeed .nil
  · exact .cons .blank .nil
  · exact .nil

theorem Lexeme.congr (hl : Lexeme a l s) (ha : l.headD 0 = 47 → opensRegexp a = opensRegexp a')
    (ht : l = [47] → NoComment t) : Lexeme a' l t := by
  cases hl with
  | char hc => exact .char hc
  | slash hop hs => exact .slash (ha rfl ▸ hop) (ht rfl)
  | string hq hb => exact .string hq hb
  | regexp hop hb hs => exact .regexp (ha rfl ▸ hop) hb hs

theorem Lexeme.settled (hl : Lexeme (held x bs) l s) (hx : x ≠ 32) (ht : l = [47] → NoComment t) :
    Lexeme (held x (separator (held x bs) (l.headD 0))) l t := by
  refine hl.congr (fun hy => ?_) ht
  obtain h | ⟨h, -, hop⟩ := held_separator hx bs (l.headD 0)
  · rw [h]
  · rw [h]
    exact hop hy

/-- A lexeme has a last character, which is neither a blank nor a line feed. -/
theorem Lexeme.getLastD (hl : Lexeme a l s) (x y : UInt8) :
    l.getLastD x = l.getLastD y ∧ l.getLastD x ≠ 32 ∧ l.getLastD x ≠ 10 := by
  cases hl with
  | char hc =>
    simp only [List.mem_cons, List.not_mem_nil, or_false, not_or] at hc
    exact ⟨rfl, hc.1, hc.2.1⟩
  | slash => exact ⟨rfl, (by decide : (47 : UInt8) ≠ 32), (by decide : (47 : UInt8) ≠ 10)⟩
  | string hq =>
    rw [List.getLastD_concat, List.getLastD_concat]
    obtain rfl | rfl := hq <;> exact ⟨rfl, by decide, by decide⟩
  | regexp =>
    rw [List.getLastD_concat, List.getLastD_concat]
    exact ⟨rfl, by decide, by decide⟩

theorem Lexeme.ne_nil (hl : Lexeme a l s) : l ≠ [] := by
  cases hl <;> simp

theorem noComment_append (hl : l ≠ []) : NoComment (l ++ t) ↔ NoComment l := by
  obtain ⟨c, l, rfl⟩ := List.exists_cons_of_ne_nil hl
  exact Iff.rfl

/-- After a slash the next lexeme follows at once. -/
theorem noComment_render (h : Lexes 47 s ls) : NoComment (render 47 ls) ↔ ∀ p ∈ ls.head?, NoComment p.2 := by
  cases h with
  | ends => exact ⟨fun _ => nofun, fun _ => ⟨nofun, nofun⟩⟩
  | comment => exact ⟨fun _ => nofun, fun _ => ⟨nofun, nofun⟩⟩
  | lexeme hg hl _ =>
    rw [render, held_slash, separator_other (by decide) (by decide), List.nil_append, noComment_append hl.ne_nil]
    simp

theorem Lexeme.noComment_iff (hl : Lexeme a l s) (h : Lexes (l.getLastD x) s ls) :
    (l = [47] → NoComment (render (l.getLastD x) ls)) ↔ ∀ q ∈ ls.head?, l = [47] → NoComment q.2 := by
  constructor
  · intro hno q hq hl
    subst hl
    exact (noComment_render h).mp (hno rfl) q hq
  · intro hno hl
    subst hl
    exact (noComment_render h).mpr fun q hq => hno q hq rfl

theorem lexes_render (h : Lexes x s ls) (hx : x ≠ 32) (hls : Apart ls) :
    Lexes x (render x ls) (settle x ls) ∧ render x (settle x ls) = render x ls := by
  induction h with
  | ends => exact ⟨.ends .nil, rfl⟩
  | comment => exact ⟨.ends .nil, rfl⟩
  | @lexeme x g bs l s ls hg hl hrest ih =>
    obtain ⟨hfirst, htail⟩ := List.isChain_cons.mp hls
    obtain ⟨hlexes, hrender⟩ := ih (hl.getLastD x x).2.1 htail
    refine ⟨.lexeme (gap_separator _ _) (hl.settled hx ((hl.noComment_iff hrest).mpr hfirst)) hlexes, ?_⟩
    rw [settle, render, render, separator_held hx, hrender]

theorem Gap.append (hg : Gap g bs) {g' : Bytes} (hg' : Gap g' bs') : Gap (g ++ g') (bs ++ bs') := by
  induction hg with
  | nil => exact hg'
  | cons hp _ ih =>
    rw [List.append_assoc]
    exact .cons hp ih

theorem Gap.length_le (hg : Gap g bs) : bs.length ≤ g.length := by
  induction hg with
  | nil => exact le_rfl
  | cons hp _ ih =>
    have hpos := hp.length_pos
    rw [List.length_append, List.length_cons]
    omega

theorem held_append (x : UInt8) (bs bs' : Bytes) : held x (bs ++ bs') = held (held x bs) bs' := List.foldl_append

theorem lexes_gap (hg : Gap g bs) (h : Lexes (held x bs) s ls) :
    ∃ ls', Lexes x (g ++ s) ls' ∧ render x ls' = render (held x bs) ls := by
  cases h with
  | ends hg' => exact ⟨[], .ends (hg.append hg'), rfl⟩
  | comment hg' hs =>
    rw [← List.append_assoc]
    exact ⟨[], .comment (hg.append hg') hs, rfl⟩
  | @lexeme _ g' bs' l s ls hg' hl h =>
    have hlast := (hl.getLastD x (held x bs)).1
    rw [← held_append] at hl
    rw [← hlast] at h
    rw [← List.append_assoc]
    exact ⟨_, .lexeme (hg.append hg') hl h, by rw [render, render, held_append, hlast]⟩

theorem breaks_gap (hg : Gap g bs) (h : Breaks (held x bs) s e) : Breaks x (g ++ s) e := by
  cases h with
  | comment hg' hs =>
    rw [← List.append_assoc]
    exact .comment (hg.append hg') hs
  | string hg' hq hs =>
    rw [← List.append_assoc]
    exact .string (hg.append hg') hq hs
  | regexp hg' ha hs hc =>
    rw [← held_append] at ha
    rw [← List.append_assoc]
    exact .regexp (hg.append hg') ha hs hc
  | lexeme hg' hl h =>
    rw [(hl.getLastD (held x bs) x).1] at h
    rw [← held_append] at hl
    rw [← List.append_assoc]
    exact .lexeme (hg.append hg') hl h

theorem length_separator_le (a y : UInt8) : (separator a y).length ≤ 1 := by
  unfold separator
  split_ifs <;> simp

/-- Something is left of a gap only where there was one, or where a blank or a line feed is held already. -/
theorem length_render_le (h : Lexes x s ls) :
    (render x ls).length ≤ s.length + if x = 32 ∨ x = 10 then 1 else 0 := by
  induction h with
  | ends => exact Nat.zero_le _
  | comment => exact Nat.zero_le _
  | @lexeme x g bs l s ls hg hl _ ih =>
    obtain ⟨-, h32, h10⟩ := hl.getLastD x x
    rw [if_neg (not_or.mpr ⟨h32, h10⟩)] at ih
    have hsep : (separator (held x bs) (l.headD 0)).length ≤ g.length + if x = 32 ∨ x = 10 then 1 else 0 := by
      split
      · exact (length_separator_le _ _).trans (Nat.le_add_left _ _)
      · next hx =>
        obtain ⟨hx32, hx10⟩ := not_or.mp hx
        cases bs with
        | nil =>
          rw [held, List.foldl_nil, separator_other hx32 hx10]
          exact Nat.zero_le _
        | cons b bs => exact (length_separator_le _ _).trans ((Nat.succ_le_succ (Nat.zero_le _)).trans hg.length_le)
    simp only [render, List.length_append]
    omega

theorem comment_shrinks (hg : Gap g bs) (hs : ¬ NoComment s) :
    (∃ ls, Lexes x (g ++ 47 :: s) ls ∧ (render x ls).length < (g ++ 47 :: s).length) ∨
      ∃ e, Breaks x (g ++ 47 :: s) e := by
  obtain hstop | ⟨p, b, s', hp', hp⟩ := exists_piece (47 :: s)
  · cases hstop with
    | comment hs' => exact .inl ⟨[], .comment hg hs', by simp [render]⟩
    | block hs' => exact .inr ⟨_, .comment hg hs'⟩
    | char _ _ hc => exact absurd (hc rfl) hs
  · have hlen : 3 ≤ p.length := by
      cases hp with
      | blank => exact absurd hp' (by simp)
      | lineFeed => exact absurd hp' (by simp)
      | line => simp
      | block => simp
    have hgp : Gap (g ++ p) (bs ++ [b]) := hg.append (by simpa using Gap.cons hp .nil)
    rw [hp', ← List.append_assoc]
    obtain ⟨ls, hls⟩ | ⟨e, he⟩ := exists_lexes (held x (bs ++ [b])) s'
    · obtain ⟨ls', hls', hrender⟩ := lexes_gap hgp hls
      refine .inl ⟨ls', hls', ?_⟩
      have hle := length_render_le hls
      rw [hrender]
      simp only [List.length_append]
      split at hle <;> omega
    · exact .inr ⟨e, breaks_gap hgp he⟩

/-- Where a slash meets another one or an asterisk, the rendered text is rendered shorter, or not at all. -/
theorem render_shrinks (h : Lexes x s ls) (hx : x ≠ 32) (hls : ¬ Apart ls) :
    (∃ ls', Lexes x (render x ls) ls' ∧ (render x ls').length < (render x ls).length) ∨
      ∃ e, Breaks x (render x ls) e := by
  induction h with
  | ends => exact absurd .nil hls
  | comment => exact absurd .nil hls
  | @lexeme x g bs l s ls hg hl hrest ih =>
    rw [render]
    by_cases hno : l = [47] → NoComment (render (l.getLastD x) ls)
    · have htail : ¬ Apart ls := fun htail => hls (List.isChain_cons.mpr ⟨(hl.noComment_iff hrest).mp hno, htail⟩)
      have hl' := hl.settled hx hno
      obtain ⟨ls', hls', hlt⟩ | ⟨e, he⟩ := ih (hl.getLastD x x).2.1 htail
      · refine .inl ⟨_, .lexeme (gap_separator _ _) hl' hls', ?_⟩
        rw [render, separator_held hx]
        simp only [List.length_append]
        omega
      · exact .inr ⟨e, .lexeme (gap_separator _ _) hl' he⟩
    · obtain ⟨rfl, hno⟩ := Classical.not_imp.mp hno
      exact comment_shrinks (gap_separator _ _) hno

end Rendering
end Cmoon.ScriptLexemes
