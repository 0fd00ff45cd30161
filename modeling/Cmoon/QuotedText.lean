import Mathlib.Data.List.Basic
import Mathlib.Tactic.Common

/-! # Quoted texts

A text with literals between quotes, and a lexer for it. Inside a literal an escape symbol stands, together with the
symbol behind it, for one symbol of the value. -/
namespace Cmoon.QuotedText

structure Quoting (β : Type) where
  quote : β
  escape : β
  unescape : β → β
  quote_ne_escape : quote ≠ escape
  /-- Only the escape symbol, written behind one, stands for the escape symbol. -/
  unescape_eq_escape : ∀ e, unescape e = escape → e = escape

inductive Token (β : Type) where
  | plain (b : β)
  | literal (value : List β)
  deriving DecidableEq

def Token.shape {β : Type} : Token β → Option β
  | .plain b => some b
  | .literal _ => none

variable {β : Type} [DecidableEq β] (Q : Quoting β)

/-- The tokens of a text that begins outside of a literal, or inside of one whose value so far is `v`. A text that
ends inside of a literal has none. -/
def lexFrom : Option (List β) → List β → Option (List (Token β))
  | none, [] => some []
  | some _, [] => none
  | none, b :: r =>
    if b = Q.quote then lexFrom (some []) r else (lexFrom none r).map (.plain b :: ·)
  | some v, b :: r =>
    if b = Q.quote then (lexFrom none r).map (.literal v :: ·)
    else if b = Q.escape then
      match r with
      | [] => none
      | e :: r => lexFrom (some (v ++ [Q.unescape e])) r
    else lexFrom (some (v ++ [b])) r

def lex (s : List β) : Option (List (Token β)) := lexFrom Q none s

variable {Q}

@[simp] theorem lex_nil : lex Q [] = some [] := rfl

theorem lexFrom_quote (v : List β) (r : List β) :
    lexFrom Q (some v) (Q.quote :: r) = (lex Q r).map (.literal v :: ·) := by
  rw [lexFrom.eq_def]
  exact if_pos rfl

theorem lexFrom_escape (v : List β) (e : β) (r : List β) :
    lexFrom Q (some v) (Q.escape :: e :: r) = lexFrom Q (some (v ++ [Q.unescape e])) r := by
  rw [lexFrom, if_neg Q.quote_ne_escape.symm, if_pos rfl]

theorem lexFrom_escape_nil (v : List β) : lexFrom Q (some v) [Q.escape] = none := by
  rw [lexFrom, if_neg Q.quote_ne_escape.symm, if_pos rfl]

theorem lexFrom_plain (v : List β) {b : β} (hq : b ≠ Q.quote) (he : b ≠ Q.escape) (r : List β) :
    lexFrom Q (some v) (b :: r) = lexFrom Q (some (v ++ [b])) r := by
  rw [lexFrom.eq_def]
  exact (if_neg hq).trans (if_neg he)

theorem lex_quote (r : List β) : lex Q (Q.quote :: r) = lexFrom Q (some []) r := by
  rw [lex, lexFrom, if_pos rfl]

theorem lex_plain {b : β} (hq : b ≠ Q.quote) (r : List β) : lex Q (b :: r) = (lex Q r).map (.plain b :: ·) := by
  rw [lex, lexFrom, if_neg hq, lex]

/-- What stands behind a text that is complete is read from outside. -/
theorem lexFrom_append {state : Option (List β)} {s : List β} {toks : List (Token β)}
    (h : lexFrom Q state s = some toks) (r : List β) :
    lexFrom Q state (s ++ r) = (lex Q r).map (toks ++ ·) := by
  induction state, s using lexFrom.induct Q generalizing toks with
  | case1 =>
    cases h
    simp [lex]
  | case2 v => cases h
  | case3 s ih =>
    rw [lexFrom, if_pos rfl] at h
    rw [List.cons_append, lexFrom, if_pos rfl, ih h]
  | case4 b s hq ih =>
    rw [lexFrom, if_neg hq] at h
    obtain ⟨toks', htoks, rfl⟩ := Option.map_eq_some_iff.mp h
    rw [List.cons_append, lexFrom, if_neg hq, ih htoks]
    simp [Function.comp_def]
  | case5 v s ih =>
    rw [lexFrom_quote] at h
    obtain ⟨toks', htoks, rfl⟩ := Option.map_eq_some_iff.mp h
    rw [List.cons_append, lexFrom_quote, lex, ih htoks]
    simp [Function.comp_def]
  | case6 v hq =>
    rw [lexFrom_escape_nil] at h
    cases h
  | case7 v hq e s ih =>
    rw [lexFrom_escape] at h
    rw [List.cons_append, List.cons_append, lexFrom_escape, ih h]
  | case8 v b s hq he ih =>
    rw [lexFrom_plain v hq he] at h
    rw [List.cons_append, lexFrom_plain v hq he, ih h]

theorem lex_append {s : List β} {toks : List (Token β)} (h : lex Q s = some toks) (r : List β) :
    lex Q (s ++ r) = (lex Q r).map (toks ++ ·) := lexFrom_append h r

theorem lex_of_unquoted {s : List β} (h : ∀ b ∈ s, b ≠ Q.quote) : lex Q s = some (s.map .plain) := by
  induction s with
  | nil => rfl
  | cons b s ih =>
    rw [lex_plain (h b List.mem_cons_self), ih fun b hb => h b (List.mem_cons_of_mem _ hb)]
    rfl

/-- A way to write values: a symbol stands for itself, or is written behind an escape symbol. -/
structure Escaping (Q : Quoting β) where
  code : β → Option β
  unescape_code : ∀ b e, code b = some e → Q.unescape e = b
  code_quote : code Q.quote ≠ none
  code_escape : code Q.escape ≠ none

def Escaping.symbol (E : Escaping Q) (b : β) : List β :=
  match E.code b with
  | some e => [Q.escape, e]
  | none => [b]

def Escaping.encode (E : Escaping Q) (v : List β) : List β := v.flatMap E.symbol

variable (E : Escaping Q)

theorem lexFrom_symbol (v : List β) (b : β) (r : List β) :
    lexFrom Q (some v) (E.symbol b ++ r) = lexFrom Q (some (v ++ [b])) r := by
  unfold Escaping.symbol
  cases hb : E.code b with
  | some e =>
    rw [List.cons_append, List.cons_append, List.nil_append, lexFrom_escape, E.unescape_code b e hb]
  | none =>
    have hq : b ≠ Q.quote := by
      intro h
      exact E.code_quote (h ▸ hb)
    have he : b ≠ Q.escape := by
      intro h
      exact E.code_escape (h ▸ hb)
    rw [List.cons_append, List.nil_append, lexFrom_plain v hq he]

theorem lexFrom_encode (w v r : List β) :
    lexFrom Q (some v) (E.encode w ++ r) = lexFrom Q (some (v ++ w)) r := by
  induction w generalizing v with
  | nil => rw [Escaping.encode, List.flatMap_nil, List.nil_append, List.append_nil]
  | cons b w ih =>
    rw [Escaping.encode, List.flatMap_cons, List.append_assoc, lexFrom_symbol]
    rw [Escaping.encode] at ih
    rw [ih, List.append_assoc, List.singleton_append]

def Escaping.quoted (E : Escaping Q) (v : List β) : List β := Q.quote :: (E.encode v ++ [Q.quote])

/-- An escaped value between quotes is one literal, and what follows is read as if it stood alone. -/
theorem lex_quoted_append (v r : List β) : lex Q (E.quoted v ++ r) = (lex Q r).map (.literal v :: ·) := by
  rw [Escaping.quoted, List.cons_append, List.append_assoc, lex_quote, lexFrom_encode, List.nil_append,
    List.singleton_append, lexFrom_quote]

theorem lex_quoted (v : List β) : lex Q (E.quoted v) = some [.literal v] := by
  have h := lex_quoted_append E v []
  rwa [List.append_nil] at h

/-- A part of a statement: a fixed text, or a value that is written between quotes. -/
inductive Piece (β : Type) where
  | fixed (s : List β)
  | quoted (v : List β)
  deriving DecidableEq

def Piece.render : Piece β → List β
  | .fixed s => s
  | .quoted v => E.quoted v

def render (ps : List (Piece β)) : List β := ps.flatMap (Piece.render E)

def Piece.frame : Piece β → Option (List β)
  | .fixed s => some s
  | .quoted _ => none

/-- A fixed text that leaves no literal open. -/
def Piece.Closed (Q : Quoting β) : Piece β → Prop
  | .fixed s => lex Q s ≠ none
  | .quoted _ => True

instance (p : Piece β) : Decidable (p.Closed Q) := by
  cases p <;> unfold Piece.Closed <;> infer_instance

def Piece.tokens (Q : Quoting β) : Piece β → List (Token β)
  | .fixed s => (lex Q s).getD []
  | .quoted v => [.literal v]

def tokens (Q : Quoting β) (ps : List (Piece β)) : List (Token β) := ps.flatMap (Piece.tokens Q)

/-- The values are the literals of the statement, and the rest of it is read as it stands. -/
theorem lex_render {ps : List (Piece β)} (h : ∀ p ∈ ps, p.Closed Q) : lex Q (render E ps) = some (tokens Q ps) := by
  induction ps with
  | nil => rfl
  | cons p ps ih =>
    have hps := ih fun p hp => h p (List.mem_cons_of_mem _ hp)
    rw [render, List.flatMap_cons, tokens, List.flatMap_cons]
    rw [render, tokens] at hps
    cases p with
    | fixed s =>
      obtain ⟨toks, htoks⟩ := Option.ne_none_iff_exists'.mp (h _ List.mem_cons_self)
      rw [Piece.render, lex_append htoks, hps, Piece.tokens, htoks]
      rfl
    | quoted v =>
      rw [Piece.render, lex_quoted_append, hps]
      rfl

omit [DecidableEq β] in
theorem tokens_shape [DecidableEq β] {Q : Quoting β} {ps qs : List (Piece β)} (h : ps.map Piece.frame = qs.map Piece.frame) :
    (tokens Q ps).map Token.shape = (tokens Q qs).map Token.shape := by
  induction ps generalizing qs with
  | nil =>
    obtain rfl : qs = [] := List.map_eq_nil_iff.mp h.symm
    rfl
  | cons p ps ih =>
    cases qs with
    | nil => cases h
    | cons q qs =>
      obtain ⟨hframe, hrest⟩ := List.cons.inj h
      have htail := ih hrest
      rw [tokens, tokens] at htail
      rw [tokens, tokens, List.flatMap_cons, List.flatMap_cons, List.map_append, List.map_append, htail]
      congr 1
      cases p <;> cases q <;> cases hframe <;> rfl

/-- A value is taken as it stands when there is neither a quote nor an escape symbol in it. -/
def Bare (Q : Quoting β) (v : List β) : Prop := ∀ b ∈ v, b ≠ Q.quote ∧ b ≠ Q.escape

instance (v : List β) : Decidable (Bare Q v) := inferInstanceAs (Decidable (∀ b ∈ v, _))

theorem lexFrom_bare {w : List β} (hw : Bare Q w) (v r : List β) :
    lexFrom Q (some v) (w ++ r) = lexFrom Q (some (v ++ w)) r := by
  induction w generalizing v with
  | nil => rw [List.nil_append, List.append_nil]
  | cons b w ih =>
    obtain ⟨hq, he⟩ := hw b List.mem_cons_self
    rw [List.cons_append, lexFrom_plain v hq he, ih fun b hb => hw b (List.mem_cons_of_mem _ hb), List.append_assoc,
      List.singleton_append]

/-- The literal that a text goes on with starts with what has been read of it. -/
theorem lexFrom_value {v s : List β} {toks : List (Token β)} (h : lexFrom Q (some v) s = some toks) :
    ∃ w rest, toks = .literal (v ++ w) :: rest := by
  induction hn : s.length using Nat.strongRecOn generalizing v s with
  | _ n ih =>
    cases s with
    | nil => cases h
    | cons b s =>
      by_cases hq : b = Q.quote
      · subst hq
        rw [lexFrom_quote] at h
        obtain ⟨rest, -, rfl⟩ := Option.map_eq_some_iff.mp h
        exact ⟨[], rest, by rw [List.append_nil]⟩
      · by_cases he : b = Q.escape
        · subst he
          cases s with
          | nil =>
            rw [lexFrom_escape_nil] at h
            cases h
          | cons e s =>
            rw [lexFrom_escape] at h
            obtain ⟨w, rest, rfl⟩ := ih s.length (by simp at hn; omega) h rfl
            exact ⟨Q.unescape e :: w, rest, by rw [List.append_assoc, List.singleton_append]⟩
        · rw [lexFrom_plain v hq he] at h
          obtain ⟨w, rest, rfl⟩ := ih s.length (by simp at hn; omega) h rfl
          exact ⟨b :: w, rest, by rw [List.append_assoc, List.singleton_append]⟩

theorem value_of_quote {u v s : List β} {rest : List (Token β)}
    (h : lexFrom Q (some v) (Q.quote :: s) = some (.literal (v ++ u) :: rest)) : u = [] := by
  rw [lexFrom_quote] at h
  obtain ⟨toks, -, heq⟩ := Option.map_eq_some_iff.mp h
  exact List.self_eq_append_right.mp (Token.literal.inj (List.cons.inj heq).1)

theorem value_of_escape {b e : β} {u v s : List β} {rest : List (Token β)}
    (h : lexFrom Q (some v) (Q.escape :: e :: s) = some (.literal (v ++ b :: u) :: rest)) : Q.unescape e = b := by
  rw [lexFrom_escape] at h
  obtain ⟨w, rest', heq⟩ := lexFrom_value h
  have hu := Token.literal.inj (List.cons.inj heq).1
  rw [List.append_assoc, List.append_cancel_left_eq, List.singleton_append] at hu
  exact (List.cons.inj hu).1.symm

theorem value_of_plain {b b' : β} {u v s : List β} {rest : List (Token β)} (hq : b' ≠ Q.quote) (he : b' ≠ Q.escape)
    (h : lexFrom Q (some v) (b' :: s) = some (.literal (v ++ b :: u) :: rest)) : b' = b := by
  rw [lexFrom_plain v hq he] at h
  obtain ⟨w, rest', heq⟩ := lexFrom_value h
  have hu := Token.literal.inj (List.cons.inj heq).1
  rw [List.append_assoc, List.append_cancel_left_eq, List.singleton_append] at hu
  exact (List.cons.inj hu).1.symm

theorem literal_ahead {w v r : List β} {rest : List (Token β)} {k : ℕ} :
    lexFrom Q (some v) (w ++ Q.quote :: r) ≠ some (.literal (v ++ Q.escape :: (List.replicate k Q.escape ++ w)) :: rest) := by
  induction hn : w.length using Nat.strongRecOn generalizing w v k with
  | _ n ih =>
    intro h
    cases w with
    | nil => exact List.cons_ne_nil _ _ (value_of_quote h)
    | cons b w =>
      by_cases hq : b = Q.quote
      · subst hq
        exact List.cons_ne_nil _ _ (value_of_quote h)
      · by_cases he : b = Q.escape
        · subst he
          -- the symbol behind has to be an escape symbol, too, and the distance grows
          cases w with
          | nil => exact Q.quote_ne_escape (Q.unescape_eq_escape _ (value_of_escape h))
          | cons e w =>
            have hue := value_of_escape h
            obtain rfl := Q.unescape_eq_escape e hue
            rw [List.cons_append, List.cons_append, lexFrom_escape, hue] at h
            refine ih w.length (by simp at hn; omega) (k := k + 1) rfl (h.trans ?_)
            have hcomm (l : List β) : List.replicate k Q.escape ++ Q.escape :: l =
                Q.escape :: (List.replicate k Q.escape ++ l) := by
              rw [← List.cons_append, ← List.replicate_succ, List.replicate_succ', List.append_assoc,
                List.singleton_append]
            rw [hcomm, hcomm, List.replicate_succ, List.append_assoc, List.singleton_append, List.cons_append]
        · exact he (value_of_plain hq he h)

/-- A value that stands as it is between quotes is read as itself only when it is bare. -/
theorem bare_of_literal {w v r : List β} {rest : List (Token β)}
    (h : lexFrom Q (some v) (w ++ Q.quote :: r) = some (.literal (v ++ w) :: rest)) : Bare Q w := by
  induction w generalizing v with
  | nil => exact List.forall_mem_nil _
  | cons b w ih =>
    by_cases hq : b = Q.quote
    · subst hq
      exact (List.cons_ne_nil _ _ (value_of_quote h)).elim
    · by_cases he : b = Q.escape
      · subst he
        cases w with
        | nil => exact (Q.quote_ne_escape (Q.unescape_eq_escape _ (value_of_escape h))).elim
        | cons e w =>
          have hue := value_of_escape h
          obtain rfl := Q.unescape_eq_escape e hue
          rw [List.cons_append, List.cons_append, lexFrom_escape, hue] at h
          have hahead := @literal_ahead β _ Q w (v ++ [Q.escape]) r rest 0
          rw [List.append_assoc] at hahead
          exact (hahead h).elim
      · rw [List.cons_append, lexFrom_plain v hq he] at h
        have hw := ih (v := v ++ [b]) (by rw [h, List.append_assoc, List.singleton_append])
        exact List.forall_mem_cons.mpr ⟨⟨hq, he⟩, hw⟩

end Cmoon.QuotedText
