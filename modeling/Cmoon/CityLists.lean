import Cmoon.CityAnswers
import Cmoon.StatementTexts

/-! # Lists of city names

A request for several cities puts its names between quotes by hand, and hands the list to the statement as an argument
of the format. -/
namespace Cmoon.CityLists
open DecimalText QuotedText StatementTexts
open CityAnswers (listText)

/-- `vsprintf` for the conversions `%s`. -/
def vsprintf : Bytes → List Bytes → Bytes
  | 37 :: 115 :: fmt, arg :: args => arg ++ vsprintf fmt args
  | b :: fmt, args => b :: vsprintf fmt args
  | [], _ => []

/-- The text that `mdb_exec` fills in. `*p+1` is the character after `%` in the code table, never `%`. -/
def filled (sqlFmt : Bytes) (args : List Bytes) : Bytes :=
  if sqlFmt.any (· == 37) then vsprintf sqlFmt args else sqlFmt

/-- `MDB_QUERY_RAW` with `_COL_CITY` and `s IN %s`. -/
def sqlFmt : Bytes := ascii "SELECT id, grade, pid, s, geopos FROM city WHERE s IN %s;"

def sent (cs : List Bytes) : Bytes := filled sqlFmt [listText (cs.map some)]

def Significant : Token UInt8 → Bool
  | .plain b => !isSpace b
  | .literal _ => true

def dropBlanks (toks : List (Token UInt8)) : List (Token UInt8) := toks.filter Significant

def itemTokens : List Bytes → List (Token UInt8)
  | [] => [.plain 41, .plain 59]
  | c :: cs => .plain 44 :: .literal c :: itemTokens cs

def front : Bytes := ascii "SELECT id, grade, pid, s, geopos FROM city WHERE s IN  ("
def frontTokens : List (Token UInt8) := dropBlanks (front.map .plain)

/-- The statement is read with the names as its literals, and nothing else. -/
def Intended (c : Bytes) (cs : List Bytes) : Prop :=
  (lex sql (sent (c :: cs))).map dropBlanks = some (frontTokens ++ .literal c :: itemTokens cs)

/-- The text behind the first name. -/
def items : List Bytes → Bytes
  | [] => [41, 59]
  | c :: cs => 44 :: 32 :: 39 :: (c ++ 39 :: items cs)

theorem intercalate_items (c : Bytes) (cs : List Bytes) :
    [44, 32].intercalate ((c :: cs).map fun c => [39] ++ c ++ [39]) ++ [41, 59] = 39 :: (c ++ 39 :: items cs) := by
  induction cs generalizing c with
  | nil =>
    rw [List.map_cons, List.map_nil, List.intercalate_singleton, items]
    simp
  | cons c' cs ih =>
    have h := ih c'
    rw [List.map_cons] at h
    rw [List.map_cons, List.map_cons, List.intercalate_cons_cons, List.append_assoc, List.append_assoc, h, items]
    simp

theorem listText_cons (c : Bytes) (cs : List Bytes) :
    listText ((c :: cs).map some) ++ [59] = 32 :: 40 :: 39 :: (c ++ 39 :: items cs) := by
  have h := intercalate_items c cs
  unfold listText
  rw [List.map_map, List.append_assoc, List.append_assoc]
  exact congrArg ([32, 40] ++ ·) h

theorem vsprintf_first {fmt : Bytes} (h : ∀ b ∈ fmt, b ≠ 37) (rest arg : Bytes) (args : List Bytes) :
    vsprintf (fmt ++ 37 :: 115 :: rest) (arg :: args) = fmt ++ (arg ++ vsprintf rest args) := by
  induction fmt with
  | nil => rfl
  | cons b fmt ih =>
    obtain ⟨hb, hfmt⟩ := List.forall_mem_cons.mp h
    rw [List.cons_append, List.cons_append, ← ih hfmt, vsprintf]
    intro _ _ _ _ h37
    exact (hb h37).elim

theorem sent_cons (c : Bytes) (cs : List Bytes) : sent (c :: cs) = front ++ 39 :: (c ++ 39 :: items cs) := by
  have hfmt : sqlFmt = ascii "SELECT id, grade, pid, s, geopos FROM city WHERE s IN " ++ 37 :: 115 :: [59] := by
    decide
  have hfront : front = ascii "SELECT id, grade, pid, s, geopos FROM city WHERE s IN " ++ [32, 40] := by decide
  have hend : vsprintf [59] [] = [59] := rfl
  unfold sent filled
  rw [if_pos (by decide), hfmt, vsprintf_first (ne_of_all (by decide)), hend, listText_cons, hfront, List.append_assoc]
  rfl

theorem dropBlanks_append (toks toks' : List (Token UInt8)) :
    dropBlanks (toks ++ toks') = dropBlanks toks ++ dropBlanks toks' := List.filter_append toks toks'

theorem dropBlanks_literal (v : Bytes) (toks : List (Token UInt8)) :
    dropBlanks (.literal v :: toks) = .literal v :: dropBlanks toks := rfl

/-- A name and what is behind it are read as the name and the rest exactly when there is neither a quote nor a
backslash in the name. -/
theorem lexFrom_item (c r : Bytes) (toks : List (Token UInt8)) :
    (lexFrom sql (some []) (c ++ 39 :: r)).map dropBlanks = some (.literal c :: toks) ↔
      Bare sql c ∧ (lex sql r).map dropBlanks = some toks := by
  have hbehind (hc : Bare sql c) :
      (lexFrom sql (some []) (c ++ 39 :: r)).map dropBlanks =
        ((lex sql r).map dropBlanks).map (.literal c :: ·) := by
    rw [lexFrom_bare hc, show (39 : UInt8) = sql.quote from rfl, lexFrom_quote, Option.map_map, Option.map_map]
    rfl
  constructor
  · intro h
    obtain ⟨all, hall, hdrop⟩ := Option.map_eq_some_iff.mp h
    obtain ⟨w, rest, rfl⟩ := lexFrom_value hall
    rw [dropBlanks_literal] at hdrop
    have hw : [] ++ w = c := Token.literal.inj (List.cons.inj hdrop).1
    subst hw
    have hbare := bare_of_literal hall
    rw [hbehind hbare] at h
    obtain ⟨toks', htoks', hcons⟩ := Option.map_eq_some_iff.mp h
    rw [htoks', (List.cons.inj hcons).2]
    exact ⟨hbare, rfl⟩
  · intro h
    rw [hbehind h.1, h.2]
    rfl

theorem lex_items (cs : List Bytes) :
    (lex sql (items cs)).map dropBlanks = some (itemTokens cs) ↔ ∀ c ∈ cs, Bare sql c := by
  induction cs with
  | nil => exact ⟨fun _ => List.forall_mem_nil _, fun _ => by decide⟩
  | cons c cs ih =>
    have hcomma : (lex sql (items (c :: cs))).map dropBlanks =
        ((lexFrom sql (some []) (c ++ 39 :: items cs)).map dropBlanks).map (.plain 44 :: ·) := by
      rw [items, lex_plain (by decide), lex_plain (by decide), show (39 : UInt8) = sql.quote from rfl, lex_quote,
        Option.map_map, Option.map_map, Option.map_map]
      rfl
    rw [hcomma, itemTokens, List.forall_mem_cons, ← ih, ← lexFrom_item]
    constructor
    · intro h
      obtain ⟨toks, htoks, hcons⟩ := Option.map_eq_some_iff.mp h
      rw [htoks, (List.cons.inj hcons).2]
    · intro h
      rw [h]
      rfl

/-- The statement is read as intended when the first name and the rest are. -/
theorem intended_iff_front (c : Bytes) (cs : List Bytes) :
    Intended c cs ↔
      (lexFrom sql (some []) (c ++ 39 :: items cs)).map dropBlanks = some (.literal c :: itemTokens cs) := by
  have hfront : lex sql front = some (front.map .plain) := lex_of_unquoted (ne_of_all (by decide))
  have hstatement : (lex sql (sent (c :: cs))).map dropBlanks =
      ((lexFrom sql (some []) (c ++ 39 :: items cs)).map dropBlanks).map (frontTokens ++ ·) := by
    rw [sent_cons, lex_append hfront, show (39 : UInt8) = sql.quote from rfl, lex_quote, Option.map_map,
      Option.map_map]
    apply congrFun
    apply congrArg
    funext toks
    rw [Function.comp_apply, Function.comp_apply, dropBlanks_append, frontTokens]
  rw [Intended, hstatement]
  constructor
  · intro h
    obtain ⟨toks, htoks, happend⟩ := Option.map_eq_some_iff.mp h
    rw [htoks, List.append_cancel_left happend]
  · intro h
    rw [h]
    rfl

/-- The names are the literals of the statement, and nothing else is in it, exactly when no name has a quote or a
backslash. -/
theorem intended_iff (c : Bytes) (cs : List Bytes) : Intended c cs ↔ ∀ name ∈ c :: cs, Bare sql name := by
  rw [intended_iff_front, lexFrom_item, lex_items, List.forall_mem_cons]

/-- A name that closes its literal, and adds a condition. -/
theorem not_intended_or : ¬ ∀ c cs, Intended c cs := by
  intro h
  have hname := h (ascii "x') OR ('1'='1") []
  rw [intended_iff_front, lexFrom_item] at hname
  exact absurd hname.1 (by decide)

end Cmoon.CityLists
