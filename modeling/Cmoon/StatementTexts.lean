import Cmoon.ExceptResults
import Cmoon.QuotedText
import Cmoon.StatementBuilding

/-! # The texts of statements

The builders put the values of a dataset into the text of a statement: numbers as they are printed, and everything
else escaped and between quotes. -/
namespace Cmoon.StatementTexts
open DecimalText Datasets StatementBuilding QuotedText ExceptResults

def ascii (s : String) : Bytes := s.toList.map fun ch => UInt8.ofNat ch.toNat

theorem ne_of_all {s : Bytes} {a : UInt8} (h : s.all (· != a) = true) : ∀ b ∈ s, b ≠ a := by
  intro b hb
  exact bne_iff_ne.mp (List.all_eq_true.mp h b hb)

/-- The character that is written behind the backslash. -/
def escapeCode (b : UInt8) : Option UInt8 :=
  if b = 0 then some 48            -- must be escaped for mysql
  else if b = 10 then some 110     -- must be escaped for logs
  else if b = 13 then some 114
  else if b = 92 then some 92
  else if b = 39 then some 39
  else if b = 34 then some 34      -- better safe than sorry
  else if b = 26 then some 90      -- this gives problems on Win32
  else if b = 59 then some 59
  else none

def mstrRealEscapeString : Bytes → Bytes
  | [] => []
  | b :: r =>
    match escapeCode b with
    | some escape => 92 :: escape :: mstrRealEscapeString r
    | none => b :: mstrRealEscapeString r

/-- The character that a backslash and `e` stand for inside a literal. -/
def unescape (e : UInt8) : UInt8 :=
  if e = 110 then 10 else if e = 114 then 13 else if e = 48 then 0 else if e = 90 then 26 else e

theorem unescape_eq_backslash (e : UInt8) (h : unescape e = 92) : e = 92 := by
  unfold unescape at h
  split_ifs at h
  all_goals first | exact h | cases h

/-- Quotes and backslashes as the server reads them. -/
def sql : Quoting UInt8 where
  quote := 39
  escape := 92
  unescape := unescape
  quote_ne_escape := by decide
  unescape_eq_escape := unescape_eq_backslash

theorem unescape_escapeCode (b e : UInt8) (h : escapeCode b = some e) : unescape e = b := by
  unfold escapeCode at h
  split_ifs at h with h0 h10 h13 h92 h39 h34 h26 h59
  all_goals cases h
  all_goals subst b; rfl

def escaping : Escaping sql where
  code := escapeCode
  unescape_code := unescape_escapeCode
  code_quote := by decide
  code_escape := by decide

theorem mstrRealEscapeString_eq (s : Bytes) : mstrRealEscapeString s = escaping.encode s := by
  induction s with
  | nil => rfl
  | cons b r ih =>
    rw [mstrRealEscapeString, Escaping.encode, List.flatMap_cons, Escaping.symbol]
    rw [Escaping.encode] at ih
    cases hb : escapeCode b with
    | some e =>
      rw [show escaping.code b = some e from hb, ih]
      rfl
    | none =>
      rw [show escaping.code b = none from hb, ih]
      rfl

/-- A text of the code or of the configuration: it leaves no literal open. -/
abbrev ClosedText := { s : Bytes // lex sql s ≠ none }

/-- A line of a column list, or of a list of conditions. The type is missing when the builders do not know it, which
is not the same as a line without a type: that is a `str`. -/
structure QuerySpec where
  name : String
  col : ClosedText
  type : Option ColumnType
  maxlen : Option ℤ
  require : Bool

/-- `%f` of `atof`: what it prints has no quote. -/
structure FloatText where
  print : Bytes → Bytes
  unquoted : ∀ s, ∀ b ∈ print s, b ≠ 39

inductive TextError where
  | require (name : String) (type : Option ColumnType)
  | strLen
  deriving DecidableEq

abbrev Parts := List (Piece UInt8)

def text (ps : Parts) : Bytes := render escaping ps

/-- The word before the literal of a geometric type. -/
def keyword : ColumnType → Bytes
  | .point => ascii "point "
  | .box => ascii "box "
  | .path => ascii "path "
  | .str | .int | .float => []

section Builders
variable (F : FloatText)

def upcolParts (spec : QuerySpec) (val : Bytes) : Parts :=
  match spec.type with
  | some .str =>
    match spec.maxlen with
    | some clen =>
      [.fixed (ascii " " ++ spec.col ++ ascii "="), .quoted val,
        .fixed (ascii "::varchar(" ++ printInt clen ++ ascii ") ")]
    | none => [.fixed (ascii " " ++ spec.col ++ ascii "="), .quoted val, .fixed (ascii " ")]
  | some .int => [.fixed (ascii " " ++ spec.col ++ ascii "=" ++ printInt (atoi val) ++ ascii " ")]
  | some .float => [.fixed (ascii " " ++ spec.col ++ ascii "=" ++ F.print val ++ ascii " ")]
  | some type => [.fixed (ascii " " ++ spec.col ++ ascii "= " ++ keyword type), .quoted val, .fixed (ascii " ")]
  | none => []

def querycondParts (spec : QuerySpec) (val : Bytes) : Parts :=
  match spec.type with
  | some .int => [.fixed (ascii " " ++ spec.col ++ ascii " " ++ printInt (atoi val) ++ ascii " ")]
  | some .float => [.fixed (ascii " " ++ spec.col ++ ascii " " ++ F.print val ++ ascii " ")]
  | some type => [.fixed (ascii " " ++ spec.col ++ ascii " " ++ keyword type), .quoted val, .fixed (ascii " ")]
  | none => []

def incolParts (spec : QuerySpec) (val : Bytes) : Parts :=
  match spec.type with
  | some .str =>
    match spec.maxlen with
    | some clen =>
      [.fixed (ascii " "), .quoted val, .fixed (ascii "::varchar(" ++ printInt clen ++ ascii ") ")]
    | none => [.fixed (ascii " "), .quoted val, .fixed (ascii " ")]
  | some .int => [.fixed (printInt (atoi val))]
  | some .float => [.fixed (F.print val)]
  | some type => [.fixed (keyword type), .quoted val, .fixed (ascii " ")]
  | none => []

/-- The loop over the lines, which the three builders run: `add` puts a line and its value behind what is there. -/
def eachCol {σ : Type} (data : Dataset) (add : σ → QuerySpec → Bytes → σ) : σ → List QuerySpec → Except TextError σ
  | str, [] => .ok str
  | str, spec :: specs =>
    match nonempty data spec.name with
    | some val => eachCol data add (add str spec val) specs
    | none => if spec.require then .error (.require spec.name spec.type) else eachCol data add str specs

/-- The separator stands behind a text that is not empty. -/
def separate (sep : Bytes) (str : Parts) : Parts := if text str = [] then str else str ++ [.fixed sep]

def addUpcol (str : Parts) (spec : QuerySpec) (val : Bytes) : Parts :=
  separate (ascii " , ") str ++ upcolParts F spec val

def addQuerycond (str : Parts) (spec : QuerySpec) (val : Bytes) : Parts :=
  separate (ascii " AND ") str ++ querycondParts F spec val

/-- The columns `sa` and the values `sb`. -/
def addIncol (s : Parts × Parts) (spec : QuerySpec) (val : Bytes) : Parts × Parts :=
  if text s.1 = [] then
    ([.fixed (ascii " (" ++ spec.col ++ ascii " ")], .fixed (ascii " VALUES (") :: incolParts F spec val)
  else
    (s.1 ++ [.fixed (ascii ", " ++ spec.col ++ ascii " ")], s.2 ++ .fixed (ascii ", ") :: incolParts F spec val)

def mdbBuildUpcol (str : ClosedText) (data : Dataset) (specs : List QuerySpec) : Except TextError Parts :=
  (eachCol data (addUpcol F) [.fixed str] specs).bind fun ps => if text ps = [] then .error .strLen else .ok ps

def orDefault (defstr : Option ClosedText) (str : Parts) : Parts :=
  if text str = [] then str ++ (defstr.map fun s => Piece.fixed s.val).toList else str

def mdbBuildQuerycond (defstr : Option ClosedText) (str : ClosedText) (data : Dataset) (specs : List QuerySpec) :
    Except TextError Parts :=
  (eachCol data (addQuerycond F) [.fixed str] specs).map (orDefault defstr)

def mdbBuildIncol (str : ClosedText) (data : Dataset) (specs : List QuerySpec) : Except TextError Parts :=
  (eachCol data (addIncol F) ([], []) specs).bind fun s =>
    if text s.1 = [] then .error .strLen
    else .ok (.fixed str :: s.1 ++ .fixed (ascii ")  ") :: s.2 ++ [.fixed (ascii ")")])

end Builders

/-- A value of this line is written between quotes. -/
def QuerySpec.Quoted (spec : QuerySpec) : Prop := spec.type ≠ some .int ∧ spec.type ≠ some .float

/-- Both datasets have values for the same lines, and the values that stand outside of quotes are the same. -/
def Agree (specs : List QuerySpec) (data data' : Dataset) : Prop :=
  ∀ spec ∈ specs, (nonempty data spec.name).isSome = (nonempty data' spec.name).isSome ∧
    (¬ spec.Quoted → nonempty data spec.name = nonempty data' spec.name)

def structureOf (ps : Parts) : Option (List (Option UInt8)) := (lex sql (text ps)).map (List.map Token.shape)

/-- Every value in quotes is one literal of the statement, and such values have no part in its structure. -/
def Contained (specs : List QuerySpec) (build : Dataset → Except TextError Parts) : Prop :=
  (∀ data ps, build data = .ok ps → lex sql (text ps) = some (tokens sql ps)) ∧
    ∀ data data', Agree specs data data' → (build data).map structureOf = (build data').map structureOf

theorem closed_of_unquoted {s : Bytes} (h : ∀ b ∈ s, b ≠ 39) : lex sql s ≠ none := by
  rw [lex_of_unquoted h]
  exact Option.some_ne_none _

theorem closed_append {s t : Bytes} (hs : lex sql s ≠ none) (ht : lex sql t ≠ none) : lex sql (s ++ t) ≠ none := by
  obtain ⟨toks, htoks⟩ := Option.ne_none_iff_exists'.mp hs
  rw [lex_append htoks]
  exact fun h => ht (Option.map_eq_none_iff.mp h)

theorem closed_printInt (x : ℤ) : lex sql (printInt x) ≠ none := by
  apply closed_of_unquoted
  intro b hb hquote
  subst hquote
  exact notMem_printInt rfl (by decide) x hb

theorem closed_keyword (type : ColumnType) : lex sql (keyword type) ≠ none := by cases type <;> decide

def AllClosed (ps : Parts) : Prop := ∀ p ∈ ps, p.Closed sql

theorem AllClosed.append {ps qs : Parts} (hp : AllClosed ps) (hq : AllClosed qs) : AllClosed (ps ++ qs) :=
  List.forall_mem_append.mpr ⟨hp, hq⟩

theorem AllClosed.fixed {s : Bytes} (h : lex sql s ≠ none) {ps : Parts} (hp : AllClosed ps) :
    AllClosed (.fixed s :: ps) := List.forall_mem_cons.mpr ⟨h, hp⟩

theorem AllClosed.quoted (v : Bytes) {ps : Parts} (hp : AllClosed ps) : AllClosed (.quoted v :: ps) :=
  List.forall_mem_cons.mpr ⟨trivial, hp⟩

theorem AllClosed.nil : AllClosed [] := List.forall_mem_nil _

/-- The parts of one line: all are closed, and what is in quotes does not show in them. -/
structure LineSpec (parts : QuerySpec → Bytes → Parts) : Prop where
  closed : ∀ spec val, AllClosed (parts spec val)
  frame : ∀ spec val val', spec.Quoted → (parts spec val).map Piece.frame = (parts spec val').map Piece.frame

section Lines
variable (F : FloatText)

/-- The blank, the column and what stands between it and the value. -/
theorem closed_head (spec : QuerySpec) {sep : Bytes} (hsep : lex sql sep ≠ none) :
    lex sql (ascii " " ++ spec.col ++ sep) ≠ none :=
  closed_append (closed_append (by decide) spec.col.property) hsep

theorem upcolParts_spec : LineSpec (upcolParts F) where
  closed spec val := by
    unfold upcolParts
    split
    · split
      · exact .fixed (closed_head spec (by decide)) (.quoted _
          (.fixed (closed_append (closed_append (by decide) (closed_printInt _)) (by decide)) .nil))
      · exact .fixed (closed_head spec (by decide)) (.quoted _ (.fixed (by decide) .nil))
    · exact .fixed (closed_append (closed_append (closed_head spec (by decide)) (closed_printInt _)) (by decide)) .nil
    · exact .fixed (closed_append (closed_append (closed_head spec (by decide)) (closed_of_unquoted (F.unquoted _)))
        (by decide)) .nil
    · exact .fixed (closed_append (closed_head spec (by decide)) (closed_keyword _))
        (.quoted _ (.fixed (by decide) .nil))
    · exact .nil
  frame spec val val' h := by
    unfold upcolParts
    split
    · split <;> rfl
    · exact (h.1 ‹_›).elim
    · exact (h.2 ‹_›).elim
    · rfl
    · rfl

theorem querycondParts_spec : LineSpec (querycondParts F) where
  closed spec val := by
    unfold querycondParts
    split
    · exact .fixed (closed_append (closed_append (closed_head spec (by decide)) (closed_printInt _)) (by decide)) .nil
    · exact .fixed (closed_append (closed_append (closed_head spec (by decide)) (closed_of_unquoted (F.unquoted _)))
        (by decide)) .nil
    · exact .fixed (closed_append (closed_head spec (by decide)) (closed_keyword _))
        (.quoted _ (.fixed (by decide) .nil))
    · exact .nil
  frame spec val val' h := by
    unfold querycondParts
    split
    · exact (h.1 ‹_›).elim
    · exact (h.2 ‹_›).elim
    · rfl
    · rfl

theorem incolParts_spec : LineSpec (incolParts F) where
  closed spec val := by
    unfold incolParts
    split
    · split
      · exact .fixed (by decide) (.quoted _
          (.fixed (closed_append (closed_append (by decide) (closed_printInt _)) (by decide)) .nil))
      · exact .fixed (by decide) (.quoted _ (.fixed (by decide) .nil))
    · exact .fixed (closed_printInt _) .nil
    · exact .fixed (closed_of_unquoted (F.unquoted _)) .nil
    · exact .fixed (closed_keyword _) (.quoted _ (.fixed (by decide) .nil))
    · exact .nil
  frame spec val val' h := by
    unfold incolParts
    split
    · split <;> rfl
    · exact (h.1 ‹_›).elim
    · exact (h.2 ‹_›).elim
    · rfl
    · rfl

end Lines

/-- Two builders end with the same error, or with results that are related. -/
inductive Alike {σ : Type} (R : σ → σ → Prop) : Except TextError σ → Except TextError σ → Prop
  | ok {a b : σ} (h : R a b) : Alike R (.ok a) (.ok b)
  | error (e : TextError) : Alike R (.error e) (.error e)

theorem Alike.bind {σ τ : Type} {R : σ → σ → Prop} {S : τ → τ → Prop} {x y : Except TextError σ}
    (h : Alike R x y) {f g : σ → Except TextError τ} (hfg : ∀ a b, R a b → Alike S (f a) (g b)) :
    Alike S (x.bind f) (y.bind g) := by
  cases h with
  | ok h => exact hfg _ _ h
  | error e => exact .error e

section Loop
variable {σ : Type} {data data' : Dataset} {add : σ → QuerySpec → Bytes → σ} {specs : List QuerySpec}

theorem eachCol_keeps {P : σ → Prop} (hadd : ∀ str spec val, P str → P (add str spec val)) {str out : σ} (h : P str)
    (hout : eachCol data add str specs = .ok out) : P out := by
  induction specs generalizing str with
  | nil =>
    cases hout
    exact h
  | cons spec specs ih =>
    rw [eachCol] at hout
    cases hval : nonempty data spec.name with
    | some val =>
      rw [hval] at hout
      exact ih (hadd str spec val h) hout
    | none =>
      simp only [hval] at hout
      split at hout
      · cases hout
      · exact ih h hout

theorem eachCol_alike {R : σ → σ → Prop}
    (hadd : ∀ str str' spec val val', (¬ spec.Quoted → val = val') → R str str' →
      R (add str spec val) (add str' spec val'))
    (hagree : Agree specs data data') {str str' : σ} (h : R str str') :
    Alike R (eachCol data add str specs) (eachCol data' add str' specs) := by
  induction specs generalizing str str' with
  | nil => exact .ok h
  | cons spec specs ih =>
    obtain ⟨hsome, hsame⟩ := hagree spec List.mem_cons_self
    have hrest : Agree specs data data' := fun spec hspec => hagree spec (List.mem_cons_of_mem _ hspec)
    rw [eachCol, eachCol]
    cases hval : nonempty data spec.name with
    | some val =>
      cases hval' : nonempty data' spec.name with
      | none =>
        rw [hval, hval'] at hsome
        cases hsome
      | some val' =>
        rw [hval, hval'] at hsame
        exact ih hrest (hadd str str' spec val val' (fun hq => Option.some.inj (hsame hq)) h)
    | none =>
      cases hval' : nonempty data' spec.name with
      | some val' =>
        rw [hval, hval'] at hsome
        cases hsome
      | none =>
        cases hrequire : spec.require with
        | true => exact .error _
        | false => exact ih hrest h

end Loop

def SameFrames (ps qs : Parts) : Prop := ps.map Piece.frame = qs.map Piece.frame

theorem SameFrames.append {ps qs ps' qs' : Parts} (h : SameFrames ps ps') (h' : SameFrames qs qs') :
    SameFrames (ps ++ qs) (ps' ++ qs') := by
  rw [SameFrames, List.map_append, List.map_append, h, h']

theorem SameFrames.cons (p : Piece UInt8) {ps qs : Parts} (h : SameFrames ps qs) : SameFrames (p :: ps) (p :: qs) :=
  congrArg (p.frame :: ·) h

theorem SameFrames.text_eq_nil {ps qs : Parts} (h : SameFrames ps qs) : text ps = [] ↔ text qs = [] := by
  induction ps generalizing qs with
  | nil =>
    obtain rfl : qs = [] := List.map_eq_nil_iff.mp (Eq.symm h)
    exact Iff.rfl
  | cons p ps ih =>
    cases qs with
    | nil => cases h
    | cons q qs =>
      obtain ⟨hframe, hrest⟩ := List.cons.inj h
      have htail := ih hrest
      unfold text render at htail ⊢
      rw [List.flatMap_cons, List.flatMap_cons, List.append_eq_nil_iff, List.append_eq_nil_iff, htail]
      cases p <;> cases q <;> cases hframe
      · exact Iff.rfl
      · simp [Piece.render, Escaping.quoted]

theorem separate_sameFrames {sep : Bytes} {ps qs : Parts} (h : SameFrames ps qs) :
    SameFrames (separate sep ps) (separate sep qs) := by
  unfold separate
  by_cases hps : text ps = []
  · rw [if_pos hps, if_pos (h.text_eq_nil.mp hps)]
    exact h
  · rw [if_neg hps, if_neg fun hqs => hps (h.text_eq_nil.mpr hqs)]
    exact h.append rfl

theorem separate_closed {sep : Bytes} (hsep : lex sql sep ≠ none) {ps : Parts} (h : AllClosed ps) :
    AllClosed (separate sep ps) := by
  unfold separate
  split
  · exact h
  · exact h.append (.fixed hsep .nil)

theorem LineSpec.sameFrames {parts : QuerySpec → Bytes → Parts} (hparts : LineSpec parts) {spec : QuerySpec}
    {val val' : Bytes} (h : ¬ spec.Quoted → val = val') : SameFrames (parts spec val) (parts spec val') := by
  by_cases hq : spec.Quoted
  · exact hparts.frame spec val val' hq
  · rw [h hq]
    rfl

theorem structureOf_eq {ps qs : Parts} (hps : AllClosed ps) (hqs : AllClosed qs) (h : SameFrames ps qs) :
    structureOf ps = structureOf qs := by
  rw [structureOf, structureOf, text, text, lex_render _ hps, lex_render _ hqs, Option.map_some, Option.map_some,
    tokens_shape h]

/-- A builder that writes closed parts only, and the same frames for datasets that agree, keeps the values inside. -/
theorem contained_of {specs : List QuerySpec} {build : Dataset → Except TextError Parts}
    (hclosed : ∀ data ps, build data = .ok ps → AllClosed ps)
    (halike : ∀ data data', Agree specs data data' → Alike SameFrames (build data) (build data')) :
    Contained specs build := by
  constructor
  · intro data ps h
    exact lex_render _ (hclosed data ps h)
  · intro data data' hagree
    have hboth := halike data data' hagree
    generalize hx : build data = x at hboth
    generalize hy : build data' = y at hboth
    cases hboth with
    | error e => rfl
    | @ok ps qs h => exact congrArg Except.ok (structureOf_eq (hclosed data ps hx) (hclosed data' qs hy) h)

section Builders
variable (F : FloatText)

theorem addUpcol_closed (ps : Parts) (spec : QuerySpec) (val : Bytes) (h : AllClosed ps) :
    AllClosed (addUpcol F ps spec val) :=
  (separate_closed (by decide) h).append ((upcolParts_spec F).closed spec val)

theorem addUpcol_sameFrames (ps ps' : Parts) (spec : QuerySpec) (val val' : Bytes) (hval : ¬ spec.Quoted → val = val')
    (h : SameFrames ps ps') : SameFrames (addUpcol F ps spec val) (addUpcol F ps' spec val') :=
  (separate_sameFrames h).append ((upcolParts_spec F).sameFrames hval)

theorem orDefault_closed (defstr : Option ClosedText) {ps : Parts} (h : AllClosed ps) :
    AllClosed (orDefault defstr ps) := by
  unfold orDefault
  split
  · cases defstr with
    | none => exact h.append .nil
    | some defstr => exact h.append (.fixed defstr.property .nil)
  · exact h

theorem orDefault_sameFrames (defstr : Option ClosedText) {ps qs : Parts} (h : SameFrames ps qs) :
    SameFrames (orDefault defstr ps) (orDefault defstr qs) := by
  unfold orDefault
  by_cases hps : text ps = []
  · rw [if_pos hps, if_pos (h.text_eq_nil.mp hps)]
    exact h.append rfl
  · rw [if_neg hps, if_neg fun hqs => hps (h.text_eq_nil.mpr hqs)]
    exact h

theorem addQuerycond_closed (ps : Parts) (spec : QuerySpec) (val : Bytes) (h : AllClosed ps) :
    AllClosed (addQuerycond F ps spec val) :=
  (separate_closed (by decide) h).append ((querycondParts_spec F).closed spec val)

theorem addQuerycond_sameFrames (ps ps' : Parts) (spec : QuerySpec) (val val' : Bytes)
    (hval : ¬ spec.Quoted → val = val') (h : SameFrames ps ps') :
    SameFrames (addQuerycond F ps spec val) (addQuerycond F ps' spec val') :=
  (separate_sameFrames h).append ((querycondParts_spec F).sameFrames hval)

theorem addIncol_closed (s : Parts × Parts) (spec : QuerySpec) (val : Bytes) (h : AllClosed s.1 ∧ AllClosed s.2) :
    AllClosed (addIncol F s spec val).1 ∧ AllClosed (addIncol F s spec val).2 := by
  have hcol := spec.col.property
  have hval := (incolParts_spec F).closed spec val
  unfold addIncol
  split
  · exact ⟨.fixed (closed_append (closed_append (by decide) hcol) (by decide)) .nil, .fixed (by decide) hval⟩
  · exact ⟨h.1.append (.fixed (closed_append (closed_append (by decide) hcol) (by decide)) .nil),
      h.2.append (.fixed (by decide) hval)⟩

theorem addIncol_sameFrames (s s' : Parts × Parts) (spec : QuerySpec) (val val' : Bytes)
    (hval : ¬ spec.Quoted → val = val') (h : SameFrames s.1 s'.1 ∧ SameFrames s.2 s'.2) :
    SameFrames (addIncol F s spec val).1 (addIncol F s' spec val').1 ∧
      SameFrames (addIncol F s spec val).2 (addIncol F s' spec val').2 := by
  have hparts := (incolParts_spec F).sameFrames hval
  unfold addIncol
  by_cases hs : text s.1 = []
  · rw [if_pos hs, if_pos (h.1.text_eq_nil.mp hs)]
    exact ⟨rfl, hparts.cons _⟩
  · rw [if_neg hs, if_neg fun hs' => hs (h.1.text_eq_nil.mpr hs')]
    exact ⟨h.1.append rfl, h.2.append (hparts.cons _)⟩

theorem mdbBuildUpcol_contained (str : ClosedText) (specs : List QuerySpec) :
    Contained specs fun data => mdbBuildUpcol F str data specs := by
  apply contained_of
  · intro data ps h
    obtain ⟨out, hout, hps⟩ := bind_eq_ok h
    split at hps
    · cases hps
    · cases hps
      exact eachCol_keeps (addUpcol_closed F) (.fixed str.property .nil) hout
  · intro data data' hagree
    apply Alike.bind (eachCol_alike (addUpcol_sameFrames F) hagree rfl)
    intro ps qs h
    by_cases hps : text ps = []
    · rw [if_pos hps, if_pos (h.text_eq_nil.mp hps)]
      exact .error _
    · rw [if_neg hps, if_neg fun hqs => hps (h.text_eq_nil.mpr hqs)]
      exact .ok h

theorem mdbBuildQuerycond_contained (defstr : Option ClosedText) (str : ClosedText) (specs : List QuerySpec) :
    Contained specs fun data => mdbBuildQuerycond F defstr str data specs := by
  apply contained_of
  · intro data ps h
    obtain ⟨out, hout, hps⟩ := bind_eq_ok h
    have hclosed := eachCol_keeps (addQuerycond_closed F) (.fixed str.property .nil) hout
    cases hps
    exact orDefault_closed defstr hclosed
  · intro data data' hagree
    apply Alike.bind (eachCol_alike (addQuerycond_sameFrames F) hagree rfl)
    intro ps qs h
    exact .ok (orDefault_sameFrames defstr h)

theorem mdbBuildIncol_contained (str : ClosedText) (specs : List QuerySpec) :
    Contained specs fun data => mdbBuildIncol F str data specs := by
  apply contained_of
  · intro data ps h
    obtain ⟨out, hout, hps⟩ := bind_eq_ok h
    split at hps
    · cases hps
    · cases hps
      obtain ⟨hsa, hsb⟩ := eachCol_keeps (addIncol_closed F) ⟨.nil, .nil⟩ hout
      have hcols : AllClosed (.fixed str :: out.1) := hsa.fixed str.property
      have hvalues : AllClosed (.fixed (ascii ")  ") :: out.2) := hsb.fixed (by decide)
      exact (hcols.append hvalues).append (.fixed (by decide) .nil)
  · intro data data' hagree
    apply Alike.bind (eachCol_alike (addIncol_sameFrames F) hagree ⟨rfl, rfl⟩)
    intro s s' h
    by_cases hs : text s.1 = []
    · rw [if_pos hs, if_pos (h.1.text_eq_nil.mp hs)]
      exact .error _
    · rw [if_neg hs, if_neg fun hs' => hs (h.1.text_eq_nil.mpr hs')]
      apply Alike.ok
      exact ((h.1.cons _).append (h.2.cons _)).append rfl

end Builders

/-- An escaped text between quotes is one literal of its own value, and no value that the builders put between quotes
has a part in the structure of the statement. -/
theorem escaped_stays_inside (F : FloatText) :
    (∀ v : Bytes, lex sql (39 :: (mstrRealEscapeString v ++ [39])) = some [.literal v]) ∧
      ∀ (str : ClosedText) (defstr : Option ClosedText) (specs : List QuerySpec),
        (Contained specs fun data => mdbBuildUpcol F str data specs) ∧
          (Contained specs fun data => mdbBuildQuerycond F defstr str data specs) ∧
          Contained specs fun data => mdbBuildIncol F str data specs := by
  constructor
  · intro v
    rw [mstrRealEscapeString_eq]
    exact lex_quoted escaping v
  · intro str defstr specs
    exact ⟨mdbBuildUpcol_contained F str specs, mdbBuildQuerycond_contained F defstr str specs,
      mdbBuildIncol_contained F str specs⟩

end Cmoon.StatementTexts
