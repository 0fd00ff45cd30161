import Cmoon.DecimalText
import Mathlib.Data.List.DropRight

/-! # The names of columns

`mdb_set_qrarray` reads the names of a list of columns: what is in parentheses is left out, the rest is cut at the
commas, and of what is between two commas, without the blanks around it, the part behind the first ` as ` is taken. -/
namespace Cmoon.ColumnNames
open DecimalText

/-- `QR_NUM_MAX`, `LEN_ST` and `LEN_ML` -/
def qrNumMax : ℕ := 50
def lenSt : ℕ := 64
def lenMl : ℕ := 10001

def isBlank (b : UInt8) : Bool := b = 9 || b = 32 || b = 13 || b = 10

/-- The list without `(...)`, from a depth on. -/
def withoutParens : ℤ → Bytes → Bytes
  | _, [] => []
  | level, b :: s =>
    if b ≠ 40 ∧ b ≠ 41 ∧ level = 0 then b :: withoutParens level s
    else if b = 40 then withoutParens (level + 1) s
    else if b = 41 then withoutParens (level - 1) s
    else withoutParens level s

def strtok (sep : UInt8) (s : Bytes) : List Bytes := (s.splitOn sep).filter (· ≠ [])

def trim (s : Bytes) : Bytes := (s.dropWhile isBlank).rdropWhile isBlank

def toLower (b : UInt8) : UInt8 := if 65 ≤ b && b ≤ 90 then b + 32 else b

/-- ` as `, in any case -/
def isAs (s : Bytes) : Bool := s.map toLower = [32, 97, 115, 32]

/-- What is behind the first ` as `. -/
def afterAs : Bytes → Option Bytes
  | [] => none
  | b :: s => if isAs ((b :: s).take 4) then some (s.drop 3) else afterAs s

/-- The entry of a token. When there are only blanks the loop for the last character runs out of `tok`, which is a
fault. -/
def columnName (p : Bytes) : Option Bytes :=
  let qr := trim (p.take (lenSt - 1))
  if qr = [] then none
  else some (((afterAs qr).map fun rest => rest.dropWhile isBlank).getD qr)

def columnNames : List Bytes → Option (List Bytes)
  | [] => some []
  | p :: ps => (columnName p).bind fun name => (columnNames ps).map fun names => name :: names

/-- A fault also when `src` is filled up, so that it is not closed, or there are more entries than places. -/
def mdbSetQrarray (qrcol : Bytes) : Option (List Bytes) :=
  let src := withoutParens 0 qrcol
  if lenMl ≤ src.length then none
  else (columnNames (strtok 44 src)).filter fun names => names.length ≤ qrNumMax

/-- Texts in which the parentheses match. -/
inductive Balanced : Bytes → Prop
  | nil : Balanced []
  | byte {b : UInt8} {s : Bytes} (hb : b ≠ 40 ∧ b ≠ 41) (h : Balanced s) : Balanced (b :: s)
  | parens {inner s : Bytes} (hinner : Balanced inner) (h : Balanced s) : Balanced (40 :: (inner ++ 41 :: s))

/-- A byte of an expression, or parentheses with what is in them. -/
inductive Part where
  | byte (b : UInt8)
  | parens (inner : Bytes)

def Part.text : Part → Bytes
  | .byte b => [b]
  | .parens inner => 40 :: (inner ++ [41])

def Part.outside : Part → Bytes
  | .byte b => [b]
  | .parens _ => []

/-- ` as `, blanks, the alias, and blanks -/
structure Alias where
  as : Bytes
  gap : Bytes
  name : Bytes
  after : Bytes

def Alias.text (a : Alias) : Bytes := a.as ++ (a.gap ++ (a.name ++ a.after))

/-- A name or an expression, with the blanks before it, and perhaps an alias. -/
structure Item where
  body : List Part
  renamed : Option Alias

def Item.outside (item : Item) : Bytes := item.body.flatMap Part.outside

def Item.aliasText (item : Item) : Bytes := (item.renamed.map Alias.text).getD []

def Item.text (item : Item) : Bytes := item.body.flatMap Part.text ++ item.aliasText

/-- What the item is an entry for: the alias, or the text outside parentheses. -/
def Item.entry (item : Item) : Bytes := (item.renamed.map Alias.name).getD (trim item.outside)

def listText (items : List Item) : Bytes := [44].intercalate (items.map Item.text)

structure Alias.Valid (a : Alias) : Prop where
  as : isAs a.as = true
  gap : ∀ b ∈ a.gap, isBlank b = true
  after : ∀ b ∈ a.after, isBlank b = true
  head : ∃ b s, a.name = b :: s ∧ isBlank b = false
  last : ∃ s b, a.name = s ++ [b] ∧ isBlank b = false
  plain : ∀ b ∈ a.name, b ≠ 40 ∧ b ≠ 41 ∧ b ≠ 44

/-- An item that is not blank, with matching parentheses, commas in these only, and no ` as ` but the one of the
alias. -/
structure Item.Valid (item : Item) : Prop where
  byte : ∀ b, .byte b ∈ item.body → b ≠ 40 ∧ b ≠ 41 ∧ b ≠ 44
  parens : ∀ inner, .parens inner ∈ item.body → Balanced inner
  notBlank : (∃ inner, .parens inner ∈ item.body) ∨ ∃ b, .byte b ∈ item.body ∧ isBlank b = false
  noAs : ∀ s, isAs s = true → ¬ s.map Part.byte <:+: item.body
  renamed : ∀ a ∈ item.renamed, a.Valid

/-- The list fits the buffers: there are places for all items, and for what is outside the parentheses of each. -/
structure Fits (items : List Item) : Prop where
  count : items.length ≤ qrNumMax
  tokens : ∀ item ∈ items, (item.outside ++ item.aliasText).length < lenSt

/-- There is text outside the parentheses, before the alias, and no ` as ` in it, nor one that runs into that of the
alias. -/
def Item.Apart (item : Item) : Prop :=
  item.outside.dropWhile isBlank ≠ [] ∧
    afterAs ((item.renamed.map fun a => item.outside.dropWhile isBlank ++ a.as.take 3).getD (trim item.outside)) = none

theorem withoutParens_byte {b : UInt8} (hb : b ≠ 40 ∧ b ≠ 41) (level : ℤ) (s : Bytes) :
    withoutParens level (b :: s) = if level = 0 then b :: withoutParens level s else withoutParens level s := by
  rw [withoutParens]
  by_cases hlevel : level = 0
  · rw [if_pos ⟨hb.1, hb.2, hlevel⟩, if_pos hlevel]
  · rw [if_neg fun h => hlevel h.2.2, if_neg hb.1, if_neg hb.2, if_neg hlevel]

theorem withoutParens_open (level : ℤ) (s : Bytes) : withoutParens level (40 :: s) = withoutParens (level + 1) s := by
  rw [withoutParens, if_neg fun h => h.1 rfl, if_pos rfl]

theorem withoutParens_close (level : ℤ) (s : Bytes) : withoutParens level (41 :: s) = withoutParens (level - 1) s := by
  rw [withoutParens, if_neg fun h => h.2.1 rfl, if_neg (by decide), if_pos rfl]

/-- In parentheses nothing is taken, and behind them the depth is as before. -/
theorem withoutParens_balanced {s : Bytes} (h : Balanced s) {level : ℤ} (hlevel : 0 < level) (rest : Bytes) :
    withoutParens level (s ++ rest) = withoutParens level rest := by
  induction h generalizing level rest with
  | nil => rfl
  | byte hb h ih => rw [List.cons_append, withoutParens_byte hb, if_neg hlevel.ne', ih hlevel]
  | parens hinner h ihinner ih =>
    rw [List.cons_append, withoutParens_open, List.append_assoc, ihinner (by omega), List.cons_append,
      withoutParens_close, add_sub_cancel_right, ih hlevel]

theorem withoutParens_part {part : Part} (hbyte : ∀ b, part = .byte b → b ≠ 40 ∧ b ≠ 41)
    (hparens : ∀ inner, part = .parens inner → Balanced inner) (rest : Bytes) :
    withoutParens 0 (part.text ++ rest) = part.outside ++ withoutParens 0 rest := by
  cases part with
  | byte b =>
    change withoutParens 0 (b :: rest) = b :: withoutParens 0 rest
    rw [withoutParens_byte (hbyte b rfl), if_pos rfl]
  | parens inner =>
    change withoutParens 0 (40 :: (inner ++ [41] ++ rest)) = withoutParens 0 rest
    rw [withoutParens_open, List.append_assoc, withoutParens_balanced (hparens inner rfl) (by decide),
      List.singleton_append, withoutParens_close]
    rfl

theorem withoutParens_plain {s : Bytes} (h : ∀ b ∈ s, b ≠ 40 ∧ b ≠ 41) (rest : Bytes) :
    withoutParens 0 (s ++ rest) = s ++ withoutParens 0 rest := by
  induction s with
  | nil => rfl
  | cons b s ih =>
    rw [List.forall_mem_cons] at h
    rw [List.cons_append, withoutParens_byte h.1, if_pos rfl, ih h.2, List.cons_append]

theorem withoutParens_body {body : List Part} (hbyte : ∀ b, .byte b ∈ body → b ≠ 40 ∧ b ≠ 41)
    (hparens : ∀ inner, .parens inner ∈ body → Balanced inner) (rest : Bytes) :
    withoutParens 0 (body.flatMap Part.text ++ rest) = body.flatMap Part.outside ++ withoutParens 0 rest := by
  induction body with
  | nil => rfl
  | cons part body ih =>
    have hpart : ∀ rest, withoutParens 0 (part.text ++ rest) = part.outside ++ withoutParens 0 rest :=
      withoutParens_part (fun b h => hbyte b (h ▸ List.mem_cons_self))
        fun inner h => hparens inner (h ▸ List.mem_cons_self)
    rw [List.flatMap_cons, List.flatMap_cons, List.append_assoc, hpart,
      ih (fun b h => hbyte b (List.mem_cons_of_mem _ h)) fun inner h => hparens inner (List.mem_cons_of_mem _ h),
      List.append_assoc]

/-- A byte of ` as ` or of blanks is no parenthesis and no comma. -/
theorem plain_of_isBlank {b : UInt8} (h : isBlank b = true) : b ≠ 40 ∧ b ≠ 41 ∧ b ≠ 44 := by
  refine ⟨?_, ?_, ?_⟩ <;> (rintro rfl; cases h)

theorem plain_of_isAs {s : Bytes} (h : isAs s = true) : ∀ b ∈ s, b ≠ 40 ∧ b ≠ 41 ∧ b ≠ 44 := by
  intro b hb
  have hlower : toLower b ∈ s.map toLower := List.mem_map_of_mem hb
  rw [of_decide_eq_true h] at hlower
  refine ⟨?_, ?_, ?_⟩ <;> (rintro rfl; revert hlower; decide)

theorem Alias.Valid.plain_text {a : Alias} (h : a.Valid) : ∀ b ∈ a.text, b ≠ 40 ∧ b ≠ 41 ∧ b ≠ 44 := by
  intro b hb
  simp only [Alias.text, List.mem_append] at hb
  rcases hb with hb | hb | hb | hb
  · exact plain_of_isAs h.as b hb
  · exact plain_of_isBlank (h.gap b hb)
  · exact h.plain b hb
  · exact plain_of_isBlank (h.after b hb)

theorem Item.Valid.plain_aliasText {item : Item} (h : item.Valid) : ∀ b ∈ item.aliasText, b ≠ 40 ∧ b ≠ 41 ∧ b ≠ 44 := by
  unfold Item.aliasText
  cases halias : item.renamed with
  | none => simp
  | some a => exact (h.renamed a halias).plain_text

theorem withoutParens_item {item : Item} (h : item.Valid) (rest : Bytes) :
    withoutParens 0 (item.text ++ rest) = item.outside ++ item.aliasText ++ withoutParens 0 rest := by
  have hbyte : ∀ b, .byte b ∈ item.body → b ≠ 40 ∧ b ≠ 41 := fun b hb => ⟨(h.byte b hb).1, (h.byte b hb).2.1⟩
  have halias : ∀ b ∈ item.aliasText, b ≠ 40 ∧ b ≠ 41 := fun b hb =>
    ⟨(h.plain_aliasText b hb).1, (h.plain_aliasText b hb).2.1⟩
  rw [Item.text, List.append_assoc, withoutParens_body hbyte h.parens, withoutParens_plain halias, Item.outside,
    List.append_assoc]

theorem withoutParens_listText {items : List Item} (h : ∀ item ∈ items, item.Valid) :
    withoutParens 0 (listText items) = [44].intercalate (items.map fun item => item.outside ++ item.aliasText) := by
  unfold listText
  induction items with
  | nil => rfl
  | cons item items ih =>
    rw [List.forall_mem_cons] at h
    cases items with
    | nil =>
      have hitem := withoutParens_item h.1 []
      rw [List.append_nil] at hitem
      rw [List.map_singleton, List.map_singleton, List.intercalate_singleton, List.intercalate_singleton, hitem,
        withoutParens, List.append_nil]
    | cons next items =>
      rw [List.map_cons, List.map_cons, List.intercalate_cons_cons, List.append_assoc, withoutParens_item h.1,
        List.singleton_append, withoutParens_byte (by decide), if_pos rfl, ← List.map_cons, ih h.2, List.map_cons,
        List.map_cons, List.map_cons, List.intercalate_cons_cons, List.append_assoc _ [44], List.singleton_append]

theorem isBlank_of_toLower (b : UInt8) : (toLower b = 32 → isBlank b = true) ∧
    (toLower b = 97 ∨ toLower b = 115 → isBlank b = false) := by
  have htable : ∀ n < 256, (toLower (UInt8.ofNat n) = 32 → isBlank (UInt8.ofNat n) = true) ∧
      (toLower (UInt8.ofNat n) = 97 ∨ toLower (UInt8.ofNat n) = 115 → isBlank (UInt8.ofNat n) = false) := by
    decide +kernel
  have hb := htable b.toNat b.toNat_lt
  rwa [UInt8.ofNat_toNat] at hb

theorem exists_of_isAs {m : Bytes} (h : isAs m = true) : ∃ b₀ b₁ b₂ b₃, m = [b₀, b₁, b₂, b₃] ∧ isBlank b₀ = true ∧
    isBlank b₁ = false ∧ isBlank b₂ = false ∧ isBlank b₃ = true := by
  have hlower := of_decide_eq_true h
  have hlen := congrArg List.length hlower
  rw [List.length_map] at hlen
  obtain ⟨b₀, b₁, b₂, b₃, rfl⟩ := List.length_eq_four.mp hlen
  simp only [List.map_cons, List.map_nil, List.cons.injEq, and_true] at hlower
  obtain ⟨h₀, h₁, h₂, h₃⟩ := hlower
  exact ⟨b₀, b₁, b₂, b₃, rfl, (isBlank_of_toLower b₀).1 h₀, (isBlank_of_toLower b₁).2 (.inl h₁),
    (isBlank_of_toLower b₂).2 (.inr h₂), (isBlank_of_toLower b₃).1 h₃⟩

theorem afterAs_length {s r : Bytes} (h : afterAs s = some r) : r.length + 4 ≤ s.length := by
  induction s with
  | nil => cases h
  | cons b s ih =>
    rw [afterAs] at h
    split at h
    · rename_i has
      obtain ⟨b₀, b₁, b₂, b₃, hm, -⟩ := exists_of_isAs has
      have hlen := congrArg List.length hm
      rw [List.length_take] at hlen
      obtain rfl := Option.some.inj h
      rw [List.length_drop]
      simp only [List.length_cons, List.length_nil] at hlen ⊢
      omega
    · have hle := ih h
      rw [List.length_cons]
      omega

/-- An ` as ` is the first one when none starts before it. -/
theorem afterAs_append {o m : Bytes} (hm : isAs m = true) (h : afterAs (o ++ m.take 3) = none) (t : Bytes) :
    afterAs (o ++ (m ++ t)) = some t := by
  obtain ⟨b₀, b₁, b₂, b₃, rfl, -⟩ := exists_of_isAs hm
  induction o with
  | nil =>
    change (if isAs [b₀, b₁, b₂, b₃] then some t else afterAs (b₁ :: b₂ :: b₃ :: t)) = some t
    rw [if_pos hm]
  | cons b o ih =>
    rw [List.cons_append, afterAs] at h
    rw [List.cons_append, afterAs]
    have htake : (b :: (o ++ ([b₀, b₁, b₂, b₃] ++ t))).take 4 = (b :: (o ++ [b₀, b₁, b₂])).take 4 := by
      rw [show o ++ ([b₀, b₁, b₂, b₃] ++ t) = o ++ [b₀, b₁, b₂] ++ (b₃ :: t) by simp, ← List.cons_append,
        List.take_append_of_le_length (by simp)]
    split at h
    · cases h
    · rename_i hno
      rw [if_neg (by rw [htake]; exact hno)]
      exact ih h

theorem afterAs_append_some {o m r : Bytes} (hm : isAs m = true) (h : afterAs (o ++ m.take 3) = some r) (t : Bytes) :
    afterAs (o ++ (m ++ t)) = some (r ++ (m.drop 3 ++ t)) := by
  obtain ⟨b₀, b₁, b₂, b₃, rfl, -⟩ := exists_of_isAs hm
  induction o with
  | nil => exact absurd (afterAs_length h) (by simp)
  | cons b o ih =>
    rw [List.cons_append, afterAs] at h
    rw [List.cons_append, afterAs]
    have hmore : o ++ ([b₀, b₁, b₂, b₃] ++ t) = o ++ [b₀, b₁, b₂] ++ (b₃ :: t) := by simp
    have htake : (b :: (o ++ ([b₀, b₁, b₂, b₃] ++ t))).take 4 = (b :: (o ++ [b₀, b₁, b₂])).take 4 := by
      rw [hmore, ← List.cons_append, List.take_append_of_le_length (by simp)]
    split at h
    · rename_i has
      obtain rfl := Option.some.inj h
      rw [if_pos (by rw [htake]; exact has), hmore, List.drop_append_of_le_length (by simp)]
      rfl
    · rename_i hno
      rw [if_neg (by rw [htake]; exact hno)]
      exact ih h

/-- What is behind an ` as ` ends where the text does, and the ` as ` is in front of it. -/
theorem afterAs_eq_some {s r : Bytes} (h : afterAs s = some r) :
    ∃ before m, s = before ++ (m ++ r) ∧ isAs m = true := by
  induction s with
  | nil => cases h
  | cons b s ih =>
    rw [afterAs] at h
    split at h
    · rename_i has
      obtain rfl := Option.some.inj h
      refine ⟨[], (b :: s).take 4, ?_, has⟩
      rw [List.nil_append]
      exact (List.take_append_drop 4 (b :: s)).symm
    · obtain ⟨before, m, hs, hm⟩ := ih h
      exact ⟨b :: before, m, congrArg _ hs, hm⟩

theorem dropWhile_blanks {s t : Bytes} (h : ∀ b ∈ s, isBlank b = true) :
    (s ++ t).dropWhile isBlank = t.dropWhile isBlank :=
  List.dropWhile_append_of_pos h

theorem dropWhile_of_head {b : UInt8} {s : Bytes} (hb : isBlank b = false) : (b :: s).dropWhile isBlank = b :: s :=
  List.dropWhile_cons_of_neg (by simp [hb])

theorem Alias.Valid.dropWhile_name {a : Alias} (h : a.Valid) : a.name.dropWhile isBlank = a.name := by
  obtain ⟨b, s, hname, hb⟩ := h.head
  rw [hname, dropWhile_of_head hb]

theorem Alias.Valid.rdropWhile {a : Alias} (h : a.Valid) (s : Bytes) :
    (s ++ (a.name ++ a.after)).rdropWhile isBlank = s ++ a.name := by
  obtain ⟨t, b, hname, hb⟩ := h.last
  have hafter : ∀ x ∈ a.after.reverse, isBlank x = true := fun x hx => h.after x (List.mem_reverse.mp hx)
  rw [List.rdropWhile, ← List.append_assoc, List.reverse_append, dropWhile_blanks hafter, hname, ← List.append_assoc,
    List.reverse_append, List.reverse_singleton, List.singleton_append, dropWhile_of_head hb, List.reverse_cons,
    List.reverse_reverse]

theorem trim_alias {o : Bytes} {a : Alias} (ha : a.Valid) : trim (o ++ a.text) =
    if o.dropWhile isBlank = [] then a.as.drop 1 ++ (a.gap ++ a.name)
    else o.dropWhile isBlank ++ (a.as ++ (a.gap ++ a.name)) := by
  obtain ⟨b₀, b₁, b₂, b₃, has, h₀, h₁, -, -⟩ := exists_of_isAs ha.as
  have hdrop : (o ++ a.text).dropWhile isBlank =
      (if o.dropWhile isBlank = [] then a.as.drop 1 else o.dropWhile isBlank ++ a.as) ++
        a.gap ++ (a.name ++ a.after) := by
    rw [List.dropWhile_append]
    by_cases ho : o.dropWhile isBlank = []
    · rw [if_pos (List.isEmpty_iff.mpr ho), if_pos ho, Alias.text, has]
      change (b₀ :: b₁ :: b₂ :: b₃ :: (a.gap ++ (a.name ++ a.after))).dropWhile isBlank = _
      rw [List.dropWhile_cons_of_pos h₀, dropWhile_of_head h₁]
      simp
    · rw [if_neg (mt List.isEmpty_iff.mp ho), if_neg ho, Alias.text]
      simp
  rw [trim, hdrop, ha.rdropWhile]
  split <;> simp

theorem trim_eq_nil_iff {s : Bytes} : trim s = [] ↔ s.dropWhile isBlank = [] := by
  unfold trim
  rw [List.rdropWhile_eq_nil_iff]
  constructor
  · intro h
    cases hs : s.dropWhile isBlank with
    | nil => rfl
    | cons b t =>
      have hne : s.dropWhile isBlank ≠ [] := by
        rw [hs]
        exact List.cons_ne_nil b t
      have hhead := List.head_dropWhile_not isBlank hne
      rw [h _ (List.head_mem hne)] at hhead
      cases hhead
  · intro h
    rw [h]
    exact nofun

/-- The entry of an item without an alias is its text, unless that has an ` as ` in it. -/
theorem entry_plain {s : Bytes} :
    ((afterAs s).map fun rest => rest.dropWhile isBlank).getD s = s ↔ afterAs s = none := by
  cases hs : afterAs s with
  | none => exact iff_of_true rfl rfl
  | some r =>
    refine iff_of_false (fun h => ?_) nofun
    have hlen := afterAs_length hs
    have hdrop := (List.dropWhile_sublist isBlank (l := r)).length_le
    rw [Option.map_some, Option.getD_some] at h
    rw [h] at hdrop
    omega

/-- When nothing is in front of the alias, its ` as ` is not found. -/
theorem entry_bare {a : Alias} (ha : a.Valid) : ((afterAs (a.as.drop 1 ++ (a.gap ++ a.name))).map fun rest =>
    rest.dropWhile isBlank).getD (a.as.drop 1 ++ (a.gap ++ a.name)) ≠ a.name := by
  obtain ⟨b₀, b₁, b₂, b₃, has, -, h₁, h₂, h₃⟩ := exists_of_isAs ha.as
  rw [has]
  change ((afterAs ([b₁, b₂, b₃] ++ (a.gap ++ a.name))).map _).getD ([b₁, b₂, b₃] ++ (a.gap ++ a.name)) ≠ a.name
  cases hr : afterAs ([b₁, b₂, b₃] ++ (a.gap ++ a.name)) with
  | none =>
    intro h
    have hlen := congrArg List.length h
    simp only [Option.map_none, Option.getD_none, List.length_append, List.length_cons] at hlen
    omega
  | some r =>
    intro h
    rw [Option.map_some, Option.getD_some] at h
    obtain ⟨before, m, hs, hm⟩ := afterAs_eq_some hr
    obtain ⟨m₀, m₁, m₂, m₃, rfl, hm₀, hm₁, -, -⟩ := exists_of_isAs hm
    have hsplit : r = r.takeWhile isBlank ++ a.name := by rw [← h, List.takeWhile_append_dropWhile]
    rw [hsplit, ← List.append_assoc, ← List.append_assoc, ← List.append_assoc] at hs
    have hblanks := List.append_cancel_right hs
    -- after a blank there are only blanks
    have hpairs : ([b₁, b₂, b₃] ++ a.gap).Pairwise fun x y => isBlank x = true → isBlank y = true := by
      have hrest : ∀ y ∈ b₃ :: a.gap, isBlank y = true := List.forall_mem_cons.mpr ⟨h₃, ha.gap⟩
      refine List.Pairwise.cons ?_
        (List.Pairwise.cons ?_ (List.pairwise_of_forall_mem_list fun x _ y hy _ => hrest y hy))
      · intro y _ hblank
        rw [h₁] at hblank
        cases hblank
      · intro y _ hblank
        rw [h₂] at hblank
        cases hblank
    rw [hblanks] at hpairs
    have hsub : [m₀, m₁].Sublist (before ++ [m₀, m₁, m₂, m₃] ++ r.takeWhile isBlank) := by
      rw [List.append_assoc]
      exact ((List.Sublist.append_left (List.nil_sublist [m₂, m₃]) [m₀, m₁]).trans
        (List.sublist_append_left _ _)).trans (List.sublist_append_right _ _)
    have hpair := List.rel_of_pairwise_cons (hpairs.sublist hsub) List.mem_cons_self hm₀
    rw [hm₁] at hpair
    cases hpair

/-- With text in front of it the alias is found if and only if no ` as ` starts before its own. -/
theorem entry_renamed {o : Bytes} {a : Alias} (ha : a.Valid) :
    ((afterAs (o ++ (a.as ++ (a.gap ++ a.name)))).map fun rest => rest.dropWhile isBlank).getD
      (o ++ (a.as ++ (a.gap ++ a.name))) = a.name ↔ afterAs (o ++ a.as.take 3) = none := by
  cases hr : afterAs (o ++ a.as.take 3) with
  | none =>
    refine iff_of_true ?_ rfl
    rw [afterAs_append ha.as hr, Option.map_some, Option.getD_some, dropWhile_blanks ha.gap, ha.dropWhile_name]
  | some r =>
    refine iff_of_false ?_ nofun
    rw [afterAs_append_some ha.as hr, Option.map_some, Option.getD_some]
    obtain ⟨b₀, b₁, b₂, b₃, has, -, -, h₂, -⟩ := exists_of_isAs ha.as
    obtain ⟨before, m, hs, hm⟩ := afterAs_eq_some hr
    obtain ⟨m₀, m₁, m₂, m₃, rfl, -, -, -, hm₃⟩ := exists_of_isAs hm
    -- the text ends with a letter, so something is left of it, and not only blanks
    have hmem : b₂ ∈ r := by
      have hlast := congrArg List.getLast? hs
      rw [has] at hlast
      change (o ++ [b₀, b₁, b₂]).getLast? = _ at hlast
      rcases List.eq_nil_or_concat r with rfl | ⟨t, b, rfl⟩
      · simp only [List.append_nil, List.getLast?_append, List.getLast?_cons_cons, List.getLast?_singleton,
          Option.some_or, Option.some.injEq] at hlast
        rw [hlast, hm₃] at h₂
        cases h₂
      · simp only [List.getLast?_append, List.getLast?_cons_cons, List.getLast?_singleton, List.concat_eq_append,
          Option.some_or, Option.some.injEq] at hlast
        rw [hlast]
        simp
    have hne : r.dropWhile isBlank ≠ [] := by
      rw [ne_eq, List.dropWhile_eq_nil_iff]
      intro hall
      rw [hall b₂ hmem] at h₂
      cases h₂
    intro h
    rw [List.dropWhile_append, if_neg (mt List.isEmpty_iff.mp hne), has] at h
    have hlen := congrArg List.length h
    have hpos := List.length_pos_iff.mpr hne
    simp only [List.length_append, List.drop_succ_cons, List.drop_zero, List.length_cons, List.length_nil] at hlen
    omega

theorem columnName_iff {item : Item} (h : item.Valid) (hlen : (item.outside ++ item.aliasText).length < lenSt) :
    columnName (item.outside ++ item.aliasText) = some item.entry ↔ item.Apart := by
  have htake : (item.outside ++ item.aliasText).take (lenSt - 1) = item.outside ++ item.aliasText :=
    List.take_of_length_le (by omega)
  unfold columnName Item.Apart Item.entry
  dsimp only
  rw [htake]
  unfold Item.aliasText
  cases halias : item.renamed with
  | none =>
    simp only [Option.map_none, Option.getD_none, List.append_nil]
    rw [ne_eq, ← trim_eq_nil_iff]
    by_cases hnil : trim item.outside = []
    · rw [if_pos hnil]
      exact iff_of_false nofun fun hapart => hapart.1 hnil
    · rw [if_neg hnil, Option.some.injEq, entry_plain]
      exact (and_iff_right hnil).symm
  | some a =>
    have ha := h.renamed a halias
    obtain ⟨b₀, b₁, b₂, b₃, has, -⟩ := exists_of_isAs ha.as
    simp only [Option.map_some, Option.getD_some]
    rw [trim_alias ha]
    by_cases hnil : item.outside.dropWhile isBlank = []
    · rw [if_pos hnil, if_neg (by rw [has]; exact List.cons_ne_nil _ _), Option.some.injEq]
      exact iff_of_false (entry_bare ha) fun hapart => hapart.1 hnil
    · rw [if_neg hnil, if_neg (List.append_ne_nil_of_left_ne_nil hnil _), Option.some.injEq, entry_renamed ha]
      exact (and_iff_right hnil).symm

theorem columnNames_eq_some_iff {ps names : List Bytes} :
    columnNames ps = some names ↔ List.Forall₂ (fun p name => columnName p = some name) ps names := by
  induction ps generalizing names with
  | nil =>
    rw [columnNames, List.forall₂_nil_left_iff, Option.some.injEq, eq_comm]
  | cons p ps ih =>
    constructor
    · intro h
      obtain ⟨name, hname, h⟩ := Option.bind_eq_some_iff.mp h
      obtain ⟨rest, hrest, rfl⟩ := Option.map_eq_some_iff.mp h
      exact .cons hname (ih.mp hrest)
    · rintro (_ | ⟨hname, hrest⟩)
      rw [columnNames, hname, Option.bind_some, ih.mpr hrest]
      rfl

/-- The tokens are what is outside the parentheses of each item, where that is not nothing. -/
theorem strtok_listText {items : List Item} (h : ∀ item ∈ items, item.Valid) :
    strtok 44 (withoutParens 0 (listText items)) =
      (items.map fun item => item.outside ++ item.aliasText).filter (· ≠ []) := by
  rw [withoutParens_listText h, strtok]
  cases items with
  | nil => rfl
  | cons item items =>
    rw [List.splitOn_intercalate]
    · intro l hl
      obtain ⟨item, hitem, rfl⟩ := List.mem_map.mp hl
      intro hcomma
      rcases List.mem_append.mp hcomma with hcomma | hcomma
      · obtain ⟨part, hpart, hcomma⟩ := List.mem_flatMap.mp hcomma
        cases part with
        | byte b =>
          obtain rfl := List.mem_singleton.mp hcomma
          exact ((h item hitem).byte 44 hpart).2.2 rfl
        | parens inner => cases hcomma
      · exact ((h item hitem).plain_aliasText 44 hcomma).2.2 rfl
    · exact List.cons_ne_nil _ _

/-- The buffer for the whole list is large enough when those for the items are. -/
theorem length_intercalate_le {tokens : List Bytes} (h : ∀ p ∈ tokens, p.length < lenSt) :
    ([44].intercalate tokens).length ≤ lenSt * tokens.length := by
  induction tokens with
  | nil => rfl
  | cons p tokens ih =>
    rw [List.forall_mem_cons] at h
    have hrest := ih h.2
    cases tokens with
    | nil =>
      rw [List.intercalate_singleton, List.length_singleton]
      omega
    | cons q tokens =>
      have hp := h.1
      unfold lenSt at hp hrest ⊢
      rw [List.intercalate_cons_cons, List.length_append, List.length_append, List.length_singleton,
        List.length_cons (a := p)]
      omega

/-- **Column names are extracted correctly** if and only if every item has text outside its parentheses, and that has no
` as ` but the one before the alias. -/
theorem mdbSetQrarray_iff (items : List Item) (hvalid : ∀ item ∈ items, item.Valid) (hfits : Fits items) :
    mdbSetQrarray (listText items) = some (items.map Item.entry) ↔ ∀ item ∈ items, item.Apart := by
  have hsrc : ¬ lenMl ≤ (withoutParens 0 (listText items)).length := by
    have hlen := @length_intercalate_le (items.map fun item => item.outside ++ item.aliasText) fun p hp => by
      obtain ⟨item, hitem, rfl⟩ := List.mem_map.mp hp
      exact hfits.tokens item hitem
    have hcount := hfits.count
    rw [withoutParens_listText hvalid]
    rw [List.length_map] at hlen
    unfold lenSt at hlen
    unfold qrNumMax at hcount
    unfold lenMl
    omega
  unfold mdbSetQrarray
  dsimp only
  rw [if_neg hsrc, strtok_listText hvalid, Option.filter_eq_some_iff, columnNames_eq_some_iff]
  constructor
  · rintro ⟨hnames, -⟩ item hitem
    -- as many entries as items: no token is missing
    have hall : ∀ p ∈ items.map fun item => item.outside ++ item.aliasText, decide (p ≠ []) = true := by
      have hcount : (items.map fun item => item.outside ++ item.aliasText).length = items.length := List.length_map _
      have hlen := hnames.length_eq
      rw [List.length_map, ← hcount] at hlen
      exact List.length_filter_eq_length_iff.mp hlen
    rw [List.filter_eq_self.mpr hall, List.forall₂_map_left_iff, List.forall₂_map_right_iff,
      List.forall₂_same] at hnames
    exact (columnName_iff (hvalid item hitem) (hfits.tokens item hitem)).mp (hnames item hitem)
  · intro hapart
    have hall : ∀ p ∈ items.map fun item => item.outside ++ item.aliasText, decide (p ≠ []) = true := by
      intro p hp
      obtain ⟨item, hitem, rfl⟩ := List.mem_map.mp hp
      refine decide_eq_true fun hnil => (hapart item hitem).1 ?_
      rw [(List.append_eq_nil_iff.mp hnil).1]
      rfl
    rw [List.filter_eq_self.mpr hall, List.forall₂_map_left_iff, List.forall₂_map_right_iff, List.forall₂_same]
    refine ⟨fun item hitem => ?_, ?_⟩
    · exact (columnName_iff (hvalid item hitem) (hfits.tokens item hitem)).mpr (hapart item hitem)
    · rw [List.length_map]
      exact decide_eq_true hfits.count

/-- Without blanks outside the parentheses there is no ` as `. -/
theorem noAs_of_dense {body : List Part} (h : ∀ b, .byte b ∈ body → isBlank b = false) (s : Bytes)
    (hs : isAs s = true) :
    ¬ s.map Part.byte <:+: body := by
  obtain ⟨b₀, b₁, b₂, b₃, rfl, hblank, -⟩ := exists_of_isAs hs
  intro hinfix
  have hmem := hinfix.subset (List.mem_cons_self : Part.byte b₀ ∈ _)
  rw [h b₀ hmem] at hblank
  cases hblank

/-- ` as ` and one letter. -/
def short (b : UInt8) : Alias := ⟨[32, 97, 115, 32], [], [b], []⟩

theorem valid_short {b : UInt8} (hb : b ≠ 40 ∧ b ≠ 41 ∧ b ≠ 44) (hblank : isBlank b = false) : (short b).Valid where
  as := rfl
  gap := List.forall_mem_nil _
  after := List.forall_mem_nil _
  head := ⟨b, [], rfl, hblank⟩
  last := ⟨[], b, rfl, hblank⟩
  plain := List.forall_mem_singleton.mpr hb

def idItem : Item := ⟨[.byte 105, .byte 100], none⟩

/-- `n(*) as c` -/
def countItem : Item := ⟨[.byte 110, .parens [42]], some (short 99)⟩

theorem valid_idItem : idItem.Valid where
  byte := by
    intro b hb
    rcases List.mem_pair.mp hb with h | h <;> (cases h; decide)
  parens := by
    intro inner h
    rcases List.mem_pair.mp h with h | h <;> cases h
  notBlank := .inr ⟨105, List.mem_cons_self, rfl⟩
  noAs := noAs_of_dense fun b hb => by rcases List.mem_pair.mp hb with h | h <;> (cases h; rfl)
  renamed := nofun

theorem valid_countItem : countItem.Valid where
  byte := by
    intro b hb
    rcases List.mem_pair.mp hb with h | h <;> cases h
    decide
  parens := by
    intro inner h
    rcases List.mem_pair.mp h with h | h <;> cases h
    exact .byte (by decide) .nil
  notBlank := .inr ⟨110, List.mem_cons_self, rfl⟩
  noAs := noAs_of_dense fun b hb => by rcases List.mem_pair.mp hb with h | h <;> cases h; rfl
  renamed := by
    rintro a ⟨⟩
    exact valid_short (by decide) rfl

/-- `id,n(*) as c` has the names `id` and `c`. -/
theorem mdbSetQrarray_count : mdbSetQrarray (listText [idItem, countItem]) = some [[105, 100], [99]] :=
  (mdbSetQrarray_iff [idItem, countItem] (by simp [valid_idItem, valid_countItem])
    ⟨by decide, by decide⟩).mpr (by
      rintro item hitem
      rcases List.mem_pair.mp hitem with rfl | rfl <;> exact ⟨by decide, by decide⟩)

/-- `(a) as x` -/
def sumItem : Item := ⟨[.parens [97]], some (short 120)⟩

theorem valid_sumItem : sumItem.Valid where
  byte := by
    intro b hb
    cases List.mem_singleton.mp hb
  parens := by
    intro inner h
    cases List.mem_singleton.mp h
    exact .byte (by decide) .nil
  notBlank := .inl ⟨[97], List.mem_cons_self⟩
  noAs := noAs_of_dense fun b hb => by cases List.mem_singleton.mp hb
  renamed := by
    rintro a ⟨⟩
    exact valid_short (by decide) rfl

/-- Of `(a) as x` the name is `as x`, and `id,(a)` has one name only. -/
theorem mdbSetQrarray_parens : (sumItem.Valid ∧ Fits [sumItem] ∧ [sumItem].map Item.entry = [[120]] ∧
      mdbSetQrarray (listText [sumItem]) = some [[97, 115, 32, 120]]) ∧
    mdbSetQrarray [105, 100, 44, 40, 97, 41] = some [[105, 100]] :=
  ⟨⟨valid_sumItem, ⟨by decide, by decide⟩, rfl, by decide⟩, by decide⟩

end Cmoon.ColumnNames
