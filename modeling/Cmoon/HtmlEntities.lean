import Cmoon.TextReplacement
import Cmoon.Datasets

/-! # Entities of HTML

`mstr_html_unescape` replaces the three entities one after the other, the one of `&` first. So what it makes of
`&amp;lt;` is taken for an entity again. -/
namespace Cmoon.HtmlEntities
open DecimalText Datasets LeftmostReplacement TextReplacement

def ampName : Bytes := [97, 109, 112, 59]

def gtName : Bytes := [103, 116, 59]

def ltName : Bytes := [108, 116, 59]

/-- The entities with what they stand for, as `mstr_html_unescape` has them. -/
def entities : List (Bytes × Bytes) := [(38 :: ampName, [38]), (38 :: gtName, [62]), (38 :: ltName, [60])]

section Nodes
-- `neos_html_escape`, and what `string_set` makes of `NULL`
variable (escape : Bytes → Bytes) (crash : Bool) (name : String)

def escapeNode (node : Dataset) : Dataset :=
  match hdfGetValue node name with
  | some s => hdfSetValue node name (some (escape s))
  | none => node

def mstrHtmlEscape (nodes : List Dataset) : List Dataset := nodes.map (escapeNode escape name)

def unescapeNode (node : Dataset) : Option Dataset :=
  match nonempty node name with
  | some s => (mstrRepstr crash (some s) entities).map fun os => os.elim node fun os => hdfSetValue node name (some os)
  | none => some node

def mstrHtmlUnescape (nodes : List Dataset) : Option (List Dataset) := nodes.mapM (unescapeNode crash name)

def Undone (nodes : List Dataset) : Prop :=
  ∃ nodes', mstrHtmlUnescape crash name (mstrHtmlEscape escape name nodes) = some nodes' ∧
    nodes'.map (hdfGetValue · name) = nodes.map (hdfGetValue · name)

end Nodes

/-- What `neos_html_escape` writes for a byte that is neither a quote nor a carriage return. -/
def entityOf (b : UInt8) : Bytes :=
  if b = 38 then 38 :: ampName else if b = 60 then 38 :: ltName else if b = 62 then 38 :: gtName else [b]

/-- A text without quotes and carriage returns. -/
def Plain (s : Bytes) : Prop := 34 ∉ s ∧ 39 ∉ s ∧ 13 ∉ s

/-- A text in which nothing looks like one of the entities that are replaced behind the one of `&`. -/
def NoEntity (s : Bytes) : Prop := ¬ 38 :: gtName <:+: s ∧ ¬ 38 :: ltName <:+: s

theorem flatMap_entityOf (s : Bytes) :
    s.flatMap entityOf = encode 60 (38 :: ltName) (encode 62 (38 :: gtName) (encode 38 (38 :: ampName) s)) := by
  induction s with
  | nil => rfl
  | cons b s ih =>
    rw [List.flatMap_cons, ih]
    unfold entityOf
    split
    · rename_i h
      have hgt : (62 : UInt8) ∉ 38 :: ampName := by decide
      have hlt : (60 : UInt8) ∉ 38 :: ampName := by decide
      rw [h, encode_self, encode_append, encode_of_notMem hgt, encode_append, encode_of_notMem hlt]
    · rename_i hamp
      split
      · rename_i h
        rw [h, encode_cons (by decide), encode_cons (by decide), encode_self]
      · rename_i hlt
        split
        · rename_i h
          have hnot : (60 : UInt8) ∉ 38 :: gtName := by decide
          rw [h, encode_cons (by decide), encode_self, encode_append, encode_of_notMem hnot]
        · rename_i hgt
          rw [encode_cons hamp, encode_cons hgt, encode_cons hlt, List.singleton_append]

/-- An entity is passed over when another one is looked for. -/
theorem replaceAll_other {name name' to' : Bytes} (hother : ∀ rest, ¬ name <+: name' ++ rest) (h38 : 38 ∉ name')
    (rest : Bytes) : replaceAll (38 :: name) to' (38 :: name' ++ rest) = 38 :: name' ++ replaceAll (38 :: name) to' rest :=
  replaceAll_append_other hother h38 rest

theorem amp_lt (rest : Bytes) : ¬ ampName <+: ltName ++ rest := by simp [ampName, ltName]

theorem amp_gt (rest : Bytes) : ¬ ampName <+: gtName ++ rest := by simp [ampName, gtName]

theorem gt_lt (rest : Bytes) : ¬ gtName <+: ltName ++ rest := by simp [gtName, ltName]

/-- Undone from outside in, the coded text is taken for the text itself. -/
theorem replaceEach_entities (s : Bytes) :
    replaceEach entities (s.flatMap entityOf) = replaceAll (38 :: ltName) [60] (replaceAll (38 :: gtName) [62] s) := by
  have hamp : replaceAll (38 :: ampName) [38] (s.flatMap entityOf) = encode 60 (38 :: ltName) (encode 62 (38 :: gtName) s) := by
    rw [flatMap_entityOf, replaceAll_encode (by decide) (by decide) (replaceAll_other amp_lt (by decide)) (by decide),
      replaceAll_encode (by decide) (by decide) (replaceAll_other amp_gt (by decide)) (by decide), replaceAll_encode_head]
  have hgt : replaceAll (38 :: gtName) [62] (encode 60 (38 :: ltName) (encode 62 (38 :: gtName) s)) =
      encode 60 (38 :: ltName) (replaceAll (38 :: gtName) [62] s) := by
    rw [replaceAll_encode (by decide) (by decide) (replaceAll_other gt_lt (by decide)) (by decide),
      replaceAll_encode (by decide) (by decide) (replaceAll_append_pat (List.cons_ne_nil _ _)) (by decide), encode_singleton]
  have hlt : ∀ u, replaceAll (38 :: ltName) [60] (encode 60 (38 :: ltName) u) = replaceAll (38 :: ltName) [60] u := by
    intro u
    rw [replaceAll_encode (by decide) (by decide) (replaceAll_append_pat (List.cons_ne_nil _ _)) (by decide),
      encode_singleton]
  rw [entities, replaceEach_cons, replaceEach_cons, replaceEach_cons, hamp, hgt, hlt]
  rfl

theorem replaceEach_entities_eq_iff (s : Bytes) : replaceEach entities (s.flatMap entityOf) = s ↔ NoEntity s := by
  rw [replaceEach_entities]
  constructor
  · intro h
    have hgt : ¬ 38 :: gtName <:+: s := by
      intro hin
      have hlt : (replaceAll (38 :: gtName) [62] s).length < s.length := length_replaceAll_lt (by decide) hin
      have hle : (replaceAll (38 :: ltName) [60] (replaceAll (38 :: gtName) [62] s)).length ≤ _ :=
        length_replaceAll_le (by decide) (by decide) _
      rw [h] at hle
      omega
    rw [replaceAll_absent hgt, replaceAll_eq_self_iff (by decide)] at h
    exact ⟨hgt, h⟩
  · rintro ⟨hgt, hlt⟩
    rw [replaceAll_absent hgt, replaceAll_absent hlt]

theorem flatMap_entityOf_ne_nil {s : Bytes} (hs : s ≠ []) : s.flatMap entityOf ≠ [] := by
  cases s with
  | nil => exact absurd rfl hs
  | cons b s =>
    rw [List.flatMap_cons, entityOf]
    split_ifs <;> simp

theorem mstrRepstr_entities (crash : Bool) {s : Bytes} (hs : s ≠ []) :
    mstrRepstr crash (some (s.flatMap entityOf)) entities = some (some (replaceEach entities (s.flatMap entityOf))) := by
  have hne : entities ≠ [] := List.cons_ne_nil _ _
  rw [mstrRepstr, if_neg hne]
  apply rounds_eq crash hne (by decide)
  intro k _
  have hrep : ∀ p ∈ entities.take k, p.2 ≠ [] := fun p hp => by
    have hall : ∀ p ∈ entities, p.2 ≠ [] := by decide
    exact hall p (List.mem_of_mem_take hp)
  exact replaceEach_ne_nil hrep (flatMap_entityOf_ne_nil hs)

section Undoing
variable {escape : Bytes → Bytes} {crash : Bool} {name : String} {node : Dataset} {nodes : List Dataset}

theorem unescapeNode_escapeNode (crash : Bool) (hescape : ∀ s, Plain s → escape s = s.flatMap entityOf)
    (hplain : ∀ s, hdfGetValue node name = some s → Plain s) :
    ∃ node', unescapeNode crash name (escapeNode escape name node) = some node' ∧
      hdfGetValue node' name = (hdfGetValue node name).map fun s => replaceEach entities (s.flatMap entityOf) := by
  unfold escapeNode
  cases hs : hdfGetValue node name with
  | none =>
    have hnone : nonempty node name = none := by rw [nonempty, hs, Option.filter_none]
    refine ⟨node, ?_, hs⟩
    rw [unescapeNode, hnone]
  | some s =>
    dsimp only
    rw [hescape s (hplain s hs), unescapeNode, nonempty_set, if_pos rfl, Option.filter_some]
    by_cases hnil : s = []
    · subst hnil
      exact ⟨_, rfl, by simp [hdfGetValue_set, replaceEach, entities]⟩
    · rw [if_pos (decide_eq_true (flatMap_entityOf_ne_nil hnil))]
      dsimp only
      rw [mstrRepstr_entities crash hnil, Option.map_some, Option.map_some]
      exact ⟨_, rfl, by rw [Option.elim_some, hdfGetValue_set, if_pos rfl]⟩

theorem mstrHtmlUnescape_escape (crash : Bool) (hescape : ∀ s, Plain s → escape s = s.flatMap entityOf)
    (hplain : ∀ node ∈ nodes, ∀ s, hdfGetValue node name = some s → Plain s) :
    ∃ nodes', mstrHtmlUnescape crash name (mstrHtmlEscape escape name nodes) = some nodes' ∧
      nodes'.map (hdfGetValue · name) = nodes.map fun node =>
        (hdfGetValue node name).map fun s => replaceEach entities (s.flatMap entityOf) := by
  induction nodes with
  | nil => exact ⟨[], rfl, rfl⟩
  | cons node nodes ih =>
    rw [List.forall_mem_cons] at hplain
    obtain ⟨node', hnode, hvalue⟩ := unescapeNode_escapeNode crash hescape hplain.1
    obtain ⟨nodes', hnodes, hvalues⟩ := ih hplain.2
    refine ⟨node' :: nodes', ?_, by rw [List.map_cons, List.map_cons, hvalue, hvalues]⟩
    rw [mstrHtmlUnescape, mstrHtmlEscape] at hnodes ⊢
    rw [List.map_cons, List.mapM_cons, hnode, hnodes]
    rfl

/-- **Unescaping undoes escaping** exactly when no value has `&gt;` or `&lt;` in it. -/
theorem undone_iff (crash : Bool) (hescape : ∀ s, Plain s → escape s = s.flatMap entityOf)
    (hplain : ∀ node ∈ nodes, ∀ s, hdfGetValue node name = some s → Plain s) :
    Undone escape crash name nodes ↔ ∀ node ∈ nodes, ∀ s, hdfGetValue node name = some s → NoEntity s := by
  obtain ⟨nodes', hnodes, hvalues⟩ := mstrHtmlUnescape_escape crash hescape hplain
  unfold Undone
  simp only [hnodes, Option.some.injEq, exists_eq_left', hvalues]
  rw [List.map_inj_left]
  apply forall₂_congr
  intro node _
  cases hdfGetValue node name with
  | none => simp
  | some s => simp [replaceEach_entities_eq_iff]

end Undoing

/-- `a<b` -/
theorem undone_less : Undone (fun s => s.flatMap entityOf) true "content" [[("content", some [97, 60, 98])]] := by
  refine (undone_iff true (fun _ _ => rfl) ?_).mpr ?_
  · simp only [List.forall_mem_singleton]
    rintro s ⟨⟩
    unfold Plain
    decide
  · simp only [List.forall_mem_singleton]
    rintro s ⟨⟩
    unfold NoEntity
    decide

/-- `&lt;` comes back as `<`. -/
theorem not_undone_entity :
    ¬ Undone (fun s => s.flatMap entityOf) true "content" [[("content", some [38, 108, 116, 59])]] := by
  rintro ⟨nodes', hnodes, hvalues⟩
  have hless : (mstrHtmlUnescape true "content" (mstrHtmlEscape (fun s => s.flatMap entityOf) "content"
      [[("content", some [38, 108, 116, 59])]])).map (fun nodes => nodes.map (hdfGetValue · "content")) =
      some [some [60]] := by decide
  rw [hnodes, Option.map_some, hvalues] at hless
  exact absurd hless (by decide)

end Cmoon.HtmlEntities
