import Cmoon.MemoryReads
import Cmoon.ConversationKeys

/-! # Pages of comments

`CMT_GET` shows a page of the comments on each of the objects that a request lists. The pages are cached together
under the list and the place where they begin, without the number of comments on a page. -/
namespace Cmoon.CommentPages
open DecimalText Datasets StatementBuilding MemberTables MemberPlugin LapsingCaches GuardedRuns CacheKeys
open ConversationKeys (Page mdbPagediv)
open MemoryReads (AuxErr)

abbrev Obj := ℤ × ℤ

/-- The loop over `ids`: a colon ends the type, a comma the number, and so does the end. `seg` is what stands before,
from `ids` on. An object without a type has the one before it, unless that was used. -/
def scan (type : ℤ) (seg : Bytes) : Bytes → List Obj
  | [] => if 0 ≤ type ∧ 0 ≤ atoi seg then [(type, atoi seg)] else []
  | b :: r =>
    if b = 58 then scan (atoi seg) [] r
    else if b = 44 then
      if 0 ≤ type ∧ 0 ≤ atoi seg then (type, atoi seg) :: scan (-1) [] r else scan type [] r
    else scan type (seg ++ [b]) r

def objects (ids : Bytes) : List Obj := scan (-1) [] ids

theorem scan_digits {type : ℤ} {seg s : Bytes} (hs : ∀ b ∈ s, isDigit b = true) (r : Bytes) :
    scan type seg (s ++ r) = scan type (seg ++ s) r := by
  induction s generalizing seg with
  | nil => rw [List.append_nil, List.nil_append]
  | cons b s ih =>
    have hb : isDigit b = true := hs b List.mem_cons_self
    have hcolon : b ≠ 58 := isDigit_ne hb rfl
    have hcomma : b ≠ 44 := isDigit_ne hb rfl
    rw [List.cons_append, scan, if_neg hcolon, if_neg hcomma, ih fun b hb => hs b (List.mem_cons_of_mem _ hb),
      List.append_assoc, List.singleton_append]

def colCmt : List String :=
  ["id", "type", "oid", "pid", "ip", "addr", "author", "content", "intime", "uptime"]

def cmtStNormal : ℤ := 0

structure Asked where
  ids : Bytes
  page : Page

def Asked.text (a : Asked) : Bytes :=
  [67, 111, 109, 109, 101, 110, 116] ++ a.ids ++ 95 :: printInt a.page.offset

/-- The reply; below each object are the comments, and how many there are of them. -/
structure Cmts where
  page : Page
  ntt : Obj → Option ℤ
  cmts : Obj → List Dataset

abbrev CmtReply := Except AuxErr Cmts

/-- What a request meets: the cache entries that are gone by then, whether the server answers, and counts, what stands
in the variable for the count, whether there is memory, and the stack behind the buffers of the keys. -/
structure Surroundings where
  gone : Bytes → Bool
  queries : Bool
  counts : Bool
  zinta : ℤ
  calloc : Bool
  getStack : ℕ → UInt8
  setStack : ℕ → UInt8

structure CmtRequested where
  hdfrcv : Dataset
  met : Surroundings

section Commands
-- `neos_html_escape`, what `unpack_hdf` makes of a dataset that was packed, and the comments from the newest on
variable (escape : Bytes → Bytes) (kept : Cmts → Cmts) (comment : List Row)

/-- `mstr_html_escape` of the content of a comment -/
def htmlEscape (d : Dataset) : Dataset :=
  match hdfGetValue d "content" with
  | some s => hdfSetValue d "content" (some (escape s))
  | none => d

/-- `type=%d AND statu=%d AND oid=%d ORDER BY intime DESC` -/
def ofObj (obj : Obj) : List Row :=
  comment.filter fun row => row "type" = .int obj.1 ∧ row "statu" = .int cmtStNormal ∧ row "oid" = .int obj.2

/-- `LIMIT %d OFFSET %d` -/
def pageOf (page : Page) (obj : Obj) : List Row := ((ofObj comment obj).drop page.offset.toNat).take page.count.toNat

def shownOf (page : Page) (obj : Obj) : List Dataset :=
  (pageOf comment page obj).map fun row => htmlEscape escape (mdbSetRow [] row colCmt)

/-- The comments come behind those that the reply has of the object already; all of them are escaped. -/
def addPage (met : Surroundings) (r : Cmts) (obj : Obj) : CmtReply :=
  if met.queries && 0 ≤ r.page.count && 0 ≤ r.page.offset then
    .ok { r with
      ntt := Function.update r.ntt obj (some (if met.counts then (ofObj comment obj).length else met.zinta))
      cmts := Function.update r.cmts obj
        ((r.cmts obj ++ (pageOf comment r.page obj).map fun row => mdbSetRow [] row colCmt).map (htmlEscape escape)) }
  else .error (.rep .db)

def addPages (met : Surroundings) : Cmts → List Obj → CmtReply
  | r, [] => .ok r
  | r, obj :: objs =>
    match addPage escape comment met r obj with
    | .ok r => addPages met r objs
    | .error err => .error err

/-- The pages from the table, and the memory that `CACHE_HDF` asks for. -/
def selectCmts (met : Surroundings) (a : Asked) : CmtReply :=
  match addPages escape comment met ⟨a.page, fun _ => none, fun _ => []⟩ (objects a.ids) with
  | .ok r => if met.calloc then .ok r else .error .mem
  | .error err => .error err

def CmtRequested.asked (q : CmtRequested) : Except AuxErr Asked :=
  match nonempty q.hdfrcv "ids" with
  | some ids => .ok ⟨ids, mdbPagediv q.hdfrcv⟩
  | none => .error (.rep (.badparam "ids"))

def auxCmdCmtget (cd : Store Bytes Cmts) (q : CmtRequested) : CmtReply × Store Bytes Cmts :=
  match q.asked with
  | .error err => (.error err, cd)
  | .ok a =>
    readThrough kept cd (formattedKey q.met.getStack a.text) (formattedKey q.met.setStack a.text)
      (selectCmts escape comment q.met a)

def served (cd : Store Bytes Cmts) (q : CmtRequested) : CmtReply × Store Bytes Cmts :=
  auxCmdCmtget escape kept comment (lapse cd q.met.gone) q

def step (cd : Store Bytes Cmts) (q : CmtRequested) : Store Bytes Cmts := (served escape kept comment cd q).2

/-- A reply has the page of each object; a request fails for want of a server or of memory, or when its page is none. -/
def Answered (met : Surroundings) (a : Asked) : CmtReply → Prop
  | .ok r => ∀ obj ∈ objects a.ids, r.cmts obj = shownOf escape comment a.page obj
  | .error _ => met.queries = false ∨ met.calloc = false ∨ a.page.count < 0 ∨ a.page.offset < 0

def OwnPage (cd : Store Bytes Cmts) (q : CmtRequested) : Prop :=
  ∀ a, q.asked = .ok a → Answered escape comment q.met a (served escape kept comment cd q).1

/-- An object that is listed again has nothing on the page. -/
def Asked.Once (a : Asked) : Prop := ∀ obj, 1 < (objects a.ids).count obj → pageOf comment a.page obj = []

/-- Two requests which agree in what was cut from their keys, and in what is on the pages of the first. -/
def SamePages (a b : Asked) : Prop :=
  a.text.drop (maxCachekeyLen - 1) = b.text.drop (maxCachekeyLen - 1) ∧
    ∀ obj ∈ objects a.ids, pageOf comment a.page obj = pageOf comment b.page obj

/-- Any two requests whose keys look alike in the buffer ask for the same pages; none has comments of one object twice;
and the replies are cached as they are. -/
structure Harmless (qs : List CmtRequested) : Prop where
  same : ∀ q ∈ qs, ∀ q' ∈ qs, ∀ a b, q.asked = .ok a → q'.asked = .ok b →
    HeldAlike q.met.getStack q'.met.setStack a.text b.text → SamePages comment a b
  once : ∀ q ∈ qs, ∀ a, q.asked = .ok a → a.Once comment
  packable : ∀ q ∈ qs, ∀ a r, q.asked = .ok a → selectCmts escape comment q.met a = .ok r → kept r = r

end Commands

section Pages
variable {escape : Bytes → Bytes} {kept : Cmts → Cmts} {comment : List Row} {met : Surroundings} {r r' : Cmts}
  {obj : Obj} {objs : List Obj} {a b : Asked}

theorem addPage_ok (h : addPage escape comment met r obj = .ok r') :
    r'.page = r.page ∧ (∀ obj', obj' ≠ obj → r'.cmts obj' = r.cmts obj') ∧
      (r.cmts obj = [] → r'.cmts obj = shownOf escape comment r.page obj) := by
  unfold addPage at h
  split at h
  · cases h
    refine ⟨rfl, fun obj' hne => Function.update_of_ne hne _ _, ?_⟩
    intro hnil
    dsimp only
    rw [Function.update_self, hnil, List.nil_append, List.map_map]
    rfl
  · cases h

/-- The pages of objects that are listed once, or have nothing to show. -/
theorem addPages_ok (h : addPages escape comment met r objs = .ok r') :
    (∀ obj, obj ∉ objs → r'.cmts obj = r.cmts obj) ∧
      ∀ obj ∈ objs, r.cmts obj = [] → (1 < objs.count obj → pageOf comment r.page obj = []) →
        r'.cmts obj = shownOf escape comment r.page obj := by
  induction objs generalizing r with
  | nil =>
    cases h
    exact ⟨fun _ _ => rfl, nofun⟩
  | cons obj objs ih =>
    rw [addPages] at h
    cases hadd : addPage escape comment met r obj with
    | error err =>
      rw [hadd] at h
      cases h
    | ok r₁ =>
      rw [hadd] at h
      obtain ⟨hpage, hother, hown⟩ := addPage_ok hadd
      obtain ⟨hrest, hlisted⟩ := ih h
      rw [hpage] at hlisted
      constructor
      · intro obj' hnot
        rw [List.mem_cons, not_or] at hnot
        obtain ⟨hne, hnot⟩ := hnot
        rw [hrest obj' hnot, hother obj' hne]
      · intro obj' hmem hnil honce
        by_cases hne : obj' = obj
        · subst hne
          have hfirst := hown hnil
          by_cases hagain : obj' ∈ objs
          · -- listed again, so there is nothing to show
            have hnone : pageOf comment r.page obj' = [] := by
              apply honce
              rw [List.count_cons_self]
              exact Nat.succ_lt_succ (List.count_pos_iff.mpr hagain)
            apply hlisted obj' hagain
            · rw [hfirst, shownOf, hnone]
              rfl
            · exact fun _ => hnone
          · rw [hrest obj' hagain, hfirst]
        · have hin : obj' ∈ objs := (List.mem_cons.mp hmem).resolve_left hne
          apply hlisted obj' hin
          · rw [hother obj' hne, hnil]
          · intro hcount
            apply honce
            rw [List.count_cons_of_ne (Ne.symm hne)]
            exact hcount

theorem addPages_error {err : AuxErr} (h : addPages escape comment met r objs = .error err) :
    met.queries = false ∨ r.page.count < 0 ∨ r.page.offset < 0 := by
  induction objs generalizing r with
  | nil => cases h
  | cons obj objs ih =>
    rw [addPages] at h
    cases hadd : addPage escape comment met r obj with
    | ok r₁ =>
      rw [hadd] at h
      rw [← (addPage_ok hadd).1]
      exact ih h
    | error err' =>
      unfold addPage at hadd
      split at hadd
      · cases hadd
      · rename_i hno
        simp only [Bool.and_eq_true, decide_eq_true_eq, not_and_or, not_le, Bool.not_eq_true, or_assoc] at hno
        exact hno

theorem selectCmts_answered (honce : a.Once comment) :
    Answered escape comment met a (selectCmts escape comment met a) := by
  unfold selectCmts
  split
  · rename_i r hr
    split
    · intro obj hobj
      exact (addPages_ok hr).2 obj hobj rfl (honce obj)
    · rename_i hcalloc
      exact .inr (.inl (Bool.not_eq_true _ ▸ hcalloc))
  · rename_i err herr
    rcases addPages_error herr with h | h
    · exact .inl h
    · exact .inr (.inr h)

/-- The list and the offset can be read off a key that was not cut. -/
theorem text_inj (h : a.text = b.text) : a.ids = b.ids ∧ a.page.offset = b.page.offset := by
  obtain ⟨hids, hoffset⟩ :=
    (TextLists.append_cons_inj_last (notMem_printInt rfl (by decide) _) (notMem_printInt rfl (by decide) _)).mp h
  exact ⟨List.append_cancel_left hids, printInt_injective hoffset⟩

theorem ids_of_heldAlike {stack stack' : ℕ → UInt8} (hheld : HeldAlike stack stack' a.text b.text)
    (hcut : a.text.drop (maxCachekeyLen - 1) = b.text.drop (maxCachekeyLen - 1)) : a.ids = b.ids := by
  have htext : a.text = b.text := by
    rw [← List.take_append_drop (maxCachekeyLen - 1) a.text, hheld.2.1, hcut, List.take_append_drop]
  exact (text_inj htext).1

end Pages

section Run
variable {escape : Bytes → Bytes} {kept : Cmts → Cmts} {comment : List Row} {qs : List CmtRequested}
  {cd : Store Bytes Cmts} {q : CmtRequested}

/-- A cached reply has the pages of a request of the run that was cached under its key. -/
def Cached (escape : Bytes → Bytes) (comment : List Row) (qs : List CmtRequested) (key : Bytes) (r : Cmts) : Prop :=
  ∃ q ∈ qs, ∃ b, q.asked = .ok b ∧ key = formattedKey q.met.setStack b.text ∧
    ∀ obj ∈ objects b.ids, r.cmts obj = shownOf escape comment b.page obj

theorem step_spec (hqs : Harmless escape kept comment qs) (hcd : Backed (Cached escape comment qs) cd) (hq : q ∈ qs) :
    OwnPage escape kept comment cd q ∧ Backed (Cached escape comment qs) (step escape kept comment cd q) := by
  have hl := hcd.lapse q.met.gone
  unfold OwnPage step served auxCmdCmtget
  cases hasked : q.asked with
  | error err => exact ⟨nofun, hl⟩
  | ok a =>
    have honce := hqs.once q hq a hasked
    have hfetched : Answered escape comment q.met a (selectCmts escape comment q.met a) := selectCmts_answered honce
    constructor
    · rintro a' ⟨⟩
      dsimp only
      rw [readThrough_fst]
      split
      · rename_i r hr
        obtain ⟨q', hq', b, hb, hkey, hpages⟩ := hl _ r hr
        have hheld := formattedKey_eq_iff.mp hkey
        obtain ⟨hcut, hsame⟩ := hqs.same q hq q' hq' a b hasked hb hheld
        intro obj hobj
        have hids := ids_of_heldAlike hheld hcut
        rw [hpages obj (hids ▸ hobj), shownOf, shownOf, hsame obj hobj]
      · exact hfetched
    · apply hl.readThrough
      intro r hr
      rw [hqs.packable q hq a r hasked hr]
      rw [hr] at hfetched
      exact ⟨q, hq, a, hasked, rfl, hfetched⟩

/-- Every request of a run gets the page it asks for, if none that looks like it asks for another one, no list has an
object with comments twice, and replies are cached as they are. -/
theorem ownPage_of_harmless (escape : Bytes → Bytes) (kept : Cmts → Cmts) (comment : List Row) {qs : List CmtRequested}
    (hqs : Harmless escape kept comment qs) :
    Guarded (step escape kept comment) (OwnPage escape kept comment) (fun _ => none) qs :=
  Guarded.of_invariant (fun _ _ hq hcd => step_spec hqs hcd hq) backed_empty

end Run

/-- Nothing is gone, and the server answers. -/
def fair : Surroundings := ⟨fun _ => false, true, true, 0, true, fun _ => 0, fun _ => 0⟩

def memoryComment : Row := fun col =>
  if col = "oid" then .int 1 else if col ∈ ["id", "type", "statu", "pid"] then .int 0 else .text []

/-- A request for the first comments on the memories 1 and 2, `npp` of them. -/
def asks (npp : Bytes) : CmtRequested := ⟨[("ids", some [48, 58, 49, 44, 48, 58, 50]), ("_npp", some npp)], fair⟩

/-- The second request gets one comment and has asked for two. -/
theorem not_ownPage_twoSizes :
    ¬ Guarded (step id id [memoryComment, memoryComment]) (OwnPage id id [memoryComment, memoryComment])
      (fun _ => none) [asks [49], asks [50]] := by
  rintro ⟨-, h, -⟩
  have hpage := h ⟨[48, 58, 49, 44, 48, 58, 50], ⟨2, 0, 1⟩⟩ rfl
  have hserved : ∃ r, (served id id [memoryComment, memoryComment]
      (step id id [memoryComment, memoryComment] (fun _ => none) (asks [49])) (asks [50])).1 = .ok r ∧
      (r.cmts (0, 1)).length = 1 := ⟨_, rfl, by decide⟩
  obtain ⟨r, hr, hlen⟩ := hserved
  rw [hr] at hpage
  have hown : (0, 1) ∈ objects [48, 58, 49, 44, 48, 58, 50] := by decide
  have hshown := hpage (0, 1) hown
  rw [hshown] at hlen
  exact absurd hlen (by decide)

theorem sameSize_ownPage :
    Guarded (step id id [memoryComment, memoryComment]) (OwnPage id id [memoryComment, memoryComment])
      (fun _ => none) [asks [50], asks [50]] := by
  apply ownPage_of_harmless
  have hall : ∀ q ∈ [asks [50], asks [50]], ∀ a, q.asked = .ok a →
      a = ⟨[48, 58, 49, 44, 48, 58, 50], ⟨2, 0, 1⟩⟩ := by
    intro q hq a ha
    simp only [List.mem_cons, List.not_mem_nil, or_false, or_self] at hq
    subst hq
    exact (Except.ok.inj ha).symm
  refine ⟨?_, ?_, fun _ _ _ _ _ _ => rfl⟩
  · intro q hq q' hq' a b ha hb _
    rw [hall q hq a ha, hall q' hq' b hb]
    exact ⟨rfl, fun _ _ => rfl⟩
  · intro q hq a ha obj hcount
    rw [hall q hq a ha] at hcount
    have honce : (objects [48, 58, 49, 44, 48, 58, 50]).Nodup := by decide
    have hle := List.nodup_iff_count_le_one.mp honce obj
    dsimp only at hcount
    omega

end Cmoon.CommentPages
