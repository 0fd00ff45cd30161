import Cmoon.CacheKeys
import Cmoon.Datasets
import Cmoon.GuardedRuns
import Cmoon.LapsingCaches
import Cmoon.TextLists
import Mathlib.Data.List.Infix

/-! # Conversations in the cache

What two members have said to each other is cached under their names, the greater one first and the two of them
without anything in between, and the offset of the page. -/
namespace Cmoon.ConversationKeys
open DecimalText Datasets CacheKeys LapsingCaches GuardedRuns TextLists

def strcmp : Bytes → Bytes → ℤ
  | [], [] => 0
  | [], _ :: _ => -1
  | _ :: _, [] => 1
  | a :: s, b :: t => if a = b then strcmp s t else (a.toNat : ℤ) - b.toNat

theorem strcmp_comm (s t : Bytes) : strcmp t s = -strcmp s t := by
  induction s generalizing t with
  | nil => cases t <;> rfl
  | cons a s ih =>
    cases t with
    | nil => rfl
    | cons b t =>
      simp only [strcmp, eq_comm (a := b)]
      split
      · exact ih t
      · omega

theorem eq_of_strcmp {s t : Bytes} (h : strcmp s t = 0) : s = t := by
  induction s generalizing t with
  | nil =>
    cases t with
    | nil => rfl
    | cons b t => cases h
  | cons a s ih =>
    cases t with
    | nil => cases h
    | cons b t =>
      simp only [strcmp] at h
      split at h
      · rename_i hab
        rw [hab, ih h]
      · rename_i hab
        exact (hab (UInt8.toNat_inj.mp (by omega))).elim

structure Asked where
  name : Bytes
  name2 : Bytes
  offset : ℤ

namespace Asked

def greater (q : Asked) : Bytes := if 0 < strcmp q.name q.name2 then q.name else q.name2
def lesser (q : Asked) : Bytes := if 0 < strcmp q.name q.name2 then q.name2 else q.name

def prefixSaywithother : Bytes := [83, 97, 121, 119, 105, 116, 104, 111, 116, 104, 101, 114]

def lenMd : ℕ := 1024

def key (q : Asked) : Bytes := (q.greater ++ q.lesser).take (lenMd - 1)

def text (q : Asked) : Bytes := prefixSaywithother ++ q.key ++ 95 :: printInt q.offset

/-- The same two members, whoever of them asks. -/
def SamePair (q q' : Asked) : Prop := q.name = q'.name ∧ q.name2 = q'.name2 ∨ q.name = q'.name2 ∧ q.name2 = q'.name

theorem samePair_iff (q q' : Asked) : q.SamePair q' ↔ q.greater = q'.greater ∧ q.lesser = q'.lesser := by
  constructor
  · rintro (⟨h1, h2⟩ | ⟨h1, h2⟩)
    · simp only [greater, lesser, h1, h2, and_self]
    · have hcomm := strcmp_comm q'.name q'.name2
      simp only [greater, lesser, h1, h2, hcomm]
      rcases lt_trichotomy (strcmp q'.name q'.name2) 0 with hlt | heq | hgt
      · simp [hlt, hlt.le]
      · simp [eq_of_strcmp heq]
      · simp [hgt, hgt.le]
  · rintro ⟨hg, hl⟩
    by_cases h : 0 < strcmp q.name q.name2 <;> by_cases h' : 0 < strcmp q'.name q'.name2 <;>
      simp only [greater, lesser, h, h', if_true, if_false] at hg hl
    · exact .inl ⟨hg, hl⟩
    · exact .inr ⟨hg, hl⟩
    · exact .inr ⟨hl, hg⟩
    · exact .inl ⟨hl, hg⟩

theorem text_inj {q q' : Asked} (h : q.text = q'.text) : q.key = q'.key ∧ q.offset = q'.offset := by
  obtain ⟨hkey, hoffset⟩ :=
    (append_cons_inj_last (notMem_printInt rfl (by decide) _) (notMem_printInt rfl (by decide) _)).mp h
  exact ⟨List.append_cancel_left hkey, printInt_injective hoffset⟩

/-- What does not get into the key is the same, and the names come apart at the same place. -/
def CutAlike (q q' : Asked) : Prop :=
  q.text.drop (maxCachekeyLen - 1) = q'.text.drop (maxCachekeyLen - 1) ∧
    (q.greater ++ q.lesser).drop (lenMd - 1) = (q'.greater ++ q'.lesser).drop (lenMd - 1) ∧
    q.greater.length = q'.greater.length

/-- Two requests with one key are for the same two members and the same offset, exactly when, should the texts of
their keys look alike in the buffer, they also agree in what was cut and in the length of the greater name. -/
theorem formattedKey_tells_iff (q q' : Asked) (stack stack' : ℕ → UInt8) :
    (formattedKey stack q.text = formattedKey stack' q'.text → q.SamePair q' ∧ q.offset = q'.offset) ↔
      (HeldAlike stack stack' q.text q'.text → q.CutAlike q') := by
  rw [formattedKey_eq_iff]
  apply forall_congr'
  intro hheld
  rw [samePair_iff]
  constructor
  · rintro ⟨⟨hg, hl⟩, hoffset⟩
    have htext : q.text = q'.text := by rw [text, text, key, key, hg, hl, hoffset]
    exact ⟨by rw [htext], by rw [hg, hl], by rw [hg]⟩
  · rintro ⟨hcut, hnames, hlen⟩
    have htext : q.text = q'.text := by
      rw [← List.take_append_drop (maxCachekeyLen - 1) q.text, hheld.2.1, hcut, List.take_append_drop]
    obtain ⟨hkey, hoffset⟩ := text_inj htext
    have hboth : q.greater ++ q.lesser = q'.greater ++ q'.lesser := by
      rw [← List.take_append_drop (lenMd - 1) (q.greater ++ q.lesser), hnames]
      exact (congrArg (· ++ _) hkey).trans (List.take_append_drop _ _)
    exact ⟨List.append_inj hboth hlen, hoffset⟩

end Asked

/-- A message with its text `mraw`, of which a reply has the text alone. -/
structure Msg where
  mfrom : Bytes
  mto : Bytes
  mraw : Bytes
  deriving DecidableEq

/-- What `mmisc_pagediv` reads from a request: the count and the offset of a page, and its number. -/
structure Page where
  count : ℤ
  offset : ℤ
  npg : ℤ
  deriving DecidableEq

structure Said where
  page : Page
  ntt : ℕ
  raws : List Msg
  deriving DecidableEq

inductive MsgErr where
  | badparam (key : String)
  | notFound
  | mem
  | db
  deriving DecidableEq

abbrev MsgReply := Except MsgErr Said

/-- What a command meets: the cache entries that are gone by then, whether the server answers, its messages from the
newest on, whether there is memory, and the stack behind the buffers of `cache_getf` and `cache_setf`. -/
structure Surroundings where
  gone : Bytes → Bool
  queries : Bool
  table : List Msg
  calloc : Bool
  getStack : ℕ → UInt8
  setStack : ℕ → UInt8

/-- The other commands that cache what they read. -/
inductive OtherRead where
  | mymsg | mysaid | saytome
  deriving DecidableEq

/-- `PREFIX_MYMSG`, `PREFIX_MYSAID` and `PREFIX_SAYTOME` -/
def OtherRead.start : OtherRead → Bytes
  | .mymsg => [77, 101, 115, 115, 97, 103, 101]
  | .mysaid => [77, 121, 115, 97, 105, 100]
  | .saytome => [83, 97, 121, 116, 111, 109, 101]

/-- A request for a conversation, or another command that puts something under a key of its own. -/
inductive MsgEvent where
  | saywithother (hdfrcv : Dataset) (met : Surroundings)
  | other (cmd : OtherRead) (rest : Bytes) (cached : Said) (gone : Bytes → Bool)

def Msg.between (q : Asked) (m : Msg) : Bool :=
  (m.mfrom = q.name && m.mto = q.name2) || (m.mfrom = q.name2 && m.mto = q.name)

section Commands
variable (pagediv : Dataset → Page) (kept : Said → Said)

def asked (hdfrcv : Dataset) : Except MsgErr Asked :=
  match nonempty hdfrcv "name", nonempty hdfrcv "name2" with
  | some name, some name2 => .ok ⟨name, name2, (pagediv hdfrcv).offset⟩
  | none, _ => .error (.badparam "name")
  | some _, none => .error (.badparam "name2")

/-- The page of the conversation; the server takes no negative limit or offset. -/
def Asked.select (met : Surroundings) (page : Page) (q : Asked) : MsgReply :=
  if met.queries && 0 ≤ page.count && 0 ≤ page.offset then
    let all := met.table.filter (Msg.between q)
    let raws := (all.drop page.offset.toNat).take page.count.toNat
    if raws.isEmpty then .error .notFound
    else if met.calloc then .ok ⟨page, all.length, raws⟩
    else .error .mem
  else .error .db

def msgCmdSaywithother (met : Surroundings) (cd : Store Bytes Said) (hdfrcv : Dataset) :
    MsgReply × Store Bytes Said :=
  match asked pagediv hdfrcv with
  | .error err => (.error err, cd)
  | .ok q =>
    readThrough kept cd (formattedKey met.getStack q.text) (formattedKey met.setStack q.text)
      (q.select met (pagediv hdfrcv))

def served (cd : Store Bytes Said) : MsgEvent → MsgReply × Store Bytes Said
  | .saywithother hdfrcv met => msgCmdSaywithother pagediv kept met (lapse cd met.gone) hdfrcv
  | .other cmd rest cached gone => (.ok cached, put (lapse cd gone) (cmd.start ++ rest) cached)

def step (cd : Store Bytes Said) (e : MsgEvent) : Store Bytes Said := (served pagediv kept cd e).2

/-- What is shown of a conversation is between the two members of the request. -/
def OnlyBetween (cd : Store Bytes Said) (e : MsgEvent) : Prop :=
  ∀ hdfrcv met, e = .saywithother hdfrcv met → ∀ q said, asked pagediv hdfrcv = .ok q →
    (served pagediv kept cd e).1 = .ok said → ∀ m ∈ said.raws, m.between q = true

end Commands

/-- `mdb_pagediv` without a prefix: 15 messages from a given one on, or on a given page. -/
def mdbPagediv (hdfrcv : Dataset) : Page :=
  let i := hdfGetIntValue hdfrcv "_npp" 15
  let j := hdfGetIntValue hdfrcv "_nst" (-1)
  if j = -1 then
    let npg := hdfGetIntValue hdfrcv "_npg" 1
    ⟨i, wrap 32 ((npg - 1) * i), npg⟩
  else ⟨i, j, 1⟩

/-- Nothing is taken out of the cache that was not put in: a text that is cut has no messages of others. -/
def Keeps (kept : Said → Said) : Prop :=
  ∀ said, ∀ m ∈ (kept said).raws, ∃ m' ∈ said.raws, m.mfrom = m'.mfrom ∧ m.mto = m'.mto

variable {pagediv : Dataset → Page} {kept : Said → Said}

theorem between_congr {q q' : Asked} (h : q.SamePair q') (m : Msg) : m.between q = m.between q' := by
  rcases h with ⟨h1, h2⟩ | ⟨h1, h2⟩
  · simp only [Msg.between, h1, h2]
  · simp only [Msg.between, h1, h2, Bool.or_comm]

theorem select_between {met : Surroundings} {page : Page} {q : Asked} {said : Said}
    (h : q.select met page = .ok said) : ∀ m ∈ said.raws, m.between q = true := by
  unfold Asked.select at h
  split at h
  · dsimp only at h
    split at h
    · cases h
    · split at h
      · cases h
        intro m hm
        exact (List.mem_filter.mp (List.mem_of_mem_drop (List.mem_of_mem_take hm))).2
      · cases h
  · cases h

/-- What the cache has under the key of a conversation is of that conversation. -/
def Cached (pagediv : Dataset → Page) (es : List MsgEvent) (key : Bytes) (said : Said) : Prop :=
  (∃ cmd : OtherRead, cmd.start <+: key) ∨
    ∃ hdfrcv met q, .saywithother hdfrcv met ∈ es ∧ asked pagediv hdfrcv = .ok q ∧
      key = formattedKey met.setStack q.text ∧ ∀ m ∈ said.raws, m.between q = true

/-- Any two requests of the run that look alike in the buffer agree in what was cut, too. -/
def AllCutAlike (pagediv : Dataset → Page) (es : List MsgEvent) : Prop :=
  ∀ hdfrcv met q hdfrcv' met' q', .saywithother hdfrcv met ∈ es → .saywithother hdfrcv' met' ∈ es →
    asked pagediv hdfrcv = .ok q → asked pagediv hdfrcv' = .ok q' →
    HeldAlike met.getStack met'.setStack q.text q'.text → q.CutAlike q'

theorem not_other_key (cmd : OtherRead) (stack : ℕ → UInt8) (q : Asked) :
    ¬ cmd.start <+: formattedKey stack q.text := by
  intro h
  have hown : Asked.prefixSaywithother <+: formattedKey stack q.text :=
    prefix_formattedKey (by decide) (by rw [Asked.text, List.append_assoc]; exact List.prefix_append _ _)
  have hor := List.prefix_or_prefix_of_prefix h hown
  revert hor
  cases cmd <;> decide

section Run
variable {es : List MsgEvent} {cd : Store Bytes Said} {e : MsgEvent} {hdfrcv : Dataset} {met : Surroundings}
  {q : Asked} {said : Said}

/-- What a request finds under its key is of its conversation. -/
theorem cached_between (hes : AllCutAlike pagediv es) (he : .saywithother hdfrcv met ∈ es)
    (hq : asked pagediv hdfrcv = .ok q) (hcached : Cached pagediv es (formattedKey met.getStack q.text) said) :
    ∀ m ∈ said.raws, m.between q = true := by
  rcases hcached with ⟨cmd, hcmd⟩ | ⟨hdfrcv', met', q', hin, hasked, hkey, hall⟩
  · exact (not_other_key cmd _ q hcmd).elim
  · have htells := (Asked.formattedKey_tells_iff q q' met.getStack met'.setStack).mpr
      (hes hdfrcv met q hdfrcv' met' q' he hin hq hasked)
    intro m hm
    rw [between_congr (htells hkey).1]
    exact hall m hm

theorem kept_between (hkept : Keeps kept) {page : Page} (h : q.select met page = .ok said) :
    ∀ m ∈ (kept said).raws, m.between q = true := by
  intro m hm
  obtain ⟨m', hm', hfrom, hto⟩ := hkept said m hm
  have hbetween := select_between h m' hm'
  simpa only [Msg.between, hfrom, hto] using hbetween

theorem served_spec (hkept : Keeps kept) (hes : AllCutAlike pagediv es) (hcd : Backed (Cached pagediv es) cd)
    (he : e ∈ es) : OnlyBetween pagediv kept cd e ∧ Backed (Cached pagediv es) (step pagediv kept cd e) := by
  cases e with
  | other cmd rest cached gone =>
    refine ⟨fun hdfrcv met h => ?_, (hcd.lapse gone).put (.inl ⟨cmd, List.prefix_append _ _⟩)⟩
    cases h
  | saywithother hdfrcv met =>
    have hl := hcd.lapse met.gone
    cases hq : asked pagediv hdfrcv with
    | error err =>
      have hserved : served pagediv kept cd (.saywithother hdfrcv met) = (.error err, lapse cd met.gone) := by
        simp only [served, msgCmdSaywithother, hq]
      unfold OnlyBetween step
      rw [hserved]
      refine ⟨fun hdfrcv met _ q said _ hsaid => ?_, hl⟩
      cases hsaid
    | ok q =>
      have hserved : served pagediv kept cd (.saywithother hdfrcv met) =
          readThrough kept (lapse cd met.gone) (formattedKey met.getStack q.text) (formattedKey met.setStack q.text)
            (q.select met (pagediv hdfrcv)) := by
        simp only [served, msgCmdSaywithother, hq]
      unfold OnlyBetween step
      rw [hserved]
      constructor
      · rintro hdfrcv met ⟨⟩ q' said hq' hsaid
        obtain rfl : q = q' := Except.ok.inj (hq.symm.trans hq')
        rcases readThrough_eq_ok hsaid with hcached | hfetched
        · exact cached_between hes he hq (hl _ said hcached)
        · exact select_between hfetched
      · exact hl.readThrough _ fun said hsaid =>
          .inr ⟨hdfrcv, met, q, he, hq, rfl, kept_between hkept hsaid⟩

theorem run_onlyBetween (hkept : Keeps kept) (hes : AllCutAlike pagediv es) :
    Guarded (step pagediv kept) (OnlyBetween pagediv kept) (fun _ => none) es :=
  Guarded.of_invariant (fun _ _ ht hcd => served_spec hkept hes hcd ht) backed_empty

end Run

/-- The key of two requests tells their members and offsets exactly when nothing is lost in it; and when that holds of
any two requests of a run, no reply of the run has a message of anyone else. -/
theorem conversations_apart_iff (hkept : Keeps kept) (pagediv : Dataset → Page) :
    (∀ (q q' : Asked) (stack stack' : ℕ → UInt8),
      (formattedKey stack q.text = formattedKey stack' q'.text → q.SamePair q' ∧ q.offset = q'.offset) ↔
        (HeldAlike stack stack' q.text q'.text → q.CutAlike q')) ∧
    ∀ es, AllCutAlike pagediv es → Guarded (step pagediv kept) (OnlyBetween pagediv kept) (fun _ => none) es :=
  ⟨Asked.formattedKey_tells_iff, fun _ hes => run_onlyBetween hkept hes⟩

/-- Nothing is gone, and the message of `b` to `aa` is there. -/
def oneMessage : Surroundings := ⟨fun _ => false, true, [⟨[98], [97, 97], [33]⟩], true, fun _ => 0, fun _ => 0⟩

def asks (name name2 : Bytes) : MsgEvent := .saywithother [("name", some name), ("name2", some name2)] oneMessage

/-- `ba` and `a` are shown what `b` has said to `aa`. -/
theorem not_apart_baa :
    (formattedKey (fun _ => 0) (Asked.text ⟨[98], [97, 97], 0⟩) =
        formattedKey (fun _ => 0) (Asked.text ⟨[98, 97], [97], 0⟩) ∧
      ¬ Asked.SamePair ⟨[98], [97, 97], 0⟩ ⟨[98, 97], [97], 0⟩) ∧
    ¬ Guarded (step mdbPagediv id) (OnlyBetween mdbPagediv id) (fun _ => none)
      [asks [98] [97, 97], asks [98, 97] [97]] := by
  refine ⟨⟨by decide, by unfold Asked.SamePair; decide⟩, fun h => ?_⟩
  have hshown := h.2.1 _ _ rfl ⟨[98, 97], [97], 0⟩ ⟨⟨15, 0, 1⟩, 1, [⟨[98], [97, 97], [33]⟩]⟩ rfl (by decide) _
    List.mem_cons_self
  exact absurd hshown (by decide)

/-- `b` and `c` ask for what they have said to each other, one after the other. -/
theorem apart_bc : Guarded (step mdbPagediv id) (OnlyBetween mdbPagediv id) (fun _ => none)
    [asks [98] [99], asks [99] [98]] := by
  apply (conversations_apart_iff (fun said m hm => ⟨m, hm, rfl, rfl⟩) mdbPagediv).2 _
  have hasks : ∀ {hdfrcv met q}, MsgEvent.saywithother hdfrcv met ∈ [asks [98] [99], asks [99] [98]] →
      asked mdbPagediv hdfrcv = .ok q → q = ⟨[98], [99], 0⟩ ∨ q = ⟨[99], [98], 0⟩ := by
    intro hdfrcv met q hin hq
    simp only [List.mem_cons, List.not_mem_nil, or_false] at hin
    rcases hin with h | h <;> cases h
    · exact .inl (Except.ok.inj (hq.symm.trans rfl))
    · exact .inr (Except.ok.inj (hq.symm.trans rfl))
  intro hdfrcv met q hdfrcv' met' q' hin hin' hq hq' _
  rcases hasks hin hq with rfl | rfl <;> rcases hasks hin' hq' with rfl | rfl <;> unfold Asked.CutAlike <;> decide

end Cmoon.ConversationKeys
