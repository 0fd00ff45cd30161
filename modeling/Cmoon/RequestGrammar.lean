import Cmoon.ExceptResults
import Cmoon.RequestReads
import Cmoon.RequestRouting

/-! # The grammar of a request

`protocol.txt` describes the body of a request as variables, any number of them, closed by `DATA_TYPE_EOF`.
`parse_event` reads the first, which has to be a string, and takes the text in it for the whole body. -/
namespace Cmoon.RequestGrammar
open DecimalText ByteBuffers EventDaemon RequestRouting RequestReads ExceptResults

def dataTypeU32 : ℕ := 1
def dataTypeArray : ℕ := 4

/-- What a variable may hold; of an array the number of its elements and the bytes they are written in. -/
inductive VarValue where
  | u32 (ival : ℕ)
  | string (val : Bytes)
  | array (count : ℕ) (val : Bytes)
  deriving DecidableEq

structure Variable where
  name : Bytes
  value : VarValue
  deriving DecidableEq

namespace VarValue

def type : VarValue → ℕ
  | .u32 _ => dataTypeU32
  | .string _ => dataTypeString
  | .array _ _ => dataTypeArray

/-- The word behind the name: value, length or number of elements. -/
def item : VarValue → ℕ
  | .u32 ival => ival
  | .string val => val.length
  | .array count _ => count

def bytes : VarValue → Bytes
  | .u32 _ => []
  | .string val | .array _ val => val

end VarValue

namespace Variable

def encode (v : Variable) : Bytes :=
  be 4 v.value.type ++ (be 4 v.name.length ++ (v.name ++ (be 4 v.value.item ++ v.value.bytes)))

/-- The words hold what is written into them, and the bytes of an array are its elements. -/
def Sized (elements : ℕ → Bytes → Prop) (v : Variable) : Prop :=
  v.name.length < 2 ^ 32 ∧ v.value.item < 2 ^ 32 ∧
    match v.value with
    | .array count val => elements count val
    | _ => True

def slot (v : Variable) : ℕ × Bytes := (v.value.type, v.name)

/-- The text of a value, which ends at its first zero byte. -/
def text (v : Variable) : Bytes := v.value.bytes.takeWhile (· ≠ 0)

end Variable

/-- Header, event name and variables, and the word that ends the message. -/
def Documented (elements : ℕ → Bytes → Prop) (msg ename : Bytes) (vars : List Variable) : Prop :=
  17 ≤ msg.length ∧ ename.length < 2 ^ 32 ∧ (∀ v ∈ vars, v.Sized elements) ∧
    ∃ header : Bytes, header.length = 8 ∧
      msg = header ++ (be 4 ename.length ++ (ename ++ (vars.flatMap Variable.encode ++ be 4 dataTypeEof)))

def finals : List Variable → List Variable
  | [] => []
  | v :: vs => if vs.any (fun w => w.slot = v.slot) then finals vs else v :: finals vs

/-- The dataset of a request has the variables of the body: it is read from the text of the only one there is, or
there is none. -/
def Decodes : Option Bytes → List Variable → Prop
  | none, vars => vars = []
  | some t, vars => ∃ v, finals vars = [v] ∧ v.value.type = dataTypeString ∧ t = v.text

section Accepting
variable (elements : ℕ → Bytes → Prop) (d : Daemon) (env : Env) (req : ReqInfo) (msg rest : Bytes)

/-- A request is valid: the event name and the variables are passed on. -/
def Taken (ename : Bytes) (vars : List Variable) : Prop :=
  ∃ hdfrcv, Decodes hdfrcv vars ∧ readEvent (msg ++ rest) (msg.length - 8) = .ok (some (ename, hdfrcv)) ∧
    parseMessage d env req (msg ++ rest) msg.length =
      (takeEvent d env (req.filled msg) (some (ename, hdfrcv))).map (·, 1)

def AnsweredBroken : Prop :=
  ∃ d' rv req', parseMessage d env req (msg ++ rest) msg.length = .ok (d', rv) ∧ d'.queues = d.queues ∧
    d'.sent = d.sent ++ [.mini req' .errBroken]

/-- `rest` is what the receive buffer has behind the message. -/
structure AcceptsGrammar : Prop where
  complete : ∀ ename vars, Documented elements msg ename vars → Taken d env req msg rest ename vars
  sound : (∀ ename vars, ¬ Documented elements msg ename vars) → AnsweredBroken d env req msg rest

end Accepting

/-- The sizes that `parse_event` refuses, for the lengths of the event name, the variable name and the value. -/
def Refused (esize ksize vsize psize : ℕ) : Prop :=
  (16 + ksize + vsize) % 2 ^ 32 = 0 ∨ ((16 + ksize + vsize) % 2 ^ 32 + esize) % 2 ^ 32 + 4 > maxPacketLen ∨
    psize < esize

instance (esize ksize vsize psize : ℕ) : Decidable (Refused esize ksize vsize psize) :=
  inferInstanceAs (Decidable (_ ∨ _ ∨ _))

/-- All variables are strings of one name, the last of which reads as the first, and the sizes are not refused. -/
def OneString (msg ename : Bytes) (vars : List Variable) : Prop :=
  ∃ name val vs last, vars = ⟨name, .string val⟩ :: vs ∧
    ¬ Refused ename.length name.length val.length (msg.length - 8) ∧
    (∀ v ∈ vars, v.slot = (dataTypeString, name)) ∧ vars.getLast? = some last ∧
    last.text = val.takeWhile (· ≠ 0)

/-- Behind the event name stands another type word than that of a string, or a string of a size that is refused; each
of the words, and the end of the text, are found in the receive buffer. -/
def Unreadable (m : Bytes) (psize : ℕ) : Prop :=
  ∃ esize type, wordAt m 8 = some esize ∧ wordAt m (12 + esize) = some type ∧
    (type ≠ dataTypeString ∨ ∃ ksize vsize text, wordAt m (12 + esize + 4) = some ksize ∧
      wordAt m (12 + esize + 8 + ksize) = some vsize ∧ cstrAt m (12 + esize + 12 + ksize) = some text ∧
      Refused esize ksize vsize psize)

section Read
variable {m : Bytes} {esize type ksize vsize psize : ℕ} {text : Bytes}

theorem readEvent_string (hesize : wordAt m 8 = some esize) (htype : wordAt m (12 + esize) = some dataTypeString)
    (hksize : wordAt m (12 + esize + 4) = some ksize) (hvsize : wordAt m (12 + esize + 8 + ksize) = some vsize)
    (htext : cstrAt m (12 + esize + 12 + ksize) = some text) (psize : ℕ) :
    readEvent m psize =
      .ok (if Refused esize ksize vsize psize then none else some (slice m 12 esize, some text)) := by
  simp only [readEvent, unpackHdf, unpackDataStr, hesize, htype, hksize, hvsize, htext, inside, bind, Except.bind, pure,
    Except.pure, ne_eq, not_true_eq_false, if_false]
  by_cases h : Refused esize ksize vsize psize
  · rw [if_pos h]
    exact if_pos h
  · rw [if_neg h]
    exact if_neg h

theorem readEvent_other (hesize : wordAt m 8 = some esize) (htype : wordAt m (12 + esize) = some type)
    (hne : type ≠ dataTypeString) (psize : ℕ) : readEvent m psize = .ok none := by
  simp [readEvent, unpackHdf, unpackDataStr, hesize, htype, hne, inside, bind, Except.bind, pure, Except.pure]

private theorem inside_eq_ok {α : Type} {r : Option α} {a : α} (h : inside r = .ok a) : r = some a := by
  cases r with
  | none => cases h
  | some b => rw [Except.ok.inj h]

theorem readEvent_inside {r : Option (Bytes × Option Bytes)} (h : readEvent m psize = .ok r) :
    ∃ esize type, wordAt m 8 = some esize ∧ wordAt m (12 + esize) = some type ∧
      (type = dataTypeString → ∃ ksize vsize text, wordAt m (12 + esize + 4) = some ksize ∧
        wordAt m (12 + esize + 8 + ksize) = some vsize ∧ cstrAt m (12 + esize + 12 + ksize) = some text) := by
  obtain ⟨esize, hesize, h⟩ := bind_eq_ok h
  obtain ⟨p, hhdf, -⟩ := bind_eq_ok h
  obtain ⟨⟨ttsize, val⟩, hstr, hval⟩ := bind_eq_ok hhdf
  obtain ⟨type, htype, hstr⟩ := bind_eq_ok hstr
  refine ⟨esize, type, inside_eq_ok hesize, inside_eq_ok htype, fun hstring => ?_⟩
  rw [if_neg (not_not.mpr hstring)] at hstr
  obtain ⟨ksize, hksize, hstr⟩ := bind_eq_ok hstr
  obtain ⟨vsize, hvsize, hstr⟩ := bind_eq_ok hstr
  cases hstr
  obtain ⟨text, htext, -⟩ := bind_eq_ok hval
  exact ⟨ksize, vsize, text, inside_eq_ok hksize, inside_eq_ok hvsize, inside_eq_ok htext⟩

theorem readEvent_eq_none_iff : readEvent m psize = .ok none ↔ Unreadable m psize := by
  constructor
  · intro h
    obtain ⟨esize, type, hesize, htype, hstring⟩ := readEvent_inside h
    refine ⟨esize, type, hesize, htype, or_iff_not_imp_left.mpr fun hne => ?_⟩
    obtain rfl := not_not.mp hne
    obtain ⟨ksize, vsize, text, hksize, hvsize, htext⟩ := hstring rfl
    refine ⟨ksize, vsize, text, hksize, hvsize, htext, ?_⟩
    by_contra hrefused
    rw [readEvent_string hesize htype hksize hvsize htext, if_neg hrefused] at h
    cases h
  · rintro ⟨esize, type, hesize, htype, hor⟩
    by_cases hne : type = dataTypeString
    · subst hne
      obtain ⟨ksize, vsize, text, hksize, hvsize, htext, hrefused⟩ := hor.resolve_left (not_not.mpr rfl)
      rw [readEvent_string hesize htype hksize hvsize htext, if_pos hrefused]
    · exact readEvent_other hesize htype hne psize

end Read

section Body
variable {elements : ℕ → Bytes → Prop} {msg ename : Bytes} {vars vs : List Variable} {v : Variable} (rest : Bytes)

theorem be_four_zero {n : ℕ} (hn : n < 2 ^ 24) : be 4 n = 0 :: be 3 n := by
  have hdiv : n / 256 ^ 3 = 0 := Nat.div_eq_of_lt (by omega)
  rw [be, hdiv]
  rfl

theorem type_lt (value : VarValue) : value.type < 2 ^ 24 := by
  cases value <;> simp [VarValue.type, dataTypeU32, dataTypeString, dataTypeArray]

/-- What comes behind a variable begins with a zero byte: the next type word or the end. -/
theorem tail_zero (vs : List Variable) :
    ∃ c, vs.flatMap Variable.encode ++ (be 4 dataTypeEof ++ rest) = 0 :: c := by
  cases vs with
  | nil => exact ⟨_, rfl⟩
  | cons v vs =>
    rw [List.flatMap_cons, Variable.encode, be_four_zero (type_lt v.value)]
    exact ⟨_, rfl⟩

/-- A value with a zero byte behind it is read up to its first zero byte. -/
theorem cstrAt_value {m a val c : Bytes} {off : ℕ} (hm : m = a ++ (val ++ 0 :: c)) (hoff : off = a.length) :
    cstrAt m off = some (val.takeWhile (· ≠ 0)) := by
  rw [cstrAt, hm, hoff, List.drop_left, if_pos (by simp), List.takeWhile_append]
  split
  · rename_i hlen
    have hall : val.takeWhile (· ≠ 0) = val := (List.takeWhile_prefix _).eq_of_length hlen
    simp only [hall, ne_eq, not_true_eq_false, decide_false, Bool.false_eq_true, not_false_eq_true,
      List.takeWhile_cons_of_neg, List.append_nil]
  · rfl

/-- The event name of a documented message, and the first bytes of its body. -/
theorem documented_read (h : Documented elements msg ename vars) :
    wordAt (msg ++ rest) 8 = some ename.length ∧ slice (msg ++ rest) 12 ename.length = ename ∧
      ∃ front : Bytes, front.length = 12 + ename.length ∧
        msg ++ rest = front ++ (vars.flatMap Variable.encode ++ (be 4 dataTypeEof ++ rest)) := by
  obtain ⟨-, hename, -, header, hheader, rfl⟩ := h
  refine ⟨wordAt_mid (a := header) (by simp only [List.append_assoc]; rfl) hheader.symm hename,
    slice_mid (a := header ++ be 4 ename.length) (by simp only [List.append_assoc]; rfl) (by simp [hheader]) rfl,
    header ++ be 4 ename.length ++ ename, by simp [hheader]; omega, by simp only [List.append_assoc]⟩

/-- Without a variable, or with one first that is not a string, a documented message is read as broken. -/
theorem readEvent_notString (h : Documented elements msg ename vars)
    (hfirst : ∀ v ∈ vars.head?, v.value.type ≠ dataTypeString) (psize : ℕ) :
    readEvent (msg ++ rest) psize = .ok none := by
  obtain ⟨hesize, -, front, hfront, hm⟩ := documented_read rest h
  cases vars with
  | nil =>
    have htype : wordAt (msg ++ rest) (12 + ename.length) = some dataTypeEof := wordAt_mid hm hfront.symm (by decide)
    exact readEvent_other hesize htype (by decide) psize
  | cons v vs =>
    rw [List.flatMap_cons, Variable.encode, List.append_assoc, List.append_assoc] at hm
    have htype : wordAt (msg ++ rest) (12 + ename.length) = some v.value.type :=
      wordAt_mid hm hfront.symm ((type_lt v.value).trans (by decide))
    exact readEvent_other hesize htype (hfirst v rfl) psize

theorem readEvent_documented {name val : Bytes} (h : Documented elements msg ename (⟨name, .string val⟩ :: vs))
    (psize : ℕ) :
    readEvent (msg ++ rest) psize =
      .ok (if Refused ename.length name.length val.length psize then none
        else some (ename, some (val.takeWhile (· ≠ 0)))) := by
  obtain ⟨hesize, hename, front, hfront, hm⟩ := documented_read rest h
  obtain ⟨hname, hval, -⟩ := h.2.2.1 ⟨name, .string val⟩ List.mem_cons_self
  obtain ⟨c, hc⟩ := tail_zero rest vs
  have hm : msg ++ rest = front ++ (be 4 dataTypeString ++ (be 4 name.length ++ (name ++ (be 4 val.length ++
      (val ++ (0 :: c)))))) := by
    rw [hm, ← hc]
    simp only [List.flatMap_cons, Variable.encode, VarValue.type, VarValue.item, VarValue.bytes, List.append_assoc]
  have htype : wordAt (msg ++ rest) (12 + ename.length) = some dataTypeString :=
    wordAt_mid hm hfront.symm (by decide)
  have hksize : wordAt (msg ++ rest) (12 + ename.length + 4) = some name.length :=
    wordAt_mid (a := front ++ be 4 dataTypeString) (by rw [hm, List.append_assoc]) (by simp [hfront]) hname
  have hvsize : wordAt (msg ++ rest) (12 + ename.length + 8 + name.length) = some val.length :=
    wordAt_mid (a := front ++ be 4 dataTypeString ++ be 4 name.length ++ name)
      (by rw [hm]; simp only [List.append_assoc]; rfl) (by simp [hfront]; omega) hval
  have htext : cstrAt (msg ++ rest) (12 + ename.length + 12 + name.length) = some (val.takeWhile (· ≠ 0)) :=
    cstrAt_value (a := front ++ be 4 dataTypeString ++ be 4 name.length ++ name ++ be 4 val.length) (c := c)
      (by rw [hm]; simp only [List.append_assoc]) (by simp [hfront]; omega)
  rw [readEvent_string hesize htype hksize hvsize htext, hename]

end Body

theorem finals_ne_nil (v : Variable) (vs : List Variable) : finals (v :: vs) ≠ [] := by
  induction vs generalizing v with
  | nil => exact List.cons_ne_nil _ _
  | cons w vs ih =>
    rw [finals]
    split
    · exact ih w
    · exact List.cons_ne_nil _ _

theorem finals_eq_singleton_iff {vs : List Variable} {w : Variable} :
    finals vs = [w] ↔ vs.getLast? = some w ∧ ∀ v ∈ vs, v.slot = w.slot := by
  induction vs with
  | nil => simp [finals]
  | cons v vs ih =>
    cases vs with
    | nil =>
      simp only [finals, List.any_nil, Bool.false_eq_true, if_false, List.cons.injEq, and_true, List.getLast?_singleton,
        Option.some.injEq, List.mem_cons, List.not_mem_nil, or_false, forall_eq]
      exact ⟨fun h => ⟨h, congrArg Variable.slot h⟩, And.left⟩
    | cons u vs =>
      rw [finals, List.getLast?_cons_cons]
      split
      · rename_i hany
        obtain ⟨x, hx, hslot⟩ := List.any_eq_true.mp hany
        rw [ih]
        exact ⟨fun h => ⟨h.1, List.forall_mem_cons.mpr ⟨(of_decide_eq_true hslot).symm.trans (h.2 x hx), h.2⟩⟩,
          fun h => ⟨h.1, (List.forall_mem_cons.mp h.2).2⟩⟩
      · rename_i hany
        refine iff_of_false (fun h => finals_ne_nil u vs (List.cons.inj h).2) fun h => hany ?_
        have hu := h.2 u (by simp)
        have hv := h.2 v List.mem_cons_self
        exact List.any_eq_true.mpr ⟨u, List.mem_cons_self, decide_eq_true (hu.trans hv.symm)⟩

section Message
variable {elements : ℕ → Bytes → Prop} {d : Daemon} {env : Env} {req : ReqInfo} {msg rest ename : Bytes}
  {vars : List Variable}

theorem parseMessage_right (hlen : 17 ≤ msg.length) (hver : version msg = protoVer) :
    parseMessage d env req (msg ++ rest) msg.length =
      (readEvent (msg ++ rest) (msg.length - 8) >>= takeEvent d env (req.filled msg)).map (·, 1) := by
  rw [parseMessage_eq hlen hver]
  cases readEvent (msg ++ rest) (msg.length - 8) with
  | error f => rfl
  | ok r =>
    simp only [bind, Except.bind, pure, Except.pure]
    cases takeEvent d env (req.filled msg) r <;> rfl

theorem not_taken_notString (h : Documented elements msg ename vars)
    (hfirst : ∀ v ∈ vars.head?, v.value.type ≠ dataTypeString) : ¬ Taken d env req msg rest ename vars := by
  rintro ⟨hdfrcv, -, hread, -⟩
  rw [readEvent_notString rest h hfirst] at hread
  cases hread

theorem not_oneString (hfirst : ∀ v ∈ vars.head?, v.value.type ≠ dataTypeString) : ¬ OneString msg ename vars := by
  rintro ⟨name, val, vs, last, rfl, -⟩
  exact hfirst _ rfl rfl

theorem taken_string_iff {name val : Bytes} {vs : List Variable} (hver : version msg = protoVer)
    (h : Documented elements msg ename (⟨name, .string val⟩ :: vs)) :
    Taken d env req msg rest ename (⟨name, .string val⟩ :: vs) ↔
      OneString msg ename (⟨name, .string val⟩ :: vs) := by
  have hparse : parseMessage d env req (msg ++ rest) msg.length =
      (readEvent (msg ++ rest) (msg.length - 8) >>= takeEvent d env (req.filled msg)).map (·, 1) :=
    parseMessage_right h.1 hver
  have hread := readEvent_documented rest h (msg.length - 8)
  constructor
  · rintro ⟨hdfrcv, hdecodes, hread', -⟩
    rw [hread] at hread'
    split at hread'
    · cases hread'
    · rename_i hrefused
      cases hread'
      obtain ⟨last, hfinals, htype, htext⟩ := hdecodes
      obtain ⟨hlast, hslots⟩ := finals_eq_singleton_iff.mp hfinals
      have hfirst : (dataTypeString, name) = last.slot := hslots _ List.mem_cons_self
      exact ⟨name, val, vs, last, rfl, hrefused, fun v hv => (hslots v hv).trans hfirst.symm, hlast, htext.symm⟩
  · rintro ⟨name', val', vs', last, heq, hrefused, hslots, hlast, htext⟩
    cases heq
    have hlastSlot : last.slot = (dataTypeString, name) := hslots last (List.mem_of_getLast? hlast)
    rw [if_neg hrefused] at hread
    refine ⟨some (val.takeWhile (· ≠ 0)), ⟨last, ?_, congrArg Prod.fst hlastSlot, htext.symm⟩, hread, ?_⟩
    · exact finals_eq_singleton_iff.mpr ⟨hlast, fun v hv => (hslots v hv).trans hlastSlot.symm⟩
    · rw [hparse, hread]
      rfl

theorem taken_iff (hver : version msg = protoVer) (h : Documented elements msg ename vars) :
    Taken d env req msg rest ename vars ↔ OneString msg ename vars := by
  by_cases hfirst : ∀ v ∈ vars.head?, v.value.type ≠ dataTypeString
  · exact iff_of_false (not_taken_notString h hfirst) (not_oneString hfirst)
  · simp only [not_forall, not_not] at hfirst
    obtain ⟨v, hv, hstring⟩ := hfirst
    obtain ⟨vs, rfl⟩ : ∃ vs, vars = v :: vs := ⟨_, List.eq_cons_of_mem_head? hv⟩
    obtain ⟨name, value⟩ := v
    cases value with
    | string val => exact taken_string_iff hver h
    | u32 ival => exact absurd hstring (by decide : dataTypeU32 ≠ dataTypeString)
    | array count val => exact absurd hstring (by decide : dataTypeArray ≠ dataTypeString)

private theorem sent_ne (d : Daemon) {r : Reply} (req' : ReqInfo) (hr : r ≠ .mini req' .errBroken) :
    (d.reply r).sent ≠ d.sent ++ [.mini req' .errBroken] :=
  fun h => hr (List.cons.inj (List.append_cancel_left h)).1

private theorem replyIf_sent_ne {code : Rep} (hcode : code ≠ .errBroken) (d : Daemon) (sync : Bool)
    (req req' : ReqInfo) :
    (d.replyIf sync req code).sent ≠ d.sent ++ [.mini req' .errBroken] := by
  cases sync with
  | true => exact sent_ne d req' fun h => hcode (Reply.mini.inj h).2
  | false => exact fun h => List.cons_ne_nil _ _ (List.append_right_eq_self.mp h.symm)

private theorem statsReply_ne (d : Daemon) (env : Env) (req req' : ReqInfo) :
    statsReply d env req ≠ .mini req' .errBroken := by
  unfold statsReply
  intro h
  split at h
  · split at h <;> cases h
  · cases h

/-- Of a body that is taken no reply says it was broken. -/
theorem takeEvent_sent {body : Option Bytes} {d' : Daemon} (h : takeEvent d env req (some (ename, body)) = .ok d')
    (req' : ReqInfo) : d'.sent ≠ d.sent ++ [.mini req' .errBroken] := by
  rcases takeEvent_cases h with ⟨e, rfl⟩ | rfl | ⟨stats, code, hcode, rfl⟩
  · exact fun hsent => List.cons_ne_nil _ _ (List.append_right_eq_self.mp hsent.symm)
  · exact sent_ne d req' (statsReply_ne d env req req')
  · exact replyIf_sent_ne hcode _ req.sync req req'

theorem answeredBroken_iff (hlen : 17 ≤ msg.length) (hver : version msg = protoVer) :
    AnsweredBroken d env req msg rest ↔
      (req.filled msg).sync = true ∧ Unreadable (msg ++ rest) (msg.length - 8) := by
  unfold AnsweredBroken
  rw [parseMessage_right hlen hver, ← readEvent_eq_none_iff]
  cases hread : readEvent (msg ++ rest) (msg.length - 8) with
  | error f =>
    refine iff_of_false ?_ ?_
    · rintro ⟨d', rv, req', h, -⟩
      cases h
    · rintro ⟨-, h⟩
      cases h
  | ok r =>
    cases r with
    | none =>
      cases hsync : (req.filled msg).sync with
      | true =>
        refine iff_of_true ⟨_, _, req.filled msg, rfl, ?_, ?_⟩ ⟨rfl, rfl⟩
        · exact replyIf_queues _ _ _ _
        · rw [replyIf_sent, hsync, if_pos rfl]
      | false =>
        refine iff_of_false ?_ fun h => Bool.false_ne_true h.1
        rintro ⟨d', rv, req', h, -, hsent⟩
        cases h
        rw [replyIf_sent, hsync, if_neg Bool.false_ne_true] at hsent
        exact List.cons_ne_nil _ _ (List.append_right_eq_self.mp hsent.symm)
    | some event =>
      refine iff_of_false ?_ fun h => Option.some_ne_none event (Except.ok.inj h.2)
      rintro ⟨d', rv, req', h, -, hsent⟩
      cases htake : takeEvent d env (req.filled msg) (some event) with
      | error f =>
        simp only [bind, Except.bind, htake, Except.map] at h
        cases h
      | ok d'' =>
        simp only [bind, Except.bind, htake, Except.map] at h
        cases h
        exact takeEvent_sent htake req' hsent

end Message

theorem parseMessage_versionAnswered (d : Daemon) (env : Env) (req : ReqInfo) {msg : Bytes} (rest : Bytes)
    (hlen : 17 ≤ msg.length) (hver : version msg ≠ protoVer) :
    ∃ d', parseMessage d env req (msg ++ rest) msg.length = .ok (d', 0) ∧
      ∃ req', d'.sent = d.sent ++ [.mini req' .errVer] := by
  have hver' : version (msg ++ rest) ≠ protoVer := by
    have hslice : slice (msg ++ rest) 0 4 = slice msg 0 4 := slice_append_left (by omega) rest
    rwa [version, hslice]
  rw [parseMessage, if_neg (by omega), if_pos hver']
  exact ⟨_, rfl, _, rfl⟩

/-- A message is read as the grammar has it exactly when it is shorter than 17 bytes, or of version 1 and, should it be
of the documented form, all its variables are strings of one name of which the last reads as the first; should it not
be, synchronous and without a readable string. -/
theorem acceptsGrammar_iff (elements : ℕ → Bytes → Prop) (d : Daemon) (env : Env) (req : ReqInfo) (msg rest : Bytes) :
    AcceptsGrammar elements d env req msg rest ↔
      msg.length < 17 ∨ version msg = protoVer ∧
        (∀ ename vars, Documented elements msg ename vars → OneString msg ename vars) ∧
        ((∀ ename vars, ¬ Documented elements msg ename vars) →
          (req.filled msg).sync = true ∧ Unreadable (msg ++ rest) (msg.length - 8)) := by
  rcases Nat.lt_or_ge msg.length 17 with hshort | hlen
  · refine iff_of_true ⟨fun ename vars h => absurd h.1 (by omega), fun _ => ?_⟩ (.inl hshort)
    rw [AnsweredBroken, parseMessage, if_pos hshort]
    exact ⟨_, _, req, rfl, rfl, rfl⟩
  · rw [or_iff_right (by omega)]
    by_cases hver : version msg = protoVer
    · constructor
      · intro h
        exact ⟨hver, fun ename vars hdoc => (taken_iff hver hdoc).mp (h.complete ename vars hdoc),
          fun hnot => (answeredBroken_iff hlen hver).mp (h.sound hnot)⟩
      · rintro ⟨-, hone, hnot⟩
        exact ⟨fun ename vars hdoc => (taken_iff hver hdoc).mpr (hone ename vars hdoc),
          fun hall => (answeredBroken_iff hlen hver).mpr (hnot hall)⟩
    · refine iff_of_false (fun h => ?_) fun h => hver h.1
      obtain ⟨d', hparse, req', hsent⟩ := parseMessage_versionAnswered d env req rest hlen hver
      by_cases hdoc : ∃ ename vars, Documented elements msg ename vars
      · obtain ⟨ename, vars, hdoc⟩ := hdoc
        obtain ⟨hdfrcv, -, -, htaken⟩ := h.complete ename vars hdoc
        rw [hparse] at htaken
        cases htake : takeEvent d env (req.filled msg) (some (ename, hdfrcv)) with
        | error f => rw [htake] at htaken; cases htaken
        | ok d'' => rw [htake] at htaken; cases htaken
      · simp only [not_exists] at hdoc
        obtain ⟨d'', rv, req'', hbroken, -, hsent'⟩ := h.sound hdoc
        rw [hparse] at hbroken
        cases hbroken
        have hlast := List.cons.inj (List.append_cancel_left (hsent.symm.trans hsent'))
        cases hlast.1

/-- A synchronous request for the event `a` that has no variables: header, name, and the word that ends it. -/
def noVariables : Bytes := [16, 0, 0, 1, 3, 233, 0, 2, 0, 0, 0, 1, 97, 0, 0, 0, 0]

/-- It is of the documented form and of 17 bytes, and it is answered as broken. -/
theorem not_acceptsGrammar_noVariables :
    ¬ AcceptsGrammar (fun _ _ => False) (Daemon.initial [some [97]]) (Env.plenty fun _ => none)
      ⟨0, .tcp, [], [], 0, 0⟩ noVariables [] := by
  intro h
  have hdoc : Documented (fun _ _ => False) noVariables [97] [] :=
    ⟨by decide, by decide, by simp, [16, 0, 0, 1, 3, 233, 0, 2], rfl, by decide⟩
  obtain ⟨hdfrcv, -, hread, -⟩ := h.complete [97] [] hdoc
  have hbroken : readEvent (noVariables ++ []) (noVariables.length - 8) = .ok none := by decide
  rw [hbroken] at hread
  cases hread

end Cmoon.RequestGrammar
