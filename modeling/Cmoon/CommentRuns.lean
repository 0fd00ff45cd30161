import Cmoon.CommentPages
import Cmoon.PacketWriting
import Cmoon.StatementTexts

/-! # What a list of objects makes the server do

`aux_cmd_cmtget` takes the list of a request apart in its buffer. For each object that it finds it sends two statements,
and it puts the comments that come back below the object. -/
namespace Cmoon.CommentRuns
open DecimalText Datasets StatementTexts MemberTables LapsingCaches CacheKeys ExceptResults
open ConversationKeys (Page mdbPagediv)
open MemoryReads (AuxErr)
open CommentPages (Obj scan objects colCmt cmtStNormal Asked Cmts CmtReply CmtRequested htmlEscape)
open PacketWriting (pack unpack Holds holds_pack_iff)
open ByteBuffers (CString)

/-- `type=%d AND statu=%d AND oid=%d` -/
def condition (obj : Obj) : Bytes :=
  ascii "type=" ++ printInt obj.1 ++ ascii " AND statu=" ++ printInt cmtStNormal ++ ascii " AND oid=" ++ printInt obj.2

def countSql (obj : Obj) : Bytes := ascii "SELECT COUNT(*) FROM comment WHERE " ++ condition obj ++ ascii ";"

def colCmtText : Bytes :=
  ascii " id, type, oid, pid, ip, addr, author, content,  to_char(intime, 'YYYY-MM-DD HH24:MI:SS') as intime, " ++
    ascii " to_char(uptime, 'YYYY-MM-DD HH24:MI:SS') as uptime "

def pageSql (page : Page) (obj : Obj) : Bytes :=
  ascii "SELECT " ++ colCmtText ++ ascii " FROM comment WHERE " ++ condition obj ++
    ascii "  ORDER BY intime DESC LIMIT " ++ printInt page.count ++ ascii " OFFSET " ++ printInt page.offset ++ ascii ";"

/-- What comes of the last of the statements that have been sent: what is in `zinta` after a count, and the rows of a
page; none when the query or the reading of the rows fails. -/
structure Server where
  count : List Bytes → ℤ
  rows : List Bytes → Option (List Row)

/-- What has been sent, and what has been put into the reply. -/
structure Run where
  sent : List Bytes
  ntt : Obj → Option ℤ
  cmts : Obj → List Dataset

def start : Run := ⟨[], fun _ => none, fun _ => []⟩

/-- What is done for an object: `mdb_set_rows` appends to the comments that are there, and all of them are escaped. An
error comes with what has been sent. -/
def fetch (escape : Bytes → Bytes) (server : Server) (page : Page) (run : Run) (obj : Obj) : Except (List Bytes) Run :=
  let counted := run.sent ++ [countSql obj]
  let asked := counted ++ [pageSql page obj]
  match server.rows asked with
  | none => .error asked
  | some rows =>
    .ok ⟨asked, Function.update run.ntt obj (some (server.count counted)),
      Function.update run.cmts obj
        ((run.cmts obj ++ rows.map fun row => mdbSetRow [] row colCmt).map (htmlEscape escape))⟩

/-- The variables of the loop: the buffer, the two pointers into it, and the type. -/
structure Cursor where
  buf : Bytes
  p : ℕ
  ids : ℕ
  type : ℤ

/-- The text at a pointer, up to the next zero byte. -/
def cstrAt (buf : Bytes) (i : ℕ) : Bytes := (buf.drop i).takeWhile (· ≠ 0)

/-- The loop, and what comes behind it; none when it has not come to an end, or is past the buffer. -/
def parse {S E : Type} (body : S → Obj → Except E S) : ℕ → Cursor → S → Option (Except E S)
  | 0, _, _ => none
  | fuel + 1, c, s =>
    match c.buf[c.p]? with
    | none => none
    | some b =>
      if b = 0 then
        let oid := atoi (cstrAt c.buf c.ids)
        some (if 0 ≤ c.type ∧ 0 ≤ oid then body s (c.type, oid) else .ok s)
      else if b = 58 then
        let buf := c.buf.set c.p 0
        parse body fuel ⟨buf, c.p + 1, c.p + 1, atoi (cstrAt buf c.ids)⟩ s
      else if b = 44 then
        let buf := c.buf.set c.p 0
        let oid := atoi (cstrAt buf c.ids)
        if 0 ≤ c.type ∧ 0 ≤ oid then
          match body s (c.type, oid) with
          | .error e => some (.error e)
          | .ok s => parse body fuel ⟨buf, c.p + 1, c.p + 1, -1⟩ s
        else parse body fuel ⟨buf, c.p + 1, c.p + 1, c.type⟩ s
      else parse body fuel { c with p := c.p + 1 } s

/-- What has been sent, the reply, and what is handed to the cache for which key. -/
structure Outcome where
  sent : List Bytes
  reply : CmtReply
  cached : Option (Bytes × Bytes)

-- `hdf_write_string` and `hdf_read_string`
variable (write : Cmts → Option CString) (read : Bytes → Cmts)

/-- After the list: the reply is packed and cached if there is memory. -/
def finish (q : CmtRequested) (a : Asked) : Except (List Bytes) Run → Outcome
  | .error sent => ⟨sent, .error (.rep .db), none⟩
  | .ok run =>
    let r : Cmts := ⟨a.page, run.ntt, run.cmts⟩
    if q.met.calloc then ⟨run.sent, .ok r, some (formattedKey q.met.setStack a.text, pack write r)⟩
    else ⟨run.sent, .error .mem, none⟩

/-- There is no outcome where a cached value cannot be unpacked. -/
def auxCmdCmtget (escape : Bytes → Bytes) (server : Server) (cd : Store Bytes Bytes) (q : CmtRequested) :
    Option Outcome :=
  match q.asked with
  | .error err => some ⟨[], .error err, none⟩
  | .ok a =>
    match cd (formattedKey q.met.getStack a.text) with
    | some val => (unpack read val).map fun r => ⟨[], .ok r, none⟩
    | none =>
      (parse (fetch escape server a.page) (a.ids.length + 1) ⟨a.ids ++ [0], 0, 0, -1⟩ start).map (finish write q a)

section Buffer
variable {S E : Type} {body : S → Obj → Except E S} {fuel : ℕ} {type : ℤ} {s : S} {seg r : Bytes}

theorem cstrAt_append (front : Bytes) (hseg : 0 ∉ seg) (rest : Bytes) :
    cstrAt (front ++ (seg ++ 0 :: rest)) front.length = seg := by
  have hall : ∀ b ∈ seg, decide (b ≠ 0) = true := fun b hb => decide_eq_true fun h0 => hseg (h0 ▸ hb)
  rw [cstrAt, List.drop_left, List.takeWhile_append_of_pos hall, List.takeWhile_cons_of_neg (by decide),
    List.append_nil]

theorem getElem?_cursor (front seg : Bytes) (b : UInt8) (rest : Bytes) :
    (front ++ (seg ++ b :: rest))[(front ++ seg).length]? = some b := by
  rw [← List.append_assoc, List.getElem?_append_right le_rfl, Nat.sub_self]
  rfl

theorem set_cursor (front seg : Bytes) (b : UInt8) (rest : Bytes) :
    (front ++ (seg ++ b :: rest)).set (front ++ seg).length 0 = front ++ (seg ++ 0 :: rest) := by
  rw [← List.append_assoc, List.set_append_right _ _ le_rfl, Nat.sub_self, List.append_assoc]
  rfl

theorem parse_end (front : Bytes) (hseg : 0 ∉ seg) :
    parse body (fuel + 1) ⟨front ++ (seg ++ [0]), (front ++ seg).length, front.length, type⟩ s =
      some ((scan type seg []).foldlM body s) := by
  rw [parse]
  dsimp only
  rw [getElem?_cursor]
  dsimp only
  rw [if_pos rfl, cstrAt_append front hseg, scan]
  split
  · rw [List.foldlM_cons]
    cases body s (type, atoi seg) <;> rfl
  · rfl

/-- What is read from the buffer is the text as it was: the bytes from `ids` on have not been overwritten yet. -/
theorem parse_eq (front : Bytes) (hseg : 0 ∉ seg) (hr : 0 ∉ r) (hfuel : r.length < fuel) :
    parse body fuel ⟨front ++ (seg ++ (r ++ [0])), (front ++ seg).length, front.length, type⟩ s =
      some ((scan type seg r).foldlM body s) := by
  obtain ⟨fuel, rfl⟩ := Nat.exists_eq_succ_of_ne_zero (Nat.ne_zero_of_lt hfuel)
  induction r generalizing fuel front seg type s with
  | nil => exact parse_end front hseg
  | cons b r ih =>
    simp only [List.mem_cons, not_or] at hr
    obtain ⟨hb, hr⟩ := hr
    rw [List.length_cons, Nat.succ_lt_succ_iff] at hfuel
    obtain ⟨fuel, rfl⟩ := Nat.exists_eq_succ_of_ne_zero (Nat.ne_zero_of_lt hfuel)
    -- behind the separator
    have hnext : ∀ type s, parse body (fuel + 1)
        ⟨front ++ (seg ++ 0 :: (r ++ [0])), (front ++ seg).length + 1, (front ++ seg).length + 1, type⟩ s =
          some ((scan type [] r).foldlM body s) := by
      intro type s
      have hrest : parse body (fuel + 1) ⟨(front ++ (seg ++ [0])) ++ ([] ++ (r ++ [0])),
          ((front ++ (seg ++ [0])) ++ []).length, (front ++ (seg ++ [0])).length, type⟩ s = _ :=
        ih _ List.not_mem_nil hr fuel hfuel
      simpa [Nat.add_assoc] using hrest
    rw [parse, List.cons_append]
    dsimp only
    rw [getElem?_cursor]
    dsimp only
    rw [if_neg (Ne.symm hb), set_cursor, cstrAt_append front hseg, scan]
    by_cases hcolon : b = 58
    · rw [if_pos hcolon, if_pos hcolon, hnext]
    · rw [if_neg hcolon, if_neg hcolon]
      by_cases hcomma : b = 44
      · rw [if_pos hcomma, if_pos hcomma]
        split
        · rw [List.foldlM_cons]
          cases body s (type, atoi seg) with
          | error e => rfl
          | ok s => exact hnext _ _
        · rw [hnext]
      · rw [if_neg hcomma, if_neg hcomma]
        have hrest : parse body (fuel + 1)
            ⟨front ++ ((seg ++ [b]) ++ (r ++ [0])), (front ++ (seg ++ [b])).length, front.length, type⟩ s = _ :=
          ih front (by simp [hseg, hb]) hr fuel hfuel
        simpa [Nat.add_assoc] using hrest

end Buffer

/-- The text of a decimal number below `2 ^ 31`. -/
structure Decimal where
  text : Bytes
  digits : ∀ b ∈ text, isDigit b = true
  ne_nil : text ≠ []
  small : readDigits 0 text < 2 ^ 31

def Decimal.value (d : Decimal) : ℤ := readDigits 0 d.text

abbrev Item := Decimal × Decimal

def Item.text (it : Item) : Bytes := it.1.text ++ 58 :: it.2.text

def Item.obj (it : Item) : Obj := (it.1.value, it.2.value)

/-- `t1:o1,t2:o2,...,tn:on` -/
def listText (items : List Item) : Bytes := List.intercalate [44] (items.map Item.text)

theorem Decimal.atoi_text (d : Decimal) : atoi d.text = d.value := atoi_digits d.ne_nil d.digits d.small

theorem Decimal.value_nonneg (d : Decimal) : 0 ≤ d.value := Int.natCast_nonneg _

theorem scan_item (it : Item) (t : ℤ) (r : Bytes) : scan t [] (it.text ++ r) = scan it.1.value it.2.text r := by
  rw [Item.text, List.append_assoc, List.cons_append, CommentPages.scan_digits it.1.digits, scan, if_pos rfl,
    List.nil_append, it.1.atoi_text, CommentPages.scan_digits it.2.digits, List.nil_append]

theorem objects_listText (items : List Item) : objects (listText items) = items.map Item.obj := by
  have hall : ∀ t, items ≠ [] → scan t [] (listText items) = items.map Item.obj := by
    intro t hne
    induction items generalizing t with
    | nil => exact absurd rfl hne
    | cons it items ih =>
      have hnat : 0 ≤ it.1.value ∧ 0 ≤ it.2.value := ⟨it.1.value_nonneg, it.2.value_nonneg⟩
      by_cases hnil : items = []
      · have hscan : scan t [] (it.text ++ []) = scan it.1.value it.2.text [] := scan_item it t []
        rw [List.append_nil] at hscan
        rw [hnil, listText, List.map_singleton, List.intercalate_singleton, hscan, scan, it.2.atoi_text, if_pos hnat]
        rfl
      · have hrest : scan (-1) [] (List.intercalate [44] (items.map Item.text)) = _ := ih (-1) hnil
        rw [listText, List.map_cons, List.intercalate_cons_of_ne_nil (by simpa using hnil), List.append_assoc,
          scan_item, List.singleton_append, scan, if_neg (by decide), if_pos rfl, it.2.atoi_text, if_pos hnat, hrest]
        rfl
  by_cases hnil : items = []
  · rw [hnil]
    decide
  · exact hall (-1) hnil

theorem zero_notMem_text (d : Decimal) : 0 ∉ d.text := fun h => isDigit_ne (d.digits 0 h) rfl rfl

theorem zero_notMem_listText (items : List Item) : 0 ∉ listText items := by
  refine TextLists.notMem_intercalate (by decide) fun s hs => ?_
  obtain ⟨it, -, rfl⟩ := List.mem_map.mp hs
  simp [Item.text, zero_notMem_text]

def sentFor (page : Page) (objs : List Obj) : List Bytes := objs.flatMap fun obj => [countSql obj, pageSql page obj]

/-- What the server says at the objects of the list that are this one, in their order. -/
def collect {β : Type} (f : ℕ → β) (objs : List Obj) (obj : Obj) : List β :=
  ((List.range objs.length).filter fun i => objs[i]? = some obj).map f

def countsOf (server : Server) (page : Page) (objs : List Obj) (obj : Obj) : List ℤ :=
  collect (fun i => server.count (sentFor page (objs.take i) ++ [countSql obj])) objs obj

/-- The rows that come at the `i`th object of the list. -/
def rowsAt (server : Server) (page : Page) (objs : List Obj) (i : ℕ) : Option (List Row) :=
  server.rows (sentFor page (objs.take (i + 1)))

def pagesOf (server : Server) (page : Page) (objs : List Obj) (obj : Obj) : List (List Row) :=
  collect (fun i => (rowsAt server page objs i).getD []) objs obj

/-- Pages one behind the other. Each is escaped when it comes and whenever a later one comes. -/
def shown (escape : Bytes → Bytes) : List (List Row) → List Dataset
  | [] => []
  | rows :: pages =>
    (rows.map fun row => (htmlEscape escape)^[pages.length + 1] (mdbSetRow [] row colCmt)) ++ shown escape pages

/-- What is put into the reply for some objects. -/
structure Stored (escape : Bytes → Bytes) (server : Server) (page : Page) (objs : List Obj)
    (ntt : Obj → Option ℤ) (cmts : Obj → List Dataset) : Prop where
  ntt : ∀ obj, ntt obj = (countsOf server page objs obj).getLast?
  cmts : ∀ obj, cmts obj = shown escape (pagesOf server page objs obj)

/-- What the reply is to be: of each object the last count, and its pages. -/
def replyFor (escape : Bytes → Bytes) (server : Server) (page : Page) (objs : List Obj) : Cmts :=
  ⟨page, fun obj => (countsOf server page objs obj).getLast?, fun obj => shown escape (pagesOf server page objs obj)⟩

theorem Stored.eq_replyFor {escape : Bytes → Bytes} {server : Server} {page : Page} {objs : List Obj}
    {ntt : Obj → Option ℤ} {cmts : Obj → List Dataset} (h : Stored escape server page objs ntt cmts) :
    (⟨page, ntt, cmts⟩ : Cmts) = replyFor escape server page objs := by
  obtain rfl := funext h.ntt
  obtain rfl := funext h.cmts
  rfl

/-- The statements are sent for the objects in their order, what comes is stored under them, and the whole reply is
cached under the text of the list and the offset. -/
def Served (escape : Bytes → Bytes) (server : Server) (a : Asked) (objs : List Obj) (o : Outcome) : Prop :=
  o.sent = sentFor a.page objs ∧
    ∃ r val, o.reply = .ok r ∧ Stored escape server a.page objs r.ntt r.cmts ∧ o.cached = some (a.text, val) ∧
      Holds write val r

section Fetching
variable {escape : Bytes → Bytes} {server : Server} {page : Page} {objs : List Obj} {obj o : Obj} {run : Run}

theorem collect_concat {β : Type} {f f' : ℕ → β} (hf : ∀ i < objs.length, f i = f' i) :
    collect f (objs ++ [o]) obj = collect f' objs obj ++ if o = obj then [f objs.length] else [] := by
  have hfront : ((List.range objs.length).filter fun i => (objs ++ [o])[i]? = some obj) =
      (List.range objs.length).filter fun i => objs[i]? = some obj := by
    refine List.filter_congr fun i hi => ?_
    rw [List.getElem?_append_left (List.mem_range.mp hi)]
  have hmap : ((List.range objs.length).filter fun i => objs[i]? = some obj).map f = collect f' objs obj :=
    List.map_congr_left fun i hi => hf i (List.mem_range.mp (List.mem_of_mem_filter hi))
  rw [collect, List.length_append, List.length_singleton, List.range_succ, List.filter_append, List.map_append, hfront,
    hmap]
  by_cases ho : o = obj
  · simp [ho]
  · simp [ho]

theorem shown_concat (pages : List (List Row)) (rows : List Row) :
    shown escape (pages ++ [rows]) =
      (shown escape pages ++ rows.map fun row => mdbSetRow [] row colCmt).map (htmlEscape escape) := by
  induction pages with
  | nil => simp [shown]
  | cons page pages ih =>
    rw [List.cons_append, shown, ih, shown, List.length_append, List.length_singleton]
    simp [Function.iterate_succ_apply']

theorem sentFor_concat : sentFor page (objs ++ [o]) = sentFor page objs ++ [countSql o] ++ [pageSql page o] := by
  simp [sentFor]

theorem rowsAt_concat_last : rowsAt server page (objs ++ [o]) objs.length =
    server.rows (sentFor page objs ++ [countSql o] ++ [pageSql page o]) := by
  rw [rowsAt, List.take_of_length_le (by simp), sentFor_concat]

theorem rowsAt_concat {i : ℕ} (hi : i < objs.length) : rowsAt server page (objs ++ [o]) i = rowsAt server page objs i := by
  rw [rowsAt, rowsAt, List.take_append_of_le_length (Nat.succ_le_of_lt hi)]

theorem Stored.concat {rows : List Row} (h : Stored escape server page objs run.ntt run.cmts)
    (hrows : rowsAt server page (objs ++ [o]) objs.length = some rows) :
    Stored escape server page (objs ++ [o])
      (Function.update run.ntt o (some (server.count (sentFor page objs ++ [countSql o]))))
      (Function.update run.cmts o
        ((run.cmts o ++ rows.map fun row => mdbSetRow [] row colCmt).map (htmlEscape escape))) := by
  have hcounts : ∀ obj, countsOf server page (objs ++ [o]) obj =
      countsOf server page objs obj ++ if o = obj then [server.count (sentFor page objs ++ [countSql obj])] else [] := by
    intro obj
    rw [countsOf, collect_concat, List.take_left]
    · rfl
    · intro i hi
      rw [List.take_append_of_le_length hi.le]
  have hpages : ∀ obj, pagesOf server page (objs ++ [o]) obj =
      pagesOf server page objs obj ++ if o = obj then [rows] else [] := by
    intro obj
    rw [pagesOf, collect_concat, hrows]
    · rfl
    · intro i hi
      rw [rowsAt_concat hi]
  constructor
  · intro obj
    rw [hcounts]
    by_cases ho : obj = o
    · subst ho
      simp
    · simp [ho, Ne.symm ho, h.ntt]
  · intro obj
    rw [hpages]
    by_cases ho : obj = o
    · subst ho
      simp [shown_concat, h.cmts]
    · simp [ho, Ne.symm ho, h.cmts]

theorem foldlM_concat {body : Run → Obj → Except (List Bytes) Run} :
    (objs ++ [o]).foldlM body start = (objs.foldlM body start).bind fun run => body run o := by
  rw [List.foldlM_append]
  simp only [List.foldlM_cons, List.foldlM_nil, bind_pure]
  rfl

theorem fetchAll_ok (h : objs.foldlM (fetch escape server page) start = .ok run) :
    run.sent = sentFor page objs ∧ Stored escape server page objs run.ntt run.cmts ∧
      ∀ i < objs.length, (rowsAt server page objs i).isSome := by
  induction objs using List.reverseRecOn generalizing run with
  | nil =>
    cases h
    exact ⟨rfl, ⟨fun _ => rfl, fun _ => rfl⟩, nofun⟩
  | append_singleton objs o ih =>
    rw [foldlM_concat] at h
    obtain ⟨before, hfront, hlast⟩ := bind_eq_ok h
    obtain ⟨hsent, hstored, hall⟩ := ih hfront
    rw [fetch, hsent, ← rowsAt_concat_last] at hlast
    split at hlast
    · cases hlast
    · rename_i rows hrows
      cases hlast
      refine ⟨sentFor_concat.symm, hstored.concat hrows, ?_⟩
      intro i hi
      rw [List.length_append, List.length_singleton, Nat.lt_succ_iff_lt_or_eq] at hi
      obtain hi | rfl := hi
      · rw [rowsAt_concat hi]
        exact hall i hi
      · rw [hrows]
        rfl

/-- After the first page that does not come nothing more is sent. -/
theorem fetchAll_error {sent : List Bytes} (h : objs.foldlM (fetch escape server page) start = .error sent) :
    ∃ i < objs.length, rowsAt server page objs i = none ∧ sent = sentFor page (objs.take (i + 1)) := by
  induction objs using List.reverseRecOn with
  | nil => cases h
  | append_singleton objs o ih =>
    rw [foldlM_concat] at h
    cases hfront : objs.foldlM (fetch escape server page) start with
    | error sent' =>
      rw [hfront] at h
      cases h
      obtain ⟨i, hi, hnone, rfl⟩ := ih hfront
      refine ⟨i, ?_, ?_, ?_⟩
      · rw [List.length_append]
        exact Nat.lt_add_right _ hi
      · rw [rowsAt_concat hi, hnone]
      · rw [List.take_append_of_le_length (Nat.succ_le_of_lt hi)]
    | ok before =>
      obtain ⟨hsent, -, -⟩ := fetchAll_ok hfront
      rw [hfront] at h
      change fetch escape server page before o = _ at h
      rw [fetch, hsent, ← rowsAt_concat_last] at h
      split at h
      · rename_i hnone
        cases h
        refine ⟨objs.length, by simp, hnone, ?_⟩
        rw [List.take_of_length_le (by simp), sentFor_concat]
      · cases h

end Fetching

section Command
variable {write} {read} {escape : Bytes → Bytes} {server : Server} {cd : Store Bytes Bytes} {q : CmtRequested}
  {a : Asked} {items : List Item}

theorem asked_of_ids {ids : Bytes} (hids : nonempty q.hdfrcv "ids" = some ids) :
    q.asked = .ok ⟨ids, mdbPagediv q.hdfrcv⟩ := by rw [CmtRequested.asked, hids]

theorem auxCmdCmtget_miss (hasked : q.asked = .ok a) (hzero : 0 ∉ a.ids)
    (hmiss : cd (formattedKey q.met.getStack a.text) = none) :
    auxCmdCmtget write read escape server cd q =
      some (finish write q a ((objects a.ids).foldlM (fetch escape server a.page) start)) := by
  have hparse : parse (fetch escape server a.page) (a.ids.length + 1) ⟨[] ++ ([] ++ (a.ids ++ [0])), 0, 0, -1⟩ start =
      some ((scan (-1) [] a.ids).foldlM (fetch escape server a.page) start) :=
    parse_eq [] List.not_mem_nil hzero (Nat.lt_succ_self _)
  rw [auxCmdCmtget, hasked]
  dsimp only
  rw [hmiss]
  dsimp only
  rw [objects, ← Option.map_some, ← hparse]
  rfl

/-- A text without zero bytes is its own key exactly when it fits the buffer. -/
theorem formattedKey_eq_self_iff {stack : ℕ → UInt8} {text : Bytes} (hzero : 0 ∉ text) :
    formattedKey stack text = text ↔ text.length < maxCachekeyLen := by
  constructor
  · intro h
    by_contra hlen
    rw [formattedKey, if_neg hlen] at h
    refine hzero ?_
    rw [← h]
    simp
  · exact formattedKey_short

theorem zero_notMem_asked (hzero : 0 ∉ a.ids) : 0 ∉ a.text := by
  have hoffset : 0 ∉ printInt a.page.offset := notMem_printInt rfl (by decide) _
  simp [Asked.text, hzero, hoffset]

theorem finish_cached {x : Except (List Bytes) Run} {key val : Bytes}
    (h : (finish write q a x).cached = some (key, val)) :
    q.met.calloc = true ∧ key = formattedKey q.met.setStack a.text := by
  cases x with
  | error sent => cases h
  | ok run =>
    rw [finish] at h
    split at h
    · rename_i hcalloc
      cases h
      exact ⟨hcalloc, rfl⟩
    · cases h

variable (write read) in
/-- **Each pair of a list is asked for once and in order, and the reply is cached under the text**, exactly when no page
fails, there is memory, the text fits the buffer for the key, and the reply a packet. -/
theorem served_iff (escape : Bytes → Bytes) (server : Server) (cd : Store Bytes Bytes) (q : CmtRequested)
    (items : List Item) (hids : nonempty q.hdfrcv "ids" = some (listText items))
    (hmiss : cd (formattedKey q.met.getStack (Asked.text ⟨listText items, mdbPagediv q.hdfrcv⟩)) = none) :
    (∃ o, auxCmdCmtget write read escape server cd q = some o ∧
        Served write escape server ⟨listText items, mdbPagediv q.hdfrcv⟩ (items.map Item.obj) o) ↔
      (∀ i < items.length, (rowsAt server (mdbPagediv q.hdfrcv) (items.map Item.obj) i).isSome) ∧
        q.met.calloc = true ∧ (Asked.text ⟨listText items, mdbPagediv q.hdfrcv⟩).length < maxCachekeyLen ∧
        ∃ p, write (replyFor escape server (mdbPagediv q.hdfrcv) (items.map Item.obj)) = some p ∧
          p.bytes.length ≤ 65024 := by
  have hzero := zero_notMem_listText items
  have hmissed : auxCmdCmtget write read escape server cd q = _ := auxCmdCmtget_miss (asked_of_ids hids) hzero hmiss
  rw [hmissed, objects_listText]
  have hkey : formattedKey q.met.setStack (Asked.text ⟨listText items, mdbPagediv q.hdfrcv⟩) = _ ↔ _ :=
    formattedKey_eq_self_iff (zero_notMem_asked hzero)
  cases hrun : (items.map Item.obj).foldlM (fetch escape server (mdbPagediv q.hdfrcv)) start with
  | error sent =>
    obtain ⟨i, hi, hnone, -⟩ := fetchAll_error hrun
    rw [List.length_map] at hi
    constructor
    · rintro ⟨o, ho, -, r, val, hreply, -⟩
      cases ho
      cases hreply
    · rintro ⟨hall, -⟩
      have hsome := hall i hi
      rw [hnone] at hsome
      cases hsome
  | ok run =>
    obtain ⟨hsent, hstored, hall⟩ := fetchAll_ok hrun
    rw [List.length_map] at hall
    have hreplied : (⟨mdbPagediv q.hdfrcv, run.ntt, run.cmts⟩ : Cmts) = _ := hstored.eq_replyFor
    rw [← hreplied, ← holds_pack_iff]
    constructor
    · rintro ⟨o, ho, -, r, val, hreply, -, hcached, hholds⟩
      cases ho
      obtain ⟨hcalloc, htext⟩ := finish_cached hcached
      rw [finish, if_pos hcalloc] at hreply hcached
      cases hreply
      obtain rfl := (Prod.mk.inj (Option.some.inj hcached)).2
      exact ⟨hall, hcalloc, hkey.mp htext.symm, hholds⟩
    · rintro ⟨-, hcalloc, hlen, hholds⟩
      refine ⟨_, rfl, ?_⟩
      rw [finish]
      dsimp only
      rw [if_pos hcalloc, hkey.mpr hlen]
      exact ⟨hsent, _, _, rfl, hstored, rfl, hholds⟩

/-- The server answers from a table of comments. -/
structure FromTable (comment : List Row) (met : CommentPages.Surroundings) (page : Page) (server : Server) : Prop where
  count : ∀ sent obj, server.count (sent ++ [countSql obj]) =
    if met.counts then ((CommentPages.ofObj comment obj).length : ℤ) else met.zinta
  rows : ∀ sent obj, server.rows (sent ++ [pageSql page obj]) =
    if met.queries && 0 ≤ page.count && 0 ≤ page.offset then some (CommentPages.pageOf comment page obj) else none

def replyOf (page : Page) : Except (List Bytes) Run → CmtReply
  | .ok run => .ok ⟨page, run.ntt, run.cmts⟩
  | .error _ => .error (.rep .db)

variable {kept : Cmts → Cmts} {comment : List Row} {met : CommentPages.Surroundings} {page : Page} {run : Run}
  {obj : Obj}

theorem addPage_eq (htable : FromTable comment met page server) :
    CommentPages.addPage escape comment met ⟨page, run.ntt, run.cmts⟩ obj =
      replyOf page (fetch escape server page run obj) := by
  rw [fetch, htable.rows, htable.count, CommentPages.addPage]
  split
  · rfl
  · rfl

theorem addPages_eq (htable : FromTable comment met page server) (objs : List Obj) :
    CommentPages.addPages escape comment met ⟨page, run.ntt, run.cmts⟩ objs =
      replyOf page (objs.foldlM (fetch escape server page) run) := by
  induction objs generalizing run with
  | nil => rfl
  | cons obj objs ih =>
    rw [CommentPages.addPages, addPage_eq htable, List.foldlM_cons]
    cases fetch escape server page run obj with
    | error sent => rfl
    | ok run' => exact ih

/-- What is cached goes into the cache. -/
def Outcome.store (cd : Store Bytes Bytes) (o : Outcome) : Store Bytes Bytes :=
  match o.cached with
  | some (key, val) => put cd key val
  | none => cd

variable (read) in
def replies (cd : Store Bytes Bytes) : Store Bytes Cmts := fun key => (cd key).bind (unpack read)

theorem replies_put {key val : Bytes} {r : Cmts} (h : unpack read val = some r) :
    replies read (put cd key val) = put (replies read cd) key r := by
  funext key'
  unfold replies put
  by_cases hkey : key' = key
  · subst hkey
    rw [Function.update_self, Function.update_self]
    exact h
  · rw [Function.update_of_ne hkey, Function.update_of_ne hkey]

theorem auxCmdCmtget_eq_pages (hkept : ∀ r, unpack read (pack write r) = some (kept r))
    (hcd : ∀ key val, cd key = some val → (unpack read val).isSome)
    (htable : ∀ a, q.asked = .ok a → 0 ∉ a.ids ∧ FromTable comment q.met a.page server) :
    (auxCmdCmtget write read escape server cd q).map (fun o => (o.reply, replies read (o.store cd))) =
      some (CommentPages.auxCmdCmtget escape kept comment (replies read cd) q) := by
  cases hasked : q.asked with
  | error err => simp [auxCmdCmtget, CommentPages.auxCmdCmtget, hasked, Outcome.store]
  | ok a =>
    obtain ⟨hzero, hfrom⟩ := htable a hasked
    rw [CommentPages.auxCmdCmtget, hasked]
    dsimp only
    cases hval : cd (formattedKey q.met.getStack a.text) with
    | some val =>
      obtain ⟨r, hr⟩ := Option.isSome_iff_exists.mp (hcd _ _ hval)
      have hreply : replies read cd (formattedKey q.met.getStack a.text) = some r := by
        rw [replies, hval]
        exact hr
      simp [auxCmdCmtget, hasked, hval, hr, hreply, Outcome.store, readThrough]
    | none =>
      have hnone : replies read cd (formattedKey q.met.getStack a.text) = none := by
        rw [replies, hval]
        rfl
      have hpages : CommentPages.addPages escape comment q.met ⟨a.page, start.ntt, start.cmts⟩ (objects a.ids) = _ :=
        addPages_eq hfrom _
      rw [auxCmdCmtget_miss hasked hzero hval, CommentPages.selectCmts]
      change CommentPages.addPages escape comment q.met ⟨a.page, fun _ => none, fun _ => []⟩ _ = _ at hpages
      rw [hpages]
      cases (objects a.ids).foldlM (fetch escape server a.page) start with
      | error sent => simp [finish, replyOf, hnone, Outcome.store, readThrough]
      | ok run =>
        cases hcalloc : q.met.calloc with
        | true => simp [finish, replyOf, hcalloc, hnone, Outcome.store, readThrough, replies_put (hkept _)]
        | false => simp [finish, replyOf, hcalloc, hnone, Outcome.store, readThrough]

def Decimal.ofNat (n : ℕ) (hn : n < 2 ^ 31) : Decimal where
  text := printNat n
  digits := printNat_digits n
  ne_nil := printNat_ne_nil n
  small := (readDigits_printNat n).symm ▸ hn

def quiet : Server := ⟨fun _ => 0, fun _ => some []⟩

def requestOf (items : List Item) : CmtRequested := ⟨[("ids", some (listText items))], CommentPages.fair⟩

def manyItems (n : ℕ) (hn : n ≤ 2 ^ 31) : List Item :=
  (List.finRange n).map fun i : Fin n => (.ofNat 0 (by decide), .ofNat i (i.isLt.trans_le hn))

def oneLine (_ : Cmts) : Option CString := some ⟨ascii "_npp = 1\n", by decide⟩

/-- `0:0,0:1` is asked for, object by object. -/
theorem served_two :
    ∃ o, auxCmdCmtget oneLine (fun _ => ⟨⟨1, 0, 1⟩, fun _ => none, fun _ => []⟩) id quiet (fun _ => none)
        (requestOf (manyItems 2 (by decide))) = some o ∧
      Served oneLine id quiet
        ⟨listText (manyItems 2 (by decide)), mdbPagediv (requestOf (manyItems 2 (by decide))).hdfrcv⟩
        ((manyItems 2 (by decide)).map Item.obj) o :=
  (served_iff oneLine _ id quiet (fun _ => none) (requestOf (manyItems 2 (by decide))) (manyItems 2 (by decide))
    (by decide) rfl).mpr ⟨fun _ _ => rfl, rfl, by decide, _, rfl, by decide⟩

theorem length_listText (items : List Item) : 4 * items.length ≤ (listText items).length + 1 := by
  induction items with
  | nil => exact Nat.zero_le _
  | cons it items ih =>
    have hit : 3 ≤ it.text.length := by
      have htype := List.length_pos_iff.mpr it.1.ne_nil
      have hoid := List.length_pos_iff.mpr it.2.ne_nil
      simp only [Item.text, List.length_append, List.length_cons]
      omega
    by_cases hnil : items = []
    · rw [hnil, listText, List.map_singleton, List.intercalate_singleton, List.length_singleton]
      omega
    · rw [listText] at ih
      rw [listText, List.map_cons, List.intercalate_cons_of_ne_nil (by simpa using hnil)]
      simp only [List.length_append, List.length_cons]
      omega

/-- The reply for 300 objects is cached under another key than the text. -/
theorem not_served_long :
    ¬ ∃ o, auxCmdCmtget oneLine (fun _ => ⟨⟨1, 0, 1⟩, fun _ => none, fun _ => []⟩) id quiet (fun _ => none)
        (requestOf (manyItems 300 (by decide))) = some o ∧
      Served oneLine id quiet
        ⟨listText (manyItems 300 (by decide)), mdbPagediv (requestOf (manyItems 300 (by decide))).hdfrcv⟩
        ((manyItems 300 (by decide)).map Item.obj) o := by
  rintro ⟨o, ho, -, r, val, -, -, hcached, -⟩
  have hlen := length_listText (manyItems 300 (by decide))
  have hcount : (manyItems 300 (by decide)).length = 300 := by
    rw [manyItems, List.length_map, List.length_finRange]
  generalize manyItems 300 (by decide) = items at ho hcached hlen hcount
  have hzero := zero_notMem_listText items
  have hne : listText items ≠ [] := by
    intro hnil
    rw [hnil, hcount] at hlen
    exact absurd hlen (by decide)
  have hids : nonempty (requestOf items).hdfrcv "ids" = some (listText items) := by
    rw [nonempty_eq_some]
    exact ⟨rfl, hne⟩
  rw [auxCmdCmtget_miss (asked_of_ids hids) hzero rfl] at ho
  cases ho
  have hkey := (formattedKey_eq_self_iff (zero_notMem_asked hzero)).mp (finish_cached hcached).2.symm
  simp only [Asked.text, List.length_append, List.length_cons, maxCachekeyLen] at hkey
  omega

end Command

end Cmoon.CommentRuns
