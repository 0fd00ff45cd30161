import Cmoon.CacheKeys
import Cmoon.GuardedRuns
import Cmoon.LapsingCaches
import Cmoon.PlanReads

/-! # Cached cities

Three commands of the city plugin cache their replies, all under keys that start with `City`: an address, a number,
or a province and a city with a dot between them. The command for an address goes through the one for a name,
into the reply that has the address already. With a cached reply stands here what it was fetched for, which the
code does not keep. -/
namespace Cmoon.CityAnswers
open DecimalText Datasets CacheKeys LapsingCaches GuardedRuns
open PlanOwnership (nullText)
open PlanReads (reqGetParamInt)

/-- The rest of `s` from the first place on where `pat` stands. -/
def strstr (s pat : Bytes) : Option Bytes :=
  match s with
  | [] => if pat = [] then some [] else none
  | b :: r => if pat.isPrefixOf (b :: r) then some (b :: r) else strstr r pat

/-- `省`, `区` and `市` -/
def province : Bytes := [0xE7, 0x9C, 0x81]
def region : Bytes := [0xE5, 0x8C, 0xBA]
def city : Bytes := [0xE5, 0xB8, 0x82]

/-- The name a province is looked up by. A name of 64 bytes or more fills `tok` without a zero behind it, and is read
on to the next zero on the stack. -/
def provinceTok (behind p : Bytes) : Bytes :=
  if (strstr p province).isNone && (strstr p region).isNone then (p ++ province).take 63
  else if p.length < 64 then p
  else p.take 64 ++ behind

/-- `c[strlen(c)-3] = '\0'`, when there is a `市` anywhere. -/
def cutCity (c : Bytes) : Bytes := if (strstr c city).isSome then c.take (c.length - 3) else c

/-- `_COL_CITY` -/
structure CityRow where
  id : ℤ
  grade : ℤ
  pid : ℤ
  s : Bytes
  geopos : Bytes
  deriving DecidableEq

inductive CityErr where
  | badparam (key : String)
  | notIp
  | notFound
  | mem
  | db
  deriving DecidableEq

/-- The answers of the server to `s=$1`, `s IN ...`, `id=%d` and `pid=%d`. -/
structure CityDb where
  byName : Bytes → Except CityErr (Option CityRow)
  byNames : Bytes → Except CityErr (List CityRow)
  byId : ℤ → Except CityErr (Option CityRow)
  byPid : ℤ → Except CityErr (List CityRow)

/-- What `ip2place` sets. -/
structure Place where
  ip : Bytes
  c : Bytes
  a : Bytes
  deriving DecidableEq

structure CityReply where
  place : Option Place
  province : Option CityRow
  city : List CityRow
  subcities : List CityRow
  deriving DecidableEq

/-- What `city_cmd_s` reads from a request: the province, the name it is looked up by, and a city or a list of them. -/
structure Named where
  p : Option Bytes
  tok : Option Bytes
  c : Bytes
  list : Bool
  deriving DecidableEq

/-- What a reply is fetched for. -/
inductive Source where
  | byId (id : ℤ)
  | byS (named : Named)
  | byIp (place : Place) (named : Named)
  deriving DecidableEq

def Named.source (n : Named) : Option Place → Source
  | some place => .byIp place n
  | none => .byS n

structure Entry where
  source : Source
  data : CityReply
  deriving DecidableEq

section Fetch
variable (db : CityDb)

/-- The city of a name, and what is left of the name; of a list there is no single one. -/
def Named.cities (n : Named) : Except CityErr (List CityRow × Bytes) :=
  if n.list then (db.byNames n.c).map (·, n.c)
  else do
    match ← db.byName n.c with
    | some row => return ([row], n.c)
    | none => return ((← db.byName (cutCity n.c)).toList, cutCity n.c)

/-- The number that the cities below are looked up by. -/
def Named.cityId (n : Named) (cities : List CityRow) : ℤ :=
  if n.list then 0 else (cities.head?.map CityRow.id).getD 0

def Named.fetch (place : Option Place) (n : Named) : Except CityErr CityReply := do
  let row ← match n.tok with
    | some tok => db.byName tok
    | none => pure none
  let cities ← n.cities db
  let subcities ← db.byPid (n.cityId cities.1)
  return ⟨place, row, cities.1, subcities⟩

/-- The name that is in the key when the reply is put into the cache. -/
def Named.keptName (n : Named) : Bytes :=
  match n.cities db with
  | .ok cities => cities.2
  | .error _ => n.c

def Source.fetch : Source → Except CityErr CityReply
  | .byId id => do
    match ← db.byId id with
    | some row => return ⟨none, none, [row], []⟩
    | none => throw .notFound
  | .byS n => n.fetch db none
  | .byIp place n => n.fetch db (some place)

end Fetch

/-- What a command meets: the cache entries that are gone by then, whether there is memory for the first packing and
for the second, what the stack has behind the buffer of each of the four keys, and what it has behind `tok`. -/
structure Surroundings where
  gone : Bytes → Bool
  calloc : Bool
  callocAgain : Bool
  stack : Fin 4 → ℕ → UInt8
  behindTok : Bytes

inductive CityCmd where
  | byIp | byId | byS
  deriving DecidableEq

/-- `cs` are the values below `c`, when there are any. -/
structure CityRequested where
  operation : CityCmd
  hdfrcv : Dataset
  cs : List (Option Bytes)
  met : Surroundings

def prefixCity : Bytes := [67, 105, 116, 121]

def idText (id : ℤ) : Bytes := prefixCity ++ printInt id
def ipText (ip : Bytes) : Bytes := prefixCity ++ ip
def nameText (p : Option Bytes) (c : Bytes) : Bytes := prefixCity ++ p.getD nullText ++ 46 :: c

/-- `('a', 'b')`, behind a blank. -/
def listText (cs : List (Option Bytes)) : Bytes :=
  let quoted := cs.map fun c => [39] ++ c.getD nullText ++ [39]
  [32, 40] ++ [44, 32].intercalate quoted ++ [41]

section Commands
variable (ip2place : Bytes → Option Place) (db : CityDb)

/-- The names that `city_cmd_s` reads. -/
def named (behindTok : Bytes) (hdfrcv : Dataset) (cs : List (Option Bytes)) : Except CityErr Named :=
  let p := nonempty hdfrcv "p"
  let tok := p.map (provinceTok behindTok)
  if cs.isEmpty then
    match nonempty hdfrcv "c" with
    | some c => .ok ⟨p, tok, c, false⟩
    | none => .error (.badparam "c")
  else .ok ⟨p, tok, listText cs, true⟩

def placed (place : Place) (hdfrcv : Dataset) : Dataset :=
  match (strstr place.c province).or (strstr place.c region) with
  | some s =>
    let tok := place.c.take (place.c.length - s.length + 3)
    hdfSetValue (hdfSetValue hdfrcv "p" (some tok)) "c" (some (s.drop 3))
  | none => hdfSetValue hdfrcv "c" (some place.c)

/-- What `CACHE_HDF` is given, and the memory it asks for. -/
def packing (calloc : Bool) (source : Source) : Except CityErr Entry :=
  match source.fetch db with
  | .ok data => if calloc then .ok ⟨source, data⟩ else .error .mem
  | .error err => .error err

variable (kept : CityReply → CityReply)

def keptEntry (entry : Entry) : Entry := { entry with data := kept entry.data }

def cityCmdS (place : Option Place) (met : Surroundings) (cd : Store Bytes Entry) (hdfrcv : Dataset)
    (cs : List (Option Bytes)) : Except CityErr Entry × Store Bytes Entry :=
  match named met.behindTok hdfrcv cs with
  | .error err => (.error err, cd)
  | .ok n =>
    readThrough (keptEntry kept) cd (formattedKey (met.stack 0) (nameText n.p n.c))
      (formattedKey (met.stack 1) (nameText n.p (n.keptName db))) (packing db met.calloc (n.source place))

def cityCmdIp (met : Surroundings) (cd : Store Bytes Entry) (hdfrcv : Dataset) (cs : List (Option Bytes)) :
    Except CityErr Entry × Store Bytes Entry :=
  match nonempty hdfrcv "ip" with
  | none => (.error (.badparam "ip"), cd)
  | some ip =>
    match cd (formattedKey (met.stack 2) (ipText ip)) with
    | some entry => (.ok entry, cd)
    | none =>
      match ip2place ip with
      | none => (.error .notIp, cd)
      | some place =>
        let out := cityCmdS db kept (some place) met cd (placed place hdfrcv) cs
        match out.1 with
        | .error err => (.error err, out.2)
        | .ok entry =>
          if met.callocAgain then
            (.ok entry, put out.2 (formattedKey (met.stack 3) (ipText ip)) (keptEntry kept entry))
          else (.error .mem, out.2)

def cityCmdId (met : Surroundings) (cd : Store Bytes Entry) (hdfrcv : Dataset) :
    Except CityErr Entry × Store Bytes Entry :=
  match reqGetParamInt hdfrcv "id" with
  | .error _ => (.error (.badparam "id"), cd)
  | .ok id =>
    readThrough (keptEntry kept) cd (formattedKey (met.stack 0) (idText id)) (formattedKey (met.stack 1) (idText id))
      (packing db met.calloc (.byId id))

def cityProcessDriver (cd : Store Bytes Entry) (q : CityRequested) : Except CityErr Entry × Store Bytes Entry :=
  match q.operation with
  | .byIp => cityCmdIp ip2place db kept q.met cd q.hdfrcv q.cs
  | .byId => cityCmdId db kept q.met cd q.hdfrcv
  | .byS => cityCmdS db kept none q.met cd q.hdfrcv q.cs

def served (cd : Store Bytes Entry) (q : CityRequested) : Except CityErr Entry × Store Bytes Entry :=
  cityProcessDriver ip2place db kept (lapse cd q.met.gone) q

def step (cd : Store Bytes Entry) (q : CityRequested) : Store Bytes Entry := (served ip2place db kept cd q).2

def CityRequested.ip (q : CityRequested) : Option Bytes :=
  match q.operation with
  | .byIp => nonempty q.hdfrcv "ip"
  | _ => none

def CityRequested.source (q : CityRequested) : Except CityErr Source :=
  match q.operation with
  | .byId =>
    match reqGetParamInt q.hdfrcv "id" with
    | .ok id => .ok (.byId id)
    | .error _ => .error (.badparam "id")
  | .byS => (named q.met.behindTok q.hdfrcv q.cs).map fun n => n.source none
  | .byIp =>
    match nonempty q.hdfrcv "ip" with
    | none => .error (.badparam "ip")
    | some ip =>
      match ip2place ip with
      | none => .error .notIp
      | some place => (named q.met.behindTok (placed place q.hdfrcv) q.cs).map fun n => n.source (some place)

/-- The texts under which a reply is looked for, and put into the cache. -/
def Source.getText : Source → Bytes
  | .byId id => idText id
  | .byS n | .byIp _ n => nameText n.p n.c
def Source.setText : Source → Bytes
  | .byId id => idText id
  | .byS n | .byIp _ n => nameText n.p (n.keptName db)

def CityRequested.keysGot (q : CityRequested) : List Bytes :=
  (q.ip.map fun ip => formattedKey (q.met.stack 2) (ipText ip)).toList ++
    match q.source ip2place with
    | .ok source => [formattedKey (q.met.stack 0) source.getText]
    | .error _ => []

def answer (source : Except CityErr Source) : Except CityErr Entry :=
  match source with
  | .ok source => (source.fetch db).map (Entry.mk source)
  | .error err => .error err

def CityRequested.keysPut (q : CityRequested) : List Bytes :=
  match answer db (q.source ip2place) with
  | .ok entry =>
    (q.ip.map fun ip => formattedKey (q.met.stack 3) (ipText ip)).toList ++
      [formattedKey (q.met.stack 1) (entry.source.setText db)]
  | .error _ => []

/-- The reply of a plugin with an empty cache, when there is memory. -/
def alone (q : CityRequested) : Except CityErr Entry :=
  (served ip2place db kept (fun _ => none) { q with met := { q.met with calloc := true, callocAgain := true } }).1

/-- A request gets what it would get alone, fetched for what it asks for, or learns that there is no memory. -/
def Independent (cd : Store Bytes Entry) (q : CityRequested) : Prop :=
  (served ip2place db kept cd q).1 = alone ip2place db kept q ∨ (served ip2place db kept cd q).1 = .error .mem

/-- Where a request looks into a key that another has put its reply under, both ask for the same; and the replies come
out of the cache as they were put in. -/
structure Apart (qs : List CityRequested) : Prop where
  keys : ∀ q ∈ qs, ∀ q' ∈ qs, ∀ key ∈ q.keysGot ip2place, key ∈ q'.keysPut ip2place db →
    q.source ip2place = q'.source ip2place
  packable : ∀ q ∈ qs, ∀ source data, q.source ip2place = .ok source → source.fetch db = .ok data → kept data = data

end Commands

variable {ip2place : Bytes → Option Place} {db : CityDb} {kept : CityReply → CityReply} {cd : Store Bytes Entry}
  {q : CityRequested} {qs : List CityRequested}

theorem answer_eq_ok {source : Except CityErr Source} {entry : Entry} (h : answer db source = .ok entry) :
    source = .ok entry.source ∧ entry.source.fetch db = .ok entry.data := by
  cases source with
  | error err => cases h
  | ok source =>
    unfold answer at h
    cases hdata : source.fetch db with
    | error err => simp only [hdata] at h; cases h
    | ok data =>
      simp only [hdata] at h
      cases h
      exact ⟨rfl, hdata⟩

theorem packing_cases (db : CityDb) (calloc : Bool) (source : Source) :
    packing db calloc source = answer db (.ok source) ∨ calloc = false ∧ packing db calloc source = .error .mem := by
  cases hdata : source.fetch db with
  | error err => exact .inl (by simp only [packing, answer, hdata, Except.map])
  | ok data =>
    cases calloc with
    | true => exact .inl (by simp only [packing, answer, hdata, Except.map, if_true])
    | false => exact .inr ⟨rfl, by simp only [packing, hdata, Bool.false_eq_true, if_false]⟩

def through (db : CityDb) (kept : CityReply → CityReply) (met : Surroundings) (cd : Store Bytes Entry)
    (source : Except CityErr Source) : Except CityErr Entry × Store Bytes Entry :=
  match source with
  | .ok source =>
    readThrough (keptEntry kept) cd (formattedKey (met.stack 0) source.getText)
      (formattedKey (met.stack 1) (source.setText db)) (packing db met.calloc source)
  | .error err => (.error err, cd)

theorem cityCmdS_eq (place : Option Place) (met : Surroundings) (cd : Store Bytes Entry) (hdfrcv : Dataset)
    (cs : List (Option Bytes)) :
    cityCmdS db kept place met cd hdfrcv cs =
      through db kept met cd ((named met.behindTok hdfrcv cs).map fun n => n.source place) := by
  unfold cityCmdS through
  cases named met.behindTok hdfrcv cs with
  | error err => rfl
  | ok n => cases place <;> rfl

theorem cityCmdId_eq (met : Surroundings) (cd : Store Bytes Entry) (hdfrcv : Dataset) :
    cityCmdId db kept met cd hdfrcv =
      through db kept met cd
        (match reqGetParamInt hdfrcv "id" with
        | .ok id => .ok (.byId id)
        | .error _ => .error (.badparam "id")) := by
  unfold cityCmdId through
  cases reqGetParamInt hdfrcv "id" <;> rfl

theorem processed_of_ip_none (hip : q.ip = none) :
    cityProcessDriver ip2place db kept cd q = through db kept q.met cd (q.source ip2place) := by
  unfold CityRequested.ip at hip
  unfold cityProcessDriver CityRequested.source
  cases hop : q.operation with
  | byIp =>
    simp only [hop] at hip
    simp only [cityCmdIp, hip, through]
  | byId => exact cityCmdId_eq _ _ _
  | byS => exact cityCmdS_eq _ _ _ _ _

/-- A request for an address looks into the key of the address first. -/
theorem processed_of_ip_some {ip : Bytes} (hip : q.ip = some ip) :
    cityProcessDriver ip2place db kept cd q =
      match cd (formattedKey (q.met.stack 2) (ipText ip)) with
      | some entry => (.ok entry, cd)
      | none =>
        let out := through db kept q.met cd (q.source ip2place)
        match out.1 with
        | .error err => (.error err, out.2)
        | .ok entry =>
          if q.met.callocAgain then
            (.ok entry, put out.2 (formattedKey (q.met.stack 3) (ipText ip)) (keptEntry kept entry))
          else (.error .mem, out.2) := by
  unfold CityRequested.ip at hip
  unfold cityProcessDriver CityRequested.source
  cases hop : q.operation with
  | byIp =>
    simp only [hop] at hip
    simp only [cityCmdIp, hip]
    cases cd (formattedKey (q.met.stack 2) (ipText ip)) with
    | some entry => rfl
    | none =>
      cases ip2place ip with
      | none => rfl
      | some place => simp only [cityCmdS_eq]
  | byId => simp only [hop] at hip; cases hip
  | byS => simp only [hop] at hip; cases hip

/-- What is cached under a key was put there by a request, and is what comes of what that request asks for. -/
def Cached (ip2place : Bytes → Option Place) (db : CityDb) (qs : List CityRequested) (key : Bytes) (entry : Entry) :
    Prop :=
  ∃ q ∈ qs, key ∈ q.keysPut ip2place db ∧ answer db (q.source ip2place) = .ok entry

section Run
variable (hqs : Apart ip2place db kept qs)
include hqs

theorem cached_answer {key : Bytes} {entry : Entry} (hq : q ∈ qs) (hkey : key ∈ q.keysGot ip2place)
    (hentry : Cached ip2place db qs key entry) : answer db (q.source ip2place) = .ok entry := by
  obtain ⟨q', hq', hput, hanswer⟩ := hentry
  rw [hqs.keys q hq q' hq' key hkey hput]
  exact hanswer

theorem cached_kept {key : Bytes} {entry : Entry} (hq : q ∈ qs) (hkey : key ∈ q.keysPut ip2place db)
    (hanswer : answer db (q.source ip2place) = .ok entry) : Cached ip2place db qs key (keptEntry kept entry) := by
  refine ⟨q, hq, hkey, ?_⟩
  obtain ⟨hsource, hfetch⟩ := answer_eq_ok hanswer
  rw [keptEntry, hqs.packable q hq entry.source entry.data hsource hfetch]
  exact hanswer

/-- The common part gives what is asked for, and puts that into the cache. -/
theorem through_spec (hcd : Backed (Cached ip2place db qs) cd) (hq : q ∈ qs) :
    ((through db kept q.met cd (q.source ip2place)).1 = answer db (q.source ip2place) ∨
        (through db kept q.met cd (q.source ip2place)).1 = .error .mem) ∧
      Backed (Cached ip2place db qs) (through db kept q.met cd (q.source ip2place)).2 := by
  cases hsource : q.source ip2place with
  | error err => exact ⟨.inl rfl, hcd⟩
  | ok source =>
    have hgot : formattedKey (q.met.stack 0) source.getText ∈ q.keysGot ip2place := by
      simp only [CityRequested.keysGot, hsource]
      exact List.mem_append_right _ List.mem_cons_self
    unfold through
    simp only
    constructor
    · rw [readThrough_fst]
      cases hk : cd (formattedKey (q.met.stack 0) source.getText) with
      | some entry =>
        have hanswer := cached_answer hqs hq hgot (hcd _ entry hk)
        rw [hsource] at hanswer
        exact .inl hanswer.symm
      | none => exact (packing_cases db q.met.calloc source).imp id And.right
    · apply hcd.readThrough _
      intro entry hentry
      rcases packing_cases db q.met.calloc source with h | ⟨-, h⟩
      · have hanswer : answer db (q.source ip2place) = .ok entry := by rw [hsource, ← h, hentry]
        refine cached_kept hqs hq ?_ hanswer
        obtain rfl : source = entry.source := Except.ok.inj (hsource.symm.trans (answer_eq_ok hanswer).1)
        simp only [CityRequested.keysPut, hanswer]
        exact List.mem_append_right _ List.mem_cons_self
      · rw [h] at hentry
        cases hentry

end Run

theorem alone_eq (kept : CityReply → CityReply) (q : CityRequested) :
    alone ip2place db kept q = answer db (q.source ip2place) := by
  have hthrough : ∀ met : Surroundings, met.calloc = true →
      (through db kept met (fun _ => none) (q.source ip2place)).1 = answer db (q.source ip2place) := by
    intro met hmet
    cases hsource : q.source ip2place with
    | error err => rfl
    | ok source =>
      unfold through
      simp only [readThrough_fst]
      rcases packing_cases db met.calloc source with h | ⟨h, -⟩
      · exact h
      · rw [hmet] at h
        cases h
  have hempty : lapse (fun _ => none) q.met.gone = (fun _ => none : Store Bytes Entry) := by
    funext key
    exact ite_self none
  unfold alone served
  simp only [hempty]
  generalize hq' : ({ q with met := { q.met with calloc := true, callocAgain := true } } : CityRequested) = q'
  have hip' : q'.ip = q.ip := by rw [← hq']; rfl
  have hsource' : q'.source ip2place = q.source ip2place := by rw [← hq']; rfl
  have hmet : q'.met.calloc = true ∧ q'.met.callocAgain = true := by rw [← hq']; exact ⟨rfl, rfl⟩
  cases hip : q.ip with
  | none => rw [processed_of_ip_none (hip'.trans hip), hsource', hthrough _ hmet.1]
  | some ip =>
    rw [processed_of_ip_some (hip'.trans hip), hsource']
    simp only [hthrough _ hmet.1, hmet.2, if_true]
    cases answer db (q.source ip2place) <;> rfl

theorem served_spec (hqs : Apart ip2place db kept qs) (hcd : Backed (Cached ip2place db qs) cd) (hq : q ∈ qs) :
    Independent ip2place db kept cd q ∧ Backed (Cached ip2place db qs) (step ip2place db kept cd q) := by
  have hl := hcd.lapse q.met.gone
  obtain ⟨hreply, hstore⟩ := through_spec hqs hl hq
  unfold Independent step served
  rw [alone_eq]
  cases hip : q.ip with
  | none =>
    rw [processed_of_ip_none hip]
    exact ⟨hreply, hstore⟩
  | some ip =>
    rw [processed_of_ip_some hip]
    cases hk : lapse cd q.met.gone (formattedKey (q.met.stack 2) (ipText ip)) with
    | some entry =>
      have hgot : formattedKey (q.met.stack 2) (ipText ip) ∈ q.keysGot ip2place := by
        simp only [CityRequested.keysGot, hip, Option.map_some, Option.toList_some]
        exact List.mem_append_left _ List.mem_cons_self
      exact ⟨.inl (cached_answer hqs hq hgot (hl _ entry hk)).symm, hl⟩
    | none =>
      cases hout : (through db kept q.met (lapse cd q.met.gone) (q.source ip2place)).1 with
      | error err =>
        rw [hout] at hreply
        simp only [hout]
        exact ⟨hreply, hstore⟩
      | ok entry =>
        have hanswer : answer db (q.source ip2place) = .ok entry := by
          rw [hout] at hreply
          exact (hreply.resolve_right fun h => by cases h).symm
        have hput : formattedKey (q.met.stack 3) (ipText ip) ∈ q.keysPut ip2place db := by
          simp only [CityRequested.keysPut, hanswer, hip, Option.map_some, Option.toList_some]
          exact List.mem_append_left _ List.mem_cons_self
        simp only [hout]
        split
        · exact ⟨.inl hanswer.symm, hstore.put (cached_kept hqs hq hput hanswer)⟩
        · exact ⟨.inr rfl, hstore⟩

/-- Requests that meet in no key of the cache, unless they ask for the same, get what they would get alone. -/
theorem independent_of_apart (ip2place : Bytes → Option Place) (db : CityDb) (kept : CityReply → CityReply)
    (hqs : Apart ip2place db kept qs) :
    Guarded (step ip2place db kept) (Independent ip2place db kept) (fun _ => none) qs :=
  Guarded.of_invariant (fun _ _ ht hcd => served_spec hqs hcd ht) backed_empty

def fair : Surroundings := ⟨fun _ => false, true, true, fun _ _ => 0, []⟩

def oneCity : CityDb :=
  ⟨fun _ => .ok none, fun _ => .ok [], fun id => .ok (if id = 5 then some ⟨5, 1, 0, [97], []⟩ else none),
    fun _ => .ok []⟩

/-- Every address is in the city `a` of the province `省`. -/
def everywhere (ip : Bytes) : Option Place := some ⟨ip, province ++ [97], [98]⟩

def addressFirst : List CityRequested :=
  [⟨.byIp, [("ip", some [49])], [], fair⟩, ⟨.byS, [("p", some province), ("c", some [97])], [], fair⟩]

theorem not_independent_addressFirst :
    ¬ Guarded (step everywhere oneCity fun d => d) (Independent everywhere oneCity fun d => d) (fun _ => none)
      addressFirst := by
  intro h
  rcases h.2.1 with hsame | hmem
  · exact absurd (congrArg (fun r => r.toOption.map fun entry => entry.data.place) hsame) (by decide)
  · cases hmem

/-- Someone asks for the city of the number 5, someone for the one of the name `a`, and someone again for the first. -/
def numberNameNumber : List CityRequested :=
  [⟨.byId, [("id", some [53])], [], fair⟩, ⟨.byS, [("c", some [97])], [], fair⟩, ⟨.byId, [("id", some [53])], [], fair⟩]

theorem numberNameNumber_independent :
    Guarded (step everywhere oneCity fun d => d) (Independent everywhere oneCity fun d => d) (fun _ => none)
      numberNameNumber :=
  independent_of_apart everywhere oneCity (fun d => d) ⟨by decide, fun _ _ _ _ _ _ => rfl⟩

end Cmoon.CityAnswers
