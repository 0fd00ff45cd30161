import Cmoon.OneAtATimeHash
import Mathlib.Data.List.Sort

/-! # The choice of a server (`lib/mevent/libmevent.c`, `tcp.c`, `udp.c`)

The servers of an event are kept sorted by their endpoints, so the choice for a key
does not depend on the order in which they were added. -/
namespace Cmoon.ServerChoice
open DecimalText

/-- `struct mevent_srv`; address and port are in network byte order. -/
structure Server where
  fd : ℤ
  type : ℤ
  addr : ℕ
  port : ℕ
  deriving DecidableEq, Repr

def tcpConn : ℤ := 2
def udpConn : ℤ := 3
def sctpConn : ℤ := 4

def compareServers (srv1 srv2 : Server) : ℤ :=
  if srv1.type ≠ srv2.type then
    if srv1.type < srv2.type then -1 else 1
  else if srv1.type = tcpConn ∨ srv1.type = udpConn ∨ srv1.type = sctpConn then
    if srv1.addr < srv2.addr then -1
    else if srv1.addr = srv2.addr then
      if srv1.port < srv2.port then -1
      else if srv1.port = srv2.port then 0
      else 1
    else 1
  else 0

/-- What a comparison for `qsort` has to be: a total preorder, with the sign of one order of the
arguments the opposite of the other. -/
structure Consistent {α : Type*} (cmp : α → α → ℤ) : Prop where
  sign : ∀ a b, cmp a b ≤ 0 ↔ 0 ≤ cmp b a
  trans : ∀ a b c, cmp a b ≤ 0 → cmp b c ≤ 0 → cmp a c ≤ 0

/-- The library function `qsort`, which may order equal elements as it likes. -/
structure Qsort (α : Type*) where
  sort : (α → α → ℤ) → List α → List α
  perm : ∀ {cmp}, Consistent cmp → ∀ l, (sort cmp l).Perm l
  sorted : ∀ {cmp}, Consistent cmp → ∀ l, (sort cmp l).Pairwise fun a b => cmp a b ≤ 0

/-- The 16 bits of a port with their two bytes exchanged. -/
def htons (port : ℤ) : ℕ :=
  let p := (port % 2 ^ 16).toNat
  p % 256 * 256 + p / 256

/-- `TCP_SERVER_PORT` and `UDP_SERVER_PORT`. -/
def serverPort : ℤ := 26000

/-- What the calls of an add answer: `socket`, the `realloc` for one more server with what the new
memory holds, `connect`, and `setsockopt` with `TCP_NODELAY`. -/
structure Outcome where
  socket : Option ℤ
  grown : Option Server
  connect : Bool
  nodelay : Bool
  deriving DecidableEq, Repr

/-- `realloc` to `n` servers, not more than there are; it returns null when `n` is 0. -/
def shrink (servers : List Server) (n : ℕ) : Option (List Server) :=
  if n = 0 then none else some (servers.take n)

section Adding
variable (q : Qsort Server) (servers : List Server)

def addTcpServerAddr (inetaddr : ℕ) (port : ℤ) (o : Outcome) : List Server × ℤ :=
  match o.socket with
  | none => (servers, 0)
  | some fd =>
    match o.grown with
    | none => (servers, 0)
    | some new =>
      let port := if port < 0 then serverPort else port
      let newsrv := { new with fd := fd, port := htons port, addr := inetaddr }
      if o.connect && o.nodelay then
        (q.sort compareServers (servers ++ [{ newsrv with type := tcpConn }]), 1)
      else
        match shrink (servers ++ [newsrv]) ((servers ++ [newsrv]).length - 1) with
        | none => ([], 0)
        | some newarray => (newarray, 0)

def addUdpServerAddr (inetaddr : ℕ) (port : ℤ) (o : Outcome) : List Server × ℤ :=
  match o.socket with
  | none => (servers, 0)
  | some fd =>
    match o.grown with
    | none => (servers, 0)
    | some new =>
      let port := if port < 0 then serverPort else port
      let newsrv := { new with fd := fd, port := htons port, addr := inetaddr, type := udpConn }
      (q.sort compareServers (servers ++ [newsrv]), 1)

end Adding

/-- The sum of `checksum`: two bytes are added as one word, of which the next one uses the second
byte again, `buf` moving by one and `bsize` by two. -/
def sumWords : Bytes → ℕ → UInt32 → UInt32
  | buf, bsize + 2, sum =>
    sumWords buf.tail bsize (sum + ((buf.headD 0).toUInt32 + 256 * (buf.tail.headD 0).toUInt32))
  | buf, 1, sum => sum + (buf.headD 0).toUInt32
  | _, 0, sum => sum

/-- `while (sum >> 16) sum = (sum & 0xffff) + (sum >> 16);` -/
def foldSum (sum : ℕ) : ℕ :=
  if sum / 2 ^ 16 = 0 then sum else foldSum (sum % 2 ^ 16 + sum / 2 ^ 16)
termination_by sum
decreasing_by omega

def checksum (buf : Bytes) : ℕ := 2 ^ 32 - 1 - foldSum (sumWords buf buf.length 0).toNat

/-- `select_srv`; `none` is the null pointer. -/
def selectSrv (servers : List Server) (key : Bytes) : Option Server :=
  if servers.length = 0 then none else servers[checksum key % servers.length]?

inductive Add where
  | tcp (inetaddr : ℕ) (port : ℤ) (o : Outcome)
  | udp (inetaddr : ℕ) (port : ℤ) (o : Outcome)
  deriving DecidableEq, Repr

def add (q : Qsort Server) (servers : List Server) : Add → List Server × ℤ
  | .tcp inetaddr port o => addTcpServerAddr q servers inetaddr port o
  | .udp inetaddr port o => addUdpServerAddr q servers inetaddr port o

/-- What tells servers apart. -/
structure Endpoint where
  type : ℤ
  addr : ℕ
  port : ℕ
  deriving DecidableEq, Repr

def Server.endpoint (s : Server) : Endpoint := ⟨s.type, s.addr, s.port⟩

def Add.endpoint : Add → Endpoint
  | .tcp inetaddr port _ => ⟨tcpConn, inetaddr, htons (if port < 0 then serverPort else port)⟩
  | .udp inetaddr port _ => ⟨udpConn, inetaddr, htons (if port < 0 then serverPort else port)⟩

def added (q : Qsort Server) (adds : List Add) : List Server :=
  adds.foldl (fun servers a => (add q servers a).1) []

def successes (q : Qsort Server) : List Server → List Add → List Endpoint
  | _, [] => []
  | servers, a :: adds =>
    let r := add q servers a
    (if r.2 = 1 then [a.endpoint] else []) ++ successes q r.1 adds

def Server.Inet (s : Server) : Prop := s.type = tcpConn ∨ s.type = udpConn ∨ s.type = sctpConn

/-- The order of `compare_servers`, in which servers of any other type are all alike. -/
def Before (s t : Server) : Prop :=
  s.type < t.type ∨ s.type = t.type ∧ (s.Inet → s.addr < t.addr ∨ s.addr = t.addr ∧ s.port ≤ t.port)

theorem compareServers_le_iff (s t : Server) : compareServers s t ≤ 0 ↔ Before s t := by
  unfold compareServers Before Server.Inet
  split_ifs <;> omega

theorem le_compareServers_iff (s t : Server) : 0 ≤ compareServers s t ↔ Before t s := by
  unfold compareServers Before Server.Inet
  split_ifs <;> omega

theorem Before.trans {r s t : Server} (hrs : Before r s) (hst : Before s t) : Before r t := by
  unfold Before Server.Inet at *
  omega

theorem consistent_compareServers : Consistent compareServers where
  sign s t := by rw [compareServers_le_iff, le_compareServers_iff]
  trans r s t hrs hst := by
    rw [compareServers_le_iff] at *
    exact hrs.trans hst

def Endpoint.Le (e f : Endpoint) : Prop :=
  e.type < f.type ∨ e.type = f.type ∧ (e.addr < f.addr ∨ e.addr = f.addr ∧ e.port ≤ f.port)

theorem Endpoint.Le.antisymm {e f : Endpoint} (hef : e.Le f) (hfe : f.Le e) : e = f := by
  obtain ⟨et, ea, ep⟩ := e
  obtain ⟨ft, fa, fp⟩ := f
  simp only [Endpoint.Le, Endpoint.mk.injEq] at *
  omega

theorem Before.endpoint_le {s t : Server} (h : Before s t) (hs : s.Inet) : s.endpoint.Le t.endpoint := by
  rcases h with h | ⟨h, hrest⟩
  · exact .inl h
  · exact .inr ⟨h, hrest hs⟩

/-- The servers are in order, and all of them have an address and a port. -/
structure Arranged (servers : List Server) : Prop where
  inet : ∀ s ∈ servers, s.Inet
  sorted : servers.Pairwise Before

variable (q : Qsort Server)

theorem add_cases (servers : List Server) (a : Add) :
    (∃ new : Server, new.endpoint = a.endpoint ∧ new.Inet ∧
      add q servers a = (q.sort compareServers (servers ++ [new]), 1)) ∨ add q servers a = (servers, 0) := by
  cases a with
  | tcp inetaddr port o =>
    obtain ⟨_ | fd, _ | new, conn, nodelay⟩ := o
    · exact .inr rfl
    · exact .inr rfl
    · exact .inr rfl
    · by_cases hok : (conn && nodelay) = true
      · exact .inl ⟨⟨fd, tcpConn, inetaddr, htons (if port < 0 then serverPort else port)⟩, rfl, .inl rfl,
          by simp [add, addTcpServerAddr, hok]⟩
      · right
        cases servers <;> simp [add, addTcpServerAddr, hok, shrink]
  | udp inetaddr port o =>
    obtain ⟨_ | fd, _ | new, conn, nodelay⟩ := o
    · exact .inr rfl
    · exact .inr rfl
    · exact .inr rfl
    · exact .inl ⟨⟨fd, udpConn, inetaddr, htons (if port < 0 then serverPort else port)⟩, rfl, .inr (.inl rfl), rfl⟩

/-- The calls of the attempt answer as they should. -/
def Add.succeeds : Add → Bool
  | .tcp _ _ o => o.socket.isSome && o.grown.isSome && o.connect && o.nodelay
  | .udp _ _ o => o.socket.isSome && o.grown.isSome

theorem successes_eq (servers : List Server) (adds : List Add) :
    successes q servers adds = (adds.filter Add.succeeds).map Add.endpoint := by
  have hret : ∀ servers a, (add q servers a).2 = 1 ↔ a.succeeds = true := by
    intro servers a
    cases a with
    | tcp inetaddr port o =>
      obtain ⟨_ | fd, _ | new, _ | _, _ | _⟩ := o <;> simp [add, addTcpServerAddr, Add.succeeds] <;>
        split <;> simp
    | udp inetaddr port o => obtain ⟨_ | fd, _ | new, _, _⟩ := o <;> simp [add, addUdpServerAddr, Add.succeeds]
  induction adds generalizing servers with
  | nil => rfl
  | cons a adds ih =>
    rw [successes, ih]
    by_cases ha : a.succeeds = true
    · rw [if_pos ((hret _ _).mpr ha), List.filter_cons_of_pos ha, List.map_cons, List.singleton_append]
    · rw [if_neg (mt (hret _ _).mp ha), List.filter_cons_of_neg ha, List.nil_append]

theorem Arranged.add {servers : List Server} (hs : Arranged servers) (a : Add) :
    Arranged (ServerChoice.add q servers a).1 := by
  rcases add_cases q servers a with ⟨new, -, hinet, hadd⟩ | hadd <;> rw [hadd]
  · have hsorted := q.sorted consistent_compareServers (servers ++ [new])
    refine ⟨fun s hmem => ?_, hsorted.imp fun h => (compareServers_le_iff _ _).mp h⟩
    rcases List.mem_append.mp ((q.perm consistent_compareServers _).mem_iff.mp hmem) with hmem | hmem
    · exact hs.inet s hmem
    · rwa [List.mem_singleton.mp hmem]
  · exact hs

theorem arranged_run {servers : List Server} (hs : Arranged servers) (adds : List Add) :
    Arranged (adds.foldl (fun servers a => (add q servers a).1) servers) := by
  induction adds generalizing servers with
  | nil => exact hs
  | cons a adds ih => exact ih (hs.add q a)

theorem endpoints_run (servers : List Server) (adds : List Add) :
    ((adds.foldl (fun servers a => (add q servers a).1) servers).map Server.endpoint).Perm
      (servers.map Server.endpoint ++ successes q servers adds) := by
  induction adds generalizing servers with
  | nil => simp [successes]
  | cons a adds ih =>
    rw [List.foldl_cons, successes]
    apply (ih _).trans
    rcases add_cases q servers a with ⟨new, hnew, -, hadd⟩ | hadd <;> rw [hadd]
    · have hperm := (q.perm consistent_compareServers (servers ++ [new])).map Server.endpoint
      rw [List.map_append, List.map_singleton, hnew] at hperm
      simp only [if_true]
      rw [← List.append_assoc]
      exact hperm.append_right _
    · simp

/-- Two arrays in order with the same endpoints agree on the endpoint at every place. -/
theorem Arranged.map_endpoint_eq {servers servers' : List Server} (hs : Arranged servers) (hs' : Arranged servers')
    (hperm : (servers.map Server.endpoint).Perm (servers'.map Server.endpoint)) :
    servers.map Server.endpoint = servers'.map Server.endpoint := by
  have hle : ∀ {l}, Arranged l → (l.map Server.endpoint).Pairwise Endpoint.Le := by
    intro l hl
    rw [List.pairwise_map]
    exact hl.sorted.imp_of_mem fun {s t} hmem _ h => h.endpoint_le (hl.inet s hmem)
  exact List.Perm.eq_of_pairwise (fun e f _ _ hef hfe => hef.antisymm hfe) (hle hs) (hle hs') hperm

theorem selectSrv_endpoint (servers : List Server) (key : Bytes) :
    (selectSrv servers key).map Server.endpoint =
      if (servers.map Server.endpoint).length = 0 then none
      else (servers.map Server.endpoint)[checksum key % (servers.map Server.endpoint).length]? := by
  unfold selectSrv
  rw [List.length_map, List.getElem?_map]
  split <;> rfl

theorem exists_selectSrv {servers : List Server} (hne : servers ≠ []) (key : Bytes) :
    ∃ s ∈ servers, selectSrv servers key = some s := by
  have hpos : 0 < servers.length := List.length_pos_iff.mpr hne
  have hlt : checksum key % servers.length < servers.length := Nat.mod_lt _ hpos
  refine ⟨servers[checksum key % servers.length], List.getElem_mem hlt, ?_⟩
  rw [selectSrv, if_neg hpos.ne', List.getElem?_eq_getElem hlt]

def mergeQsort (α : Type*) : Qsort α where
  sort cmp l := l.mergeSort fun a b => cmp a b ≤ 0
  perm _ l := List.mergeSort_perm l _
  sorted {cmp} hc l := by
    have htotal : ∀ a b, (decide (cmp a b ≤ 0) || decide (cmp b a ≤ 0)) = true := by
      intro a b
      rcases Int.le_total (cmp a b) 0 with h | h
      · simp [h]
      · simp [(hc.sign b a).mpr h]
    have hsorted := @List.pairwise_mergeSort _ (fun a b => decide (cmp a b ≤ 0))
      (fun a b c hab hbc => decide_eq_true (hc.trans a b c (of_decide_eq_true hab) (of_decide_eq_true hbc))) htotal l
    exact hsorted.imp fun h => of_decide_eq_true h

/-- Every call of the attempt answers as it should. -/
def smooth : Outcome := ⟨some 3, some ⟨0, 0, 0, 0⟩, true, true⟩

/-- Two servers added in either order, once with a refused connection in between. -/
def refusedBetween : List Add :=
  [.udp 16777343 26010 smooth, .tcp 33554559 26010 { smooth with connect := false }, .tcp 16777343 26010 smooth]

def tcpFirst : List Add := [.tcp 16777343 26010 smooth, .udp 16777343 26010 smooth]

end Cmoon.ServerChoice
