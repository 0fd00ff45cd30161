import Cmoon.HdfTrees
import Cmoon.ServerChoice
import Cmoon.StepMachines

/-! # The servers of a configuration (`mevent_init_plugin` of `libmevent.c`)

Each child of the node of an event is a server to add. The loop goes on to the next child behind the branches on the
type, which an entry of any other type leaves with `continue`, to come upon it again. -/
namespace Cmoon.ClientConfigs
open DecimalText HdfTrees ServerChoice StepMachines

def typeName : Bytes := [116, 121, 112, 101]
def unknownType : Bytes := [117, 110, 107, 110, 111, 119, 110]

def ipName : Bytes := [105, 112]
def localhost : Bytes := [49, 50, 55, 46, 48, 46, 48, 46, 49]

def portName : Bytes := [112, 111, 114, 116]

/-- The types that the loop compares with: "tcp", "udp", "tipc", "sctp" -/
inductive Transport where
  | tcp | udp | tipc | sctp
  deriving DecidableEq, Repr

def Transport.name : Transport → Bytes
  | .tcp => [116, 99, 112]
  | .udp => [117, 100, 112]
  | .tipc => [116, 105, 112, 99]
  | .sctp => [115, 99, 116, 112]

def hdfGetIntValue (n : Node) (name : Bytes) (default : ℤ) : ℤ :=
  match (hdfGetValue n name).bind readInt with
  | none => default
  | some x => wrap 32 (clamp 64 x)

def transport (n : Node) : Option Transport :=
  let type := (hdfGetValue n typeName).getD unknownType
  if type = Transport.tcp.name then some .tcp
  else if type = Transport.udp.name then some .udp
  else if type = Transport.tipc.name then some .tipc
  else if type = Transport.sctp.name then some .sctp
  else none

def ip (n : Node) : Bytes := (hdfGetValue n ipName).getD localhost

def port (n : Node) : ℤ := hdfGetIntValue n portName 26010

/-- What the calls for the entry of a number come upon: the address that `inet_pton` or `gethostbyname` gives, and what
the calls of an add answer. -/
structure Met where
  resolve : ℕ → Bytes → Option ℕ
  outcome : ℕ → Outcome

/-- `struct mevent_t`, as far as the configuration makes it -/
structure Mevent where
  ename : Bytes
  servers : List Server
  deriving DecidableEq, Repr

/-- The loop at a child, with its number. -/
structure State where
  node : Hdf
  entry : ℕ
  evt : Mevent
  deriving DecidableEq

section Calls
variable (q : Qsort Server) (met : Met)

def meventAddTcpServer (k : ℕ) (servers : List Server) (addr : Bytes) (port : ℤ) : List Server × ℤ :=
  match met.resolve k addr with
  | none => (servers, 0)
  | some ia => addTcpServerAddr q servers ia port (met.outcome k)

def meventAddUdpServer (k : ℕ) (servers : List Server) (addr : Bytes) (port : ℤ) : List Server × ℤ :=
  match met.resolve k addr with
  | none => (servers, 0)
  | some ia => addUdpServerAddr q servers ia port (met.outcome k)

/-- The stubs of `tipc.c` and `sctp.c`, which the library is built with. -/
def meventAddTipcServer (servers : List Server) (_port : ℤ) : List Server × ℤ := (servers, 0)

def meventAddSctpServer (servers : List Server) (_addr : Bytes) (_port : ℤ) : List Server × ℤ := (servers, 0)

/-- The servers after an entry of a known type -/
def addEntry (k : ℕ) (servers : List Server) (n : Node) : Transport → List Server
  | .tcp => (meventAddTcpServer q met k servers (ip n) (port n)).1
  | .udp => (meventAddUdpServer q met k servers (ip n) (port n)).1
  | .tipc => (meventAddTipcServer servers (port n)).1
  | .sctp => (meventAddSctpServer servers (ip n) (port n)).1

/-- The body of the loop, and what comes behind it. -/
def step (s : State) : Next State (Option Mevent) :=
  match s.node with
  | .null => .halt (if s.evt.servers.length = 0 then none else some s.evt)
  | .node _ attrs value child next =>
    match transport ⟨attrs, value, child⟩ with
    | some t =>
      let servers := addEntry q met s.entry s.evt.servers ⟨attrs, value, child⟩ t
      .go ⟨next, s.entry + 1, { s.evt with servers := servers }⟩
    | none => .go s

/-- Where the loop begins: there is a name, the configuration is loaded and has a node of that name, and `mevent_init`
gets its memory. -/
def start (ename : Option Bytes) (cfg : Option Node) (init : Bool) : Option State := do
  let name ← ename
  let node ← hdfGetObj (← cfg) name
  if init then some ⟨node.child, 0, ⟨name, []⟩⟩ else none

/-- `mevent_init_plugin` returns; none is `NULL`. -/
def Returns (ename : Option Bytes) (cfg : Option Node) (init : Bool) (r : Option Mevent) : Prop :=
  match start ename cfg init with
  | none => r = none
  | some s => Halts (step q met) s r

end Calls

def entries : Hdf → List Node
  | .null => []
  | .node _ attrs value child next => ⟨attrs, value, child⟩ :: entries next

/-- The add that an entry makes; an entry of an address that is not found makes none. -/
def attempt (met : Met) (k : ℕ) (n : Node) : Option Add :=
  match transport n with
  | some .tcp => (met.resolve k (ip n)).map fun ia => .tcp ia (port n) (met.outcome k)
  | some .udp => (met.resolve k (ip n)).map fun ia => .udp ia (port n) (met.outcome k)
  | _ => none

def attempts (met : Met) : ℕ → List Node → List Add
  | _, [] => []
  | k, n :: ns => (attempt met k n).toList ++ attempts met (k + 1) ns

/-- The servers of the entries that could be added -/
def addable (met : Met) (ns : List Node) : List Endpoint :=
  ((attempts met 0 ns).filter Add.succeeds).map Add.endpoint

/-- What a handle holds; `NULL` holds nothing. -/
def held (r : Option Mevent) : List Endpoint := (r.elim [] Mevent.servers).map Server.endpoint

/-- The configuration loads: the call returns, with the servers that could be added. -/
def Loads (q : Qsort Server) (met : Met) (ename : Option Bytes) (cfg : Option Node) (init : Bool) : Prop :=
  ∃ r, Returns q met ename cfg init r ∧
    ∀ s, start ename cfg init = some s → (held r).Perm (addable met (entries s.node))

variable {q : Qsort Server} {met : Met} {ename : Option Bytes} {cfg : Option Node} {init : Bool} {n : Node}
  {t : Transport} {h : Hdf} {s : State} {r : Option Mevent}

def addAll (q : Qsort Server) (servers : List Server) (adds : List Add) : List Server :=
  adds.foldl (fun servers a => (add q servers a).1) servers

theorem addEntry_eq (k : ℕ) (servers : List Server) (hn : transport n = some t) :
    addEntry q met k servers n t = addAll q servers (attempt met k n).toList := by
  cases t with
  | tcp =>
    rw [addEntry, meventAddTcpServer, attempt, hn]
    cases met.resolve k (ip n) <;> rfl
  | udp =>
    rw [addEntry, meventAddUdpServer, attempt, hn]
    cases met.resolve k (ip n) <;> rfl
  | tipc => rw [attempt, hn]; rfl
  | sctp => rw [attempt, hn]; rfl

/-- Past entries of known types the loop comes to the end. -/
theorem visits_end (q : Qsort Server) (met : Met) (hknown : ∀ n ∈ entries h, transport n ≠ none) (k : ℕ)
    (evt : Mevent) : ∃ k', Visits (step q met) ⟨h, k, evt⟩
      ⟨.null, k', { evt with servers := addAll q evt.servers (attempts met k (entries h)) }⟩ := by
  induction h generalizing k evt with
  | null => exact ⟨k, Visits.refl _⟩
  | node name attrs value child next _ ih =>
    rw [entries, List.forall_mem_cons] at hknown
    obtain ⟨t, ht⟩ := Option.ne_none_iff_exists'.mp hknown.1
    obtain ⟨k', hvisits⟩ :=
      ih hknown.2 (k + 1) { evt with servers := addEntry q met k evt.servers ⟨attrs, value, child⟩ t }
    have hstep : step q met ⟨.node name attrs value child next, k, evt⟩ =
        .go ⟨next, k + 1, { evt with servers := addEntry q met k evt.servers ⟨attrs, value, child⟩ t }⟩ := by
      simp only [step, ht]
    have hadds : addAll q evt.servers (attempts met k (entries (.node name attrs value child next))) =
        addAll q (addEntry q met k evt.servers ⟨attrs, value, child⟩ t) (attempts met (k + 1) (entries next)) := by
      rw [addEntry_eq k _ ht, entries, attempts, addAll, List.foldl_append]
      rfl
    refine ⟨k', (Visits.single hstep).trans ?_⟩
    rw [hadds]
    exact hvisits

/-- At an entry of another type the loop stays for ever. -/
theorem not_halts_of_unknown (hunknown : ∃ n ∈ entries s.node, transport n = none) : ¬ Halts (step q met) s r := by
  refine not_halts (I := fun s => ∃ n ∈ entries s.node, transport n = none) hunknown ?_
  rintro ⟨_ | ⟨name, attrs, value, child, next⟩, k, evt⟩ ⟨n, hmem, hn⟩
  · exact absurd hmem List.not_mem_nil
  · cases ht : transport ⟨attrs, value, child⟩ with
    | none => exact ⟨⟨.node name attrs value child next, k, evt⟩, by simp only [step, ht], n, hmem, hn⟩
    | some t =>
      rcases List.mem_cons.mp hmem with rfl | hmem
      · rw [ht] at hn
        cases hn
      · have hgo : step q met ⟨.node name attrs value child next, k, evt⟩ =
            .go ⟨next, k + 1, { evt with servers := addEntry q met k evt.servers ⟨attrs, value, child⟩ t }⟩ := by
          simp only [step, ht]
        exact ⟨_, hgo, n, hmem, hn⟩

theorem start_servers (h : start ename cfg init = some s) : s.evt.servers = [] ∧ s.entry = 0 := by
  simp only [start, Option.bind_eq_bind, Option.bind_eq_some_iff] at h
  obtain ⟨name, -, root, -, node, -, h⟩ := h
  split at h
  · cases h
    exact ⟨rfl, rfl⟩
  · cases h

/-- The end of the loop returns the servers, or `NULL` when there are none. -/
theorem step_end (q : Qsort Server) (met : Met) (k : ℕ) (evt : Mevent) :
    ∃ r, step q met ⟨.null, k, evt⟩ = .halt r ∧ held r = evt.servers.map Server.endpoint := by
  by_cases hempty : evt.servers = []
  · exact ⟨none, by simp [step, hempty], by simp [held, hempty]⟩
  · exact ⟨some evt, by simp [step, hempty], rfl⟩

theorem addAll_endpoints (adds : List Add) :
    ((addAll q [] adds).map Server.endpoint).Perm ((adds.filter Add.succeeds).map Add.endpoint) := by
  have h := endpoints_run q [] adds
  rwa [List.map_nil, List.nil_append, successes_eq] at h

/-- A configuration loads exactly when the loop is not reached, or all entries have a known type. -/
theorem loads_iff (q : Qsort Server) (met : Met) (ename : Option Bytes) (cfg : Option Node) (init : Bool) :
    Loads q met ename cfg init ↔
      ∀ s, start ename cfg init = some s → ∀ n ∈ entries s.node, transport n ≠ none := by
  constructor
  · rintro ⟨r, hreturns, -⟩ s hs n hmem hn
    rw [Returns, hs] at hreturns
    exact not_halts_of_unknown ⟨n, hmem, hn⟩ hreturns
  · intro hknown
    cases hs : start ename cfg init with
    | none => exact ⟨none, by rw [Returns, hs], fun s hs' => absurd (hs.symm.trans hs') nofun⟩
    | some s =>
      obtain ⟨hservers, hentry⟩ := start_servers hs
      obtain ⟨k', hvisits⟩ := visits_end q met (hknown s hs) s.entry s.evt
      obtain ⟨r, hr, hheld⟩ := step_end q met k'
        { s.evt with servers := addAll q s.evt.servers (attempts met s.entry (entries s.node)) }
      refine ⟨r, ?_, ?_⟩
      · rw [Returns, hs]
        exact ⟨_, hvisits, hr⟩
      · intro s' hs'
        obtain rfl := Option.some.inj (hs.symm.trans hs')
        rw [hheld, hservers, hentry]
        exact addAll_endpoints _

/-- An entry without a type, of the event "a" -/
def untyped : Node := ⟨[], none, .node [97] [] none (.node [48] [] none .null .null) .null⟩

/-- With one entry that has no type the call does not return. -/
theorem not_loads_untyped :
    ¬ Loads (mergeQsort Server) ⟨fun _ _ => some 16777343, fun _ => smooth⟩ (some [97]) (some untyped) true := by
  have hstart : start (some [97]) (some untyped) true =
      some ⟨.node [48] [] none .null .null, 0, ⟨[97], []⟩⟩ := by decide
  rintro ⟨r, hreturns, -⟩
  rw [Returns, hstart] at hreturns
  exact not_halts_of_unknown ⟨⟨[], none, .null⟩, List.mem_cons_self, by decide⟩ hreturns

end Cmoon.ClientConfigs
