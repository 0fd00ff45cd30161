import Cmoon.ChatDaemon
import Mathlib.Data.Finset.Card

/-! # The loads of the chat servers

The daemon counts the users of a server up and down, and a heart beat may only raise the count. With servers that say
what is true the count is the number of their users, until it does not go into an `unsigned int`. -/
namespace Cmoon.ChatLoads
open DecimalText Datasets ChatDaemon

inductive Change where
  | on (uin : Bytes)
  | off (uin : Bytes)
  | beat (num : Bytes)
  deriving DecidableEq

/-- A request that changes a load, and the server that it comes from. -/
def heard (q : Request) : Option (Bytes × Change) :=
  match q.operation with
  | .useron => (userParams q).toOption.map fun p => (p.1, .on p.2)
  | .useroff => (userParams q).toOption.map fun p => (p.1, .off p.2)
  | .hb => (beatParams q).toOption.map fun p => (p.1, .beat ((hdfGetValue q.hdfrcv "num_online").getD []))
  | _ => none

def said (srcx : Bytes) : Event → Option Change
  | .request q =>
    match heard q with
    | none => none
    | some (x, c) => if x = srcx then some c else none
  | .tick _ => none

/-- The messages of one server that have been processed: those it has sent, up to one of them. -/
def stream (srcx : Bytes) (events : List Event) : List Change := events.filterMap (said srcx)

def happens (on : Finset Bytes) : Change → Finset Bytes
  | .on uin => insert uin on
  | .off uin => on.erase uin
  | .beat _ => on

def usersAfter (changes : List Change) : Finset Bytes := changes.foldl happens ∅

/-- A user comes on that is off and goes off that is on, and a heart beat carries the number of those on. -/
def Says (on : Finset Bytes) : Change → Prop
  | .on uin => uin ∉ on
  | .off uin => uin ∈ on
  | .beat num => num = printNat on.card

/-- What holds of each message and the users on before it. -/
def Along (P : Finset Bytes → Change → Prop) : Finset Bytes → List Change → Prop
  | _, [] => True
  | on, c :: cs => P on c ∧ Along P (happens on c) cs

def Honest (changes : List Change) : Prop := Along Says ∅ changes

/-- At no time are `2 ^ 32` users on. -/
def Few (changes : List Change) : Prop := Along (fun on c => (happens on c).card < 2 ^ 32) ∅ changes

def loadAfter (n : ℕ) : Change → ℕ
  | .on _ => (n + 1) % 2 ^ 32
  | .off _ => n - 1
  | .beat text =>
    let num := wrap 32 (clamp 64 ((readInt text).getD 0))
    if n < num % 2 ^ 32 ∧ num < 0x00FFFFFF then (num % 2 ^ 32).toNat else n

variable {met : Surroundings} {d d' : Daemon} {e : Event} {q : Request} {events : List Event}

/-- A number that goes into an `unsigned int` is read from its text. -/
theorem beat_number {n : ℕ} (hn : n < 2 ^ 32) :
    wrap 32 (clamp 64 ((readInt (printNat n)).getD 0)) % 2 ^ 32 = n := by
  have hclamp : clamp 64 n = n := by
    unfold clamp
    omega
  rw [readInt_printNat, Option.getD_some, hclamp]
  have hmod : (wrap 32 n) % ((2 ^ 32 : ℕ) : ℤ) = n % ((2 ^ 32 : ℕ) : ℤ) := Int.bmod_emod
  omega

/-- What is true of the users before a message is true of them after it. -/
theorem loadAfter_card {on : Finset Bytes} {c : Change} (htrue : Says on c) (hfew : (happens on c).card < 2 ^ 32) :
    loadAfter on.card c = (happens on c).card := by
  cases c with
  | on uin =>
    change (on.card + 1) % 2 ^ 32 = (insert uin on).card
    change (insert uin on).card < 2 ^ 32 at hfew
    rw [Finset.card_insert_of_notMem htrue] at hfew ⊢
    exact Nat.mod_eq_of_lt hfew
  | off uin => exact (Finset.card_erase_of_mem htrue).symm
  | beat num =>
    -- the number of the heart beat is the load, and so not more
    change on.card < 2 ^ 32 at hfew
    change num = printNat on.card at htrue
    subst htrue
    unfold loadAfter
    dsimp only
    rw [beat_number hfew, if_neg]
    · rfl
    · exact fun h => lt_irrefl _ h.1

theorem beatParams_num {p : Bytes × ℤ} (h : beatParams q = .ok p) :
    p.2 = wrap 32 (clamp 64 ((readInt ((hdfGetValue q.hdfrcv "num_online").getD [])).getD 0)) := by
  unfold beatParams reqGetParamInt at h
  cases hsrcx : reqGetParamStr q.hdfrcv "srcx" with
  | error e =>
    rw [hsrcx] at h
    cases h
  | ok srcx =>
    rw [hsrcx] at h
    cases hnum : hdfGetValue q.hdfrcv "num_online" with
    | none =>
      rw [hnum] at h
      cases h
    | some text =>
      rw [hnum] at h
      cases h
      change hdfGetIntValue q.hdfrcv "num_online" 0 = _
      unfold hdfGetIntValue
      rw [hnum, Option.bind_some, Option.getD_some]
      cases readInt text with
      | none => rfl
      | some x => rfl

/-- The table after a request: the entry of the server that is heard has its load changed. -/
theorem requested_stbl (d : Daemon) (q : Request) :
    match heard q with
    | none => (requested d q).stbl = d.stbl
    | some (srcx, c) => ∃ f, (requested d q).stbl = updateSnake d.stbl srcx f ∧
        ∀ s, (f s).name = s.name ∧ (f s).numOnline = loadAfter s.numOnline c := by
  unfold requested heard
  cases q.operation with
  | useron =>
    cases userParams q with
    | error e => rfl
    | ok p => exact ⟨comesOn, rfl, fun s => ⟨rfl, rfl⟩⟩
  | useroff =>
    cases userParams q with
    | error e => rfl
    | ok p =>
      refine ⟨goesOff, rfl, fun s => ⟨rfl, ?_⟩⟩
      unfold goesOff loadAfter
      dsimp only
      split
      · rfl
      · omega
  | hb =>
    cases hp : beatParams q with
    | error e => rfl
    | ok p =>
      refine ⟨beats d.gTime p.2, rfl, fun s => ⟨rfl, ?_⟩⟩
      unfold beats loadAfter
      rw [beatParams_num hp]
  | msgsnd =>
    cases msgParams q with
    | error e => rfl
    | ok m => rfl
  | msgbrd => rfl
  | connect => rfl
  | state => rfl
  | other number => rfl

theorem said_request (x : Bytes) (q : Request) : said x (.request q) =
    match heard q with
    | none => none
    | some (y, c) => if y = x then some c else none := rfl

theorem requested_load {s' : SnakeEntry} (hs' : s' ∈ (requested d q).stbl) :
    ∃ s ∈ d.stbl, s.name = s'.name ∧ s'.numOnline = match said s'.name (.request q) with
      | none => s.numOnline
      | some c => loadAfter s.numOnline c := by
  have hstbl := requested_stbl d q
  cases hq : heard q with
  | none =>
    rw [hq] at hstbl
    change (requested d q).stbl = d.stbl at hstbl
    rw [hstbl] at hs'
    refine ⟨s', hs', rfl, ?_⟩
    rw [said_request, hq]
  | some p =>
    rw [hq] at hstbl
    obtain ⟨f, hstbl, hf⟩ := hstbl
    rw [hstbl] at hs'
    obtain ⟨s, hs, rfl⟩ := mem_updateSnake hs'
    refine ⟨s, hs, ?_⟩
    by_cases hname : s.name = p.1
    · rw [if_pos hname]
      refine ⟨(hf s).1.symm, ?_⟩
      rw [said_request, hq]
      dsimp only
      rw [if_pos ((hf s).1.trans hname).symm]
      exact (hf s).2
    · rw [if_neg hname]
      refine ⟨rfl, ?_⟩
      rw [said_request, hq]
      dsimp only
      rw [if_neg (Ne.symm hname)]

theorem step_load (h : step met d e = .ok d') {s' : SnakeEntry} (hs' : s' ∈ d'.stbl) :
    ∃ s ∈ d.stbl, s.name = s'.name ∧ s'.numOnline = match said s'.name e with
      | none => s.numOnline
      | some c => loadAfter s.numOnline c := by
  cases e with
  | request q =>
    rw [step_request h] at hs'
    exact requested_load hs'
  | tick now =>
    obtain ⟨-, rfl⟩ | ⟨-, slink, -, rfl⟩ := step_tick h
    · exact ⟨s', hs', rfl, rfl⟩
    · obtain ⟨s, hs, rfl⟩ := List.mem_map.mp hs'
      exact ⟨s, hs, rfl, rfl⟩

variable {P : Finset Bytes → Change → Prop}

theorem along_concat {on : Finset Bytes} {cs : List Change} {c : Change} :
    Along P on (cs ++ [c]) ↔ Along P on cs ∧ P (cs.foldl happens on) c := by
  induction cs generalizing on with
  | nil => exact ⟨fun h => ⟨trivial, h.1⟩, fun h => ⟨h.2, trivial⟩⟩
  | cons c' cs ih =>
    change P on c' ∧ Along P (happens on c') (cs ++ [c]) ↔ (P on c' ∧ Along P (happens on c') cs) ∧ _
    rw [ih, and_assoc]
    rfl

theorem stream_concat_none {srcx : Bytes} (h : said srcx e = none) : stream srcx (events ++ [e]) = stream srcx events := by
  unfold stream
  rw [List.filterMap_append, List.filterMap_cons_none h, List.filterMap_nil, List.append_nil]

theorem stream_concat_some {srcx : Bytes} {c : Change} (h : said srcx e = some c) :
    stream srcx (events ++ [e]) = stream srcx events ++ [c] := by
  unfold stream
  rw [List.filterMap_append, List.filterMap_cons_some h, List.filterMap_nil]

theorem usersAfter_concat (cs : List Change) (c : Change) : usersAfter (cs ++ [c]) = happens (usersAfter cs) c := by
  unfold usersAfter
  rw [List.foldl_append]
  rfl

/-- **Load counters count users**: after every run in which a server says what is true, its load is the number of the users
that were on there when it sent the last of its messages processed. -/
theorem numOnline_eq_card {met : Surroundings} {now : ℤ} {aped : List (Bytes × Option Bytes)} {events : List Event}
    {d : Daemon} (hrun : run met (extStartDriver met now aped) events = .ok d) {s : SnakeEntry} (hs : s ∈ d.stbl)
    (hhonest : Honest (stream s.name events)) (hfew : Few (stream s.name events)) :
    s.numOnline = (usersAfter (stream s.name events)).card := by
  induction events using List.reverseRecOn generalizing d s with
  | nil =>
    cases hrun
    obtain ⟨_, -, hs⟩ := List.mem_filterMap.mp (mem_start hs)
    obtain ⟨ename, -, rfl⟩ := Option.map_eq_some_iff.mp hs
    rfl
  | append_singleton events e ih =>
    obtain ⟨d₁, hrun₁, hstep⟩ := run_concat_eq_ok.mp hrun
    obtain ⟨s₁, hs₁, hname, hload⟩ := step_load hstep hs
    rw [hload]
    cases hsaid : said s.name e with
    | none =>
      rw [stream_concat_none hsaid, ← hname] at hhonest hfew ⊢
      exact ih hrun₁ hs₁ hhonest hfew
    | some c =>
      rw [stream_concat_some hsaid] at hhonest hfew ⊢
      obtain ⟨hhonest, htrue⟩ := along_concat.mp hhonest
      obtain ⟨hfew, hcard⟩ := along_concat.mp hfew
      rw [← hname] at hhonest hfew
      rw [usersAfter_concat]
      dsimp only
      rw [ih hrun₁ hs₁ hhonest hfew, hname]
      exact loadAfter_card htrue hcard

def oneServer : List (Bytes × Option Bytes) := [([48], some [97])]

/-- A user comes on, the server sends a heart beat, and the user goes off. -/
def visit : List Event := [.request (useron [97] [117]), .request (hb [97] [49]), .request (useroff [97] [117])]

theorem names_oneServer {events : List Event} {d : Daemon}
    (hrun : run plain (extStartDriver plain 0 oneServer) events = .ok d) {s : SnakeEntry} (hs : s ∈ d.stbl) :
    s.name = [97] := by
  have hname : s.name ∈ d.stbl.map (·.name) := List.mem_map_of_mem hs
  rw [run_names hrun] at hname
  exact List.mem_singleton.mp hname

theorem numOnline_visit : ∃ d, run plain (extStartDriver plain 0 oneServer) visit = .ok d ∧
    ∀ s ∈ d.stbl, s.numOnline = 0 := by
  refine ⟨_, rfl, ?_⟩
  intro s hs
  have hname := @names_oneServer visit _ rfl _ hs
  have hstream : stream s.name visit = [.on [117], .beat [49], .off [117]] := by
    rw [hname]
    decide
  have hcard : (usersAfter (stream s.name visit)).card = 0 := by
    rw [hstream]
    decide
  rw [← hcard]
  apply numOnline_eq_card rfl hs
  · rw [hstream]
    refine ⟨Finset.notMem_empty _, ?_, Finset.mem_insert_self _ _, trivial⟩
    change [49] = printNat 1
    decide
  · rw [hstream]
    refine ⟨?_, ?_, ?_, trivial⟩
    · decide
    · decide
    · decide

def crowd (n : ℕ) : List Event := (List.range n).map fun i => .request (useron [97] (printNat i))

theorem crowd_succ (n : ℕ) : crowd (n + 1) = crowd n ++ [.request (useron [97] (printNat n))] := by
  unfold crowd
  rw [List.range_succ, List.map_append]
  rfl

theorem printNat_injective : Function.Injective printNat := by
  intro m n h
  rw [← printInt_natCast, ← printInt_natCast] at h
  exact Int.ofNat_inj.mp (printInt_injective h)

theorem reqGetParamStr_of_value {hdf : Dataset} {key : String} {v : Bytes} (h : hdfGetValue hdf key = some v)
    (hv : v ≠ []) : reqGetParamStr hdf key = .ok v := by
  unfold reqGetParamStr nonempty
  rw [h, Option.filter_some, if_pos (decide_eq_true hv)]

theorem heard_useron {srcx uin : Bytes} (hsrcx : srcx ≠ []) (huin : uin ≠ []) :
    heard (useron srcx uin) = some (srcx, .on uin) := by
  have hparams : userParams (useron srcx uin) = .ok (srcx, uin) := by
    unfold userParams useron
    dsimp only
    rw [reqGetParamStr_of_value (v := srcx) rfl hsrcx, reqGetParamStr_of_value (v := uin) rfl huin]
    rfl
  unfold heard
  change (userParams (useron srcx uin)).toOption.map _ = _
  rw [hparams]
  rfl

theorem said_crowd (n : ℕ) : said [97] (.request (useron [97] (printNat n))) = some (.on (printNat n)) := by
  rw [said_request, heard_useron (List.cons_ne_nil _ _) (printNat_ne_nil n)]
  exact if_pos rfl

/-- The load of a crowd is kept in an `unsigned int`. -/
theorem run_crowd (n : ℕ) : ∃ d, run plain (extStartDriver plain 0 oneServer) (crowd n) = .ok d ∧
    ∀ s ∈ d.stbl, s.numOnline = n % 2 ^ 32 := by
  induction n with
  | zero =>
    refine ⟨_, rfl, ?_⟩
    intro s hs
    obtain rfl := List.mem_singleton.mp hs
    rfl
  | succ n ih =>
    obtain ⟨d, hrun, hload⟩ := ih
    have hstep := step_useron plain d (q := useron [97] (printNat n)) rfl
    have hrun' := run_concat_eq_ok.mpr ⟨d, hrun, hstep⟩
    rw [← crowd_succ] at hrun'
    refine ⟨_, hrun', ?_⟩
    intro s' hs'
    obtain ⟨s, hs, -, hs'load⟩ := step_load hstep hs'
    rw [hs'load, names_oneServer hrun' hs', said_crowd]
    change (s.numOnline + 1) % 2 ^ 32 = _
    rw [hload s hs, Nat.mod_add_mod]

theorem stream_crowd (n : ℕ) : stream [97] (crowd n) = (List.range n).map fun i => .on (printNat i) := by
  induction n with
  | zero => rfl
  | succ n ih =>
    rw [crowd_succ, stream_concat_some (said_crowd n), ih, List.range_succ, List.map_append]
    rfl

theorem usersAfter_crowd (n : ℕ) :
    usersAfter ((List.range n).map fun i => .on (printNat i)) = (Finset.range n).image printNat := by
  induction n with
  | zero => rfl
  | succ n ih =>
    rw [List.range_succ, List.map_append, List.map_singleton, usersAfter_concat, ih, Finset.range_add_one,
      Finset.image_insert]
    rfl

theorem honest_crowd (n : ℕ) : Honest ((List.range n).map fun i => .on (printNat i)) := by
  induction n with
  | zero => trivial
  | succ n ih =>
    rw [List.range_succ, List.map_append, List.map_singleton]
    refine along_concat.mpr ⟨ih, ?_⟩
    change printNat n ∉ usersAfter _
    rw [usersAfter_crowd, Finset.mem_image]
    rintro ⟨i, hi, hprint⟩
    rw [printNat_injective hprint] at hi
    exact Finset.notMem_range_self hi

/-- **But `2 ^ 32` users are counted as none.** -/
theorem not_numOnline_eq_card : ¬ ∀ (met : Surroundings) (now : ℤ) (aped : List (Bytes × Option Bytes))
    (events : List Event) (d : Daemon), run met (extStartDriver met now aped) events = .ok d →
      (∀ s ∈ d.stbl, Honest (stream s.name events)) →
        ∀ s ∈ d.stbl, s.numOnline = (usersAfter (stream s.name events)).card := by
  intro h
  have hcount : ∀ n, n % 2 ^ 32 = n := by
    intro n
    obtain ⟨d, hrun, hload⟩ := run_crowd n
    have hstream : ∀ s ∈ d.stbl, stream s.name (crowd n) = (List.range n).map fun i => .on (printNat i) := by
      intro s hs
      rw [names_oneServer hrun hs, stream_crowd]
    obtain ⟨s, hs⟩ : ∃ s, s ∈ d.stbl := by
      apply List.exists_mem_of_ne_nil
      intro hnil
      have hnames := run_names hrun
      rw [hnil] at hnames
      cases hnames
    have hhonest : ∀ s ∈ d.stbl, Honest (stream s.name (crowd n)) := by
      intro s hs
      rw [hstream s hs]
      exact honest_crowd n
    have hcard := h plain 0 oneServer _ d hrun hhonest s hs
    rwa [hload s hs, hstream s hs, usersAfter_crowd, Finset.card_image_of_injective _ printNat_injective,
      Finset.card_range] at hcard
  have hnone := hcount (2 ^ 32)
  rw [Nat.mod_self] at hnone
  omega

end Cmoon.ChatLoads
