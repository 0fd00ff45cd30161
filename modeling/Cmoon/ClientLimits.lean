import Cmoon.Datasets
import Cmoon.MemcachedCounters
import Cmoon.StatementTexts

/-! # Client limits

`mutil_client_attack` counts a call twice in memcached, under the cookie of the client and under its address, and refuses
it when one of the counters has reached the limit. -/
namespace Cmoon.ClientLimits
open DecimalText Datasets RequestPrograms MemcachedCounters StatementTexts

def serverAt (mc : Memcached) (now : ℤ) : Server mc.State McCommand McReply Empty where
  exec := mc.exec now
  drift _ d := d.elim

/-- `"%s.%s.%s"` with `PRE_MMC_CLIENT`, as far as a key of memcached goes. -/
def clientKey (action client : Bytes) : Bytes :=
  (ascii "Client" ++ 46 :: action ++ 46 :: client).take 255

def cookie (hdf : Dataset) (cname : String) : Bytes := (hdfGetValue hdf ("Cookie." ++ cname)).getD []

def address (hdf : Dataset) : Bytes := (hdfGetValue hdf "CGI.RemoteAddress").getD (ascii "unknownHost")

def tired (hdf : Dataset) (cntcn limit : ℕ) (exp : ℤ) : Dataset :=
  hdfSetIntValue (hdfSetIntValue (hdfSetIntValue hdf "Output.tired" (wrap 32 cntcn)) "Output.limit" (wrap 32 limit))
    "Output.during" (wrap 32 exp)

def afterCounts (hdf : Dataset) (limit : ℕ) (exp : ℤ) (cntcn cntip : ℕ) : Bool × Dataset :=
  if limit ≤ cntcn ∨ limit ≤ cntip then (true, tired hdf cntcn limit exp) else (false, hdf)

def mutilClientAttack (hdf : Dataset) (action : Bytes) (cname : String) (limit : ℕ) (exp : ℤ) :
    Program McCommand McReply ℕ (Bool × Dataset) :=
  (mmcCount .inc (clientKey action (cookie hdf cname)) 1 exp).bind fun cn =>
    (mmcCount .inc (clientKey action (address hdf)) 1 exp).bind fun ip =>
      .done (afterCounts hdf limit exp cn.2 ip.2)

structure Call where
  now : ℤ
  hdf : Dataset
  action : Bytes
  cname : String
  limit : ℕ
  exp : ℤ
  deriving DecidableEq

def Call.program (c : Call) : Program McCommand McReply ℕ (Bool × Dataset) :=
  mutilClientAttack c.hdf c.action c.cname c.limit c.exp

def Call.cookieKey (c : Call) : Bytes := clientKey c.action (cookie c.hdf c.cname)

def Call.addressKey (c : Call) : Bytes := clientKey c.action (address c.hdf)

def Call.Legal (c : Call) : Prop := LegalKey c.cookieKey ∧ LegalKey c.addressKey

instance (c : Call) : Decidable c.Legal := inferInstanceAs (Decidable (_ ∧ _))

section Runs
variable (mc : Memcached) (m : mc.State)

def after (calls : List Call) : mc.State := calls.foldl (fun m c => ((serverAt mc c.now).complete m c.program).2) m

def verdict (calls : List Call) (c : Call) : Bool := ((serverAt mc c.now).complete (after mc m calls) c.program).1.1

def ownCalls (c : Call) (calls : List Call) : List Call := calls.filter fun d => address d.hdf = address c.hdf

/-- No call comes before one that it follows. -/
def InOrder (calls : List Call) : Prop := calls.Pairwise fun d c => d.now ≤ c.now

instance (calls : List Call) : Decidable (InOrder calls) := inferInstanceAs (Decidable (List.Pairwise _ _))

def raised (now : ℤ) (key : Bytes) : ℕ := (incremented mc.missing 1 (mc.held now m key)).value

/-- A call that the counter of all clients without a cookie does not refuse, where no call from elsewhere is counted
under its address. -/
structure PerClient (calls : List Call) (c : Call) : Prop where
  legal : ∀ d ∈ calls ++ [c], d.Legal
  apart : ∀ d ∈ calls, address d.hdf ≠ address c.hdf → d.cookieKey ≠ c.addressKey ∧ d.addressKey ≠ c.addressKey
  below : raised mc (after mc m calls) c.now (clientKey c.action []) < c.limit

end Runs

variable {mc : Memcached} {now later : ℤ} {key : Bytes} {m m' m'' : mc.State}

/-- From a time on both hold the same under a key. -/
def AgreeOn (mc : Memcached) (now : ℤ) (key : Bytes) (m m' : mc.State) : Prop :=
  ∀ t, now ≤ t → mc.held t m key = mc.held t m' key

theorem AgreeOn.refl : AgreeOn mc now key m m := fun _ _ => rfl

theorem AgreeOn.symm (h : AgreeOn mc now key m m') : AgreeOn mc now key m' m := fun t ht => (h t ht).symm

theorem AgreeOn.trans (h : AgreeOn mc now key m m') (h' : AgreeOn mc now key m' m'') : AgreeOn mc now key m m'' :=
  fun t ht => (h t ht).trans (h' t ht)

theorem AgreeOn.mono (h : AgreeOn mc now key m m') (hlater : now ≤ later) : AgreeOn mc later key m m' :=
  fun t ht => h t (hlater.trans ht)

theorem AgreeOn.raised (h : AgreeOn mc now key m m') : raised mc m now key = raised mc m' now key := by
  unfold ClientLimits.raised
  rw [h now le_rfl]

def CountsOne (key : Bytes) (c : McCommand) : Prop := c = .increment key 1 ∨ ∃ exp, c = .set key (printNat 1) exp

theorem commands_mmcCount_one (key : Bytes) (exp : ℤ) :
    (mmcCount .inc key 1 exp).Commands fun c _ => CountsOne key c := by
  refine ⟨.inl rfl, ?_⟩
  intro r
  unfold afterCount
  split
  · have htext : offsetText 1 = printNat 1 := by decide
    rw [htext]
    exact ⟨.inr ⟨exp, rfl⟩, fun _ => trivial⟩
  · trivial

theorem CountsOne.key_eq {c : McCommand} (h : CountsOne key c) : c.key = key := by
  obtain rfl | ⟨exp, rfl⟩ := h
  · rfl
  · rfl

/-- A command is answered, and done, by what is held under its key. -/
theorem agreeOn_exec {c : McCommand} (hc : CountsOne key c) (hkey : LegalKey key) (h : AgreeOn mc now key m m') :
    (mc.exec now m c).1 = (mc.exec now m' c).1 ∧ AgreeOn mc now key (mc.exec now m c).2 (mc.exec now m' c).2 := by
  obtain rfl | ⟨exp, rfl⟩ := hc
  · constructor
    · rw [mc.exec_increment _ _ _ hkey, mc.exec_increment _ _ _ hkey, h now le_rfl]
    · intro t ht
      rw [mc.held_increment _ _ hkey ht, mc.held_increment _ _ hkey ht, h t ht]
  · have hone : 1 < 2 ^ 64 := by decide
    constructor
    · rw [mc.exec_set _ _ _ hkey hone, mc.exec_set _ _ _ hkey hone]
    · intro t ht
      rw [mc.held_set _ _ hkey hone ht, mc.held_set _ _ hkey hone ht]

theorem agreeOn_count_of_ne {k : Bytes} (hlegal : LegalKey k) (hkey : LegalKey key) (hk : k ≠ key) (m : mc.State)
    (exp : ℤ) : AgreeOn mc now key ((serverAt mc now).complete m (mmcCount .inc k 1 exp)).2 m := by
  apply Server.complete_keeps (I := fun m' => AgreeOn mc now key m' m) _ (commands_mmcCount_one k exp)
  · exact .refl
  · intro c note m' hc h
    have hother : AgreeOn mc now key (mc.exec now m' c).2 m' := fun t ht =>
      mc.held_of_ne _ (hc.key_eq.symm ▸ hlegal) hkey (hc.key_eq.trans_ne hk) ht
    exact hother.trans h

theorem agreeOn_count_of_eq (hkey : LegalKey key) (h : AgreeOn mc now key m m') (exp : ℤ) :
    ((serverAt mc now).complete m (mmcCount .inc key 1 exp)).1 =
        ((serverAt mc now).complete m' (mmcCount .inc key 1 exp)).1 ∧
      AgreeOn mc now key ((serverAt mc now).complete m (mmcCount .inc key 1 exp)).2
        ((serverAt mc now).complete m' (mmcCount .inc key 1 exp)).2 := by
  refine @Server.complete_alike _ _ _ _ _ _ (serverAt mc now) _ (AgreeOn mc now key) ?_ _ (commands_mmcCount_one key exp)
    m m' h
  intro c note s s' hc hagree
  exact agreeOn_exec hc hkey hagree

theorem agreeOn_count {k : Bytes} (hlegal : LegalKey k) (hkey : LegalKey key) (h : AgreeOn mc now key m m') (exp : ℤ) :
    AgreeOn mc now key ((serverAt mc now).complete m (mmcCount .inc k 1 exp)).2
      ((serverAt mc now).complete m' (mmcCount .inc k 1 exp)).2 := by
  by_cases hk : k = key
  · subst hk
    exact (agreeOn_count_of_eq hkey h exp).2
  · exact ((agreeOn_count_of_ne hlegal hkey hk m exp).trans h).trans (agreeOn_count_of_ne hlegal hkey hk m' exp).symm

theorem complete_count_value (hkey : LegalKey key) (m : mc.State) (exp : ℤ) :
    ((serverAt mc now).complete m (mmcCount .inc key 1 exp)).1.2 = raised mc m now key := by
  have hafter : ∀ r m', ((serverAt mc now).complete m' (afterCount key 1 exp r)).1.2 = r.value := by
    intro r m'
    unfold afterCount
    split
    · rfl
    · rfl
  refine (hafter _ _).trans ?_
  exact congrArg McReply.value (mc.exec_increment now m 1 hkey)

variable {c : Call} {calls calls' : List Call}

/-- The memcached of a call after its first counter. -/
def afterCookie (mc : Memcached) (m : mc.State) (c : Call) : mc.State :=
  ((serverAt mc c.now).complete m (mmcCount .inc c.cookieKey 1 c.exp)).2

theorem complete_program_state (m : mc.State) (c : Call) :
    ((serverAt mc c.now).complete m c.program).2 =
      ((serverAt mc c.now).complete (afterCookie mc m c) (mmcCount .inc c.addressKey 1 c.exp)).2 := by
  unfold Call.program mutilClientAttack
  rw [Server.complete_bind, Server.complete_bind]
  rfl

theorem complete_program_verdict (hc : c.Legal) (m : mc.State) :
    ((serverAt mc c.now).complete m c.program).1.1 = true ↔
      c.limit ≤ raised mc m c.now c.cookieKey ∨ c.limit ≤ raised mc (afterCookie mc m c) c.now c.addressKey := by
  rw [← complete_count_value hc.1 m c.exp, ← complete_count_value hc.2 (afterCookie mc m c) c.exp]
  unfold Call.program mutilClientAttack
  rw [Server.complete_bind, Server.complete_bind]
  change (afterCounts _ _ _ _ _).1 = true ↔ _
  unfold afterCounts
  split
  · rename_i h
    exact iff_of_true rfl h
  · rename_i h
    exact iff_of_false Bool.false_ne_true h

theorem agreeOn_call (hc : c.Legal) (hkey : LegalKey key) (h : AgreeOn mc c.now key m m') :
    AgreeOn mc c.now key ((serverAt mc c.now).complete m c.program).2 ((serverAt mc c.now).complete m' c.program).2 := by
  rw [complete_program_state, complete_program_state]
  exact agreeOn_count hc.2 hkey (agreeOn_count hc.1 hkey h c.exp) c.exp

theorem agreeOn_call_of_ne (hc : c.Legal) (hkey : LegalKey key) (hne : c.cookieKey ≠ key ∧ c.addressKey ≠ key)
    (m : mc.State) : AgreeOn mc c.now key ((serverAt mc c.now).complete m c.program).2 m := by
  rw [complete_program_state]
  exact (agreeOn_count_of_ne hc.2 hkey hne.2 _ _).trans (agreeOn_count_of_ne hc.1 hkey hne.1 m _)

/-- What a run makes of the key of an address depends on the calls from there only. -/
theorem agreeOn_after_own (hkey : LegalKey c.addressKey) (hlegal : ∀ d ∈ calls, d.Legal)
    (hapart : ∀ d ∈ calls, address d.hdf ≠ address c.hdf →
      d.cookieKey ≠ c.addressKey ∧ d.addressKey ≠ c.addressKey)
    (horder : InOrder calls) (hnow : ∀ d ∈ calls, now ≤ d.now) (hlast : ∀ d ∈ calls, d.now ≤ later) (hlater : now ≤ later)
    (h : AgreeOn mc now c.addressKey m m') :
    AgreeOn mc later c.addressKey (after mc m calls) (after mc m' (ownCalls c calls)) := by
  induction calls generalizing now m m' with
  | nil => exact h.mono hlater
  | cons d calls ih =>
    obtain ⟨hfirst, horder⟩ := List.pairwise_cons.mp horder
    obtain ⟨hd, hlegal⟩ := List.forall_mem_cons.mp hlegal
    obtain ⟨hdapart, hapart⟩ := List.forall_mem_cons.mp hapart
    obtain ⟨hdlast, hlast⟩ := List.forall_mem_cons.mp hlast
    have hthen : AgreeOn mc d.now c.addressKey m m' := h.mono (hnow d List.mem_cons_self)
    by_cases hown : address d.hdf = address c.hdf
    · rw [ownCalls, List.filter_cons_of_pos (by rwa [decide_eq_true_eq])]
      exact ih hlegal hapart horder hfirst hlast hdlast (agreeOn_call hd hkey hthen)
    · rw [ownCalls, List.filter_cons_of_neg (by rwa [decide_eq_true_eq])]
      exact ih hlegal hapart horder hfirst hlast hdlast ((agreeOn_call_of_ne hd hkey (hdapart hown) m).trans hthen)

theorem cookieKey_of_none (hcookie : hdfGetValue c.hdf ("Cookie." ++ c.cname) = none) :
    c.cookieKey = clientKey c.action [] := by
  unfold Call.cookieKey cookie
  rw [hcookie]
  rfl

theorem PerClient.own_legal (h : PerClient mc m calls c) : c.Legal :=
  h.legal c (List.mem_append_right _ List.mem_cons_self)

theorem verdict_of_ne (hcookie : hdfGetValue c.hdf ("Cookie." ++ c.cname) = none) (hne : c.cookieKey ≠ c.addressKey)
    (h : PerClient mc m calls c) :
    verdict mc m calls c = true ↔ c.limit ≤ raised mc (after mc m calls) c.now c.addressKey := by
  have hkept : raised mc (afterCookie mc (after mc m calls) c) c.now c.addressKey =
      raised mc (after mc m calls) c.now c.addressKey :=
    (agreeOn_count_of_ne h.own_legal.1 h.own_legal.2 hne _ _).raised
  have hbelow := h.below
  rw [← cookieKey_of_none hcookie] at hbelow
  unfold verdict
  rw [complete_program_verdict h.own_legal, hkept, or_iff_right (not_le.mpr hbelow)]

theorem verdict_of_eq (hc : c.Legal) (heq : c.cookieKey = c.addressKey)
    (hagree : AgreeOn mc c.now c.addressKey (after mc m calls) (after mc m' calls')) :
    verdict mc m calls c = true ↔ verdict mc m' calls' c = true := by
  have hcookie : AgreeOn mc c.now c.addressKey (afterCookie mc (after mc m calls) c)
      (afterCookie mc (after mc m' calls') c) := agreeOn_count hc.1 hc.2 hagree _
  unfold verdict
  rw [complete_program_verdict hc, complete_program_verdict hc, heq, hagree.raised, hcookie.raised]

/-- Of the calls before one, those from its address are what its counter comes from. -/
theorem PerClient.agreeOn_own (h : PerClient mc m calls c) (horder : InOrder (calls ++ [c])) :
    AgreeOn mc c.now c.addressKey (after mc m calls) (after mc m (ownCalls c calls)) := by
  obtain ⟨hbefore, -, hlast⟩ := List.pairwise_append.mp horder
  have hnow : ∀ d ∈ calls, d.now ≤ c.now := fun d hd => hlast d hd c List.mem_cons_self
  have hlegal : ∀ d ∈ calls, d.Legal := fun d hd => h.legal d (List.mem_append_left _ hd)
  cases calls with
  | nil => exact .refl
  | cons d calls =>
    have hfirst : ∀ e ∈ d :: calls, d.now ≤ e.now := by
      intro e he
      obtain rfl | he := List.mem_cons.mp he
      · exact le_rfl
      · exact (List.pairwise_cons.mp hbefore).1 e he
    exact agreeOn_after_own h.own_legal.2 hlegal h.apart hbefore hfirst hnow (hnow d List.mem_cons_self) .refl

/-- **Rate limiting is per client** for calls that the common counter does not refuse: what is answered to a client without
a cookie depends on the earlier calls from its own address only. -/
theorem verdict_own (mc : Memcached) {m : mc.State} {calls calls' : List Call} {c : Call}
    (hcookie : hdfGetValue c.hdf ("Cookie." ++ c.cname) = none) (hown : ownCalls c calls = ownCalls c calls')
    (horder : InOrder (calls ++ [c])) (horder' : InOrder (calls' ++ [c])) (h : PerClient mc m calls c)
    (h' : PerClient mc m calls' c) : verdict mc m calls c = verdict mc m calls' c := by
  have hagree : AgreeOn mc c.now c.addressKey (after mc m calls) (after mc m calls') := by
    have hcalls := h.agreeOn_own horder
    rw [hown] at hcalls
    exact hcalls.trans (h'.agreeOn_own horder').symm
  rw [Bool.eq_iff_iff]
  by_cases heq : c.cookieKey = c.addressKey
  · exact verdict_of_eq h.own_legal heq hagree
  · rw [verdict_of_ne hcookie heq h, verdict_of_ne hcookie heq h', hagree.raised]

/-- A call without a cookie, of which three a minute are refused. -/
def callFrom (ip : UInt8) : Call := ⟨0, [("CGI.RemoteAddress", some [ip])], [], "lcs_uname", 3, 60⟩

def noKeys : (plain 0).State := fun _ => none

/-- One call from elsewhere. -/
theorem verdict_one :
    verdict (plain 0) noKeys [callFrom 49] (callFrom 50) = verdict (plain 0) noKeys [] (callFrom 50) := by
  apply verdict_own (plain 0)
  · decide
  · decide
  · decide
  · decide
  · constructor
    · decide +kernel
    · intro d hd _
      rw [List.mem_singleton.mp hd]
      decide
    · decide
  · constructor
    · decide +kernel
    · exact List.forall_mem_nil _
    · decide

/-- **But two calls from elsewhere** take the counter of those without a cookie so far that the third is refused. -/
theorem not_verdict_own : ¬ ∀ (m : (plain 0).State) (calls calls' : List Call) (c : Call),
    (∀ d ∈ calls ++ (calls' ++ [c]), d.Legal) → hdfGetValue c.hdf ("Cookie." ++ c.cname) = none →
      ownCalls c calls = ownCalls c calls' → InOrder (calls ++ [c]) → InOrder (calls' ++ [c]) →
        verdict (plain 0) m calls c = verdict (plain 0) m calls' c := by
  intro h
  have hlegal : ∀ d ∈ [callFrom 49, callFrom 49] ++ ([] ++ [callFrom 50]), d.Legal := by decide +kernel
  have hsame := h noKeys [callFrom 49, callFrom 49] [] (callFrom 50) hlegal (by decide) (by decide) (by decide) (by decide)
  revert hsame
  decide

end Cmoon.ClientLimits
