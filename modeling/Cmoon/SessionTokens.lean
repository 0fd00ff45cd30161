import Cmoon.MemberRequests
import Mathlib.Data.Set.Function

/-! # Session tokens over whole runs

Logins, registrations, reset links, logouts and login checks of any number of clients run
over one member plugin, one command at a time. A login check should pass only for the token
of the last login of its member, and for none after a logout. The column `mmsn` keeps the
tokens; what a member without a session has in it can be presented as a token, too. -/
namespace Cmoon.SessionTokens
open DecimalText Datasets StatementBuilding MemberTables NameHashing MemberPlugin MemberCommands
  MemberRequests RequestPrograms

/-- The requests of a session, with the draws the server makes for them. -/
inductive SessionRequest where
  | login (req : Request) (mmsn : RandString lenCk)
  | registration (req : Request) (mmsn : RandString lenCk)
  | reset (req : Request) (rlink : RandString lenCk)
  | pass (req : Request) (mmsn : RandString lenCk)
  | logout (req : Request)
  | checkLogin (req : Request)

def SessionRequest.handler : SessionRequest → Handler Response
  | .login req mmsn => memberLoginDataGet req mmsn
  | .registration req mmsn => memberNewDataAdd req mmsn
  | .reset req rlink => memberResetDataGet req rlink
  | .pass req mmsn => memberPassDataGet req mmsn
  | .logout req => memberLogoutDataGet req
  | .checkLogin req => (memberCheckLoginDataGet req).bind fun result => .done (result.map fun _ => ⟨[], []⟩)

abbrev SessionPool := Pool MemberEntry Command Reply Note (Except Failure Response)
abbrev SessionMove := Move Command Reply Note (Except Failure Response) Expiry

def sessionStep (mname : Bytes) (session : Option Bytes) : Note → Option Bytes
  | .login mname' mmsn => if mname' = mname then some mmsn else session
  | .logout mname' => if mname' = mname then none else session
  | .check _ _ _ => session

/-- The token of the last login of a member that no logout has followed. -/
def session (mname : Bytes) (log : List Note) : Option Bytes := log.foldl (sessionStep mname) none

theorem session_append (mname : Bytes) (log : List Note) (note : Note) :
    session mname (log ++ [note]) = sessionStep mname (session mname log) note := by
  rw [session, List.foldl_append]
  rfl

/-- Every check that passed was for the token of the session at that moment. -/
def TokenNeeded (log : List Note) : Prop :=
  ∀ before mname mmsn after, log = before ++ .check mname mmsn true :: after →
    session mname before = some mmsn

theorem tokenNeeded_append {log : List Note} (h : TokenNeeded log) {note : Note}
    (hnote : ∀ mname mmsn, note = .check mname mmsn true → session mname log = some mmsn) :
    TokenNeeded (log ++ [note]) := by
  intro before mname mmsn after heq
  obtain rfl | ⟨after, last, rfl⟩ := List.eq_nil_or_concat after
  · obtain ⟨rfl, hlast⟩ := List.append_inj' heq rfl
    exact hnote mname mmsn (by simpa using hlast)
  · rw [List.concat_eq_append, ← List.cons_append, ← List.append_assoc] at heq
    obtain ⟨hlog, -⟩ := List.append_inj' heq rfl
    exact h before mname mmsn after hlog

/-- The column in the row under the hash of a name. -/
def mmsnColumn (e : MemberEntry) (mname : Bytes) : Option Bytes :=
  (e.db.member (hashStringRev mname)).map fun row => (row "mmsn").print

/-- What a member without a session has in the column: the default, or what a logout writes. -/
def noSession : List Bytes := [[], [48]]

/-- The steps of a run in which a token is needed: the drawn tokens are not empty, no check
presents the mark of a member without session while the column holds it, no registration brings
a token of its own to a new row, and names that differ have rows that differ. -/
structure Proper (named : Set Bytes) (e : MemberEntry) (c : Command) (notes : List Note) : Prop where
  drawn : ∀ mname mmsn, .login mname mmsn ∈ notes → mmsn ≠ []
  presented : ∀ mname mmsn passed, .check mname mmsn passed ∈ notes → mmsn ∈ noSession →
    mmsnColumn e mname ≠ some mmsn
  registered : c.operation = .memberAdd → nonempty c.hdfsnd "mmsn" = none ∨
    ∃ mname, nonempty c.hdfsnd "mname" = some mname ∧ (e.db.member (hashStringRev mname)).isSome
  loginNamed : ∀ mname mmsn, .login mname mmsn ∈ notes → mname ∈ named
  checkNamed : ∀ mname mmsn passed, .check mname mmsn passed ∈ notes → mname ∈ named

/-- The column holds the token of the session or the mark of no session. -/
structure SessionInv (named : Set Bytes) (e : MemberEntry) (log : List Note) : Prop where
  coherent : Coherent e
  column : ∀ {mid row}, e.db.member mid = some row → ∃ mmsn, row "mmsn" = .text mmsn ∧
    (mmsn ∈ noSession ∨ ∃ mname ∈ named, mname ≠ [] ∧ (hashStringRev mname : ℤ) = mid ∧
      session mname log = some mmsn)
  needed : TokenNeeded log

/-- Nobody is logged in: at the start every column holds the mark of no session. -/
def LoggedOut (db : Database) : Prop :=
  ∀ mid row, db.member mid = some row → ∃ mmsn ∈ noSession, row "mmsn" = .text mmsn

theorem sessionInv_start {named : Set Bytes} {db : Database} (h : LoggedOut db) :
    SessionInv named (start db) [] := by
  refine ⟨coherent_start db, fun {mid row} hrow => ?_, fun before mname mmsn after heq => by simp at heq⟩
  obtain ⟨mmsn, hmark, htext⟩ := h mid row hrow
  exact ⟨mmsn, htext, .inl hmark⟩

/-- The commands that the requests of a session trigger. -/
inductive SessionCommand : Command → (Reply → List Note) → Prop where
  | check (cred : Credentials) : SessionCommand ⟨.memberGet, [("mname", some cred.mname)]⟩
      fun reply => [.check cred.mname cred.mmsn (decide (Passed cred reply))]
  | login (mname : Bytes) (mmsn : RandString lenCk) :
      SessionCommand ⟨.memberUp, [("mmsn", some mmsn.text), ("mname", some mname)]⟩
        fun _ => [.login mname mmsn.text]
  | logout (mname : Bytes) :
      SessionCommand ⟨.memberUp, [("mmsn", some [48]), ("mname", some mname)]⟩ fun _ => [.logout mname]
  | silent (c : Command) (hup : c.operation ≠ .memberUp) : SessionCommand c fun _ => []

theorem commands_afterLogin (req : Request) (mname : Bytes) (mnick : Option Bytes) (mmsn : RandString lenCk) :
    (memberAfterLogin req mname mnick mmsn).Commands SessionCommand :=
  ⟨.login mname mmsn, fun _ => trivial⟩

theorem commands_memberCheckLogin {O : Type} (req : Request) {next : Bytes → Handler O}
    (h : ∀ mname, (next mname).Commands SessionCommand) : (memberCheckLogin req next).Commands SessionCommand := by
  refine Program.commands_bind (commands_checkLogin fun cred _ => .check cred) fun result => ?_
  rcases result with failure | _ | mname
  · trivial
  · trivial
  · exact h mname

theorem commands_handler (r : SessionRequest) : r.handler.Commands SessionCommand := by
  cases r with
  | login req mmsn =>
    refine commands_hdfGetStr fun mname _ => commands_hdfGetStr fun msn _ =>
      commands_meventTrigger (.silent _ (by simp)) fun hdfrcv => ?_
    split
    · trivial
    · split
      · exact commands_afterLogin ..
      · trivial
  | registration req mmsn =>
    exact commands_hdfGetStr fun mnick _ => commands_hdfGetStr fun mname _ =>
      commands_meventTrigger (.silent _ (by simp)) fun _ => commands_afterLogin ..
  | reset req rlink =>
    exact commands_hdfGetStr fun mname _ => commands_meventTrigger (.silent _ (by simp)) fun _ => trivial
  | pass req mmsn =>
    simp only [SessionRequest.handler, memberPassDataGet]
    split
    · apply commands_meventTrigger (.silent _ (by simp))
      intro hdfrcv
      split
      · exact commands_afterLogin ..
      · trivial
    · exact commands_memberCheckLogin req fun _ => trivial
  | logout req => exact commands_memberCheckLogin req fun mname => ⟨.logout mname, fun _ => trivial⟩
  | checkLogin req =>
    exact Program.commands_bind (commands_checkLogin fun cred _ => .check cred) fun _ => trivial

/-- The server takes a short text of printable characters in the token column. -/
def TakesTokens (accepts : Assignments → Bool) : Prop :=
  ∀ mmsn : Bytes, mmsn.length ≤ 256 → (∀ c ∈ mmsn, 32 ≤ c ∧ c < 127) →
    accepts [("mmsn", .str mmsn (some 256))] = true

/-- What a login or a logout writes. -/
structure Printable (mmsn : Bytes) : Prop where
  ne_nil : mmsn ≠ []
  short : mmsn.length ≤ 256
  chars : ∀ c ∈ mmsn, 32 ≤ c ∧ c < 127

theorem printable_token {mmsn : RandString lenCk} (h : mmsn.text ≠ []) : Printable mmsn.text := by
  refine ⟨h, ?_, fun c hc => ?_⟩
  · have hsize := mmsn.size.isLt
    rw [mmsn.length_text]
    simp only [lenCk] at hsize
    omega
  · obtain ⟨hlow, hhigh⟩ := mmsn.letters c hc
    simp only [UInt8.le_iff_toNat_le, UInt8.lt_iff_toNat_lt] at hlow hhigh ⊢
    simp at hlow hhigh ⊢
    omega

theorem printable_logout : Printable [48] :=
  ⟨by simp, by simp, List.forall_mem_singleton.mpr (by decide)⟩

def tokenUp (mmsn mname : Bytes) : Dataset := [("mmsn", some mmsn), ("mname", some mname)]

theorem givenCols_tokenUp {mmsn : Bytes} (h : mmsn ≠ []) (mname : Bytes) :
    givenCols (tokenUp mmsn mname) updateColMember = [("mmsn", .str mmsn (some 256))] := by
  simp [givenCols, tokenUp, updateColMember, strCol, intCol, nonempty, hdfGetValue_cons, h, ColumnSpec.literal]

/-- A reply with a token comes from the row under the hash of the name. -/
theorem row_of_passed {e : MemberEntry} (h : Coherent e) {cred : Credentials}
    (hp : Passed cred (memberCmdMemGet e [("mname", some cred.mname)]).reply) :
    cred.mname ≠ [] ∧ ∃ row, e.db.member (hashStringRev cred.mname) = some row ∧ (row "mmsn").print = cred.mmsn := by
  obtain ⟨d, hreply, htoken⟩ := hp
  have hmid : hdfGetValue [("mname", some cred.mname)] "mid" = none := by simp [hdfGetValue_cons]
  by_cases hname : cred.mname = []
  · rw [memberCmdMemGet_error (memberGetParamMid_none hmid (by simp [nonempty, hdfGetValue_cons, hname]))] at hreply
    cases hreply
  have hnonempty : nonempty [("mname", some cred.mname)] "mname" = some cred.mname := by
    simp [nonempty, hdfGetValue_cons, hname]
  have hparam := memberGetParamMid_mname hmid hnonempty
  cases hrow : e.db.member (hashStringRev cred.mname) with
  | none =>
    rw [memberCmdMemGet_none h hparam hrow] at hreply
    cases hreply
  | some row =>
    obtain ⟨d', e', hget, hshow, -, -⟩ := memberCmdMemGet_some h hparam hrow
    rw [hget] at hreply
    cases hreply
    have hcol := hshow "mmsn" (by decide) (by decide)
    exact ⟨hname, row, rfl, Option.some.inj (hcol.symm.trans htoken)⟩

section Step
variable {accepts : Assignments → Bool} (htakes : TakesTokens accepts)
include htakes

/-- Such an update sets the column under the hash of the name, and changes no other row. -/
theorem row_tokenUp {e : MemberEntry} (h : Coherent e) {mmsn mname : Bytes} (hp : Printable mmsn)
    {mid : ℤ} {row : Row}
    (hrow : (memberCmdMemUp accepts e (tokenUp mmsn mname)).entry.db.member mid = some row) :
    (mid = hashStringRev mname ∧ mname ≠ [] ∧ row "mmsn" = .text mmsn) ∨
      (e.db.member mid = some row ∧ (mname ≠ [] → mid ≠ hashStringRev mname)) := by
  have hcols := givenCols_tokenUp hp.ne_nil mname
  have hmid : hdfGetValue (tokenUp mmsn mname) "mid" = none := by simp [tokenUp, hdfGetValue_cons]
  by_cases hname : mname = []
  · have hfail : memberCmdMemUp accepts e (tokenUp mmsn mname) = .fail e (.badparam "mname") := by
      rw [memberCmdMemUp, memberGetParamMid_none hmid (by simp [nonempty, tokenUp, hdfGetValue_cons, hname])]
    rw [hfail] at hrow
    exact .inr ⟨hrow, fun hne => (hne hname).elim⟩
  have hnonempty : nonempty (tokenUp mmsn mname) "mname" = some mname := by
    simp [nonempty, tokenUp, hdfGetValue_cons, hname]
  have hparam := memberGetParamMid_mname hmid hnonempty
  by_cases heq : mid = hashStringRev mname
  · left
    refine ⟨heq, hname, ?_⟩
    obtain ⟨old, hold⟩ : ∃ old, e.db.member mid = some old := by
      rcases memberCmdMemUp_row h hrow with hsame | ⟨_, old, -, hold, -⟩
      · exact ⟨row, hsame⟩
      · exact ⟨old, hold⟩
    have hacc : accepts (givenCols (tokenUp mmsn mname) updateColMember) = true := by
      rw [hcols]
      exact htakes mmsn hp.short hp.chars
    have hup := memberCmdMemUp_updates h (heq ▸ hparam) hold (by simp [hcols]) hacc
    rw [hrow, hcols] at hup
    rw [Option.some.inj hup]
    exact congrArg Value.text (varchar_of_length_le hp.short)
  · right
    refine ⟨?_, fun _ => heq⟩
    rcases memberCmdMemUp_row h hrow with hsame | ⟨_, _, hparam', -, -⟩
    · exact hsame
    · rw [hparam] at hparam'
      cases hparam'
      exact (heq rfl).elim

variable {named : Set Bytes} {e : MemberEntry} {log : List Note} (h : SessionInv named e log)
include h

omit htakes in
theorem sessionInv_check (hnamed : Set.InjOn hashStringRev named) {cred : Credentials}
    (hp : Proper named e ⟨.memberGet, [("mname", some cred.mname)]⟩
      [.check cred.mname cred.mmsn (decide (Passed cred (memberCmdMemGet e [("mname", some cred.mname)]).reply))]) :
    SessionInv named (memberCmdMemGet e [("mname", some cred.mname)]).entry
      (log ++ [.check cred.mname cred.mmsn
        (decide (Passed cred (memberCmdMemGet e [("mname", some cred.mname)]).reply))]) := by
  obtain ⟨-, hdb, hco⟩ := memberCmdMemGet_frame h.coherent [("mname", some cred.mname)]
  refine ⟨hco, fun {mid row} hrow => ?_, tokenNeeded_append h.needed fun mname mmsn hnote => ?_⟩
  · rw [hdb] at hrow
    obtain ⟨mmsn, htext, hmark | ⟨mname, hin, hne, hhash, hsession⟩⟩ := h.column hrow
    · exact ⟨mmsn, htext, .inl hmark⟩
    · exact ⟨mmsn, htext, .inr ⟨mname, hin, hne, hhash, by rw [session_append]; exact hsession⟩⟩
  · simp only [Note.check.injEq, decide_eq_true_eq] at hnote
    obtain ⟨rfl, rfl, hpassed⟩ := hnote
    obtain ⟨hne, row, hrow, hprint⟩ := row_of_passed h.coherent hpassed
    obtain ⟨mmsn, htext, hmark | ⟨mname, hin, -, hhash, hsession⟩⟩ := h.column hrow
    all_goals
      rw [htext] at hprint
      obtain rfl : mmsn = cred.mmsn := hprint
    · refine (hp.presented _ _ _ (List.mem_singleton_self _) hmark ?_).elim
      rw [mmsnColumn, hrow, Option.map_some, htext]
      rfl
    · have hself := hp.checkNamed _ _ _ (List.mem_singleton_self _)
      rw [← hnamed hin hself (by exact_mod_cast hhash)]
      exact hsession

/-- A login or a logout that writes the token `mmsn` of `mname`. -/
theorem sessionInv_tokenUp {mmsn mname : Bytes} (hp : Printable mmsn) {note : Note}
    (hown : mmsn ∈ noSession ∨ mname ∈ named ∧ sessionStep mname (session mname log) note = some mmsn)
    (hother : ∀ mname' ≠ mname, sessionStep mname' (session mname' log) note = session mname' log)
    (hcheck : ∀ mname mmsn passed, note ≠ .check mname mmsn passed) :
    SessionInv named (memberCmdMemUp accepts e (tokenUp mmsn mname)).entry (log ++ [note]) := by
  have hkept : Kept accepts e.db (memberCmdMemUp accepts e (tokenUp mmsn mname)) :=
    memberCmdMemUp_kept h.coherent _
  refine ⟨hkept.coherent, fun {mid row} hrow => ?_,
    tokenNeeded_append h.needed fun mname mmsn hnote => (hcheck mname mmsn true hnote).elim⟩
  rcases row_tokenUp htakes h.coherent hp hrow with ⟨rfl, hne, htext⟩ | ⟨hold, hmid⟩
  · refine ⟨mmsn, htext, hown.imp_right fun hset => ⟨mname, hset.1, hne, rfl, ?_⟩⟩
    rw [session_append]
    exact hset.2
  · obtain ⟨mmsn', htext, hmark | ⟨mname', hin, hne, hhash, hsession⟩⟩ := h.column hold
    · exact ⟨mmsn', htext, .inl hmark⟩
    · refine ⟨mmsn', htext, .inr ⟨mname', hin, hne, hhash, ?_⟩⟩
      rw [session_append, hother mname', hsession]
      rintro rfl
      exact hmid hne hhash.symm

omit htakes in
theorem sessionInv_silent {c : Command} (hup : c.operation ≠ .memberUp) (hp : Proper named e c []) :
    SessionInv named (memberProcessDriver accepts e c.operation c.hdfsnd).entry log := by
  refine ⟨(memberProcessDriver_kept h.coherent c.operation c.hdfsnd).coherent, fun {mid row} hrow => ?_, h.needed⟩
  by_cases hadd : c.operation = .memberAdd
  · rw [hadd] at hrow
    rcases memberCmdMemAdd_row h.coherent hrow with hold | ⟨mname, hname, rfl, hfree, rfl⟩
    · exact h.column hold
    · rcases hp.registered hadd with hnone | ⟨mname', hname', hexists⟩
      · refine ⟨[], ?_, .inl (by simp [noSession])⟩
        have hlookup : (registrationCols c.hdfsnd mname).lookup "mmsn" = none := by
          apply givenCols_lookup_none
          intro spec hspec hcol
          rw [name_eq_col spec (List.mem_append_right _ hspec), hcol, nonempty_registrationData _ _ (by decide) (by decide), hnone]
        rw [Row.assign_of_lookup_none hlookup]
        rfl
      · rw [hname] at hname'
        cases hname'
        rw [hfree] at hexists
        cases hexists
  · rw [memberProcessDriver_member h.coherent hadd hup] at hrow
    exact h.column hrow

theorem sessionInv_step (hnamed : Set.InjOn hashStringRev named) {c : Command} {note : Reply → List Note} (hc : SessionCommand c note)
    (hp : Proper named e c (note ((memberServer accepts).exec e c).1)) :
    SessionInv named ((memberServer accepts).exec e c).2 (log ++ note ((memberServer accepts).exec e c).1) := by
  cases hc with
  | check cred => exact sessionInv_check h hnamed hp
  | login mname mmsn =>
    have hdrawn := hp.drawn _ _ (List.mem_singleton_self _)
    have hname := hp.loginNamed _ _ (List.mem_singleton_self _)
    refine sessionInv_tokenUp htakes h (printable_token hdrawn) (.inr ⟨hname, by simp [sessionStep]⟩) ?_ (by simp)
    intro mname' hne
    rw [sessionStep, if_neg fun heq => hne heq.symm]
  | logout mname =>
    refine sessionInv_tokenUp htakes h printable_logout (.inl (by simp [noSession])) ?_ (by simp)
    intro mname' hne
    rw [sessionStep, if_neg fun heq => hne heq.symm]
  | silent _ hup =>
    rw [List.append_nil]
    exact sessionInv_silent h hup hp

end Step

/-- A move of a session: a request of a session arrives, or a proper command is executed. -/
def ProperMove (accepts : Assignments → Bool) (named : Set Bytes) (pool : SessionPool) (m : SessionMove) : Prop :=
  (∀ p, m = .arrive p → ∃ r : SessionRequest, p = r.handler) ∧
    (memberServer accepts).Executes (Proper named) pool m

def SessionPool.start (db : Database) : SessionPool := ⟨MemberCommands.start db, [], []⟩

theorem loggedOut_emptyDb : LoggedOut emptyDb := nofun

def registerA : SessionRequest :=
  .registration ⟨[("mname", some [97]), ("mnick", some [98]), ("msn", some [112])], []⟩ tokenT

def logoutA : SessionRequest := .logout ⟨[], [("mname", some [97]), ("mmsn", some tokenT.text)]⟩

def checkA (mmsn : Bytes) : SessionRequest := .checkLogin ⟨[("mname", some [97]), ("mmsn", some mmsn)], []⟩

/-- Somebody presents what the logout of `a` has written. -/
def logoutRun : List SessionMove :=
  [.arrive registerA.handler, .advance 0, .advance 0, .arrive logoutA.handler, .advance 1, .advance 1,
    .arrive (checkA [48]).handler, .advance 2]

private theorem logoutRun_log :
    ((memberServer fun _ => true).run (SessionPool.start emptyDb) logoutRun).log =
      [.login [97] [84], .check [97] [84] true, .logout [97], .check [97] [48] true] := by
  decide

theorem proper_of_notes {named : Set Bytes} {e : MemberEntry} {c : Command} {notes : List Note}
    (hadd : c.operation = .memberAdd → nonempty c.hdfsnd "mmsn" = none)
    (hlogin : ∀ mname mmsn, .login mname mmsn ∈ notes → mmsn ≠ [] ∧ mname ∈ named)
    (hcheck : ∀ mname mmsn passed, .check mname mmsn passed ∈ notes → mmsn ∉ noSession ∧ mname ∈ named) :
    Proper named e c notes :=
  ⟨fun mname mmsn hn => (hlogin mname mmsn hn).1,
    fun mname mmsn passed hn hmark => ((hcheck mname mmsn passed hn).1 hmark).elim,
    fun ha => .inl (hadd ha), fun mname mmsn hn => (hlogin mname mmsn hn).2,
    fun mname mmsn passed hn => (hcheck mname mmsn passed hn).2⟩

end Cmoon.SessionTokens
