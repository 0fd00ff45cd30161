import Cmoon.MemberRequests

/-! # Checks of the login

The verdict of `MEMBER_CHECK_LOGIN` over a member plugin that answers, for the same name and token from the query and
from the cookies. -/
namespace Cmoon.LoginChecks
open DecimalText Datasets MemberPlugin RequestPrograms MemberRequests

section Verdict
-- what the member plugin replies to a command
variable (answer : Command → Reply)

/-- The name that `MEMBER_CHECK_LOGIN` leaves to the handler, or its error. -/
def verdict (req : Request) : Except Failure Bytes :=
  (memberCheckLogin req fun mname => .done (.ok mname)).answered answer

/-- `HDF_GET_STR_IDENT` of what has been reserved. -/
def reserved : Option Bytes → Except Failure Bytes
  | none => .error (.loginNeed "Reserve.mname")
  | some mname => .ok mname

/-- The member plugin has this token for the name. -/
def Valid (mname mmsn : Bytes) : Prop := Passed ⟨mname, mmsn, none⟩ (answer ⟨.memberGet, [("mname", some mname)]⟩)

end Verdict

structure ByQuery (req : Request) (mname mmsn : Bytes) : Prop where
  mname : hdfGetValue req.query "mname" = some mname
  mmsn : hdfGetValue req.query "mmsn" = some mmsn

def OutOfQuery (req : Request) : Prop := hdfGetValue req.query "mname" = none ∨ hdfGetValue req.query "mmsn" = none

structure ByCookie (req : Request) (mname mmsn : Bytes) : Prop where
  outOfQuery : OutOfQuery req
  mname : hdfGetValue req.cookie "mname" = some mname
  mmsn : hdfGetValue req.cookie "mmsn" = some mmsn

/-- From the query and from the cookies the verdict is the same, and without both in the query the cookies alone
count. -/
def Alike (answer : Command → Reply) (mname mmsn : Bytes) : Prop :=
  (∀ q c, ByQuery q mname mmsn → ByCookie c mname mmsn → verdict answer q = verdict answer c) ∧
    ∀ req, OutOfQuery req → verdict answer req = verdict answer { req with query := [] }

variable {answer : Command → Reply} {req : Request} {mname mmsn : Bytes}

theorem credentials_byQuery (h : ByQuery req mname mmsn) : credentials req = .ok ⟨mname, mmsn, none⟩ := by
  unfold credentials
  rw [h.mname, h.mmsn]

theorem credentials_outOfQuery (h : OutOfQuery req) : credentials req = credentials { req with query := [] } := by
  unfold credentials
  rcases h with h | h
  · rw [h]
    rfl
  · rw [h]
    cases hdfGetValue req.query "mname" <;> rfl

theorem credentials_byCookie (h : ByCookie req mname mmsn) :
    credentials req = .ok ⟨mname, mmsn, some mname⟩ := by
  rw [credentials_outOfQuery h.outOfQuery]
  unfold credentials
  rw [h.mname, h.mmsn]
  rfl

theorem verdict_eq (req : Request) :
    verdict answer req =
      match credentials req with
      | .error failure => .error failure
      | .ok cred =>
        match answer ⟨.memberGet, [("mname", some cred.mname)]⟩ with
        | .error err => .error (.pro err)
        | .ok hdfrcv =>
          if hdfGetValue hdfrcv "mmsn" = some cred.mmsn then reserved cred.reserve
          else .error (.notLogin cred.mname) := by
  unfold verdict memberCheckLogin
  rw [Program.answered_bind, checkLogin_answered]
  cases credentials req with
  | error failure => rfl
  | ok cred =>
    dsimp only
    cases answer ⟨.memberGet, [("mname", some cred.mname)]⟩ with
    | error err => rfl
    | ok hdfrcv =>
      obtain ⟨name, token, reserve⟩ := cred
      dsimp only
      by_cases htoken : hdfGetValue hdfrcv "mmsn" = some token
      · rw [if_pos htoken, if_pos htoken]
        cases reserve with
        | none => rfl
        | some mname => rfl
      · rw [if_neg htoken, if_neg htoken]
        rfl

theorem verdict_valid {reserve : Option Bytes} (h : credentials req = .ok ⟨mname, mmsn, reserve⟩)
    (hvalid : Valid answer mname mmsn) : verdict answer req = reserved reserve := by
  obtain ⟨hdfrcv, hreply, htoken⟩ := hvalid
  rw [verdict_eq, h]
  dsimp only
  rw [hreply]
  dsimp only
  rw [if_pos htoken]

theorem verdict_invalid {reserve : Option Bytes} (h : credentials req = .ok ⟨mname, mmsn, reserve⟩)
    (hinvalid : ¬ Valid answer mname mmsn) :
    verdict answer req = match answer ⟨.memberGet, [("mname", some mname)]⟩ with
      | .error err => .error (.pro err)
      | .ok _ => .error (.notLogin mname) := by
  rw [verdict_eq, h]
  dsimp only
  cases hreply : answer ⟨.memberGet, [("mname", some mname)]⟩ with
  | error err => rfl
  | ok hdfrcv =>
    have htoken : hdfGetValue hdfrcv "mmsn" ≠ some mmsn := fun htoken => hinvalid ⟨hdfrcv, hreply, htoken⟩
    dsimp only
    rw [if_neg htoken]

/-- A request with nothing but the two in its query, and one with nothing but the two in its cookies. -/
def inQuery (mname mmsn : Bytes) : Request := ⟨[("mname", some mname), ("mmsn", some mmsn)], []⟩
def inCookie (mname mmsn : Bytes) : Request := ⟨[], [("mname", some mname), ("mmsn", some mmsn)]⟩

theorem inQuery_byQuery (mname mmsn : Bytes) : ByQuery (inQuery mname mmsn) mname mmsn := ⟨rfl, rfl⟩
theorem inCookie_byCookie (mname mmsn : Bytes) : ByCookie (inCookie mname mmsn) mname mmsn := ⟨.inl rfl, rfl, rfl⟩

/-- Query and cookies are alike for exactly the credentials that are wrong. -/
theorem alike_iff_not_valid (answer : Command → Reply) (mname mmsn : Bytes) :
    Alike answer mname mmsn ↔ ¬ Valid answer mname mmsn := by
  constructor
  · intro halike hvalid
    have hquery := verdict_valid (credentials_byQuery (inQuery_byQuery mname mmsn)) hvalid
    have hcookie := verdict_valid (credentials_byCookie (inCookie_byCookie mname mmsn)) hvalid
    have heq := halike.1 _ _ (inQuery_byQuery mname mmsn) (inCookie_byCookie mname mmsn)
    rw [hquery, hcookie] at heq
    cases heq
  · intro hinvalid
    constructor
    · intro q c hq hc
      rw [verdict_invalid (credentials_byQuery hq) hinvalid, verdict_invalid (credentials_byCookie hc) hinvalid]
    · intro req hout
      rw [verdict_eq, verdict_eq, credentials_outOfQuery hout]

/-- The token `1` of everyone is not taken from the query. -/
theorem not_alike_right : ¬ ∀ answer mname mmsn, Alike answer mname mmsn := by
  intro h
  have halike := h (fun _ => .ok [("mmsn", some [49])]) [97] [49]
  have heq := halike.1 _ _ (inQuery_byQuery [97] [49]) (inCookie_byCookie [97] [49])
  revert heq
  decide

end Cmoon.LoginChecks
