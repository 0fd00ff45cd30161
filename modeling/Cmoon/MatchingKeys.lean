import Cmoon.MatchingTells
import Cmoon.CacheKeys

/-! # The key of a match

What is found for `PLAN_MATCH` is cached under a list of the fields of the request. The conditions read further fields,
and the fields are joined by a character that may be in them. -/
namespace Cmoon.MatchingKeys
open DecimalText Datasets PlanTimes PlanMatching StatementTexts StatementBuilding CacheKeys MatchingAnswers MatchingTells
open PlanReads (prefixPlan)
open PlanOwnership (nullText)

def keyText {F : Type} (p : Params F) : Bytes :=
  prefixPlan ++ [95].intercalate [printInt p.dad, printInt p.scityid, printInt p.ecityid, p.rect.getD nullText,
    printInt p.nmax, printInt p.maxday, p.pdate.getD nullText, p.ptime]

section Keys
variable {F M : Type} [DecidableEq F] (floats : Floats F) (print : FloatText) (meaning : Bytes → M)

/-- Requests under one key have the same answer, whatever is in the table and whenever they come. -/
def AnsweredAlike (stack stack' : ℕ → UInt8) (p p' : Params F) (q q' : Dataset) : Prop :=
  formattedKey stack (keyText p) = formattedKey stack' (keyText p') → ∀ env,
    planCmdPlanMatch floats print meaning env q = planCmdPlanMatch floats print meaning env q'

variable {floats} {p p' : Params F} {q q' : Dataset}

omit [DecidableEq F] in
/-- No number, or one that is not positive, stands for `geoMax`. -/
theorem nmax_pos (h : params floats q = .ok p) : 0 < p.nmax := by
  unfold params at h
  split at h
  · cases h
  · dsimp only at h
    split at h
    · cases h
    · cases h
      dsimp only
      split
      · decide
      · omega

theorem answeredAlike_iff (h : params floats q = .ok p) (h' : params floats q' = .ok p') (stack stack' : ℕ → UInt8) :
    AnsweredAlike floats print meaning stack stack' p p' q q' ↔
      (HeldAlike stack stack' (keyText p) (keyText p') → digest print meaning p q = digest print meaning p' q') := by
  unfold AnsweredAlike planCmdPlanMatch
  rw [h, h', formattedKey_eq_iff]
  apply imp_congr_right
  intro _
  exact answers_iff (nmax_pos h) (nmax_pos h')

end Keys

def wholeFloats : Floats ℤ := ⟨readInt, 0⟩

/-- Whole numbers, with the six digits of `%f`. -/
def wholeText : FloatText where
  print s := if s.all (· != 39) then s ++ ascii ".000000" else []
  unquoted s := by
    split
    · rename_i hs
      apply ne_of_all
      rw [List.all_append, hs]
      decide
    · exact nofun

/-- `dad=0`, `scityid=1`, `ecityid=2` and a length -/
def matchKm (km : Bytes) : Dataset :=
  [("dad", some [48]), ("scityid", some [49]), ("ecityid", some [50]), ("km", some km)]

def matchParams (km : ℤ) : Params ℤ := ⟨0, 1, 2, none, geoMax, 0, none, defaultTime, km⟩

/-- The one plan has a length of 180: a request for 100 finds it by no condition, and one for 200 by each. -/
def serverKm (cond : Bytes) : Option (List PlanNode) :=
  if ascii "200.000000 " <:+ cond then some [⟨[55], [("km", some (ascii "180"))]⟩] else some []

def nowKm : Env ℤ Bytes := ⟨serverKm, still ℤ, true⟩

theorem sameFields_answeredAlike :
    AnsweredAlike wholeFloats wholeText id (fun _ => 0) (fun _ => 0) (matchParams 100) (matchParams 100)
      (matchKm (ascii "100")) (("dayaround", some [48]) :: matchKm (ascii "100")) := by
  apply (answeredAlike_iff wholeText id rfl rfl _ _).mpr
  intro _
  have hconds : conditions wholeText id (matchKm (ascii "100")) =
      conditions wholeText id (("dayaround", some [48]) :: matchKm (ascii "100")) := conditions_congr _ _ (by decide)
  rw [digest, digest, hconds]

theorem not_answeredAlike_km :
    params wholeFloats (matchKm (ascii "100")) = .ok (matchParams 100) ∧
      params wholeFloats (matchKm (ascii "200")) = .ok (matchParams 200) ∧
      ¬ AnsweredAlike wholeFloats wholeText id (fun _ => 0) (fun _ => 0) (matchParams 100) (matchParams 200)
        (matchKm (ascii "100")) (matchKm (ascii "200")) := by
  refine ⟨rfl, rfl, fun h => ?_⟩
  have hsame := h rfl nowKm
  have hnone : planCmdPlanMatch wholeFloats wholeText id nowKm (matchKm (ascii "100")) = .error .nmatch := rfl
  have hone : (planCmdPlanMatch wholeFloats wholeText id nowKm (matchKm (ascii "200"))).map Matched.ntt = .ok 1 := rfl
  rw [← hsame, hnone] at hone
  cases hone

end Cmoon.MatchingKeys
