/-!
# Verdicts

What a run says about an input.
-/

namespace PatternAutomata

/-- The outcome of a run. -/
inductive Verdict where
  | accepted
  | rejected
deriving DecidableEq, Repr

def Verdict.ofBool (accepted : Bool) : Verdict :=
  if accepted then .accepted else .rejected

def Verdict.text : Verdict → String
  | .accepted => "accepted"
  | .rejected => "rejected"

end PatternAutomata
