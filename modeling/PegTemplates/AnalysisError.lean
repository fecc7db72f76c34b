/-!
# Analysis errors

What can be wrong with a grammar once its document has been read: a reference
to a rule that does not exist, and captures that do not balance.
-/

namespace PegTemplates

/-- Reason why a rule cannot be built or a shape cannot be analysed. -/
inductive AnalysisError where
  /-- A reference names a rule that was never defined. -/
  | undefinedRule (name : String)
  /-- A capture is closed at the top of a rule with none open there. -/
  | unbalancedCapture (rule : String)
  /-- Captures are still open where the rule body ends. -/
  | unclosedCapture (rule : String) (unclosed : Nat)
  /-- A capture is opened inside a branch, option, repetition or link body and
  closed outside of it, or the other way around. -/
  | captureAcrossScope (rule : String)
  deriving DecidableEq, Repr, Inhabited

/-- Wording of an analysis error. -/
def AnalysisError.message : AnalysisError → String
  | .undefinedRule name => s!"reference to undefined rule `{name}`"
  | .unbalancedCapture rule => s!"rule `{rule}`: end of capture without a matching begin"
  | .unclosedCapture rule unclosed => s!"rule `{rule}`: {unclosed} capture(s) never closed"
  | .captureAcrossScope rule =>
    s!"rule `{rule}`: capture crosses a choice, option or repetition boundary"

end PegTemplates
