import DecisionDiagrams.Constraint.AllDifferent
import DecisionDiagrams.Constraint.Counting
import DecisionDiagrams.Constraint.Precedence
import DecisionDiagrams.Constraint.Sequence
import DecisionDiagrams.Constraint.Sum
import DecisionDiagrams.Script.Custom

/-! The constraints which can be posted: those with rules of their own here, and constraints whose
rules are written down. -/

namespace DecisionDiagrams

inductive Constraint
  /-- The variables take different values. -/
  | allDifferent (vars : List Var)
  /-- Between `lower` and `upper` variables take one of the values. -/
  | among (vars : List Var) (values : List Int) (lower upper : Int)
  /-- Every value is taken as often as its bounds allow. -/
  | cardinality (vars : List Var) (values lower upper : List Int)
  /-- Any `length` consecutive variables take one of the values as often as the bounds allow. -/
  | sequence (vars : List Var) (length : Nat) (values : List Int) (lower upper : Int)
  /-- The weighted sum of the variables lies within the bounds. -/
  | sum (vars : List Var) (weights : List Int) (lower upper : Int)
  /-- A variable takes `after` only behind one which takes `before`. -/
  | precedence (vars : List Var) (before after : Int)
  /-- In addition every `before` is followed by an `after`. -/
  | mandatoryPrecedence (vars : List Var) (before after : Int)
  | custom (c : Script.Custom)

/-- What makes a constraint meaningless from the outset. -/
inductive Malformed
  | missingWeight
  | missingCountBounds
  | emptyWindow
deriving DecidableEq, Repr

def Malformed.message : Malformed → String
  | .missingWeight => "every variable of a sum needs a weight"
  | .missingCountBounds => "every counted value needs a lower and an upper bound"
  | .emptyWindow => "the window of a sequence covers at least one variable"

namespace Constraint

def sumEquals (vars : List Var) (weights : List Int) (total : Int) : Constraint :=
  .sum vars weights total total

def malformed? : Constraint → Option Malformed
  | .sum vars weights _ _ => if vars.length = weights.length then none else some .missingWeight
  | .cardinality _ values lower upper =>
    if values.length = lower.length ∧ values.length = upper.length then none
    else some .missingCountBounds
  | .sequence _ length .. => if length = 0 then some .emptyWindow else none
  | _ => none

/-- Whether everything exists which the constraint looks up when it is registered: the domains of
its variables for some constraints, its own scopes for a written one. -/
def registrable (domains : Domains) : Constraint → Bool
  | .sum vars .. | .allDifferent vars => vars.all fun x => decide (x < domains.size)
  | .custom c => c.scopesExist
  | _ => true

def register (domains : Domains) : Constraint → StateM Spec Unit
  | .allDifferent vars => AllDifferent.register domains vars
  | .among vars values lower upper => Counting.registerAmong vars values lower upper
  | .cardinality vars values lower upper =>
    Counting.registerCardinality vars (values.zip (lower.zip upper))
  | .sequence vars length values lower upper => Sequence.register vars length values lower upper
  | .sum vars weights lower upper => Sum.register domains vars weights lower upper
  | .precedence vars before after => Precedence.registerValue vars before after
  | .mandatoryPrecedence vars before after => Precedence.registerMandatory vars before after
  | .custom c => c.register

end Constraint

def Spec.ofConstraints (domains : Domains) (cs : List Constraint) : Spec :=
  ((cs.forM (·.register domains)).run {}).2

end DecisionDiagrams
