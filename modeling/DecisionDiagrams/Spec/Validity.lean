import DecisionDiagrams.Spec.Basic

/-! Which specifications can be turned into a diagram. The first fault found is reported, in this
order: a rule for an unknown property, no variables at all, the scopes, and then the properties of
the down, up and combined states. -/

namespace DecisionDiagrams

inductive SpecError
  | noVariables
  | emptyScope (name : String)
  | duplicateVariable (name : String)
  | invalidRange (name : String)
  | incompatibleRelaxation (name : String)
  | invalidAntecedent (name : String)
  | unknownProperty
deriving DecidableEq, Repr

namespace SpecError

def message : SpecError → String
  | .noVariables => "The specification does not contain any variables"
  | .emptyScope name => "Constraint '" ++ name ++ "' has an empty scope"
  | .duplicateVariable name =>
    "Constraint '" ++ name ++ "' contains the same variable more than once"
  | .invalidRange name => "A property of constraint '" ++ name ++ "' has an empty or too wide range"
  | .incompatibleRelaxation name =>
    "A property of constraint '" ++ name ++ "' uses a relaxation which does not fit its kind"
  | .invalidAntecedent name =>
    "A rule of constraint '" ++ name ++ "' refers to a property which it cannot read"
  | .unknownProperty => "A property handle does not belong to this specification"

end SpecError

namespace Kind

def rangeFits (lower upper : Int) : Bool :=
  decide (lower ≤ upper) && decide (upper - lower < 0xffffffff)

def isValid : Kind → Bool
  | .flag _ | .set _ => true
  | .integer _ lower upper => rangeFits lower upper
  | .window length _ lower upper => decide (0 < length) && rangeFits lower upper

end Kind

namespace Spec

def mayRead (s : Spec) (rule : Rule) (side : Side) (p : PropertyRef) : Bool :=
  (match rule with
    | .keep => true
    | .transition .. => p.side == side || p.side == .combined
    | .combine .. => p.side != .combined)
  && decide (p.index < (s.properties.get p.side).size)

/-- Transitions belong to down and up properties, and only combined properties are combined. -/
def placed (rule : Rule) (side : Side) : Bool :=
  match rule with
  | .keep => true
  | .transition .. => side != .combined
  | .combine .. => side == .combined

def checkScope (c : Scope) : Except SpecError Unit :=
  if c.vars.isEmpty then .error (.emptyScope c.name)
  else if c.vars.eraseDups.length ≠ c.vars.length then .error (.duplicateVariable c.name)
  else .ok ()

def checkProperty (s : Spec) (side : Side) (p : Property) : Except SpecError Unit :=
  let name := ((s.scopes[p.constraint]?).map (·.name)).getD ""
  if !p.kind.isValid then .error (.invalidRange name)
  else if !p.relaxation.supports p.kind then .error (.incompatibleRelaxation name)
  else if !p.rule.reads.all (s.mayRead p.rule side) then .error (.invalidAntecedent name)
  else if !placed p.rule side then .error (.invalidAntecedent name)
  else .ok ()

def check (s : Spec) : Except SpecError Unit := do
  if s.strayRule then throw .unknownProperty
  if s.branchVars.isEmpty then throw .noVariables
  s.scopes.toList.forM checkScope
  s.properties.down.toList.forM (s.checkProperty .down)
  s.properties.up.toList.forM (s.checkProperty .up)
  s.properties.combined.toList.forM (s.checkProperty .combined)

end Spec
end DecisionDiagrams
