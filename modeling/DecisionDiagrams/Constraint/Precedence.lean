import DecisionDiagrams.Constraint.Scope

/-! A variable may take the value `after` only if an earlier one, in layer order, took `before`. If
the precedence is mandatory, every variable which takes `before` also has to be followed by one
which takes `after`. -/

namespace DecisionDiagrams.Precedence

def stepSeen (before : Int) (i : Nat) (input : StepFacts) (values : IntSet) (out : View) :
    View :=
  out.setFlag i (input.source.flag i || values.contains before)

/-- On every path the last `before` still waits for an `after`. -/
def stepUnanswered (before after : Int) (i : Nat) (input : StepFacts) (values : IntSet)
    (out : View) : View :=
  out.setFlag i (!values.contains after && (values.all (· == before) || input.source.flag i))

def admits (after : Int) (seen : Nat) (arc : ArcFacts) : Bool :=
  arc.value != after || arc.parentDown.flag seen

structure Mandatory where
  before : Int
  after : Int
  order : ScopeOrder
  seen : Nat
  unanswered : Nat
  followed : Nat

/-- In addition no `before` is left without an `after` below. -/
def admitsMandatory (c : Mandatory) (arc : ArcFacts) : Bool :=
  if arc.value = c.after then arc.parentDown.flag c.seen
  else
    let waits := arc.value == c.before || arc.parentDown.flag c.unanswered
    if waits && c.order.after arc.layer == 0 then false
    else
      match arc.childUp with
      | some up => if arc.value = c.before then up.flag c.followed else true
      | none => true

def seenPriority : Int := 25

def registerValue (vars : List Var) (before after : Int) : StateM Spec Unit := do
  let constraint ← Spec.addScope "value_precedence" vars
  let seen ← Spec.declareProperty constraint .down (.flag false) .maximum
  Spec.setTransition seen [] fun input values out =>
    .ok (stepSeen before seen.index input values out)
  Spec.addArcCheck constraint fun arc => .ok (admits after seen.index arc)

def registerMandatory (vars : List Var) (before after : Int) : StateM Spec Unit := do
  let constraint ← Spec.addScope "mandatory_precedence" vars
  let seen ← Spec.declareProperty constraint .down (.flag false) .maximum
  Spec.setTransition seen [] fun input values out =>
    .ok (stepSeen before seen.index input values out)
  let order ← Spec.orderOf vars
  let unanswered ← Spec.declareProperty constraint .down (.flag false) .minimum
  let followed ← Spec.declareProperty constraint .up (.flag false) .maximum
  Spec.setTransition unanswered [] fun input values out =>
    .ok (stepUnanswered before after unanswered.index input values out)
  Spec.setTransition followed [] fun input values out =>
    .ok (stepSeen after followed.index input values out)
  let c : Mandatory := ⟨before, after, order, seen.index, unanswered.index, followed.index⟩
  Spec.addArcCheck constraint fun arc => .ok (admitsMandatory c arc)
  Spec.addCandidatePriority fun candidate =>
    .ok (if candidate.down.flag c.seen then seenPriority else 0)

end DecisionDiagrams.Precedence
