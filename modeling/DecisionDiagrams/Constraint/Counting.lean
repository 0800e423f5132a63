import DecisionDiagrams.Constraint.Scope

/-! Bounds on how many variables take a value out of a list. Down states keep the smallest and the
largest count over the paths from the root, up states the same over the paths to the sink. An arc
stays if some count through it may lie within the bounds. -/

namespace DecisionDiagrams.Counting

/-- What one counted list of values registers. -/
structure Count where
  members : List Int
  lower : Int
  upper : Int
  order : ScopeOrder
  leastAbove : Nat
  mostAbove : Nat
  leastBelow : Nat
  mostBelow : Nat

def weight (members : List Int) (v : Int) : Int := if members.contains v then 1 else 0

/-- The count grows by what every label contributes. -/
def stepMin (members : List Int) (i : Nat) (input : StepFacts) (values : IntSet)
    (out : View) : View :=
  out.setInteger i (input.source.integer i + if values.all members.contains then 1 else 0)

/-- The count grows by what some label contributes. -/
def stepMax (members : List Int) (i : Nat) (input : StepFacts) (values : IntSet)
    (out : View) : View :=
  out.setInteger i (input.source.integer i + if values.any members.contains then 1 else 0)

def admits (c : Count) (arc : ArcFacts) : Bool :=
  let here := weight c.members arc.value
  let (belowMin, belowMax) :=
    match arc.childUp with
    | some up => (up.integer c.leastBelow, up.integer c.mostBelow)
    | none => (0, (c.order.after arc.layer : Int))
  decide (arc.parentDown.integer c.leastAbove + here + belowMin ≤ c.upper) &&
    decide (c.lower ≤ arc.parentDown.integer c.mostAbove + here + belowMax)

def spread (c : Count) (down : View) : Int := down.integer c.mostAbove - down.integer c.leastAbove

/-- Registers the bounds on the number of variables which take a value of `members`. -/
def registerCount (constraint : ScopeId) (vars : List Var) (members : List Int)
    (lower upper : Int) : StateM Spec Unit := do
  let order ← Spec.orderOf vars
  let kind : Kind := .integer 0 0 vars.length
  let leastAbove ← Spec.declareProperty constraint .down kind .minimum
  let mostAbove ← Spec.declareProperty constraint .down kind .maximum
  let leastBelow ← Spec.declareProperty constraint .up kind .minimum
  let mostBelow ← Spec.declareProperty constraint .up kind .maximum
  Spec.setTransition leastAbove [] fun input values out =>
    .ok (stepMin members leastAbove.index input values out)
  Spec.setTransition mostAbove [] fun input values out =>
    .ok (stepMax members mostAbove.index input values out)
  Spec.setTransition leastBelow [] fun input values out =>
    .ok (stepMin members leastBelow.index input values out)
  Spec.setTransition mostBelow [] fun input values out =>
    .ok (stepMax members mostBelow.index input values out)
  let c : Count :=
    ⟨members, lower, upper, order, leastAbove.index, mostAbove.index, leastBelow.index,
      mostBelow.index⟩
  Spec.addArcCheck constraint fun arc => .ok (admits c arc)
  Spec.addSplitPriority fun node => .ok (spread c node.down)
  Spec.addCandidatePriority fun candidate => .ok (-spread c candidate.down)
  Spec.addEquivalenceKey fun down => .ok (down.integer c.mostAbove)

def registerAmong (vars : List Var) (values : List Int) (lower upper : Int) : StateM Spec Unit := do
  let constraint ← Spec.addScope "among" vars
  registerCount constraint vars values lower upper

def registerCardinality (vars : List Var) (values : List (Int × Int × Int)) : StateM Spec Unit := do
  let constraint ← Spec.addScope "global_cardinality" vars
  values.forM fun v => registerCount constraint vars [v.1] v.2.1 v.2.2

end DecisionDiagrams.Counting
