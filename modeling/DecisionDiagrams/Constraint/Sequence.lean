import DecisionDiagrams.Constraint.Scope

/-! Bounds on how many of any `length` consecutive variables, in layer order, take a value out of a
list. A down state keeps the smallest and the largest count from the root, for the node itself and
for the nearest variables of the scope above it. The count of a stretch of variables is the
difference of the counts at its ends. -/

namespace DecisionDiagrams.Sequence

structure Windows where
  members : List Int
  length : Nat
  lower : Int
  upper : Int
  order : ScopeOrder
  leastCounts : Nat
  mostCounts : Nat

def elements (length : Nat) : Nat := length % 0x100000000

/-- The counts move back by one place, and the new one is put in front. This goes beyond the state
if the length has more than 32 bits. -/
def stepMin (members : List Int) (i length : Nat) (input : StepFacts) (values : IntSet)
    (out : View) : Checked View :=
  input.source.shiftIn i i length
    (input.source.windowElement i 0 + if values.all members.contains then 1 else 0) out

def stepMax (members : List Int) (i length : Nat) (input : StepFacts) (values : IntSet)
    (out : View) : Checked View :=
  input.source.shiftIn i i length
    (input.source.windowElement i 0 + if values.any members.contains then 1 else 0) out

/-- If the stretch which ends here is complete, its count has to reach the bounds; otherwise the
count so far must not exceed them, and the missing variables may still add to it. -/
def admits (c : Windows) (arc : ArcFacts) : Bool :=
  if c.order.size < c.length then true
  else
    let here : Int := if c.members.contains arc.value then 1 else 0
    let smallest := arc.parentDown.windowElement c.leastCounts
    let largest := arc.parentDown.windowElement c.mostCounts
    let position := c.order.before arc.layer
    if c.length ≤ position + 1 then
      decide (smallest 0 + here - largest (c.length - 1) ≤ c.upper) &&
        decide (c.lower ≤ largest 0 + here - smallest (c.length - 1))
    else
      decide (smallest 0 + here ≤ c.upper) &&
        decide (c.lower ≤ largest 0 + here + ((c.length - position - 1 : Nat) : Int))

def register (vars : List Var) (length : Nat) (members : List Int) (lower upper : Int) :
    StateM Spec Unit := do
  let constraint ← Spec.addScope "sequence" vars
  let order ← Spec.orderOf vars
  let kind : Kind := .window (elements length) 0 0 vars.length
  let leastCounts ← Spec.declareProperty constraint .down kind .minimum
  let mostCounts ← Spec.declareProperty constraint .down kind .maximum
  Spec.setTransition leastCounts [] (stepMin members leastCounts.index length)
  Spec.setTransition mostCounts [] (stepMax members mostCounts.index length)
  let c : Windows := ⟨members, length, lower, upper, order, leastCounts.index, mostCounts.index⟩
  Spec.addArcCheck constraint fun arc => .ok (admits c arc)
  Spec.addSplitPriority fun node =>
    .ok (node.down.windowElement c.mostCounts 0 - node.down.windowElement c.leastCounts 0)

end DecisionDiagrams.Sequence
