import DecisionDiagrams.Spec.Basic

/-! Bounds on a weighted sum. Down and up states bound the partial sums from the root and to the
sink. They are kept within the range of 32-bit integers: sums beyond it are cut off. -/

namespace DecisionDiagrams.Sum

/-- The weight of the variable of a layer, and the least and greatest value of its term over its
domain. Layers of other constraints have weight zero. -/
structure Summand where
  weight : Int := 0
  least : Int := 0
  greatest : Int := 0
deriving Inhabited

def minInt32 : Int := -0x80000000

def maxInt32 : Int := 0x7fffffff

/-- Cuts a number off at the ends of the range of 32-bit integers. -/
def clamp (x : Int) : Int := max minInt32 (min maxInt32 x)

namespace Summand

def ofBounds (weight lower upper : Int) : Summand :=
  ⟨weight, min (weight * lower) (weight * upper), max (weight * lower) (weight * upper)⟩

/-- The least and greatest value of the term over the labels of a bundle of arcs. -/
def extremes (t : Summand) (values : IntSet) : Int × Int :=
  match values.min?, values.max? with
  | some lower, some upper =>
    (min (t.weight * lower) (t.weight * upper), max (t.weight * lower) (t.weight * upper))
  | _, _ => (0, 0)

end Summand

/-- The bounds of what the terms below each layer add up to, and of all terms together. -/
def suffixes : List Summand → List (Int × Int) × (Int × Int)
  | [] => ([], (0, 0))
  | t :: rest =>
    let (below, total) := suffixes rest
    (total :: below, (total.1 + t.least, total.2 + t.greatest))

structure Linear where
  terms : Array Summand
  below : Array (Int × Int)
  lower : Int
  upper : Int
  leastAbove : Nat
  mostAbove : Nat
  leastBelow : Nat
  mostBelow : Nat

def stepMin (terms : Array Summand) (i : Nat) (input : StepFacts) (values : IntSet)
    (out : View) : View :=
  let term := (terms.getD input.layer {}).extremes values
  out.setInteger i (clamp (input.source.integer i + term.1))

def stepMax (terms : Array Summand) (i : Nat) (input : StepFacts) (values : IntSet)
    (out : View) : View :=
  let term := (terms.getD input.layer {}).extremes values
  out.setInteger i (clamp (input.source.integer i + term.2))

def admits (c : Linear) (arc : ArcFacts) : Bool :=
  let here := (c.terms.getD arc.layer {}).weight * arc.value
  let (belowMin, belowMax) :=
    match arc.childUp with
    | some up => (up.integer c.leastBelow, up.integer c.mostBelow)
    | none => c.below.getD arc.layer (0, 0)
  decide (arc.parentDown.integer c.leastAbove + here + belowMin ≤ c.upper) &&
    decide (c.lower ≤ arc.parentDown.integer c.mostAbove + here + belowMax)

/-- The term of every layer, for weights in the order of the scope. -/
def summandsOf (domains : Domains) (order : Array Var) (vars : List Var) (weights : List Int) :
    List Summand :=
  order.toList.map fun x =>
    match (vars.zip weights).find? (·.1 == x), domains.get? x with
    | some (_, weight), some d => Summand.ofBounds weight d.lower d.upper
    | _, _ => {}

def register (domains : Domains) (vars : List Var) (weights : List Int) (lower upper : Int) :
    StateM Spec Unit := do
  let constraint ← Spec.addScope "sum" vars
  let terms := summandsOf domains (← get).branchVars vars weights
  let least := clamp ((terms.map fun t => min t.least 0).foldl (· + ·) 0)
  let greatest := clamp ((terms.map fun t => max t.greatest 0).foldl (· + ·) 0)
  let kind : Kind := .integer 0 least greatest
  let leastAbove ← Spec.declareProperty constraint .down kind .minimum
  let mostAbove ← Spec.declareProperty constraint .down kind .maximum
  let leastBelow ← Spec.declareProperty constraint .up kind .minimum
  let mostBelow ← Spec.declareProperty constraint .up kind .maximum
  let terms' := terms.toArray
  Spec.setTransition leastAbove [] fun input values out =>
    .ok (stepMin terms' leastAbove.index input values out)
  Spec.setTransition mostAbove [] fun input values out =>
    .ok (stepMax terms' mostAbove.index input values out)
  Spec.setTransition leastBelow [] fun input values out =>
    .ok (stepMin terms' leastBelow.index input values out)
  Spec.setTransition mostBelow [] fun input values out =>
    .ok (stepMax terms' mostBelow.index input values out)
  let c : Linear :=
    ⟨terms', (suffixes terms).1.toArray, lower, upper, leastAbove.index, mostAbove.index,
      leastBelow.index, mostBelow.index⟩
  Spec.addArcCheck constraint fun arc => .ok (admits c arc)
  Spec.addSplitPriority fun node =>
    .ok (node.down.integer c.mostAbove - node.down.integer c.leastAbove)

end DecisionDiagrams.Sum
