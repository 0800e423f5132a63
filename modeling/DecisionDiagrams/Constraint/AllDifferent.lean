import DecisionDiagrams.Spec.Basic

/-! All variables of a scope take different values. The states keep, above and below a node, the
values taken on every path and the values taken on some path, shifted so that the smallest value of
the domains is zero, and the number of variables assigned above. -/

namespace DecisionDiagrams.AllDifferent

structure Values where
  /-- The smallest value of the domains. -/
  offset : Int
  scopeSize : Nat
  certainAbove : Nat
  possibleAbove : Nat
  assignedAbove : Nat
  certainBelow : Nat
  possibleBelow : Nat

def element (offset v : Int) : Nat := (v - offset).toNat

def stepCertain (offset : Int) (i : Nat) (input : StepFacts) (values : IntSet) (out : View) :
    View :=
  let taken := (out.set i).overwrite (input.source.set i)
  out.setSet i (match values.toList with
    | [v] => taken.insert (element offset v)
    | _ => taken)

def stepPossible (offset : Int) (i : Nat) (input : StepFacts) (values : IntSet) (out : View) :
    View :=
  let taken := (out.set i).overwrite (input.source.set i)
  out.setSet i (values.toList.foldl (fun s v => s.insert (element offset v)) taken)

def stepCount (i : Nat) (input : StepFacts) (_ : IntSet) (out : View) : View :=
  out.setInteger i (input.source.integer i + 1)

/-- The value must not be taken on every path on either side, and above, below and altogether there
have to be enough values for the variables. -/
def admits (c : Values) (arc : ArcFacts) : Bool :=
  let e := element c.offset arc.value
  let above := arc.parentDown.set c.possibleAbove
  let before := (arc.parentDown.integer c.assignedAbove).toNat
  let taken := (arc.parentDown.set c.certainAbove).contains e
  if taken || decide (above.sizeWithout e < before) then false
  else
    match arc.childUp with
    | none => true
    | some up =>
      let below := up.set c.possibleBelow
      let after := c.scopeSize - (before + 1)
      if (up.set c.certainBelow).contains e || decide (below.sizeWithout e < after) then false
      else
        let extra := if !above.contains e && !below.contains e then 1 else 0
        decide (c.scopeSize ≤ above.unionSize below + extra)

/-- How many values may be taken above but need not be. -/
def spread (c : Values) (down : View) : Int :=
  ((down.set c.possibleAbove).size : Int) - ((down.set c.certainAbove).size : Int)

def leastOf : List Int → Int
  | [] => 0
  | x :: r => r.foldl min x

def greatestOf : List Int → Int
  | [] => 0
  | x :: r => r.foldl max x

def register (domains : Domains) (vars : List Var) : StateM Spec Unit := do
  let constraint ← Spec.addScope "all_different" vars
  let known := vars.filterMap domains.get?
  let offset := leastOf (known.map (·.lower))
  let largest := greatestOf (known.map (·.upper))
  let capacity := (max (largest - offset + 1) 1).toNat
  let certainAbove ← Spec.declareProperty constraint .down (.set capacity) .intersection
  let possibleAbove ← Spec.declareProperty constraint .down (.set capacity) .union
  let assignedAbove ← Spec.declareProperty constraint .down (.integer 0 0 vars.length) .minimum
  let certainBelow ← Spec.declareProperty constraint .up (.set capacity) .intersection
  let possibleBelow ← Spec.declareProperty constraint .up (.set capacity) .union
  Spec.setTransition certainAbove [] fun input values out =>
    .ok (stepCertain offset certainAbove.index input values out)
  Spec.setTransition certainBelow [] fun input values out =>
    .ok (stepCertain offset certainBelow.index input values out)
  Spec.setTransition possibleAbove [] fun input values out =>
    .ok (stepPossible offset possibleAbove.index input values out)
  Spec.setTransition possibleBelow [] fun input values out =>
    .ok (stepPossible offset possibleBelow.index input values out)
  Spec.setTransition assignedAbove [] fun input values out =>
    .ok (stepCount assignedAbove.index input values out)
  let c : Values :=
    ⟨offset, vars.length, certainAbove.index, possibleAbove.index, assignedAbove.index,
      certainBelow.index, possibleBelow.index⟩
  Spec.addArcCheck constraint fun arc => .ok (admits c arc)
  Spec.addSplitPriority fun node => .ok (spread c node.down)
  Spec.addEquivalenceKey fun down =>
    .ok (if spread c down < down.integer c.assignedAbove / 2 then 1 else 0)

end DecisionDiagrams.AllDifferent
