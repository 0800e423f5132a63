import DecisionDiagrams.Spec.Validity

/-! A valid specification with everything fixed that propagation looks up: the layouts, the initial
states, the transitions and arc tests of every layer, and for every property the properties whose
rule reads it. -/

namespace DecisionDiagrams

/-- What applies to the arcs of one layer. -/
structure ArcRules where
  /-- The properties whose transition runs on this layer; the others keep their value. -/
  transitions : BySide IndexSet := .all IndexSet.empty
  arcChecks : List (ArcFacts → Checked Bool) := []
deriving Inhabited

/-- The layers of the variables of a constraint. -/
structure Coverage where
  layers : IndexSet
  /-- The layer nearest to the root. -/
  first : Nat
  size : Nat
deriving Inhabited

structure Model where
  /-- The variable of every layer. -/
  branchVars : Array Var
  layouts : BySide Layout
  initial : BySide State
  properties : BySide (Array Property)
  /-- For every property, the properties whose rule reads it. -/
  readBy : BySide (Array (BySide IndexSet))
  layers : Array ArcRules
  nodeChecks : List (NodeFacts → Checked Bool)
  splitPriorities : List (NodeFacts → Checked Int)
  candidatePriorities : List (CandidateFacts → Checked Int)
  equivalenceKeys : List (View → Checked Int)
  retreats : Array Nat
deriving Inhabited

namespace Spec

def layerOf (s : Spec) (x : Var) : Nat := s.branchVars.toList.idxOf x

def layersOf (s : Spec) (c : ScopeId) : List Nat :=
  (((s.scopes[c]?).map (·.vars)).getD []).map s.layerOf

def layoutOf (ps : Array Property) : Layout := Layout.ofKinds (ps.toList.map (·.kind))

/-- The properties of `side` whose rule reads `p`; a transition also reads its own property. -/
def readersOf (s : Spec) (p : PropertyRef) (side : Side) : IndexSet :=
  let ps := s.properties.get side
  (List.range ps.size).foldl (fun acc i =>
    match ps[i]? with
    | some q =>
      let own := q.rule.isTransition && decide (p = ⟨side, i⟩)
      if own || q.rule.reads.contains p then acc.insert i else acc
    | none => acc) IndexSet.empty

def readByOf (s : Spec) (side : Side) : Array (BySide IndexSet) :=
  (Array.range (s.properties.get side).size).map fun i =>
    let readers := s.readersOf ⟨side, i⟩
    ⟨readers .down, readers .up, readers .combined⟩

def coverageOf (s : Spec) (c : ScopeId) : Coverage :=
  let layers := s.layersOf c
  { layers := layers.foldl IndexSet.insert IndexSet.empty
    first := layers.foldl min s.branchVars.size
    size := layers.length }

def coverage (s : Spec) : Array Coverage := (Array.range s.scopes.size).map s.coverageOf

def covers (coverage : Array Coverage) (c : ScopeId) (layer : Nat) : Bool :=
  match coverage[c]? with
  | some k => k.layers.contains layer
  | none => false

def activeOn (s : Spec) (coverage : Array Coverage) (layer : Nat) (side : Side) : IndexSet :=
  let ps := s.properties.get side
  (List.range ps.size).foldl (fun acc i =>
    match ps[i]? with
    | some q =>
      if q.rule.isTransition && covers coverage q.constraint layer then acc.insert i else acc
    | none => acc) IndexSet.empty

def arcRules (s : Spec) (coverage : Array Coverage) (layer : Nat) : ArcRules where
  transitions :=
    ⟨s.activeOn coverage layer .down, s.activeOn coverage layer .up, IndexSet.empty⟩
  arcChecks := (s.arcChecks.toList.filter fun c => covers coverage c.1 layer).map (·.2)

/-- How far the refinement may move back from `layer`: to the first layer of a constraint which
covers less than half of the variables and has a variable here. -/
def retreat (s : Spec) (coverage : Array Coverage) (layer : Nat) : Nat :=
  coverage.foldl (fun acc k =>
    if k.size < s.branchVars.size / 2 ∧ k.layers.contains layer then max acc (layer - k.first)
    else acc) 0

def toModel (s : Spec) : Model :=
  let layouts := s.properties.map layoutOf
  let coverage := s.coverage
  { branchVars := s.branchVars
    layouts
    initial := layouts.map Layout.fresh
    properties := s.properties
    readBy := ⟨s.readByOf .down, s.readByOf .up, s.readByOf .combined⟩
    layers := (Array.range s.branchVars.size).map (s.arcRules coverage)
    nodeChecks := s.nodeChecks.toList
    splitPriorities := s.splitPriorities.toList
    candidatePriorities := s.candidatePriorities.toList
    equivalenceKeys := s.equivalenceKeys.toList
    retreats := (Array.range s.branchVars.size).map (s.retreat coverage) }

def compile (s : Spec) : Except SpecError Model := do
  s.check
  return s.toModel

end Spec

namespace Model

def depth (m : Model) : Nat := m.branchVars.size

def var (m : Model) (layer : Nat) : Var := m.branchVars.getD layer 0

def layout (m : Model) (side : Side) : Layout := m.layouts.get side

/-- The down state of the root, the up state of the sink, or a combined state before it is computed.
-/
def fresh (m : Model) (side : Side) : State := m.initial.get side

def view (m : Model) (side : Side) (s : State) : View := ⟨m.layout side, s⟩

def everyProperty (m : Model) (side : Side) : IndexSet :=
  IndexSet.below (m.properties.get side).size

/-- Whether some property is computed from the sink. -/
def hasUp (m : Model) : Bool := m.properties.up.any (·.rule.isTransition)

def hasCombined (m : Model) : Bool := !m.properties.combined.isEmpty

def rule (m : Model) (side : Side) (i : Nat) : Rule :=
  match (m.properties.get side)[i]? with
  | some p => p.rule
  | none => .keep

def relaxation? (m : Model) (side : Side) (i : Nat) : Option Relaxation :=
  match (m.properties.get side)[i]? with
  | some p => some p.relaxation
  | none => none

def rules (m : Model) (layer : Nat) : ArcRules := m.layers.getD layer {}

def active (m : Model) (direction : Direction) (layer : Nat) : IndexSet :=
  (m.rules layer).transitions.get direction.side

/-- Computes one property of the state reached from `source`: by its transition, or by keeping its
value if it has none on this layer. -/
def stepProperty (m : Model) (direction : Direction) (layer : Nat) (source : State)
    (combined : Option State) (values : IntSet) (target : State) (i : Nat) : Checked State :=
  let side := direction.side
  if (m.active direction layer).contains i then
    match m.rule side i with
    | .transition _ run =>
      let input : StepFacts :=
        { source := m.view side source, combined := combined.map (m.view .combined),
          layer, var := m.var layer }
      (run input values (m.view side target)).map (·.state)
    | _ => .ok target
  else
    match (m.layout side).slot? i with
    | some s => .ok { target with bits := s.copy target.bits source.bits }
    | none => .ok target

/-- Computes the listed properties of the state reached from `source` over arcs labelled with
`values`, and leaves the other properties of `target` as they are. -/
def stepInto (m : Model) (direction : Direction) (layer : Nat) (source : State)
    (combined : Option State) (values : IntSet) (which : IndexSet) (target : State) :
    Checked State :=
  which.toList.foldlM (m.stepProperty direction layer source combined values) target

def step (m : Model) (direction : Direction) (layer : Nat) (source : State)
    (combined : Option State) (values : IntSet) : Checked State := do
  let reached ←
    m.stepInto direction layer source combined values (m.active direction layer) source
  return { reached with relaxed := source.relaxed || decide (1 < values.size) }

def mergeProperty (m : Model) (side : Side) (other target : State) (i : Nat) : Checked State :=
  match m.relaxation? side i, (m.layout side).slot? i with
  | some .minimum, some s => .ok { target with bits := s.mergeNumbers min target.bits other.bits }
  | some .maximum, some s => .ok { target with bits := s.mergeNumbers max target.bits other.bits }
  | some .union, some s =>
    .ok { target with bits := s.mergeSet IndexSet.union target.bits other.bits }
  | some .intersection, some s =>
    .ok { target with bits := s.mergeSet IndexSet.inter target.bits other.bits }
  | some (.custom merge), _ => (merge (m.view side target) (m.view side other)).map (·.state)
  | _, _ => .ok target

/-- Merges the listed properties of `other` into `target`. -/
def mergeListed (m : Model) (side : Side) (which : IndexSet) (target other : State) :
    Checked State :=
  which.toList.foldlM (m.mergeProperty side other) target

def deriveInto (m : Model) (down up : State) (which : IndexSet) (target : State) : Checked State :=
  which.toList.foldlM (fun t i =>
    match m.rule .combined i with
    | .combine _ run =>
      (run (m.view .down down) (m.view .up up) (m.view .combined t)).map (·.state)
    | _ => .ok t) target

def derive (m : Model) (down up : State) : Checked State :=
  m.deriveInto down up (m.everyProperty .combined) (m.fresh .combined)

/-- The properties of `reader` which read property `i` of `side`. -/
def readers (m : Model) (side : Side) (i : Nat) (reader : Side) : IndexSet :=
  (((m.readBy.get side)[i]?).map (·.get reader)).getD IndexSet.empty

def dependents (m : Model) (direction : Direction) (layer : Nat)
    (changed combinedChanges : IndexSet) : IndexSet :=
  let side := direction.side
  let active := m.active direction layer
  let own := changed.toList.foldl (fun acc i =>
    let acc := if active.contains i then acc else acc.insert i
    acc.union ((m.readers side i side).inter active)) IndexSet.empty
  combinedChanges.toList.foldl (fun acc i =>
    acc.union ((m.readers .combined i side).inter active)) own

/-- The combined properties to compute again after the listed down and up properties changed. -/
def combinedDependents (m : Model) (changedDown changedUp : IndexSet) : IndexSet :=
  let fromDown := changedDown.toList.foldl (fun acc i =>
    acc.union (m.readers .down i .combined)) IndexSet.empty
  changedUp.toList.foldl (fun acc i => acc.union (m.readers .up i .combined)) fromDown

/-- Whether an arc passes the tests of its layer. They are made in turn up to the first which fails.
-/
def arcPasses (m : Model) (layer : Nat) (value : Int) (parentDown : State)
    (parentCombined childUp childCombined : Option State) : Checked Bool :=
  let input : ArcFacts :=
    { parentDown := m.view .down parentDown
      parentCombined := parentCombined.map (m.view .combined)
      childUp := childUp.map (m.view .up)
      childCombined := childCombined.map (m.view .combined)
      layer, value }
  (m.rules layer).arcChecks.allM fun check => check input

def nodeFacts (m : Model) (layer : Nat) (states : BySide State) (numParents numChildren : Nat) :
    NodeFacts :=
  { down := m.view .down states.down, up := m.view .up states.up,
    combined := m.view .combined states.combined, layer, numParents, numChildren }

def nodePasses (m : Model) (node : NodeFacts) : Checked Bool :=
  m.nodeChecks.allM fun check => check node

def splitPriority (m : Model) (node : NodeFacts) : Checked Int :=
  m.splitPriorities.foldlM (fun sum f => return sum + (← f node)) 0

def candidatePriority (m : Model) (down : State) (numArcs layer : Nat) : Checked Int :=
  m.candidatePriorities.foldlM (fun sum f =>
    return sum + (← f { down := m.view .down down, numArcs, layer })) 0

def equivalenceKey (m : Model) (down : State) : Checked (List Int) :=
  m.equivalenceKeys.mapM fun f => f (m.view .down down)

def retreat (m : Model) (layer : Nat) : Nat := m.retreats.getD layer 0

/-- The distance of two states: the sum over the properties, of which those without any words add
nothing. It begins at negative zero, which is neutral for the addition of floats also when every
term is a negative zero. -/
def distance (m : Model) (side : Side) (a b : State) : Checked Float :=
  (List.range (m.properties.get side).size).foldlM (fun acc i =>
    match (m.properties.get side)[i]?, (m.layout side).slot? i with
    | some p, some s =>
      match p.similarity with
      | some f => return acc + (← f (m.view side a) (m.view side b))
      | none => return if s.hasWords then acc + Float.ofNat (s.distance a.bits b.bits) else acc
    | _, _ => return acc) (-0.0)

end Model
end DecisionDiagrams
