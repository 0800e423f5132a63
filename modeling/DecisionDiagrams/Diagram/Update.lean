import DecisionDiagrams.Diagram.Removal
import DecisionDiagrams.Diagram.Arrival

/-! Computing the state of a node again, and what follows when it changed: the combined state
follows, the node and its arcs are tested again, and the neighbours whose rules read a changed
property are noted. -/

namespace DecisionDiagrams.Work

def rederive (p : Plan) (n : NodeId) (changedDown changedUp : IndexSet) : Work IndexSet := do
  let w ← get
  if !w.combinedKnown p.model then return IndexSet.empty
  let which := p.model.combinedDependents changedDown changedUp
  if which.isEmpty then return IndexSet.empty
  let old := w.graph.state n .combined
  let new ← p.model.deriveInto (w.graph.state n .down) (w.graph.state n .up) which old
  let changed := (p.model.layout .combined).difference old new
  if !changed.isEmpty then modify (Workspace.putState n .combined new)
  return changed

/-- Notes the neighbours of a node in a direction after its properties changed. If only the relaxed
flag changed, they have to be computed from scratch. -/
def alertNeighbours (p : Plan) (direction : Direction) (n : NodeId) (own onlyFlag : Bool)
    (changed combinedChanges : IndexSet) : Work Unit := do
  if own || !combinedChanges.isEmpty then
    let w ← get
    let layer := w.graph.layerOf n
    let (neighbours, arcLayer, present) :=
      match direction with
      | .down => (w.graph.children n, layer, decide (layer < p.model.depth))
      | .up => (w.graph.parents n, layer - 1, decide (0 < layer))
    if present then
      let r : Demand :=
        if onlyFlag && own then .full
        else .only (p.model.dependents direction arcLayer changed combinedChanges)
      set (neighbours.foldl (Workspace.schedule p direction r) w)

/-- Gives a node a new state in a direction. -/
def adoptState (p : Plan) (direction : Direction) (n : NodeId) (new : State) : Work Unit := do
  let side := direction.side
  let w ← get
  let old := w.graph.state n side
  if old = new then return ()
  let changed := (p.model.layout side).difference old new
  let (changedDown, changedUp) :=
    match direction with
    | .down => (changed, IndexSet.empty)
    | .up => (IndexSet.empty, changed)
  set (w.putState n side new)
  let combinedChanges ← rederive p n changedDown changedUp
  let kept ← (← get).keepsNode p.model n
  if !kept then dropNode p n
  else
    if !changedDown.isEmpty || !combinedChanges.isEmpty then retestOutgoing p n
    let upKnown := (← get).upKnown
    if upKnown && (!changedUp.isEmpty || !combinedChanges.isEmpty) then retestIncoming p n
    let active := (← get).graph.isActive n
    if active then
      alertNeighbours p .down n (direction == .down) changed.isEmpty changedDown combinedChanges
      alertNeighbours p .up n (direction == .up) changed.isEmpty changedUp combinedChanges

def recompute (p : Plan) (direction : Direction) (n : NodeId) (r : Demand) : Work Unit := do
  let w ← get
  if w.graph.isActive n then
    let bundles := w.bundles p direction n
    let layer := w.feedLayer direction n
    let old := w.graph.state n direction.side
    modify (Workspace.tally fun c =>
      match r with
      | .full => { c with fullRecomputations := c.fullRecomputations + 1 }
      | .only _ => { c with incrementalRecomputations := c.incrementalRecomputations + 1 })
    let new ← stateFromNeighbours p direction layer bundles old r
    adoptState p direction n new

def recomputeLayer (p : Plan) (direction : Direction) (layer : Nat) : Work Unit := do
  let waiting := (← get).agenda.waiting direction layer
  modify fun w => { w with agenda := w.agenda.clearLayer direction layer }
  waiting.forM fun e => recompute p direction e.1 e.2

end DecisionDiagrams.Work
