import DecisionDiagrams.Diagram.Update
import DecisionDiagrams.Preference

/-! Splitting relaxed nodes. The incoming arcs of a relaxed node are bundled by the state they lead
to. A bundle which no outgoing arc of the node could continue is removed, and the refinement moves
back towards the root, because layers above lost arcs. Otherwise some bundles become nodes of their
own, as far as the width of the layer and the budget allow. -/

namespace DecisionDiagrams

/-- A bundle of incoming arcs with the state they lead to. -/
structure Candidate where
  /-- What the arcs have in common if equivalent states stay together. -/
  key : List Int
  down : State
  arcs : List ArcId
deriving Inhabited

namespace Candidate

def join (m : Model) (c : Candidate) (down : State) (a : ArcId) : Checked Candidate := do
  let arcs := c.arcs ++ [a]
  if c.down = down then return { c with arcs }
  let merged ← m.mergeListed .down (m.everyProperty .down) c.down down
  return { c with down := { merged with relaxed := true }, arcs }

/-- Adds an arc which leads to `down`: to the first bundle for which `belongs` holds, or else as a
bundle of its own. -/
def add (m : Model) (belongs : Candidate → Bool) (key : List Int) (down : State) (a : ArcId) :
    List Candidate → Checked (List Candidate)
  | [] => return [{ key, down, arcs := [a] }]
  | c :: rest => do
    if belongs c then return (← c.join m down a) :: rest
    return c :: (← add m belongs key down a rest)

end Candidate

def exceeds (a b : Int × Nat) : Bool := decide (b.1 < a.1) || (a.1 == b.1 && decide (b.2 < a.2))

namespace Work

/-- The bundles of incoming arcs of a node. -/
def candidatesOf (p : Plan) (n : NodeId) (layer : Nat) : Work (List Candidate) := do
  let grouped := p.options.split == .equivalenceClass && !p.model.equivalenceKeys.isEmpty
  ((← get).graph.incoming n).toList.foldlM (fun cs a => do
    let arc := (← get).graph.arc a
    let down ← stateAlong p .down (layer - 1) arc.parent (.singleton arc.value)
    let key ← if grouped then p.model.equivalenceKey down else pure []
    let belongs := fun (c : Candidate) => if grouped then c.key == key else c.down == down
    Candidate.add p.model belongs key down a cs) []

def splittable (w : Workspace) (layer : Nat) (tried : List NodeId) : List NodeId :=
  (w.graph.layer layer).toList.filter fun n =>
    let node := w.graph.node n
    node.states.down.relaxed && decide (1 < node.incoming.size) && !tried.contains n

def selectNode (p : Plan) (w : Workspace) (layer : Nat) (tried : List NodeId) :
    Checked (Option NodeId) := do
  let nodes := splittable w layer tried
  let arcs := fun n => (w.graph.incoming n).size
  let ranked ←
    match p.options.selection with
    | .firstRelaxed => pure (nodes.map fun n => (n, ((0 : Int), 0)))
    | .mostIncomingArcs => pure (nodes.map fun n => (n, ((0 : Int), arcs n)))
    | .priority => nodes.mapM fun n => do
      let priority ← p.model.splitPriority (w.nodeFacts p.model n (w.graph.node n).states)
      return (n, (priority, arcs n))
  return (Preference.best? (fun a b => exceeds a.2 b.2) ranked).map (·.1)

/-- Whether a node with the given down state, and otherwise like `n`, passes the tests of nodes and
keeps at least one outgoing arc. -/
def canContinue (p : Plan) (w : Workspace) (n : NodeId) (layer : Nat) (down : State) :
    Checked Bool := do
  let m := p.model
  let up := w.graph.state n .up
  let combined ← if w.combinedKnown m then some <$> m.derive down up else pure none
  let passes ←
    if w.upKnown then
      m.nodePasses (w.nodeFacts m n ⟨down, up, combined.getD (m.fresh .combined)⟩)
    else pure true
  if !passes then return false
  (w.graph.outgoing n).toList.anyM fun a =>
    let arc := w.graph.arc a
    m.arcPasses layer arc.value down combined (w.up? m arc.child) (w.combined? m arc.child)

def discard (p : Plan) (c : Candidate) : Work Unit := do
  modify (Workspace.tally fun t => { t with candidatesPruned := t.candidatesPruned + 1 })
  c.arcs.forM (retestArc p fun _ _ => .ok false)

def discardDead (p : Plan) (n : NodeId) (layer : Nat) (cs : List Candidate) : Work Bool :=
  cs.foldlM (fun discarded c => do
    let w ← get
    if ← canContinue p w n layer c.down then return discarded
    else
      discard p c
      return true) false

/-- The bundles in the order in which they become nodes. -/
def inOrder (p : Plan) (layer : Nat) (cs : List Candidate) : Checked (List Candidate) := do
  let ranked ←
    match p.options.ordering with
    | .discovery => pure (cs.map fun c => (c, ((0 : Int), 0)))
    | .mostArcs => pure (cs.map fun c => (c, ((0 : Int), c.arcs.length)))
    | .priority => cs.mapM fun c => do
      let priority ← p.model.candidatePriority c.down c.arcs.length layer
      return (c, (priority, c.arcs.length))
  return (Preference.sort (fun a b => exceeds a.2 b.2) ranked).map (·.1)

/-- Gives the new node a copy of an outgoing arc of the old one if it passes the tests. -/
def copyArc (p : Plan) (new : NodeId) (a : ArcId) : Work Unit := do
  let w ← get
  let arc := w.graph.arc a
  if ← w.keepsArc p.model arc.value new arc.child then
    modify fun w => (w.connect new arc.child arc.value).schedule p .down .full arc.child

def moveArc (p : Plan) (new : NodeId) (a : ArcId) : Work Unit := do
  let arc := (← get).graph.arc a
  if arc.active then
    modify fun w => (w.connect arc.parent new arc.value).schedule p .up .full arc.parent
    cutArc p a

/-- Makes a bundle a node of its own beside `n`. -/
def splitOff (p : Plan) (n : NodeId) (layer : Nat) (c : Candidate) : Work Unit := do
  let w ← get
  let states ← w.statesWith p.model c.down (w.graph.state n .up)
  let new ← modifyGet (Workspace.addNode layer states)
  modify fun w =>
    { w with
      budget := w.budget - 1
      counters := { w.counters with nodesSplit := w.counters.nodesSplit + 1 } }
  ((← get).graph.outgoing n).toList.forM (copyArc p new)
  c.arcs.forM (moveArc p new)
  modify fun w => w.schedule p .up .full new
  let w ← get
  let node := w.graph.node new
  if node.active then
    let isolated := node.outgoing.isEmpty || node.incoming.isEmpty
    let kept ← if isolated then pure false else w.keepsNode p.model new
    if !kept then dropNode p new

/-- The layer from which the refinement goes on after it discarded bundles on `layer`. -/
def retreatLayer (p : Plan) (layer : Nat) : Nat :=
  max 1 (layer - p.options.reboot.getD (p.model.retreat layer))

/-- Splits nodes of a layer while there is room, in at most `fuel` attempts. If bundles were
discarded, the layer is returned from which the refinement goes on. -/
def splitNodes (p : Plan) (layer maxWidth : Nat) : Nat → List NodeId → Work (Option Nat)
  | 0, _ => throw .exhausted
  | fuel + 1, tried => do
    let w ← get
    if w.graph.width layer < maxWidth && 0 < w.budget then
      match ← selectNode p w layer tried with
      | none => return none
      | some n =>
        let candidates ← candidatesOf p n layer
        match candidates with
        | [] => splitNodes p layer maxWidth fuel (n :: tried)
        | [c] =>
          if !c.down.relaxed then adoptState p .down n c.down
          splitNodes p layer maxWidth fuel (n :: tried)
        | _ =>
          if ← discardDead p n layer candidates then
            modify (Workspace.tally fun t => { t with reboots := t.reboots + 1 })
            return some (retreatLayer p layer)
          let w ← get
          if w.graph.isActive n then
            let room := min (maxWidth - w.graph.width layer) (min (candidates.length - 1) w.budget)
            let ordered ← inOrder p layer candidates
            (ordered.take room).forM (splitOff p n layer)
          splitNodes p layer maxWidth fuel (n :: tried)
    else return none

end Work
end DecisionDiagrams
