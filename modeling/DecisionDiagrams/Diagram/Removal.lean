import DecisionDiagrams.Diagram.Workspace

/-! Removing arcs and nodes. A node which loses its last arc on one side is deleted with all of its
arcs, which may leave its neighbours without arcs in turn; a node which keeps some arcs has to be
computed again. The root and the sink cannot be deleted: without them there is no path. -/

namespace DecisionDiagrams.Work

/-- Deletes a node or notes it for a new computation, after it lost an arc on one side. -/
def settle (p : Plan) (delete : NodeId → Work Unit) (direction : Direction) (n : NodeId) :
    Work Unit := do
  let w ← get
  let node := w.graph.node n
  if node.active then
    let rest :=
      match direction with
      | .up => node.outgoing
      | .down => node.incoming
    if rest.isEmpty then delete n else set (w.schedule p direction .full n)

def cutArcWith (p : Plan) (delete : NodeId → Work Unit) (a : ArcId) : Work Unit := do
  let w ← get
  let arc := w.graph.arc a
  let layer := w.graph.layerOf arc.parent
  set (w.unhook a)
  dropUnsupported p.model layer arc.value
  settle p delete .up arc.parent
  settle p delete .down arc.child

def drainIncoming (remove : ArcId → Work Unit) (n : NodeId) : Nat → Work Unit
  | 0 => pure ()
  | count + 1 => do
    match (← get).graph.incoming n |>.back? with
    | some a => remove a; drainIncoming remove n count
    | none => pure ()

def drainOutgoing (remove : ArcId → Work Unit) (n : NodeId) : Nat → Work Unit
  | 0 => pure ()
  | count + 1 => do
    match (← get).graph.outgoing n |>.back? with
    | some a => remove a; drainOutgoing remove n count
    | none => pure ()

def dropNodeWith (p : Plan) (remove : ArcId → Work Unit) (n : NodeId) : Work Unit := do
  let node := (← get).graph.node n
  if node.active then
    if node.layer == 0 || node.layer == p.model.depth then throw .noPath
    modify (Workspace.retire n)
    drainIncoming remove n node.incoming.size
    drainOutgoing remove n ((← get).graph.outgoing n).size

/-- Removes an arc, with at most `depth` deletions inside one another. -/
def cutArcWithin (p : Plan) : Nat → ArcId → Work Unit
  | 0, _ => throw .exhausted
  | depth + 1, a => cutArcWith p (dropNodeWith p (cutArcWithin p depth)) a

/-- The number of deletions inside one another which no cascade exceeds: each of them deactivates
another node. -/
def cascadeDepth (w : Workspace) : Nat := w.graph.nodes.size + 1

def cutArc (p : Plan) (a : ArcId) : Work Unit := do
  cutArcWithin p (cascadeDepth (← get)) a

def dropNode (p : Plan) (n : NodeId) : Work Unit := do
  dropNodeWith p (cutArcWithin p (cascadeDepth (← get))) n

def retestArc (p : Plan) (keep : Workspace → Arc → Checked Bool) (a : ArcId) : Work Unit := do
  let w ← get
  let arc := w.graph.arc a
  if arc.active then
    let kept ← keep w arc
    if !kept then cutArc p a

def retestOutgoing (p : Plan) (n : NodeId) : Work Unit := do
  ((← get).graph.outgoing n).toList.forM
    (retestArc p fun w arc =>
      if w.graph.isActive n then w.keepsArc p.model arc.value n arc.child else .ok true)

def retestIncoming (p : Plan) (n : NodeId) : Work Unit := do
  ((← get).graph.incoming n).toList.forM
    (retestArc p fun w arc =>
      if w.graph.isActive n then w.keepsArc p.model arc.value arc.parent n else .ok true)

/-- Removes the arcs of a layer whose value left the domain of its variable. -/
def enforceDomain (p : Plan) (layer : Nat) : Work Unit := do
  ((← get).graph.layer layer).toList.forM fun n => do
    ((← get).graph.outgoing n).toList.forM
      (retestArc p fun w arc => .ok (w.domains.contains (p.model.var layer) arc.value))

def enforceSupports (p : Plan) : Work Unit :=
  (List.range p.model.depth).forM fun layer => do
    let x := p.model.var layer
    let w ← get
    ((w.domains.values x).filter fun v => w.support layer v == 0).forM (removeValue x)

def testNodes (p : Plan) : Work Unit :=
  (List.range (p.model.depth + 1)).forM fun layer => do
    ((← get).graph.layer layer).toList.forM fun n => do
      let w ← get
      if w.graph.isActive n then
        let kept ← w.keepsNode p.model n
        if !kept then dropNode p n

end DecisionDiagrams.Work
