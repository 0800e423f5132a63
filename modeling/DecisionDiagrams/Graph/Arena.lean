import DecisionDiagrams.Graph
import DecisionDiagrams.History

/-! The layered graph as it is stored. Nodes and arcs live in slots. Every change is written to a journal, from
which it is undone when an earlier level is entered again. A slot is handed out again only after the creation of
what was in it has been undone; what is merely removed keeps its slot, since undoing may bring it back. Where a
check fails or something is looked up outside of a list, there is no result. -/

namespace DecisionDiagrams

/-- Puts `x` in at `i`, where `dropAt` took it out; the entry which had moved there goes back to the end. -/
def insertAt (xs : Array Nat) (i x : Nat) : Array Nat :=
  match xs[i]? with
  | some displaced => (xs.setIfInBounds i x).push displaced
  | none => xs.push x

/-- The list reaches to `i`, and the entry which `dropAt` moves there is below `count`. -/
def canDrop (xs : Array Nat) (i count : Nat) : Bool := i < xs.size && (dropAt xs i)[i]?.all (· < count)

/-- There is room at `i`, and the entry which `insertAt` displaces is below `count`. -/
def canInsert (xs : Array Nat) (i count : Nat) : Bool := i ≤ xs.size && xs[i]?.all (· < count)

def occupy {α : Type} (slots : Array α) (free : List Nat) (x : α) : Option (Nat × Array α × List Nat) :=
  match free with
  | [] => some (slots.size, slots.push x, [])
  | i :: free => if i < slots.size then some (i, slots.setIfInBounds i x, free) else none

namespace Graph

def uncreateNode (g : Graph) (n : NodeId) : Graph :=
  { g with
    layers := g.layers.modify (g.layerOf n) Array.pop
    nodes := g.nodes.modify n fun m => { m with active := false } }

def uncreateArc (g : Graph) (a : ArcId) : Graph :=
  let arc := g.arc a
  { g with
    nodes := (g.nodes.modify arc.parent fun n => { n with outgoing := n.outgoing.pop }).modify arc.child
      fun n => { n with incoming := n.incoming.pop }
    arcs := g.arcs.modify a fun m => { m with active := false } }

def hookParent (g : Graph) (a : ArcId) : Graph :=
  let arc := g.arc a
  let list := g.outgoing arc.parent
  let g := { g with nodes := g.nodes.modify arc.parent fun n =>
    { n with outgoing := insertAt n.outgoing arc.outIndex a } }
  match list[arc.outIndex]? with
  | some displaced => { g with arcs := g.arcs.modify displaced fun m => { m with outIndex := list.size } }
  | none => g

def hookChild (g : Graph) (a : ArcId) : Graph :=
  let arc := g.arc a
  let list := g.incoming arc.child
  let g := { g with nodes := g.nodes.modify arc.child fun n =>
    { n with incoming := insertAt n.incoming arc.inIndex a } }
  match list[arc.inIndex]? with
  | some displaced => { g with arcs := g.arcs.modify displaced fun m => { m with inIndex := list.size } }
  | none => g

def attach (g : Graph) (a : ArcId) : Graph :=
  let g := (g.hookParent a).hookChild a
  { g with arcs := g.arcs.modify a fun m => { m with active := true } }

def restore (g : Graph) (n : NodeId) : Graph :=
  let l := g.layerOf n
  let position := (g.node n).position
  let list := g.layer l
  let g := { g with layers := g.layers.modify l (insertAt · position n) }
  let g := match list[position]? with
    | some displaced => { g with nodes := g.nodes.modify displaced fun m => { m with position := list.size } }
    | none => g
  { g with nodes := g.nodes.modify n fun m => { m with active := true } }

end Graph

/-- What a journal keeps of a change of the graph. -/
inductive GraphChange
  | nodeCreated (n : NodeId)
  | nodeRemoved (n : NodeId)
  | arcCreated (a : ArcId)
  | arcRemoved (a : ArcId)
  /-- The state was another one before. -/
  | stateAssigned (n : NodeId) (side : Side) (old : State)

/-- The graph in its slots, with what was written to undo its changes. -/
structure Arena where
  graph : Graph
  /-- The free slots for nodes, the next one first. -/
  freeNodes : List NodeId := []
  /-- The free slots for arcs, the next one first. -/
  freeArcs : List ArcId := []
  journal : Journal GraphChange := {}

inductive GraphRequest
  | createNode (l : Nat) (states : BySide State)
  | addArc (parent child : NodeId) (value : Int)
  | removeArc (a : ArcId)
  | removeNode (n : NodeId)
  | setState (n : NodeId) (side : Side) (s : State)
  | align (target : Nat)
  | synchronise (target : Nat)

namespace Arena

/-- The graph without the free slots behind it. -/
def inUse (a : Arena) : Graph :=
  { a.graph with
    nodes := a.graph.nodes.take (a.graph.nodes.size - a.freeNodes.length)
    arcs := a.graph.arcs.take (a.graph.arcs.size - a.freeArcs.length) }

def withLayers (count : Nat) : Arena := { graph := Graph.withLayers count }

def createNode (a : Arena) (l : Nat) (states : BySide State) : Option (NodeId × Arena) := do
  let layer ← a.graph.layers[l]?
  let node : Node :=
    { layer := l, position := layer.size, active := true, states, outgoing := #[], incoming := #[] }
  let (n, nodes, freeNodes) ← occupy a.graph.nodes a.freeNodes node
  return (n, { a with
    graph := { a.graph with nodes, layers := a.graph.layers.modify l (·.push n) }
    freeNodes
    journal := a.journal.write (.nodeCreated n) })

def addArc (a : Arena) (parent child : NodeId) (value : Int) : Option (ArcId × Arena) := do
  let p ← a.graph.nodes[parent]?
  let c ← a.graph.nodes[child]?
  guard (p.layer + 1 = c.layer)
  let arc : Arc :=
    { value, parent, child, outIndex := p.outgoing.size, inIndex := c.incoming.size, active := true }
  let (e, arcs, freeArcs) ← occupy a.graph.arcs a.freeArcs arc
  return (e, { a with
    graph := { a.graph with
      arcs
      nodes := (a.graph.nodes.modify parent fun n => { n with outgoing := n.outgoing.push e }).modify child
        fun n => { n with incoming := n.incoming.push e } }
    freeArcs
    journal := a.journal.write (.arcCreated e) })

def removeArc (a : Arena) (e : ArcId) : Option Arena := do
  let arc ← a.graph.arcs[e]?
  guard arc.active
  let parent ← a.graph.nodes[arc.parent]?
  guard (canDrop parent.outgoing arc.outIndex a.graph.arcs.size)
  let child ← a.graph.nodes[arc.child]?
  guard (canDrop child.incoming arc.inIndex a.graph.arcs.size)
  return { a with graph := a.graph.detach e, journal := a.journal.write (.arcRemoved e) }

def removeNode (a : Arena) (n : NodeId) : Option Arena := do
  let node ← a.graph.nodes[n]?
  guard node.active
  let layer ← a.graph.layers[node.layer]?
  guard (canDrop layer node.position a.graph.nodes.size)
  return { a with graph := a.graph.withdraw n, journal := a.journal.write (.nodeRemoved n) }

def setState (a : Arena) (n : NodeId) (side : Side) (s : State) : Option Arena := do
  let node ← a.graph.nodes[n]?
  return { a with
    graph := a.graph.putState n side s
    journal := a.journal.write (.stateAssigned n side (node.states.get side)) }

def align (a : Arena) (target : Nat) : Arena := { a with journal := a.journal.openTo target }

def undo (a : Arena) : GraphChange → Option Arena
  | .nodeCreated n => do
    let node ← a.graph.nodes[n]?
    let layer ← a.graph.layers[node.layer]?
    guard (layer.back? = some n)
    guard (node.outgoing.isEmpty && node.incoming.isEmpty)
    return { a with graph := a.graph.uncreateNode n, freeNodes := n :: a.freeNodes }
  | .nodeRemoved n => do
    let node ← a.graph.nodes[n]?
    let layer ← a.graph.layers[node.layer]?
    guard (canInsert layer node.position a.graph.nodes.size)
    return { a with graph := a.graph.restore n }
  | .arcCreated e => do
    let arc ← a.graph.arcs[e]?
    let parent ← a.graph.nodes[arc.parent]?
    guard (parent.outgoing.back? = some e)
    let child ← a.graph.nodes[arc.child]?
    guard (child.incoming.back? = some e)
    return { a with graph := a.graph.uncreateArc e, freeArcs := e :: a.freeArcs }
  | .arcRemoved e => do
    let arc ← a.graph.arcs[e]?
    let parent ← a.graph.nodes[arc.parent]?
    guard (canInsert parent.outgoing arc.outIndex a.graph.arcs.size)
    let child ← a.graph.nodes[arc.child]?
    guard (canInsert child.incoming arc.inIndex a.graph.arcs.size)
    return { a with graph := a.graph.attach e }
  | .stateAssigned n side old => do
    guard (n < a.graph.nodes.size)
    return { a with graph := a.graph.putState n side old }

/-- Undoes what was changed above the level `target`, the latest change first. -/
def synchronise (a : Arena) (target : Nat) : Option Arena :=
  if a.journal.level ≤ target then some a
  else
    let (undone, journal) := a.journal.cutBack target
    undone.foldlM undo { a with journal }

def perform (a : Arena) : GraphRequest → Option Arena
  | .createNode l states => (a.createNode l states).map (·.2)
  | .addArc parent child value => (a.addArc parent child value).map (·.2)
  | .removeArc e => a.removeArc e
  | .removeNode n => a.removeNode n
  | .setState n side s => a.setState n side s
  | .align target => some (a.align target)
  | .synchronise target => a.synchronise target

def performAll (a : Arena) (requests : List GraphRequest) : Option Arena := requests.foldlM perform a

end Arena

/-- What a request does to a graph whose earlier shapes are kept whole. -/
def GraphRequest.onHistory (h : History Graph) : GraphRequest → History Graph
  | .createNode l states => h.modify fun g => (g.appendNode l states).2
  | .addArc parent child value => h.modify (·.connect parent child value)
  | .removeArc e => h.modify (·.detach e)
  | .removeNode n => h.modify (·.withdraw n)
  | .setState n side s => h.modify (·.putState n side s)
  | .align target => Nat.repeat History.openCheckpoint (target - h.level) h
  | .synchronise target => h.backtrack target

end DecisionDiagrams
