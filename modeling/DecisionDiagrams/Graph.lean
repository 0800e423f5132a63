import DecisionDiagrams.Spec.Basic

/-! The layered graph under a diagram. Nodes and arcs keep the number they were created with. A node
knows its layer and its place there, an arc its places among the outgoing arcs of its parent and the
incoming arcs of its child. Taking something out of such a list moves the last entry into the gap,
so the order of what remains is part of the graph. Removed nodes and arcs stay in the arena, marked
as inactive. -/

namespace DecisionDiagrams

abbrev NodeId := Nat

abbrev ArcId := Nat

structure Node where
  layer : Nat
  /-- The place of the node in its layer. -/
  position : Nat
  active : Bool
  states : BySide State
  /-- The arcs to the next layer. -/
  outgoing : Array ArcId
  /-- The arcs from the previous layer. -/
  incoming : Array ArcId
deriving Inhabited

structure Arc where
  value : Int
  parent : NodeId
  child : NodeId
  /-- The place of the arc among the outgoing arcs of its parent. -/
  outIndex : Nat
  /-- The place of the arc among the incoming arcs of its child. -/
  inIndex : Nat
  active : Bool
deriving Inhabited

structure Graph where
  nodes : Array Node := #[]
  arcs : Array Arc := #[]
  layers : Array (Array NodeId)
deriving Inhabited

/-- Takes out the entry at `i`; the last entry moves into its place. -/
def dropAt (xs : Array Nat) (i : Nat) : Array Nat :=
  if h : i < xs.size then (xs.swap i (xs.size - 1) h (by omega)).pop else xs

namespace Graph

def withLayers (count : Nat) : Graph := { layers := Array.replicate count #[] }

def node (g : Graph) (n : NodeId) : Node := g.nodes.getD n default

def arc (g : Graph) (a : ArcId) : Arc := g.arcs.getD a default

def layer (g : Graph) (l : Nat) : Array NodeId := g.layers.getD l #[]

def width (g : Graph) (l : Nat) : Nat := (g.layer l).size

def layerCount (g : Graph) : Nat := g.layers.size

def state (g : Graph) (n : NodeId) (side : Side) : State := (g.node n).states.get side

def isActive (g : Graph) (n : NodeId) : Bool := (g.node n).active

def arcIsActive (g : Graph) (a : ArcId) : Bool := (g.arc a).active

def outgoing (g : Graph) (n : NodeId) : Array ArcId := (g.node n).outgoing

def incoming (g : Graph) (n : NodeId) : Array ArcId := (g.node n).incoming

def layerOf (g : Graph) (n : NodeId) : Nat := (g.node n).layer

def children (g : Graph) (n : NodeId) : List NodeId :=
  (g.outgoing n).toList.map fun a => (g.arc a).child

def parents (g : Graph) (n : NodeId) : List NodeId :=
  (g.incoming n).toList.map fun a => (g.arc a).parent

def appendNode (g : Graph) (l : Nat) (states : BySide State) : NodeId × Graph :=
  let id := g.nodes.size
  let node : Node :=
    { layer := l, position := g.width l, active := true, states, outgoing := #[], incoming := #[] }
  (id, { g with nodes := g.nodes.push node, layers := g.layers.modify l (·.push id) })

def connect (g : Graph) (parent child : NodeId) (value : Int) : Graph :=
  let id := g.arcs.size
  let arc : Arc :=
    { value, parent, child, outIndex := (g.outgoing parent).size,
      inIndex := (g.incoming child).size, active := true }
  { g with
    arcs := g.arcs.push arc
    nodes := (g.nodes.modify parent fun n => { n with outgoing := n.outgoing.push id }).modify child
      fun n => { n with incoming := n.incoming.push id } }

def unhookParent (g : Graph) (a : ArcId) : Graph :=
  let arc := g.arc a
  let g := { g with nodes := g.nodes.modify arc.parent fun n =>
    { n with outgoing := dropAt n.outgoing arc.outIndex } }
  match (g.outgoing arc.parent)[arc.outIndex]? with
  | some moved =>
    { g with arcs := g.arcs.modify moved fun m => { m with outIndex := arc.outIndex } }
  | none => g

def unhookChild (g : Graph) (a : ArcId) : Graph :=
  let arc := g.arc a
  let g := { g with nodes := g.nodes.modify arc.child fun n =>
    { n with incoming := dropAt n.incoming arc.inIndex } }
  match (g.incoming arc.child)[arc.inIndex]? with
  | some moved =>
    { g with arcs := g.arcs.modify moved fun m => { m with inIndex := arc.inIndex } }
  | none => g

def detach (g : Graph) (a : ArcId) : Graph :=
  let g := (g.unhookParent a).unhookChild a
  { g with arcs := g.arcs.modify a fun m => { m with active := false } }

/-- Removes a node from its layer; its arcs stay. -/
def withdraw (g : Graph) (n : NodeId) : Graph :=
  let l := g.layerOf n
  let position := (g.node n).position
  let g := { g with layers := g.layers.modify l (dropAt · position) }
  let g := match (g.layer l)[position]? with
    | some moved => { g with nodes := g.nodes.modify moved fun m => { m with position } }
    | none => g
  { g with nodes := g.nodes.modify n fun m => { m with active := false } }

def putState (g : Graph) (n : NodeId) (side : Side) (s : State) : Graph :=
  { g with nodes := g.nodes.modify n fun m => { m with states := m.states.set side s } }

end Graph
end DecisionDiagrams
