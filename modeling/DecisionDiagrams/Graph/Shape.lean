import DecisionDiagrams.Graph

/-! The size of a diagram: how wide its layers are, how many nodes, arcs and paths it has, and
between which bounds the degrees lie. Paths are counted from the root, adding up what reaches each
node; the count stops growing at the largest number of 128 bits. -/

namespace DecisionDiagrams

structure Shape where
  /-- The number of nodes of every layer, from the root on. -/
  widths : List Nat
  nodes : Nat
  arcs : Nat
  paths : Nat
  /-- The number of nodes which stand for several states. -/
  relaxed : Nat
  minIn : Nat
  maxIn : Nat
  minOut : Nat
  maxOut : Nat
deriving DecidableEq, Repr

def Shape.maxWidth (s : Shape) : Nat := s.widths.foldl max 0

/-- The largest number of paths which is told apart from larger ones. -/
def pathLimit : Nat := 0xffffffffffffffffffffffffffffffff

def addPaths (a b : Nat) : Nat := min (a + b) pathLimit

namespace Graph

def liveNodes (g : Graph) : List NodeId := g.layers.toList.flatMap (·.toList)

/-- Adds the paths which reach a node to those of its children. -/
def spreadPaths (g : Graph) (counts : Array Nat) (n : NodeId) : Array Nat :=
  let here := counts.getD n 0
  (g.children n).foldl (fun cs c => cs.modify c (addPaths · here)) counts

def numPaths (g : Graph) : Nat :=
  let start := (g.layer 0).foldl (fun cs n => cs.setIfInBounds n 1) (Array.replicate g.nodes.size 0)
  let last := g.layerCount - 1
  let counts := (g.layers.toList.take last).foldl
    (fun cs layer => layer.foldl g.spreadPaths cs) start
  (g.layer last).foldl (fun total n => addPaths total (counts.getD n 0)) 0

def leastOf : List Nat → Nat
  | [] => 0
  | x :: r => r.foldl min x

def shape (g : Graph) : Shape :=
  let live := g.liveNodes
  let ins := (g.layers.toList.drop 1).flatMap fun l => l.toList.map fun n => (g.incoming n).size
  let outs := (g.layers.toList.take (g.layerCount - 1)).flatMap fun l =>
    l.toList.map fun n => (g.outgoing n).size
  { widths := g.layers.toList.map (·.size)
    nodes := live.length
    arcs := (live.map fun n => (g.outgoing n).size).foldl (· + ·) 0
    paths := g.numPaths
    relaxed := live.countP fun n => (g.state n .down).relaxed
    minIn := leastOf ins
    maxIn := ins.foldl max 0
    minOut := leastOf outs
    maxOut := outs.foldl max 0 }

end Graph
end DecisionDiagrams
