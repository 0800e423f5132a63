import DecisionDiagrams.Graph

/-! A diagram as a text in the DOT language. The nodes of a layer stand on one line, labelled with
their layer and place; those which stand for several states are dashed. Then come the arcs, labelled
with their values. -/

namespace DecisionDiagrams.Graph

def dotNode (g : Graph) (layer : Nat) (n : NodeId) : String :=
  let style := if (g.state n .down).relaxed then ", style=dashed" else ""
  "    n" ++ toString n ++ " [label=\"" ++ toString layer ++ ":" ++ toString (g.node n).position ++
    "\"" ++ style ++ "];\n"

def dotLayer (g : Graph) (layer : Nat) : String :=
  "  \x7b rank=same;\n" ++ String.join ((g.layer layer).toList.map (g.dotNode layer)) ++ "  \x7d\n"

def dotArcs (g : Graph) (n : NodeId) : String :=
  String.join ((g.outgoing n).toList.map fun a =>
    "  n" ++ toString n ++ " -> n" ++ toString (g.arc a).child ++ " [label=\"" ++
      toString (g.arc a).value ++ "\"];\n")

def dot (g : Graph) : String :=
  let layers := List.range g.layerCount
  "digraph mdd \x7b\n" ++ String.join (layers.map g.dotLayer) ++
    String.join (layers.map fun l => String.join ((g.layer l).toList.map g.dotArcs)) ++ "\x7d\n"

end DecisionDiagrams.Graph
