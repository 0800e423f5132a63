import DecisionDiagrams.Diagram.Workspace

/-! The states which nodes get from their neighbours. A state is computed along every arc, or along
every bundle of arcs to one neighbour, and the results are merged property by property. -/

namespace DecisionDiagrams

namespace Model

/-- Merges states into the first one. A state which equals the first one and everything merged so
far adds nothing; the flag tells whether another one was met. -/
def mergeInto (m : Model) (side : Side) (which : IndexSet) (first : State) (rest : List State) :
    Checked (State × Bool) :=
  rest.foldlM (fun acc s => do
    if s = acc.1 ∧ s = first then return acc
    return (← m.mergeListed side which acc.1 s, true)) (first, false)

end Model

abbrev Bundle := NodeId × IntSet

namespace Bundle

def add (n : NodeId) (v : Int) : List Bundle → List Bundle
  | [] => [(n, .singleton v)]
  | (m, vs) :: rest => if m = n then (m, vs.insert v) :: rest else (m, vs) :: add n v rest

end Bundle

namespace Workspace

/-- The neighbours of a node against the given direction, with the labels of the arcs to them: one
bundle for each arc, or one for each neighbour if values are grouped. -/
def bundles (w : Workspace) (p : Plan) (direction : Direction) (n : NodeId) : List Bundle :=
  let ends : List (NodeId × Int) :=
    match direction with
    | .down => (w.graph.incoming n).toList.map fun a =>
      ((w.graph.arc a).parent, (w.graph.arc a).value)
    | .up => (w.graph.outgoing n).toList.map fun a =>
      ((w.graph.arc a).child, (w.graph.arc a).value)
  if p.options.groupValues then ends.foldl (fun bs e => Bundle.add e.1 e.2 bs) []
  else ends.map fun e => (e.1, .singleton e.2)

/-- The layer of the arcs which lead to a node in the given direction. -/
def feedLayer (w : Workspace) (direction : Direction) (n : NodeId) : Nat :=
  match direction with
  | .down => w.graph.layerOf n - 1
  | .up => w.graph.layerOf n

end Workspace

namespace Work

/-- The state reached from a neighbour; down transitions over one value are remembered. -/
def stateAlong (p : Plan) (direction : Direction) (layer : Nat) (n : NodeId)
    (values : IntSet) : Work State := do
  let w ← get
  let source := w.graph.state n direction.side
  let combined := w.combined? p.model n
  match direction, values.toList, p.options.useCache with
  | .down, [v], true =>
    let key : MemoKey := { layer, value := v, down := source, combined }
    match w.cache.find? key with
    | some s =>
      set (w.tally fun c => { c with cacheHits := c.cacheHits + 1 })
      return s
    | none =>
      let s ← p.model.step direction layer source combined values
      set { w.tally fun c => { c with cacheMisses := c.cacheMisses + 1 } with
        cache := w.cache.insert key s }
      return s
  | _, _, _ => p.model.step direction layer source combined values

def partialFrom (p : Plan) (direction : Direction) (layer : Nat) (old : State) (which : IndexSet)
    (w : Workspace) (b : Bundle) : Checked State := do
  let source := w.graph.state b.1 direction.side
  let reached ←
    p.model.stepInto direction layer source (w.combined? p.model b.1) b.2 which old
  return { reached with relaxed := source.relaxed || decide (1 < b.2.size) }

/-- The state of a node from its neighbours. With a list of properties only these are computed, and
the others are taken from `old`.

The result is relaxed if a state along some bundle is, or if different states were merged. A partial
computation cannot see whether the neighbours still agree on the other properties, so a relaxed
node with several bundles stays relaxed. -/
def stateFromNeighbours (p : Plan) (direction : Direction) (layer : Nat) (bundles : List Bundle)
    (old : State) (r : Demand) : Work State := do
  let side := direction.side
  let (states, which, keepsFlag) ←
    match r with
    | .full => do
      let states ← bundles.mapM fun b => stateAlong p direction layer b.1 b.2
      pure (states, p.model.everyProperty side, false)
    | .only which => do
      let w ← get
      let states ← bundles.mapM fun b => partialFrom p direction layer old which w b
      pure (states, which, old.relaxed)
  match states with
  | [] => return old
  | first :: rest =>
    let (merged, distinct) ← p.model.mergeInto side which first rest
    return { merged with
      relaxed := states.any (·.relaxed) || (!rest.isEmpty && (distinct || keepsFlag)) }

end Work
end DecisionDiagrams
