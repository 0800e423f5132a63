import DecisionDiagrams.Diagram.Removal
import DecisionDiagrams.Diagram.Arrival
import DecisionDiagrams.Preference

/-! Building a diagram from the root to the sink. The children of a layer are collected first: arcs
which lead to the same state share a child. If there are more children than the layer may hold,
those with the fewest arcs are merged into the most similar of the others. -/

namespace DecisionDiagrams

/-- A node of the layer which is being built. -/
structure Draft where
  down : State
  /-- The parents and labels of its arcs. -/
  arcs : Array (NodeId × Int)
deriving Inhabited

structure Frontier where
  drafts : Array Draft := #[]
  places : Std.TreeMap Nat Nat := ∅

namespace Frontier

def add (f : Frontier) (down : State) (parent : NodeId) (value : Int) : Frontier :=
  match f.places[down.code]? with
  | some i =>
    { f with drafts := f.drafts.modify i fun d => { d with arcs := d.arcs.push (parent, value) } }
  | none =>
    { drafts := f.drafts.push ⟨down, #[(parent, value)]⟩
      places := f.places.insert down.code f.drafts.size }

end Frontier

namespace Nearness

/-- A number which orders distances: the larger the distance, the larger the number. Zero with a
negative sign comes before zero, and a distance which is no number comes before all others. -/
def rank (d : Float) : Int :=
  if d.isNaN then -0x10000000000000000
  else
    let b := d.toBits
    if b < 0x8000000000000000 then (b.toNat : Int)
    else -((b - 0x8000000000000000).toNat : Int) - 1

end Nearness

namespace Model

/-- The place of the kept draft nearest to a state, the first one among equally near ones. -/
def nearest? (m : Model) (kept : List Draft) (down : State) : Checked (Option Nat) := do
  let ranked ← kept.zipIdx.mapM fun k =>
    return (k.2, Nearness.rank (← m.distance .down k.1.down down))
  return (Preference.best? (fun a b => decide (a.2 < b.2)) ranked).map (·.1)

def absorb (m : Model) (kept : List Draft) (d : Draft) : Checked (List Draft) := do
  let some i ← m.nearest? kept d.down | return kept
  let some k := kept[i]? | return kept
  let merged ← m.mergeListed .down (m.everyProperty .down) k.down d.down
  return kept.set i { down := { merged with relaxed := true }, arcs := k.arcs ++ d.arcs }

/-- Reduces the drafts to at most `width` and tells how many were merged. Those with the most arcs
are kept. -/
def mergeDrafts (m : Model) (width : Nat) (drafts : List Draft) : Checked (List Draft × Nat) := do
  if drafts.length ≤ width then return (drafts, 0)
  let sorted := Preference.sort (fun a b => decide (b.arcs.size < a.arcs.size)) drafts
  let excess := sorted.drop width
  return (← excess.foldlM m.absorb (sorted.take width), excess.length)

end Model

namespace Work

def collectChildren (p : Plan) (layer : Nat) (values : List Int) (f : Frontier) (parent : NodeId) :
    Work Frontier :=
  values.foldlM (fun f v => do
    let w ← get
    let sinkUp := if layer + 1 = p.model.depth then some (p.model.fresh .up) else none
    if ← p.model.arcPasses layer v (w.graph.state parent .down) (w.combined? p.model parent)
        sinkUp none then do
      let down ← stateAlong p .down layer parent (.singleton v)
      return f.add down parent v
    else return f) f

def addDraft (p : Plan) (layer : Nat) (d : Draft) : Work Unit := do
  let w ← get
  let states ← w.statesWith p.model d.down (p.model.fresh .up)
  let n ← modifyGet (Workspace.addNode layer states)
  d.arcs.toList.forM fun a => modify (Workspace.connect a.1 n a.2)

/-- Builds the layer below `layer`. Parents which get no arc are deleted. -/
def growLayer (p : Plan) (width : Option Nat) (layer : Nat) : Work Unit := do
  let w ← get
  let parents := (w.graph.layer layer).toList
  let values := w.domains.values (p.model.var layer)
  let frontier ← parents.foldlM (collectChildren p layer values) {}
  if frontier.drafts.isEmpty then throw .noPath
  let drafts := frontier.drafts.toList
  let (drafts, merged) ←
    if layer + 1 = p.model.depth then p.model.mergeDrafts 1 drafts
    else
      match width with
      | some width => p.model.mergeDrafts width drafts
      | none => pure (drafts, 0)
  modify (Workspace.tally fun c => { c with nodesMerged := c.nodesMerged + merged })
  drafts.forM (addDraft p (layer + 1))
  parents.forM fun n => do
    let node := (← get).graph.node n
    if node.active && node.outgoing.isEmpty then dropNode p n

def grow (p : Plan) (width : Option Nat) : Work Unit := do
  modify fun w => { w with built := true }
  modify (Workspace.tally fun c => { c with constructions := c.constructions + 1 })
  let w ← get
  let states ← w.statesWith p.model (p.model.fresh .down) (p.model.fresh .up)
  let _ ← modifyGet (Workspace.addNode 0 states)
  (List.range p.model.depth).forM (growLayer p width)
  let upKnown := (← get).upKnown
  if upKnown then testNodes p
  enforceSupports p

end Work
end DecisionDiagrams
