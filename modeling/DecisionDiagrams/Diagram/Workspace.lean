import DecisionDiagrams.Diagram.Agenda
import DecisionDiagrams.Options
import DecisionDiagrams.Report.Counters
import DecisionDiagrams.Spec.Model
import Std.Data.ExtTreeMap
import Std.Data.TreeMap

/-! A diagram and the scratch space of its propagation. The diagram itself is the layered graph, the
number of arcs behind every value of every layer, and how far its states are known. A propagation
works on the diagram and the domains at once; if it stops early, what it did so far stays done. -/

namespace DecisionDiagrams

structure Plan where
  model : Model
  options : Options
deriving Inhabited

/-- How many arcs of a layer carry each value. A value without arcs has no entry. -/
abbrev Supports := Std.ExtTreeMap Int Nat

namespace Supports

def count (v : Int) (s : Supports) : Nat := s.getD v 0

def put (v : Int) (n : Nat) (s : Supports) : Supports := if n = 0 then s.erase v else s.insert v n

def increment (v : Int) (s : Supports) : Supports := s.put v (s.count v + 1)

def decrement (v : Int) (s : Supports) : Supports := s.put v (s.count v - 1)

end Supports

/-! ### Memory

Down transitions which were computed before. A transition depends on the layer, the value and
the down and combined state of the parent, so these make up the key. Entries are looked up by the
down state first and then one by one. -/

structure MemoKey where
  layer : Nat
  value : Int
  down : State
  combined : Option State
deriving DecidableEq

structure Memo where
  entries : Std.TreeMap Nat (List (MemoKey × State)) := ∅

namespace Memo

instance : Inhabited Memo := ⟨{}⟩

def bucket (c : Memo) (key : MemoKey) : List (MemoKey × State) :=
  c.entries.getD key.down.code []

def find? (c : Memo) (key : MemoKey) : Option State :=
  (c.bucket key).lookup key

def insert (c : Memo) (key : MemoKey) (s : State) : Memo :=
  ⟨c.entries.insert key.down.code ((key, s) :: c.bucket key)⟩

end Memo

/-! ### Diagrams -/

structure Diagram where
  graph : Graph
  supports : Array Supports
  /-- Whether the first diagram was built. -/
  built : Bool := false
  /-- Whether the up and combined states of all nodes are known. -/
  upKnown : Bool
deriving Inhabited

namespace Diagram

/-- The diagram before its first propagation. -/
def initial (m : Model) : Diagram :=
  { graph := .withLayers (m.depth + 1)
    supports := Array.replicate m.depth ∅
    upKnown := !m.hasUp }

end Diagram

/-- Why a propagation stops before the diagram agrees with the domains. -/
inductive Stop
  /-- A variable would lose its last value. -/
  | emptyDomain
  /-- No path from the root to the sink is left. -/
  | noPath
  /-- The allowance of steps is used up. -/
  | exhausted
  /-- A rule cannot go on. -/
  | fault (f : Fault)
deriving DecidableEq, Inhabited, Repr

/-- One change of a diagram or of a domain. -/
inductive Change
  | addNode (layer : Nat) (states : BySide State)
  | connect (parent child : NodeId) (value : Int)
  | unhook (a : ArcId)
  | retire (n : NodeId)
  | putState (n : NodeId) (side : Side) (s : State)
  | strike (x : Var) (v : Int)

structure Workspace extends Diagram where
  domains : Domains
  /-- What was changed since the propagation began, the latest change first. -/
  changes : List Change := []
  agenda : Agenda
  cache : Memo := {}
  /-- The number of nodes which may still be created by splitting. -/
  budget : Nat
  counters : Counters := {}
deriving Inhabited

/-- A step of a propagation. -/
abbrev Work := EStateM Stop Workspace

def Work.ofChecked {α : Type} : Checked α → Work α
  | .ok a => pure a
  | .error f => throw (.fault f)

instance : MonadLift Checked Work := ⟨Work.ofChecked⟩

namespace Workspace

def tally (f : Counters → Counters) (w : Workspace) : Workspace :=
  { w with counters := f w.counters }

def support (w : Workspace) (layer : Nat) (v : Int) : Nat :=
  (w.supports.getD layer ∅).count v

def combinedKnown (w : Workspace) (m : Model) : Bool := w.upKnown && m.hasCombined

def combined? (w : Workspace) (m : Model) (n : NodeId) : Option State :=
  if w.combinedKnown m then some (w.graph.state n .combined) else none

/-- The up state of a node, if it is known; the one of the sink always is. -/
def up? (w : Workspace) (m : Model) (n : NodeId) : Option State :=
  if w.upKnown || w.graph.layerOf n == m.depth then some (w.graph.state n .up) else none

def statesWith (w : Workspace) (m : Model) (down up : State) : Checked (BySide State) := do
  let combined ← if w.combinedKnown m then m.derive down up else pure (m.fresh .combined)
  return ⟨down, up, combined⟩

def keepsArc (w : Workspace) (m : Model) (value : Int) (parent child : NodeId) : Checked Bool :=
  m.arcPasses (w.graph.layerOf parent) value (w.graph.state parent .down) (w.combined? m parent)
    (w.up? m child) (w.combined? m child)

def nodeFacts (w : Workspace) (m : Model) (n : NodeId) (states : BySide State) : NodeFacts :=
  let node := w.graph.node n
  m.nodeFacts node.layer states node.incoming.size node.outgoing.size

/-- Whether a node passes the tests of nodes, which are not made before its states are known. -/
def keepsNode (w : Workspace) (m : Model) (n : NodeId) : Checked Bool :=
  if w.upKnown then m.nodePasses (w.nodeFacts m n (w.graph.node n).states) else .ok true

def addNode (layer : Nat) (states : BySide State) (w : Workspace) : NodeId × Workspace :=
  let (n, graph) := w.graph.appendNode layer states
  (n,
    { w with
      graph
      changes := .addNode layer states :: w.changes
      counters := { w.counters with nodesCreated := w.counters.nodesCreated + 1 } })

def connect (parent child : NodeId) (value : Int) (w : Workspace) : Workspace :=
  let layer := w.graph.layerOf parent
  { w with
    supports := w.supports.modify layer (Supports.increment value)
    graph := w.graph.connect parent child value
    changes := .connect parent child value :: w.changes }

def unhook (a : ArcId) (w : Workspace) : Workspace :=
  let arc := w.graph.arc a
  let layer := w.graph.layerOf arc.parent
  { w with
    supports := w.supports.modify layer (Supports.decrement arc.value)
    graph := w.graph.detach a
    changes := .unhook a :: w.changes
    counters := { w.counters with arcsRemoved := w.counters.arcsRemoved + 1 } }

def retire (n : NodeId) (w : Workspace) : Workspace :=
  { w with
    graph := w.graph.withdraw n
    changes := .retire n :: w.changes
    counters := { w.counters with nodesDeleted := w.counters.nodesDeleted + 1 } }

def putState (n : NodeId) (side : Side) (s : State) (w : Workspace) : Workspace :=
  { w with graph := w.graph.putState n side s, changes := .putState n side s :: w.changes }

def lose (x : Var) (v : Int) (domains : Domains) (w : Workspace) : Workspace :=
  { w with
    domains
    changes := .strike x v :: w.changes
    counters := { w.counters with valuesRemoved := w.counters.valuesRemoved + 1 } }

/-- Notes that an active node has to be computed again. Exact diagrams never do so, nor does a
direction without transitions or a node without neighbours on that side. -/
def schedule (p : Plan) (direction : Direction) (r : Demand) (w : Workspace) (n : NodeId) :
    Workspace :=
  let node := w.graph.node n
  let fed :=
    match direction with
    | .down => decide (0 < node.layer)
    | .up => p.model.hasUp && decide (node.layer < p.model.depth)
  if !p.options.isExact && node.active && fed then
    { w with agenda := w.agenda.note direction n node.layer r }
  else w

end Workspace

namespace Work

def removeValue (x : Var) (v : Int) : Work Unit := do
  let w ← get
  match w.domains.remove? x v with
  | none => throw .emptyDomain
  | some (_, domains) => set (w.lose x v domains)

def dropUnsupported (m : Model) (layer : Nat) (v : Int) : Work Unit := do
  let w ← get
  if w.support layer v == 0 && w.domains.contains (m.var layer) v then removeValue (m.var layer) v

end Work
end DecisionDiagrams
