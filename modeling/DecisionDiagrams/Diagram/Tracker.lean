import DecisionDiagrams.Diagram.Agenda
import Std.Data.TreeMap

/-! The agenda as it is stored. For each direction there is a table of what is demanded of the waiting nodes,
and for each layer a list of nodes in the order in which they were first recorded. The table says whether anything
is left to do, and the lists say in which layer. Where a layer which does not exist is looked up, there is no
result. -/

namespace DecisionDiagrams

structure Lane where
  demands : Std.TreeMap NodeId Demand := ∅
  layers : Array (Array NodeId) := #[]

namespace Lane

/-- Takes the demands of listed nodes out of the table. A node without one is passed over. -/
def collect : List NodeId → Std.TreeMap NodeId Demand → List (NodeId × Demand) × Std.TreeMap NodeId Demand
  | [], demands => ([], demands)
  | n :: rest, demands =>
    match demands[n]? with
    | some r =>
      let (taken, demands) := collect rest (demands.erase n)
      ((n, r) :: taken, demands)
    | none => collect rest demands

/-- Joins `r` to the demand of a node which waits already, or puts the node at the end of its layer. -/
def record (lane : Lane) (n : NodeId) (layer : Nat) (r : Demand) : Option Lane :=
  match lane.demands[n]? with
  | some q => some { lane with demands := lane.demands.insert n (q.join r) }
  | none =>
    if layer < lane.layers.size then
      some { demands := lane.demands.insert n r, layers := lane.layers.modify layer (·.push n) }
    else none

def take (lane : Lane) (layer : Nat) : Option (Waiting × Lane) :=
  lane.layers[layer]?.map fun nodes =>
    let (taken, demands) := collect nodes.toList lane.demands
    (taken, { demands, layers := lane.layers.setIfInBounds layer #[] })

def lists (lane : Lane) (layer : Nat) : Bool := !(lane.layers.getD layer #[]).isEmpty

def clear (lane : Lane) : Lane := { demands := ∅, layers := lane.layers.map fun _ => #[] }

end Lane

structure Tracker where
  down : Lane
  up : Lane

namespace Tracker

def new (layers : Nat) : Tracker :=
  let lane := { layers := Array.replicate layers #[] }
  { down := lane, up := lane }

def lane (t : Tracker) : Direction → Lane
  | .down => t.down
  | .up => t.up

def withLane (t : Tracker) (direction : Direction) (lane : Lane) : Tracker :=
  match direction with
  | .down => { t with down := lane }
  | .up => { t with up := lane }

def record (t : Tracker) (direction : Direction) (n : NodeId) (layer : Nat) (r : Demand) : Option Tracker :=
  if r.isEmpty then some t
  else ((t.lane direction).record n layer r).map (t.withLane direction)

def takeLayer (t : Tracker) (direction : Direction) (layer : Nat) : Option (Waiting × Tracker) :=
  ((t.lane direction).take layer).map fun (taken, lane) => (taken, t.withLane direction lane)

def hasPending? (t : Tracker) (direction : Direction) (layer : Nat) : Option Bool :=
  if layer < (t.lane direction).layers.size then some ((t.lane direction).lists layer) else none

def shallowest (t : Tracker) (direction : Direction) : Option Nat :=
  (List.range (t.lane direction).layers.size).find? (t.lane direction).lists

def deepest (t : Tracker) (direction : Direction) : Option Nat :=
  (List.range (t.lane direction).layers.size).reverse.find? (t.lane direction).lists

def isEmpty (t : Tracker) : Bool := t.down.demands.isEmpty && t.up.demands.isEmpty

def clear (t : Tracker) : Tracker := { down := t.down.clear, up := t.up.clear }

inductive Request
  | record (direction : Direction) (n : NodeId) (layer : Nat) (r : Demand)
  | take (direction : Direction) (layer : Nat)
  | clear

def perform (t : Tracker) : Request → Option Tracker
  | .record direction n layer r => t.record direction n layer r
  | .take direction layer => (t.takeLayer direction layer).map Prod.snd
  | .clear => some t.clear

def performAll (requests : List Request) (t : Tracker) : Option Tracker := requests.foldlM perform t

end Tracker
end DecisionDiagrams
