import DecisionDiagrams.Graph

/-! The nodes whose states have to be computed again, by direction and layer, in the order in which
they were first noted. Noting a node again joins the properties; a full computation absorbs any list
of properties, and nothing is noted for an empty list. -/

namespace DecisionDiagrams

/-- What has to be computed again for a node. -/
inductive Demand
  | full
  | only (properties : IndexSet)
deriving DecidableEq, Inhabited

namespace Demand

def join : Demand → Demand → Demand
  | .only mine, .only theirs => .only (mine.union theirs)
  | _, _ => .full

def isEmpty : Demand → Bool
  | .full => false
  | .only properties => properties.isEmpty

end Demand

/-- The nodes of one layer which wait, in the order of their first note. -/
abbrev Waiting := List (NodeId × Demand)

def Waiting.note (n : NodeId) (r : Demand) : Waiting → Waiting
  | [] => [(n, r)]
  | (m, q) :: rest => if m = n then (m, q.join r) :: rest else (m, q) :: Waiting.note n r rest

structure Agenda where
  down : Array Waiting
  up : Array Waiting
deriving Inhabited

namespace Agenda

def empty (layers : Nat) : Agenda := ⟨Array.replicate layers [], Array.replicate layers []⟩

def get (a : Agenda) : Direction → Array Waiting
  | .down => a.down
  | .up => a.up

def modify (a : Agenda) (direction : Direction) (f : Array Waiting → Array Waiting) : Agenda :=
  match direction with
  | .down => { a with down := f a.down }
  | .up => { a with up := f a.up }

def waiting (a : Agenda) (direction : Direction) (layer : Nat) : Waiting :=
  (a.get direction).getD layer []

def note (a : Agenda) (direction : Direction) (n : NodeId) (layer : Nat) (r : Demand) : Agenda :=
  if r.isEmpty then a else a.modify direction (·.modify layer (Waiting.note n r))

def clearLayer (a : Agenda) (direction : Direction) (layer : Nat) : Agenda :=
  a.modify direction (·.modify layer fun _ => [])

def isPending (a : Agenda) (direction : Direction) (layer : Nat) : Bool :=
  !(a.waiting direction layer).isEmpty

def shallowest (a : Agenda) (direction : Direction) : Option Nat :=
  (List.range (a.get direction).size).find? (a.isPending direction)

def deepest (a : Agenda) (direction : Direction) : Option Nat :=
  (List.range (a.get direction).size).reverse.find? (a.isPending direction)

def isEmpty (a : Agenda) : Bool :=
  a.down.all (·.isEmpty) && a.up.all (·.isEmpty)

end Agenda
end DecisionDiagrams
