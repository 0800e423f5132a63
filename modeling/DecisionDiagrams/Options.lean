/-! How diagrams are built and refined. Every choice has a name under which it is shown. -/

namespace DecisionDiagrams

inductive Sharing
  | separate
  | shared
deriving DecidableEq, Inhabited, Repr

/-- How the incoming arcs of a relaxed node are bundled into candidates for splitting. -/
inductive Bundling
  | exactState
  | equivalenceClass
deriving DecidableEq, Inhabited, Repr

/-- Which relaxed node of a layer is split first. -/
inductive Selection
  | priority
  | mostIncomingArcs
  | firstRelaxed
deriving DecidableEq, Inhabited, Repr

/-- Which candidates become nodes if the width does not allow all of them. -/
inductive Ranking
  | priority
  | mostArcs
  | discovery
deriving DecidableEq, Inhabited, Repr

inductive Construction
  | topDownMerge
  | widthOne
deriving DecidableEq, Inhabited, Repr

def Sharing.label : Sharing → String
  | .separate => "none"
  | .shared => "all"

def Bundling.label : Bundling → String
  | .exactState => "exact-state"
  | .equivalenceClass => "equivalence-class"

def Selection.label : Selection → String
  | .priority => "priority"
  | .mostIncomingArcs => "most-incoming-arcs"
  | .firstRelaxed => "first-relaxed"

def Ranking.label : Ranking → String
  | .priority => "priority"
  | .mostArcs => "most-arcs"
  | .discovery => "discovery"

def Construction.label : Construction → String
  | .topDownMerge => "top-down-merge"
  | .widthOne => "width-one"

structure Options where
  /-- The largest number of nodes in a layer; without it the diagram is exact. -/
  maxWidth : Option Nat := some 32
  sharing : Sharing := .shared
  split : Bundling := .exactState
  selection : Selection := .priority
  ordering : Ranking := .priority
  construction : Construction := .topDownMerge
  /-- Whether the arcs between two nodes are followed together. -/
  groupValues : Bool := false
  /-- The number of down passes of a propagation in which nodes are split. -/
  splitPasses : Nat := 8
  /-- The number of nodes a propagation may create by splitting. -/
  budget : Nat := 10000
  /-- How many layers the refinement moves back after bundles were discarded; derived from the
  scopes of the constraints if it is not given. -/
  reboot : Option Nat := none
  /-- Whether transitions are remembered within a propagation. -/
  useCache : Bool := true
deriving Inhabited

namespace Options

def exact : Options := { maxWidth := none }

def relaxed (width : Nat) : Options := { maxWidth := some width }

/-- A diagram has room for at least one node in every layer. -/
def isValid (o : Options) : Bool := o.maxWidth != some 0

def isExact (o : Options) : Bool := o.maxWidth.isNone

def firstWidth (o : Options) : Option Nat :=
  match o.construction with
  | .topDownMerge => o.maxWidth
  | .widthOne => o.maxWidth.map fun _ => 1

end Options
end DecisionDiagrams
