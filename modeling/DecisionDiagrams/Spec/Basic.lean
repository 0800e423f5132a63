import DecisionDiagrams.Domain
import DecisionDiagrams.State.Access

/-! What the constraints sharing one diagram ask for. A constraint registers its scope, the
properties which the states of the nodes carry for it, the rules which compute them along arcs, the
way their values are merged, the tests which arcs and nodes have to pass, and hints for splitting.
A rule may find that it cannot go on; this is its result then.
The variables are in the order of their first appearance in a scope; layer `i` of the diagram
branches on the `i`-th of them. -/

namespace DecisionDiagrams

/-- The three states of a node: what is known from the root, what is known from the sink, and what
follows from both. -/
inductive Side
  | down
  | up
  | combined
deriving DecidableEq, Inhabited, Repr

structure BySide (α : Type) where
  down : α
  up : α
  combined : α
deriving Inhabited

namespace BySide

variable {α β : Type}

def get (t : BySide α) : Side → α
  | .down => t.down
  | .up => t.up
  | .combined => t.combined

def modify (t : BySide α) (side : Side) (f : α → α) : BySide α :=
  match side with
  | .down => { t with down := f t.down }
  | .up => { t with up := f t.up }
  | .combined => { t with combined := f t.combined }

def set (t : BySide α) (side : Side) (a : α) : BySide α := t.modify side fun _ => a

def map (f : α → β) (t : BySide α) : BySide β := ⟨f t.down, f t.up, f t.combined⟩

def all (a : α) : BySide α := ⟨a, a, a⟩

end BySide

inductive Direction
  | down
  | up
deriving DecidableEq, Inhabited, Repr

def Direction.side : Direction → Side
  | .down => .down
  | .up => .up

structure PropertyRef where
  side : Side
  index : Nat
deriving DecidableEq, Inhabited, Repr

/-- How two values of a property are merged: element by element for numbers, and by a set operation
for sets. A merge of one's own changes the first state. -/
inductive Relaxation
  | minimum
  | maximum
  | union
  | intersection
  | custom (merge : View → View → Checked View)

namespace Relaxation

instance : Inhabited Relaxation := ⟨.minimum⟩

def supports : Relaxation → Kind → Bool
  | .minimum, k | .maximum, k => !k.isSet
  | .union, k | .intersection, k => k.isSet
  | .custom _, _ => true

end Relaxation

/-- What a transition sees: the state it starts from, the combined state of the same node once it is
known, and the layer of the arc with its variable. -/
structure StepFacts where
  source : View
  combined : Option View
  layer : Nat
  var : Var

/-- What a test of arcs sees. Up and combined states are given once they are known. -/
structure ArcFacts where
  parentDown : View
  parentCombined : Option View
  childUp : Option View
  childCombined : Option View
  layer : Nat
  value : Int

/-- What a test of nodes and a split priority see. -/
structure NodeFacts where
  down : View
  up : View
  combined : View
  layer : Nat
  numParents : Nat
  numChildren : Nat

structure CandidateFacts where
  down : View
  numArcs : Nat
  layer : Nat

/-- How a property gets its value. The properties a rule reads besides its own decide when it has to
run again. -/
inductive Rule
  | keep
  | transition (reads : List PropertyRef) (run : StepFacts → IntSet → View → Checked View)
  | combine (reads : List PropertyRef) (run : View → View → View → Checked View)

namespace Rule

instance : Inhabited Rule := ⟨.keep⟩

def reads : Rule → List PropertyRef
  | .keep => []
  | .transition reads _ | .combine reads _ => reads

def isTransition : Rule → Bool
  | .transition .. => true
  | _ => false

end Rule

/-- A constraint, numbered in the order of registration. -/
abbrev ScopeId := Nat

structure Property where
  constraint : ScopeId
  kind : Kind
  relaxation : Relaxation
  rule : Rule := .keep
  /-- Replaces the distance which decides what is cheap to merge. -/
  similarity : Option (View → View → Checked Float) := none
deriving Inhabited

structure Scope where
  name : String
  vars : List Var
deriving Inhabited

/-- Everything registered so far. -/
structure Spec where
  /-- The variable of every layer. -/
  branchVars : Array Var := #[]
  scopes : Array Scope := #[]
  properties : BySide (Array Property) := .all #[]
  arcChecks : Array (ScopeId × (ArcFacts → Checked Bool)) := #[]
  nodeChecks : Array (NodeFacts → Checked Bool) := #[]
  splitPriorities : Array (NodeFacts → Checked Int) := #[]
  candidatePriorities : Array (CandidateFacts → Checked Int) := #[]
  equivalenceKeys : Array (View → Checked Int) := #[]
  /-- Whether a rule was given for a property which is not registered. -/
  strayRule : Bool := false
deriving Inhabited

namespace Spec

def addVariables (s : Spec) (vars : List Var) : Spec :=
  { s with
    branchVars := vars.foldl (fun vs x => if vs.contains x then vs else vs.push x) s.branchVars }

def addScope (name : String) (vars : List Var) : StateM Spec ScopeId := fun s =>
  let t := s.addVariables vars
  (t.scopes.size, { t with scopes := t.scopes.push ⟨name, vars⟩ })

/-- Registers a property, which keeps its value along arcs until it is given a rule. -/
def declareProperty (constraint : ScopeId) (side : Side) (kind : Kind) (relaxation : Relaxation) :
    StateM Spec PropertyRef := fun s =>
  (⟨side, (s.properties.get side).size⟩,
    { s with properties := s.properties.modify side (·.push { constraint, kind, relaxation }) })

def adjust (p : PropertyRef) (f : Property → Property) : StateM Spec Unit := modify fun s =>
  if p.index < (s.properties.get p.side).size then
    { s with properties := s.properties.modify p.side (·.modify p.index f) }
  else { s with strayRule := true }

def setTransition (p : PropertyRef) (reads : List PropertyRef)
    (run : StepFacts → IntSet → View → Checked View) : StateM Spec Unit :=
  adjust p fun q => { q with rule := .transition reads run }

def setCombine (p : PropertyRef) (reads : List PropertyRef)
    (run : View → View → View → Checked View) : StateM Spec Unit :=
  adjust p fun q => { q with rule := .combine reads run }

def setSimilarity (p : PropertyRef) (f : View → View → Checked Float) : StateM Spec Unit :=
  adjust p fun q => { q with similarity := some f }

def setRelaxation (p : PropertyRef) (r : Relaxation) : StateM Spec Unit :=
  adjust p fun q => { q with relaxation := r }

/-- Adds a test of the arcs on the layers of the constraint's scope. -/
def addArcCheck (constraint : ScopeId) (check : ArcFacts → Checked Bool) : StateM Spec Unit :=
  modify fun s => { s with arcChecks := s.arcChecks.push (constraint, check) }

/-- Adds a test of the nodes whose down and up states are known. -/
def addNodeCheck (check : NodeFacts → Checked Bool) : StateM Spec Unit :=
  modify fun s => { s with nodeChecks := s.nodeChecks.push check }

def addSplitPriority (f : NodeFacts → Checked Int) : StateM Spec Unit :=
  modify fun s => { s with splitPriorities := s.splitPriorities.push f }

def addCandidatePriority (f : CandidateFacts → Checked Int) : StateM Spec Unit :=
  modify fun s => { s with candidatePriorities := s.candidatePriorities.push f }

def addEquivalenceKey (f : View → Checked Int) : StateM Spec Unit :=
  modify fun s => { s with equivalenceKeys := s.equivalenceKeys.push f }

end Spec
end DecisionDiagrams
