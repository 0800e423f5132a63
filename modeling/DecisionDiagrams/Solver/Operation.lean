import DecisionDiagrams.Graph.Dot
import DecisionDiagrams.Graph.Shape
import DecisionDiagrams.Solver.Post

/-! The operations of a solver as data, what they answer, and what can be seen of a solver between them. -/

namespace DecisionDiagrams

/-- Assigning, removing and bounding a variable are restrictions of it. An operation which is refused
changes nothing. -/
inductive Operation
  | newVariable (d : Option Domain)
  | add (p : Plan)
  | post (cs : List Constraint) (o : Options)
  | restrict (x : Var) (keep : Int → Bool)
  | propagate
  | openCheckpoint
  | backtrack (target : Nat)

inductive Answer
  | variable (r : Except Solver.VariableError Var)
  | diagram (r : Except PostError Nat)
  | diagrams (r : Except PostError (List Nat))
  | restricted (r : Except Solver.DomainError Unit)
  | propagated (r : Option Failure)
  | opened
  /-- Whether the target is an earlier checkpoint. -/
  | returned (earlier : Bool)

structure Sight where
  level : Nat
  domains : List (List Int)
  shapes : List Shape
  dots : List String

namespace Solver

def sight (s : Solver) : Sight where
  level := s.level
  domains := s.domains.domains.toList.map (·.toList)
  shapes := s.world.diagrams.toList.map (·.graph.shape)
  dots := s.world.diagrams.toList.map (·.graph.dot)

def perform (s : Solver) : Operation → Answer × Solver
  | .newVariable d =>
    match s.addVariable d with
    | .ok (x, t) => (.variable (.ok x), t)
    | .error e => (.variable (.error e), s)
  | .add p => ((.diagram (s.addDiagram p).1), (s.addDiagram p).2)
  | .post cs o => ((.diagrams (s.post cs o).1), (s.post cs o).2)
  | .restrict x keep =>
    match s.restrict x (·.restrict? x keep) with
    | .ok t => (.restricted (.ok ()), t)
    | .error e => (.restricted (.error e), s)
  | .propagate => (.propagated s.propagate.1, s.propagate.2)
  | .openCheckpoint => (.opened, s.openCheckpoint)
  | .backtrack target =>
    match s.backtrack? target with
    | some t => (.returned true, t)
    | none => (.returned false, s)

def performAll (s : Solver) (os : List Operation) : Solver := os.foldl (fun s o => (s.perform o).2) s

def trace : Solver → List Operation → List (Answer × Sight)
  | _, [] => []
  | s, o :: os => ((s.perform o).1, (s.perform o).2.sight) :: (s.perform o).2.trace os

end Solver
end DecisionDiagrams
