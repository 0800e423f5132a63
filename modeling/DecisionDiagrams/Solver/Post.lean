import DecisionDiagrams.Constraint.Basic
import DecisionDiagrams.Solver.Basic

/-! Posting constraints. They share one diagram or get one each. A diagram is built and propagated
when it is posted; if this fails, the solver stays infeasible. -/

namespace DecisionDiagrams

/-- Why constraints are not posted. -/
inductive PostError
  | malformed (m : Malformed)
  | notRegistrable
  | invalidOptions
  | specification (e : SpecError)
  | notAtRoot
  | infeasibleState
  | unknownVariable
  | infeasibleDiagram
  /-- The allowance of steps was used up. -/
  | exhausted
  /-- A rule could not go on. -/
  | fault (f : Fault)
deriving DecidableEq, Repr

def PostError.message : PostError → String
  | .malformed m => m.message
  | .notRegistrable => "A constraint refers to something which does not exist"
  | .invalidOptions =>
    "The decision diagram options are invalid: the maximum width of a diagram has to be positive"
  | .specification e => "The constraint could not be compiled: " ++ e.message
  | .notAtRoot => "propagators can only be added at the root"
  | .infeasibleState => "Adding the constraint failed because the root level is infeasible"
  | .unknownVariable => "A constraint refers to a variable which does not exist"
  | .infeasibleDiagram =>
    "Adding the constraint failed because the decision diagram is infeasible"
  | .exhausted => "The propagation was given up"
  | .fault _ => "A rule refers to a property which does not exist"

def PostError.ofFailure : Failure → PostError
  | .exhausted => .exhausted
  | .fault f => .fault f
  | .emptyDomain | .conflict _ => .infeasibleDiagram

namespace Solver

def addDiagram (s : Solver) (p : Plan) : Except PostError Nat × Solver :=
  if s.level ≠ 0 then (.error .notAtRoot, s)
  else if s.rootFailure.isSome then (.error .infeasibleState, s)
  else if !p.model.branchVars.all (fun x => decide (x < s.domains.size)) then
    (.error .unknownVariable, s)
  else
    let i := s.entries.size
    let s : Solver :=
      { s with
        history := s.history.modify fun w =>
          { w with diagrams := w.diagrams.push (Diagram.initial p.model) }
        entries := s.entries.push { plan := p } }
    match (s.lineUp i).propagate with
    | (none, s) => (.ok i, s)
    | (some f, s) => (.error (.ofFailure f), s)

def postShared (s : Solver) (cs : List Constraint) (o : Options) : Except PostError Nat × Solver :=
  if !cs.all (·.registrable s.domains) then (.error .notRegistrable, s)
  else if !o.isValid then (.error .invalidOptions, s)
  else
    match (Spec.ofConstraints s.domains cs).compile with
    | .error e => (.error (.specification e), s)
    | .ok m => s.addDiagram { model := m, options := o }

def postSeparate (o : Options) (posted : List Nat) : List Constraint → Solver →
    Except PostError (List Nat) × Solver
  | [], s => (.ok posted.reverse, s)
  | c :: rest, s =>
    match s.postShared [c] o with
    | (.ok i, s) => postSeparate o (i :: posted) rest s
    | (.error e, s) => (.error e, s)

def post (s : Solver) (cs : List Constraint) (o : Options) : Except PostError (List Nat) × Solver :=
  match cs.findSome? (·.malformed?) with
  | some m => (.error (.malformed m), s)
  | none =>
    match o.sharing with
    | .shared =>
      match s.postShared cs o with
      | (.ok i, s) => (.ok [i], s)
      | (.error e, s) => (.error e, s)
    | .separate => postSeparate o [] cs s

end Solver
end DecisionDiagrams
