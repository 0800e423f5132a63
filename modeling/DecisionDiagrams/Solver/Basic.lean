import DecisionDiagrams.Diagram.Maintenance
import DecisionDiagrams.History

/-! A solver: variables with domains, diagrams over them, and checkpoints to go back to. Changes of
domains are not propagated at once. Propagation tells every diagram over a changed variable, and
then lets the waiting diagrams work one after another, first come first served, until none waits.
Going back restores domains and diagrams as they were; counters go on, and changes which were not
propagated yet are forgotten. -/

namespace DecisionDiagrams

/-- What checkpoints bring back. -/
structure World where
  domains : Domains := {}
  diagrams : Array Diagram := #[]
deriving Inhabited

/-- What is known about a diagram besides its present form. -/
structure Entry where
  plan : Plan
  /-- The layers whose variable lost a value since the last propagation of the diagram. -/
  lost : List Nat := []
  /-- What happened in the last propagation. -/
  last : Counters := {}
  /-- What happened in all propagations. -/
  total : Counters := {}
deriving Inhabited

/-- Why a propagation fails. -/
inductive Failure
  | emptyDomain
  /-- The diagram with this number has no path left. -/
  | conflict (diagram : Nat)
  /-- The allowance of steps is used up. -/
  | exhausted
  /-- A rule cannot go on. -/
  | fault (f : Fault)
deriving DecidableEq, Inhabited, Repr

namespace Failure

def ofStop (diagram : Nat) : Stop → Failure
  | .emptyDomain => .emptyDomain
  | .noPath => .conflict diagram
  | .exhausted => .exhausted
  | .fault f => .fault f

/-- Whether the failure says that the domains have no solution. Otherwise nothing is known about
them, and the solver is not used any more. -/
def isConflict : Failure → Bool
  | .emptyDomain | .conflict _ => true
  | .exhausted | .fault _ => false

end Failure

structure Solver where
  history : History World := { current := {} }
  entries : Array Entry := #[]
  /-- The diagrams which wait for their propagation. -/
  queue : List Nat := []
  /-- The failure found while no checkpoint was open; after it nothing is propagated any more. -/
  rootFailure : Option Failure := none
  counters : SolverCounters := {}
deriving Inhabited

namespace Solver

def world (s : Solver) : World := s.history.current

def domains (s : Solver) : Domains := s.world.domains

def level (s : Solver) : Nat := s.history.level

def setDomains (s : Solver) (d : Domains) : Solver :=
  { s with history := s.history.modify fun w => { w with domains := d } }

/-- The number of steps of a pass, or of diagrams in a row, after which a propagation gives up. -/
def allowance : Nat := 1000000000000

def lineUp (s : Solver) (i : Nat) : Solver :=
  if s.queue.contains i then s else { s with queue := s.queue ++ [i] }

/-- Tells a diagram that a variable of it changed. A diagram which is not built yet keeps no list of
layers, because it will be built from the domains. -/
def announceTo (x : Var) (s : Solver) (i : Nat) : Solver :=
  match s.entries[i]? with
  | none => s
  | some e =>
    match e.plan.model.branchVars.idxOf? x with
    | none => s
    | some layer =>
      let built := ((s.world.diagrams[i]?).map (·.built)).getD false
      let s := if built then
        { s with entries := s.entries.setIfInBounds i { e with lost := layer :: e.lost } } else s
      s.lineUp i

def announce (s : Solver) : Solver :=
  let changed := s.domains.changed.toList.eraseDups
  let s := s.setDomains s.domains.settle
  changed.foldl (fun s x => (List.range s.entries.size).foldl (announceTo x) s) s

def callDiagram (s : Solver) (fuel i : Nat) : Option Failure × Solver :=
  match s.entries[i]?, s.world.diagrams[i]? with
  | some e, some d =>
    let r := d.propagate e.plan fuel e.lost s.domains
    let e := { e with lost := [], last := r.counters, total := e.total.add r.counters }
    (r.stop.map (Failure.ofStop i),
      { s with
        history := s.history.modify fun w =>
          { domains := r.domains, diagrams := w.diagrams.setIfInBounds i r.diagram }
        entries := s.entries.setIfInBounds i e
        counters := { s.counters with propagatorCalls := s.counters.propagatorCalls + 1 } })
  | _, _ => (none, s)

def drain (fuel : Nat) : Nat → Solver → Option Failure × Solver
  | 0, s => (some .exhausted, s)
  | steps + 1, s =>
    match s.queue with
    | [] => (none, s)
    | i :: rest =>
      match ({ s with queue := rest }).callDiagram fuel i with
      | (none, s) => drain fuel steps s.announce
      | failed => failed

/-- Propagates all changes, with at most `fuel` steps of every pass and `fuel` diagrams in a row.
After a failure nothing waits any more; the caller goes back to an earlier checkpoint. -/
def propagateWithin (s : Solver) (fuel : Nat) : Option Failure × Solver :=
  match s.rootFailure with
  | some f => (some f, s)
  | none =>
    match drain fuel fuel s.announce with
    | (none, s) => (none, s)
    | (some f, s) =>
      (some f,
        { s with
          queue := []
          rootFailure := if s.level = 0 then some f else none
          counters := { s.counters with conflicts := s.counters.conflicts + 1 } })

def propagate (s : Solver) : Option Failure × Solver := s.propagateWithin allowance

inductive DomainError
  | unknownVariable
  | emptyDomain
deriving DecidableEq, Repr

/-- Restricts a variable; nothing changes if no value would remain. -/
def restrict (s : Solver) (x : Var) (f : Domains → Option (Bool × Domains)) :
    Except DomainError Solver :=
  if x < s.domains.size then
    match f s.domains with
    | some (_, d) => .ok (s.setDomains d)
    | none => .error .emptyDomain
  else .error .unknownVariable

def assign (s : Solver) (x : Var) (v : Int) : Except DomainError Solver :=
  s.restrict x (·.assign? x v)

inductive VariableError
  | notAtRoot
  | emptyDomain
deriving DecidableEq, Repr

def VariableError.message : VariableError → String
  | .notAtRoot => "variables can only be created at the root"
  | .emptyDomain => "an empty domain cannot be created"

def addVariable (s : Solver) (d : Option Domain) : Except VariableError (Var × Solver) :=
  if s.level ≠ 0 then .error .notAtRoot
  else
    match d with
    | none => .error .emptyDomain
    | some d => .ok (s.domains.size, s.setDomains (s.domains.add d))

def openCheckpoint (s : Solver) : Solver :=
  { s with
    history := s.history.openCheckpoint
    counters := { s.counters with checkpoints := s.counters.checkpoints + 1 } }

/-- Goes back to an earlier checkpoint; there is no answer if it is not an earlier one. -/
def backtrack? (s : Solver) (target : Nat) : Option Solver :=
  if target < s.level then
    some { s with
      history := (s.history.backtrack target).modify fun w => { w with domains := w.domains.settle }
      entries := s.entries.map fun e => { e with lost := [] }
      queue := []
      counters := { s.counters with backtracks := s.counters.backtracks + 1 } }
  else none

end Solver
end DecisionDiagrams
