import DecisionDiagrams.Cells
import DecisionDiagrams.Graph.Arena
import DecisionDiagrams.Solver.Operation

/-! The solver as it is stored. Domains, support counts and graphs are changed in place and undone from journals of
their own. The journals of the domains and of the counts open a level with every checkpoint; the one of a graph is
brought to the level of the solver only when its diagram is propagated. What has no journal is reset on the way
back. Where a check of the storage fails, there is no result. -/

namespace DecisionDiagrams

structure StoredDiagram where
  plan : Plan
  arena : Arena
  /-- The support counts of each layer. -/
  rows : List Row
  /-- The level on which the diagram was built. -/
  builtAt : Option Nat := none
  /-- Whether the up and combined states of all nodes are known. -/
  upKnown : Bool
  lost : List Nat := []
  last : Counters := {}
  total : Counters := {}

namespace StoredDiagram

/-- The diagram with its counts, as a propagation reads it. -/
def whole (cells : Cells) (d : StoredDiagram) : Diagram where
  graph := d.arena.inUse
  supports := (d.rows.map (·.supports cells)).toArray
  built := d.builtAt.isSome
  upKnown := d.upKnown

/-- Goes back to an earlier level. A diagram which was built above it is not built any more. -/
def synchronise (target : Nat) (d : StoredDiagram) : Option StoredDiagram := do
  let arena ← d.arena.synchronise target
  let stays := d.builtAt.all (· ≤ target)
  return { d with
    arena
    builtAt := if stays then d.builtAt else none
    upKnown := if stays then d.upKnown else !d.plan.model.hasUp
    lost := [] }

end StoredDiagram

/-- What the propagation of a diagram changes. -/
structure Holdings where
  store : Store
  cells : Cells
  arena : Arena

namespace Holdings

/-- Counts that a value got or lost arcs; a value without a cell is not counted. -/
def count (rows : List Row) (layer : Nat) (v n : Int) (h : Holdings) : Holdings :=
  match rows[layer]?.bind (·.cell? v) with
  | some i => { h with cells := h.cells.add i n }
  | none => h

def make (rows : List Row) (h : Holdings) : Change → Option Holdings
  | .addNode layer states => (h.arena.createNode layer states).map fun r => { h with arena := r.2 }
  | .connect parent child v =>
    (h.arena.addArc parent child v).map fun r =>
      { h with arena := r.2 }.count rows (h.arena.graph.layerOf parent) v 1
  | .unhook a =>
    let arc := h.arena.graph.arc a
    (h.arena.removeArc a).map fun arena =>
      { h with arena }.count rows (h.arena.graph.layerOf arc.parent) arc.value (-1)
  | .retire n => (h.arena.removeNode n).map fun arena => { h with arena }
  | .putState n side s => (h.arena.setState n side s).map fun arena => { h with arena }
  | .strike x v =>
    match h.store.remove x v with
    | (some _, store) => some { h with store }
    | (none, _) => none

end Holdings

structure StoredSolver where
  store : Store := {}
  cells : Cells := {}
  diagrams : Array StoredDiagram := #[]
  /-- The diagrams which wait for their propagation. -/
  queue : List Nat := []
  rootFailure : Option Failure := none
  counters : SolverCounters := {}

namespace StoredSolver

def level (s : StoredSolver) : Nat := s.store.level

def lineUp (s : StoredSolver) (i : Nat) : StoredSolver :=
  if s.queue.contains i then s else { s with queue := s.queue ++ [i] }

def tell (x : Var) (s : StoredSolver) (i : Nat) : StoredSolver :=
  match s.diagrams[i]? with
  | none => s
  | some d =>
    match d.plan.model.branchVars.idxOf? x with
    | none => s
    | some layer =>
      let lost := if d.builtAt.isSome then layer :: d.lost else d.lost
      { s with diagrams := s.diagrams.setIfInBounds i { d with lost } }.lineUp i

def notify (s : StoredSolver) (x : Var) : StoredSolver :=
  (List.range s.diagrams.size).foldl (tell x) s

def announce (s : StoredSolver) : StoredSolver :=
  let (events, store) := s.store.drainEvents
  events.foldl (fun s e => s.notify e.1) { s with store }

/-- Lets one diagram work. Its graph is brought to the level of the solver before. -/
def callDiagram (s : StoredSolver) (fuel i : Nat) : Option (Option Failure × StoredSolver) :=
  match s.diagrams[i]? with
  | none => some (none, s)
  | some d => do
    let arena := d.arena.align s.level
    let domains ← s.store.listed?
    let r := ({ d with arena }.whole s.cells).propagate d.plan fuel d.lost domains
    let h ← r.changes.foldlM (Holdings.make d.rows) { store := s.store, cells := s.cells, arena }
    let d := { d with
      arena := h.arena
      builtAt := d.builtAt.or (if r.diagram.built then some s.level else none)
      upKnown := r.diagram.upKnown
      lost := []
      last := r.counters
      total := d.total.add r.counters }
    return (r.stop.map (Failure.ofStop i),
      { s with
        store := h.store
        cells := h.cells
        diagrams := s.diagrams.setIfInBounds i d
        counters := { s.counters with propagatorCalls := s.counters.propagatorCalls + 1 } })

def drain (fuel : Nat) : Nat → StoredSolver → Option (Option Failure × StoredSolver)
  | 0, s => some (some .exhausted, s)
  | steps + 1, s =>
    match s.queue with
    | [] => some (none, s)
    | i :: rest =>
      match { s with queue := rest }.callDiagram fuel i with
      | some (none, s) => drain fuel steps s.announce
      | failed => failed

/-- Propagates all changes. After a failure nothing waits any more; the caller goes back to an earlier
checkpoint. -/
def propagateWithin (s : StoredSolver) (fuel : Nat) : Option (Option Failure × StoredSolver) :=
  match s.rootFailure with
  | some f => some (some f, s)
  | none =>
    (drain fuel fuel s.announce).map fun r =>
      match r with
      | (none, s) => (none, s)
      | (some f, s) =>
        (some f,
          { s with
            queue := []
            rootFailure := if s.level = 0 then some f else none
            counters := { s.counters with conflicts := s.counters.conflicts + 1 } })

def propagate (s : StoredSolver) : Option (Option Failure × StoredSolver) := s.propagateWithin Solver.allowance

def restrict (s : StoredSolver) (x : Var) (r : Restriction) : Except Solver.DomainError StoredSolver :=
  if x < s.store.domains.size then
    match r.onStore s.store x with
    | (some _, store) => .ok { s with store }
    | (none, _) => .error .emptyDomain
  else .error .unknownVariable

def addVariable (s : StoredSolver) (o : Offer) : Except Solver.VariableError (Var × StoredSolver) :=
  if s.level ≠ 0 then .error .notAtRoot
  else
    match o.bitmap? with
    | none => .error .emptyDomain
    | some d => .ok (s.store.domains.size, { s with store := s.store.create d })

/-- The solver with one more diagram, which waits to be built. Cells are laid out for the values which its
variables had at first. -/
def enrol (s : StoredSolver) (p : Plan) : StoredSolver :=
  let (rows, cells) := s.cells.layOut (p.model.branchVars.toList.map s.store.bitmap)
  let d : StoredDiagram :=
    { plan := p, arena := .withLayers (p.model.depth + 1), rows, upKnown := !p.model.hasUp }
  { s with cells, diagrams := s.diagrams.push d }.lineUp s.diagrams.size

def addDiagram (s : StoredSolver) (p : Plan) : Option (Except PostError Nat × StoredSolver) :=
  if s.level ≠ 0 then some (.error .notAtRoot, s)
  else if s.rootFailure.isSome then some (.error .infeasibleState, s)
  else if !p.model.branchVars.all (fun x => decide (x < s.store.domains.size)) then
    some (.error .unknownVariable, s)
  else
    (s.enrol p).propagate.map fun r =>
      match r with
      | (none, t) => (.ok s.diagrams.size, t)
      | (some f, t) => (.error (PostError.ofFailure f), t)

def postShared (s : StoredSolver) (cs : List Constraint) (o : Options) :
    Option (Except PostError Nat × StoredSolver) := do
  let domains ← s.store.listed?
  if !cs.all (·.registrable domains) then return (.error .notRegistrable, s)
  else if !o.isValid then return (.error .invalidOptions, s)
  else
    match (Spec.ofConstraints domains cs).compile with
    | .error e => return (.error (.specification e), s)
    | .ok m => s.addDiagram { model := m, options := o }

def postSeparate (o : Options) (posted : List Nat) : List Constraint → StoredSolver →
    Option (Except PostError (List Nat) × StoredSolver)
  | [], s => some (.ok posted.reverse, s)
  | c :: rest, s =>
    (s.postShared [c] o).bind fun r =>
      match r with
      | (.ok i, s) => postSeparate o (i :: posted) rest s
      | (.error e, s) => some (.error e, s)

def post (s : StoredSolver) (cs : List Constraint) (o : Options) :
    Option (Except PostError (List Nat) × StoredSolver) :=
  match cs.findSome? (·.malformed?) with
  | some m => some (.error (.malformed m), s)
  | none =>
    match o.sharing with
    | .shared => (s.postShared cs o).map fun r => (r.1.map fun i => [i], r.2)
    | .separate => postSeparate o [] cs s

def openCheckpoint (s : StoredSolver) : StoredSolver :=
  { s with
    store := s.store.openLevel
    cells := s.cells.openLevel
    counters := { s.counters with checkpoints := s.counters.checkpoints + 1 } }

def backtrack (s : StoredSolver) (target : Nat) : Option StoredSolver := do
  let store ← s.store.synchronise? target
  let cells ← s.cells.synchronise? target
  let diagrams ← s.diagrams.toList.mapM (StoredDiagram.synchronise target)
  return { s with
    store
    cells
    diagrams := diagrams.toArray
    queue := []
    counters := { s.counters with backtracks := s.counters.backtracks + 1 } }

def sight (s : StoredSolver) : Sight where
  level := s.level
  domains := s.store.domains.toList.map (·.values)
  shapes := s.diagrams.toList.map (·.arena.graph.shape)
  dots := s.diagrams.toList.map (·.arena.graph.dot)

end StoredSolver

inductive Command
  | create (o : Offer)
  | add (p : Plan)
  | post (cs : List Constraint) (o : Options)
  | restrict (x : Var) (r : Restriction)
  | propagate
  | openCheckpoint
  | backtrack (target : Nat)

namespace StoredSolver

def perform (s : StoredSolver) : Command → Option (Answer × StoredSolver)
  | .create o =>
    match s.addVariable o with
    | .ok (x, t) => some (.variable (.ok x), t)
    | .error e => some (.variable (.error e), s)
  | .add p => (s.addDiagram p).map fun r => (.diagram r.1, r.2)
  | .post cs o => (s.post cs o).map fun r => (.diagrams r.1, r.2)
  | .restrict x r =>
    match s.restrict x r with
    | .ok t => some (.restricted (.ok ()), t)
    | .error e => some (.restricted (.error e), s)
  | .propagate => s.propagate.map fun r => (.propagated r.1, r.2)
  | .openCheckpoint => some (.opened, s.openCheckpoint)
  | .backtrack target =>
    if target < s.level then (s.backtrack target).map fun t => (.returned true, t)
    else some (.returned false, s)

def performAll (s : StoredSolver) (cs : List Command) : Option StoredSolver :=
  cs.foldlM (fun s c => (s.perform c).map (·.2)) s

def trace : StoredSolver → List Command → Option (List (Answer × Sight))
  | _, [] => some []
  | s, c :: cs => do
    let (a, t) ← s.perform c
    let rest ← t.trace cs
    return (a, t.sight) :: rest

end StoredSolver
end DecisionDiagrams
