import DecisionDiagrams.Diagram.Growth
import DecisionDiagrams.Diagram.Refinement

/-! Bringing a diagram and the domains into agreement. An exact diagram is built once and then only
loses the arcs of removed values. A relaxed diagram is built with few nodes; up and down passes then
compute the waiting nodes again until none waits, and the first down passes split nodes. Passes may
go on for long, so they take an allowance of steps and stop when it is used up. -/

namespace DecisionDiagrams

namespace Work

def sweepUpSteps (p : Plan) : Nat → Work Unit
  | 0 => throw .exhausted
  | fuel + 1 => do
    match (← get).agenda.deepest .up with
    | none => pure ()
    | some layer =>
      recomputeLayer p .up layer
      sweepUpSteps p fuel

def sweepUp (p : Plan) (fuel : Nat) : Work Unit := do
  if ((← get).agenda.deepest .up).isSome then
    modify (Workspace.tally fun c => { c with upPasses := c.upPasses + 1 })
    sweepUpSteps p fuel

/-- Computes the waiting down states from `layer` on and, if `split` is set, splits nodes of every
layer which is done. Layers above with waiting nodes come first, even if they were done before. -/
def sweepDownSteps (p : Plan) (fuel : Nat) (split : Bool) : Nat → Nat → Work Unit
  | 0, _ => throw .exhausted
  | steps + 1, layer => do
    if layer ≤ p.model.depth then
      let layer :=
        match (← get).agenda.shallowest .down with
        | some l => min layer l
        | none => layer
      recomputeLayer p .down layer
      let w ← get
      if w.agenda.isPending .down layer then sweepDownSteps p fuel split steps layer
      else if split && layer < p.model.depth && 0 < w.budget then
        match ← splitNodes p layer (p.options.maxWidth.getD 0) fuel [] with
        | some next => sweepDownSteps p fuel split steps next
        | none =>
          if (← get).agenda.isPending .down layer then sweepDownSteps p fuel split steps layer
          else sweepDownSteps p fuel split steps (layer + 1)
      else sweepDownSteps p fuel split steps (layer + 1)

def sweepDown (p : Plan) (fuel : Nat) (split : Bool) : Work Unit := do
  modify (Workspace.tally fun c => { c with downPasses := c.downPasses + 1 })
  sweepDownSteps p fuel split fuel 1

/-- Alternates the passes until nothing waits, where `done` down passes were made before. -/
def passes (p : Plan) (fuel : Nat) : Nat → Nat → Work Unit
  | 0, _ => throw .exhausted
  | rounds + 1, done => do
    if p.model.hasUp then sweepUp p fuel
    sweepDown p fuel (done < p.options.splitPasses)
    let quiet := (← get).agenda.isEmpty
    if quiet then pure () else passes p fuel rounds (done + 1)

/-- Computes the up and combined state of a node for the first time, and tests the node and its
outgoing arcs. -/
def completeNode (p : Plan) (layer : Nat) (n : NodeId) : Work Unit := do
  let w ← get
  if w.graph.isActive n then
    if layer < p.model.depth then
      let old := w.graph.state n .up
      let up ← stateFromNeighbours p .up layer (w.bundles p .up n) old .full
      modify (Workspace.putState n .up up)
    if p.model.hasCombined then
      let w ← get
      let combined ← p.model.derive (w.graph.state n .down) (w.graph.state n .up)
      set (w.putState n .combined combined)
    let kept ← (← get).keepsNode p.model n
    if !kept then dropNode p n
    else if layer < p.model.depth then retestOutgoing p n

def completeNodes (p : Plan) : Work Unit := do
  modify fun w => { w with upKnown := true }
  (List.range (p.model.depth + 1)).reverse.forM fun layer => do
    ((← get).graph.layer layer).toList.forM (completeNode p layer)

/-- Removes the arcs of the values which left the domains of the listed layers. -/
def enforceDomains (p : Plan) (lost : List Nat) : Work Unit :=
  ((List.range p.model.depth).filter lost.contains).forM (enforceDomain p)

def maintainExact (p : Plan) (lost : List Nat) : Work Unit := do
  let built := (← get).built
  if built then
    enforceDomains p lost
    enforceSupports p
  else grow p none

def maintainRelaxed (p : Plan) (fuel : Nat) (lost : List Nat) : Work Unit := do
  let built := (← get).built
  if !built then
    grow p p.options.firstWidth
    if p.model.hasUp then completeNodes p
  enforceDomains p lost
  let quiet := (← get).agenda.isEmpty
  if !(built && quiet) then passes p fuel fuel 0
  enforceSupports p

end Work

structure Propagated where
  /-- Why the propagation stopped early, if it did. -/
  stop : Option Stop
  diagram : Diagram
  domains : Domains
  counters : Counters
  /-- What was changed, in the order in which it was. -/
  changes : List Change

namespace Diagram

def workspace (d : Diagram) (p : Plan) (domains : Domains) : Workspace :=
  { d with
    domains
    agenda := Agenda.empty (p.model.depth + 1)
    budget := p.options.budget
    counters := { propagations := 1 } }

/-- Brings the diagram and the domains into agreement, after the variables of the layers `lost` lost
values. `fuel` bounds the number of steps of every pass. -/
def propagate (d : Diagram) (p : Plan) (fuel : Nat) (lost : List Nat) (domains : Domains) :
    Propagated :=
  let work := if p.options.isExact then Work.maintainExact p lost
    else Work.maintainRelaxed p fuel lost
  match work.run (d.workspace p domains) with
  | .ok _ w => ⟨none, w.toDiagram, w.domains, w.counters, w.changes.reverse⟩
  | .error stop w => ⟨some stop, w.toDiagram, w.domains, w.counters, w.changes.reverse⟩

end Diagram
end DecisionDiagrams
