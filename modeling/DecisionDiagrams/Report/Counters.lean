/-! Counters of what propagation did, for one diagram and for the solver. -/

namespace DecisionDiagrams

structure Counters where
  propagations : Nat := 0
  constructions : Nat := 0
  nodesCreated : Nat := 0
  nodesDeleted : Nat := 0
  nodesMerged : Nat := 0
  arcsRemoved : Nat := 0
  valuesRemoved : Nat := 0
  nodesSplit : Nat := 0
  candidatesPruned : Nat := 0
  reboots : Nat := 0
  upPasses : Nat := 0
  downPasses : Nat := 0
  fullRecomputations : Nat := 0
  incrementalRecomputations : Nat := 0
  cacheHits : Nat := 0
  cacheMisses : Nat := 0
deriving DecidableEq, Inhabited, Repr

namespace Counters

def add (a b : Counters) : Counters where
  propagations := a.propagations + b.propagations
  constructions := a.constructions + b.constructions
  nodesCreated := a.nodesCreated + b.nodesCreated
  nodesDeleted := a.nodesDeleted + b.nodesDeleted
  nodesMerged := a.nodesMerged + b.nodesMerged
  arcsRemoved := a.arcsRemoved + b.arcsRemoved
  valuesRemoved := a.valuesRemoved + b.valuesRemoved
  nodesSplit := a.nodesSplit + b.nodesSplit
  candidatesPruned := a.candidatesPruned + b.candidatesPruned
  reboots := a.reboots + b.reboots
  upPasses := a.upPasses + b.upPasses
  downPasses := a.downPasses + b.downPasses
  fullRecomputations := a.fullRecomputations + b.fullRecomputations
  incrementalRecomputations := a.incrementalRecomputations + b.incrementalRecomputations
  cacheHits := a.cacheHits + b.cacheHits
  cacheMisses := a.cacheMisses + b.cacheMisses

def entries (c : Counters) : List (String × Nat) :=
  [("num_propagations", c.propagations), ("num_constructions", c.constructions),
    ("num_nodes_created", c.nodesCreated), ("num_nodes_deleted", c.nodesDeleted),
    ("num_nodes_merged", c.nodesMerged), ("num_arcs_removed", c.arcsRemoved),
    ("num_values_removed", c.valuesRemoved), ("num_nodes_split", c.nodesSplit),
    ("num_candidates_pruned", c.candidatesPruned), ("num_reboots", c.reboots),
    ("num_up_passes", c.upPasses), ("num_down_passes", c.downPasses),
    ("num_full_recomputations", c.fullRecomputations),
    ("num_incremental_recomputations", c.incrementalRecomputations),
    ("num_transition_cache_hits", c.cacheHits), ("num_transition_cache_misses", c.cacheMisses)]

end Counters

structure SolverCounters where
  propagatorCalls : Nat := 0
  conflicts : Nat := 0
  backtracks : Nat := 0
  checkpoints : Nat := 0
deriving DecidableEq, Inhabited, Repr

def SolverCounters.entries (c : SolverCounters) : List (String × Nat) :=
  [("num_propagator_calls", c.propagatorCalls), ("num_conflicts", c.conflicts),
    ("num_backtracks", c.backtracks), ("num_checkpoints", c.checkpoints)]

end DecisionDiagrams
