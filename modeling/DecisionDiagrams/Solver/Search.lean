import DecisionDiagrams.Solver.Stored

/-! Depth-first search. Every node of the search propagates first and then branches on the first
variable with several values, each branch behind a checkpoint of its own. A failure which is no
conflict ends the search. -/

namespace DecisionDiagrams

inductive Branching
  /-- Every value in turn, the smallest first. -/
  | assign
  /-- Every value in turn, the largest first. -/
  | assignDescending
  /-- The lower half and then the upper half. -/
  | split
  /-- Without the smallest value, and then with it alone. -/
  | remove
deriving DecidableEq, Inhabited, Repr

structure SearchLimits where
  branching : Branching := .assign
  maxNodes : Nat := 1000
  maxSolutions : Nat := 1000

structure SearchResult where
  solutions : Array (List Int) := #[]
  nodes : Nat := 0
  fails : Nat := 0

namespace Branching

def decisions (b : Branching) (d : Bitmap) : List Restriction :=
  match b with
  | .assign => d.values.map .assign
  | .assignDescending => d.values.reverse.map .assign
  | .split =>
    let mid := (d.lower + d.upper) / 2
    [.cutUpper mid, .raiseLower (mid + 1)]
  | .remove => [.remove d.lower, .assign d.lower]

end Branching

/-- What may end a search: a failure which is no conflict, or a failed check of the storage. -/
abbrev Searching := ExceptT Failure Option

namespace Search

structure Run where
  solver : StoredSolver
  result : SearchResult := {}

/-- Applies a decision, which is left out if it would empty the domain. -/
def apply (x : Var) (s : StoredSolver) (r : Restriction) : StoredSolver := (s.restrict x r).toOption.getD s

def branchVariable (s : StoredSolver) : Option (Var × Bitmap) :=
  ((s.store.domains.toList.zipIdx).find? fun d => !d.1.isFixed).map fun d => (d.2, d.1)

def solution (s : StoredSolver) : List Int := s.store.domains.toList.map (·.lower)

def underLimits (l : SearchLimits) (r : SearchResult) : Bool :=
  Nat.blt r.nodes l.maxNodes && Nat.blt r.solutions.size l.maxSolutions

/-- Follows a branch behind a checkpoint, where `visit` explores what is below. -/
def follow (l : SearchLimits) (visit : Run → Searching Run) (x : Var) (r : Run) (d : Restriction) :
    Searching Run := do
  if underLimits l r.result then
    let level := r.solver.level
    let r ← visit { r with solver := apply x r.solver.openCheckpoint d }
    return { r with solver := ← r.solver.backtrack level }
  else return r

def visit (l : SearchLimits) : Nat → Run → Searching Run
  | 0, r => return r
  | depth + 1, r => do
    let result := { r.result with nodes := r.result.nodes + 1 }
    match ← r.solver.propagate with
    | (some f, s) =>
      if f.isConflict then return ⟨s, { result with fails := result.fails + 1 }⟩ else throw f
    | (none, s) =>
      match branchVariable s with
      | none => return ⟨s, { result with solutions := result.solutions.push (solution s) }⟩
      | some (x, d) => (l.branching.decisions d).foldlM (follow l (visit l depth) x) ⟨s, result⟩

end Search

namespace StoredSolver

def search (s : StoredSolver) (l : SearchLimits) : Searching (SearchResult × StoredSolver) := do
  let r ← Search.visit l (l.maxNodes + 1) { solver := s }
  return (r.result, r.solver)

end StoredSolver
end DecisionDiagrams
