import DecisionDiagrams.Spec.Basic

/-! Where the variables of a constraint are among the layers of its diagram. The layers above are
fixed once the constraint is registered, because later constraints only append variables. -/

namespace DecisionDiagrams

/-- For every layer, the number of variables of one scope on the layers above. -/
structure ScopeOrder where
  above : Array Nat
  size : Nat
deriving Inhabited

namespace ScopeOrder

/-- The number of variables of `vars` before each entry of `order`, where `seen` came earlier. -/
def countAbove (vars : List Var) (seen : Nat) : List Var → List Nat
  | [] => []
  | x :: rest => seen :: countAbove vars (if vars.contains x then seen + 1 else seen) rest

def ofScope (order : Array Var) (vars : List Var) : ScopeOrder :=
  ⟨(countAbove vars 0 order.toList).toArray, vars.length⟩

def before (s : ScopeOrder) (layer : Nat) : Nat := s.above.getD layer 0

def after (s : ScopeOrder) (layer : Nat) : Nat := s.size - (s.before layer + 1)

end ScopeOrder

namespace Spec

def orderOf (vars : List Var) : StateM Spec ScopeOrder :=
  return ScopeOrder.ofScope (← get).branchVars vars

end Spec
end DecisionDiagrams
