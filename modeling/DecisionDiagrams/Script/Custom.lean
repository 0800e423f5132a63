import DecisionDiagrams.Script.Block

/-! Constraints given by scopes, properties and written rules. The rules are applied in their order;
a later rule for the same property replaces an earlier one. -/

namespace DecisionDiagrams.Script

/-- A property of a constraint, with the place of its scope among the scopes of the constraint. -/
structure PropertyDecl where
  side : Side
  kind : Kind
  relaxation : Relaxation
  scope : Nat := 0

inductive RelaxationDecl
  | builtin (r : Relaxation)
  | written (b : Block)

inductive RuleDecl
  | transition (p : Handle) (reads : List Handle) (body : Block)
  | combine (p : Handle) (reads : List Handle) (body : Block)
  | relaxation (p : Handle) (r : RelaxationDecl)
  /-- The distance of two states as a quotient. -/
  | similarity (p : Handle) (e divisor : Expr)
  | arcCheck (scope : Nat) (e : Expr)
  | nodeCheck (scope : Nat) (e : Expr)
  | splitPriority (e : Expr)
  | candidatePriority (e : Expr)
  | equivalenceKey (e : Expr)

structure Custom where
  scopes : List Scope
  properties : List PropertyDecl
  rules : List RuleDecl

namespace Custom

def scopesExist (c : Custom) : Bool :=
  (c.properties.all fun p => decide (p.scope < c.scopes.length)) &&
    c.rules.all fun r =>
      match r with
      | .arcCheck scope _ | .nodeCheck scope _ => decide (scope < c.scopes.length)
      | _ => true

end Custom

structure OwnProperty where
  ref : PropertyRef
  form : Form
deriving DecidableEq, Inhabited, Repr

def resolve (own : Array OwnProperty) : Handle → OwnProperty
  | .own i => own.getD i ⟨⟨.down, 0⟩, .integer⟩
  | .foreign p form => ⟨p, form⟩

def sceneOf (own : Array OwnProperty) : Scene where
  promise h :=
    let p := resolve own h
    ⟨p.ref.index, p.form⟩

def transitionScene (base : Scene) (input : StepFacts) (labels : IntSet) : Scene :=
  { base with
    views := fun
      | .source => some input.source
      | .combined => input.combined
      | _ => none
    scalars := fun
      | .layer => input.layer
      | .var => input.var
      | _ => 0
    labels }

def combineScene (base : Scene) (down up : View) : Scene :=
  { base with
    views := fun
      | .down => some down
      | .up => some up
      | _ => none }

def mergeScene (base : Scene) (other : View) : Scene :=
  { base with
    views := fun
      | .other => some other
      | _ => none }

def pairScene (base : Scene) (a b : View) : Scene :=
  { base with
    views := fun
      | .first => some a
      | .second => some b
      | _ => none }

def arcScene (base : Scene) (arc : ArcFacts) : Scene :=
  { base with
    views := fun
      | .parentDown => some arc.parentDown
      | .parentCombined => arc.parentCombined
      | .childUp => arc.childUp
      | .childCombined => arc.childCombined
      | _ => none
    scalars := fun
      | .layer => arc.layer
      | .value => arc.value
      | _ => 0 }

def nodeScene (base : Scene) (node : NodeFacts) : Scene :=
  { base with
    views := fun
      | .down => some node.down
      | .up => some node.up
      | .combined => some node.combined
      | _ => none
    scalars := fun
      | .layer => node.layer
      | .numParents => node.numParents
      | .numChildren => node.numChildren
      | _ => 0 }

def candidateScene (base : Scene) (c : CandidateFacts) : Scene :=
  { base with
    views := fun
      | .down => some c.down
      | _ => none
    scalars := fun
      | .layer => c.layer
      | .numArcs => c.numArcs
      | _ => 0 }

def downScene (base : Scene) (down : View) : Scene :=
  { base with
    views := fun
      | .down => some down
      | _ => none }

def quotient (a b : Int) : Float := Float.ofInt a / Float.ofInt b

def relaxationOf (base : Scene) : RelaxationDecl → Relaxation
  | .builtin r => r
  | .written b => .custom fun target other => b.run (mergeScene base other) target

def applyRule (ids : Array ScopeId) (own : Array OwnProperty) (r : RuleDecl) :
    StateM Spec Unit :=
  let base := sceneOf own
  let ref := fun h => (resolve own h).ref
  match r with
  | .transition p reads body =>
    Spec.setTransition (ref p) (reads.map ref) fun input labels out =>
      body.run (transitionScene base input labels) out
  | .combine p reads body =>
    Spec.setCombine (ref p) (reads.map ref) fun down up out =>
      body.run (combineScene base down up) out
  | .relaxation p d => Spec.setRelaxation (ref p) (relaxationOf base d)
  | .similarity p e divisor =>
    Spec.setSimilarity (ref p) fun a b => do
      let s := pairScene base a b
      let x ← e.eval s
      let y ← divisor.eval s
      return quotient x y
  | .arcCheck scope e => Spec.addArcCheck (ids.getD scope 0) fun arc => e.holds (arcScene base arc)
  | .nodeCheck _ e => Spec.addNodeCheck fun node => e.holds (nodeScene base node)
  | .splitPriority e => Spec.addSplitPriority fun node => e.eval (nodeScene base node)
  | .candidatePriority e => Spec.addCandidatePriority fun c => e.eval (candidateScene base c)
  | .equivalenceKey e => Spec.addEquivalenceKey fun down => e.eval (downScene base down)

def Custom.register (c : Custom) : StateM Spec Unit := do
  let ids ← c.scopes.mapM fun s => Spec.addScope s.name s.vars
  let own ← c.properties.mapM fun p => do
    let ref ← Spec.declareProperty (ids.toArray.getD p.scope 0) p.side p.kind p.relaxation
    return (⟨ref, p.kind.form⟩ : OwnProperty)
  c.rules.forM (applyRule ids.toArray own.toArray)

end DecisionDiagrams.Script
