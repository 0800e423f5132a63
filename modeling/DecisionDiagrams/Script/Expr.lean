import DecisionDiagrams.Spec.Basic

/-! Expressions over integers in which the rules of a constraint can be written down. They read the
states, labels and numbers of the place where the rule is applied. Zero stands for false and
everything else for true; a state which is not known there gives zero. An expression has no value if
it reads a property which the state does not have. Only what is needed is evaluated. -/

namespace DecisionDiagrams.Script

inductive ViewName
  | source
  | combined
  | target
  | down
  | up
  | other
  | first
  | second
  | parentDown
  | parentCombined
  | childUp
  | childCombined
deriving DecidableEq, Repr

inductive Scalar
  | layer
  | value
  | var
  | numParents
  | numChildren
  | numArcs
deriving DecidableEq, Repr

/-- A property: one of the constraint itself, in the order of registration, or a reference which was
made elsewhere, to a property of the given form. -/
inductive Handle
  | own (i : Nat)
  | foreign (p : PropertyRef) (form : Form)
deriving DecidableEq, Repr

inductive BinaryOp
  | add
  | sub
  | mul
  | min
  | max
  | mod
  | le
  | lt
  | eq
deriving DecidableEq, Repr

/-- What can be asked about the labels of the arcs. -/
inductive LabelQuery
  | count
  | isEmpty
  | isSingle
  | sum
  | least
  | greatest
deriving DecidableEq, Repr

inductive Expr
  | const (n : Int)
  | scalar (s : Scalar)
  | binary (op : BinaryOp) (a b : Expr)
  | abs (a : Expr)
  | not (a : Expr)
  | and (a b : Expr)
  | or (a b : Expr)
  | cond (c a b : Expr)
  /-- An entry of a table, -1 outside of it. -/
  | at (table : List Int) (i : Expr)
  | labels (q : LabelQuery)
  | hasLabel (a : Expr)
  /-- The number of labels in a list. -/
  | labelsIn (vs : List Int)
  | known (v : ViewName)
  | relaxed (v : ViewName)
  /-- The value of a number or flag, and the size of a set or window. -/
  | get (v : ViewName) (p : Handle)
  | elem (v : ViewName) (p : Handle) (i : Expr)
  | windowSum (v : ViewName) (p : Handle)
  | windowEmpty (v : ViewName) (p : Handle)
  | has (v : ViewName) (p : Handle) (a : Expr)
  | setSum (v : ViewName) (p : Handle)
  | setEmpty (v : ViewName) (p : Handle)
  | setCapacity (v : ViewName) (p : Handle)
  | subset (v : ViewName) (p : Handle) (w : ViewName) (q : Handle)
  | unionSize (v : ViewName) (p : Handle) (w : ViewName) (q : Handle)
deriving Repr

/-- What a handle promises: a property of the form at the position. -/
structure Promise where
  index : Nat
  form : Form
deriving DecidableEq, Inhabited, Repr

/-- The place where a rule is applied. -/
structure Scene where
  promise : Handle → Promise
  views : ViewName → Option View := fun _ => none
  scalars : Scalar → Int := fun _ => 0
  labels : IntSet := .empty

def ofBool (b : Bool) : Int := if b then 1 else 0

def BinaryOp.apply : BinaryOp → Int → Int → Int
  | .add, a, b => a + b
  | .sub, a, b => a - b
  | .mul, a, b => a * b
  | .min, a, b => Min.min a b
  | .max, a, b => Max.max a b
  | .mod, a, b => a % b
  | .le, a, b => ofBool (decide (a ≤ b))
  | .lt, a, b => ofBool (decide (a < b))
  | .eq, a, b => ofBool (a == b)

def LabelQuery.answer (s : IntSet) : LabelQuery → Int
  | .count => s.size
  | .isEmpty => ofBool s.isEmpty
  | .isSingle => ofBool s.hasOne
  | .sum => s.toList.foldl (· + ·) 0
  | .least => s.min?.getD 0
  | .greatest => s.max?.getD 0

/-- The element a number stands for; numbers which are no element of any set stand for the largest.
-/
def elementOf (a : Int) : Nat := if 0 ≤ a ∧ a < 0x100000000 then a.toNat else 0xffffffff

def Scene.locate (s : Scene) (p : Handle) (form : Form) (v : View) : Checked Nat := do
  let promise := s.promise p
  if promise.form ≠ form then throw .otherForm
  v.expect promise.index form
  return promise.index

def summary (v : View) (i : Nat) : Form → Int
  | .flag => ofBool (v.flag i)
  | .integer => v.integer i
  | .set => (v.set i).size
  | .window => v.windowLength i

namespace Expr

/-- Reads a state, which gives zero if it is not known. -/
def ofView (s : Scene) (v : ViewName) (f : View → Checked Int) : Checked Int :=
  match s.views v with
  | some w => f w
  | none => .ok 0

def ofSet (s : Scene) (v : ViewName) (p : Handle) (f : SetView → Checked Int) : Checked Int :=
  ofView s v fun w => do f (w.set (← s.locate p .set w))

def eval (s : Scene) : Expr → Checked Int
  | .const n => return n
  | .scalar x => return s.scalars x
  | .binary op a b => do
    let x ← a.eval s
    let y ← b.eval s
    return op.apply x y
  | .abs a => do
    let x ← a.eval s
    return x.natAbs
  | .not a => do
    let x ← a.eval s
    return ofBool (x == 0)
  | .and a b => do
    let x ← a.eval s
    if x = 0 then return 0
    let y ← b.eval s
    return ofBool (y != 0)
  | .or a b => do
    let x ← a.eval s
    if x ≠ 0 then return 1
    let y ← b.eval s
    return ofBool (y != 0)
  | .cond c a b => do
    let x ← c.eval s
    if x ≠ 0 then a.eval s else b.eval s
  | .at table i => do
    let k ← i.eval s
    return if 0 ≤ k then table.getD k.toNat (-1) else -1
  | .labels q => return q.answer s.labels
  | .hasLabel a => do
    let x ← a.eval s
    return ofBool (s.labels.contains x)
  | .labelsIn vs => return s.labels.toList.countP vs.contains
  | .known v => return ofBool (s.views v).isSome
  | .relaxed v => ofView s v fun w => return ofBool w.isRelaxed
  | .get v p => ofView s v fun w => do
    let form := (s.promise p).form
    let i ← s.locate p form w
    return summary w i form
  | .elem v p e => ofView s v fun w => do
    let i ← s.locate p .window w
    let x ← e.eval s
    w.elementAt i x
  | .windowSum v p => ofView s v fun w => do
    let i ← s.locate p .window w
    return (w.windowToList i).foldl (· + ·) 0
  | .windowEmpty v p => ofView s v fun w => do
    let i ← s.locate p .window w
    return ofBool (w.windowLength i == 0)
  | .has v p a => ofSet s v p fun t => do
    let x ← a.eval s
    return ofBool (t.contains (elementOf x))
  | .setSum v p => ofSet s v p fun t => return (t.toList.foldl (· + ·) 0 : Nat)
  | .setEmpty v p => ofSet s v p fun t => return ofBool t.isEmpty
  | .setCapacity v p => ofSet s v p fun t => return t.capacity
  | .subset v p x q => ofSet s v p fun t => ofSet s x q fun u => return ofBool (t.isSubset u)
  | .unionSize v p x q => ofSet s v p fun t => ofSet s x q fun u => return t.unionSize u

def holds (s : Scene) (e : Expr) : Checked Bool := do
  let x ← e.eval s
  return x != 0

end Expr
end DecisionDiagrams.Script
