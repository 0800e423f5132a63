import DecisionDiagrams.Script.Expr

/-! Lists of statements which write a state. Each statement sees what the ones before it wrote. A
statement which takes something from a state that is not known there writes nothing; one which names
a property that a state does not have cannot be carried out. -/

namespace DecisionDiagrams.Script

inductive Statement
  | setInteger (p : Handle) (e : Expr)
  | setFlag (p : Handle) (e : Expr)
  | setElement (p : Handle) (i e : Expr)
  /-- Moves the elements of a window back by one place and puts a new one in front. -/
  | shift (p : Handle) (v : ViewName) (q : Handle) (e : Expr)
  | clear (p : Handle)
  | insert (p : Handle) (e : Expr)
  | erase (p : Handle) (e : Expr)
  /-- Adds the distance of every label from a number to a set. -/
  | insertLabels (p : Handle) (e : Expr)
  | copy (p : Handle) (v : ViewName) (q : Handle)
  | union (p : Handle) (v : ViewName) (q : Handle)
  | inter (p : Handle) (v : ViewName) (q : Handle)
deriving Repr

inductive Block
  | done
  | step (s : Statement) (rest : Block)
  | branch (c : Expr) (yes no rest : Block)
deriving Repr

namespace Scene

def writing (s : Scene) (out : View) : Scene :=
  { s with views := fun v => if v = .target then some out else s.views v }

end Scene

def updateSet (s : Scene) (p : Handle) (f : SetView → Checked SetView) (out : View) :
    Checked View := do
  let i ← s.locate p .set out
  return out.setSet i (← f (out.set i))

/-- Changes a set property by another one, unless the state of the other one is not known. -/
def updateSetFrom (s : Scene) (p : Handle) (v : ViewName) (q : Handle)
    (f : SetView → SetView → SetView) (out : View) : Checked View :=
  match s.views v with
  | some w => updateSet s p (fun t => return f t (w.set (← s.locate q .set w))) out
  | none => return out

/-- Replaces a set by another one, which must have as many words. -/
def replaceSet (t u : SetView) : Checked SetView :=
  if t.words = u.words then .ok (t.overwrite u) else .error .otherWords

def transfer (i : Nat) (w : View) (j : Nat) (out : View) : Form → Checked View
  | .flag => return out.setFlag i (w.flag j)
  | .integer => return out.setInteger i (w.integer j)
  | .set => return out.setSet i (← replaceSet (out.set i) (w.set j))
  | .window =>
    (List.range (out.windowLength i)).foldlM (fun o (e : Nat) => do
      let x ← w.elementAt j e
      o.putElementAt i e x) out

def Statement.run (s : Scene) (out : View) : Statement → Checked View
  | .setInteger p e => do
    let x ← e.eval s
    return out.setInteger (← s.locate p .integer out) x
  | .setFlag p e => do
    let b ← e.holds s
    return out.setFlag (← s.locate p .flag out) b
  | .setElement p e x => do
    let place ← e.eval s
    let value ← x.eval s
    out.putElementAt (← s.locate p .window out) place value
  | .shift p v q e => do
    let first ← e.eval s
    match s.views v with
    | some w => do
      let i ← s.locate p .window out
      let j ← s.locate q .window w
      w.shiftIn i j (out.windowLength i) first out
    | none => return out
  | .clear p => updateSet s p (fun t => return t.clear) out
  | .insert p e => do
    let x ← e.eval s
    updateSet s p (fun t => return t.insert (elementOf x)) out
  | .erase p e => do
    let x ← e.eval s
    updateSet s p (fun t => return t.erase (elementOf x)) out
  | .insertLabels p e => do
    let offset ← e.eval s
    updateSet s p (fun t =>
      return s.labels.toList.foldl (fun t v => t.insert (elementOf (v - offset))) t) out
  | .copy p v q =>
    match s.views v with
    | some w => do
      let form := (s.promise p).form
      let i ← s.locate p form out
      let j ← s.locate q form w
      transfer i w j out form
    | none => return out
  | .union p v q => updateSetFrom s p v q SetView.join out
  | .inter p v q => updateSetFrom s p v q SetView.meet out

def Block.run (s : Scene) : Block → View → Checked View
  | .done, out => return out
  | .step x rest, out => do
    let out ← x.run (s.writing out) out
    rest.run s out
  | .branch c yes no rest, out => do
    let b ← c.holds (s.writing out)
    let out ← if b then yes.run s out else no.run s out
    rest.run s out

end DecisionDiagrams.Script
