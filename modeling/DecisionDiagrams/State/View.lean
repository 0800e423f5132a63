import DecisionDiagrams.State.Basic
import DecisionDiagrams.State.SetView

/-! A state together with its layout, which is how rules read and write properties. A property is
named by its position in the layout. Nothing is checked here: reading a property as something it is
not gives zero, an empty set or an empty window, and writing it so changes nothing. -/

namespace DecisionDiagrams

/-- A state seen through its layout. -/
structure View where
  layout : Layout
  state : State
deriving Inhabited

namespace View

def isRelaxed (v : View) : Bool := v.state.relaxed

def slot? (v : View) (i : Nat) : Option Slot := v.layout.slot? i

def kind? (v : View) (i : Nat) : Option Kind :=
  match v.slot? i with
  | some s => some s.kind
  | none => none

def withBits (v : View) (bits : Nat) : View := { v with state := { v.state with bits } }

def integer (v : View) (i : Nat) : Int :=
  match v.slot? i with
  | some s =>
    match s.kind with
    | .integer .. => s.decode (s.readElement v.state.bits 0)
    | _ => 0
  | none => 0

def flag (v : View) (i : Nat) : Bool :=
  match v.slot? i with
  | some s =>
    match s.kind with
    | .flag _ => s.readElement v.state.bits 0 == 1
    | _ => false
  | none => false

def set (v : View) (i : Nat) : SetView :=
  match v.slot? i with
  | some s =>
    match s.kind with
    | .set capacity => ⟨s.readSet v.state.bits, capacity⟩
    | _ => ⟨IndexSet.empty, 0⟩
  | none => ⟨IndexSet.empty, 0⟩

def windowLength (v : View) (i : Nat) : Nat :=
  match v.slot? i with
  | some s =>
    match s.kind with
    | .window length .. => length
    | _ => 0
  | none => 0

def windowElement (v : View) (i e : Nat) : Int :=
  match v.slot? i with
  | some s =>
    match s.kind with
    | .window .. => s.decode (s.readElement v.state.bits e)
    | _ => 0
  | none => 0

def windowToList (v : View) (i : Nat) : List Int :=
  (List.range (v.windowLength i)).map (v.windowElement i)

def setInteger (v : View) (i : Nat) (x : Int) : View :=
  match v.slot? i with
  | some s =>
    match s.kind with
    | .integer .. => v.withBits (s.writeElement v.state.bits 0 (s.encode x))
    | _ => v
  | none => v

def setFlag (v : View) (i : Nat) (x : Bool) : View :=
  match v.slot? i with
  | some s =>
    match s.kind with
    | .flag _ => v.withBits (s.writeElement v.state.bits 0 x.toNat)
    | _ => v
  | none => v

def setSet (v : View) (i : Nat) (x : SetView) : View :=
  match v.slot? i with
  | some s =>
    match s.kind with
    | .set _ => v.withBits (s.writeSet v.state.bits x.contents)
    | _ => v
  | none => v

def setWindowElement (v : View) (i e : Nat) (x : Int) : View :=
  match v.slot? i with
  | some s =>
    match s.kind with
    | .window .. => v.withBits (s.writeElement v.state.bits e (s.encode x))
    | _ => v
  | none => v

def initialise (v : View) (i : Nat) : View :=
  match v.slot? i with
  | some s =>
    match s.kind with
    | .flag b => v.setFlag i b
    | .integer x _ _ => v.setInteger i x
    | .set _ => v.setSet i (v.set i).clear
    | .window length x _ _ =>
      (List.range length).foldl (fun v e => v.setWindowElement i e x) v
  | none => v

end View

namespace Layout

def fresh (l : Layout) : State :=
  ((List.range l.size).foldl View.initialise ⟨l, State.zero⟩).state

end Layout
end DecisionDiagrams
