import DecisionDiagrams.Sets.IndexSet
import DecisionDiagrams.State.Field
import DecisionDiagrams.State.Layout

/-! The state of a node: one number which packs the values of its properties, and a flag which tells
whether the state stands for several merged ones. The layout says which bits belong to which
property. The operations here work on one property of two states of the same layout: compare, copy,
merge, distance. -/

namespace DecisionDiagrams

structure State where
  bits : Nat
  /-- Whether the state may stand for more than one exact state. -/
  relaxed : Bool
deriving DecidableEq, Inhabited

namespace State

def zero : State := ⟨0, false⟩

/-- A number which identifies the state. -/
def code (s : State) : Nat := 2 * s.bits + s.relaxed.toNat

theorem code_inj {s t : State} : s.code = t.code ↔ s = t := by
  obtain ⟨b, f⟩ := s
  obtain ⟨c, g⟩ := t
  cases f <;> cases g <;> simp [code] <;> omega

end State

namespace Slot

def lower (s : Slot) : Int :=
  match s.kind with
  | .integer _ lower _ | .window _ _ lower _ => lower
  | .flag _ | .set _ => 0

def upper (s : Slot) : Int :=
  match s.kind with
  | .integer _ _ upper | .window _ _ _ upper => upper
  | .flag _ => 1
  | .set _ => 0

def readElement (s : Slot) (bits element : Nat) : Nat :=
  Field.read bits (s.elementOffset element) s.width

def writeElement (s : Slot) (bits element v : Nat) : Nat :=
  Field.write bits (s.elementOffset element) s.width v

def setBits (s : Slot) : Nat := s.setWords * wordBits

def readSet (s : Slot) (bits : Nat) : IndexSet := ⟨Field.read bits s.offset s.setBits⟩

def writeSet (s : Slot) (bits : Nat) (v : IndexSet) : Nat :=
  Field.write bits s.offset s.setBits v.bits

/-- The value of an element which is stored as `n`. A number which stands for no value of the range,
as it is found behind the last element of a window, is read as a signed number of 32 bits. -/
def decode (s : Slot) (n : Nat) : Int :=
  let v := s.lower + (n : Int)
  if v ≤ s.upper then v else Int.bmod v 0x100000000

def encode (s : Slot) (v : Int) : Nat := (max s.lower (min s.upper v) - s.lower).toNat

/-- What is read back is what was stored, moved into the range. -/
theorem decode_encode {s : Slot} (h : s.lower ≤ s.upper) (v : Int) :
    s.decode (s.encode v) = max s.lower (min s.upper v) := by
  have e : s.lower + ((s.encode v : Nat) : Int) = max s.lower (min s.upper v) := by
    unfold encode
    omega
  unfold decode
  rw [e]
  exact if_pos (by omega)

def agree (s : Slot) (a b : Nat) : Bool :=
  if s.kind.isSet then s.readSet a == s.readSet b
  else (List.range s.elements).all fun e => s.readElement a e == s.readElement b e

def copy (s : Slot) (target source : Nat) : Nat :=
  if s.kind.isSet then s.writeSet target (s.readSet source)
  else (List.range s.elements).foldl
    (fun t e => s.writeElement t e (s.readElement source e)) target

/-- Merges each element of `other` into `target`. Distances from the lower end are in the order of
the values, so the smaller stored number is the smaller value. -/
def mergeNumbers (s : Slot) (pick : Nat → Nat → Nat) (target other : Nat) : Nat :=
  (List.range s.elements).foldl
    (fun t e => s.writeElement t e (pick (s.readElement t e) (s.readElement other e))) target

def mergeSet (s : Slot) (pick : IndexSet → IndexSet → IndexSet) (target other : Nat) : Nat :=
  if s.kind.isSet then s.writeSet target (pick (s.readSet target) (s.readSet other)) else target

def hasWords (s : Slot) : Bool := !s.kind.isSet || s.setWords != 0

/-- How far two states differ in the property: the distances of the elements, or the size of the
symmetric difference. -/
def distance (s : Slot) (a b : Nat) : Nat :=
  if s.kind.isSet then
    IndexSet.size ⟨(s.readSet a).bits ^^^ (s.readSet b).bits⟩
  else (List.range s.elements).foldl
    (fun t e =>
      let x := s.readElement a e
      let y := s.readElement b e
      t + (x - y) + (y - x)) 0

end Slot

namespace Layout

def difference (l : Layout) (a b : State) : IndexSet :=
  if a.bits = b.bits then IndexSet.empty
  else (List.range l.size).foldl
    (fun acc i =>
      match l.slot? i with
      | some s => if s.agree a.bits b.bits then acc else acc.insert i
      | none => acc) IndexSet.empty

end Layout
end DecisionDiagrams
