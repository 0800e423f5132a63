/-! How the properties of a state share one natural number. Flags and bounded integers are placed
one after another at bit granularity, but never across a boundary between two words of 64 bits. Sets
and windows begin at a word boundary and fill whole words: a set has one bit per element of its
capacity, a window has as many elements per word as fit. An integer is stored as its distance from
the lower end of its range. -/

namespace DecisionDiagrams

/-- The shape of a property together with its initial value; a set starts empty. -/
inductive Kind
  | flag (initial : Bool)
  | integer (initial lower upper : Int)
  | set (capacity : Nat)
  | window (length : Nat) (initial lower upper : Int)
deriving DecidableEq, Inhabited

namespace Kind

/-- The number of bits which hold every distance from `lower` up to `upper`, at least one. -/
def widthOfRange (lower upper : Int) : Nat :=
  let span := (upper - lower).toNat
  if span = 0 then 1 else span.log2 + 1

def width : Kind → Nat
  | .flag _ => 1
  | .integer _ lower upper => widthOfRange lower upper
  | .set capacity => capacity
  | .window _ _ lower upper => widthOfRange lower upper

def isSet : Kind → Bool
  | .set _ => true
  | _ => false

end Kind

def wordBits : Nat := 64

def wordsFor (bits : Nat) : Nat := (bits + wordBits - 1) / wordBits

structure Slot where
  kind : Kind
  /-- The first bit. -/
  offset : Nat
deriving DecidableEq, Inhabited

namespace Slot

def width (s : Slot) : Nat := s.kind.width

def setWords (s : Slot) : Nat := wordsFor s.width

def elementOffset (s : Slot) (element : Nat) : Nat :=
  let perWord := wordBits / s.width
  s.offset + (element / perWord) * wordBits + (element % perWord) * s.width

/-- The number of elements which are stored one by one: none for a set. -/
def elements (s : Slot) : Nat :=
  match s.kind with
  | .flag _ | .integer .. => 1
  | .set _ => 0
  | .window length .. => length

end Slot

/-- The places of all properties of a state, in the order of registration. -/
structure Layout where
  slots : Array Slot := #[]
  /-- The bits used by the slots. -/
  bits : Nat := 0
deriving Inhabited

namespace Layout

def roundUp (offset : Nat) : Nat := wordsFor offset * wordBits

def start (offset : Nat) (k : Kind) : Nat :=
  match k with
  | .flag _ | .integer .. =>
    if offset % wordBits + k.width > wordBits then roundUp offset else offset
  | .set _ | .window .. => roundUp offset

def extent (k : Kind) : Nat :=
  match k with
  | .flag _ | .integer .. => k.width
  | .set capacity => roundUp capacity
  | .window length .. =>
    let perWord := wordBits / k.width
    ((length + perWord - 1) / perWord) * wordBits

def push (l : Layout) (k : Kind) : Layout :=
  let offset := start l.bits k
  { slots := l.slots.push ⟨k, offset⟩, bits := offset + extent k }

def ofKinds (ks : List Kind) : Layout := ks.foldl push {}

def size (l : Layout) : Nat := l.slots.size

def words (l : Layout) : Nat := wordsFor l.bits

def slot? (l : Layout) (i : Nat) : Option Slot := l.slots[i]?

end Layout
end DecisionDiagrams
