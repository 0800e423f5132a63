import DecisionDiagrams.State.Access

/-! The state of a node as it is stored: words of 64 bits, a digest of the words and the flag. A field is read
from one word and written to one word, by shifting and masking; a set is a run of words. Where a word is looked
up behind the last one, a word is shifted by 64 places or more, a number is divided by zero, an offset needs more
than 32 bits or a property is not of the form it is used as, there is no result. The program works with the
number which the words spell. -/

namespace DecisionDiagrams

abbrev Word := BitVec 64

namespace Word

def shiftRight? (w : Word) (n : Nat) : Option Word := if n < wordBits then some (w >>> n) else none

def shiftLeft? (w : Word) (n : Nat) : Option Word := if n < wordBits then some (w <<< n) else none

def lowest? (width : Nat) : Option Word :=
  if width < wordBits then (shiftLeft? 1 width).map (· - 1) else some (BitVec.allOnes 64)

def smaller (x y : Word) : Word := if x ≤ y then x else y

def larger (x y : Word) : Word := if x ≤ y then y else x

end Word

/-- One step of changing a set. Sets of other capacities are combined as far as both have words. -/
inductive SetEdit
  | insert (e : Nat)
  | erase (e : Nat)
  | clear
  | join (t : SetView)
  | meet (t : SetView)
  | overwrite (t : SetView)

inductive Write
  | flag (i : Nat) (x : Bool)
  | integer (i : Nat) (x : Int)
  | element (i e : Nat) (x : Int)
  | set (i : Nat) (edit : SetEdit)

/-- What can be read from a state by itself: a flag, an integer, an element of a window, or whether something is in
a set. -/
inductive Cell
  | flag (i : Nat)
  | integer (i : Nat)
  | element (i e : Nat)
  | member (i e : Nat)
deriving DecidableEq

/-! ### On the number -/

def SetEdit.apply (s : SetView) : SetEdit → SetView
  | .insert e => s.insert e
  | .erase e => s.erase e
  | .clear => s.clear
  | .join t => s.join t
  | .meet t => s.meet t
  | .overwrite t => s.overwrite t

def View.perform (v : View) : Write → View
  | .flag i x => v.setFlag i x
  | .integer i x => v.setInteger i x
  | .element i e x => v.setWindowElement i e x
  | .set i edit => v.setSet i (edit.apply (v.set i))

def View.read (v : View) : Cell → Int
  | .flag i => (v.flag i).toInt
  | .integer i => v.integer i
  | .element i e => v.windowElement i e
  | .member i e => ((v.set i).contains e).toInt

/-! ### On the words -/

namespace Words

def readBits? (ws : Array Word) (offset width : Nat) : Option Word := do
  let w ← ws[offset / wordBits]?
  let mask ← Word.lowest? width
  return (← Word.shiftRight? w (offset % wordBits)) &&& mask

def writeBits? (ws : Array Word) (offset width : Nat) (v : Word) : Option (Array Word) := do
  let w ← ws[offset / wordBits]?
  let mask ← Word.lowest? width
  let hole ← Word.shiftLeft? mask (offset % wordBits)
  let filling ← Word.shiftLeft? (v &&& mask) (offset % wordBits)
  return ws.setIfInBounds (offset / wordBits) (w &&& ~~~hole ||| filling)

end Words

namespace Slot

/-- The first bit of an element, which is found by dividing by the width and by the number of elements of a word. -/
def place? (s : Slot) (e : Nat) : Option Nat :=
  if s.width = 0 ∨ wordBits / s.width = 0 ∨ UInt32.size ≤ s.elementOffset e then none else some (s.elementOffset e)

def element? (s : Slot) (ws : Array Word) (e : Nat) : Option Word := do
  Words.readBits? ws (← s.place? e) s.width

def putElement? (s : Slot) (ws : Array Word) (e : Nat) (v : Word) : Option (Array Word) := do
  Words.writeBits? ws (← s.place? e) s.width v

def part? (s : Slot) (ws : Array Word) : Option (Array Word) :=
  let first := s.offset / wordBits
  if first + s.setWords ≤ ws.size then some (ws.extract first (first + s.setWords)) else none

def putPart (s : Slot) (ws part : Array Word) : Array Word :=
  let first := s.offset / wordBits
  ws.mapIdx fun k w => if first ≤ k then part.getD (k - first) w else w

end Slot

namespace SetView

def toWords (s : SetView) : Array Word :=
  Array.ofFn fun k : Fin s.words => BitVec.ofNat 64 (s.contents.bits >>> (k.val * wordBits))

end SetView

namespace Words

/-- Whether `e` is in a set with the given words. -/
def contains? (capacity : Nat) (part : Array Word) (e : Nat) : Option Bool :=
  if e < capacity then do
    let w ← part[e / wordBits]?
    return (w &&& (← Word.shiftLeft? 1 (e % wordBits))) != 0
  else some false

def changeWord? (capacity : Nat) (part : Array Word) (e : Nat) (f : Word → Word → Word) :
    Option (Array Word) :=
  if e < capacity then do
    let w ← part[e / wordBits]?
    return part.setIfInBounds (e / wordBits) (f w (← Word.shiftLeft? 1 (e % wordBits)))
  else some part

/-- Combines each word with the word of another set at its place, or with `d` where the other set has none. -/
def combine (f : Word → Word → Word) (d : Word) (part other : Array Word) : Array Word :=
  part.mapIdx fun k w => f w (other.getD k d)

def edit? (capacity : Nat) (part : Array Word) : SetEdit → Option (Array Word)
  | .insert e => changeWord? capacity part e fun w bit => w ||| bit
  | .erase e => changeWord? capacity part e fun w bit => w &&& ~~~bit
  | .clear => some (part.map fun _ => 0)
  | .join t => some (combine (· ||| ·) 0 part t.toWords)
  | .meet t => some (combine (· &&& ·) (BitVec.allOnes 64) part t.toWords)
  | .overwrite t => if t.toWords.size = part.size then some t.toWords else none

end Words

namespace Layout

def slotOf? (l : Layout) (i : Nat) (form : Form) : Option Slot :=
  (l.slot? i).filter fun s => decide (s.kind.form = form)

def blank (l : Layout) : Array Word := Array.replicate l.words 0

def perform? (l : Layout) (ws : Array Word) : Write → Option (Array Word)
  | .flag i x => do
    let s ← l.slotOf? i .flag
    s.putElement? ws 0 (BitVec.ofNat 64 x.toNat)
  | .integer i x => do
    let s ← l.slotOf? i .integer
    s.putElement? ws 0 (BitVec.ofNat 64 (s.encode x))
  | .element i e x => do
    let s ← l.slotOf? i .window
    if e < s.elements then s.putElement? ws e (BitVec.ofNat 64 (s.encode x)) else none
  | .set i edit => do
    let s ← l.slotOf? i .set
    return s.putPart ws (← Words.edit? s.width (← s.part? ws) edit)

def read? (l : Layout) (ws : Array Word) : Cell → Option Int
  | .flag i => do
    let s ← l.slotOf? i .flag
    return ((← s.element? ws 0) == 1).toInt
  | .integer i => do
    let s ← l.slotOf? i .integer
    return s.decode (← s.element? ws 0).toNat
  | .element i e => do
    let s ← l.slotOf? i .window
    return s.decode (← s.element? ws e).toNat
  | .member i e => do
    let s ← l.slotOf? i .set
    return (← Words.contains? s.width (← s.part? ws) e).toInt

end Layout

/-! ### Two states -/

namespace Slot

def agree? (s : Slot) (ws vs : Array Word) : Option Bool :=
  if s.kind.isSet then do return (← s.part? ws) == (← s.part? vs)
  else (List.range s.elements).allM fun e => do return (← s.element? ws e) == (← s.element? vs e)

def copy? (s : Slot) (target source : Array Word) : Option (Array Word) :=
  if s.kind.isSet then do return s.putPart target (← s.part? source)
  else (List.range s.elements).foldlM (fun ws e => do s.putElement? ws e (← s.element? source e)) target

def mergeNumbers? (s : Slot) (pick : Word → Word → Word) (target other : Array Word) :
    Option (Array Word) :=
  (List.range s.elements).foldlM
    (fun ws e => do s.putElement? ws e (pick (← s.element? ws e) (← s.element? other e))) target

def mergeSet? (s : Slot) (pick : Word → Word → Word) (target other : Array Word) :
    Option (Array Word) :=
  if s.kind.isSet then do
    let theirs ← s.part? other
    return s.putPart target (Words.combine pick 0 (← s.part? target) theirs)
  else some target

end Slot

/-- A state as it is stored. -/
structure Buffer where
  words : Array Word
  /-- The digest of the words when it was last computed. -/
  digest : Word
  /-- Whether the state may stand for more than one exact state. -/
  relaxed : Bool

namespace Buffer

def rehash (hash : Array Word → Word) (b : Buffer) : Buffer := { b with digest := hash b.words }

def same (a b : Buffer) : Bool := a.digest == b.digest && a.relaxed == b.relaxed && a.words == b.words

/-- What a table of states hashes. -/
def key (b : Buffer) : Word × Bool := (b.digest, b.relaxed)

def difference? (l : Layout) (a b : Buffer) : Option IndexSet :=
  if a.digest = b.digest ∧ a.words = b.words then some IndexSet.empty
  else (List.range l.size).foldlM
    (fun acc i => do
      let s ← l.slot? i
      return if ← s.agree? a.words b.words then acc else acc.insert i) IndexSet.empty

end Buffer
end DecisionDiagrams
