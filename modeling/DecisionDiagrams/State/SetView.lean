import DecisionDiagrams.Sets.IndexSet
import DecisionDiagrams.State.Layout

/-! The contents of a set property. Elements below the capacity can be added and taken out. Two sets
of different capacities are combined word by word, as far as both have words. -/

namespace DecisionDiagrams

/-- A set of numbers below a capacity, stored in whole words. -/
structure SetView where
  contents : IndexSet
  capacity : Nat
deriving Inhabited, DecidableEq

namespace SetView

def words (s : SetView) : Nat := wordsFor s.capacity

def sharedBits (s t : SetView) : Nat := min s.words t.words * wordBits

def contains (s : SetView) (e : Nat) : Bool := decide (e < s.capacity) && s.contents.contains e

def size (s : SetView) : Nat := s.contents.size

def isEmpty (s : SetView) : Bool := s.contents.isEmpty

def toList (s : SetView) : List Nat := s.contents.toList

def sizeWithout (s : SetView) (e : Nat) : Nat := s.size - (s.contains e).toNat

def unionSize (s t : SetView) : Nat := ((s.contents.union t.contents).cut (s.sharedBits t)).size

def isSubset (s t : SetView) : Bool := (s.contents.cut (s.sharedBits t)).isSubset t.contents

def insert (s : SetView) (e : Nat) : SetView :=
  if e < s.capacity then { s with contents := s.contents.insert e } else s

def erase (s : SetView) (e : Nat) : SetView :=
  if e < s.capacity then { s with contents := s.contents.erase e } else s

def clear (s : SetView) : SetView := { s with contents := IndexSet.empty }

def join (s t : SetView) : SetView :=
  { s with contents := s.contents.union (t.contents.cut (s.sharedBits t)) }

def meet (s t : SetView) : SetView :=
  { s with contents := s.contents.splice (s.contents.inter t.contents) (s.sharedBits t) }

def overwrite (s t : SetView) : SetView :=
  { s with contents := t.contents.cut (s.words * wordBits) }

end SetView
end DecisionDiagrams
