import DecisionDiagrams.Diagram.Workspace
import DecisionDiagrams.History
import DecisionDiagrams.Store

/-! The cells in which the diagrams of a solver count how many arcs support each value. All diagrams share them.
A layer has a row of cells, one for each value from the first to the last one its variable had at first. What a
cell held before it was changed is written to a journal, from which it is put back when an earlier level is
entered again. -/

namespace DecisionDiagrams

structure Cells where
  values : Array Int := #[]
  /-- Cells with what they held before. -/
  journal : Journal (Nat × Int) := {}

namespace Cells

def read (c : Cells) (i : Nat) : Int := c.values.getD i 0

def grow (c : Cells) (count : Nat) : Cells := { c with values := c.values ++ Array.replicate count 0 }

def write (i : Nat) (v : Int) (c : Cells) : Cells :=
  if c.read i = v then c
  else { values := c.values.setIfInBounds i v, journal := c.journal.write (i, c.read i) }

def add (i : Nat) (n : Int) (c : Cells) : Cells := c.write i (c.read i + n)

def openLevel (c : Cells) : Cells := { c with journal := c.journal.openLevel }

def undo (values : Array Int) (e : Nat × Int) : Array Int := values.setIfInBounds e.1 e.2

def synchronise? (c : Cells) (target : Nat) : Option Cells :=
  if target < c.journal.level then
    let (undone, journal) := c.journal.cutBack target
    some { values := undone.foldl undo c.values, journal }
  else none

end Cells

structure Row where
  /-- The value which the first cell is for. -/
  first : Int
  offset : Nat
  width : Nat

namespace Row

def cell? (r : Row) (v : Int) : Option Nat :=
  if r.first ≤ v ∧ v < r.first + r.width then some (r.offset + (v - r.first).toNat) else none

def supports (r : Row) (c : Cells) : Supports :=
  (List.range r.width).foldl (fun (s : Supports) (k : Nat) => s.put (r.first + k) (c.read (r.offset + k)).toNat) ∅

end Row

/-- Adds a row of cells for each domain. -/
def Cells.layOut (c : Cells) : List Bitmap → List Row × Cells
  | [] => ([], c)
  | d :: ds =>
    let row : Row := { first := d.offset, offset := c.values.size, width := d.present.size }
    let (rows, c) := (c.grow d.present.size).layOut ds
    (row :: rows, c)

end DecisionDiagrams
