import DecisionDiagrams.Domain
import DecisionDiagrams.History

/-! The domains of a host solver as they are stored. A domain is a row of marks over the first range of
its variable, together with its bounds and the number of its values, which are kept apart from the marks.
Every change is written to a journal, from which it is undone when an earlier level is entered again, and
queues an event. -/

namespace DecisionDiagrams

structure Bitmap where
  /-- The value of the first mark. -/
  offset : Int
  lower : Int
  upper : Int
  present : Array Bool
  size : Nat
deriving Inhabited

namespace Bitmap

def place (d : Bitmap) (v : Int) : Nat := (v - d.offset).toNat

def marks (d : Bitmap) (v : Int) : Bool := d.present.getD (d.place v) false

def contains (d : Bitmap) (v : Int) : Bool :=
  decide (d.lower ≤ v) && decide (v ≤ d.upper) && d.marks v

def values (d : Bitmap) : List Int := (IntSet.range d.lower d.upper).toList.filter d.contains

def isFixed (d : Bitmap) : Bool := d.size == 1

/-- Ranges with more values cannot be created. -/
def widest : Int := 2147483647

def ofRange? (lo hi : Int) : Option Bitmap :=
  if lo ≤ hi ∧ hi - lo + 1 ≤ widest then
    let width := (hi - lo + 1).toNat
    some { offset := lo, lower := lo, upper := hi, present := Array.replicate width true, size := width }
  else none

def ofValues? (vs : List Int) : Option Bitmap :=
  let sorted := (IntSet.ofList vs).toList
  match sorted.head?, sorted.getLast? with
  | some lo, some hi =>
    if hi - lo + 1 ≤ widest then
      let blank := Array.replicate (hi - lo + 1).toNat false
      some
        { offset := lo
          lower := lo
          upper := hi
          present := sorted.foldl (fun row v => row.setIfInBounds (v - lo).toNat true) blank
          size := sorted.length }
    else none
  | _, _ => none

/-- Takes the mark of a value away; the bounds stay where they are. -/
def unmark (v : Int) (d : Bitmap) : Bitmap :=
  { d with present := d.present.setIfInBounds (d.place v) false, size := d.size - 1 }

def remark (v : Int) (d : Bitmap) : Bitmap :=
  { d with present := d.present.setIfInBounds (d.place v) true, size := d.size + 1 }

def withBounds (lower upper : Int) (d : Bitmap) : Bitmap := { d with lower, upper }

def domain? (d : Bitmap) : Option Domain :=
  Domain.ofSet? ((IntSet.range d.lower d.upper).filter d.contains)

/-- The first marked value within the bounds. -/
def firstMarked (d : Bitmap) : Int :=
  ((IntSet.range d.lower d.upper).toList.find? d.marks).getD d.lower

def lastMarked (d : Bitmap) : Int :=
  ((IntSet.range d.lower d.upper).toList.reverse.find? d.marks).getD d.upper

end Bitmap

def Offer.bitmap? : Offer → Option Bitmap
  | .range lo hi => Bitmap.ofRange? lo hi
  | .values vs => Bitmap.ofValues? vs

inductive DomainEvent
  | assign
  | lowerBound
  | upperBound
  | removal
deriving DecidableEq, Repr

inductive DomainChange
  | removal (x : Var) (v : Int)
  /-- The bounds were other ones before. -/
  | bounds (x : Var) (lower upper : Int)

namespace DomainChange

def var : DomainChange → Var
  | .removal x _ | .bounds x _ _ => x

def undo (domains : Array Bitmap) : DomainChange → Array Bitmap
  | .removal x v => domains.modify x (Bitmap.remark v)
  | .bounds x lower upper => domains.modify x (Bitmap.withBounds lower upper)

end DomainChange

/-- The domains of all variables. -/
structure Store where
  domains : Array Bitmap := #[]
  journal : Journal DomainChange := {}
  /-- The events which were not taken yet. -/
  events : Array (Var × DomainEvent) := #[]

namespace Store

def bitmap (s : Store) (x : Var) : Bitmap := s.domains.getD x default

def level (s : Store) : Nat := s.journal.level

def create (d : Bitmap) (s : Store) : Store := { s with domains := s.domains.push d }

/-- Takes a value out of a domain without a look at the bounds. -/
def unmark (x : Var) (s : Store) (v : Int) : Store where
  domains := s.domains.modify x (Bitmap.unmark v)
  journal := s.journal.write (.removal x v)
  events := s.events.push (x, .removal)

def updateBounds (x : Var) (s : Store) : Store :=
  let d := s.bitmap x
  let lower := d.firstMarked
  let upper := d.lastMarked
  let assigned := if d.size = 1 then #[(x, DomainEvent.assign)] else #[]
  if lower = d.lower ∧ upper = d.upper then { s with events := s.events ++ assigned }
  else
    { domains := s.domains.modify x (Bitmap.withBounds lower upper)
      journal := s.journal.write (.bounds x d.lower d.upper)
      events :=
        s.events ++ (if lower ≠ d.lower then #[(x, .lowerBound)] else #[]) ++
          (if upper ≠ d.upper then #[(x, .upperBound)] else #[]) ++ assigned }

def discard (x : Var) (vs : List Int) (s : Store) : Store := (vs.foldl (unmark x) s).updateBounds x

/-- Restricting a domain. It is told whether the domain changed, and nothing is told if no value would
remain. -/
def remove (s : Store) (x : Var) (v : Int) : Option Bool × Store :=
  let d := s.bitmap x
  if !d.contains v then (some false, s)
  else if d.size = 1 then (none, s)
  else (some true, s.discard x [v])

def raiseLower (s : Store) (x : Var) (bound : Int) : Option Bool × Store :=
  let d := s.bitmap x
  if bound ≤ d.lower then (some false, s)
  else if d.upper < bound || (IntSet.range bound d.upper).toList.all fun v => !d.contains v then (none, s)
  else (some true, s.discard x ((IntSet.range d.lower (bound - 1)).toList.filter d.contains))

def cutUpper (s : Store) (x : Var) (bound : Int) : Option Bool × Store :=
  let d := s.bitmap x
  if d.upper ≤ bound then (some false, s)
  else if bound < d.lower || (IntSet.range d.lower bound).toList.all fun v => !d.contains v then (none, s)
  else (some true, s.discard x ((IntSet.range (bound + 1) d.upper).toList.filter d.contains))

def assign (s : Store) (x : Var) (v : Int) : Option Bool × Store :=
  let d := s.bitmap x
  if !d.contains v then (none, s)
  else if d.size = 1 then (some false, s)
  else (some true, s.discard x (d.values.filter (· ≠ v)))

def drainEvents (s : Store) : List (Var × DomainEvent) × Store := (s.events.toList, { s with events := #[] })

def openLevel (s : Store) : Store := { s with journal := s.journal.openLevel }

/-- Goes back to an earlier level; the events of undone changes are dropped. -/
def synchronise? (s : Store) (target : Nat) : Option Store :=
  if target < s.level then
    let (undone, journal) := s.journal.cutBack target
    some { domains := undone.foldl DomainChange.undo s.domains, journal, events := #[] }
  else none

def listed? (s : Store) : Option Domains :=
  (s.domains.toList.mapM Bitmap.domain?).map fun domains => { domains := domains.toArray }

end Store

def Restriction.onStore : Restriction → Store → Var → Option Bool × Store
  | .remove v, s, x => s.remove x v
  | .raiseLower bound, s, x => s.raiseLower x bound
  | .cutUpper bound, s, x => s.cutUpper x bound
  | .assign v, s, x => s.assign x v

end DecisionDiagrams
