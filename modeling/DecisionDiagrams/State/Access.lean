import DecisionDiagrams.State.View

/-! Access to properties with a check. A rule names a property together with the form it expects
there, and it cannot go on if the state has no such property. Windows are not checked against their
length: an element behind the last one is read from and written to the bits where it would be, as
long as these belong to the words of the state. -/

namespace DecisionDiagrams

inductive Form
  | flag
  | integer
  | set
  | window
deriving DecidableEq, Inhabited, Repr

def Kind.form : Kind → Form
  | .flag _ => .flag
  | .integer .. => .integer
  | .set _ => .set
  | .window .. => .window

/-- Why a rule cannot go on. -/
inductive Fault
  /-- The state has no property at the position. -/
  | noProperty
  /-- The property is of another form. -/
  | otherForm
  /-- The element of a window lies behind the words of the state. -/
  | outsideState
  /-- A set is copied into one which has another number of words. -/
  | otherWords
deriving DecidableEq, Inhabited, Repr

abbrev Checked := Except Fault

/-- The place in a window which a number stands for: places are numbers of 32 bits. -/
def windowPlace (n : Int) : Nat := (n % 0x100000000).toNat

theorem windowPlace_natCast {n : Nat} (h : n < 0x100000000) : windowPlace n = n := by
  unfold windowPlace
  omega

namespace View

def expect (v : View) (i : Nat) (form : Form) : Checked Unit :=
  match v.kind? i with
  | some k => if k.form = form then .ok () else .error .otherForm
  | none => .error .noProperty

theorem expect_eq_ok_iff {v : View} {i : Nat} {form : Form} :
    v.expect i form = .ok () ↔ ∃ k, v.kind? i = some k ∧ k.form = form := by
  unfold expect
  cases v.kind? i with
  | none => simp
  | some k => by_cases h : k.form = form <;> simp [h]

def reaches (v : View) (i e : Nat) : Bool :=
  match v.slot? i with
  | some s => decide (s.elementOffset e / wordBits < v.layout.words)
  | none => false

def elementAt (v : View) (i : Nat) (place : Int) : Checked Int :=
  let e := windowPlace place
  if v.reaches i e then .ok (v.windowElement i e) else .error .outsideState

def putElementAt (v : View) (i : Nat) (place : Int) (x : Int) : Checked View :=
  let e := windowPlace place
  if v.reaches i e then .ok (v.setWindowElement i e x) else .error .outsideState

/-- Gives the elements of window `i` from the place `count` down to place 1 the values which window
`j` of another state has one place before them. -/
def moveBack (source : View) (i j : Nat) : Nat → View → Checked View
  | 0, out => .ok out
  | count + 1, out => do
    let x ← source.elementAt j count
    let out ← out.putElementAt i (count + 1) x
    source.moveBack i j count out

def shiftIn (source : View) (i j length : Nat) (first : Int) (out : View) : Checked View := do
  let moved ← source.moveBack i j (length - 1) out
  moved.putElementAt i 0 first

end View
end DecisionDiagrams
