import DecisionDiagrams.Sets.IntSet

/-! The domains of the variables. A domain is a non-empty finite set of integers; it only ever
shrinks, and a restriction which would leave nothing is refused. The domains of all variables keep
a list of the variables which lost a value and whose observers were not told yet. -/

namespace DecisionDiagrams

structure Domain extends IntSet where
  nonempty : toList ≠ []

namespace Domain

instance : Membership Int Domain := ⟨fun d v => v ∈ d.toIntSet⟩

/-- The domain with the elements of `s`, unless there are none. -/
def ofSet? (s : IntSet) : Option Domain :=
  if h : s.toList = [] then none else some ⟨s, h⟩

def ofRange? (lo hi : Int) : Option Domain := ofSet? (IntSet.range lo hi)

def ofValues? (vs : List Int) : Option Domain := ofSet? (IntSet.ofList vs)

def lower (d : Domain) : Int := d.toList.head d.nonempty

def upper (d : Domain) : Int := d.toList.getLast d.nonempty

def restrict? (keep : Int → Bool) (d : Domain) : Option Domain :=
  ofSet? (d.toIntSet.filter keep)

theorem mem_def {d : Domain} {v : Int} : v ∈ d ↔ v ∈ d.toIntSet := Iff.rfl

theorem restrict?_eq_none_iff {keep : Int → Bool} {d : Domain} :
    d.restrict? keep = none ↔ ∀ v ∈ d, keep v = false := by
  unfold restrict? ofSet?
  split
  · rename_i h
    simp only [IntSet.filter, List.filter_eq_nil_iff] at h
    exact iff_of_true rfl fun v hv => by simpa using h v hv
  · rename_i h
    refine iff_of_false (by simp) fun hall => h ?_
    simp only [IntSet.filter, List.filter_eq_nil_iff]
    exact fun v hv => by simpa using hall v hv

theorem mem_restrict? {keep : Int → Bool} {d e : Domain} (h : d.restrict? keep = some e) {v : Int} :
    v ∈ e ↔ v ∈ d ∧ keep v = true := by
  unfold restrict? ofSet? at h
  split at h
  · simp at h
  · obtain rfl := Option.some.inj h
    exact IntSet.mem_filter

end Domain

/-- How the values of a new variable are given. -/
inductive Offer
  | range (lo hi : Int)
  | values (vs : List Int)

def Offer.domain? : Offer → Option Domain
  | .range lo hi => Domain.ofRange? lo hi
  | .values vs => Domain.ofValues? vs

abbrev Var := Nat

structure Domains where
  domains : Array Domain := #[]
  /-- The variables which lost a value since the list was last emptied, in the order of the changes.
  -/
  changed : Array Var := #[]
deriving Inhabited

namespace Domains

def size (s : Domains) : Nat := s.domains.size

def get? (s : Domains) (x : Var) : Option Domain := s.domains[x]?

def values (s : Domains) (x : Var) : List Int := ((s.get? x).map (·.toList)).getD []

def contains (s : Domains) (x : Var) (v : Int) : Bool := (s.values x).elem v

def add (s : Domains) (d : Domain) : Domains := { s with domains := s.domains.push d }

/-- Restricts `x` to the values for which `keep` holds and tells whether a value was lost; nothing
is returned if no value would remain. -/
def restrict? (s : Domains) (x : Var) (keep : Int → Bool) : Option (Bool × Domains) :=
  match s.domains[x]? with
  | none => some (false, s)
  | some d =>
    match d.restrict? keep with
    | none => none
    | some e =>
      if e.size = d.size then some (false, s)
      else some (true, { domains := s.domains.setIfInBounds x e, changed := s.changed.push x })

def remove? (s : Domains) (x : Var) (v : Int) : Option (Bool × Domains) := s.restrict? x (· ≠ v)

def assign? (s : Domains) (x : Var) (v : Int) : Option (Bool × Domains) := s.restrict? x (· = v)

def raiseLower? (s : Domains) (x : Var) (bound : Int) : Option (Bool × Domains) :=
  s.restrict? x (bound ≤ ·)

def cutUpper? (s : Domains) (x : Var) (bound : Int) : Option (Bool × Domains) :=
  s.restrict? x (· ≤ bound)

/-- Forgets which variables changed. -/
def settle (s : Domains) : Domains := { s with changed := #[] }

end Domains

inductive Restriction
  | remove (v : Int)
  | raiseLower (bound : Int)
  | cutUpper (bound : Int)
  | assign (v : Int)

namespace Restriction

def keeps : Restriction → Int → Bool
  | .remove v => (· ≠ v)
  | .raiseLower bound => (bound ≤ ·)
  | .cutUpper bound => (· ≤ bound)
  | .assign v => (· = v)

def onDomains : Restriction → Domains → Var → Option (Bool × Domains)
  | .remove v, s, x => s.remove? x v
  | .raiseLower bound, s, x => s.raiseLower? x bound
  | .cutUpper bound, s, x => s.cutUpper? x bound
  | .assign v, s, x => s.assign? x v

end Restriction
end DecisionDiagrams
