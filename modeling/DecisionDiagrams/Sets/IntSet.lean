/-! Finite sets of integers, listed in increasing order. The values of a variable and the labels of
a bundle of arcs are such sets. Every operation keeps the list strictly increasing, so two sets with
the same elements are the same list. -/

namespace DecisionDiagrams

structure IntSet where
  toList : List Int
  increasing : toList.Pairwise (· < ·)

namespace IntSet

def insertSorted (v : Int) : List Int → List Int
  | [] => [v]
  | a :: r => if v < a then v :: a :: r else if v = a then a :: r else a :: insertSorted v r

theorem mem_insertSorted {v w : Int} {l : List Int} : w ∈ insertSorted v l ↔ w = v ∨ w ∈ l := by
  induction l with
  | nil => simp [insertSorted]
  | cons a r ih =>
    unfold insertSorted
    split
    · simp
    · split
      · rename_i h; subst h; simp
      · simp [ih]; constructor <;> (rintro (h | h | h) <;> simp [h])

theorem pairwise_insertSorted {v : Int} {l : List Int} (h : l.Pairwise (· < ·)) :
    (insertSorted v l).Pairwise (· < ·) := by
  induction l with
  | nil => simp [insertSorted]
  | cons a r ih =>
    rw [List.pairwise_cons] at h
    unfold insertSorted
    split
    · rename_i hv
      refine List.pairwise_cons.2 ⟨fun w hw => ?_, List.pairwise_cons.2 h⟩
      rcases List.mem_cons.1 hw with rfl | hw
      · exact hv
      · exact Int.lt_trans hv (h.1 w hw)
    · split
      · exact List.pairwise_cons.2 h
      · rename_i h1 h2
        refine List.pairwise_cons.2 ⟨fun w hw => ?_, ih h.2⟩
        rcases mem_insertSorted.1 hw with rfl | hw
        · omega
        · exact h.1 w hw

instance : Membership Int IntSet := ⟨fun s v => v ∈ s.toList⟩

instance {s : IntSet} {v : Int} : Decidable (v ∈ s) := inferInstanceAs (Decidable (v ∈ s.toList))

theorem mem_def {s : IntSet} {v : Int} : v ∈ s ↔ v ∈ s.toList := Iff.rfl

def empty : IntSet := ⟨[], List.Pairwise.nil⟩

instance : Inhabited IntSet := ⟨empty⟩

def singleton (v : Int) : IntSet := ⟨[v], List.pairwise_singleton _ _⟩

def insert (v : Int) (s : IntSet) : IntSet :=
  ⟨insertSorted v s.toList, pairwise_insertSorted s.increasing⟩

def ofList (vs : List Int) : IntSet := vs.foldr insert empty

def block (first : Int) (count : Nat) : IntSet where
  toList := (List.range count).map fun (i : Nat) => first + (i : Int)
  increasing := by
    refine List.pairwise_map.2 (List.pairwise_lt_range.imp ?_)
    intro a b h
    omega

/-- The integers from `lo` to `hi`, none if `hi < lo`. -/
def range (lo hi : Int) : IntSet := block lo (hi - lo + 1).toNat

def filter (p : Int → Bool) (s : IntSet) : IntSet :=
  ⟨s.toList.filter p, s.increasing.filter p⟩

def size (s : IntSet) : Nat := s.toList.length

def contains (s : IntSet) (v : Int) : Bool := s.toList.elem v

def isEmpty (s : IntSet) : Bool := s.toList.isEmpty

def hasOne (s : IntSet) : Bool := s.toList.length == 1

def min? (s : IntSet) : Option Int := s.toList.head?

def max? (s : IntSet) : Option Int := s.toList.getLast?

def all (s : IntSet) (p : Int → Bool) : Bool := s.toList.all p

def any (s : IntSet) (p : Int → Bool) : Bool := s.toList.any p

@[simp] theorem mem_singleton {v w : Int} : w ∈ singleton v ↔ w = v := by
  simp [mem_def, singleton]

@[simp] theorem mem_insert {v w : Int} {s : IntSet} : w ∈ s.insert v ↔ w = v ∨ w ∈ s :=
  mem_insertSorted

@[simp] theorem mem_ofList {v : Int} {vs : List Int} : v ∈ ofList vs ↔ v ∈ vs := by
  induction vs with
  | nil => simp [ofList, mem_def, empty]
  | cons a r ih => simpa [ofList] using or_congr_right ih

@[simp] theorem mem_range {v lo hi : Int} : v ∈ range lo hi ↔ lo ≤ v ∧ v ≤ hi := by
  simp only [mem_def, range, block, List.mem_map, List.mem_range]
  constructor
  · rintro ⟨i, hi, rfl⟩; omega
  · rintro ⟨h1, h2⟩; exact ⟨(v - lo).toNat, by omega, by omega⟩

@[simp] theorem mem_filter {v : Int} {p : Int → Bool} {s : IntSet} :
    v ∈ s.filter p ↔ v ∈ s ∧ p v = true := List.mem_filter

@[simp] theorem contains_iff {s : IntSet} {v : Int} : s.contains v = true ↔ v ∈ s := by
  simp [contains, mem_def]

end IntSet
end DecisionDiagrams
