/-! Finite sets of natural numbers, kept as the bits of one number: `i` is in the set when bit `i`
is set. Sets of properties and the contents of set properties are such sets. -/

namespace DecisionDiagrams

/-! ### Bits

Shifting a number to the left and taking its lowest bits. Most of the numbers that hold a state
or a set are small, so both avoid numbers beyond one machine word where the result needs none. -/

def shiftUp (n k : Nat) : Nat :=
  if n.log2 + k < 64 then (n.toUInt64 <<< k.toUInt64).toNat else n <<< k

@[simp] theorem shiftUp_eq (n k : Nat) : shiftUp n k = n <<< k := by
  unfold shiftUp
  split
  · rename_i h
    have hn : n < 2 ^ (n.log2 + 1) := Nat.lt_log2_self
    have h64 : n < 2 ^ 64 := Nat.lt_of_lt_of_le hn (Nat.pow_le_pow_right (by decide) (by omega))
    have hk : k < 2 ^ 64 := Nat.lt_of_lt_of_le (by omega : k < 64) (by decide)
    have hs : n <<< k < 2 ^ 64 := by
      rw [Nat.shiftLeft_eq]
      refine Nat.lt_of_lt_of_le (Nat.mul_lt_mul_of_pos_right hn (Nat.two_pow_pos k)) ?_
      rw [← Nat.pow_add]
      exact Nat.pow_le_pow_right (by decide) (by omega)
    simp only [UInt64.toNat_shiftLeft, Nat.toUInt64, UInt64.toNat_ofNat']
    rw [Nat.mod_eq_of_lt h64, Nat.mod_eq_of_lt hk, Nat.mod_eq_of_lt (by omega : k < 64),
      Nat.mod_eq_of_lt hs]
  · rfl

def lowBits (n width : Nat) : Nat := if n.log2 < width then n else n % shiftUp 1 width

@[simp] theorem lowBits_eq (n width : Nat) : lowBits n width = n % (1 <<< width) := by
  unfold lowBits
  split
  · rename_i h
    rw [Nat.one_shiftLeft, Nat.mod_eq_of_lt]
    exact Nat.lt_of_lt_of_le Nat.lt_log2_self (Nat.pow_le_pow_right (by decide) h)
  · rw [shiftUp_eq]

/-! ### Sets -/

structure IndexSet where
  bits : Nat
deriving DecidableEq, Inhabited

namespace IndexSet

def empty : IndexSet := ⟨0⟩

def below (n : Nat) : IndexSet := ⟨shiftUp 1 n - 1⟩

def contains (s : IndexSet) (i : Nat) : Bool := s.bits.testBit i

instance : Membership Nat IndexSet := ⟨fun s i => s.contains i = true⟩

instance {s : IndexSet} {i : Nat} : Decidable (i ∈ s) :=
  inferInstanceAs (Decidable (s.contains i = true))

def insert (s : IndexSet) (i : Nat) : IndexSet := ⟨s.bits ||| shiftUp 1 i⟩

def erase (s : IndexSet) (i : Nat) : IndexSet :=
  if s.contains i then ⟨s.bits ^^^ shiftUp 1 i⟩ else s

def union (s t : IndexSet) : IndexSet := ⟨s.bits ||| t.bits⟩

def inter (s t : IndexSet) : IndexSet := ⟨s.bits &&& t.bits⟩

def cut (s : IndexSet) (n : Nat) : IndexSet := ⟨lowBits s.bits n⟩

/-- The elements of `s`, except those below `n`, which are taken from `t`. -/
def splice (s t : IndexSet) (n : Nat) : IndexSet :=
  ⟨lowBits t.bits n ||| shiftUp (s.bits >>> n) n⟩

def isEmpty (s : IndexSet) : Bool := s.bits == 0

def isSubset (s t : IndexSet) : Bool := s.bits &&& t.bits == s.bits

/-- The set bits of `n`, a number of at most `2 ^ level` bits, in increasing order, when its lowest bit
stands for `base`. The number is halved, so that a run of zeros costs one comparison however long
it is. -/
def elements : Nat → Nat → Nat → List Nat
  | 0, base, n => if n = 0 then [] else [base]
  | level + 1, base, n =>
    if n = 0 then []
    else
      let half := shiftUp 1 level
      elements level base (lowBits n half) ++ elements level (base + half) (n >>> half)

/-- The elements in increasing order. The level is the least one whose numbers are sure to hold the
highest bit. -/
def toList (s : IndexSet) : List Nat := elements (s.bits.log2.log2 + 1) 0 s.bits

def size (s : IndexSet) : Nat := s.toList.length

theorem mem_def {s : IndexSet} {i : Nat} : i ∈ s ↔ s.bits.testBit i = true := Iff.rfl

@[simp] theorem not_mem_empty {i : Nat} : ¬ i ∈ empty := by simp [mem_def, empty]

theorem isEmpty_iff {s : IndexSet} : s.isEmpty = true ↔ ∀ i, i ∉ s := by
  unfold isEmpty
  rw [beq_iff_eq]
  refine ⟨fun h i => by simp [mem_def, h], fun h => Nat.eq_of_testBit_eq fun i => ?_⟩
  rw [Nat.zero_testBit]
  exact Bool.eq_false_iff.2 fun hi => h i hi

@[simp] theorem mem_below {n i : Nat} : i ∈ below n ↔ i < n := by
  simp [mem_def, below, Nat.one_shiftLeft, Nat.testBit_two_pow_sub_one]

@[simp] theorem mem_insert {s : IndexSet} {i j : Nat} : j ∈ s.insert i ↔ j = i ∨ j ∈ s := by
  simp only [mem_def, insert, Nat.testBit_or, Bool.or_eq_true, shiftUp_eq, Nat.one_shiftLeft,
    Nat.testBit_two_pow, decide_eq_true_eq]
  constructor <;> rintro (h | h) <;> simp [h]

@[simp] theorem mem_union {s t : IndexSet} {i : Nat} : i ∈ s.union t ↔ i ∈ s ∨ i ∈ t := by
  simp [mem_def, union]

@[simp] theorem mem_inter {s t : IndexSet} {i : Nat} : i ∈ s.inter t ↔ i ∈ s ∧ i ∈ t := by
  simp [mem_def, inter]

@[simp] theorem mem_erase {s : IndexSet} {i j : Nat} : j ∈ s.erase i ↔ j ∈ s ∧ j ≠ i := by
  unfold erase
  by_cases h : s.contains i = true
  · simp only [h, if_true, mem_def, Nat.testBit_xor, shiftUp_eq, Nat.one_shiftLeft,
      Nat.testBit_two_pow]
    by_cases hj : i = j
    · subst hj; simpa [contains] using h
    · simp [hj, Ne.symm hj]
  · simp only [h]
    refine ⟨fun hj => ⟨hj, fun e => h ?_⟩, fun hj => hj.1⟩
    exact e ▸ hj

@[simp] theorem mem_cut {s : IndexSet} {n i : Nat} : i ∈ s.cut n ↔ i < n ∧ i ∈ s := by
  simp [mem_def, cut, Nat.one_shiftLeft, Nat.testBit_mod_two_pow]

end IndexSet
end DecisionDiagrams
