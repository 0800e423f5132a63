import DecisionDiagrams.Sets.IndexSet

/-! Bit fields of a natural number. Field `(offset, width)` of `n` is the number formed by the bits
`offset`, …, `offset + width - 1`. Writing a field changes exactly these bits, so disjoint fields do
not see each other. -/

namespace DecisionDiagrams.Field

def read (n offset width : Nat) : Nat := lowBits (n >>> offset) width

def write (n offset width v : Nat) : Nat :=
  n ^^^ shiftUp (read n offset width ^^^ lowBits v width) offset

theorem read_eq (n offset width : Nat) : read n offset width = (n >>> offset) % (1 <<< width) := by
  rw [read, lowBits_eq]

theorem write_eq (n offset width v : Nat) :
    write n offset width v = n ^^^ ((read n offset width ^^^ v % (1 <<< width)) <<< offset) := by
  rw [write, shiftUp_eq, lowBits_eq]

theorem testBit_low (n width i : Nat) :
    (n % (1 <<< width)).testBit i = (decide (i < width) && n.testBit i) := by
  rw [Nat.one_shiftLeft, Nat.testBit_mod_two_pow]

theorem read_lt (n offset width : Nat) : read n offset width < 1 <<< width := by
  rw [read_eq, Nat.one_shiftLeft]
  exact Nat.mod_lt _ (Nat.two_pow_pos _)

theorem testBit_read (n offset width i : Nat) :
    (read n offset width).testBit i = (decide (i < width) && n.testBit (offset + i)) := by
  rw [read_eq, testBit_low, Nat.testBit_shiftRight]

theorem testBit_write (n offset width v i : Nat) :
    (write n offset width v).testBit i =
      if offset ≤ i ∧ i < offset + width then v.testBit (i - offset) else n.testBit i := by
  simp only [write_eq, Nat.testBit_xor, Nat.testBit_shiftLeft, testBit_read, testBit_low]
  by_cases h : offset ≤ i
  · by_cases hw : i < offset + width
    · have h1 : i - offset < width := by omega
      have h2 : offset + (i - offset) = i := by omega
      simp [h, hw, h1, h2]
    · have h1 : ¬ i - offset < width := by omega
      simp [h, hw, h1]
  · simp [h]

theorem read_write_self (n offset width v : Nat) :
    read (write n offset width v) offset width = v % (1 <<< width) := by
  refine Nat.eq_of_testBit_eq fun i => ?_
  rw [testBit_read, testBit_write, testBit_low]
  by_cases h : i < width
  · simp [h]
  · simp [h]

theorem read_write_of_disjoint {n offset width v offset' width' : Nat}
    (h : offset' + width' ≤ offset ∨ offset + width ≤ offset') :
    read (write n offset width v) offset' width' = read n offset' width' := by
  refine Nat.eq_of_testBit_eq fun i => ?_
  rw [testBit_read, testBit_read, testBit_write]
  by_cases hi : i < width'
  · have : ¬ (offset ≤ offset' + i ∧ offset' + i < offset + width) := by omega
    simp [this]
  · simp [hi]

theorem write_read_self (n offset width : Nat) :
    write n offset width (read n offset width) = n := by
  simp [write_eq, read_eq]

end DecisionDiagrams.Field
