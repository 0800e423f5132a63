import DecisionDiagrams.Sets.IndexSet
import Mathlib.Algebra.Group.Nat.Defs
import Mathlib.Data.List.Sort

/-! The elements of a set of numbers in increasing order. The number is halved at each level, so what is said of a
level is about numbers of `2 ^ level` bits. -/

namespace DecisionDiagrams
namespace IndexSet

theorem lowHalf_lt (level n : Nat) : n % 2 ^ 2 ^ level < 2 ^ 2 ^ level :=
  Nat.mod_lt _ (Nat.two_pow_pos _)

theorem highHalf_lt {level n : Nat} (h : n < 2 ^ 2 ^ (level + 1)) :
    n >>> 2 ^ level < 2 ^ 2 ^ level := by
  rw [Nat.shiftRight_eq_div_pow, Nat.div_lt_iff_lt_mul (Nat.two_pow_pos _), ← Nat.pow_add]
  rwa [← Nat.two_mul, ← Nat.pow_succ']

theorem bits_lt (n : Nat) : n < 2 ^ 2 ^ (n.log2.log2 + 1) :=
  Nat.lt_of_lt_of_le Nat.lt_log2_self (Nat.pow_le_pow_right (by decide) Nat.lt_log2_self)

theorem mem_elements {level base n i : Nat} (h : n < 2 ^ 2 ^ level) :
    i ∈ elements level base n ↔ base ≤ i ∧ n.testBit (i - base) = true := by
  induction level generalizing base n with
  | zero =>
    have hn : n = 0 ∨ n = 1 := by simp at h; omega
    rcases hn with rfl | rfl
    · simp [elements]
    · simp only [elements, Nat.one_ne_zero, if_false, List.mem_singleton,
        Nat.testBit_one_eq_true_iff_self_eq_zero]
      omega
  | succ level ih =>
    simp only [elements, shiftUp_eq, lowBits_eq, Nat.one_shiftLeft]
    split
    · rename_i h0; simp [h0]
    rw [List.mem_append, ih (lowHalf_lt level n), ih (highHalf_lt h), Nat.testBit_mod_two_pow,
      Nat.testBit_shiftRight]
    by_cases hi : base + 2 ^ level ≤ i
    · have hb : base ≤ i := Nat.le_trans (Nat.le_add_right _ _) hi
      have e : 2 ^ level + (i - (base + 2 ^ level)) = i - base := by omega
      have e' : ¬ i - base < 2 ^ level := by omega
      simp [hi, hb, e, e']
    · by_cases hb : base ≤ i
      · have e' : i - base < 2 ^ level := by omega
        simp [hi, hb, e']
      · simp [hi, hb]

theorem pairwise_elements {level base n : Nat} (h : n < 2 ^ 2 ^ level) :
    (elements level base n).Pairwise (· < ·)
      ∧ ∀ i ∈ elements level base n, base ≤ i ∧ i < base + 2 ^ level := by
  induction level generalizing base n with
  | zero => unfold elements; split <;> simp
  | succ level ih =>
    simp only [elements, shiftUp_eq, lowBits_eq, Nat.one_shiftLeft]
    split
    · simp
    have low := @ih base _ (lowHalf_lt level n)
    have high := @ih (base + 2 ^ level) _ (highHalf_lt h)
    have e : 2 ^ (level + 1) = 2 ^ level + 2 ^ level := by rw [Nat.pow_succ]; omega
    refine ⟨List.pairwise_append.2 ⟨low.1, high.1, fun x hx y hy => ?_⟩, fun i hi => ?_⟩
    · have := low.2 x hx
      have := high.2 y hy
      omega
    · rcases List.mem_append.1 hi with hi | hi
      · have := low.2 i hi; omega
      · have := high.2 i hi; omega

@[simp] theorem mem_toList {s : IndexSet} {i : Nat} : i ∈ s.toList ↔ i ∈ s := by
  rw [toList, mem_elements (bits_lt _)]
  simp [mem_def]

theorem pairwise_toList (s : IndexSet) : s.toList.Pairwise (· < ·) :=
  (pairwise_elements (bits_lt _)).1

/-- Increasing lists with the same elements are the same. -/
theorem toList_eq {s : IndexSet} {l : List Nat} (hl : l.Pairwise (· < ·)) (h : ∀ i, i ∈ s ↔ i ∈ l) :
    s.toList = l := by
  refine s.pairwise_toList.eq_of_mem_iff hl fun i => ?_
  rw [mem_toList, h]

theorem toList_eq_filter {s : IndexSet} {n : Nat} {p : Nat → Bool} (h : ∀ e, e ∈ s ↔ e < n ∧ p e = true) :
    s.toList = (List.range n).filter p :=
  toList_eq (List.pairwise_lt_range.filter p) fun e => by rw [h, List.mem_filter, List.mem_range]

/-- The elements below a bound are the first ones. -/
theorem toList_filter_lt {a b : IndexSet} {n : Nat} (h : ∀ i, i ∈ b ↔ i ∈ a ∧ i < n) :
    b.toList = a.toList.filter (· < n) :=
  toList_eq (a.pairwise_toList.filter _) fun i => by rw [h, List.mem_filter, mem_toList, decide_eq_true_iff]

end IndexSet
end DecisionDiagrams
