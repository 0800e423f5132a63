import DecisionDiagrams.Proofs.Sets.Elements
import DecisionDiagrams.State.SetView
import Mathlib.Data.List.Sort
import Mathlib.Tactic.Common
import Mathlib.Tactic.IntervalCases

/-! The algebra of sets with capacities. Sets are combined word by word, as far as both have words, and only
insertion looks at the capacity. So the operations are those of sets of numbers as long as a set takes in no set
of a larger capacity and the words which the other one lacks are not asked for. -/

namespace DecisionDiagrams

theorem IndexSet.mem_splice {s t : IndexSet} {n e : Nat} : e ∈ s.splice t n ↔ if e < n then e ∈ t else e ∈ s := by
  unfold splice
  simp only [mem_def, Nat.testBit_or, lowBits_eq, shiftUp_eq, Nat.one_shiftLeft, Nat.testBit_mod_two_pow,
    Nat.testBit_shiftLeft, Nat.testBit_shiftRight]
  split_ifs with h
  · have : ¬ n ≤ e := by omega
    simp [h, this]
  · have : n + (e - n) = e := by omega
    simp [h, this, Nat.le_of_not_lt h]

theorem IndexSet.isSubset_iff {s t : IndexSet} : s.isSubset t = true ↔ ∀ e ∈ s, e ∈ t := by
  unfold isSubset
  rw [beq_iff_eq]
  refine ⟨fun h e he => ?_, fun h => Nat.eq_of_testBit_eq fun e => ?_⟩
  · rw [mem_def, ← h, Nat.testBit_and, Bool.and_eq_true] at he
    exact he.2
  · rw [Nat.testBit_and, Bool.and_eq_left_iff_imp]
    exact h e

namespace SetView

variable {s t : SetView} {e f : Nat}

theorem contains_iff : s.contains e = true ↔ e < s.capacity ∧ e ∈ s.contents := by
  unfold contains
  rw [Bool.and_eq_true, decide_eq_true_eq]
  rfl

/-! ### One operation -/

@[simp] theorem capacity_insert : (s.insert f).capacity = s.capacity := by
  unfold insert
  split_ifs <;> rfl

@[simp] theorem capacity_erase : (s.erase f).capacity = s.capacity := by
  unfold erase
  split_ifs <;> rfl

theorem mem_insert : e ∈ (s.insert f).contents ↔ e ∈ s.contents ∨ e = f ∧ e < s.capacity := by
  unfold insert
  split_ifs with h
  · rw [IndexSet.mem_insert, or_comm]
    exact or_congr_right ⟨fun he => ⟨he, he ▸ h⟩, And.left⟩
  · exact (or_iff_left (by rintro ⟨rfl, hlt⟩; exact h hlt)).symm

theorem mem_erase : e ∈ (s.erase f).contents ↔ e ∈ s.contents ∧ ¬ (e = f ∧ e < s.capacity) := by
  unfold erase
  split_ifs with h
  · rw [IndexSet.mem_erase]
    exact and_congr_right fun _ => not_congr ⟨fun he => ⟨he, he ▸ h⟩, And.left⟩
  · exact (and_iff_left (by rintro ⟨rfl, hlt⟩; exact h hlt)).symm

theorem not_mem_clear : e ∉ s.clear.contents := IndexSet.not_mem_empty

theorem mem_join : e ∈ (s.join t).contents ↔ e ∈ s.contents ∨ e < s.sharedBits t ∧ e ∈ t.contents := by
  unfold join
  rw [IndexSet.mem_union, IndexSet.mem_cut]

theorem mem_meet : e ∈ (s.meet t).contents ↔ e ∈ s.contents ∧ (e < s.sharedBits t → e ∈ t.contents) := by
  unfold meet
  rw [IndexSet.mem_splice]
  split_ifs with h <;> simp [h]

theorem mem_overwrite : e ∈ (s.overwrite t).contents ↔ e < s.words * wordBits ∧ e ∈ t.contents :=
  IndexSet.mem_cut

theorem lt_words (h : e < s.capacity) : e < s.words * wordBits := by
  unfold words wordsFor wordBits
  omega

theorem lt_sharedBits (hs : e < s.words * wordBits) (ht : e < t.words * wordBits) : e < s.sharedBits t := by
  unfold sharedBits wordBits at *
  omega

/-! ### Sets without elements beyond their capacity -/

/-- A set which is made by operations of which each takes in sets of no larger capacity. -/
inductive Composed : SetView → Prop
  | empty (capacity : Nat) : Composed ⟨IndexSet.empty, capacity⟩
  | insert {s : SetView} (e : Nat) : Composed s → Composed (s.insert e)
  | erase {s : SetView} (e : Nat) : Composed s → Composed (s.erase e)
  | clear {s : SetView} : Composed s → Composed s.clear
  | join {s t : SetView} : Composed s → Composed t → t.capacity ≤ s.capacity → Composed (s.join t)
  | meet {s t : SetView} : Composed s → Composed t → Composed (s.meet t)

namespace Composed

theorem lt_capacity (h : s.Composed) : ∀ e ∈ s.contents, e < s.capacity := by
  induction h with
  | empty => exact fun e he => absurd he IndexSet.not_mem_empty
  | insert f _ ih =>
    intro e he
    rw [capacity_insert]
    exact (mem_insert.1 he).elim (ih e) And.right
  | erase f _ ih =>
    intro e he
    rw [capacity_erase]
    exact ih e (mem_erase.1 he).1
  | clear => exact fun e he => absurd he not_mem_clear
  | join _ _ hle ihs iht =>
    intro e he
    rcases mem_join.1 he with he | ⟨-, he⟩
    · exact ihs e he
    · exact Nat.lt_of_lt_of_le (iht e he) hle
  | meet _ _ ih _ => exact fun e he => ih e (mem_meet.1 he).1

theorem mem_iff (h : s.Composed) : e ∈ s.contents ↔ s.contains e = true := by
  rw [contains_iff]
  exact (and_iff_right_of_imp (h.lt_capacity e)).symm

theorem toList_eq (h : s.Composed) : s.toList = (List.range s.capacity).filter s.contains :=
  IndexSet.toList_eq_filter fun _ =>
    h.mem_iff.trans (and_iff_right_of_imp fun he => (contains_iff.1 he).1).symm

theorem isEmpty_iff (h : s.Composed) : s.isEmpty = true ↔ ∀ e, s.contains e = false := by
  refine IndexSet.isEmpty_iff.trans (forall_congr' fun e => ?_)
  rw [h.mem_iff, Bool.not_eq_true]

variable (hs : s.Composed) (ht : t.Composed)
include hs ht

theorem isSubset_iff (hw : s.words ≤ t.words) :
    s.isSubset t = true ↔ ∀ e, s.contains e = true → t.contains e = true := by
  unfold isSubset
  refine IndexSet.isSubset_iff.trans (forall_congr' fun e => ?_)
  rw [IndexSet.mem_cut, hs.mem_iff, ht.mem_iff]
  refine imp_congr_left (and_iff_right_of_imp fun he => ?_)
  have hlt := lt_words (contains_iff.1 he).1
  exact lt_sharedBits hlt (Nat.lt_of_lt_of_le hlt (Nat.mul_le_mul_right _ hw))

theorem unionSize_eq (hw : s.words = t.words) : s.unionSize t =
    ((List.range (max s.capacity t.capacity)).filter fun e => s.contains e || t.contains e).length := by
  refine congrArg List.length (IndexSet.toList_eq_filter fun e => ?_)
  rw [IndexSet.mem_cut, IndexSet.mem_union, hs.mem_iff, ht.mem_iff, Bool.or_eq_true]
  refine and_congr_left fun he => iff_of_true ?_ ?_
  · have hlt : e < s.words * wordBits :=
      he.elim (fun h => lt_words (contains_iff.1 h).1) fun h => hw ▸ lt_words (contains_iff.1 h).1
    exact lt_sharedBits hlt (hw ▸ hlt)
  · exact he.elim (fun h => Nat.lt_of_lt_of_le (contains_iff.1 h).1 (Nat.le_max_left _ _))
      fun h => Nat.lt_of_lt_of_le (contains_iff.1 h).1 (Nat.le_max_right _ _)

omit hs in
theorem contains_join : (s.join t).contains e = true ↔
    e < s.capacity ∧ (s.contains e = true ∨ t.contains e = true) := by
  rw [contains_iff, mem_join, contains_iff (s := s), ← ht.mem_iff]
  refine and_congr_right fun hlt => or_congr (and_iff_right hlt).symm (and_iff_right_of_imp fun he => ?_)
  exact lt_sharedBits (lt_words hlt) (lt_words (ht.lt_capacity e he))

omit hs in
theorem contains_meet (hw : s.words ≤ t.words) : (s.meet t).contains e = true ↔
    s.contains e = true ∧ t.contains e = true := by
  rw [contains_iff, mem_meet, contains_iff (s := s), ← ht.mem_iff, ← and_assoc]
  refine and_congr_right fun h => imp_iff_right ?_
  exact lt_sharedBits (lt_words h.1) (Nat.lt_of_lt_of_le (lt_words h.1) (Nat.mul_le_mul_right _ hw))

/-- Sets follow the algebra of sets of numbers. A set lists, in increasing order, the elements which it contains,
and counts as many. What it takes in are the elements of the other one which fit; a subset, an intersection and
a union are those of the elements if the other set has as many words. -/
theorem set_laws :
    s.toList = (List.range s.capacity).filter s.contains ∧ s.size = (List.range s.capacity).countP s.contains ∧
      (s.isEmpty = true ↔ ∀ e, s.contains e = false) ∧
      (s.words ≤ t.words → (s.isSubset t = true ↔ ∀ e, s.contains e = true → t.contains e = true)) ∧
      (s.words = t.words → s.unionSize t =
        (List.range (max s.capacity t.capacity)).countP fun e => s.contains e || t.contains e) ∧
      (∀ e, (s.join t).contains e = true ↔ e < s.capacity ∧ (s.contains e = true ∨ t.contains e = true)) ∧
      (t.capacity ≤ s.capacity →
        (s.join t).toList = (List.range s.capacity).filter fun e => s.contains e || t.contains e) ∧
      (s.words ≤ t.words →
        (s.meet t).toList = (List.range s.capacity).filter fun e => s.contains e && t.contains e) := by
  refine ⟨hs.toList_eq, ?_, hs.isEmpty_iff, hs.isSubset_iff ht, fun hw => ?_, fun e => ht.contains_join, fun hle => ?_,
    fun hw => ?_⟩
  · rw [List.countP_eq_length_filter, ← hs.toList_eq]
    rfl
  · rw [List.countP_eq_length_filter, hs.unionSize_eq ht hw]
  · refine (hs.join ht hle).toList_eq.trans (List.filter_congr fun e he => Bool.eq_iff_iff.2 ?_)
    rw [ht.contains_join, Bool.or_eq_true]
    exact and_iff_right (List.mem_range.1 he)
  · refine (hs.meet ht).toList_eq.trans (List.filter_congr fun e _ => Bool.eq_iff_iff.2 ?_)
    rw [ht.contains_meet hw, Bool.and_eq_true]

end Composed

/-- Sets of two words, the second one smaller. -/
theorem set_laws_two_words :
    let s := (SetView.mk .empty 100).insert 99 |>.insert 3 |>.insert 100
    let t := (SetView.mk .empty 70).insert 3 |>.insert 64
    s.toList = [3, 99] ∧ s.unionSize t = 3 ∧ (s.join t).toList = [3, 64, 99] ∧ (s.meet t).toList = [3] := by
  intro s t
  have hs : s.Composed := ((Composed.empty 100).insert 99 |>.insert 3 |>.insert 100)
  have ht : t.Composed := ((Composed.empty 70).insert 3 |>.insert 64)
  obtain ⟨list, -, -, -, union, -, join, meet⟩ := hs.set_laws ht
  refine ⟨list.trans ?_, (union ?_).trans ?_, (join ?_).trans ?_, (meet ?_).trans ?_⟩ <;> decide +kernel

/-- A set below 3 which has taken in 7 from a larger one. -/
def overfull : SetView := (SetView.mk .empty 3).join ((SetView.mk .empty 10).insert 7)

/-- A set of two words with an element in the second one. -/
def lone : SetView := (SetView.mk .empty 100).insert 70

/-- A set can count and list an element which it does not contain. If the other set has fewer words, the elements
behind these are not asked for: they count as elements of a subset and not as elements of a union, and they remain
in an intersection. -/
theorem set_laws_fail_across_capacities :
    (overfull.size = 1 ∧ overfull.isEmpty = false ∧ overfull.toList = [7] ∧ ∀ e, overfull.contains e = false) ∧
    lone.contains 70 = true ∧ lone.isSubset ⟨.empty, 10⟩ = true ∧ lone.unionSize ⟨.empty, 10⟩ = 0 ∧
      (lone.meet ⟨.empty, 10⟩).contains 70 = true := by
  refine ⟨⟨by decide +kernel, by decide +kernel, by decide +kernel, fun e => ?_⟩, by decide +kernel⟩
  rcases Nat.lt_or_ge e 3 with h | h
  · interval_cases e <;> decide +kernel
  · exact Bool.and_eq_false_imp.2 fun hlt => absurd (of_decide_eq_true hlt) (Nat.not_lt.2 h)

end SetView

end DecisionDiagrams
