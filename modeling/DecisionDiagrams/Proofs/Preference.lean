import DecisionDiagrams.Preference
import Mathlib.Tactic.Common

/-! Choosing by preference gives one of the elements, unless there are none. Sorting by a larger key puts larger keys
first, and elements of the same key stay in order. -/

namespace DecisionDiagrams.Preference

variable {α : Type} {prefers : α → α → Bool}

theorem mem_of_best? : ∀ {l : List α} {x : α}, best? prefers l = some x → x ∈ l
  | y :: r, x, h => by
    unfold best? at h
    cases hr : best? prefers r with
    | none =>
      rw [hr] at h
      obtain rfl := Option.some.inj h
      exact List.mem_cons_self
    | some z =>
      rw [hr] at h
      dsimp only at h
      split_ifs at h
      · obtain rfl := Option.some.inj h
        exact List.mem_cons_of_mem _ (mem_of_best? hr)
      · obtain rfl := Option.some.inj h
        exact List.mem_cons_self

theorem exists_best? (prefers : α → α → Bool) {l : List α} (h : l ≠ []) : ∃ x, best? prefers l = some x := by
  obtain ⟨y, r, rfl⟩ := List.exists_cons_of_ne_nil h
  unfold best?
  split
  · split_ifs
    · exact ⟨_, rfl⟩
    · exact ⟨_, rfl⟩
  · exact ⟨_, rfl⟩

/-! ### Sorting by a key -/

variable (key : α → Nat)

theorem pairwise_insert (x : α) {xs : List α} (h : xs.Pairwise fun a b => key b ≤ key a) :
    (insert (fun a b => decide (key b < key a)) x xs).Pairwise fun a b => key b ≤ key a := by
  induction xs with
  | nil => exact List.pairwise_singleton _ _
  | cons y r ih =>
    obtain ⟨hy, hr⟩ := List.pairwise_cons.1 h
    unfold insert
    split_ifs with hlt
    · refine List.pairwise_cons.2 ⟨fun z hz => ?_, ih hr⟩
      rcases List.mem_cons.1 ((insert_perm _ x r).subset hz) with rfl | hz
      · exact Nat.le_of_lt (of_decide_eq_true hlt)
      · exact hy z hz
    · have hle : key y ≤ key x := Nat.le_of_not_lt (mt decide_eq_true hlt)
      refine List.pairwise_cons.2 ⟨fun z hz => ?_, h⟩
      rcases List.mem_cons.1 hz with rfl | hz
      · exact hle
      · exact Nat.le_trans (hy z hz) hle

theorem pairwise_sort (xs : List α) :
    (sort (fun a b => decide (key b < key a)) xs).Pairwise fun a b => key b ≤ key a := by
  induction xs with
  | nil => exact List.Pairwise.nil
  | cons x xs ih => exact pairwise_insert key x ih

theorem filter_insert (n : Nat) (x : α) (xs : List α) :
    (insert (fun a b => decide (key b < key a)) x xs).filter (fun a => key a == n) =
      (x :: xs).filter fun a => key a == n := by
  induction xs with
  | nil => rfl
  | cons y r ih =>
    unfold insert
    split_ifs with hlt
    · have hlt := of_decide_eq_true hlt
      -- `x` goes behind `y`, whose key is another one
      by_cases hx : key x = n
      · have hy : key y ≠ n := by omega
        simpa [List.filter_cons, hx, hy] using ih
      · simp [List.filter_cons, hx] at ih ⊢
        simp [ih]
    · rfl

/-- Elements of the same key stay in order. -/
theorem filter_sort (n : Nat) (xs : List α) :
    (sort (fun a b => decide (key b < key a)) xs).filter (fun a => key a == n) = xs.filter fun a => key a == n := by
  induction xs with
  | nil => rfl
  | cons x xs ih =>
    refine (filter_insert key n x _).trans ?_
    rw [List.filter_cons, List.filter_cons]
    exact congrArg (fun l => if (key x == n) = true then x :: l else l) ih

end DecisionDiagrams.Preference
