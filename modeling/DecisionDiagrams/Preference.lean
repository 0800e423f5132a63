/-! Choosing and sorting by preference. Among elements of which none is preferred to another the
earlier one comes first. -/

namespace DecisionDiagrams.Preference

variable {α : Type}

def insert (prefers : α → α → Bool) (x : α) : List α → List α
  | [] => [x]
  | y :: r => if prefers y x then y :: insert prefers x r else x :: y :: r

/-- Sorts the preferred elements to the front; otherwise the order stays. -/
def sort (prefers : α → α → Bool) (xs : List α) : List α := xs.foldr (insert prefers) []

/-- The first element to which no other is preferred. -/
def best? (prefers : α → α → Bool) : List α → Option α
  | [] => none
  | x :: r =>
    match best? prefers r with
    | some y => if prefers y x then some y else some x
    | none => some x

theorem insert_perm (prefers : α → α → Bool) (x : α) (xs : List α) :
    (insert prefers x xs).Perm (x :: xs) := by
  induction xs with
  | nil => exact List.Perm.refl _
  | cons y r ih =>
    unfold insert
    split
    · exact (ih.cons y).trans (List.Perm.swap x y r)
    · exact List.Perm.refl _

theorem sort_perm (prefers : α → α → Bool) (xs : List α) : (sort prefers xs).Perm xs := by
  induction xs with
  | nil => exact List.Perm.refl _
  | cons x r ih => exact (insert_perm prefers x _).trans (ih.cons x)

end DecisionDiagrams.Preference
