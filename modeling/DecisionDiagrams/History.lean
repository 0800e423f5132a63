/-! A value with checkpoints, and a journal of changes. Opening a checkpoint keeps the present value; going back to
an earlier checkpoint brings back the value kept when the checkpoint above it was opened. A journal is cut into
levels, and going back to an earlier level hands out what was written since. -/

namespace DecisionDiagrams

/-- A value together with the values it had when the open checkpoints were opened, latest first. -/
structure History (α : Type) where
  current : α
  kept : List α := []

namespace History

variable {α : Type}

instance [Inhabited α] : Inhabited (History α) := ⟨{ current := default }⟩

def level (h : History α) : Nat := h.kept.length

def modify (f : α → α) (h : History α) : History α := { h with current := f h.current }

def openCheckpoint (h : History α) : History α := { h with kept := h.current :: h.kept }

/-- Closes the checkpoints above `target`, which brings back the value kept by the lowest of them.
-/
def backtrack (h : History α) (target : Nat) : History α :=
  match h.kept.drop (h.level - (target + 1)) with
  | v :: rest => if target < h.level then { current := v, kept := rest } else h
  | [] => h

theorem level_openCheckpoint (h : History α) : h.openCheckpoint.level = h.level + 1 := rfl

theorem level_modify (f : α → α) (h : History α) : (h.modify f).level = h.level := rfl

theorem level_backtrack {h : History α} {target : Nat} (lt : target < h.level) :
    (h.backtrack target).level = target := by
  unfold backtrack
  have hl : (h.kept.drop (h.level - (target + 1))).length = target + 1 := by
    rw [List.length_drop]
    have : h.kept.length = h.level := rfl
    omega
  split
  · rename_i v rest e
    rw [e, List.length_cons] at hl
    rw [if_pos lt]
    exact Nat.succ.inj hl
  · rename_i e
    rw [e] at hl
    cases hl

end History

/-- Entries in the order in which they were written, cut into levels. -/
structure Journal (α : Type) where
  level : Nat := 0
  /-- How many entries there were when the level above each level was opened. -/
  openings : Array Nat := #[]
  entries : Array α := #[]

namespace Journal

variable {α : Type}

def openLevel (j : Journal α) : Journal α :=
  { j with level := j.level + 1, openings := j.openings.push j.entries.size }

def openTo (j : Journal α) (target : Nat) : Journal α := Nat.repeat openLevel (target - j.level) j

def write (a : α) (j : Journal α) : Journal α := { j with entries := j.entries.push a }

/-- Goes back to an earlier level. The entries written above it are handed out, the latest first. -/
def cutBack (j : Journal α) (target : Nat) : List α × Journal α :=
  let count := j.openings.getD target 0
  ((j.entries.toList.drop count).reverse,
    { level := target, openings := j.openings.take target, entries := j.entries.take count })

end Journal

end DecisionDiagrams
