import DecisionDiagrams.Proofs.Spec.Declared
import DecisionDiagrams.Proofs.Spec.Tuples
import Mathlib.Data.Set.Insert

/-! The labels which a state stands for. Starting from the root or from the sink, a transition over a set of
values extends every sequence of labels by every value, and a merge puts the sequences of both states
together. What the rules of one constraint track is true of the states which are reached in this way, whatever
the other constraints do with their own properties. -/

namespace DecisionDiagrams

namespace Model

variable {m : Model} {d : Direction} {i l : Nat} {s t r : State} {σ : Nat → Int}

/-- The rules of other properties leave property `i` alone. -/
structure Guards (m : Model) (d : Direction) (i : Nat) : Prop extends m.Apart d i where
  merged : ∀ {other target j r}, i ≠ j →
    m.mergeProperty d.side other target j = .ok r → m.Alike d.side i target r

/-- The labels of the layers which are passed on the way to a layer, from above to below. -/
def trace (m : Model) (σ : Nat → Int) : Direction → Nat → List Int
  | .down, l => (List.range l).map σ
  | .up, l => (List.range' l (m.depth - l)).map σ

/-- Sequences of labels which are one layer longer. -/
def lengthen : Direction → Set (List Int) → IntSet → Set (List Int)
  | .down, P, values => {p | ∃ q ∈ P, ∃ v ∈ values, p = q ++ [v]}
  | .up, P, values => {p | ∃ q ∈ P, ∃ v ∈ values, p = v :: q}

/-- A state which is computed for some sequences of labels, by transitions over sets of values and by merges,
in any order. -/
inductive Gathers (m : Model) (d : Direction) : Nat → Set (List Int) → State → Prop
  | start : Gathers m d (d.start m) {[]} (m.fresh d.side)
  | step {l P s combined values r} : l < m.depth → (∃ v, v ∈ values) → Gathers m d (d.source l) P s →
    m.step d l s combined values = .ok r → Gathers m d (d.target l) (lengthen d P values) r
  | relax {l P Q s t r} : Gathers m d l P s → Gathers m d l Q t →
    m.mergeListed d.side (m.everyProperty d.side) s t = .ok r → Gathers m d l (P ∪ Q) r
  | mark {l P s} (relaxed : Bool) : Gathers m d l P s → Gathers m d l P { s with relaxed }

theorem trace_start (σ : Nat → Int) : m.trace σ d (d.start m) = [] := by
  cases d with
  | down => rfl
  | up => simp [trace, Direction.start]

/-- The labels pass through a transition if its values have the one of the layer. -/
theorem trace_mem_lengthen {P : Set (List Int)} {values : IntSet} (hl : l < m.depth)
    (h : m.trace σ d (d.target l) ∈ lengthen d P values) : m.trace σ d (d.source l) ∈ P ∧ σ l ∈ values := by
  cases d with
  | down =>
    obtain ⟨q, hq, v, hv, e⟩ := h
    change (List.range (l + 1)).map σ = q ++ [v] at e
    rw [List.range_succ, List.map_append, List.map_singleton] at e
    obtain ⟨rfl, hlast⟩ := List.append_inj' e rfl
    exact ⟨hq, List.singleton_inj.1 hlast ▸ hv⟩
  | up =>
    obtain ⟨q, hq, v, hv, e⟩ := h
    change (List.range' l (m.depth - l)).map σ = v :: q at e
    rw [show m.depth - l = m.depth - (l + 1) + 1 by omega, List.range'_succ, List.map_cons] at e
    obtain ⟨rfl, rfl⟩ := List.cons.inj e
    exact ⟨hq, hv⟩

/-- What is tracked is true of a gathered state, and of the labels as well which it was computed for. -/
theorem Gathers.tracked {P : Set (List Int)} {φ : Bool → Nat → State → Prop} (h : m.Gathers d l P s)
    (g : m.Guards d i) (hi : i < (m.properties.get d.side).size) (hφ : Tracks m σ d i φ) :
    φ false l s ∧ (m.trace σ d l ∈ P → φ true l s) := by
  induction h with
  | start => exact ⟨hφ.weaken hφ.start, fun _ => hφ.start⟩
  | @step l P s combined values r hl _ _ hr ih =>
    have take : ∀ b, (b = true → σ l ∈ values) → φ b (d.source l) s → φ b (d.target l) r := by
      intro b hv hs
      obtain ⟨active, idle⟩ := g.toApart.of_step hr
      by_cases ha : i ∈ m.active d l
      · obtain ⟨target, r', hr', hsame⟩ := active ha
        exact hφ.congr hsame (hφ.stepped hl hv hs hr')
      · exact hφ.congr (idle ha) (hφ.kept hl ha hs)
    refine ⟨take false nofun ih.1, fun htrace => ?_⟩
    obtain ⟨hP, hv⟩ := trace_mem_lengthen hl htrace
    exact take true (fun _ => hv) (ih.2 hP)
  | @relax l P Q s t r _ _ hr ihs iht =>
    have join : ∀ b c, φ b l s → φ c l t → φ (b || c) l r := by
      intro b c hs ht
      exact (foldl_merge (φ := fun b => φ b l) g.merged hφ.weaken hφ.congr hφ.merged _ hr hs ht).2
        (IndexSet.mem_toList.2 (IndexSet.mem_below.2 hi))
    refine ⟨join false false ihs.1 iht.1, fun htrace => ?_⟩
    rcases htrace with hP | hQ
    · exact join true false (ihs.2 hP) iht.1
    · exact join false true ihs.1 (iht.2 hQ)
  | @mark l P s relaxed _ ih =>
    have same : m.Alike d.side i s { s with relaxed } := .of_bits rfl
    exact ⟨hφ.congr same ih.1, fun h => hφ.congr same (ih.2 h)⟩

end Model
end DecisionDiagrams
