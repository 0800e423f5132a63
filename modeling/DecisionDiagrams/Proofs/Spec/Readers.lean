import DecisionDiagrams.Proofs.Sets.Elements
import DecisionDiagrams.Proofs.Spec.Compiled

/-! Which properties have to be computed again behind a node after some of its properties changed: those
which keep a changed value, and those whose transition reads a changed property. -/

namespace DecisionDiagrams

namespace IndexSet

/-- What is in a set which a loop over a list adds to. -/
theorem mem_foldl_iff {f : IndexSet → Nat → IndexSet} {j : Nat} {P : Nat → Prop}
    (h : ∀ acc i, j ∈ f acc i ↔ j ∈ acc ∨ P i) : ∀ (is : List Nat) {acc : IndexSet},
    j ∈ is.foldl f acc ↔ j ∈ acc ∨ ∃ i ∈ is, P i
  | [], acc => by simp
  | i :: is, acc => by
    rw [List.foldl_cons, mem_foldl_iff h is, h, or_assoc, List.exists_mem_cons_iff]

end IndexSet

namespace Model

variable {m : Model} {d : Direction} {l j : Nat} {changed combinedChanges : IndexSet}

/-- The properties which are computed again after a change. -/
theorem mem_dependents_iff : j ∈ m.dependents d l changed combinedChanges ↔
    (∃ i ∈ changed, i = j ∧ j ∉ m.active d l ∨ j ∈ m.readers d.side i d.side ∧ j ∈ m.active d l) ∨
    ∃ i ∈ combinedChanges, j ∈ m.readers .combined i d.side ∧ j ∈ m.active d l := by
  unfold dependents
  dsimp only
  rw [IndexSet.mem_foldl_iff (P := fun i => j ∈ m.readers .combined i d.side ∧ j ∈ m.active d l)
    fun acc i => by rw [IndexSet.mem_union, IndexSet.mem_inter]]
  rw [IndexSet.mem_foldl_iff (P := fun i => i = j ∧ j ∉ m.active d l ∨
    j ∈ m.readers d.side i d.side ∧ j ∈ m.active d l) fun acc i => ?_]
  · simp only [IndexSet.not_mem_empty, false_or, IndexSet.mem_toList]
  · rw [IndexSet.mem_union, IndexSet.mem_inter, ← or_assoc]
    refine or_congr_left ?_
    split_ifs with hi
    · refine ⟨Or.inl, fun h => h.elim id fun hn => absurd hi (hn.1 ▸ hn.2)⟩
    · rw [IndexSet.mem_insert, or_comm]
      refine or_congr_right ⟨fun e => ⟨e.symm, e ▸ hi⟩, fun h => h.1.symm⟩

/-- Whether no transition reads a combined property. -/
def ReadsNoCombined (m : Model) : Prop :=
  ∀ d l combinedChanges, (m.dependents d l .empty combinedChanges).isEmpty = true

/-- Whether every transition reads its own property. -/
def ReadsOwn (m : Model) : Prop := ∀ d l i, i ∈ m.active d l → i ∈ m.readers d.side i d.side

end Model

namespace Spec

variable {t : Spec} {d : Direction} {side reader : Side} {r : PropertyRef} {i j l : Nat}

theorem mem_readersOf : j ∈ t.readersOf r reader ↔ ∃ q, (t.properties.get reader)[j]? = some q ∧
    (q.rule.isTransition = true ∧ r = ⟨reader, j⟩ ∨ r ∈ q.rule.reads) := by
  unfold readersOf
  dsimp only
  rw [IndexSet.mem_foldl_iff (P := fun i => i = j ∧ ∃ q, (t.properties.get reader)[i]? = some q ∧
    (q.rule.isTransition = true ∧ r = ⟨reader, i⟩ ∨ r ∈ q.rule.reads)) fun acc i => ?_]
  · rw [or_iff_right IndexSet.not_mem_empty]
    refine ⟨fun ⟨i, _, e, h⟩ => e ▸ h, fun h => ⟨j, List.mem_range.2 ?_, rfl, h⟩⟩
    exact (Array.getElem?_eq_some_iff.1 h.choose_spec.1).1
  · cases hq : (t.properties.get reader)[i]? with
    | none => simp
    | some q =>
      dsimp only
      split_ifs with hr
      · have hr' : q.rule.isTransition = true ∧ r = ⟨reader, i⟩ ∨ r ∈ q.rule.reads := by
          simpa using hr
        rw [IndexSet.mem_insert, or_comm]
        refine or_congr_right ⟨fun e => ⟨e.symm, q, rfl, hr'⟩, fun h => h.1.symm⟩
      · refine ⟨Or.inl, fun h => h.elim id fun ⟨_, q', e, h'⟩ => ?_⟩
        obtain rfl := Option.some.inj e
        exact absurd (by simpa using h') hr

theorem mem_readers : j ∈ t.toModel.readers side i reader ↔
    i < (t.properties.get side).size ∧ j ∈ t.readersOf ⟨side, i⟩ reader := by
  have e : t.toModel.readBy.get side = t.readByOf side := by cases side <;> rfl
  unfold Model.readers
  rw [e]
  unfold readByOf
  by_cases hi : i < (t.properties.get side).size
  · rw [Array.getElem?_map, show (Array.range (t.properties.get side).size)[i]? = some i by simp [hi],
      and_iff_right hi]
    cases reader <;> rfl
  · rw [Array.getElem?_eq_none (by simpa using hi)]
    simp [hi]

theorem active_eq_empty (hl : t.branchVars.size ≤ l) : t.toModel.active d l = .empty := by
  have e : t.toModel.rules l = {} := by
    unfold Model.rules toModel
    simp [Array.getD_eq_getD_getElem?, Nat.not_lt.2 hl]
  unfold Model.active
  rw [e]
  cases d <;> rfl

theorem lt_of_mem_active (hi : i ∈ t.toModel.active d l) : l < t.branchVars.size := by
  by_contra hl
  rw [active_eq_empty (Nat.not_lt.1 hl)] at hi
  exact IndexSet.not_mem_empty hi

/-- Every transition is told of changes of its own property. -/
theorem readsOwn (t : Spec) : t.toModel.ReadsOwn := by
  intro d l i hact
  obtain ⟨q, hq, htrans, -⟩ := (mem_active (lt_of_mem_active hact)).1 hact
  exact mem_readers.2 ⟨(Array.getElem?_eq_some_iff.1 hq).1,
    mem_readersOf.2 ⟨q, hq, Or.inl ⟨htrans, rfl⟩⟩⟩

/-- Transitions which do not declare to read combined properties are not started by a change of them. -/
theorem readsNoCombined (h : ∀ side, ∀ q ∈ (t.properties.get side).toList, q.rule.isTransition = true →
    ∀ r ∈ q.rule.reads, r.side ≠ .combined) : t.toModel.ReadsNoCombined := by
  intro d l combinedChanges
  rw [IndexSet.isEmpty_iff]
  intro j hj
  rcases Model.mem_dependents_iff.1 hj with ⟨i, hi, -⟩ | ⟨i, hi, hread, hact⟩
  · exact IndexSet.not_mem_empty hi
  · obtain ⟨q, hq, htrans, -⟩ := (mem_active (lt_of_mem_active hact)).1 hact
    obtain ⟨q', hq', hr⟩ := mem_readersOf.1 (mem_readers.1 hread).2
    obtain rfl := Option.some.inj (hq.symm.trans hq')
    rcases hr with ⟨-, e⟩ | hr
    · cases d <;> cases congrArg PropertyRef.side e
    · exact h d.side q (Array.mem_toList_iff.2 (Array.mem_of_getElem? hq)) htrans _ hr rfl

end Spec
end DecisionDiagrams
