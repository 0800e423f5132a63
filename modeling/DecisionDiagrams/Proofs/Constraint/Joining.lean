import DecisionDiagrams.Proofs.Spec.Joins
import DecisionDiagrams.Proofs.Constraint.Scopes

/-! Registering constraints whose properties join the labels of bundles. -/

namespace DecisionDiagrams

namespace IntSet

variable {s : IntSet} {v : Int} {f : Int → Bool}

@[simp] theorem all_singleton : (singleton v).all f = f v := by simp [all, singleton]

@[simp] theorem any_singleton : (singleton v).any f = f v := by simp [any, singleton]

@[simp] theorem contains_singleton {u : Int} : (singleton v).contains u = (u == v) := by
  rw [Bool.eq_iff_iff, contains_iff, mem_singleton, beq_iff_eq]

/-- Whether all elements pass a test can be seen from one of them, and whether some does. -/
theorem exists_eq_all (h : ∃ v, v ∈ s) : ∃ u ∈ s, s.all f = f u := by
  obtain ⟨v, hv⟩ := h
  cases hall : s.all f with
  | true => exact ⟨v, hv, (List.all_eq_true.1 hall v hv).symm⟩
  | false =>
    obtain ⟨u, hu, hf⟩ := List.all_eq_false.1 hall
    exact ⟨u, hu, (Bool.eq_false_iff.2 hf).symm⟩

theorem exists_eq_any (h : ∃ v, v ∈ s) : ∃ u ∈ s, s.any f = f u := by
  obtain ⟨v, hv⟩ := h
  cases hany : s.any f with
  | true =>
    obtain ⟨u, hu, hf⟩ := List.any_eq_true.1 hany
    exact ⟨u, hu, hf.symm⟩
  | false => exact ⟨v, hv, (Bool.eq_false_iff.2 (List.any_eq_false.1 hany v hv)).symm⟩

theorem exists_ne (hv : v ∈ s) (h : s.toList ≠ [v]) : ∃ u ∈ s, u ≠ v := by
  by_contra hno
  have hall : ∀ u ∈ s.toList, u = v := fun u hu => by
    by_contra hne
    exact hno ⟨u, hu, hne⟩
  have hp := s.increasing
  cases hl : s.toList with
  | nil =>
    rw [mem_def, hl] at hv
    cases hv
  | cons a r =>
    rw [hl] at hall hp
    obtain rfl := hall a List.mem_cons_self
    cases r with
    | nil => exact h hl
    | cons b r =>
      obtain rfl := hall b (List.mem_cons_of_mem _ List.mem_cons_self)
      exact Int.lt_irrefl _ ((List.pairwise_cons.1 hp).1 _ List.mem_cons_self)

/-- All elements pass a test only if each one does. -/
theorem below_all (hv : v ∈ s) : Relaxation.minimum.Below (if (singleton v).all f then 1 else 0)
    (if s.all f then 1 else 0) := by
  rw [all_singleton]
  cases hall : s.all f with
  | true => rw [List.all_eq_true.1 hall v hv]; exact Int.le_refl 1
  | false => cases f v <;> simp [Relaxation.Below]

/-- Some element passes a test as soon as one does. -/
theorem below_any (hv : v ∈ s) : Relaxation.maximum.Below (if (singleton v).any f then 1 else 0)
    (if s.any f then 1 else 0) := by
  rw [any_singleton]
  cases hany : s.any f with
  | false => rw [Bool.eq_false_iff.2 (List.any_eq_false.1 hany v hv)]; exact Int.le_refl 0
  | true => cases f v <;> simp [Relaxation.Below]

end IntSet

namespace Spec

variable {D : Var → Int → Prop} {s u : Spec} {c : ScopeId} {vars : List Var} {down up : List Property}
  {checks : List (ArcFacts → Checked Bool)}

/-- What is registered one after the other keeps what each step keeps. -/
theorem forM_keeps {α : Type} {f : α → StateM Spec Unit} {I : Spec → Prop} (as : List α)
    (step : ∀ a ∈ as, ∀ s, I s → I (f a s).2) : ∀ {s}, I s → I (as.forM f s).2 := by
  induction as with
  | nil => exact id
  | cons a as ih =>
    exact fun hs => ih (fun b hb => step b (List.mem_cons_of_mem _ hb)) (step a List.mem_cons_self _ hs)

theorem forM_append {α : Type} {f : α → StateM Spec Unit} : ∀ (as bs : List α) (s : Spec),
    ((as ++ bs).forM f s).2 = (bs.forM f (as.forM f s).2).2
  | [], _, _ => rfl
  | a :: as, bs, s => forM_append as bs (f a s).2

theorem joined_empty (D : Var → Int → Prop) : Joined D {} := by
  refine ⟨fun d {i q} hq => ?_⟩
  cases d <;> cases hq

theorem Joined.addScope (h : s.Joined D) (name : String) (vars : List Var) :
    (Spec.addScope name vars s).2.Joined D := by
  refine ⟨fun d {i q} hq => ?_⟩
  obtain ⟨name', vars', hscope, hj⟩ := h.property d hq
  exact ⟨name', vars', (grows_addScope name vars s).getElem? hscope, hj⟩

/-- Properties which join the labels of the variables of a scope. -/
theorem Joined.appends (h : s.Joined D) (g : Appends c s u down up checks) (hs : s.Scoped c vars)
    (hdown : ∀ k (q : Property), down[k]? = some q → q.constraint = c ∧
      q.Joins (s.properties.down.size + k) fun x v => x ∈ vars ∧ D x v)
    (hup : ∀ k (q : Property), up[k]? = some q → q.constraint = c ∧
      q.Joins (s.properties.up.size + k) fun x v => x ∈ vars ∧ D x v) : u.Joined D := by
  obtain ⟨name, hname⟩ := hs
  have split : ∀ {old new : Array Property} {more : List Property}, new.toList = old.toList ++ more →
      (∀ {i} {q : Property}, old[i]? = some q → ∃ name vars,
        s.scopes[q.constraint]? = some ⟨name, vars⟩ ∧ q.Joins i fun x v => x ∈ vars ∧ D x v) →
      (∀ k (q : Property), more[k]? = some q → q.constraint = c ∧
        q.Joins (old.size + k) fun x v => x ∈ vars ∧ D x v) →
      ∀ {i} {q : Property}, new[i]? = some q → ∃ name vars,
        s.scopes[q.constraint]? = some ⟨name, vars⟩ ∧ q.Joins i fun x v => x ∈ vars ∧ D x v := by
    intro old new more e hold hmore i q hq
    rw [← Array.getElem?_toList, e, List.getElem?_append] at hq
    split_ifs at hq with hi
    · exact hold (by rwa [← Array.getElem?_toList])
    · rw [Array.length_toList] at hi hq
      obtain ⟨rfl, hj⟩ := hmore _ q hq
      rw [show old.size + (i - old.size) = i by omega] at hj
      exact ⟨name, vars, hname, hj⟩
  refine ⟨fun d {i q} hq => ?_⟩
  rw [g.scopes]
  cases d with
  | down => exact split g.down (h.property .down) hdown hq
  | up => exact split g.up (h.property .up) hup hq

end Spec
end DecisionDiagrams
