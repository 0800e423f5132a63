import DecisionDiagrams.Proofs.Store.Sets
import DecisionDiagrams.Proofs.Store.Undoing

/-! What restricting a stored domain does to the set it stands for. Each of the four operations looks at the
bounds, the size and the membership in its own way to find out whether anything is lost, and whether anything
is left. -/

namespace DecisionDiagrams

namespace Store

variable {s : Store} {x : Var} {D : Finset ℤ} {v bound : ℤ}

/-- What is told, and what is done, when `L` is left of the set `D`. -/
inductive Leaves (s : Store) (x : Var) (D : Finset ℤ) : Finset ℤ → Option Bool × Store → Prop
  | nothing : Leaves s x D ∅ (none, s)
  | all : D.Nonempty → Leaves s x D D (some false, s)
  | less {vs : List ℤ} : vs ≠ [] → vs.Nodup → (∀ v ∈ vs, v ∈ D) → (D \ vs.toFinset).Nonempty →
      Leaves s x D (D \ vs.toFinset) (some true, s.discard x vs)

theorem Leaves.less_of_eq {vs : List ℤ} {L : Finset ℤ} (hL : D \ vs.toFinset = L) (hne : vs ≠ [])
    (hnodup : vs.Nodup) (hvs : ∀ v ∈ vs, v ∈ D) (hleft : L.Nonempty) :
    Leaves s x D L (some true, s.discard x vs) := by
  subst hL
  exact .less hne hnodup hvs hleft

theorem leaves_remove (h : (s.bitmap x).Represents D) : Leaves s x D (D \ {v}) (s.remove x v) := by
  unfold remove
  by_cases hv : v ∈ D
  · rw [if_neg (by simp [h.contains.2 hv])]
    split_ifs with hsize
    · obtain ⟨u, rfl⟩ := Finset.card_eq_one.1 (h.size.symm.trans hsize)
      rw [Finset.mem_singleton.1 hv, Finset.sdiff_self]
      exact .nothing
    · refine .less_of_eq (by simp) (List.cons_ne_nil _ _) (List.nodup_singleton v) (by simpa using hv) ?_
      rw [← Finset.card_pos, Finset.sdiff_singleton_eq_erase, Finset.card_erase_of_mem hv, ← h.size]
      have := Finset.card_pos.2 ⟨v, hv⟩
      have := h.size
      omega
  · rw [if_pos (by simpa using mt h.contains.1 hv), Finset.sdiff_singleton_eq_erase, Finset.erase_eq_of_notMem hv]
    exact .all ⟨_, h.lower⟩

theorem leaves_assign (h : (s.bitmap x).Represents D) : Leaves s x D (D ∩ {v}) (s.assign x v) := by
  unfold assign
  by_cases hv : v ∈ D
  · rw [if_neg (by simp [h.contains.2 hv])]
    split_ifs with hsize
    · obtain ⟨u, rfl⟩ := Finset.card_eq_one.1 (h.size.symm.trans hsize)
      rw [Finset.mem_singleton.1 hv, Finset.inter_self]
      exact .all ⟨u, Finset.mem_singleton_self u⟩
    · have hmem : ∀ u, u ∈ (s.bitmap x).values.filter (· ≠ v) ↔ u ∈ D ∧ u ≠ v := fun u => by
        rw [h.values, List.mem_filter, Finset.mem_sort, decide_eq_true_eq]
      obtain ⟨u, hu, huv⟩ : ∃ u ∈ D, u ≠ v := by
        refine Finset.exists_mem_ne ?_ v
        have := Finset.card_pos.2 ⟨v, hv⟩
        have := h.size
        omega
      refine .less_of_eq ?_ (List.ne_nil_of_mem ((hmem u).2 ⟨hu, huv⟩)) ?_ (fun u hu => ((hmem u).1 hu).1)
        ⟨v, Finset.mem_inter.2 ⟨hv, Finset.mem_singleton_self v⟩⟩
      · ext u
        rw [Finset.mem_sdiff, List.mem_toFinset, hmem, Finset.mem_inter, Finset.mem_singleton]
        tauto
      · rw [h.values]
        exact (Finset.sort_nodup _ _).filter _
  · rw [if_pos (by simpa using mt h.contains.1 hv), Finset.inter_singleton_of_notMem hv]
    exact .nothing

section Bounds

variable {p : ℤ → Prop} [DecidablePred p] {kept lost : IntSet}

/-- Nothing is left if none of the values to keep is in the domain. -/
theorem all_not_contains_iff (h : (s.bitmap x).Represents D) (hkept : ∀ u ∈ D, u ∈ kept ↔ p u) :
    (kept.toList.all fun v => !(s.bitmap x).contains v) = true ↔ D.filter p = ∅ := by
  rw [List.all_eq_true, Finset.filter_eq_empty_iff]
  constructor
  · intro hall u hu hp
    have := hall u ((hkept u hu).2 hp)
    rw [h.contains.2 hu] at this
    cases this
  · intro hnone u hu
    rw [Bool.not_eq_true', ← Bool.not_eq_true, h.contains]
    exact fun hD => hnone hD ((hkept u hD).1 hu)

theorem leaves_filter (h : (s.bitmap x).Represents D) (hlost : ∀ u ∈ D, u ∈ lost ↔ ¬ p u) (hsome : ∃ u ∈ D, ¬ p u)
    (hleft : D.filter p ≠ ∅) :
    Leaves s x D (D.filter p) (some true, s.discard x (lost.toList.filter (s.bitmap x).contains)) := by
  have hmem : ∀ u, u ∈ lost.toList.filter (s.bitmap x).contains ↔ u ∈ D ∧ ¬ p u := fun u => by
    rw [List.mem_filter, h.contains]
    exact ⟨fun hu => ⟨hu.2, (hlost u hu.2).1 hu.1⟩, fun hu => ⟨(hlost u hu.1).2 hu.2, hu.1⟩⟩
  obtain ⟨u, hu⟩ := hsome
  refine .less_of_eq ?_ (List.ne_nil_of_mem ((hmem u).2 hu)) (lost.increasing.nodup.filter _)
    (fun u hu => ((hmem u).1 hu).1) (Finset.nonempty_iff_ne_empty.2 hleft)
  ext u
  rw [Finset.mem_sdiff, List.mem_toFinset, hmem, Finset.mem_filter]
  tauto

end Bounds

theorem leaves_raiseLower (h : (s.bitmap x).Represents D) :
    Leaves s x D (D.filter (bound ≤ ·)) (s.raiseLower x bound) := by
  have hkept : ∀ u ∈ D, u ∈ IntSet.range bound (s.bitmap x).upper ↔ bound ≤ u := fun u hu => by
    rw [IntSet.mem_range]
    exact and_iff_left (h.within u hu).2
  have hlost : ∀ u ∈ D, u ∈ IntSet.range (s.bitmap x).lower (bound - 1) ↔ ¬ bound ≤ u := fun u hu => by
    have := (h.within u hu).1
    rw [IntSet.mem_range]
    omega
  unfold raiseLower
  dsimp only
  split_ifs with hlow hnone
  · rw [Finset.filter_true_of_mem fun v hv => hlow.trans (h.within v hv).1]
    exact .all ⟨_, h.lower⟩
  · have hempty : D.filter (bound ≤ ·) = ∅ := by
      rcases Bool.or_eq_true_iff.1 hnone with hgap | hnone
      · exact Finset.filter_false_of_mem fun v hv hb =>
          absurd (hb.trans (h.within v hv).2) (not_le.2 (of_decide_eq_true hgap))
      · exact (all_not_contains_iff h hkept).1 hnone
    rw [hempty]
    exact .nothing
  · refine leaves_filter h hlost ⟨_, h.lower, hlow⟩ fun hempty => hnone ?_
    exact Bool.or_eq_true_iff.2 (.inr ((all_not_contains_iff h hkept).2 hempty))

theorem leaves_cutUpper (h : (s.bitmap x).Represents D) :
    Leaves s x D (D.filter (· ≤ bound)) (s.cutUpper x bound) := by
  have hkept : ∀ u ∈ D, u ∈ IntSet.range (s.bitmap x).lower bound ↔ u ≤ bound := fun u hu => by
    rw [IntSet.mem_range]
    exact and_iff_right (h.within u hu).1
  have hlost : ∀ u ∈ D, u ∈ IntSet.range (bound + 1) (s.bitmap x).upper ↔ ¬ u ≤ bound := fun u hu => by
    have := (h.within u hu).2
    rw [IntSet.mem_range]
    omega
  unfold cutUpper
  dsimp only
  split_ifs with hup hnone
  · rw [Finset.filter_true_of_mem fun v hv => (h.within v hv).2.trans hup]
    exact .all ⟨_, h.lower⟩
  · have hempty : D.filter (· ≤ bound) = ∅ := by
      rcases Bool.or_eq_true_iff.1 hnone with hgap | hnone
      · exact Finset.filter_false_of_mem fun v hv hb =>
          absurd ((h.within v hv).1.trans hb) (not_le.2 (of_decide_eq_true hgap))
      · exact (all_not_contains_iff h hkept).1 hnone
    rw [hempty]
    exact .nothing
  · refine leaves_filter h hlost ⟨_, h.upper, hup⟩ fun hempty => hnone ?_
    exact Bool.or_eq_true_iff.2 (.inr ((all_not_contains_iff h hkept).2 hempty))

theorem leaves_onStore (r : Restriction) (h : (s.bitmap x).Represents D) :
    Leaves s x D (r.left D) (r.onStore s x) := by
  cases r with
  | remove v => exact leaves_remove h
  | raiseLower bound => exact leaves_raiseLower h
  | cutUpper bound => exact leaves_cutUpper h
  | assign v => exact leaves_assign h

end Store
end DecisionDiagrams
