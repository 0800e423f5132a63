import DecisionDiagrams.Proofs.Solver.Excursions

/-! Properties of diagrams which every propagation keeps, however it ends. They hold of all diagrams of a
solver, in the present world and in those which checkpoints keep, after any operations and in the middle
of them: nothing is asked about failures, allowances or the order of the calls. -/

namespace DecisionDiagrams

/-- A property of diagrams which a diagram has at first, and which no propagation destroys. -/
structure Endures (I : Plan → Diagram → Prop) : Prop where
  initial : ∀ p, I p (Diagram.initial p.model)
  propagate : ∀ p d fuel lost t, I p d → I p (d.propagate p fuel lost t).diagram

namespace Solver

/-- The states of a solver between and within operations: before a new diagram is propagated, after
changes were told to the diagrams, and after each call of a diagram. -/
inductive Arises : Solver → Prop
  | start : Arises {}
  | perform {s} (o : Operation) : Arises s → Arises (s.perform o).2
  | enrol {s p} : Arises s → s.Admits p → Arises (s.enrol p)
  | announce {s} : Arises s → Arises s.announce
  | call {s fuel i rest} : Arises s → s.queue = i :: rest →
    Arises ((s.dequeue rest).callDiagram fuel i).2

/-- All diagrams, also those which checkpoints keep, have a property. -/
structure Everywhere (I : Plan → Diagram → Prop) (s : Solver) : Prop where
  paired : Paired s
  holds : ∀ i p, s.planAt i = some p → ∀ w, w = s.world ∨ w ∈ s.history.kept →
    ∀ d, w.diagrams[i]? = some d → I p d

namespace Everywhere

variable {I : Plan → Diagram → Prop} {s t : Solver} {i : Nat}

theorem congr (h : Everywhere I s) (kept : t.history.kept = s.history.kept)
    (diagrams : t.world.diagrams = s.world.diagrams) (size : t.entries.size = s.entries.size)
    (plan : ∀ i, t.planAt i = s.planAt i) : Everywhere I t := by
  refine ⟨h.paired.congr kept (by rw [diagrams]) size, fun i p hp w hw d hd => ?_⟩
  rw [plan] at hp
  rcases hw with rfl | hw
  · exact h.holds i p hp _ (Or.inl rfl) d (diagrams ▸ hd)
  · exact h.holds i p hp w (Or.inr (kept ▸ hw)) d hd

theorem announce (h : Everywhere I s) : Everywhere I s.announce :=
  h.congr (kept_announce s) (diagrams_announce s) (informs_announce s).size (informs_announce s).plan

theorem callDiagram (hI : Endures I) (h : Everywhere I s) (fuel i : Nat) :
    Everywhere I (s.callDiagram fuel i).2 := by
  cases hplan : s.planAt i with
  | none =>
    rw [callDiagram_of_unknown hplan fuel]
    exact h
  | some p =>
    obtain ⟨d, hd⟩ := diagram_of_planAt (h.paired _ (Or.inl rfl)) hplan
    obtain ⟨-, hc⟩ := called_callDiagram hplan hd fuel
    refine ⟨h.paired.callDiagram fuel i, fun j q hq w hw e he => ?_⟩
    rw [hc.plan] at hq
    rcases hw with rfl | hw
    · rw [hc.diagrams, Array.getElem?_setIfInBounds] at he
      split_ifs at he with ij
      · obtain rfl := ij
        obtain rfl := Option.some.inj (hplan.symm.trans hq)
        obtain rfl := Option.some.inj he
        exact hI.propagate _ _ _ _ _ (h.holds i _ hplan _ (Or.inl rfl) d hd)
      · exact h.holds j q hq _ (Or.inl rfl) e he
    · exact h.holds j q hq w (Or.inr (hc.kept ▸ hw)) e he

theorem call (hI : Endures I) (h : Everywhere I s) (fuel i : Nat) (rest : List Nat) :
    Everywhere I ((s.dequeue rest).callDiagram fuel i).2 :=
  callDiagram hI (h.congr (t := s.dequeue rest) rfl rfl rfl fun _ => rfl) fuel i

theorem propagate (hI : Endures I) (h : Everywhere I s) : Everywhere I s.propagate.2 := by
  unfold Solver.propagate propagateWithin
  split
  · exact h
  · have hd : Everywhere I (drain allowance allowance s.announce).2 :=
      drain_keeps (I := Everywhere I) allowance (fun _ => announce) (fun _ i rest hu _ => hu.call hI allowance i rest)
        allowance h.announce
    split <;> rename_i hu <;> rw [hu] at hd
    · exact hd
    · exact hd.congr rfl rfl rfl fun _ => rfl

theorem enrol (hI : Endures I) (h : Everywhere I s) {p : Plan} (admits : s.Admits p) :
    Everywhere I (s.enrol p) := by
  have hk : s.history.kept = [] := List.length_eq_zero_iff.1 admits.level
  refine ⟨h.paired.enrol admits.level p, fun j q hq w hw d hd => ?_⟩
  rcases hw with rfl | hw
  · change ((s.entries.push { plan := p })[j]?).map Entry.plan = some q at hq
    change (s.world.diagrams.push (Diagram.initial p.model))[j]? = some d at hd
    rw [Array.getElem?_push] at hq hd
    rw [h.paired _ (Or.inl rfl)] at hd
    split_ifs at hq hd with e
    · obtain rfl := Option.some.inj hq
      obtain rfl := Option.some.inj hd
      exact hI.initial _
    · exact h.holds j q hq _ (Or.inl rfl) d hd
  · change w ∈ s.history.kept at hw
    rw [hk] at hw
    cases hw

theorem addDiagram (hI : Endures I) (h : Everywhere I s) (p : Plan) :
    Everywhere I (s.addDiagram p).2 := by
  rcases addDiagram_cases s p with ⟨ha, e⟩ | ⟨e, -⟩
  · rw [e]
    exact propagate hI (h.enrol hI ha)
  · rw [e]
    exact h

theorem backtrack (h : Everywhere I s) {target : Nat} (back : s.backtrack? target = some t) :
    Everywhere I t := by
  unfold backtrack? at back
  split_ifs at back with lt
  obtain rfl := Option.some.inj back
  let good : World → Prop := fun w => w.diagrams.size = s.entries.size ∧
    ∀ i p, s.planAt i = some p → ∀ d, w.diagrams[i]? = some d → I p d
  obtain ⟨hcur, hkept⟩ := History.backtrack_forall₂ (R := fun w _ => good w)
    (List.forall₂_same.2 fun w hw => ⟨h.paired w (Or.inr hw), fun i p hp d hd =>
      h.holds i p hp w (Or.inr hw) d hd⟩) lt
  have plan : ∀ i, ((s.entries.map fun e => { e with lost := [] })[i]?).map Entry.plan = s.planAt i := by
    intro i
    rw [Array.getElem?_map, Option.map_map]
    rfl
  refine ⟨fun w hw => ?_, fun i p hp w hw d hd => ?_⟩
  · show w.diagrams.size = (s.entries.map _).size
    rw [Array.size_map]
    rcases hw with rfl | hw
    · exact hcur.1
    · exact ((List.forall₂_same.1 hkept) w hw).1
  · change ((s.entries.map fun e => { e with lost := [] })[i]?).map Entry.plan = some p at hp
    rw [plan] at hp
    rcases hw with rfl | hw
    · exact hcur.2 i p hp d hd
    · exact ((List.forall₂_same.1 hkept) w hw).2 i p hp d hd

theorem setDomains (h : Everywhere I s) (d : Domains) : Everywhere I (s.setDomains d) :=
  h.congr rfl rfl rfl fun _ => rfl

theorem openCheckpoint (h : Everywhere I s) : Everywhere I s.openCheckpoint := by
  refine ⟨h.paired.openCheckpoint, fun i p hp w hw d hd => ?_⟩
  rcases hw with rfl | hw
  · exact h.holds i p hp _ (Or.inl rfl) d hd
  · exact h.holds i p hp w ((List.mem_cons.1 hw).imp_left id) d hd

theorem perform (hI : Endures I) (h : Everywhere I s) (o : Operation) :
    Everywhere I (s.perform o).2 :=
  perform_keeps (I := Everywhere I) (fun _ p hu => hu.addDiagram hI p) (fun _ D hu => hu.setDomains D)
    (fun _ hu => hu.propagate hI) (fun _ hu => hu.openCheckpoint) (fun _ _ _ hu back => hu.backtrack back) h o

end Everywhere

theorem Arises.everywhere {I : Plan → Diagram → Prop} {s : Solver} (hI : Endures I) (h : Arises s) :
    Everywhere I s := by
  induction h with
  | start =>
    refine ⟨?_, fun i p hp => ?_⟩
    · rintro w (rfl | hw)
      · rfl
      · cases hw
    · cases hp
  | perform o _ ih => exact ih.perform hI o
  | enrol _ admits ih => exact ih.enrol hI admits
  | announce _ ih => exact ih.announce
  | @call s fuel i rest _ _ ih => exact ih.call hI fuel i rest

/-- The states which operations lead to arise. -/
theorem Arises.performAll {s : Solver} (h : Arises s) (os : List Operation) :
    Arises (s.performAll os) := by
  induction os generalizing s with
  | nil => exact h
  | cons o os ih => exact ih (h.perform o)

end Solver
end DecisionDiagrams
