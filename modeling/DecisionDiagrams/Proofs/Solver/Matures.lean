import DecisionDiagrams.Proofs.Solver.Everywhere
import DecisionDiagrams.Proofs.Solver.Obeys

/-! Properties which a diagram has as soon as it was propagated once, and which no later propagation destroys,
however it ends. Only a first propagation which stops can leave a diagram without the property. But diagrams are
added while no checkpoint is open, so the solver then found a failure at the root, and nothing is propagated any
more: all diagrams of a solver which did not fail at the root have the property. -/

namespace DecisionDiagrams

/-- A property of diagrams which a first propagation brings about if it succeeds, and which no propagation
destroys. -/
structure Matures (I : Plan → Diagram → Prop) : Prop where
  first : ∀ p fuel lost t, ((Diagram.initial p.model).propagate p fuel lost t).stop = none →
    I p ((Diagram.initial p.model).propagate p fuel lost t).diagram
  propagate : ∀ p d fuel lost t, I p d → I p (d.propagate p fuel lost t).diagram

namespace Solver

/-- In the middle of a propagation all diagrams have a property, but those which wait to be built. -/
structure Maturing (I : Plan → Diagram → Prop) (s : Solver) : Prop where
  paired : Paired s
  kept : ∀ i p, s.planAt i = some p → ∀ w ∈ s.history.kept, ∀ d, w.diagrams[i]? = some d → I p d
  current : ∀ i p, s.planAt i = some p → ∀ d, s.world.diagrams[i]? = some d →
    I p d ∨ s.level = 0 ∧ d = Diagram.initial p.model ∧ i ∈ s.queue

variable {I : Plan → Diagram → Prop} {s t : Solver} {i : Nat}

theorem Everywhere.maturing (h : Everywhere I s) : Maturing I s :=
  ⟨h.paired, fun i p hp w hw => h.holds i p hp w (Or.inr hw),
    fun i p hp d hd => Or.inl (h.holds i p hp _ (Or.inl rfl) d hd)⟩

namespace Maturing

theorem everywhere (h : Maturing I s) (hq : s.queue = [] ∨ s.level ≠ 0) : Everywhere I s := by
  refine ⟨h.paired, fun i p hp w hw d hd => ?_⟩
  rcases hw with rfl | hw
  · refine (h.current i p hp d hd).resolve_right fun ⟨root, _, waits⟩ => ?_
    rcases hq with none | above
    · rw [none] at waits
      cases waits
    · exact above root
  · exact h.kept i p hp w hw d hd

theorem announce (h : Maturing I s) : Maturing I s.announce := by
  have hi := informs_announce s
  refine ⟨h.paired.announce, fun i p hp w hw => h.kept i p (hi.plan i ▸ hp) w (kept_announce s ▸ hw),
    fun i p hp d hd => ?_⟩
  rw [hi.plan] at hp
  rw [diagrams_announce] at hd
  exact (h.current i p hp d hd).imp_right fun ⟨root, e, waits⟩ =>
    ⟨(level_announce s).trans root, e, hi.queue i waits⟩

/-- Unless the call of a diagram fails while no checkpoint is open, the diagram has the property afterwards. -/
theorem call (hI : Matures I) (h : Maturing I s) {fuel : Nat} {rest : List Nat} (hq : s.queue = i :: rest)
    {r : Option Failure} (hc : (s.dequeue rest).callDiagram fuel i = (r, t)) (fine : r = none ∨ t.level ≠ 0) :
    Maturing I t ∧ ∀ p d, t.planAt i = some p → t.world.diagrams[i]? = some d → I p d := by
  cases hplan : s.planAt i with
  | none =>
    rw [callDiagram_of_unknown (s := s.dequeue rest) hplan] at hc
    obtain ⟨-, rfl⟩ := Prod.mk.inj hc
    refine ⟨⟨h.paired.congr rfl rfl rfl, h.kept, fun j p hp d hd => ?_⟩, fun p d hp _ => ?_⟩
    · refine (h.current j p hp d hd).imp_right fun ⟨root, e, waits⟩ => ⟨root, e, ?_⟩
      refine (List.mem_cons.1 (hq ▸ waits)).resolve_left ?_
      rintro rfl
      cases hplan.symm.trans hp
    · cases hplan.symm.trans hp
  | some p =>
    obtain ⟨d, hd⟩ := diagram_of_planAt (h.paired _ (Or.inl rfl)) hplan
    obtain ⟨hstop, called⟩ := called_callDiagram (s := s.dequeue rest) hplan hd fuel
    rw [hc] at hstop called
    have level : t.level = s.level := congrArg List.length called.kept
    have new : I p (d.propagate p fuel (s.lostAt i) s.domains).diagram := by
      rcases h.current i p hplan d hd with has | ⟨root, rfl, -⟩
      · exact hI.propagate _ _ _ _ _ has
      · refine hI.first _ _ _ _ (Option.map_eq_none_iff.1 (hstop.symm.trans ?_))
        exact fine.resolve_right fun above => above (level.trans root)
    have at_i : ∀ e, t.world.diagrams[i]? = some e → I p e := fun e he => by
      have hi : i < (s.dequeue rest).world.diagrams.size := (Array.getElem?_eq_some_iff.1 hd).1
      rw [called.diagrams, Array.getElem?_setIfInBounds_self_of_lt hi] at he
      exact Option.some.inj he ▸ new
    have paired : Paired t := by
      have := (h.paired.congr (t := s.dequeue rest) rfl rfl rfl).callDiagram fuel i
      rwa [hc] at this
    refine ⟨⟨paired, fun j q hq' w hw => ?_, fun j q hq' e he => ?_⟩, fun q e hq' he => ?_⟩
    · exact h.kept j q ((called.plan j).symm.trans hq') w (called.kept ▸ hw)
    · have hq' := (called.plan j).symm.trans hq'
      by_cases ij : i = j
      · subst ij
        obtain rfl := Option.some.inj (hplan.symm.trans hq')
        exact Or.inl (at_i e he)
      · rw [called.diagrams, Array.getElem?_setIfInBounds_ne ij] at he
        refine (h.current j q hq' e he).imp_right fun ⟨root, initial, waits⟩ => ⟨level.trans root, initial, ?_⟩
        rw [called.queue]
        exact (List.mem_cons.1 (hq ▸ waits)).resolve_left (Ne.symm ij)
    · obtain rfl := Option.some.inj (hplan.symm.trans ((called.plan i).symm.trans hq'))
      exact at_i e he

theorem rounds (hI : Matures I) (h : Maturing I s) {fuel : Nat} (hr : Rounds fuel s t) : Maturing I t := by
  induction hr with
  | refl => exact h
  | tail _ last ih =>
    obtain ⟨i, rest, u, hq, hc, rfl⟩ := last
    exact (ih.call hI hq hc (Or.inl rfl)).1.announce

theorem drain (hI : Matures I) (fuel : Nat) : ∀ (steps : Nat) {s t : Solver} {r : Option Failure},
    Maturing I s → Solver.drain fuel steps s = (r, t) → r = none ∨ t.level ≠ 0 → Everywhere I t
  | 0, s, t, r, h, hd, fine => by
    obtain ⟨rfl, rfl⟩ := Prod.mk.inj hd
    exact h.everywhere (fine.imp_left nofun)
  | steps + 1, s, t, r, h, hd, fine => by
    unfold Solver.drain at hd
    split at hd
    · rename_i hq
      obtain ⟨rfl, rfl⟩ := Prod.mk.inj hd
      exact h.everywhere (Or.inl hq)
    · rename_i i rest hq
      split at hd
      · rename_i u hu
        exact Maturing.drain hI fuel steps (h.call hI hq hu (Or.inl rfl)).1.announce hd fine
      · rename_i failed
        have above := fine.resolve_left fun e => failed t (hd.trans (by rw [e]))
        exact (h.call hI hq hd fine).1.everywhere (Or.inr above)

/-- A propagation which fails while no checkpoint is open is remembered as a failure at the root. -/
theorem propagate (hI : Matures I) (h : Maturing I s) (alive : s.rootFailure = none)
    (still : s.propagate.2.rootFailure = none) : Everywhere I s.propagate.2 := by
  unfold Solver.propagate propagateWithin at still ⊢
  rw [alive] at still ⊢
  dsimp only at still ⊢
  split at still
  · rename_i u hd
    exact h.announce.drain hI allowance allowance hd (Or.inl rfl)
  · rename_i f u hd
    have above : u.level ≠ 0 := fun root => by
      change (if u.level = 0 then some f else none) = none at still
      rw [if_pos root] at still
      cases still
    exact (h.announce.drain hI allowance allowance hd (Or.inr above)).congr rfl rfl rfl fun _ => rfl

theorem enrol (h : Everywhere I s) {p : Plan} (admits : s.Admits p) : Maturing I (s.enrol p) := by
  have none_kept : s.history.kept = [] := List.length_eq_zero_iff.1 admits.level
  refine ⟨h.paired.enrol admits.level p, fun j q _ w hw => ?_, fun j q hq d hd => ?_⟩
  · change w ∈ s.history.kept at hw
    rw [none_kept] at hw
    cases hw
  · change ((s.entries.push { plan := p })[j]?).map Entry.plan = some q at hq
    change (s.world.diagrams.push (Diagram.initial p.model))[j]? = some d at hd
    rw [Array.getElem?_push] at hq hd
    rw [h.paired _ (Or.inl rfl)] at hd
    split_ifs at hq hd with e
    · obtain rfl := Option.some.inj hq
      obtain rfl := Option.some.inj hd
      exact Or.inr ⟨admits.level, rfl, mem_queue_lineUp.2 (Or.inl e)⟩
    · exact Or.inl (h.holds j q hq _ (Or.inl rfl) d hd)

end Maturing

/-- All diagrams have the property, unless the solver failed at the root. -/
def Mature (I : Plan → Diagram → Prop) (s : Solver) : Prop := s.rootFailure = none → Everywhere I s

namespace Mature

theorem propagate (hI : Matures I) (h : Mature I s) : Mature I s.propagate.2 := by
  intro still
  cases alive : s.rootFailure with
  | none => exact (h alive).maturing.propagate hI alive still
  | some f =>
    have same : s.propagate = (some f, s) := by
      unfold Solver.propagate propagateWithin
      rw [alive]
    rw [same] at still
    cases still.symm.trans alive

theorem addDiagram (hI : Matures I) (h : Mature I s) (p : Plan) : Mature I (s.addDiagram p).2 := by
  rcases addDiagram_cases s p with ⟨admits, e⟩ | ⟨e, -⟩
  · rw [e]
    exact (Maturing.enrol (h admits.rootFailure) admits).propagate hI admits.rootFailure
  · rw [e]
    exact h

theorem backtrack (h : Mature I s) {target : Nat} (back : s.backtrack? target = some t) : Mature I t := by
  have same : t.rootFailure = s.rootFailure := by
    unfold backtrack? at back
    split_ifs at back
    obtain rfl := Option.some.inj back
    rfl
  exact fun still => (h (same.symm.trans still)).backtrack back

theorem perform (hI : Matures I) (h : Mature I s) (o : Operation) : Mature I (s.perform o).2 :=
  perform_keeps (I := Mature I) (fun _ p hu => hu.addDiagram hI p) (fun _ D hu alive => (hu alive).setDomains D)
    (fun _ hu => hu.propagate hI) (fun _ hu alive => (hu alive).openCheckpoint)
    (fun _ _ _ hu back => hu.backtrack back) h o

theorem performAll (hI : Matures I) : ∀ (os : List Operation) {s : Solver}, Mature I s → Mature I (s.performAll os)
  | [], _, h => h
  | o :: os, _, h => performAll hI os (h.perform hI o)

theorem start : Mature I {} := fun _ => by
  refine ⟨?_, fun i p hp => ?_⟩
  · rintro w (rfl | hw)
    · rfl
    · cases hw
  · cases hp

end Mature

/-- Where a propagation begins: after some operations, or when a diagram was added after them. -/
def Poised (o : Solver) : Prop :=
  ∃ os, o = performAll {} os ∨ ∃ p, (performAll {} os).Admits p ∧ o = (performAll {} os).enrol p

theorem Poised.maturing (hI : Matures I) (h : s.Poised) (alive : s.rootFailure = none) : Maturing I s := by
  obtain ⟨os, h⟩ := h
  have before : Mature I (performAll {} os) := Mature.performAll hI os .start
  rcases h with rfl | ⟨p, admits, rfl⟩
  · exact (before alive).maturing
  · exact .enrol (before admits.rootFailure) admits

/-- After a propagation which succeeds all diagrams have the property, and in the course of a propagation each one
does as soon as it was called without failing. -/
theorem Poised.holds (hI : Matures I) (h : s.Poised)
    (done : s.propagate = (none, t) ∨ s.rootFailure = none ∧ s.Succeeds i t) {p : Plan} {d : Diagram}
    (plan : t.planAt i = some p) (diagram : t.world.diagrams[i]? = some d) : I p d := by
  rcases done with done | ⟨alive, rest, u, hr, hq, hc⟩
  · have alive : s.rootFailure = none := by
      cases failed : s.rootFailure with
      | none => rfl
      | some f =>
        unfold Solver.propagate propagateWithin at done
        rw [failed] at done
        cases done
    obtain ⟨u, hu, same, -⟩ := propagate_eq alive done
    obtain rfl := same rfl
    exact ((h.maturing hI alive).announce.drain hI allowance allowance hu (Or.inl rfl)).holds i p plan _
      (Or.inl rfl) d diagram
  · exact (((h.maturing hI alive).announce.rounds hI hr).call hI hq hc (Or.inl rfl)).2 p d plan diagram

end Solver
end DecisionDiagrams
