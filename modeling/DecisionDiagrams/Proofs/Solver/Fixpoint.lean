import DecisionDiagrams.Proofs.Engine.Fixpoint
import DecisionDiagrams.Proofs.Solver.PartialSums
import DecisionDiagrams.Proofs.Solver.Proper

/-! The states which relaxed diagrams keep. After a propagation the down state of every node is what the
registered relaxations make of the transitions over its incoming arcs, one label each, and the up state is
the same of the outgoing arcs, if there are up states at all. -/

namespace DecisionDiagrams

open Cascade

/-- The stored states are what the labels of the arcs make of the states of the neighbours. -/
structure Diagram.Settled (p : Plan) (d : Diagram) : Prop where
  down : ∀ l < p.model.depth, ∀ n ∈ d.graph.layer (l + 1), ∃ ss,
    (d.graph.incoming n).toList.mapM (fun a => p.model.step .down l
      (d.graph.state (d.graph.arc a).parent .down) none (.singleton (d.graph.arc a).value)) = .ok ss ∧
    ∀ i, p.model.Merges .down i ss (d.graph.state n .down)
  up : p.model.hasUp = true → ∀ l < p.model.depth, ∀ n ∈ d.graph.layer l, ∃ ss,
    (d.graph.outgoing n).toList.mapM (fun a => p.model.step .up l
      (d.graph.state (d.graph.arc a).child .up) none (.singleton (d.graph.arc a).value)) = .ok ss ∧
    ∀ i, p.model.Merges .up i ss (d.graph.state n .up)

/-- In the properties for which `down` and `up` hold, the stored states are what the labels of the arcs make of the
states of the neighbours. `beside` says which combined states the transitions are given. -/
structure Diagram.SettledIn (p : Plan) (d : Diagram) (beside : NodeId → Option State) (down up : Nat → Prop) :
    Prop where
  down : ∀ l < p.model.depth, ∀ n ∈ d.graph.layer (l + 1), ∃ ss,
    (d.graph.incoming n).toList.mapM (fun a => p.model.step .down l
      (d.graph.state (d.graph.arc a).parent .down) (beside (d.graph.arc a).parent)
      (.singleton (d.graph.arc a).value)) = .ok ss ∧
    ∀ i, down i → p.model.Merges .down i ss (d.graph.state n .down)
  up : p.model.hasUp = true → ∀ l < p.model.depth, ∀ n ∈ d.graph.layer l, ∃ ss,
    (d.graph.outgoing n).toList.mapM (fun a => p.model.step .up l
      (d.graph.state (d.graph.arc a).child .up) (beside (d.graph.arc a).child)
      (.singleton (d.graph.arc a).value)) = .ok ss ∧
    ∀ i, up i → p.model.Merges .up i ss (d.graph.state n .up)

/-- Properties which are at the fixpoint by the laws of a diagram are settled in it. -/
theorem Obeys.settledIn {C : Code} {p : Plan} {stale : Nat → Prop} {d : Diagram} {s : Domains}
    (h : Obeys C p stale d s) (hx : p.options.isExact = false) {P : Direction → Nat → Prop}
    (sure : ∀ e, p.model.Sure e (P e))
    (least : ∀ (e : Direction) n, d.graph.isActive n = true → (d.workspace p s).Sown p e n → ∀ i, P e i →
      p.model.Least e ((d.workspace p s).feedLayer e n) ((d.workspace p s).enters e n)
        (fun q => d.graph.state q e.side) (d.graph.state n e.side) i) (beside : NodeId → Option State) :
    d.SettledIn p beside (P .down) (P .up) := by
  have ht := h.agrees.1
  -- what the laws say about the arcs on one side of a node
  have side : ∀ e n, d.graph.isActive n = true → (d.workspace p s).Sown p e n →
      Inner p.model.depth (d.workspace p s) e n → ∃ ss,
      ((d.workspace p s).arcsOn e n).toList.mapM (fun a => p.model.step e
        ((d.workspace p s).feedLayer e n) (d.graph.state ((d.workspace p s).feeder e a) e.side)
        (beside ((d.workspace p s).feeder e a)) (.singleton (d.graph.arc a).value)) = .ok ss ∧
      ∀ i, P e i → p.model.Merges e.side i ss (d.graph.state n e.side) := by
    intro e n on hs hi
    have ins : ∀ q v, (d.workspace p s).enters e n q v ↔
        ∃ a ∈ ((d.workspace p s).arcsOn e n).toList, (d.workspace p s).feeder e a = q ∧ (d.graph.arc a).value = v := by
      intro q v
      simp only [Array.mem_toList_iff, mem_arcsOn ht.wf, Workspace.enters, and_assoc]
      exact Iff.rfl
    have nonempty : ((d.workspace p s).arcsOn e n).toList ≠ [] := fun hnil =>
      h.arcsOn_ne on hi (Array.toList_eq_nil_iff.1 hnil)
    obtain ⟨ss, hss⟩ := Checked.exists_mapM (l := ((d.workspace p s).arcsOn e n).toList) fun a _ =>
      (sure e).total ((d.workspace p s).feedLayer e n) (d.graph.state ((d.workspace p s).feeder e a) e.side)
        (beside ((d.workspace p s).feeder e a)) (d.graph.arc a).value
    refine ⟨ss, hss, fun i hP => ?_⟩
    exact (least e n on hs i hP).merges (σ := fun q => d.graph.state q e.side) ((sure e).certain i hP)
      ((sure e).toSeparate.apart i) (sure e).toLattice ins nonempty hss
  refine ⟨fun l hl n hn => ?_, fun hup l hl n hn => ?_⟩
  · obtain ⟨on, hlay⟩ := ht.wf.mem_layer.1 hn
    have pos : 0 < d.graph.layerOf n := Nat.lt_of_lt_of_eq (Nat.succ_pos l) hlay.symm
    have h := side .down n on pos pos
    have e : (d.workspace p s).feedLayer .down n = l := by
      show d.graph.layerOf n - 1 = l
      rw [show d.graph.layerOf n = l + 1 from hlay]
      rfl
    rw [e] at h
    exact h
  · obtain ⟨on, hlay⟩ := ht.wf.mem_layer.1 hn
    have low : d.graph.layerOf n < p.model.depth := Nat.lt_of_le_of_lt (Nat.le_of_eq hlay) hl
    have h := side .up n on ⟨hup, low, h.upKnown hx hup⟩ low
    have e : (d.workspace p s).feedLayer .up n = l := hlay
    rw [e] at h
    exact h

/-- The laws by which states are at the fixpoint. -/
def Code.joined : Code := fun p d L => (∃ D, p.model.Joined d D) ∧ ∀ {l ins σ s i},
  L.holds l ins σ s (some i) → p.options.isExact = false → p.model.Least d l ins σ s i

theorem Rules.ruled_governed {s : Solver} {b : Posting} {p : Plan} (h : Rules.ruled.plan s b p) :
    p.Governed .joined s.domains := by
  have hd := Rules.ruled_distinct h
  obtain ⟨-, hv, hcs, hm⟩ := h
  refine ⟨hd, hv, (Spec.compile_eq_ok.1 hm).2 ▸ Spec.readsOwn _, fun d => ?_⟩
  have hj := Spec.joined_ofConstraints hcs hm d
  exact ⟨Law.joined hj, ⟨⟨_, hj⟩, fun h hx => h hx trivial⟩, fun _ _ _ hc => hc⟩

theorem Rules.ruled_upholds_joined :
    Rules.ruled.Upholds (fun _ _ => False) (fun _ _ => False) (Obeys .joined) :=
  Obeys.upheld fun _ _ _ h => Rules.ruled_governed h

/-- Every property of a state is the least value above what the labels make of the neighbours. -/
theorem Obeys.least {p : Plan} {stale : Nat → Prop} {d : Diagram} {s : Domains} {e : Direction} {n : NodeId}
    (h : Obeys .joined p stale d s) (hx : p.options.isExact = false) (on : d.graph.isActive n = true)
    (hs : (d.workspace p s).Sown p e n) : ∃ D, p.model.Joined e D ∧
      ∀ i, p.model.Least e ((d.workspace p s).feedLayer e n) ((d.workspace p s).enters e n)
        (fun q => d.graph.state q e.side) (d.graph.state n e.side) i := by
  obtain ⟨L, ⟨⟨D, hD⟩, hL⟩, -, hlaw⟩ := h.lawful e
  exact ⟨D, hD, fun i => hL (hlaw.of_workspace on hs (some i)) hx⟩

theorem Obeys.settled {p : Plan} {stale : Nat → Prop} {d : Diagram} {s : Domains}
    (h : Obeys .joined p stale d s) (hx : p.options.isExact = false) : d.Settled p := by
  have sure : ∀ e, p.model.Sure e fun _ => True := fun e => by
    obtain ⟨L, ⟨⟨D, hD⟩, -⟩, -⟩ := h.lawful e
    exact hD.sure
  have settled : d.SettledIn p (fun _ => none) (fun _ => True) fun _ => True :=
    h.settledIn hx (P := fun _ _ => True) sure (fun e n on hs i _ => (h.least hx on hs).choose_spec.2 i) _
  refine ⟨fun l hl n hn => ?_, fun hup l hl n hn => ?_⟩
  · obtain ⟨ss, hss, merges⟩ := settled.down l hl n hn
    exact ⟨ss, hss, fun i => merges i trivial⟩
  · obtain ⟨ss, hss, merges⟩ := settled.up hup l hl n hn
    exact ⟨ss, hss, fun i => merges i trivial⟩

/-- In every run over library constraints, the states of relaxed diagrams are at the fixpoint after every
propagation, and in the course of a propagation as soon as the diagram was called without failing. -/
theorem Run.at_fixpoint {h : Story Posting} {s : Solver} (run : Run .ruled h s) (calm : h.calm = true)
    {o t : Solver} (starts : s.Starts .ruled o) {i : Nat} (done : o.propagate = (none, t) ∨ o.Succeeds i t)
    {p : Plan} {d : Diagram} (plan : t.planAt i = some p) (diagram : t.world.diagrams[i]? = some d)
    (relaxed : p.options.isExact = false) : d.Settled p := by
  rcases done with done | called
  · exact (run.stands_of_propagate Rules.ruled_upholds_joined calm starts done plan diagram).settled relaxed
  · obtain ⟨_, hs⟩ := run.stands_of_call Rules.ruled_upholds_joined calm starts called plan diagram
    exact hs.settled relaxed

/-! Two variables in 1 and 2 which have to be different, in a diagram of width one, of which the first is set
to 1. -/

theorem Narrow.run_ruled : ∃ h : Story Posting, Run .ruled h Narrow.assigned ∧ h.calm = true := by
  have h₁ : ({} : Solver).addVariable (some domain) = .ok (0, first) := rfl
  have h₂ : first.addVariable (some domain) = .ok (1, started) := rfl
  have made : Rules.ruled.plan started ⟨constraints, plan⟩ plan := Rules.ruled_of_library planned
  have run := ((Run.start (R := Rules.ruled)).addVariable rfl h₁).addVariable rfl h₂
  exact ⟨_, (run.post rfl made eq_posted).restrict rfl assign_posted, rfl⟩

theorem Run.at_fixpoint_narrow :
    ((Narrow.assigned.propagate.2.world.diagrams[0]?).getD default).Settled
      ((Narrow.assigned.propagate.2.planAt 0).getD Narrow.plan) := by
  obtain ⟨h, run, calm⟩ := Narrow.run_ruled
  have done : Narrow.assigned.propagate = (none, Narrow.assigned.propagate.2) :=
    Prod.fst_eq_iff.1 Narrow.answers.2.2.2.2.1
  have planned := (Solver.planAt_propagate Narrow.assigned 0).trans Narrow.planAt_assigned
  have diagram := Solver.diagram_eq_getD (run.propagate calm done) planned default
  rw [planned]
  exact Run.at_fixpoint run calm (Or.inl rfl) (Or.inl done) planned diagram rfl

end DecisionDiagrams
