import DecisionDiagrams.Proofs.Solver.Obeys
import DecisionDiagrams.Proofs.Solver.Termination

/-! The form of a diagram after a propagation: one root and one sink, no node without arcs on a side where
it needs them, arcs between neighbouring layers only, supports which count the arcs, and an arc for
every value of a domain. -/

namespace DecisionDiagrams

/-- A diagram in order beside domains. -/
structure Diagram.Proper (p : Plan) (d : Diagram) (s : Domains) : Prop where
  root : (d.graph.layer 0).size = 1
  sink : (d.graph.layer p.model.depth).size = 1
  incoming : ∀ l ≤ p.model.depth, l ≠ 0 → ∀ n ∈ d.graph.layer l, d.graph.incoming n ≠ #[]
  outgoing : ∀ l < p.model.depth, ∀ n ∈ d.graph.layer l, d.graph.outgoing n ≠ #[]
  /-- Arcs lead from one layer to the next, and both ends list them. -/
  adjacent : ∀ a, d.graph.arcIsActive a = true → ∃ l < p.model.depth,
    (d.graph.arc a).parent ∈ d.graph.layer l ∧ (d.graph.arc a).child ∈ d.graph.layer (l + 1) ∧
      a ∈ d.graph.outgoing (d.graph.arc a).parent ∧ a ∈ d.graph.incoming (d.graph.arc a).child
  supports : ∀ l < p.model.depth, ∀ v, (d.supports.getD l ∅).count v = d.graph.labelled l v
  supported : ∀ l < p.model.depth, ∀ v, s.contains (p.model.var l) v = true → d.graph.HasLabel l v

/-- The law which says nothing. -/
def Law.free (p : Plan) (d : Direction) : Law p d where
  label _ _ := True
  holds _ _ _ _ _ := True
  moved _ _ _ _ := trivial
  thinned _ _ _ _ _ _ _ _ _ := trivial
  arrived _ _ _ _ _ _ _ _ _ _ _ _ _ _ _ _ _ := trivial
  blended _ _ _ _ _ _ _ _ _ _ _ := trivial

theorem Plan.governed_free {b : Spec} {p : Plan} (h : b.Plans p) (s : Domains) :
    p.Governed (fun _ _ _ => True) s where
  distinct := h.distinct
  valid := h.valid
  readsOwn := (Spec.compile_eq_ok.1 h.compiled).2 ▸ b.readsOwn
  laws d := ⟨Law.free p d, trivial, fun _ _ _ _ => trivial⟩

theorem Rules.free_upholds_obeys :
    Rules.free.Upholds (fun _ _ => False) (fun _ _ => False) (Obeys fun _ _ _ => True) :=
  Obeys.upheld fun s _ _ h => Plan.governed_free h s.domains

open Cascade

/-- A layer with a single node. -/
theorem Sole.size_layer {w : Workspace} (hw : w.graph.Wf) {l : Nat} (h : Sole w l) :
    (w.graph.layer l).size = 1 := by
  obtain ⟨n, hn, hl, only⟩ := h
  have hmem := hw.mem_layer.2 ⟨hn, hl⟩
  have hpos : 0 < (w.graph.layer l).size := Array.size_pos_of_mem hmem
  by_contra hne
  have hsecond : 1 < (w.graph.layer l).size := by omega
  have place : ∀ i (hi : i < (w.graph.layer l).size), (w.graph.node n).position = i := fun i hi => by
    have hi' := Array.getElem?_eq_getElem hi
    obtain ⟨hact, hlay, hpos⟩ := hw.node_of_layer l i _ hi'
    rwa [only _ hact hlay] at hpos
  exact absurd ((place 0 hpos).symm.trans (place 1 hsecond)) (by decide)

theorem Obeys.in_order {C : Code} {p : Plan} {stale : Nat → Prop} {d : Diagram} {s : Domains}
    (h : Obeys C p stale d s) : d.Proper p s := by
  obtain ⟨L, -, -, hlaw⟩ := h.lawful .down
  obtain ⟨ht, hs⟩ := h.agrees
  have whole := hlaw.toWhole
  refine ⟨whole.root.size_layer ht.wf, (whole.sink rfl).size_layer ht.wf, fun l _ h0 n hn => ?_,
    fun l hl n hn => ?_, fun a ha => ?_, fun l _ v => ht.supports l v, fun l hl v hv => ?_⟩
  · obtain ⟨on, hlay⟩ := ht.wf.mem_layer.1 hn
    refine h.arcsOn_ne (e := .down) on ?_
    show 0 < d.graph.layerOf n
    exact Nat.pos_of_ne_zero fun e => h0 (hlay.symm.trans e)
  · obtain ⟨on, hlay⟩ := ht.wf.mem_layer.1 hn
    exact h.arcsOn_ne (e := .up) on (Nat.lt_of_le_of_lt (Nat.le_of_eq hlay) hl)
  · have hpar := ht.parent_active ha
    have hch := (whole.reached a ha).resolve_right List.not_mem_nil
    refine ⟨d.graph.layerOf (d.graph.arc a).parent, ht.toCensus.parent_lt_depth ha,
      ht.wf.mem_layer.2 ⟨hpar, rfl⟩, ht.wf.mem_layer.2 ⟨hch, ht.wf.adjacent a ha⟩,
      ht.wf.mem_outgoing.2 ⟨ha, rfl⟩, ht.wf.mem_incoming.2 ⟨ha, rfl⟩⟩
  · exact ht.hasLabel_iff.2 (hs l (List.mem_range.2 hl) v hv)

/-- In every run over specifications, whatever they are, diagrams are in order after a propagation which
succeeds, and in the course of a propagation each one is as soon as it was called without failing. -/
theorem Run.proper {h : Story Spec} {s : Solver} (run : Run .free h s) (calm : h.calm = true) {o t : Solver}
    (starts : s.Starts .free o) {i : Nat} (done : o.propagate = (none, t) ∨ o.Succeeds i t) {p : Plan}
    {d : Diagram} (plan : t.planAt i = some p) (diagram : t.world.diagrams[i]? = some d) :
    d.Proper p t.domains := by
  rcases done with done | called
  · exact (run.stands_of_propagate Rules.free_upholds_obeys calm starts done plan diagram).in_order
  · obtain ⟨_, hs⟩ := run.stands_of_call Rules.free_upholds_obeys calm starts called plan diagram
    exact hs.in_order

/-! The diagram of width one over two variables which have to differ. On a checkpoint the first one is set
to 2, the only value left to the other, and after the conflict the checkpoint is left again. -/
namespace Alternating

def slim : Solver := (started.addDiagram narrow).2

def cornered : Solver := ((slim.openCheckpoint).assign 0 2).toOption.getD slim

def recovered : Solver := (cornered.propagate.2.backtrack? 0).getD slim

/-- How the operations are answered. -/
theorem recovery : (started.addDiagram narrow).1 = .ok 0 ∧
    (slim.openCheckpoint.assign 0 2).toOption.isSome = true ∧ cornered.propagate.1 = some .emptyDomain ∧
    (cornered.propagate.2.backtrack? 0).isSome = true ∧ recovered.propagate.1 = none := by decide +kernel

theorem add_started : started.addDiagram narrow = (.ok 0, slim) := Prod.fst_eq_iff.1 recovery.1

theorem assign_opened : slim.openCheckpoint.assign 0 2 = .ok cornered := Lone.eq_ok_getD recovery.2.1

theorem backtrack_cornered : cornered.propagate.2.backtrack? 0 = some recovered :=
  Lone.eq_some_getD recovery.2.2.2.1 slim

theorem propagate_recovered : recovered.propagate = (none, recovered.propagate.2) :=
  Prod.fst_eq_iff.1 recovery.2.2.2.2

theorem planAt_recovered : recovered.propagate.2.planAt 0 = some narrow := by
  have returned : recovered.planAt 0 = cornered.propagate.2.planAt 0 := Solver.planAt_backtrack? backtrack_cornered
  rw [Solver.planAt_propagate, returned, Solver.planAt_propagate, Solver.planAt_of_restrict assign_opened]
  exact Solver.planAt_of_addDiagram add_started

theorem run_recovered : ∃ h, Run .free h recovered ∧ h.calm = true := by
  have h₁ : ({} : Solver).addVariable (some domain) = .ok (0, first) := rfl
  have h₂ : first.addVariable (some domain) = .ok (1, started) := rfl
  have plans : spec.Plans narrow := ⟨plans.registered, plans.compiled, rfl⟩
  have failed : cornered.propagate = (some .emptyDomain, cornered.propagate.2) := Prod.fst_eq_iff.1 recovery.2.2.1
  exact ⟨_, (((((Run.start.addVariable rfl h₁).addVariable rfl h₂).post rfl plans add_started).openCheckpoint rfl
    trivial).restrict rfl assign_opened |>.conflict rfl failed rfl).backtrack backtrack_cornered, rfl⟩

end Alternating

theorem Run.proper_alternating :
    ((Alternating.recovered.propagate.2.world.diagrams[0]?).getD default).Proper
      ((Alternating.recovered.propagate.2.planAt 0).getD Alternating.narrow)
      Alternating.recovered.propagate.2.domains := by
  obtain ⟨h, run, calm⟩ := Alternating.run_recovered
  have done := Alternating.propagate_recovered
  have plan := Lone.eq_some_getD (Option.isSome_of_eq_some Alternating.planAt_recovered) Alternating.narrow
  have diagram := Solver.diagram_eq_getD (run.propagate calm done) Alternating.planAt_recovered default
  exact Run.proper run calm (Or.inl rfl) (Or.inl done) plan diagram

end DecisionDiagrams
