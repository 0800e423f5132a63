import DecisionDiagrams.Proofs.Engine.Unrelaxed
import DecisionDiagrams.Proofs.Solver.Excursions
import DecisionDiagrams.Proofs.Solver.Proper

/-! States which do not count as relaxed. After a propagation they are what the labels of every path from the
root lead to, one transition after the other, if the rules keep to what they declare. -/

namespace DecisionDiagrams

open Cascade

namespace Graph

/-- The arcs lead from one node to another. -/
def IsWalk (g : Graph) : NodeId → List ArcId → NodeId → Prop
  | n, [], m => n = m
  | n, a :: as, m => a ∈ g.outgoing n ∧ g.IsWalk (g.arc a).child as m

/-- If every node which does not count as relaxed is what the arcs to it lead to, it is what the walks to it
lead to. -/
theorem follow_of_isWalk {m : Model} (hm : m.Declared .down) {g : Graph} (hg : g.Wf)
    (keeps : ∀ a, g.arcIsActive a = true → (g.state (g.arc a).child .down).relaxed = false →
      (g.state (g.arc a).parent .down).relaxed = false ∧ ∀ i, m.Yields .down (g.layerOf (g.arc a).parent)
        (g.state (g.arc a).parent .down) (g.arc a).value i (g.state (g.arc a).child .down))
    (beside : State → Option State) {n : NodeId} (hn : (g.state n .down).relaxed = false) :
    ∀ {as : List ArcId} {q : NodeId}, g.IsWalk q as n → (g.state q .down).relaxed = false ∧
      ∀ s, (∀ i, m.Alike .down i s (g.state q .down)) →
        ∃ r, m.follow beside (g.layerOf q) s (g.labels as) = .ok r ∧ ∀ i, m.Alike .down i r (g.state n .down)
  | [], q, h => by
    obtain rfl : q = n := h
    exact ⟨hn, fun s hs => ⟨s, rfl, hs⟩⟩
  | a :: as, q, h => by
    obtain ⟨on, rfl⟩ := hg.mem_outgoing.1 h.1
    obtain ⟨hchild, hrest⟩ := follow_of_isWalk hm hg keeps beside hn h.2
    obtain ⟨hpar, hy⟩ := keeps a on hchild
    refine ⟨hpar, fun s hs => ?_⟩
    have hys : ∀ i, m.Yields .down (g.layerOf (g.arc a).parent) s (g.arc a).value i (g.state (g.arc a).child .down) :=
      fun i => hm.yields_congr (fun j _ => (hs j).symm) (hy i)
    obtain ⟨next, hnext⟩ := hm.exists_step (fun i => ⟨_, hys i⟩) (beside s)
    obtain ⟨r, hr, ha⟩ := hrest next fun i => hm.yields_unique (hm.yields_step hnext i) (hys i)
    refine ⟨r, ?_, ha⟩
    rw [hg.adjacent a on] at hr
    show m.follow beside _ s ((g.arc a).value :: g.labels as) = .ok r
    rw [Model.follow, hnext]
    exact hr

end Graph

/-- The laws by which the flag of down states keeps its promise. -/
def Code.unrelaxed : Code := fun p d L => p.model.Declared .down → d = .down → ∀ {l ins σ s o},
  L.holds l ins σ s o → p.model.Promises (p.options.isExact = false) l ins σ s o

theorem Plan.governed_unrelaxed {b : Spec} {p : Plan} (h : b.Plans p) (s : Domains) :
    p.Governed .unrelaxed s where
  distinct := h.distinct
  valid := h.valid
  readsOwn := (Spec.compile_eq_ok.1 h.compiled).2 ▸ b.readsOwn
  laws d := by
    by_cases hm : p.model.Declared .down
    · cases d with
      | down => exact ⟨Law.unrelaxed hm, fun _ _ _ _ _ _ _ h => h, fun _ _ _ _ => trivial⟩
      | up => exact ⟨Law.free p .up, fun _ e => (nomatch e), fun _ _ _ _ => trivial⟩
    · exact ⟨Law.free p d, fun h => absurd h hm, fun _ _ _ _ => trivial⟩

theorem Rules.free_upholds_unrelaxed :
    Rules.free.Upholds (fun _ _ => False) (fun _ _ => False) (Obeys .unrelaxed) :=
  Obeys.upheld fun s _ _ h => Plan.governed_unrelaxed h s.domains

/-- Let the rules for down states keep to what they declare. Whatever the rules of the other diagrams are,
after a propagation a down state which does not count as relaxed is, in all its properties, what the labels
of every path from the root to its node lead to. -/
theorem Run.follow_of_unrelaxed {h : Story Spec} {s : Solver} (run : Run .free h s) (calm : h.calm = true)
    {o t : Solver} (starts : s.Starts .free o) (done : o.propagate = (none, t)) {i : Nat} {p : Plan}
    {d : Diagram} (plan : o.planAt i = some p) (diagram : t.world.diagrams[i]? = some d) {b : Spec}
    (plans : b.Plans p) (declared : b.Declared) {root n : NodeId} (top : root ∈ d.graph.layer 0)
    {as : List ArcId} (walk : d.graph.IsWalk root as n) (unrelaxed : (d.graph.state n .down).relaxed = false)
    (beside : State → Option State) :
    ∃ r, p.model.follow beside 0 (p.model.fresh .down) (d.graph.labels as) = .ok r ∧
      ∀ j, p.model.Alike .down j r (d.graph.state n .down) := by
  have hm : p.model.Declared .down := by
    obtain ⟨hc, e⟩ := Spec.compile_eq_ok.1 plans.compiled
    exact e ▸ declared.model hc
  obtain ⟨kept, alive⟩ := run.kept_of_starts Rules.free_upholds_unrelaxed calm starts
  obtain ⟨-, -, -, hpr, -⟩ := kept.propagate Rules.free_upholds_unrelaxed.toUpheld alive done
  have hs := run.stands_of_propagate Rules.free_upholds_unrelaxed calm starts done ((hpr.plan i).trans plan)
    diagram
  obtain ⟨L, hL, -, hlaw⟩ := hs.lawful .down
  have ht := hs.agrees.1
  have promises : ∀ a, d.graph.arcIsActive a = true → ∀ o, p.model.Promises (p.options.isExact = false)
      (d.graph.layerOf (d.graph.arc a).parent) ((d.workspace p t.domains).enters .down (d.graph.arc a).child)
      (fun q => d.graph.state q .down) (d.graph.state (d.graph.arc a).child .down) o := by
    intro a ha o
    have hadj := ht.wf.adjacent a ha
    have hsown : (d.workspace p t.domains).Sown p .down (d.graph.arc a).child :=
      Nat.lt_of_lt_of_eq (Nat.succ_pos _) hadj.symm
    have on : d.graph.isActive (d.graph.arc a).child = true :=
      (hlaw.reached a ha).resolve_right List.not_mem_nil
    have hfeed : (d.workspace p t.domains).feedLayer .down (d.graph.arc a).child =
        d.graph.layerOf (d.graph.arc a).parent := by
      show d.graph.layerOf _ - 1 = _
      rw [show d.graph.layerOf (d.graph.arc a).child = _ from hadj]
      rfl
    have hof : L.holds ((d.workspace p t.domains).feedLayer .down (d.graph.arc a).child) _ _ _ o :=
      hlaw.of_workspace on hsown o
    rw [hfeed] at hof
    exact hL hm rfl hof
  have keeps : ∀ a, d.graph.arcIsActive a = true → (d.graph.state (d.graph.arc a).child .down).relaxed = false →
      (d.graph.state (d.graph.arc a).parent .down).relaxed = false ∧
        ∀ j, p.model.Yields .down (d.graph.layerOf (d.graph.arc a).parent)
          (d.graph.state (d.graph.arc a).parent .down) (d.graph.arc a).value j
          (d.graph.state (d.graph.arc a).child .down) := by
    intro a ha hr
    have enters : (d.workspace p t.domains).enters .down (d.graph.arc a).child (d.graph.arc a).parent
        (d.graph.arc a).value := ⟨a, ha, rfl, rfl, rfl⟩
    exact ⟨promises a ha none hr _ _ enters, fun j => (promises a ha (some j)).1 hr _ _ enters⟩
  obtain ⟨on, hlay⟩ := ht.wf.mem_layer.1 top
  have hseed : d.graph.state root .down = p.model.fresh .down := hlaw.seed root on hlay
  obtain ⟨r, hr, ha⟩ := (Graph.follow_of_isWalk hm ht.wf keeps beside unrelaxed walk).2
    (p.model.fresh .down) fun j => hseed ▸ .refl _ _ _ _
  exact ⟨r, (show d.graph.layerOf root = 0 from hlay) ▸ hr, ha⟩
/-! The diagram of width one over two variables which have to differ. The node between them stands for both
values of the first variable, until this is set to 1. -/
namespace Alternating

/-- The value before, as it is registered. -/
def last : Property where
  constraint := 0
  kind := .integer 0 0 2
  relaxation := .minimum
  rule := .transition [] fun _ values out => .ok (out.setInteger 0 (values.toList.headD 0))

theorem declared : spec.Declared := by
  have only : ∀ {i : Nat} {q : Property}, spec.properties.down[i]? = some q → i = 0 ∧ q = last := by
    intro i q hq
    have hlt := (Array.getElem?_eq_some_iff.1 hq).1
    obtain rfl : i = 0 := Nat.lt_one_iff.1 hlt
    exact ⟨rfl, (Option.some.inj hq).symm⟩
  refine ⟨fun hq => ?_, fun hq reads run hrule x y values a b w hx hy hl hv hs ha hb hw => ?_⟩
  · obtain ⟨rfl, rfl⟩ := only hq
    exact .of_total rfl nofun fun hl => View.writes_setInteger hl _ _
  · obtain ⟨rfl, rfl⟩ := only hq
    obtain ⟨rfl, rfl⟩ := Rule.transition.inj hrule
    obtain rfl := Except.ok.inj hw
    refine ⟨_, rfl, fun slot hslot => ?_⟩
    have sound := Spec.sound_layout answers.1.1 .down
    obtain ⟨q, hq, hk⟩ := Spec.property_of_slot hslot
    obtain ⟨-, rfl⟩ := only hq
    exact View.agree_setInteger (ha ▸ sound) (hb ▸ sound) (by unfold View.slot?; rw [ha]; exact hslot)
      (by unfold View.slot?; rw [hb]; exact hslot) hk _

def resolved : Solver := (slim.assign 0 1).toOption.getD slim

/-- The diagram of a solver, if there is one. -/
def diagramOf (s : Solver) : Diagram := (s.world.diagrams[0]?).getD default

/-- The node in the middle counts as relaxed until the value 1 is assigned and leads to it alone. -/
theorem resolution : (slim.assign 0 1).toOption.isSome = true ∧ resolved.propagate.1 = none ∧
    ((diagramOf slim).graph.state 1 .down).relaxed = true ∧
    ((diagramOf resolved.propagate.2).graph.state 1 .down).relaxed = false ∧
    0 ∈ (diagramOf resolved.propagate.2).graph.layer 0 ∧ 0 ∈ (diagramOf resolved.propagate.2).graph.outgoing 0 ∧
    ((diagramOf resolved.propagate.2).graph.arc 0).child = 1 ∧
    (diagramOf resolved.propagate.2).graph.labels [0] = [1] := by decide +kernel

theorem assign_slim : slim.assign 0 1 = .ok resolved := Lone.eq_ok_getD resolution.1

theorem run_started : ∃ h, Run .free h started ∧ h.calm = true := by
  have h₁ : ({} : Solver).addVariable (some domain) = .ok (0, first) := rfl
  have h₂ : first.addVariable (some domain) = .ok (1, started) := rfl
  exact ⟨_, (Run.start.addVariable rfl h₁).addVariable rfl h₂, rfl⟩

theorem run_resolved : ∃ h, Run .free h resolved ∧ h.calm = true := by
  obtain ⟨h, run, calm⟩ := run_started
  exact ⟨_, (run.post calm plans_narrow add_started).restrict calm assign_slim, calm⟩

/-- Neither posting nor assigning changes which plan a diagram has. -/
theorem planAt_resolved : resolved.planAt 0 = some narrow := by
  rw [Solver.planAt_of_restrict assign_slim]
  exact Solver.planAt_of_addDiagram add_started

end Alternating

theorem Run.follow_of_unrelaxed_alternating :
    ((Alternating.diagramOf Alternating.slim).graph.state 1 .down).relaxed = true ∧
    ((Alternating.diagramOf Alternating.resolved.propagate.2).graph.state 1 .down).relaxed = false ∧
    ∃ r, Alternating.narrow.model.follow (fun _ => none) 0 (Alternating.narrow.model.fresh .down) [1] = .ok r ∧
      ∀ j, Alternating.narrow.model.Alike .down j r
        ((Alternating.diagramOf Alternating.resolved.propagate.2).graph.state 1 .down) := by
  obtain ⟨-, ended, before, unrelaxed, root, out, child, labels⟩ := Alternating.resolution
  obtain ⟨h, run, calm⟩ := Alternating.run_resolved
  have done : Alternating.resolved.propagate = (none, Alternating.resolved.propagate.2) := Prod.fst_eq_iff.1 ended
  have planned := (Solver.planAt_propagate Alternating.resolved 0).trans Alternating.planAt_resolved
  have diagram := Solver.diagram_eq_getD (run.propagate calm done) planned default
  have walk : (Alternating.diagramOf Alternating.resolved.propagate.2).graph.IsWalk 0 [0] 1 := ⟨out, child⟩
  refine ⟨before, unrelaxed, ?_⟩
  rw [← labels]
  exact Run.follow_of_unrelaxed run calm (Or.inl rfl) done (p := Alternating.narrow) Alternating.planAt_resolved diagram
    Alternating.plans_narrow Alternating.declared root walk unrelaxed fun _ => none

end DecisionDiagrams
