import DecisionDiagrams.Proofs.Engine.Offshoots
import DecisionDiagrams.Proofs.Solver.Termination

/-! The assignments of a diagram, which are the label sequences of its paths from the root to the sink. Once
a diagram is built a propagation can only lose assignments. -/

namespace DecisionDiagrams

open Work Cascade

/-- The label sequences of the paths from the root to the sink. -/
def Graph.assignments (g : Graph) (depth : Nat) : Set (List Int) :=
  { vs | ∃ as, g.IsFullPath depth as ∧ g.labels as = vs }

theorem Graph.Folds.assignments {f : NodeId → NodeId} {g g' : Graph} (h : Folds f g g') (hw : g.Wf) (hw' : g'.Wf)
    (depth : Nat) : g'.assignments depth ⊆ g.assignments depth := by
  rintro _ ⟨as, has, rfl⟩
  exact h.fullPath hw hw' has

namespace Diagram

/-- The diagrams to which calls can lead, on any domains, with any notices and allowances, whether they
succeeded or ended in a conflict. -/
inductive Reachable (p : Plan) : Diagram → Prop
  | initial : Reachable p (.initial p.model)
  | propagate {d fuel lost s} (reachable : Reachable p d)
    (ended : ∀ e, (d.propagate p fuel lost s).stop = some e → e.isConflict = true) :
    Reachable p (d.propagate p fuel lost s).diagram

variable {p : Plan} {d : Diagram}

theorem suits_workspace (d : Diagram) (p : Plan) (s : Domains) :
    (d.workspace p s).agenda.Suits p (d.workspace p s).graph := fun e l x hx => by
  rw [show (d.workspace p s).agenda = Agenda.empty _ from rfl, Agenda.waiting_empty] at hx
  cases hx

theorem filed_of_built {s : Domains} (hb : d.built = true) (hc : Census p (d.workspace p s)) :
    Filed p (d.workspace p s) where
  toCensus := hc
  built := hb
  cached := Memo.sound_empty _
  suits := suits_workspace d p s

theorem Reachable.usable {t : Spec} (hp : t.Plans p) (h : d.Reachable p) : d.Usable p := by
  induction h with
  | initial => exact Or.inl rfl
  | @propagate d fuel lost s _ ended ih =>
    have hwp : wp (if p.options.isExact then maintainExact p lost else maintainRelaxed p fuel lost)
        (fun _ w' => Filed p w') (Unharmed p) (d.workspace p s) := by
      rcases ih with rfl | ⟨hb, hc⟩
      · exact wp.mono (determined_first hp.distinct hp.valid fuel lost rfl rfl (tidy_initial p (fun _ => False) s)
          (suits_workspace _ p s)) (fun _ _ k => k.1) fun _ _ k => k
      · exact wp.mono (traces_maintain fuel lost hb (filed_of_built hb (hc s))) (fun _ _ k => k.1)
          fun e _ k => k.1.unharmed e
    obtain ⟨w', hd, -, hok, hstop⟩ := propagate_of_wp hwp
    rw [hd]
    cases he : (d.propagate p fuel lost s).stop with
    | none => exact usable_of_census (hok he).toCensus (hok he).built
    | some e =>
      obtain ⟨hc, hb⟩ := hstop e he (ended e he)
      exact usable_of_census hc hb

/-- A call of a built diagram leaves no assignment which the diagram did not have, whether the call succeeds
or not, although it may create nodes and arcs. -/
theorem Reachable.assignments_subset {t : Spec} (hp : t.Plans p) (h : d.Reachable p) (hb : d.built = true)
    (fuel : Nat) (lost : List Nat) (s : Domains) :
    (d.propagate p fuel lost s).diagram.graph.assignments p.model.depth ⊆ d.graph.assignments p.model.depth := by
  obtain ⟨-, hc⟩ := (h.usable hp).resolve_left fun e => by
    subst e
    cases hb
  have hf := filed_of_built hb (hc s)
  obtain ⟨w', hd, -, hok, hstop⟩ := propagate_of_wp (traces_maintain fuel lost hb hf)
  have hr : Filed p w' ∧ Retraces (d.workspace p s) w' := by
    cases he : (d.propagate p fuel lost s).stop with
    | none => exact hok he
    | some e => exact hstop e he
  obtain ⟨f, hfolds, -⟩ := hr.2.folds
  rw [hd]
  exact hfolds.assignments hf.wf hr.1.wf _

end Diagram

/-! The diagram of width one over two variables in 1 and 2 which have to differ, after its first call, and then
called with the value 1 for both. -/
namespace Alternating

def once : Propagated := (Diagram.initial narrow.model).propagate narrow 10 [] started.domains

/-- How the two calls end. -/
theorem once_ended : once.stop = none ∧ once.diagram.built = true ∧
    (once.diagram.propagate narrow 10 [0, 1] clash.domains).stop ≠ none ∧
    started.domains.contains 1 1 = true ∧ once.domains.contains 1 1 = false := by decide +kernel

end Alternating

theorem Diagram.Reachable.assignments_subset_alternating :
    Alternating.once.diagram.built = true ∧
    (Alternating.once.diagram.propagate Alternating.narrow 10 [0, 1] Alternating.clash.domains).stop ≠ none ∧
    (Alternating.once.diagram.propagate Alternating.narrow 10 [0, 1]
      Alternating.clash.domains).diagram.graph.assignments Alternating.narrow.model.depth ⊆
      Alternating.once.diagram.graph.assignments Alternating.narrow.model.depth := by
  obtain ⟨done, built, stopped, -⟩ := Alternating.once_ended
  have reachable : Alternating.once.diagram.Reachable Alternating.narrow :=
    Diagram.Reachable.initial.propagate fun e he => absurd (he.symm.trans done) (Option.some_ne_none e)
  exact ⟨built, stopped, Diagram.Reachable.assignments_subset Alternating.plans_narrow reachable built 10 [0, 1]
    Alternating.clash.domains⟩

end DecisionDiagrams
